import Labyrinth.Json.Basic
import Labyrinth.Double.Numeral

/-!
# Reading JSON text

A `Json.Reader` takes what it reads off the front of a text. Text is read from left to right and
the first problem decides the `Fault`: text that is not JSON is `malformed`, text that ends inside a
value is `truncated`, and a value that is JSON but not what is wanted is `unfit`. A value that is
skipped may nest to any depth, one that is kept less than 128 levels deep.
-/

namespace Labyrinth.Json

/-- Why a JSON text cannot be read. -/
inductive Fault where
  | malformed
  | truncated
  | unfit
deriving DecidableEq, Repr

def Fault.message : Fault → String
  | .malformed => "malformed text"
  | .truncated => "unexpected end of text"
  | .unfit => "value of the wrong kind"

abbrev Reader (α : Type) := StateT (List Char) (Except Fault) α

namespace Reader

def isSpace (c : Char) : Bool :=
  c = ' ' || c = '\n' || c = '\t' || c = '\r'

/-- The next character that is no white space, which stays in front of the text. -/
def next? : Reader (Option Char) := do
  modify (·.dropWhile isSpace)
  return (← get).head?

/-- Drops the character in front of the text. -/
def skip : Reader Unit :=
  modify (·.drop 1)

/-- The rest of a word whose first letters have been read. -/
def word : List Char → Reader Unit
  | [] => return
  | c :: cs => do
    match ← get with
    | [] => throw .truncated
    | d :: ds => if c = d then set ds; word cs else throw .malformed

/-! ### Strings -/

/-- The value of four hexadecimal digits. -/
def hex4? (a b c d : Char) : Option Nat :=
  [a, b, c, d].foldl (fun n? x => n?.bind fun n =>
    if x.isDigit then some (16 * n + (x.toNat - '0'.toNat))
    else if 'a' ≤ x ∧ x ≤ 'f' then some (16 * n + (x.toNat - 'a'.toNat + 10))
    else if 'A' ≤ x ∧ x ≤ 'F' then some (16 * n + (x.toNat - 'A'.toNat + 10))
    else none) (some 0)

/-- The character that a letter after a backslash stands for. -/
def escaped? (c : Char) : Option Char :=
  match c with
  | '"' => some '"'
  | '\\' => some '\\'
  | '/' => some '/'
  | 'b' => some '\x08'
  | 'f' => some '\x0c'
  | 'n' => some '\n'
  | 'r' => some '\r'
  | 't' => some '\t'
  | _ => none

/-- What is wrong with a text that does not go on with four hexadecimal digits. Four bytes are
taken before any of them is looked at. -/
def hexFault (cs : List Char) : Fault :=
  if String.utf8ByteSize (String.ofList cs) < 4 then .truncated else .malformed

/-- The characters up to the closing quote, `read` being those before, in reverse. A pair of
surrogates stands for one character, and a lone surrogate is malformed. -/
def stringFrom (read : List Char) : List Char → Except Fault (String × List Char)
  | [] => .error .truncated
  | '"' :: cs => .ok (String.ofList read.reverse, cs)
  | '\\' :: 'u' :: a :: b :: c :: d :: cs =>
    match hex4? a b c d with
    | none => .error .malformed
    | some high =>
      if 0xD800 ≤ high ∧ high < 0xDC00 then
        match cs with
        | '\\' :: 'u' :: a :: b :: c :: d :: cs =>
          match hex4? a b c d with
          | none => .error .malformed
          | some low =>
            if 0xDC00 ≤ low ∧ low < 0xE000 then
              stringFrom (Char.ofNat (0x10000 + (high - 0xD800) * 0x400 + (low - 0xDC00)) :: read) cs
            else .error .malformed
        | '\\' :: 'u' :: cs => .error (hexFault cs)
        | [] => .error .truncated
        | ['\\'] => .error .truncated
        | _ => .error .malformed
      else if 0xDC00 ≤ high ∧ high < 0xE000 then .error .malformed
      else stringFrom (Char.ofNat high :: read) cs
  | '\\' :: 'u' :: cs => .error (hexFault cs)
  | ['\\'] => .error .truncated
  | '\\' :: c :: cs =>
    match escaped? c with
    | some e => stringFrom (e :: read) cs
    | none => .error .malformed
  | c :: cs => if c.toNat < 0x20 then .error .malformed else stringFrom (c :: read) cs

/-- A string whose opening quote has been read. -/
def string : Reader String :=
  fun cs => stringFrom [] cs

/-- What follows the closing quote of a string whose surrogates do not matter. -/
def afterString : List Char → Except Fault (List Char)
  | [] => .error .truncated
  | '"' :: cs => .ok cs
  | '\\' :: 'u' :: a :: b :: c :: d :: cs =>
    if (hex4? a b c d).isSome then afterString cs else .error .malformed
  | '\\' :: 'u' :: cs => .error (hexFault cs)
  | ['\\'] => .error .truncated
  | '\\' :: c :: cs => if (escaped? c).isSome then afterString cs else .error .malformed
  | c :: cs => if c.toNat < 0x20 then .error .malformed else afterString cs

def skipString : Reader Unit :=
  fun cs => (afterString cs).map ((), ·)

/-! ### Numbers -/

/-- A number as it is written: `digits * 10 ^ exponent` with a sign. -/
structure Numeral where
  negative : Bool
  digits : Nat
  exponent : Int
  /-- Whether it has neither a fraction nor an exponent. -/
  whole : Bool

namespace Numeral

/-- The integer that a numeral is: written as one, not negative zero, and of 64 bits with or
without sign. -/
def int? (n : Numeral) : Option Int :=
  let value : Int := if n.negative then -n.digits else n.digits
  if !n.whole || n.negative && n.digits = 0 then none
  else if Int64.minValue.toInt ≤ value ∧ value < UInt64.size then some value
  else none

def float (n : Numeral) : Float :=
  let x := Double.ofScientific n.digits n.exponent
  if n.negative then -x else x

end Numeral

/-- At least one digit. `early` is the fault of a text that ends here. -/
def digits (early : Fault) : Reader (List Char) := do
  let cs ← get
  match cs with
  | [] => throw early
  | c :: _ =>
    if c.isDigit then
      set (cs.dropWhile Char.isDigit)
      return cs.takeWhile Char.isDigit
    else throw .malformed

/-- A numeral. A zero in front has no digit behind it. -/
def numeralWith (early : Fault) : Reader Numeral := do
  let negative := (← get).head? = some '-'
  if negative then skip
  let whole ← digits early
  if whole.length > 1 && whole.head? = some '0' then throw .malformed
  let point := (← get).head? = some '.'
  let fraction ← if point then do skip; digits early else pure []
  let mark := (← get).head?
  let power : Int ←
    if mark = some 'e' || mark = some 'E' then do
      skip
      let sign := (← get).head?
      if sign = some '+' || sign = some '-' then skip
      let e := (Text.digitsValue (← digits early) : Int)
      pure (if sign = some '-' then -e else e)
    else pure 0
  return {
    negative
    digits := Text.digitsValue (whole ++ fraction)
    exponent := power - fraction.length
    whole := !point && mark ≠ some 'e' && mark ≠ some 'E' }

/-- A numeral whose value is kept, so it must not be beyond every double. -/
def numeral : Reader Numeral := do
  let n ← numeralWith .truncated
  if n.float.isInf then throw .malformed
  return n

def skipNumeral : Reader Unit := do
  discard <| numeralWith .malformed

/-! ### Arrays and objects -/

/-- Leaves the text in front of the next item of an array or object, if there is one: `close` ends
it, and a comma stands before every item but the first. -/
def nextItem (close : Char) (first : Bool) : Reader Bool := do
  match ← next? with
  | none => throw .truncated
  | some c =>
    if c = close then return false
    else if first then return true
    else if c ≠ ',' then throw .malformed
    else
      skip
      match ← next? with
      | none => throw .truncated
      | some c => if c = close then throw .malformed else return true

/-- The next element of an array. -/
def element? {α : Type} (value : Reader α) (first : Bool) : Reader (Option α) := do
  if ← nextItem ']' first then some <$> value else return none

/-- The end of an array or object. -/
def close (bracket : Char) : Reader Unit := do
  match ← next? with
  | none => throw .truncated
  | some c => if c = bracket then skip else throw .malformed

/-- The elements of an array whose bracket has been read. Each takes a character at least, which
bounds their number. -/
def elements {α : Type} (value : Reader α) : Reader (List α) := do
  go ((← get).length + 1) true
where
  go : Nat → Bool → Reader (List α)
    | 0, _ => throw .truncated
    | bound + 1, first => do
      match ← element? value first with
      | none => close ']'; return []
      | some a => return a :: (← go bound false)

/-- The colon between a key and its value. -/
def colon : Reader Unit := do
  match ← next? with
  | none => throw .truncated
  | some c => if c = ':' then skip else throw .malformed

/-- The members of an object whose brace has been read. `member` reads on behind the key, and
takes what the members before it have left. -/
def members {κ σ : Type} (key : Reader κ) (member : σ → κ → Reader σ) (start : σ) : Reader σ := do
  go ((← get).length + 1) true start
where
  go : Nat → Bool → σ → Reader σ
    | 0, _, _ => throw .truncated
    | bound + 1, first, s => do
      if ← nextItem '}' first then
        match ← next? with
        | some '"' => skip; go bound false (← member s (← key))
        | _ => throw .malformed
      else return s

/-! ### Values -/

/-- Reads past a value of at most `depth` levels. -/
def skipValue : Nat → Reader Unit
  | 0 => throw .malformed
  | depth + 1 => do
    match ← next? with
    | none => throw .truncated
    | some 'n' => word ['n', 'u', 'l', 'l']
    | some 't' => word ['t', 'r', 'u', 'e']
    | some 'f' => word ['f', 'a', 'l', 's', 'e']
    | some '"' => skip; skipString
    | some '[' => skip; discard <| elements (skipValue depth)
    | some '{' =>
      skip
      members skipString (fun _ _ => do colon; skipValue depth) ()
      close '}'
    | some c => if c = '-' || c.isDigit then skipNumeral else throw .malformed

/-- A value whose parts, if it may have parts at all, are read by `part`. -/
def valueOf (part : Option (Reader Json)) : Reader Json := do
  match ← next? with
  | none => throw .truncated
  | some 'n' => word ['n', 'u', 'l', 'l']; return .null
  | some 't' => word ['t', 'r', 'u', 'e']; return .bool true
  | some 'f' => word ['f', 'a', 'l', 's', 'e']; return .bool false
  | some '"' => skip; return .str (← string)
  | some '[' =>
    match part with
    | none => throw .malformed
    | some part => skip; return .arr (← elements part)
  | some '{' =>
    match part with
    | none => throw .malformed
    | some part =>
      skip
      let ms ← members string (fun ms k => do colon; return (k, ← part) :: ms) []
      close '}'
      return .obj ms.reverse
  | some c =>
    if c = '-' || c.isDigit then
      let n ← numeral
      return match n.int? with
        | some i => .int i
        | none => .float n.float
    else throw .malformed

/-- A value of at most `depth` levels of brackets. -/
def value : Nat → Reader Json
  | 0 => valueOf none
  | depth + 1 => valueOf (some (value depth))

/-- Refuses the value ahead. A value without parts is read to its end first, so that text that is
not JSON is noticed. -/
def refuse {α : Type} : Reader α := do
  match ← next? with
  | none => throw .truncated
  | some 'n' => word ['n', 'u', 'l', 'l']; throw .unfit
  | some 't' => word ['t', 'r', 'u', 'e']; throw .unfit
  | some 'f' => word ['f', 'a', 'l', 's', 'e']; throw .unfit
  | some '"' => skip; discard string; throw .unfit
  | some '[' => throw .unfit
  | some '{' => throw .unfit
  | some c => if c = '-' || c.isDigit then discard numeral; throw .unfit else throw .malformed

/-- An integer between two bounds. -/
def integer (low high : Int) : Reader Int := do
  match ← next? with
  | none => throw .truncated
  | some c =>
    if c = '-' || c.isDigit then
      match (← numeral).int? with
      | none => throw .unfit
      | some n => if low ≤ n ∧ n ≤ high then return n else throw .unfit
    else refuse

/-- A value or null. -/
def optional {α : Type} (value : Reader α) : Reader (Option α) := do
  match ← next? with
  | some 'n' => word ['n', 'u', 'l', 'l']; return none
  | _ => some <$> value

/-- The value of a key that may be given once. -/
def once {α : Type} (old : Option α) (value : Reader α) : Reader (Option α) := do
  if old.isSome then throw .unfit
  colon
  some <$> value

/-- Nothing but white space is left. -/
def finish (rest : List Char) : Except Fault Unit :=
  if rest.all isSpace then .ok () else .error .malformed

/-- Reads a whole text. -/
def document {α : Type} (value : Reader α) (text : String) : Except Fault α := do
  let (a, rest) ← value.run text.toList
  finish rest
  return a

end Reader

/-- Reads a value from a text that holds nothing else. -/
def ofText (text : String) : Except Fault Json :=
  Reader.document (Reader.value 127) text

end Labyrinth.Json
