import Labyrinth.Double.Layout

/-!
# JSON values and their text

The members of an object keep their order. `compact` is the text without blanks, `pretty` the text
with one item a line and two spaces for each level; `sortKeys` puts the members of every object
into the order of their keys.
-/

namespace Labyrinth

inductive Json where
  | null
  | bool (value : Bool)
  | int (value : Int)
  | float (value : Float)
  | str (value : String)
  | arr (items : List Json)
  | obj (members : List (String × Json))

namespace Json

/-- The last of the members with a key. -/
def get? : Json → String → Option Json
  | .obj members, key => members.reverse.lookup key
  | _, _ => none

/-! ### Strings -/

/-- A character inside a quoted string. -/
def escape (c : Char) : List Char :=
  if c = '"' then ['\\', '"']
  else if c = '\\' then ['\\', '\\']
  else if c = '\n' then ['\\', 'n']
  else if c = '\r' then ['\\', 'r']
  else if c = '\t' then ['\\', 't']
  else if c = '\x08' then ['\\', 'b']
  else if c = '\x0c' then ['\\', 'f']
  else if c.toNat < 0x20 then
    ['\\', 'u', '0', '0', Nat.digitChar (c.toNat / 16), Nat.digitChar (c.toNat % 16)]
  else [c]

def quote (s : String) : List Char :=
  '"' :: s.toList.flatMap escape ++ ['"']

/-! ### Text -/

/-- The text of a value without parts. -/
def scalar : Json → List Char
  | .bool true => "true".toList
  | .bool false => "false".toList
  | .int n => (toString n).toList
  | .float x => (Layout.json.render x).toList
  | .str s => quote s
  | _ => "null".toList

mutual

/-- The characters of the text without blanks. -/
def compactChars : Json → List Char
  | .arr items => '[' :: compactItems true items ++ [']']
  | .obj members => '{' :: compactMembers true members ++ ['}']
  | .null => scalar .null
  | .bool b => scalar (.bool b)
  | .int n => scalar (.int n)
  | .float x => scalar (.float x)
  | .str s => scalar (.str s)

def compactItems (first : Bool) : List Json → List Char
  | [] => []
  | v :: vs => (if first then [] else [',']) ++ (compactChars v ++ compactItems false vs)

def compactMembers (first : Bool) : List (String × Json) → List Char
  | [] => []
  | (k, v) :: ms =>
    (if first then [] else [',']) ++ (quote k ++ ':' :: (compactChars v ++ compactMembers false ms))

end

def compact (v : Json) : String :=
  String.ofList (compactChars v)

/-- The start of a line at a level. -/
def newline (level : Nat) : List Char :=
  '\n' :: List.replicate (2 * level) ' '

mutual

/-- The characters of the text of a value that stands at a level. -/
def prettyChars (level : Nat) : Json → List Char
  | .arr [] => ['[', ']']
  | .arr (v :: vs) =>
    '[' :: newline (level + 1) ++
      (prettyChars (level + 1) v ++ prettyItems (level + 1) vs ++ newline level ++ [']'])
  | .obj [] => ['{', '}']
  | .obj ((k, v) :: ms) =>
    '{' :: newline (level + 1) ++ (quote k ++ ':' :: ' ' ::
      (prettyChars (level + 1) v ++ prettyMembers (level + 1) ms ++ newline level ++ ['}']))
  | .null => scalar .null
  | .bool b => scalar (.bool b)
  | .int n => scalar (.int n)
  | .float x => scalar (.float x)
  | .str s => scalar (.str s)

def prettyItems (level : Nat) : List Json → List Char
  | [] => []
  | v :: vs => ',' :: newline level ++ (prettyChars level v ++ prettyItems level vs)

def prettyMembers (level : Nat) : List (String × Json) → List Char
  | [] => []
  | (k, v) :: ms =>
    ',' :: newline level ++
      (quote k ++ ':' :: ' ' :: (prettyChars level v ++ prettyMembers level ms))

end

def pretty (v : Json) : String :=
  String.ofList (prettyChars 0 v)

/-! ### Order of keys -/

mutual

def sortKeys : Json → Json
  | .arr items => .arr (sortItems items)
  | .obj members => .obj ((sortMembers members).mergeSort fun a b => a.1 ≤ b.1)
  | .null => .null
  | .bool b => .bool b
  | .int n => .int n
  | .float x => .float x
  | .str s => .str s

def sortItems : List Json → List Json
  | [] => []
  | v :: vs => sortKeys v :: sortItems vs

def sortMembers : List (String × Json) → List (String × Json)
  | [] => []
  | (k, v) :: ms => (k, sortKeys v) :: sortMembers ms

end

end Json

end Labyrinth
