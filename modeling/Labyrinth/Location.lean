/-!
# Places in a source text

Lines and columns count from one, and a column counts the bytes in front of it.
-/

namespace Labyrinth

structure Location where
  line : Nat
  column : Nat
deriving DecidableEq, Repr

namespace Location

/-- The first place of a text. -/
def start : Location := ⟨1, 1⟩

/-- The place of what is in no text. -/
def nowhere : Location := ⟨0, 0⟩

/-- The place behind a character. -/
def after (loc : Location) (c : Char) : Location :=
  if c = '\n' then ⟨loc.line + 1, 1⟩ else ⟨loc.line, loc.column + c.utf8Size⟩

/-- The place behind a run of characters. -/
def afterAll (loc : Location) (cs : List Char) : Location :=
  cs.foldl after loc

@[simp] theorem afterAll_nil (loc : Location) : loc.afterAll [] = loc := rfl

@[simp] theorem afterAll_cons (loc : Location) (c : Char) (cs : List Char) :
    loc.afterAll (c :: cs) = (loc.after c).afterAll cs := rfl

theorem afterAll_append (loc : Location) (as bs : List Char) :
    loc.afterAll (as ++ bs) = (loc.afterAll as).afterAll bs := List.foldl_append

end Location

end Labyrinth
