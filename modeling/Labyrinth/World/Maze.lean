import Labyrinth.Json.Basic

/-!
# Mazes

A maze is a rectangular grid of cells with at least one cell. A cell is named by its column `x` and
its row `y`, both counted from zero; the rows go downward.
-/

namespace Labyrinth

inductive Cell where
  | free
  | wall
  | start
  | goal
deriving DecidableEq, Repr

namespace Cell

/-- The number of a kind of cell in a grid of numbers. -/
def code : Cell → Nat
  | free => 0
  | wall => 1
  | start => 2
  | goal => 3

def ofCode? : Nat → Option Cell
  | 0 => some free
  | 1 => some wall
  | 2 => some start
  | 3 => some goal
  | _ => none

def symbol : Cell → Char
  | free => '.'
  | wall => '#'
  | start => 'S'
  | goal => 'G'

theorem ofCode?_code (c : Cell) : ofCode? c.code = some c := by
  cases c <;> rfl

theorem code_of_ofCode? {n : Nat} {c : Cell} (h : ofCode? n = some c) : c.code = n := by
  unfold ofCode? at h
  split at h <;> cases h <;> rfl

end Cell

/-- The message about a number that is no cell. -/
def invalidCellMessage (value : Nat) : String :=
  "invalid cell value " ++ toString value

/-- Why a grid of numbers is no maze. -/
inductive MazeError where
  | empty
  | ragged (row expected found : Nat)
  | invalidCell (x y value : Nat)
deriving DecidableEq, Repr

namespace MazeError

def message : MazeError → String
  | empty => "maze has no cells"
  | ragged row expected found =>
    "row " ++ toString row ++ " has " ++ toString found ++ " cells, expected " ++ toString expected
  | invalidCell x y value =>
    invalidCellMessage value ++ " at (" ++ toString x ++ ", " ++ toString y ++ ")"

def name : MazeError → String
  | empty => "Empty"
  | ragged _ _ _ => "Ragged"
  | invalidCell _ _ _ => "InvalidCell"

end MazeError

structure Maze where
  rows : Array (Array Cell)
  width : Nat
  width_pos : 0 < width
  height_pos : 0 < rows.size
  size_row : ∀ row ∈ rows, row.size = width

namespace Maze

@[ext] theorem ext {m n : Maze} (h : m.rows = n.rows) : m = n := by
  obtain ⟨r, w, _, hr, hs⟩ := m
  obtain ⟨r', w', _, _, hs'⟩ := n
  obtain rfl : r = r' := h
  obtain rfl : w = w' := (hs r[0] (by simp)).symm.trans (hs' r[0] (by simp))
  rfl

def height (m : Maze) : Nat :=
  m.rows.size

/-- The cell at a place, if the place is in the grid. -/
def get? (m : Maze) (x y : Int) : Option Cell :=
  if 0 ≤ x ∧ 0 ≤ y then (m.rows[y.toNat]?).bind (·[x.toNat]?) else none

def contains (m : Maze) (x y : Int) : Bool :=
  (m.get? x y).isSome

/-- The maze with another cell at a place. A place outside the grid changes nothing. -/
def set (m : Maze) (x y : Int) (c : Cell) : Maze :=
  if 0 ≤ x ∧ 0 ≤ y then
    { m with
      rows := m.rows.modify y.toNat (·.setIfInBounds x.toNat c)
      height_pos := by simpa using m.height_pos
      size_row := by
        intro row h
        obtain ⟨i, hi, rfl⟩ := Array.mem_iff_getElem.1 h
        rw [Array.getElem_modify]
        split <;> simp [m.size_row _ (Array.getElem_mem _)] }
  else m

/-- Overwrites the cell at a place and says whether there is one. -/
def put (m : Maze) (x y : Int) (c : Cell) : Bool × Maze :=
  match m.get? x y with
  | some _ => (true, m.set x y c)
  | none => (false, m)

/-- The first place of a kind of cell, row by row. -/
def find? (m : Maze) (c : Cell) : Option (Nat × Nat) :=
  m.rows.toList.zipIdx.findSome? fun (row, y) => (row.toList.idxOf? c).map (·, y)

/-- The grid as numbers. -/
def toRows (m : Maze) : List (List Nat) :=
  m.rows.toList.map fun row => row.toList.map Cell.code

/-- The grid as text, a line for each row. -/
def render (m : Maze) : String :=
  String.join (m.rows.toList.map fun row => String.ofList (row.toList.map Cell.symbol) ++ "\n")

def toJson (m : Maze) : Json :=
  .arr (m.toRows.map fun row => .arr (row.map fun (n : Nat) => .int n))

/-! ### Mazes from numbers -/

/-- The cells of a row of numbers from the column `x` on. -/
def cellsFrom (y x : Nat) : List Nat → Except MazeError (List Cell)
  | [] => .ok []
  | n :: ns =>
    match Cell.ofCode? n with
    | none => .error (.invalidCell x y n)
    | some c => (cellsFrom y (x + 1) ns).map (c :: ·)

/-- The cells of rows of numbers from the row `y` on, each of which has to be `width` long. -/
def rowsFrom (width y : Nat) : List (List Nat) → Except MazeError (List (List Cell))
  | [] => .ok []
  | row :: rows =>
    if row.length ≠ width then .error (.ragged y width row.length)
    else
      match cellsFrom y 0 row with
      | .error e => .error e
      | .ok cells => (rowsFrom width (y + 1) rows).map (cells :: ·)

theorem length_cellsFrom {y x : Nat} {ns : List Nat} {cells : List Cell}
    (h : cellsFrom y x ns = .ok cells) : cells.length = ns.length := by
  induction ns generalizing x cells with
  | nil => cases h; rfl
  | cons n ns ih =>
    simp only [cellsFrom] at h
    split at h
    · cases h
    · cases hr : cellsFrom y (x + 1) ns with
      | error e => simp [hr, Except.map] at h
      | ok cs =>
        simp only [hr, Except.map, Except.ok.injEq] at h
        rw [← h, List.length_cons, List.length_cons, ih hr]

theorem length_rowsFrom {width y : Nat} {rows : List (List Nat)} {cells : List (List Cell)}
    (h : rowsFrom width y rows = .ok cells) :
    cells.length = rows.length ∧ ∀ row ∈ cells, row.length = width := by
  induction rows generalizing y cells with
  | nil => cases h; simp
  | cons row rows ih =>
    simp only [rowsFrom] at h
    split at h
    · cases h
    · next hw =>
      split at h
      · cases h
      · next cs hc =>
        cases hr : rowsFrom width (y + 1) rows with
        | error e => simp [hr, Except.map] at h
        | ok rest =>
          simp only [hr, Except.map, Except.ok.injEq] at h
          obtain ⟨hl, hs⟩ := ih hr
          subst h
          refine ⟨by simp [hl], ?_⟩
          simp only [List.mem_cons, forall_eq_or_imp]
          exact ⟨(length_cellsFrom hc).trans (Decidable.not_not.1 hw), hs⟩

/-- The maze of a grid of numbers. Rows are looked at in their order, and of each its length comes
first. -/
def ofRows (rows : List (List Nat)) : Except MazeError Maze :=
  let width := (rows.head?.map List.length).getD 0
  if hw : width = 0 then .error .empty
  else
    match h : rowsFrom width 0 rows with
    | .error e => .error e
    | .ok cells =>
      .ok {
        rows := (cells.map List.toArray).toArray
        width
        width_pos := Nat.pos_of_ne_zero hw
        height_pos := by
          have hl := (length_rowsFrom h).1
          cases rows with
          | nil => simp [width] at hw
          | cons row rows => simp [hl]
        size_row := by
          intro row hr
          simp only [List.mem_toArray, List.mem_map] at hr
          obtain ⟨cs, hc, rfl⟩ := hr
          exact (length_rowsFrom h).2 cs hc }

end Maze

end Labyrinth
