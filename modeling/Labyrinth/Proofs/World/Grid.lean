import Labyrinth.World

/-!
# Places in the grid

`Maze.contains_iff`: the places of a maze are those with a column below its width and a row below its
height. Overwriting a cell changes neither, and no other cell (`Maze.get?_set`). In a grid whose columns
and rows are counted by integers of 64 bits, one step along an axis from a cell does not wrap around
(`Agent.Within.ahead_toInt`).
-/

namespace Labyrinth

namespace Maze

variable {m : Maze} {x y x' y' : Int}

theorem contains_iff : m.contains x y ↔ 0 ≤ x ∧ x < m.width ∧ 0 ≤ y ∧ y < m.height := by
  unfold contains get?
  by_cases hxy : 0 ≤ x ∧ 0 ≤ y
  · rw [if_pos hxy]
    obtain ⟨hx, hy⟩ := hxy
    by_cases hrow : y.toNat < m.rows.size
    · have hsize : m.rows[y.toNat].size = m.width := m.size_row _ (Array.getElem_mem hrow)
      simp only [Array.getElem?_eq_getElem hrow, Option.bind_some, Option.isSome_iff_exists,
        Array.getElem?_eq_some_iff, hsize, height]
      constructor
      · rintro ⟨c, hx', -⟩
        omega
      · intro h
        exact ⟨_, by omega, rfl⟩
    · simp only [Array.getElem?_eq_none (Nat.le_of_not_lt hrow), Option.bind_none, Option.isSome_none,
        height]
      constructor
      · nofun
      · omega
  · rw [if_neg hxy]
    constructor
    · nofun
    · omega

@[simp] theorem width_set (m : Maze) (x y : Int) (c : Cell) : (m.set x y c).width = m.width := by
  unfold set
  split <;> rfl

@[simp] theorem height_set (m : Maze) (x y : Int) (c : Cell) : (m.set x y c).height = m.height := by
  unfold set
  split
  · simp [height]
  · rfl

theorem get?_eq (m : Maze) (hx : 0 ≤ x) (hy : 0 ≤ y) :
    m.get? x y = (m.rows[y.toNat]?).bind (·[x.toNat]?) :=
  if_pos ⟨hx, hy⟩

theorem rows_set (m : Maze) (hx : 0 ≤ x) (hy : 0 ≤ y) (c : Cell) :
    (m.set x y c).rows = m.rows.modify y.toNat (·.setIfInBounds x.toNat c) := by
  unfold set
  rw [if_pos ⟨hx, hy⟩]

theorem contains_set (m : Maze) (x y : Int) (c : Cell) (x' y' : Int) :
    (m.set x y c).contains x' y' = m.contains x' y' := by
  rw [Bool.eq_iff_iff, contains_iff, contains_iff, width_set, height_set]

theorem get?_set_self (h : m.contains x y) (c : Cell) : (m.set x y c).get? x y = some c := by
  obtain ⟨hx, -, hy, -⟩ := contains_iff.mp h
  rw [contains, get?_eq m hx hy, Option.isSome_iff_exists] at h
  obtain ⟨a, ha⟩ := h
  obtain ⟨row, hrow, ha⟩ := Option.bind_eq_some_iff.mp ha
  obtain ⟨hlt, -⟩ := Array.getElem?_eq_some_iff.mp ha
  rw [get?_eq _ hx hy, rows_set m hx hy, Array.getElem?_modify, if_pos rfl, hrow]
  simp [hlt]

theorem get?_set_of_ne (h : ¬(x' = x ∧ y' = y)) (c : Cell) :
    (m.set x y c).get? x' y' = m.get? x' y' := by
  by_cases hxy : 0 ≤ x ∧ 0 ≤ y
  · by_cases hxy' : 0 ≤ x' ∧ 0 ≤ y'
    · rw [get?_eq _ hxy'.1 hxy'.2, get?_eq _ hxy'.1 hxy'.2, rows_set m hxy.1 hxy.2, Array.getElem?_modify]
      split
      · next hrow =>
        have hcolumn : x.toNat ≠ x'.toNat := by omega
        cases m.rows[y'.toNat]? <;> simp [hcolumn]
      · rfl
    · simp only [get?, if_neg hxy']
  · simp only [set, if_neg hxy]

/-- A cell that is overwritten has the new content, and every other one keeps the old. -/
theorem get?_set (m : Maze) (x y : Int) (c : Cell) (x' y' : Int) :
    (m.set x y c).get? x' y' =
      if (x' = x ∧ y' = y) ∧ m.contains x y then some c else m.get? x' y' := by
  by_cases hplace : x' = x ∧ y' = y
  · obtain ⟨rfl, rfl⟩ := hplace
    by_cases hin : m.contains x' y'
    · rw [get?_set_self hin, if_pos ⟨⟨rfl, rfl⟩, hin⟩]
    · have hnone (n : Maze) (h : ¬n.contains x' y') : n.get? x' y' = none := by
        simpa [contains] using h
      rw [if_neg fun h => hin h.2, hnone m hin, hnone _ (by rwa [contains_set])]
  · rw [get?_set_of_ne hplace, if_neg fun h => hplace h.1]

/-- Columns and rows are counted by integers of 64 bits. -/
def Countable (m : Maze) : Prop :=
  (m.width : Int) ≤ Int64.maxValue.toInt ∧ (m.height : Int) ≤ Int64.maxValue.toInt

end Maze

/-- The steps by one cell along an axis. -/
def Heading.units : List (Int × Int) := [(0, 1), (0, -1), (1, 0), (-1, 0)]

theorem Heading.mem_units (h : Heading) : (h.dx.toInt, h.dy.toInt) ∈ units := by
  cases h <;> decide

theorem Heading.units_le (h : Heading) :
    (-1 ≤ h.dx.toInt ∧ h.dx.toInt ≤ 1) ∧ -1 ≤ h.dy.toInt ∧ h.dy.toInt ≤ 1 := by
  cases h <;> decide

namespace Agent

variable {a : Agent} {maze maze' : Maze}

/-- The agent stands on a cell of the maze and faces along an axis. -/
structure Within (maze : Maze) (a : Agent) : Prop where
  column : 0 ≤ a.x.toInt ∧ a.x.toInt < maze.width
  row : 0 ≤ a.y.toInt ∧ a.y.toInt < maze.height
  heading : (a.heading.dx.toInt, a.heading.dy.toInt) ∈ Heading.units

theorem within_iff : a.Within maze ↔ maze.contains a.x.toInt a.y.toInt := by
  rw [Maze.contains_iff]
  constructor
  · intro h
    exact ⟨h.column.1, h.column.2, h.row⟩
  · rintro ⟨hx, hx', hy⟩
    exact ⟨⟨hx, hx'⟩, hy, a.heading.mem_units⟩

namespace Within

/-- Only the size of the maze matters. -/
theorem congr (h : a.Within maze) (hw : maze'.width = maze.width)
    (hh : maze'.height = maze.height) : a.Within maze' :=
  ⟨hw ▸ h.column, hh ▸ h.row, h.heading⟩

theorem turn (h : a.Within maze) (how : Heading → Heading) : (a.turn how).Within maze :=
  ⟨h.column, h.row, (how a.heading).mem_units⟩

theorem moveTo (a : Agent) {x y : Int64} (h : maze.contains x.toInt y.toInt) :
    (a.moveTo x y).Within maze :=
  within_iff.mpr h

end Within

theorem toInt_add_of_unit {a d : Int64} (ha : 0 ≤ a.toInt) (ha' : a.toInt < Int64.maxValue.toInt)
    (hd : -1 ≤ d.toInt) (hd' : d.toInt ≤ 1) : (a + d).toInt = a.toInt + d.toInt := by
  have hmax : Int64.maxValue.toInt = 2 ^ 63 - 1 := by decide
  rw [Int64.toInt_add]
  exact Int.bmod_eq_of_le (by omega) (by omega)

/-- A sum that wraps around is negative. -/
theorem toInt_add_of_nonneg {a d : Int64} (ha : 0 ≤ a.toInt) (had : 0 ≤ (a + d).toInt)
    (hd : -1 ≤ d.toInt) (hd' : d.toInt ≤ 1) : (a + d).toInt = a.toInt + d.toInt := by
  have hmax : Int64.maxValue.toInt = 2 ^ 63 - 1 := by decide
  have hle : a.toInt ≤ 2 ^ 63 - 1 := hmax ▸ Int64.toInt_le a
  rw [Int64.toInt_add] at had ⊢
  rcases Int.lt_or_le (a.toInt + d.toInt) (2 ^ 63) with hlt | hge
  · exact Int.bmod_eq_of_le (by omega) (by omega)
  · have hsum : a.toInt + d.toInt = 2 ^ 63 := by omega
    rw [hsum] at had
    exact absurd had (by decide)

theorem ahead_toInt_of_nonneg (hx : 0 ≤ a.x.toInt) (hy : 0 ≤ a.y.toInt) (hx' : 0 ≤ a.ahead.1.toInt)
    (hy' : 0 ≤ a.ahead.2.toInt) : a.ahead.1.toInt = a.x.toInt + a.heading.dx.toInt ∧
      a.ahead.2.toInt = a.y.toInt + a.heading.dy.toInt := by
  obtain ⟨hdx, hdy⟩ := a.heading.units_le
  exact ⟨toInt_add_of_nonneg hx hx' hdx.1 hdx.2, toInt_add_of_nonneg hy hy' hdy.1 hdy.2⟩

/-- The cell ahead is computed without wrapping around. -/
theorem Within.ahead_toInt (h : a.Within maze) (hm : maze.Countable) :
    a.ahead.1.toInt = a.x.toInt + a.heading.dx.toInt ∧
      a.ahead.2.toInt = a.y.toInt + a.heading.dy.toInt := by
  obtain ⟨hw, hh⟩ := hm
  obtain ⟨⟨hx, hx'⟩, ⟨hy, hy'⟩, -⟩ := h
  obtain ⟨hdx, hdy⟩ := a.heading.units_le
  exact ⟨toInt_add_of_unit hx (by omega) hdx.1 hdx.2, toInt_add_of_unit hy (by omega) hdy.1 hdy.2⟩

end Agent

end Labyrinth
