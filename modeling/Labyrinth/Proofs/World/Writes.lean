import Labyrinth.Proofs.World.Grid
import Labyrinth.Proofs.World.Numbers

/-!
# What is written into a maze

Whatever is written into a maze, it keeps its size, and at each of its places stands what was written there last,
or else what was there at first (`Maze.get?_overwrite`). The place that is found for a kind of cell is the first
of that kind, row by row (`Maze.find?_eq_some_iff`).
-/

namespace Labyrinth

namespace Maze

variable {m : Maze} {c : Cell} {x y : Int}

/-- A place with a column and a row of the maze. -/
def Inside (m : Maze) (x y : Int) : Prop :=
  0 ≤ x ∧ x < m.width ∧ 0 ≤ y ∧ y < m.height

instance (m : Maze) (x y : Int) : Decidable (m.Inside x y) :=
  inferInstanceAs (Decidable (_ ∧ _))

/-- The last cell of those that are written at a place. -/
def latest? (x y : Int) (writes : List (Int × Int × Cell)) : Option Cell :=
  (writes.reverse.find? fun w => w.1 = x ∧ w.2.1 = y).map (·.2.2)

theorem latest?_concat (x y : Int) (writes : List (Int × Int × Cell)) (w : Int × Int × Cell) :
    latest? x y (writes ++ [w]) = if w.1 = x ∧ w.2.1 = y then some w.2.2 else latest? x y writes := by
  rw [latest?, List.reverse_concat, List.find?_cons]
  split
  · next h => rw [if_pos (of_decide_eq_true h)]; rfl
  · next h => rw [if_neg (of_decide_eq_false h)]; rfl

/-! ### One write -/

theorem get?_eq_none (h : ¬m.Inside x y) : m.get? x y = none := by
  rw [← Option.not_isSome_iff_eq_none]
  exact fun hin => h (contains_iff.mp hin)

/-- A place outside the grid is overwritten in vain. -/
theorem set_eq_self (h : ¬m.Inside x y) (c : Cell) : m.set x y c = m := by
  by_cases hxy : 0 ≤ x ∧ 0 ≤ y
  · refine Maze.ext (Array.ext (by simp [rows_set m hxy.1 hxy.2]) fun i hi hi' => ?_)
    simp only [rows_set m hxy.1 hxy.2, Array.getElem_modify]
    split
    · next hrow =>
      have hsize : m.rows[i].size = m.width := m.size_row _ (Array.getElem_mem hi')
      refine Array.setIfInBounds_eq_of_size_le ?_
      unfold Inside height at h
      omega
    · rfl
  · exact if_neg hxy

theorem put_eq (m : Maze) (x y : Int) (c : Cell) : m.put x y c = (decide (m.Inside x y), m.set x y c) := by
  unfold put
  split
  · next hsome =>
    have hin : m.Inside x y := contains_iff.mp (by rw [contains, hsome]; rfl)
    rw [decide_eq_true hin]
  · next hnone =>
    have hout : ¬m.Inside x y := fun hin => by
      have hcontains := contains_iff.mpr hin
      rw [contains, hnone] at hcontains
      cases hcontains
    rw [decide_eq_false hout, set_eq_self hout]

/-! ### All writes -/

theorem overwrite_concat (m : Maze) (writes : List (Int × Int × Cell)) (w : Int × Int × Cell) :
    m.overwrite (writes ++ [w]) = (m.overwrite writes).set w.1 w.2.1 w.2.2 :=
  List.foldl_concat ..

theorem size_overwrite (m : Maze) (writes : List (Int × Int × Cell)) :
    (m.overwrite writes).width = m.width ∧ (m.overwrite writes).height = m.height := by
  induction writes using List.reverseRecOn with
  | nil => exact ⟨rfl, rfl⟩
  | append_singleton writes w ih =>
    rw [overwrite_concat, width_set, height_set]
    exact ih

theorem inside_overwrite (m : Maze) (writes : List (Int × Int × Cell)) (x y : Int) :
    (m.overwrite writes).Inside x y ↔ m.Inside x y := by
  obtain ⟨hw, hh⟩ := m.size_overwrite writes
  rw [Inside, Inside, hw, hh]

/-- At a place in the grid stands what was written there last, or else what was there at first. -/
theorem get?_overwrite (m : Maze) (writes : List (Int × Int × Cell)) (x y : Int) :
    (m.overwrite writes).get? x y =
      if m.Inside x y then (latest? x y writes).or (m.get? x y) else none := by
  induction writes using List.reverseRecOn with
  | nil =>
    split
    · rfl
    · next hout => exact get?_eq_none hout
  | append_singleton writes w ih =>
    rw [overwrite_concat, get?_set, ih, latest?_concat]
    have hin : (m.overwrite writes).contains w.1 w.2.1 ↔ m.Inside w.1 w.2.1 :=
      contains_iff.trans (m.inside_overwrite writes w.1 w.2.1)
    by_cases hplace : w.1 = x ∧ w.2.1 = y
    · obtain ⟨rfl, rfl⟩ := hplace
      rw [if_pos (And.intro rfl rfl)]
      by_cases hw : m.Inside w.1 w.2.1
      · rw [if_pos ⟨⟨rfl, rfl⟩, hin.mpr hw⟩, if_pos hw, Option.some_or]
      · rw [if_neg fun h => hw (hin.mp h.2), if_neg hw, if_neg hw]
    · rw [if_neg fun h => hplace ⟨h.1.1.symm, h.1.2.symm⟩, if_neg hplace]

/-! ### The first place of a kind of cell -/

theorem findSome?_zipIdx_eq_some {α β : Type} {l : List α} {f : α × Nat → Option β} {b : β}
    (h : l.zipIdx.findSome? f = some b) :
    ∃ i, ∃ hi : i < l.length, f (l[i], i) = some b ∧ ∀ j (hj : j < i), f (l[j], j) = none := by
  obtain ⟨before, ⟨a, i⟩, behind, hl, ha, hnone⟩ := List.findSome?_eq_some_iff.mp h
  obtain ⟨before, rest, rfl, rfl, hrest⟩ := List.zipIdx_eq_append_iff.mp hl
  obtain ⟨a, rest, rfl, he, -⟩ := List.zipIdx_eq_cons_iff.mp hrest.symm
  cases he
  rw [Nat.zero_add] at ha
  refine ⟨before.length, by simp, by simpa using ha, fun j hj => hnone _ ?_⟩
  rw [List.mem_zipIdx_iff_getElem?, List.getElem?_eq_getElem hj, List.getElem_append_left hj]

theorem get?_natCast_eq_some {i j : Nat} : m.get? i j = some c ↔
    ∃ (hj : j < m.rows.size) (hi : i < m.rows[j].size), m.rows[j][i] = c := by
  rw [get?_eq m (Int.natCast_nonneg i) (Int.natCast_nonneg j), Int.toNat_natCast, Int.toNat_natCast,
    Option.bind_eq_some_iff]
  constructor
  · rintro ⟨row, hrow, hcell⟩
    obtain ⟨hj, rfl⟩ := Array.getElem?_eq_some_iff.mp hrow
    exact ⟨hj, Array.getElem?_eq_some_iff.mp hcell⟩
  · rintro ⟨hj, hcell⟩
    exact ⟨_, Array.getElem?_eq_getElem hj, Array.getElem?_eq_some_iff.mpr hcell⟩

theorem exists_natCast (h : m.get? x y = some c) : ∃ i j : Nat, x = i ∧ y = j := by
  have hin : m.contains x y := by rw [contains, h]; rfl
  obtain ⟨hx, -, hy, -⟩ := contains_iff.mp hin
  exact ⟨x.toNat, y.toNat, (Int.toNat_of_nonneg hx).symm, (Int.toNat_of_nonneg hy).symm⟩

/-- A kind of cell stands at the place, and nowhere above it or in front of it in its row. -/
def First (m : Maze) (c : Cell) (p : Nat × Nat) : Prop :=
  m.get? p.1 p.2 = some c ∧ ∀ x y, m.get? x y = some c → (p.2 : Int) < y ∨ p.2 = y ∧ p.1 ≤ x

theorem First.unique {p q : Nat × Nat} (hp : m.First c p) (hq : m.First c q) : p = q := by
  have hpq := hp.2 _ _ hq.1
  have hqp := hq.2 _ _ hp.1
  refine Prod.ext ?_ ?_ <;> omega

theorem first_of_find? {p : Nat × Nat} (h : m.find? c = some p) : m.First c p := by
  obtain ⟨j, hj, hrow, habove⟩ := findSome?_zipIdx_eq_some h
  obtain ⟨i, hi, rfl⟩ := Option.map_eq_some_iff.mp hrow
  obtain ⟨hlt, hcell, hbefore⟩ := List.idxOf?_eq_some_iff.mp hi
  rw [Array.length_toList] at hj hlt
  refine ⟨get?_natCast_eq_some.mpr ⟨hj, hlt, by simpa using hcell⟩, fun x y hxy => ?_⟩
  obtain ⟨i', j', rfl, rfl⟩ := exists_natCast hxy
  obtain ⟨hj', hi', hcell'⟩ := get?_natCast_eq_some.mp hxy
  rcases Nat.lt_trichotomy j' j with hlt | rfl | hlt
  · have hnone := List.idxOf?_eq_none_iff.mp (Option.map_eq_none_iff.mp (habove j' hlt))
    exact absurd (hcell' ▸ Array.getElem_mem hi') (by simpa using hnone)
  · refine .inr ⟨rfl, ?_⟩
    by_contra hle
    exact hbefore i' (by omega) (by simpa using hcell')
  · exact .inl (Int.ofNat_lt.mpr hlt)

theorem find?_eq_none_iff : m.find? c = none ↔ ∀ x y, m.get? x y ≠ some c := by
  constructor
  · intro h x y hxy
    obtain ⟨i, j, rfl, rfl⟩ := exists_natCast hxy
    obtain ⟨hj, hi, hcell⟩ := get?_natCast_eq_some.mp hxy
    have hrow := List.findSome?_eq_none_iff.mp h (m.rows[j], j) (List.mem_zipIdx_iff_getElem?.mpr (by simp [hj]))
    have hnone := List.idxOf?_eq_none_iff.mp (Option.map_eq_none_iff.mp hrow)
    exact hnone (Array.mem_toList_iff.mpr (hcell ▸ Array.getElem_mem hi))
  · intro h
    cases hfind : m.find? c with
    | none => rfl
    | some p => exact absurd (first_of_find? hfind).1 (h _ _)

theorem find?_eq_some_iff {p : Nat × Nat} : m.find? c = some p ↔ m.First c p := by
  refine ⟨first_of_find?, fun h => ?_⟩
  cases hfind : m.find? c with
  | none => exact absurd h.1 (find?_eq_none_iff.mp hfind _ _)
  | some q => exact congrArg some ((first_of_find? hfind).unique h)

/-! ### Mazes from numbers -/

theorem toRows_of_ofRows {rows : List (List Nat)} (h : ofRows rows = .ok m) : m.toRows = rows := by
  rcases isGrid_or_faulty rows with hgrid | ⟨e, he⟩
  · obtain ⟨m', hm', hrows⟩ := hgrid.exists_maze
    obtain rfl := Except.ok.inj (hm'.symm.trans h)
    exact hrows
  · cases h.symm.trans he.ofRows_eq

/-- The numbers of the cells are those of the grid. -/
theorem get?_toRows (m : Maze) (i j : Nat) : (m.get? i j).map Cell.code = m.toRows[j]?.bind (·[i]?) := by
  rw [get?_eq m (Int.natCast_nonneg i) (Int.natCast_nonneg j), Int.toNat_natCast, Int.toNat_natCast, toRows,
    List.getElem?_map, Array.getElem?_toList]
  cases m.rows[j]? with
  | none => rfl
  | some row => simp

/-- A maze is a function from the places in its grid to cells. It is made of the numbers of a grid, and whatever
is written into it, it keeps its size, holds at each place what was written there last or else what was there at
first, says of a place whether it is in the grid when it is written to, and changes nothing but the cell there.
Of each kind the first cell is found, row by row, if there is one. -/
theorem overwrite_exact {rows : List (List Nat)} (h : ofRows rows = .ok m) (writes : List (Int × Int × Cell)) :
    let n := m.overwrite writes
    ((∀ row ∈ rows, row.length = m.width) ∧ m.height = rows.length ∧
      ∀ i j : Nat, (m.get? i j).map Cell.code = rows[j]?.bind (·[i]?)) ∧
    (n.width = m.width ∧ n.height = m.height ∧ ∀ row ∈ n.toRows, row.length = n.width) ∧
    (∀ x y, n.get? x y = if m.Inside x y then (latest? x y writes).or (m.get? x y) else none) ∧
    (∀ x y, ((n.get? x y).isSome ↔ m.Inside x y) ∧ (n.contains x y ↔ m.Inside x y)) ∧
    (∀ x y c, n.put x y c = (decide (m.Inside x y), m.overwrite (writes ++ [(x, y, c)])) ∧
      (m.Inside x y → ∀ x' y',
        (n.put x y c).2.get? x' y' = if x' = x ∧ y' = y then some c else n.get? x' y') ∧
      (¬m.Inside x y → (n.put x y c).2 = n)) ∧
    ∀ c, (n.find? c = none ↔ ∀ x y, n.get? x y ≠ some c) ∧
      ∀ p : Nat × Nat, n.find? c = some p ↔ n.get? p.1 p.2 = some c ∧
        ∀ x y, n.get? x y = some c → (p.2 : Int) < y ∨ p.2 = y ∧ p.1 ≤ x := by
  intro n
  obtain rfl := toRows_of_ofRows h
  obtain ⟨hwidth, hheight⟩ := m.size_overwrite writes
  have hinside (x y : Int) : n.contains x y ↔ m.Inside x y :=
    contains_iff.trans (m.inside_overwrite writes x y)
  refine ⟨⟨fun row => length_of_mem_toRows, by simp [toRows, height], m.get?_toRows⟩,
    ⟨hwidth, hheight, fun row => length_of_mem_toRows⟩, m.get?_overwrite writes,
    fun x y => ⟨hinside x y, hinside x y⟩, fun x y c => ⟨?_, fun hin x' y' => ?_, fun hout => ?_⟩,
    fun c => ⟨find?_eq_none_iff, fun p => find?_eq_some_iff⟩⟩
  · rw [put_eq, overwrite_concat, decide_eq_decide.mpr (m.inside_overwrite writes x y)]
  · have hcontains : n.contains x y := (hinside x y).mpr hin
    rw [put_eq, get?_set]
    simp only [hcontains, and_true]
  · rw [put_eq]
    exact set_eq_self (fun hin => hout ((m.inside_overwrite writes x y).mp hin)) c

/-- A place is overwritten twice, and one beside the grid in vain. -/
theorem overwrite_exact_walled : ∃ m n, ofRows [[1, 2], [0, 3]] = .ok m ∧
    m.overwrite [(0, 1, .goal), (0, 1, .wall), (-1, 1, .goal)] = n ∧ n.get? 0 1 = some .wall ∧
    n.put 2 1 .free = (false, n) ∧ ∀ x y, n.get? x y = some .goal → 1 < y ∨ 1 = y ∧ 1 ≤ x := by
  obtain ⟨m, hm, hwidth, hheight, hgoal⟩ : ∃ m, ofRows [[1, 2], [0, 3]] = .ok m ∧ m.width = 2 ∧ m.height = 2 ∧
      (m.overwrite [(0, 1, .goal), (0, 1, .wall), (-1, 1, .goal)]).find? .goal = some (1, 1) :=
    ⟨_, rfl, rfl, rfl, by decide +kernel⟩
  obtain ⟨-, -, hget, -, hput, hfind⟩ := overwrite_exact hm [(0, 1, .goal), (0, 1, .wall), (-1, 1, .goal)]
  have hin : m.Inside 0 1 := by unfold Inside; omega
  have hout : ¬m.Inside 2 1 := by unfold Inside; omega
  obtain ⟨hanswer, -, hsame⟩ := hput 2 1 .free
  refine ⟨m, _, hm, rfl, ?_, Prod.ext ?_ (hsame hout), (((hfind .goal).2 (1, 1)).mp hgoal).2⟩
  · rw [hget, if_pos hin]
    rfl
  · rw [hanswer, decide_eq_false hout]

end Maze

end Labyrinth
