import Mathlib.Data.List.Forall2
import Labyrinth.Settings.Document
import Labyrinth.Proofs.Json.Reading

/-!
# Mazes from numbers

A grid of numbers is a maze if its rows are as long as the first, which is not empty, and hold the numbers of
cells. Of any other grid the first fault is named (`Maze.Faulty`). Whatever is written into the cells of a maze,
it is read back from its numbers and from its document (`Maze.ofRows_exact`).
-/

namespace Labyrinth

namespace Cell

theorem code_injective {c d : Cell} (h : c.code = d.code) : c = d := by
  have hc := ofCode?_code c
  rw [h, ofCode?_code] at hc
  exact (Option.some.inj hc).symm

theorem exists_code {n : Nat} (h : n ≤ 3) : ∃ c : Cell, c.code = n := by
  match n, h with
  | 0, _ => exact ⟨free, rfl⟩
  | 1, _ => exact ⟨wall, rfl⟩
  | 2, _ => exact ⟨start, rfl⟩
  | 3, _ => exact ⟨goal, rfl⟩

theorem code_le (c : Cell) : c.code ≤ 3 := by
  cases c <;> decide

theorem ofCode?_eq_none {n : Nat} (h : 3 < n) : ofCode? n = none := by
  cases hc : ofCode? n with
  | none => rfl
  | some c =>
    have hle := code_le c
    rw [code_of_ofCode? hc] at hle
    omega

end Cell

namespace Maze

variable {width x y : Nat} {ns row : List Nat} {rows above below : List (List Nat)} {e : MazeError}

/-- A row of a maze that is `width` cells wide. -/
def Fits (width : Nat) (row : List Nat) : Prop :=
  row.length = width ∧ ∀ n ∈ row, n ≤ 3

/-- The numbers of the cells of a maze: there is a first row, it is not empty, and all rows fit. -/
def IsGrid (rows : List (List Nat)) : Prop :=
  ∃ first, rows.head? = some first ∧ first ≠ [] ∧ ∀ row ∈ rows, Fits first.length row

/-- The fault of the row `y`: its length, and if that is right the leftmost number that is no cell. -/
inductive RowFault (width y : Nat) : List Nat → MazeError → Prop
  | ragged {row : List Nat} : row.length ≠ width → RowFault width y row (.ragged y width row.length)
  | invalidCell {left right : List Nat} {n : Nat} : (left ++ n :: right).length = width →
      (∀ k ∈ left, k ≤ 3) → 3 < n → RowFault width y (left ++ n :: right) (.invalidCell left.length y n)

/-- The first fault of a grid: that it has no cells, or the fault of the first row that has one. -/
inductive Faulty : List (List Nat) → MazeError → Prop
  | none : Faulty [] .empty
  | blank {rows : List (List Nat)} : Faulty ([] :: rows) .empty
  | row {first row : List Nat} {rows above below : List (List Nat)} {e : MazeError} : first ≠ [] →
      first :: rows = above ++ row :: below → (∀ r ∈ above, Fits first.length r) →
      RowFault first.length above.length row e → Faulty (first :: rows) e

/-! ### Rows -/

/-- The numbers of cells are read as these cells. -/
theorem cellsFrom_map_code (cells : List Cell) : cellsFrom y x (cells.map Cell.code) = .ok cells := by
  induction cells generalizing x with
  | nil => rfl
  | cons c cs ih => rw [List.map_cons, cellsFrom, Cell.ofCode?_code, ih]; rfl

theorem cellsFrom_append (left : List Cell) (ns : List Nat) : cellsFrom y x (left.map Cell.code ++ ns) =
    (cellsFrom y (x + left.length) ns).map (left ++ ·) := by
  induction left generalizing x with
  | nil => cases h : cellsFrom y x ns <;> simp [h, Except.map]
  | cons c cs ih =>
    rw [List.map_cons, List.cons_append, cellsFrom, Cell.ofCode?_code, ih, List.length_cons,
      Nat.add_right_comm, Nat.add_assoc]
    cases cellsFrom y (x + (cs.length + 1)) ns <;> rfl

theorem exists_cells (h : ∀ n ∈ ns, n ≤ 3) : ∃ cells : List Cell, cells.map Cell.code = ns := by
  induction ns with
  | nil => exact ⟨[], rfl⟩
  | cons n ns ih =>
    obtain ⟨hn, hns⟩ := List.forall_mem_cons.mp h
    obtain ⟨c, rfl⟩ := Cell.exists_code hn
    obtain ⟨cells, rfl⟩ := ih hns
    exact ⟨c :: cells, rfl⟩

theorem exists_rowFault (h : ¬Fits width row) : ∃ e, RowFault width y row e := by
  by_cases hlength : row.length = width
  · have hbad : ¬∀ n ∈ row, ¬3 < n := fun hall => h ⟨hlength, fun n hn => Nat.le_of_not_lt (hall n hn)⟩
    obtain ⟨n, hn⟩ : ∃ n, row.find? (3 < ·) = some n := by
      rw [← Option.isSome_iff_exists, List.find?_isSome]
      simpa using hbad
    obtain ⟨hlt, left, right, rfl, hleft⟩ := List.find?_eq_some_iff_append.mp hn
    refine ⟨_, .invalidCell hlength (fun k hk => ?_) (of_decide_eq_true hlt)⟩
    simpa using hleft k hk
  · exact ⟨_, .ragged hlength⟩

/-! ### Grids -/

theorem rowsFrom_map_code (cells : List (List Cell)) (h : ∀ row ∈ cells, row.length = width) :
    rowsFrom width y (cells.map (List.map Cell.code)) = .ok cells := by
  induction cells generalizing y with
  | nil => rfl
  | cons row rest ih =>
    obtain ⟨hrow, hrest⟩ := List.forall_mem_cons.mp h
    rw [List.map_cons, rowsFrom, List.length_map, if_neg (not_not.mpr hrow), cellsFrom_map_code]
    simp only [ih hrest]
    rfl

theorem rowsFrom_append (cells : List (List Cell)) (h : ∀ row ∈ cells, row.length = width)
    (rows : List (List Nat)) : rowsFrom width y (cells.map (List.map Cell.code) ++ rows) =
      (rowsFrom width (y + cells.length) rows).map (cells ++ ·) := by
  induction cells generalizing y with
  | nil => cases h : rowsFrom width y rows <;> simp [h, Except.map]
  | cons row rest ih =>
    obtain ⟨hrow, hrest⟩ := List.forall_mem_cons.mp h
    rw [List.map_cons, List.cons_append, rowsFrom, List.length_map, if_neg (not_not.mpr hrow),
      cellsFrom_map_code]
    simp only [ih hrest]
    rw [List.length_cons, Nat.add_right_comm, Nat.add_assoc]
    cases rowsFrom width (y + (rest.length + 1)) rows <;> rfl

theorem exists_cells_of_fits (h : ∀ row ∈ rows, Fits width row) :
    ∃ cells : List (List Cell), cells.map (List.map Cell.code) = rows ∧
      ∀ row ∈ cells, row.length = width := by
  induction rows with
  | nil => exact ⟨[], rfl, nofun⟩
  | cons row rows ih =>
    obtain ⟨⟨hlength, hrow⟩, hrows⟩ := List.forall_mem_cons.mp h
    obtain ⟨cs, rfl⟩ := exists_cells hrow
    obtain ⟨cells, rfl, hcells⟩ := ih hrows
    rw [List.length_map] at hlength
    exact ⟨cs :: cells, rfl, List.forall_mem_cons.mpr ⟨hlength, hcells⟩⟩

theorem RowFault.rowsFrom_eq (h : RowFault width y row e) : rowsFrom width y (row :: below) = .error e := by
  cases h with
  | ragged hlength => rw [rowsFrom, if_pos hlength]
  | @invalidCell left right n hlength hleft hn =>
    obtain ⟨cells, rfl⟩ := exists_cells hleft
    rw [rowsFrom, if_neg (not_not.mpr hlength), cellsFrom_append, cellsFrom, Cell.ofCode?_eq_none hn]
    simp [Except.map]

theorem ofRows_of_ok {first : List Nat} {cells : List (List Cell)} (hfirst : first ≠ [])
    (h : rowsFrom first.length 0 (first :: rows) = .ok cells) :
    ∃ m, ofRows (first :: rows) = .ok m ∧ m.rows = (cells.map List.toArray).toArray := by
  have hwidth : ((first :: rows).head?.map List.length).getD 0 ≠ 0 := by simpa using hfirst
  unfold ofRows
  simp only [dif_neg hwidth]
  split
  · next he => cases h.symm.trans he
  · next hok =>
    obtain rfl := Except.ok.inj (h.symm.trans hok)
    exact ⟨_, rfl, rfl⟩

theorem ofRows_of_error {first : List Nat} (hfirst : first ≠ [])
    (h : rowsFrom first.length 0 (first :: rows) = .error e) : ofRows (first :: rows) = .error e := by
  have hwidth : ((first :: rows).head?.map List.length).getD 0 ≠ 0 := by simpa using hfirst
  unfold ofRows
  simp only [dif_neg hwidth]
  split
  · next he => exact congrArg _ (Except.error.inj (he.symm.trans h))
  · next hok => cases h.symm.trans hok

theorem Faulty.ofRows_eq (h : Faulty rows e) : ofRows rows = .error e := by
  cases h with
  | none => rfl
  | blank => rfl
  | @row first row rows above below e hfirst hrows habove hrow =>
    obtain ⟨cells, rfl, hcells⟩ := exists_cells_of_fits habove
    rw [List.length_map] at hrow
    refine ofRows_of_error hfirst ?_
    rw [hrows, rowsFrom_append cells hcells, Nat.zero_add, hrow.rowsFrom_eq]
    rfl

/-- The cells of a grid are a maze, whose numbers are the grid. -/
theorem IsGrid.exists_maze (h : IsGrid rows) : ∃ m, ofRows rows = .ok m ∧ m.toRows = rows := by
  obtain ⟨first, hhead, hfirst, hfits⟩ := h
  obtain ⟨rest, rfl⟩ := List.head?_eq_some_iff.mp hhead
  obtain ⟨cells, hcells, hlength⟩ := exists_cells_of_fits hfits
  obtain ⟨m, hm, hrows⟩ := ofRows_of_ok hfirst (hcells ▸ rowsFrom_map_code cells hlength)
  refine ⟨m, hm, ?_⟩
  rw [toRows, hrows, ← hcells]
  simp

theorem isGrid_or_faulty (rows : List (List Nat)) : IsGrid rows ∨ ∃ e, Faulty rows e := by
  match rows with
  | [] => exact .inr ⟨_, .none⟩
  | [] :: rows => exact .inr ⟨_, .blank⟩
  | (n :: ns) :: rows =>
    have hfirst : n :: ns ≠ [] := List.cons_ne_nil n ns
    generalize n :: ns = first at hfirst ⊢
    classical
    cases hbad : (first :: rows).find? fun row => ¬Fits first.length row with
    | none => exact .inl ⟨first, rfl, hfirst, by simpa using hbad⟩
    | some row =>
      obtain ⟨hrow, above, below, hrows, habove⟩ := List.find?_eq_some_iff_append.mp hbad
      obtain ⟨e, he⟩ := exists_rowFault (y := above.length) (of_decide_eq_true hrow)
      exact .inr ⟨e, .row hfirst hrows (fun r hr => by simpa using habove r hr) he⟩

theorem length_of_mem_toRows {m : Maze} (h : row ∈ m.toRows) : row.length = m.width := by
  obtain ⟨cells, hcells, rfl⟩ := List.mem_map.mp h
  simpa using m.size_row cells (by simpa using hcells)

theorem isGrid_toRows (m : Maze) : IsGrid m.toRows := by
  have hcode : ∀ row ∈ m.toRows, ∀ n ∈ row, n ≤ 3 := by
    intro row hrow n hn
    obtain ⟨cells, -, rfl⟩ := List.mem_map.mp hrow
    obtain ⟨c, -, rfl⟩ := List.mem_map.mp hn
    exact c.code_le
  obtain ⟨first, rest, hrows⟩ : ∃ first rest, m.toRows = first :: rest := by
    refine List.exists_cons_of_ne_nil fun hnil => ?_
    have hpos := m.height_pos
    rw [toRows, List.map_eq_nil_iff, Array.toList_eq_nil_iff] at hnil
    simp [hnil] at hpos
  have hfirst := length_of_mem_toRows (hrows ▸ List.mem_cons_self)
  refine ⟨first, by rw [hrows]; rfl, ?_, fun row hrow => ⟨?_, hcode row hrow⟩⟩
  · refine List.length_pos_iff.mp ?_
    rw [hfirst]
    exact m.width_pos
  · rw [length_of_mem_toRows hrow, hfirst]

theorem toRows_injective {m n : Maze} (h : m.toRows = n.toRows) : m = n := by
  have hcells : m.rows.toList = n.rows.toList := by
    refine List.map_injective_iff.mpr (fun as bs hrow => ?_) h
    exact Array.toList_inj.mp (List.map_injective_iff.mpr (fun _ _ => Cell.code_injective) hrow)
  exact Maze.ext (Array.toList_inj.mp hcells)

/-- A maze is the maze of its numbers. -/
theorem ofRows_toRows (m : Maze) : ofRows m.toRows = .ok m := by
  obtain ⟨m', hm', hrows⟩ := m.isGrid_toRows.exists_maze
  rw [hm', toRows_injective hrows]

/-! ### Documents -/

open Json.Reader

theorem reads_number {n : Nat} (hn : n ≤ 255) : Reads (Int.toNat <$> integer 0 255) (.int n) n := by
  intro level gap rest hgap hrest
  have hread : Reads (integer 0 255) (.int n) (n : Int) :=
    reads_integer (by omega) (by omega) (by decide) (by decide)
  exact map_ok (hread level gap rest hgap hrest)

theorem reads_list {α : Type} {r : Json.Reader α} {f : α → Json} {as : List α}
    (h : ∀ a ∈ as, Opens (f a) ∧ Reads r (f a) a) : Reads (list r) (.arr (as.map f)) as := by
  intro level gap rest hgap _
  have hall : List.Forall₂ (fun v a => Opens v ∧ Reads r v a) (as.map f) as := by
    rw [List.forall₂_map_left_iff, List.forall₂_same]
    exact h
  obtain ⟨body, hbody, helements⟩ := elements_arr hall level rest
  rw [hbody, list, bind_ok (next?_append hgap rfl)]
  exact (bind_ok skip_cons).trans helements

theorem reads_rows (m : Maze) : Reads rowsReader m.toJson m.toRows := by
  obtain ⟨first, -, -, hfits⟩ := m.isGrid_toRows
  refine reads_list fun row hrow => ⟨opens_arr _, reads_list fun n hn => ⟨opens_int n, reads_number ?_⟩⟩
  exact Nat.le_trans ((hfits row hrow).2 n hn) (by decide)

/-- A maze is read back from its document. -/
theorem ofText_pretty (m : Maze) : ofText m.toJson.pretty = .ok m := by
  have hread := m.reads_rows 0 [] [] .nil .nil
  rw [List.nil_append, List.append_nil] at hread
  have hrun : rowsReader.run m.toJson.pretty.toList = .ok (m.toRows, []) := by
    rw [Json.pretty, String.toList_ofList]
    exact hread
  rw [ofText, hrun]
  show (Except.mapError MazeTextError.maze (ofRows m.toRows) >>= _) = _
  rw [m.ofRows_toRows]
  rfl

/-! ### Construction -/

/-- The maze after cells have been overwritten one after the other. -/
def overwrite (m : Maze) (writes : List (Int × Int × Cell)) : Maze :=
  writes.foldl (fun m (x, y, c) => m.set x y c) m

/-- A grid of numbers is a maze exactly if there is a first row, it is not empty and all rows fit; it is then
the grid of the maze. Any other grid is refused for its first fault. A maze that is made of numbers and
overwritten in any way is read back from its own numbers and from its document. -/
theorem ofRows_exact (rows : List (List Nat)) :
    ((∃ m, ofRows rows = .ok m) ↔ IsGrid rows) ∧
    (∀ m, ofRows rows = .ok m →
      m.toRows = rows ∧ (∀ row ∈ rows, row.length = m.width) ∧ m.height = rows.length) ∧
    (∀ e, ofRows rows = .error e ↔ Faulty rows e) ∧
    ∀ m writes, ofRows rows = .ok m →
      ofRows (m.overwrite writes).toRows = .ok (m.overwrite writes) ∧
        ofText (m.overwrite writes).toJson.pretty = .ok (m.overwrite writes) := by
  have hgrid (m : Maze) (hm : ofRows rows = .ok m) : IsGrid rows := by
    refine (isGrid_or_faulty rows).resolve_right ?_
    rintro ⟨e, he⟩
    cases hm.symm.trans he.ofRows_eq
  refine ⟨⟨fun ⟨m, hm⟩ => hgrid m hm, fun h => ?_⟩, fun m hm => ?_, fun e => ⟨fun he => ?_, Faulty.ofRows_eq⟩,
    fun m writes _ => ⟨ofRows_toRows _, ofText_pretty _⟩⟩
  · obtain ⟨m, hm, -⟩ := h.exists_maze
    exact ⟨m, hm⟩
  · obtain ⟨m', hm', hrows⟩ := (hgrid m hm).exists_maze
    obtain rfl := Except.ok.inj (hm'.symm.trans hm)
    refine ⟨hrows, fun row hrow => length_of_mem_toRows (hrows.symm ▸ hrow), ?_⟩
    rw [← hrows, toRows, List.length_map, Array.length_toList]
    rfl
  · rcases isGrid_or_faulty rows with h | ⟨e', he'⟩
    · obtain ⟨m, hm, -⟩ := h.exists_maze
      cases hm.symm.trans he
    · obtain rfl := Except.error.inj (he'.ofRows_eq.symm.trans he)
      exact he'

/-- A wall is built, and a place outside of the grid is overwritten in vain. -/
theorem ofRows_exact_walled : ∃ m, ofRows [[1, 2], [0, 3]] = .ok m ∧ m.toRows = [[1, 2], [0, 3]] ∧
    ofRows [[1, 2], [1, 3]] = .ok (m.overwrite [(0, 1, .wall), (2, 0, .goal)]) := by
  obtain ⟨m, hm, hwalled⟩ : ∃ m, ofRows [[1, 2], [0, 3]] = .ok m ∧
      (m.overwrite [(0, 1, .wall), (2, 0, .goal)]).toRows = [[1, 2], [1, 3]] := ⟨_, rfl, rfl⟩
  obtain ⟨-, hrows, -, hback⟩ := ofRows_exact [[1, 2], [0, 3]]
  obtain ⟨hread, -⟩ := hback m [(0, 1, .wall), (2, 0, .goal)] hm
  exact ⟨m, hm, (hrows m hm).1, hwalled ▸ hread⟩

/-- The length of a row is looked at first, but behind all rows above. -/
example : ofRows [[0, 3], [7], [4, 4, 4]] = .error (.ragged 1 2 1) := rfl

end Maze

end Labyrinth
