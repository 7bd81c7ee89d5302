import Labyrinth.Files.Path
import Labyrinth.Proofs.Listing.Words

/-!
# Paths and their parts

The path of parts has these parts, if no part could be read as another one (`Path.parts_ofParts`).
-/

namespace Labyrinth

namespace PathPart

variable {part : PathPart}

/-- A part that stands in the text of a path as it is: a name is not empty, has no slash, and is not made
of one or two dots. -/
def Plain : PathPart → Prop
  | .up => True
  | .name s => s.toList ≠ [] ∧ '/' ∉ s.toList ∧ s.toList ≠ ['.'] ∧ s.toList ≠ ['.', '.']

theorem Plain.not_slash (h : part.Plain) : ∀ c ∈ part.text.toList, decide (c = '/') = false := by
  intro c hc
  cases part with
  | up =>
    obtain rfl := List.eq_of_mem_replicate (show c ∈ List.replicate 2 '.' from hc)
    rfl
  | name s =>
    have hne : c ≠ '/' := by
      rintro rfl
      exact h.2.1 hc
    simpa using hne

theorem Plain.text_ne_nil (h : part.Plain) : part.text.toList ≠ [] := by
  cases part with
  | up => decide
  | name s => exact h.1

end PathPart

namespace Path

variable {p : Path} {rooted : Bool} {part : PathPart} {ps : List PathPart} {name : String}

/-- The part that is read from what stands between two slashes. -/
def part? (s : List Char) : Option PathPart :=
  if s = [] ∨ s = ['.'] then none
  else if s = ['.', '.'] then some .up
  else some (.name (String.ofList s))

theorem parts_eq_filterMap (p : Path) : p.parts = p.segments.filterMap part? := rfl

theorem part?_text (h : part.Plain) : part? part.text.toList = some part := by
  cases part with
  | up => rfl
  | name s =>
    obtain ⟨hempty, -, hdot, hdots⟩ := h
    show part? s.toList = _
    rw [part?, if_neg (by simp only [hempty, hdot, or_self, not_false_eq_true]), if_neg hdots,
      String.ofList_toList]

/-- The parts of a path are plain. -/
theorem plain_of_mem_parts (h : part ∈ p.parts) : part.Plain := by
  obtain ⟨s, hs, hpart⟩ := List.mem_filterMap.mp h
  split at hpart
  · cases hpart
  · next hempty =>
    split at hpart
    · cases hpart
      trivial
    · next hdots =>
      cases hpart
      simp only [PathPart.Plain, String.toList_ofList]
      have hslash (hmem : '/' ∈ s) : False := by
        have hsep := Text.not_sep_of_mem_pieces hs hmem
        simp at hsep
      exact ⟨fun h => hempty (.inl h), hslash, fun h => hempty (.inr h), hdots⟩

theorem toList_ofParts (rooted : Bool) (ps : List PathPart) :
    (ofParts rooted ps).text.toList =
      (if rooted then ['/'] else []) ++ ['/'].intercalate (ps.map fun part => part.text.toList) := by
  rw [ofParts, String.toList_append, String.toList_intercalate, List.map_map]
  cases rooted <;> rfl

theorem filterMap_part? (h : ∀ part ∈ ps, part.Plain) :
    (ps.map fun part => part.text.toList).filterMap part? = ps := by
  induction ps with
  | nil => rfl
  | cons part ps ih =>
    obtain ⟨hpart, hps⟩ := List.forall_mem_cons.mp h
    rw [List.map_cons, List.filterMap_cons, part?_text hpart, ih hps]

theorem parts_ofParts (h : ∀ part ∈ ps, part.Plain) : (ofParts rooted ps).parts = ps := by
  have hbody : (Text.pieces (· = '/') (['/'].intercalate (ps.map fun part => part.text.toList))).filterMap
      part? = ps := by
    cases ps with
    | nil => rfl
    | cons part ps =>
      obtain ⟨hpart, hps⟩ := List.forall_mem_cons.mp h
      rw [List.map_cons, Text.pieces_intercalate (by decide) hpart.not_slash]
      · exact filterMap_part? h
      · intro q hq c hc
        obtain ⟨part', hpart', rfl⟩ := List.mem_map.mp hq
        exact (hps part' hpart').not_slash c hc
  rw [parts_eq_filterMap, segments, toList_ofParts]
  cases rooted with
  | true => exact hbody
  | false => exact hbody

theorem isRooted_ofParts (h : ∀ part ∈ ps, part.Plain) : (ofParts rooted ps).isRooted = rooted := by
  rw [isRooted, toList_ofParts]
  cases rooted with
  | true => rfl
  | false =>
    cases ps with
    | nil => rfl
    | cons part ps =>
      have hplain := h part List.mem_cons_self
      have hhead : (['/'].intercalate ((part :: ps).map fun part => part.text.toList)).head? =
          part.text.toList.head? := by
        cases ps with
        | nil => rw [List.map_singleton, List.intercalate_singleton]
        | cons part' ps =>
          rw [List.map_cons, List.map_cons, List.intercalate_cons_cons, List.append_assoc,
            List.head?_append_of_ne_nil _ hplain.text_ne_nil]
      have hslash : part.text.toList.head? ≠ some '/' := by
        intro hslash
        cases hplain.not_slash '/' (List.mem_of_mem_head? hslash)
      rw [if_neg Bool.false_ne_true, List.nil_append, hhead]
      exact decide_eq_false hslash

/-! ### The last part -/

theorem parts_eq_concat (h : p.fileName? = some name) : p.parts = p.parts.dropLast ++ [.name name] := by
  have hlast : p.parts.getLast? = some (.name name) := by
    rw [fileName?] at h
    split at h
    · next hlast =>
      cases h
      exact hlast
    · cases h
  exact (List.dropLast_append_getLast? _ hlast).symm

theorem plain_of_mem_dropLast (h : part ∈ p.parts.dropLast) : part.Plain :=
  plain_of_mem_parts (List.mem_of_mem_dropLast h)

/-- A longer name is as plain as the name of a file. -/
theorem plain_append {suffix : String} (h : p.fileName? = some name) (hslash : '/' ∉ suffix.toList)
    (hlength : 2 < suffix.toList.length) : (PathPart.name (name ++ suffix)).Plain := by
  have hname : (PathPart.name name).Plain := by
    refine plain_of_mem_parts (p := p) ?_
    rw [parts_eq_concat h]
    exact List.mem_append_right _ List.mem_cons_self
  have hlong : 2 < (name.toList ++ suffix.toList).length := by
    rw [List.length_append]
    omega
  simp only [PathPart.Plain, String.toList_append]
  refine ⟨?_, ?_, ?_, ?_⟩
  · intro hnil
    simp [hnil] at hlong
  · intro hmem
    rcases List.mem_append.mp hmem with hmem | hmem
    · exact hname.2.1 hmem
    · exact hslash hmem
  · intro hdot
    simp [hdot] at hlong
  · intro hdots
    simp [hdots] at hlong

theorem parts_parent (p : Path) : (ofParts p.isRooted p.parts.dropLast).parts = p.parts.dropLast :=
  parts_ofParts fun _ => plain_of_mem_dropLast

theorem isRooted_parent (p : Path) : (ofParts p.isRooted p.parts.dropLast).isRooted = p.isRooted :=
  isRooted_ofParts fun _ => plain_of_mem_dropLast

theorem parent?_eq_some (h : p.fileName? = some name) :
    p.parent? = some (ofParts p.isRooted p.parts.dropLast) := by
  have hne : p.parts ≠ [] := by
    rw [parts_eq_concat h]
    exact List.append_ne_nil_of_right_ne_nil _ (List.cons_ne_nil _ _)
  rw [parent?, if_neg hne]

section WithFileName

variable {new : String}

theorem withFileName_eq (h : p.fileName? = some name) (new : String) :
    p.withFileName new = ofParts p.isRooted (p.parts.dropLast ++ [.name new]) := by
  rw [withFileName, h]
  rfl

theorem plain_of_mem_concat (hnew : (PathPart.name new).Plain) :
    ∀ part ∈ p.parts.dropLast ++ [.name new], part.Plain := by
  intro part hpart
  rcases List.mem_append.mp hpart with hpart | hpart
  · exact plain_of_mem_dropLast hpart
  · obtain rfl := List.mem_singleton.mp hpart
    exact hnew

theorem parts_withFileName (h : p.fileName? = some name) (hnew : (PathPart.name new).Plain) :
    (p.withFileName new).parts = p.parts.dropLast ++ [.name new] := by
  rw [withFileName_eq h, parts_ofParts (plain_of_mem_concat hnew)]

theorem isRooted_withFileName (h : p.fileName? = some name) (hnew : (PathPart.name new).Plain) :
    (p.withFileName new).isRooted = p.isRooted := by
  rw [withFileName_eq h, isRooted_ofParts (plain_of_mem_concat hnew)]

end WithFileName

/-! ### Texts -/

variable {c : Char}

/-- But for slashes, the text of parts is made of the texts of these. -/
theorem mem_ofParts (hc : c ≠ '/') :
    c ∈ (ofParts rooted ps).text.toList ↔ ∃ part ∈ ps, c ∈ part.text.toList := by
  have hbody : c ∈ ['/'].intercalate (ps.map fun part => part.text.toList) ↔
      ∃ part ∈ ps, c ∈ part.text.toList := by
    induction ps with
    | nil => simp
    | cons part ps ih =>
      cases ps with
      | nil => simp
      | cons part' ps =>
        rw [List.map_cons] at ih
        rw [List.map_cons, List.map_cons, List.intercalate_cons_cons, List.mem_append, List.mem_append, ih]
        simp [hc]
  rw [toList_ofParts, List.mem_append, hbody]
  cases rooted <;> simp [hc]

theorem text_ofParts_ne (h : ∀ part ∈ ps, part.Plain) (hne : ps ≠ []) : (ofParts rooted ps).text ≠ "" := by
  obtain ⟨part, ps, rfl⟩ := List.exists_cons_of_ne_nil hne
  obtain ⟨c, cs, hcs⟩ := List.exists_cons_of_ne_nil (h part List.mem_cons_self).text_ne_nil
  intro hempty
  have hc : c ∈ part.text.toList := hcs ▸ List.mem_cons_self
  have hslash : c ≠ '/' := of_decide_eq_false ((h part List.mem_cons_self).not_slash c hc)
  have hmem : c ∈ (ofParts rooted (part :: ps)).text.toList := (mem_ofParts hslash).mpr ⟨part, by simp, hc⟩
  rw [hempty] at hmem
  cases hmem

/-- A path with a dot at its end leads to a directory. -/
theorem endsInDot_eq_false (h : p.endsInDirectory = false) : p.endsInDot = false := by
  have hne : p.segments ≠ [] := Text.pieces_ne_nil _ _
  obtain ⟨before, s, hs⟩ : ∃ before s, p.segments = before ++ [s] :=
    ⟨_, _, (List.dropLast_append_getLast hne).symm⟩
  rw [endsInDirectory, hs, List.getLast?_concat] at h
  simp only [Bool.or_eq_false_iff, decide_eq_false_iff_not] at h
  rw [endsInDot, hs, List.filter_append, List.filter_singleton]
  simp [h]

end Path

end Labyrinth
