import Labyrinth.Files.Tree
import Labyrinth.Proofs.Except
import Labyrinth.Proofs.Files.Paths

/-!
# Places in a tree

A path leads to one place or nowhere: `Tree.place` is given by the parts of the path and the directory at
which it starts. For each operation there is a lemma about what has to stand where for it to succeed, and
what the tree is then.
-/

namespace Labyrinth

namespace Tree

/-- A step along a path. -/
def step (here : Place) : PathPart → Place
  | .up => here.dropLast
  | .name s => here ++ [s]

/-- The place that parts of a path lead to. -/
def along (here : Place) (parts : List PathPart) : Place :=
  parts.foldl step here

/-- The place of a path, whether it leads anywhere or not. -/
def place (t : Tree) (p : Path) : Place :=
  along (if p.isRooted then [] else t.current) p.parts

/-- The content of the file at a place. -/
def file? (t : Tree) (q : Place) : Option ByteArray :=
  match t.get? q with
  | some (.file content) => some content
  | _ => none

variable {t t' : Tree} {p : Path} {q q' here : Place} {e : Entry} {content : ByteArray}
  {parts : List PathPart}

theorem file?_eq_some : t.file? q = some content ↔ t.get? q = some (.file content) := by
  rw [file?]
  split
  · next h => rw [h]; simp
  · next h =>
    constructor
    · nofun
    · intro hfile
      exact absurd hfile (h content)

theorem file?_congr (h : t'.get? q = t.get? q) : t'.file? q = t.file? q := by
  rw [file?, file?, h]

/-! ### Changes of one place -/

/-- The root is a directory. -/
theorem ne_nil (hq : t.get? q ≠ some .directory) : q ≠ [] := by
  rintro rfl
  exact hq rfl

theorem lookup_remove (es : List (Place × Entry)) (q q' : Place) :
    (remove q es).lookup q' = if q' = q then none else es.lookup q' := by
  induction es with
  | nil => simp [remove]
  | cons entry es ih =>
    obtain ⟨place, e⟩ := entry
    by_cases hplace : place = q
    · have hremove : remove q ((place, e) :: es) = remove q es := by simp [remove, hplace]
      rw [hremove, ih]
      split
      · rfl
      · next hne => rw [List.lookup_cons, beq_false_of_ne (hplace ▸ hne)]
    · have hremove : remove q ((place, e) :: es) = (place, e) :: remove q es := by simp [remove, hplace]
      rw [hremove, List.lookup_cons, List.lookup_cons, ih]
      by_cases hsame : q' = place
      · subst hsame
        simp only [if_neg hplace, beq_self_eq_true]
      · rw [beq_false_of_ne hsame]

theorem get?_set (hq : q ≠ []) : (t.set q e).get? q' = if q' = q then some e else t.get? q' := by
  by_cases hsame : q' = q
  · subst hsame
    simp [get?, set, hq]
  · simp [get?, set, hsame, List.lookup_cons, lookup_remove, beq_false_of_ne hsame]

theorem get?_erase (hq : q ≠ []) : (t.erase q).get? q' = if q' = q then none else t.get? q' := by
  by_cases hsame : q' = q
  · subst hsame
    simp [get?, erase, hq, lookup_remove]
  · simp [get?, erase, hsame, lookup_remove]

theorem remove_remove (es : List (Place × Entry)) (q : Place) : remove q (remove q es) = remove q es := by
  rw [remove, remove, List.filter_filter]
  simp only [Bool.and_self]

/-- Of two entries at one place the later counts. -/
theorem set_set (e' : Entry) : (t.set q e).set q e' = t.set q e' := by
  have hremove : remove q ((q, e) :: remove q t.entries) = remove q t.entries := by
    rw [← remove_remove t.entries q]
    simp [remove]
  show Tree.mk _ ((q, e') :: remove q ((q, e) :: remove q t.entries)) = _
  rw [hremove]
  rfl

/-! ### Walks -/

theorem eq_along_of_walk (h : t.walk here parts = .ok q) : q = along here parts := by
  induction parts generalizing here with
  | nil => exact (Except.ok.inj h).symm
  | cons part parts ih =>
    unfold walk at h
    split at h
    · cases h
    · cases h
    · cases part with
      | up => exact ih h
      | name s =>
        simp only at h
        split at h
        · cases h
        · exact ih h

theorem eq_place_of_resolve (h : t.resolve p = .ok q) : q = t.place p := by
  rw [resolve] at h
  split at h
  · cases h
  · split at h
    · cases h
    · exact eq_along_of_walk h

theorem place_congr (h : t'.current = t.current) (p : Path) : t'.place p = t.place p := by
  rw [place, place, h]

/-- The directories of `t` are also directories of `t'`, and paths start at the same of them. -/
structure Keeps (t t' : Tree) : Prop where
  current : t'.current = t.current
  directory {q : Place} : t.get? q = some .directory → t'.get? q = some .directory

namespace Keeps

theorem refl (t : Tree) : Keeps t t := ⟨rfl, id⟩

theorem trans {t'' : Tree} (h : Keeps t t') (h' : Keeps t' t'') : Keeps t t'' :=
  ⟨h'.current.trans h.current, fun hdir => h'.directory (h.directory hdir)⟩

theorem walk (h : Keeps t t') (hwalk : t.walk here parts = .ok q) : t'.walk here parts = .ok q := by
  induction parts generalizing here with
  | nil => exact hwalk
  | cons part parts ih =>
    unfold Tree.walk at hwalk ⊢
    split at hwalk
    · cases hwalk
    · cases hwalk
    · next hdir =>
      rw [h.directory hdir]
      cases part with
      | up => exact ih hwalk
      | name s =>
        simp only at hwalk ⊢
        split at hwalk
        · cases hwalk
        · next hlength =>
          rw [if_neg hlength]
          exact ih hwalk

/-- A path that leads somewhere still does. -/
theorem resolve (h : Keeps t t') (hresolve : t.resolve p = .ok q) : t'.resolve p = .ok q := by
  rw [Tree.resolve] at hresolve ⊢
  split at hresolve
  · cases hresolve
  · next htext =>
    rw [if_neg htext]
    split at hresolve
    · cases hresolve
    · next hnul =>
      rw [if_neg hnul, h.current]
      exact h.walk hresolve

theorem set (hq : t.get? q ≠ some .directory) : Keeps t (t.set q e) := by
  refine ⟨rfl, fun {q'} hdir => ?_⟩
  rw [get?_set (ne_nil hq), if_neg]
  · exact hdir
  · rintro rfl
    exact hq hdir

theorem erase (hq : t.get? q ≠ some .directory) : Keeps t (t.erase q) := by
  refine ⟨rfl, fun {q'} hdir => ?_⟩
  rw [get?_erase (ne_nil hq), if_neg]
  · exact hdir
  · rintro rfl
    exact hq hdir

end Keeps

/-! ### Operations -/

theorem isDirectory_iff : t.isDirectory q ↔ t.get? q = some .directory := by
  rw [isDirectory]
  split
  · next h => simp [h]
  · next h => simpa using h

/-- A path leads to its place, and does not ask for a directory there. -/
structure Leads (t : Tree) (p : Path) : Prop where
  resolve : t.resolve p = .ok (t.place p)
  file : p.endsInDirectory = false

theorem Leads.keeps (h : t.Leads p) (hkeeps : Keeps t t') : t'.Leads p where
  resolve := by rw [place_congr hkeeps.current, hkeeps.resolve h.resolve]
  file := h.file

theorem makeDir_eq_ok (h : t.makeDir p = .ok t') :
    t.get? (t.place p) = none ∧ t' = t.set (t.place p) .directory := by
  obtain ⟨q, hq, h⟩ := Except.bind_eq_ok.mp h
  obtain rfl := eq_place_of_resolve hq
  split at h
  · cases h
  · next hnone => exact ⟨hnone, (Except.ok.inj h).symm⟩

theorem write_eq_ok : t.write p content = .ok t' ↔
    t.Leads p ∧ t.get? (t.place p) ≠ some .directory ∧ t' = t.set (t.place p) (.file content) := by
  constructor
  · intro h
    obtain ⟨q, hq, h⟩ := Except.bind_eq_ok.mp h
    obtain rfl := eq_place_of_resolve hq
    split at h
    · cases h
    · next hplace =>
      rw [not_or, isDirectory_iff, Bool.not_eq_true] at hplace
      exact ⟨⟨hq, hplace.2⟩, hplace.1, (Except.ok.inj h).symm⟩
  · rintro ⟨⟨hresolve, hends⟩, hdir, rfl⟩
    rw [write, hresolve]
    refine if_neg ?_
    rw [not_or, isDirectory_iff, Bool.not_eq_true]
    exact ⟨hdir, hends⟩

/-- Whether a file can be written does not depend on its content. -/
theorem write_error {e : FileError} {content' : ByteArray} (h : t.write p content = .error e) :
    t.write p content' = .error e := by
  unfold write at h ⊢
  rcases hresolve : t.resolve p with e' | q
  · rw [hresolve] at h
    exact h
  · rw [hresolve] at h
    simp only [bind, Except.bind] at h ⊢
    split at h
    · next hplace => rw [if_pos hplace]; exact h
    · cases h

/-- A file that was written can be written again, as if it had not been before. -/
theorem write_write {content' : ByteArray} (h : t.write p content = .ok t') :
    t'.write p content' = t.write p content' := by
  obtain ⟨hleads, hdir, rfl⟩ := write_eq_ok.mp h
  have hplace : (t.set (t.place p) (.file content)).place p = t.place p := place_congr rfl p
  have hagain : (t.set (t.place p) (.file content)).write p content' =
      .ok ((t.set (t.place p) (.file content)).set (t.place p) (.file content')) := by
    refine write_eq_ok.mpr ⟨hleads.keeps (.set hdir), ?_, by rw [hplace]⟩
    rw [hplace, get?_set (ne_nil hdir), if_pos rfl]
    nofun
  rw [hagain, set_set, write_eq_ok.mpr ⟨hleads, hdir, rfl⟩]

theorem find_file_iff : t.find p = .ok (q, .file content) ↔
    t.Leads p ∧ q = t.place p ∧ t.get? (t.place p) = some (.file content) := by
  constructor
  · intro h
    obtain ⟨q', hq, h⟩ := Except.bind_eq_ok.mp h
    obtain rfl := eq_place_of_resolve hq
    split at h
    · cases h
    · next hfile =>
      split at h
      · cases h
      · next hends =>
        cases h
        exact ⟨⟨hq, Bool.not_eq_true _ ▸ hends⟩, rfl, hfile⟩
    · cases h
  · rintro ⟨⟨hresolve, hends⟩, rfl, hfile⟩
    rw [find, hresolve]
    simp only [bind, Except.bind, hfile, hends, Bool.false_eq_true, if_false]
    rfl

theorem read_eq_ok : t.read p = .ok content ↔ t.Leads p ∧ t.get? (t.place p) = some (.file content) := by
  constructor
  · intro h
    obtain ⟨⟨q, entry⟩, hfind, h⟩ := Except.bind_eq_ok.mp h
    cases entry with
    | directory => cases h
    | file content' =>
      cases h
      obtain ⟨hleads, -, hfile⟩ := find_file_iff.mp hfind
      exact ⟨hleads, hfile⟩
  · rintro ⟨hleads, hfile⟩
    rw [read, find_file_iff.mpr ⟨hleads, rfl, hfile⟩]
    rfl

theorem rename_eq_ok {new : Path} (h : t.rename p new = .ok t') :
    ∃ content, t.get? (t.place p) = some (.file content) ∧ t.Leads new ∧ new.fileName?.isSome ∧
      t.get? (t.place new) ≠ some .directory ∧
      t' = (t.erase (t.place p)).set (t.place new) (.file content) := by
  obtain ⟨source, hsource, h⟩ := Except.bind_eq_ok.mp h
  obtain ⟨target, htarget, h⟩ := Except.bind_eq_ok.mp h
  obtain rfl := eq_place_of_resolve hsource
  obtain rfl := eq_place_of_resolve htarget
  by_cases hbusy : new.endsInDot ∨ new.fileName?.isNone
  · -- the new path is looked up at most, and then refused
    simp only [if_pos hbusy] at h
    split at h
    · obtain ⟨-, -, h⟩ := Except.bind_eq_ok.mp h
      cases h
    · cases h
  · simp only [not_or.mp hbusy, Bool.false_eq_true, if_false, or_self] at h
    split at h
    · next content hfile =>
      split at h
      · cases h
      · next hends =>
        split at h
        · cases h
        · next hdir =>
          rw [isDirectory_iff] at hdir
          have hname : new.fileName?.isSome :=
            Option.isNone_eq_false_iff.mp (Bool.not_eq_true _ ▸ (not_or.mp hbusy).2)
          exact ⟨content, hfile, ⟨htarget, Bool.not_eq_true _ ▸ hends⟩, hname, hdir, (Except.ok.inj h).symm⟩
    · cases h

/-! ### What is there already -/

section

variable {new : Path} {ps qs : List PathPart}

theorem walk_cons (t : Tree) (here : Place) (part : PathPart) (ps : List PathPart) :
    t.walk here (part :: ps) =
      match t.get? here, part with
      | none, _ => .error .notFound
      | some (.file _), _ => .error .notDirectory
      | some .directory, .up => t.walk here.dropLast ps
      | some .directory, .name s =>
        if maxName < s.utf8ByteSize then .error .nameTooLong else t.walk (here ++ [s]) ps := by
  conv => lhs; unfold walk
  cases t.get? here with
  | none => rfl
  | some e => cases e <;> cases part <;> rfl

theorem walk_append (t : Tree) (here : Place) (ps qs : List PathPart) :
    t.walk here (ps ++ qs) = t.walk here ps >>= fun q => t.walk q qs := by
  induction ps generalizing here with
  | nil => rfl
  | cons part ps ih =>
    rw [List.cons_append, walk_cons, walk_cons]
    split
    · rfl
    · rfl
    · exact ih _
    · split
      · rfl
      · exact ih _

/-- All places on the way but the last are directories. -/
theorem directory_of_walk (h : t.walk here (ps ++ qs) = .ok q) (hqs : qs ≠ []) :
    t.walk here ps = .ok (along here ps) ∧ t.get? (along here ps) = some .directory := by
  rw [walk_append] at h
  obtain ⟨q', hps, hrest⟩ := Except.bind_eq_ok.mp h
  obtain rfl := eq_along_of_walk hps
  obtain ⟨part, qs, rfl⟩ := List.exists_cons_of_ne_nil hqs
  refine ⟨hps, ?_⟩
  rw [walk_cons] at hrest
  split at hrest
  · cases hrest
  · cases hrest
  · assumption
  · assumption

theorem walk_of_resolve (h : t.resolve p = .ok q) :
    t.walk (if p.isRooted then [] else t.current) p.parts = .ok q ∧ '\x00' ∉ p.text.toList := by
  rw [resolve] at h
  split at h
  · cases h
  · split at h
    · cases h
    · next hnul => exact ⟨h, by simpa using hnul⟩

/-- A directory that is there is made without doing anything. -/
theorem ensureDirs_of_directory {rooted : Bool} (hplain : ∀ part ∈ ps, part.Plain)
    (hnul : '\x00' ∉ (Path.ofParts rooted ps).text.toList)
    (hwalk : t.walk (if rooted then [] else t.current) ps = .ok q) (hdir : t.get? q = some .directory) :
    t.ensureDirs rooted ps.reverse = (.ok (), t) := by
  by_cases hne : ps = []
  · subst hne
    rfl
  have hresolve : t.resolve (.ofParts rooted ps) = .ok q := by
    rw [resolve, if_neg (Path.text_ofParts_ne hplain hne), if_neg (by simpa using hnul), Path.isRooted_ofParts hplain,
      Path.parts_ofParts hplain, hwalk]
  have hensure : t.ensureDir (.ofParts rooted ps) = (.ok (), t) := by
    have hmake : t.makeDir (.ofParts rooted ps) = .error .alreadyExists := by
      rw [makeDir, hresolve]
      simp only [bind, Except.bind, hdir]
      rfl
    have hfind : t.find (.ofParts rooted ps) = .ok (q, .directory) := by
      rw [find, hresolve]
      simp only [bind, Except.bind, hdir]
      rfl
    rw [ensureDir, hmake, leadsToDirectory, hfind]
    rfl
  obtain ⟨before, part, rfl⟩ : ∃ before part, ps = before ++ [part] :=
    ⟨_, _, (List.dropLast_append_getLast hne).symm⟩
  rw [List.reverse_concat, ensureDirs, List.reverse_reverse, hensure]

theorem rename_ok (hresolve : t.resolve p = .ok (t.place p)) (hfile : t.get? (t.place p) = some (.file content))
    (hnew : t.Leads new) (hname : new.fileName?.isSome) (hdir : t.get? (t.place new) ≠ some .directory) :
    t.rename p new = .ok ((t.erase (t.place p)).set (t.place new) (.file content)) := by
  have hnamed : new.fileName?.isNone = false := Option.isNone_eq_false_iff.mpr hname
  have hnotdir : ¬t.isDirectory (t.place new) := fun h => hdir (isDirectory_iff.mp h)
  rw [rename, hresolve, hnew.resolve]
  simp only [bind, Except.bind, Path.endsInDot_eq_false hnew.file, hnamed, hfile, hnew.file, hnotdir]
  rfl

end

end Tree

end Labyrinth
