import Labyrinth.Proofs.Settings.Saving

/-!
# Settings that are saved again

A save that succeeds leaves everything in place for the next one (`Settings.Saved`). If the same settings are
saved again, nothing is changed but what stands beside the file, and nothing at all if that succeeds, as it does
on a disk without faults.
-/

namespace Labyrinth

namespace Tree

variable {t : Tree} {p : Path} {q : Place} {name : String}

/-- The directories on the way to a file are there. -/
theorem Leads.directory (h : t.Leads p) (hname : p.fileName? = some name) (hq : t.Above p q) :
    t.get? q = some .directory := by
  obtain ⟨ps, ⟨qs, hps⟩, rfl⟩ := hq
  have hparts : p.parts = ps ++ (qs ++ [.name name]) := by
    rw [← List.append_assoc, hps]
    exact Path.parts_eq_concat hname
  obtain ⟨hwalk, -⟩ := walk_of_resolve h.resolve
  rw [hparts] at hwalk
  exact (directory_of_walk hwalk (by simp)).2

end Tree

namespace Settings

variable {p : Path} {name : String} {s : Settings} {t t' : Tree} {d d' : Disk} {json : ByteArray} {q : Place}

/-- A document is the content of a file and was written beside it first, where nothing stands any more. -/
structure Saved (p : Path) (name : String) (json : ByteArray) (t : Tree) : Prop where
  fileName : p.fileName? = some name
  read : t.read p = .ok json
  beside : t.get? (beside (t.place p) name) = none
  temporary : t.Leads (temporary p)

theorem saved_of_save (h : save (m := StateM Disk) p s d = (.ok (), d')) :
    ∃ name, Saved p name s.toJson.pretty.toUTF8 d'.tree := by
  obtain ⟨d₁, -, h⟩ := Disk.andThen_eq_ok.mp h
  obtain ⟨d₂, hwrite, hrename⟩ := Disk.andThen_eq_ok.mp h
  obtain ⟨t, hwrite⟩ := Disk.write_eq_ok hwrite
  obtain ⟨hleads, hdir, htree⟩ := Tree.write_eq_ok.mp hwrite
  have hrename : d₂.tree.rename (temporary p) p = .ok d'.tree := Disk.change_eq_ok hrename
  obtain ⟨-, -, -, hname, -, -⟩ := Tree.rename_eq_ok hrename
  obtain ⟨name, hname⟩ := Option.isSome_iff_exists.mp hname
  have hkeeps : t.Keeps d₂.tree := htree ▸ .set hdir
  have hfile : d₂.tree.get? (beside (d₂.tree.place p) name) = some (.file s.toJson.pretty.toUTF8) := by
    rw [← place_temporary hname, Tree.place_congr hkeeps.current, htree, Tree.get?_set (Tree.ne_nil hdir),
      if_pos rfl]
  obtain ⟨hmidway, hbeside, hread⟩ := Midway.start.rename hname hfile hrename
  refine ⟨name, hname, hread, ?_, (hleads.keeps hkeeps).keeps hmidway.keeps⟩
  rwa [Tree.place_congr hmidway.keeps.current]

namespace Saved

theorem place_eq_file (h : Saved p name json t) : t.get? (t.place p) = some (.file json) :=
  (Tree.read_eq_ok.mp h.read).2

/-- While the same document is saved again, only what stands beside the file is not as it was. -/
theorem get?_midway (h : Saved p name json t) (hmidway : Midway p name json t t')
    (hq : q ≠ Settings.beside (t.place p) name) : t'.get? q = t.get? q := by
  rcases hmidway.entry hq with hsame | ⟨hnone, -, habove⟩ | ⟨rfl, hnew⟩
  · exact hsame
  · have hdir := (Tree.read_eq_ok.mp h.read).1.directory h.fileName habove
    cases hnone.symm.trans hdir
  · rw [hnew, h.place_eq_file]

theorem makeParent_eq (h : Saved p name json t) : makeParent (m := StateM Tree) p t = (.ok (), t) := by
  obtain ⟨hwalk, hnul⟩ := Tree.walk_of_resolve h.temporary.resolve
  have hplain := plain_temporary h.fileName
  rw [temporary_eq h.fileName, Path.parts_withFileName h.fileName hplain,
    Path.isRooted_withFileName h.fileName hplain] at hwalk
  obtain ⟨hwalk, hdir⟩ := Tree.directory_of_walk hwalk (List.cons_ne_nil _ _)
  rw [makeParent, Path.parent?_eq_some h.fileName]
  show Tree.ensureDirs _ _ _ = _
  rw [Path.isRooted_parent, Path.parts_parent]
  refine Tree.ensureDirs_of_directory (fun _ => Path.plain_of_mem_dropLast) (fun hmem => hnul ?_) hwalk hdir
  rw [temporary_eq h.fileName, Path.withFileName_eq h.fileName]
  obtain ⟨part, hpart, hc⟩ := (Path.mem_ofParts (by decide)).mp hmem
  exact (Path.mem_ofParts (by decide)).mpr ⟨part, List.mem_append_left _ hpart, hc⟩

theorem get?_temporary (h : Saved p name json t) : t.get? (t.place (Settings.temporary p)) = none := by
  rw [place_temporary h.fileName, h.beside]

/-- The first step of another save. -/
theorem write_eq (h : Saved p name json t) (text : String) :
    FileAccess.write (m := StateM Tree) (Settings.temporary p) text t =
      (.ok (), t.set (t.place (Settings.temporary p)) (.file text.toUTF8)) := by
  have hdir : t.get? (t.place (Settings.temporary p)) ≠ some .directory := by
    rw [h.get?_temporary]
    nofun
  show t.after ((t.write (Settings.temporary p) text.toUTF8).map ((), ·)) = _
  rw [Tree.write_eq_ok.mpr ⟨h.temporary, hdir, rfl⟩]
  rfl

/-- What was written beside the file can come to stand in its place. -/
theorem exists_rename (h : Saved p name json t) (bytes : ByteArray) : ∃ t',
    FileAccess.rename (m := StateM Tree) (Settings.temporary p) p
      (t.set (t.place (Settings.temporary p)) (.file bytes)) = (.ok (), t') := by
  have hdir : t.get? (t.place (Settings.temporary p)) ≠ some .directory := by
    rw [h.get?_temporary]
    nofun
  generalize ht₁ : t.set (t.place (Settings.temporary p)) (.file bytes) = t₁
  have hkeeps : t.Keeps t₁ := ht₁ ▸ .set hdir
  have hsame (p : Path) : t₁.place p = t.place p := Tree.place_congr hkeeps.current p
  have hfile : t₁.get? (t₁.place (Settings.temporary p)) = some (.file bytes) := by
    rw [hsame, ← ht₁, Tree.get?_set (Tree.ne_nil hdir), if_pos rfl]
  have htarget : t₁.get? (t₁.place p) ≠ some .directory := by
    rw [hsame, ← ht₁, Tree.get?_set (Tree.ne_nil hdir), place_temporary h.fileName,
      if_neg (beside_ne h.fileName t).symm, h.place_eq_file]
    nofun
  have hleads := (Tree.read_eq_ok.mp h.read).1.keeps hkeeps
  have hrename := Tree.rename_ok (h.temporary.keeps hkeeps).resolve hfile hleads (by rw [h.fileName]; rfl) htarget
  exact ⟨_, congrArg (fun r => t₁.after (r.map ((), ·))) hrename⟩

/-- Nothing stands in the way of another save. -/
theorem save_eq_ok (h : Saved p name json t) (s : Settings) : (save (m := StateM Tree) p s t).1 = .ok () := by
  obtain ⟨t', hrename⟩ := h.exists_rename s.toJson.pretty.toUTF8
  simp only [save, bind, StateT.bind, h.makeParent_eq, h.write_eq, hrename]

/-- Saving the same document again changes nothing but what stands beside the file, and nothing at all if it
succeeds. It succeeds on a disk without faults. -/
theorem save_again {faults : List (Option FileError)} {r : Except FileError Unit}
    (h : Saved p name s.toJson.pretty.toUTF8 t) (hsave : save (m := StateM Disk) p s ⟨t, [], faults⟩ = (r, d)) :
    (∀ t' ∈ d.tree :: d.past, ∀ q, q ≠ Settings.beside (t.place p) name → t'.get? q = t.get? q) ∧
      (r = .ok () → ∀ q, d.tree.get? q = t.get? q) ∧ (faults = [] → r = .ok ()) := by
  have hstart : (⟨t, [], faults⟩ : Disk).Always (Midway p name s.toJson.pretty.toUTF8 t) :=
    List.forall_mem_singleton.mpr .start
  obtain ⟨hmidway, hsaved⟩ := passes_save h.fileName s t ⟨t, [], faults⟩ hstart trivial
  rw [hsave] at hmidway hsaved
  refine ⟨fun t' ht' q hq => h.get?_midway (hmidway t' ht') hq, fun hok q => ?_, fun hfaults => ?_⟩
  · by_cases hq : q = Settings.beside (t.place p) name
    · rw [hq, h.beside, (hsaved hok).1]
    · exact h.get?_midway (hmidway _ List.mem_cons_self) hq
  · subst hfaults
    obtain ⟨past, hagree⟩ := agrees_save p s t []
    rw [hsave] at hagree
    exact (congrArg Prod.fst hagree).trans (h.save_eq_ok s)

end Saved

end Settings

end Labyrinth
