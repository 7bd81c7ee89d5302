import Labyrinth.Settings.File
import Labyrinth.Proofs.Files.Disk
import Labyrinth.Proofs.Settings.Document

/-!
# Saving settings

While settings are saved, and when that fails, the file holds its old content or the whole new document,
and a save that succeeds is read back (`Settings.save_atomic`). `Settings.Midway` says what may differ from
the tree before the save, and each change keeps it.
-/

namespace Labyrinth

namespace Tree

/-- A directory on the way to the last part of a path. -/
def Above (t : Tree) (p : Path) (q : Place) : Prop :=
  ∃ ps, ps <+: p.parts.dropLast ∧ q = along (if p.isRooted then [] else t.current) ps

end Tree

namespace Settings

/-- The place beside a place, at which the settings for it are written first. -/
def beside (q : Place) (name : String) : Place :=
  q.dropLast ++ [name ++ ".tmp"]

variable {p : Path} {name : String} {s : Settings} {t t' t'' : Tree} {json content : ByteArray} {q : Place}

/-! ### Places -/

theorem place_eq (hname : p.fileName? = some name) (t : Tree) :
    t.place p = Tree.along (if p.isRooted then [] else t.current) p.parts.dropLast ++ [name] := by
  rw [Tree.place]
  conv => lhs; rw [Path.parts_eq_concat hname]
  rw [Tree.along, List.foldl_append]
  rfl

theorem plain_temporary (hname : p.fileName? = some name) : (PathPart.name (name ++ ".tmp")).Plain :=
  Path.plain_append hname (by decide) (by decide)

theorem temporary_eq (hname : p.fileName? = some name) : temporary p = p.withFileName (name ++ ".tmp") := by
  rw [temporary, hname]
  rfl

theorem place_temporary (hname : p.fileName? = some name) (t : Tree) :
    t.place (temporary p) = beside (t.place p) name := by
  rw [temporary_eq hname, Tree.place, Path.parts_withFileName hname (plain_temporary hname),
    Path.isRooted_withFileName hname (plain_temporary hname), beside, place_eq hname, List.dropLast_concat,
    Tree.along, List.foldl_append]
  rfl

theorem beside_ne (hname : p.fileName? = some name) (t : Tree) : beside (t.place p) name ≠ t.place p := by
  intro heq
  rw [beside, place_eq hname, List.dropLast_concat] at heq
  have hnames := List.append_inj_right' heq rfl
  have hlength := congrArg (·.map String.length) hnames
  simp at hlength

/-! ### Trees during a save -/

/-- How `t'` may differ from the tree `t` at which the saving of a document to `p` began. -/
structure Midway (p : Path) (name : String) (json : ByteArray) (t t' : Tree) : Prop where
  keeps : t.Keeps t'
  entry {q : Place} : q ≠ beside (t.place p) name →
    t'.get? q = t.get? q ∨ (t.get? q = none ∧ t'.get? q = some .directory ∧ t.Above p q) ∨
      (q = t.place p ∧ t'.get? q = some (.file json))

namespace Midway

theorem start : Midway p name json t t where
  keeps := .refl t
  entry _ := .inl rfl

theorem makeDir (h : Midway p name json t t') {ps : List PathPart} (hps : ps <+: p.parts.dropLast)
    (hmake : t'.makeDir (.ofParts p.isRooted ps) = .ok t'') : Midway p name json t t'' := by
  obtain ⟨hnone, rfl⟩ := Tree.makeDir_eq_ok hmake
  have hplain : ∀ part ∈ ps, part.Plain := fun part hpart => Path.plain_of_mem_dropLast (hps.subset hpart)
  have hplace : t'.place (.ofParts p.isRooted ps) = Tree.along (if p.isRooted then [] else t.current) ps := by
    rw [Tree.place, Path.isRooted_ofParts hplain, Path.parts_ofParts hplain, h.keeps.current]
  have hdir : t'.get? (t'.place (.ofParts p.isRooted ps)) ≠ some .directory := by simp [hnone]
  refine ⟨h.keeps.trans (.set hdir), fun {q} hq => ?_⟩
  rw [Tree.get?_set (Tree.ne_nil hdir)]
  split
  · next heq =>
    subst heq
    refine .inr (.inl ⟨?_, rfl, ps, hps, hplace⟩)
    rcases h.entry hq with hold | ⟨hold, -⟩ | ⟨-, hnew⟩
    · rw [← hold, hnone]
    · exact hold
    · rw [hnew] at hnone
      cases hnone
  · exact h.entry hq

theorem write (hname : p.fileName? = some name) (h : Midway p name json t t')
    (hwrite : t'.write (temporary p) content = .ok t'') : Midway p name json t t'' := by
  obtain ⟨-, hdir, rfl⟩ := Tree.write_eq_ok.mp hwrite
  refine ⟨h.keeps.trans (.set hdir), fun {q} hq => ?_⟩
  rw [Tree.get?_set (Tree.ne_nil hdir), if_neg]
  · exact h.entry hq
  · rwa [place_temporary hname, Tree.place_congr h.keeps.current]

/-- The document is moved over the file. -/
theorem rename (hname : p.fileName? = some name) (h : Midway p name json t t')
    (hfile : t'.get? (beside (t.place p) name) = some (.file json))
    (hrename : t'.rename (temporary p) p = .ok t'') :
    Midway p name json t t'' ∧ t''.get? (beside (t.place p) name) = none ∧ t''.read p = .ok json := by
  obtain ⟨content, hcontent, hleads, -, hdir, rfl⟩ := Tree.rename_eq_ok hrename
  have hplace : t'.place p = t.place p := Tree.place_congr h.keeps.current p
  have hbeside : t'.place (temporary p) = beside (t.place p) name := by
    rw [Tree.place_congr h.keeps.current, place_temporary hname]
  rw [hbeside] at hcontent ⊢
  rw [hplace] at hdir ⊢
  rw [hfile] at hcontent
  cases hcontent
  have hsource : t'.get? (beside (t.place p) name) ≠ some .directory := by simp [hfile]
  have hget (q : Place) : ((t'.erase (beside (t.place p) name)).set (t.place p) (.file json)).get? q =
      if q = t.place p then some (.file json)
      else if q = beside (t.place p) name then none else t'.get? q := by
    rw [Tree.get?_set (Tree.ne_nil hdir), Tree.get?_erase (Tree.ne_nil hsource)]
  have hkeeps : t'.Keeps ((t'.erase (beside (t.place p) name)).set (t.place p) (.file json)) := by
    refine .trans (.erase hsource) (.set ?_)
    rwa [Tree.get?_erase (Tree.ne_nil hsource), if_neg (beside_ne hname t).symm]
  refine ⟨⟨h.keeps.trans hkeeps, fun {q} hq => ?_⟩, ?_, ?_⟩
  · rw [hget, if_neg hq]
    split
    · next heq => exact .inr (.inr ⟨heq, rfl⟩)
    · exact h.entry hq
  · rw [hget, if_neg (beside_ne hname t), if_pos rfl]
  · refine Tree.read_eq_ok.mpr ⟨hleads.keeps hkeeps, ?_⟩
    rw [Tree.place_congr hkeeps.current, hplace, hget, if_pos rfl]

/-- The content of the file is the old one or the document. -/
theorem file? (hname : p.fileName? = some name) (h : Midway p name json t t') :
    t'.file? (t.place p) = t.file? (t.place p) ∨ t'.file? (t.place p) = some json := by
  rcases h.entry (beside_ne hname t).symm with hsame | ⟨hold, hnew, -⟩ | ⟨-, hnew⟩
  · exact .inl (Tree.file?_congr hsame)
  · rw [Tree.file?, Tree.file?, hold, hnew]
    exact .inl rfl
  · exact .inr (Tree.file?_eq_some.mpr hnew)

/-- Whoever could read the file still can. -/
theorem read (hname : p.fileName? = some name) (h : Midway p name json t t')
    (hread : t.read p = .ok content) : t'.read p = .ok content ∨ t'.read p = .ok json := by
  obtain ⟨hleads, hold⟩ := Tree.read_eq_ok.mp hread
  have hplace : t'.place p = t.place p := Tree.place_congr h.keeps.current p
  have hfile {content' : ByteArray} (hnew : t'.file? (t.place p) = some content') :
      t'.read p = .ok content' := by
    refine Tree.read_eq_ok.mpr ⟨hleads.keeps h.keeps, ?_⟩
    rw [hplace]
    exact Tree.file?_eq_some.mp hnew
  rcases h.file? hname with hsame | hnew
  · exact .inl (hfile (hsame.trans (Tree.file?_eq_some.mpr hold)))
  · exact .inr (hfile hnew)

end Midway

/-! ### Saving and loading -/

theorem passes_makeParent (hname : p.fileName? = some name) :
    Disk.Passes (Midway p name json t) (fun _ => True) (makeParent p) fun _ => True := by
  rw [makeParent, Path.parent?_eq_some hname]
  show Disk.Passes _ _ (Disk.ensureDirs _ _) _
  rw [Path.isRooted_parent, Path.parts_parent]
  refine .ensureDirs fun ps hps t' t'' h hmake => h.makeDir ?_ hmake
  rwa [List.reverse_reverse] at hps

theorem passes_save (hname : p.fileName? = some name) (s : Settings) (t : Tree) :
    Disk.Passes (Midway p name s.toJson.pretty.toUTF8 t) (fun _ => True) (save p s) fun t' =>
      t'.get? (beside (t.place p) name) = none ∧ t'.read p = .ok s.toJson.pretty.toUTF8 := by
  have hwrite : Disk.Passes (Midway p name s.toJson.pretty.toUTF8 t) (fun _ => True)
      (FileAccess.write (temporary p) s.toJson.pretty) fun t' =>
      t'.get? (beside (t.place p) name) = some (.file s.toJson.pretty.toUTF8) := by
    refine (Disk.Passes.write fun c t' t'' h hwrite => h.write hname hwrite).imp ?_
    rintro t'' ⟨t', h, hwrite⟩
    obtain ⟨-, hdir, rfl⟩ := Tree.write_eq_ok.mp hwrite
    rw [Tree.get?_set (Tree.ne_nil hdir), Tree.place_congr h.keeps.current, place_temporary hname, if_pos rfl]
  exact (passes_makeParent hname).andThen <| hwrite.andThen <|
    .change fun t' t'' h hfile hrename => h.rename hname hfile hrename

theorem fromUTF8?_toUTF8 (text : String) : String.fromUTF8? text.toUTF8 = some text :=
  dif_pos text.isValidUTF8

theorem ofFileText_pretty (s : Settings) : ofFileText s.toJson.pretty = s.validate.map fun _ => s := by
  rw [ofFileText, ofText_pretty]
  show (s.validate >>= fun _ => pure s) = _
  cases s.validate <;> rfl

theorem load_of_read {d : Disk} (hread : d.tree.read p = .ok s.toJson.pretty.toUTF8) :
    load (m := StateM Disk) p d = (s.validate.map fun _ => s, d) := by
  obtain ⟨hleads, hfile⟩ := Tree.read_eq_ok.mp hread
  have hfind := Tree.find_file_iff.mpr ⟨hleads, rfl, hfile⟩
  have hexists : FileAccess.exists? (m := StateM Disk) p d = (true, d) := by
    show ((d.tree.find p).isOk, d) = _
    rw [hfind]
    rfl
  have htext : FileAccess.readText (m := StateM Disk) p d = (.ok s.toJson.pretty, d) := by
    show ((d.tree.read p).bind _, d) = _
    rw [hread]
    simp only [Except.bind, fromUTF8?_toUTF8]
  simp only [load, bind, StateT.bind, hexists, htext, if_true]
  rw [ofFileText_pretty]
  rfl

/-- On a disk without faults settings are saved as in a tree. -/
theorem agrees_save (p : Path) (s : Settings) :
    Disk.Agrees (save p s) (save p s) := by
  have hparent : Disk.Agrees (makeParent p) (makeParent p) := by
    rw [makeParent, makeParent]
    split
    · exact .createDirs _
    · exact .pure _
  exact hparent.andThen (.andThen (.write _ _) (.rename _ _))

variable {faults : List (Option FileError)} {r : Except FileError Unit} {d : Disk}

/-- Settings that are saved without failure are read back, if they are sensible, and are found not to be
otherwise, and nothing is left beside the file. Meanwhile, and after a failure, the file holds what it held
before or the whole document, and nothing else is changed but what stands beside it and the directories
above it that were missing. Without faults of the disk the same is done to a tree. -/
theorem save_atomic (hname : p.fileName? = some name)
    (hsave : save (m := StateM Disk) p s ⟨t, [], faults⟩ = (r, d)) :
    (r = .ok () →
      load (m := StateM Disk) p d = (s.validate.map fun _ => s, d) ∧
        d.tree.read p = .ok s.toJson.pretty.toUTF8 ∧ d.tree.get? (beside (t.place p) name) = none) ∧
    (∀ t' ∈ d.tree :: d.past,
      (t'.file? (t.place p) = t.file? (t.place p) ∨
        t'.file? (t.place p) = some s.toJson.pretty.toUTF8) ∧
      (∀ content, t.read p = .ok content →
        t'.read p = .ok content ∨ t'.read p = .ok s.toJson.pretty.toUTF8) ∧
      ∀ q, q ≠ t.place p → q ≠ beside (t.place p) name →
        t'.get? q = t.get? q ∨ t.get? q = none ∧ t'.get? q = some .directory ∧ t.Above p q) ∧
    (faults = [] → save (m := StateM Tree) p s t = (r, d.tree)) := by
  have hstart : (⟨t, [], faults⟩ : Disk).Always (Midway p name s.toJson.pretty.toUTF8 t) :=
    List.forall_mem_singleton.mpr .start
  obtain ⟨hmidway, hsaved⟩ := passes_save hname s t ⟨t, [], faults⟩ hstart trivial
  rw [hsave] at hmidway hsaved
  refine ⟨fun hok => ?_, fun t' ht' => ?_, fun hfaults => ?_⟩
  · obtain ⟨hbeside, hread⟩ := hsaved hok
    exact ⟨load_of_read hread, hread, hbeside⟩
  · have h := hmidway t' ht'
    refine ⟨h.file? hname, fun content hread => h.read hname hread, fun q hplace hbeside => ?_⟩
    rcases h.entry hbeside with hsame | hnew | ⟨heq, -⟩
    · exact .inl hsame
    · exact .inr hnew
    · exact absurd heq hplace
  · subst hfaults
    obtain ⟨past, hagree⟩ := agrees_save p s t []
    rw [hsave] at hagree
    cases hagree
    rfl

theorem save_atomic_in_new_directory :
    ∃ d : Disk, save (m := StateM Disk) ⟨"a/s.json"⟩ {} ⟨⟨[], []⟩, [], []⟩ = (.ok (), d) ∧
      load (m := StateM Disk) ⟨"a/s.json"⟩ d = (.ok {}, d) ∧
      d.tree.get? ["a", "s.json.tmp"] = none := by
  have hname : (⟨"a/s.json"⟩ : Path).fileName? = some "s.json" := by decide +kernel
  have hbeside : beside ((⟨[], []⟩ : Tree).place ⟨"a/s.json"⟩) "s.json" = ["a", "s.json.tmp"] := by
    decide +kernel
  obtain ⟨past, hsave⟩ := agrees_save ⟨"a/s.json"⟩ {} ⟨[], []⟩ []
  have hok : (save (m := StateM Tree) ⟨"a/s.json"⟩ {} ⟨[], []⟩).1 = .ok () := by decide +kernel
  obtain ⟨hload, -, hnone⟩ := (save_atomic hname hsave).1 hok
  rw [hbeside] at hnone
  exact ⟨_, hsave.trans (Prod.ext hok rfl), hload, hnone⟩

end Settings

end Labyrinth
