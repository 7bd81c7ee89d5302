import Labyrinth.Proofs.Files.Places

/-!
# A disk that may fail

A `Disk` is a tree of files that changes in small steps: one directory is made, a file grows by one byte, a
file is moved. Any of the steps may fail, and the disk remembers all trees that it has passed through, so
what is true of them is true whenever the program is interrupted. A disk on which no step fails does what
the tree does (`Disk.Agrees`).
-/

namespace Labyrinth

structure Disk where
  tree : Tree
  /-- The trees before, from the latest on. -/
  past : List Tree
  /-- For each of the next steps, the error with which it fails, if any. -/
  faults : List (Option FileError)

namespace Disk

/-- Work on a disk that may fail. -/
abbrev Task := StateM Disk (Except FileError Unit)

/-- One step, which is taken in full or not at all. -/
def change (f : Tree → Except FileError Tree) : Task := fun d =>
  match d.faults.head?.join with
  | some e => (.error e, { d with faults := d.faults.tail })
  | none =>
    match f d.tree with
    | .ok t => (.ok (), ⟨t, d.tree :: d.past, d.faults.tail⟩)
    | .error e => (.error e, { d with faults := d.faults.tail })

/-- Goes on if nothing has failed. -/
def andThen {m : Type → Type} [Monad m] (r r' : m (Except FileError Unit)) : m (Except FileError Unit) := do
  match ← r with
  | .error e => return .error e
  | .ok () => r'

def changes : List (Tree → Except FileError Tree) → Task
  | [] => return .ok ()
  | f :: fs => andThen (change f) (changes fs)

/-- Makes a directory at a path unless one is there. -/
def ensureDir (p : Path) : Task := do
  match ← change (·.makeDir p) with
  | .ok () => return .ok ()
  | .error e => return if (← get).tree.leadsToDirectory p then .ok () else .error e

/-- Makes the directories of a path whose parts are given from the last to the first. -/
def ensureDirs (rooted : Bool) : List PathPart → Task
  | [] => return .ok ()
  | part :: before => do
    let p := Path.ofParts rooted (before.reverse ++ [part])
    match ← ensureDir p with
    | .error .notFound => andThen (ensureDirs rooted before) (ensureDir p)
    | done => return done

/-- What a file holds while a content is written to it. -/
def growing (content : ByteArray) : List ByteArray :=
  (List.range content.size).map fun n => content.extract 0 n

/-- Makes an empty file, or empties the one that is there, adds the content byte by byte, and waits until
the content is stored. -/
def write (p : Path) (content : ByteArray) : Task :=
  andThen (changes ((growing content).map fun c t => t.write p c)) <|
    andThen (change (·.write p content)) (change .ok)

instance : FileAccess (StateM Disk) where
  exists? p := return ((← get).tree.find p).isOk
  read p := return (← get).tree.read p
  createDirs p := ensureDirs p.isRooted p.parts.reverse
  write p text := write p text.toUTF8
  rename old new := change (·.rename old new)

/-! ### What holds all the time -/

/-- All trees of the disk, now and before, have a property. -/
def Always (d : Disk) (I : Tree → Prop) : Prop :=
  ∀ t ∈ d.tree :: d.past, I t

/-- On a tree with `P` behind trees with `I`, `r` passes through trees with `I` only, and if it succeeds,
the last of them has `Q`. -/
def Passes (I P : Tree → Prop) (r : Task) (Q : Tree → Prop) : Prop :=
  ∀ d : Disk, d.Always I → P d.tree → (r d).2.Always I ∧ ((r d).1 = .ok () → Q (r d).2.tree)

variable {I P Q R : Tree → Prop} {r r' : Task} {f : Tree → Except FileError Tree}

theorem andThen_ok {d d' : Disk} (h : r d = (.ok (), d')) :
    andThen r r' d = r' d' := by
  simp only [andThen, bind, StateT.bind, h]

theorem andThen_error {d d' : Disk} {e : FileError}
    (h : r d = (.error e, d')) : andThen r r' d = (.error e, d') := by
  simp only [andThen, bind, StateT.bind, h]
  rfl

/-! ### What has happened when nothing has failed -/

theorem andThen_eq_ok {d d' : Disk} :
    andThen r r' d = (.ok (), d') ↔ ∃ d₁, r d = (.ok (), d₁) ∧ r' d₁ = (.ok (), d') := by
  rcases hr : r d with ⟨e | ⟨⟩, d₁⟩
  · rw [andThen_error hr]
    exact ⟨nofun, nofun⟩
  · rw [andThen_ok hr]
    constructor
    · exact fun h => ⟨d₁, rfl, h⟩
    · rintro ⟨_, ⟨⟩, h⟩
      exact h

theorem change_eq_ok {d d' : Disk} (h : change f d = (.ok (), d')) : f d.tree = .ok d'.tree := by
  rw [change] at h
  split at h
  · cases h
  · split at h
    · next ht =>
      cases h
      exact ht
    · cases h

theorem write_eq_ok {d d' : Disk} {p : Path} {content : ByteArray} (h : write p content d = (.ok (), d')) :
    ∃ t : Tree, t.write p content = .ok d'.tree := by
  obtain ⟨d₁, -, h⟩ := andThen_eq_ok.mp h
  obtain ⟨d₂, hwrite, hsync⟩ := andThen_eq_ok.mp h
  have hsame : (.ok d₂.tree : Except FileError Tree) = .ok d'.tree := change_eq_ok hsync
  rw [← Except.ok.inj hsame]
  exact ⟨d₁.tree, change_eq_ok hwrite⟩

namespace Passes

theorem done (h : ∀ t, P t → Q t) : Passes I P (return .ok ()) Q :=
  fun d hd hP => ⟨hd, fun _ => h d.tree hP⟩

theorem imp {Q' : Tree → Prop} (h : Passes I P r Q) (hQ : ∀ t, Q t → Q' t) : Passes I P r Q' :=
  fun d hd hP => ⟨(h d hd hP).1, fun hok => hQ _ ((h d hd hP).2 hok)⟩

theorem change (h : ∀ t t', I t → P t → f t = .ok t' → I t' ∧ Q t') : Passes I P (change f) Q := by
  intro d hd hP
  rw [Disk.change]
  split
  · exact ⟨hd, nofun⟩
  · split
    · next t ht =>
      obtain ⟨hI, hQ⟩ := h d.tree t (hd _ List.mem_cons_self) hP ht
      exact ⟨List.forall_mem_cons.mpr ⟨hI, hd⟩, fun _ => hQ⟩
    · exact ⟨hd, nofun⟩

theorem andThen (h : Passes I P r Q) (h' : Passes I Q r' R) : Passes I P (andThen r r') R := by
  intro d hd hP
  obtain ⟨hI, hQ⟩ := h d hd hP
  rcases hr : r d with ⟨_ | _, d'⟩
  · rw [hr] at hI
    rw [andThen_error hr]
    exact ⟨hI, nofun⟩
  · rw [hr] at hI hQ
    rw [andThen_ok hr]
    exact h' d' hI (hQ rfl)

/-- All changes keep `I`. -/
theorem changes {fs : List (Tree → Except FileError Tree)}
    (h : ∀ f ∈ fs, ∀ t t', I t → P t → f t = .ok t' → I t' ∧ P t') : Passes I P (changes fs) P := by
  induction fs with
  | nil => exact done fun _ => id
  | cons f fs ih =>
    obtain ⟨hf, hfs⟩ := List.forall_mem_cons.mp h
    exact (change hf).andThen (ih hfs)

theorem ensureDir {p : Path} (h : ∀ t t', I t → t.makeDir p = .ok t' → I t') :
    Passes I (fun _ => True) (ensureDir p) fun _ => True := by
  intro d hd _
  have hchange : Passes I (fun _ => True) (Disk.change (·.makeDir p)) fun _ => True :=
    change fun t t' hI _ ht => ⟨h t t' hI ht, trivial⟩
  have hmade := (hchange d hd trivial).1
  refine ⟨?_, fun _ => trivial⟩
  simp only [Disk.ensureDir, bind, StateT.bind]
  rcases hr : Disk.change (·.makeDir p) d with ⟨_ | _, d'⟩
  · rw [hr] at hmade
    exact hmade
  · rw [hr] at hmade
    exact hmade

theorem ensureDirs {rooted : Bool} {parts : List PathPart}
    (h : ∀ ps, ps <+: parts.reverse → ∀ t t', I t → t.makeDir (.ofParts rooted ps) = .ok t' → I t') :
    Passes I (fun _ => True) (ensureDirs rooted parts) fun _ => True := by
  induction parts with
  | nil => exact done fun _ => id
  | cons part before ih =>
    rw [List.reverse_cons] at h
    have hlast := ensureDir (h (before.reverse ++ [part]) List.prefix_rfl)
    have hbefore := ih fun ps hps => h ps (hps.trans (List.prefix_append _ _))
    intro d hd _
    have hfirst := (hlast d hd trivial).1
    refine ⟨?_, fun _ => trivial⟩
    simp only [Disk.ensureDirs, bind, StateT.bind]
    rcases hr : Disk.ensureDir (.ofParts rooted (before.reverse ++ [part])) d with ⟨result, d'⟩
    rw [hr] at hfirst
    simp only
    split
    · exact (hbefore.andThen hlast d' hfirst trivial).1
    · exact hfirst

theorem write {p : Path} {content : ByteArray} (h : ∀ c t t', I t → t.write p c = .ok t' → I t') :
    Passes I (fun _ => True) (write p content) fun t => ∃ t₀, I t₀ ∧ t₀.write p content = .ok t := by
  have hgrowing : Passes I (fun _ => True) (Disk.changes ((growing content).map fun c t => t.write p c))
      fun _ => True := by
    refine changes fun f hf t t' hI _ ht => ?_
    obtain ⟨c, -, rfl⟩ := List.mem_map.mp hf
    exact ⟨h _ t t' hI ht, trivial⟩
  have hwhole : Passes I (fun _ => True) (Disk.change (·.write p content)) fun t =>
      ∃ t₀, I t₀ ∧ t₀.write p content = .ok t :=
    change fun t t' hI _ ht => ⟨h content t t' hI ht, t, hI, ht⟩
  refine hgrowing.andThen (hwhole.andThen (change fun t t' hI hwritten ht => ?_))
  cases ht
  exact ⟨hI, hwritten⟩

end Passes

/-! ### Without faults -/

theorem change_ok {t t' : Tree} {past : List Tree} (h : f t = .ok t') :
    change f ⟨t, past, []⟩ = (.ok (), ⟨t', t :: past, []⟩) := by
  simp only [change, h]
  rfl

theorem change_error {t : Tree} {past : List Tree} {e : FileError} (h : f t = .error e) :
    change f ⟨t, past, []⟩ = (.error e, ⟨t, past, []⟩) := by
  simp only [change, h]
  rfl

/-- On a disk without faults `r` does what `r'` does on a tree. -/
def Agrees {α : Type} (r : StateM Disk α) (r' : StateM Tree α) : Prop :=
  ∀ t past, ∃ past', r ⟨t, past, []⟩ = ((r' t).1, ⟨(r' t).2, past', []⟩)

namespace Agrees

variable {α β : Type}

theorem pure (a : α) : Agrees (pure a) (pure a) := fun _ past => ⟨past, rfl⟩

theorem bind {r : StateM Disk α} {r' : StateM Tree α} {f : α → StateM Disk β} {f' : α → StateM Tree β}
    (h : Agrees r r') (hf : ∀ a, Agrees (f a) (f' a)) : Agrees (r >>= f) (r' >>= f') := by
  intro t past
  obtain ⟨past₁, h⟩ := h t past
  obtain ⟨past₂, hf⟩ := hf (r' t).1 (r' t).2 past₁
  refine ⟨past₂, ?_⟩
  simp only [Bind.bind, StateT.bind, h]
  exact hf

theorem change (f : Tree → Except FileError Tree) :
    Agrees (change f) fun t => t.after ((f t).map ((), ·)) := by
  intro t past
  simp only
  rcases hf : f t with e | t'
  · exact ⟨past, change_error hf⟩
  · exact ⟨t :: past, change_ok hf⟩

theorem andThen {s s' : StateM Tree (Except FileError Unit)} (h : Agrees r s) (h' : Agrees r' s') :
    Agrees (andThen r r') (Disk.andThen s s') := by
  refine h.bind fun a => ?_
  rcases a with e | ⟨⟩
  · exact pure _
  · exact h'

theorem ensureDir (p : Path) : Agrees (ensureDir p) fun t => t.ensureDir p := by
  intro t past
  obtain ⟨past', hchange⟩ := change (·.makeDir p) t past
  refine ⟨past', ?_⟩
  simp only [Disk.ensureDir, Tree.ensureDir, Bind.bind, StateT.bind, hchange]
  rcases t.makeDir p with e | t'
  · rfl
  · rfl

/-- A directory that cannot be made leaves the tree as it is. -/
theorem tree_of_ensureDir {t t' : Tree} {p : Path} {e : FileError} (h : t.ensureDir p = (.error e, t')) :
    t' = t := by
  rw [Tree.ensureDir] at h
  split at h
  · cases h
  · exact (congrArg Prod.snd h).symm

theorem ensureDirs (rooted : Bool) (parts : List PathPart) :
    Agrees (ensureDirs rooted parts) fun t => t.ensureDirs rooted parts := by
  induction parts with
  | nil => exact pure _
  | cons part before ih =>
    intro t past
    obtain ⟨past₁, hfirst⟩ := ensureDir (.ofParts rooted (before.reverse ++ [part])) t past
    simp only [Disk.ensureDirs, Tree.ensureDirs, Bind.bind, StateT.bind, hfirst]
    split
    · next t' hmissing =>
      obtain rfl := tree_of_ensureDir hmissing
      obtain ⟨past₂, hbefore⟩ := ih t' past₁
      rw [hmissing]
      rcases htree : t'.ensureDirs rooted before with ⟨_ | _, t₂⟩
      · simp only [htree] at hbefore
        exact ⟨past₂, andThen_error hbefore⟩
      · simp only [htree] at hbefore
        obtain ⟨past₃, hlast⟩ := ensureDir (.ofParts rooted (before.reverse ++ [part])) t₂ past₂
        exact ⟨past₃, (andThen_ok hbefore).trans hlast⟩
    · next hdone =>
      refine ⟨past₁, ?_⟩
      rcases htree : t.ensureDir (.ofParts rooted (before.reverse ++ [part])) with ⟨e | ⟨⟩, t'⟩
      · cases e with
        | notFound => exact absurd htree (hdone t')
        | _ => rfl
      · rfl

theorem createDirs (p : Path) : Agrees (FileAccess.createDirs p) (FileAccess.createDirs p) :=
  ensureDirs p.isRooted p.parts.reverse

theorem rename (old new : Path) : Agrees (FileAccess.rename old new) (FileAccess.rename old new) :=
  change (·.rename old new)

/-- While a file grows, the next content can be written as well as the first. -/
theorem changes_write {t t₁ : Tree} {p : Path} (hwrite : ∀ c, ∃ t', t.write p c = .ok t')
    (hsame : ∀ c, t₁.write p c = t.write p c) (cs : List ByteArray) (past : List Tree) :
    ∃ t₂ past₂, changes (cs.map fun c t => t.write p c) ⟨t₁, past, []⟩ = (.ok (), ⟨t₂, past₂, []⟩) ∧
      ∀ c, t₂.write p c = t.write p c := by
  induction cs generalizing t₁ past with
  | nil => exact ⟨t₁, past, rfl, hsame⟩
  | cons c cs ih =>
    obtain ⟨t₂, ht₂⟩ := hwrite c
    have hfirst : t₁.write p c = .ok t₂ := (hsame c).trans ht₂
    obtain ⟨t₃, past₃, hrest, hsame₃⟩ := ih (fun _ => Tree.write_write ht₂) (t₁ :: past)
    exact ⟨t₃, past₃, (andThen_ok (change_ok hfirst)).trans hrest, hsame₃⟩

/-- If a content cannot be written, a growing file fails at its first step. -/
theorem changes_write_error {t : Tree} {p : Path} {e : FileError} {past : List Tree}
    (h : ∀ c, t.write p c = .error e) (cs : List ByteArray)
    (hr : r ⟨t, past, []⟩ = (.error e, ⟨t, past, []⟩)) :
    Disk.andThen (changes (cs.map fun c t => t.write p c)) r ⟨t, past, []⟩ = (.error e, ⟨t, past, []⟩) := by
  cases cs with
  | nil => exact (andThen_ok rfl).trans hr
  | cons c cs => exact andThen_error (andThen_error (change_error (h c)))

theorem write (p : Path) (text : String) : Agrees (FileAccess.write p text) (FileAccess.write p text) := by
  intro t past
  show ∃ past', Disk.write p text.toUTF8 ⟨t, past, []⟩ =
    ((t.after ((t.write p text.toUTF8).map ((), ·))).1,
      ⟨(t.after ((t.write p text.toUTF8).map ((), ·))).2, past', []⟩)
  rw [Disk.write]
  rcases hwhole : t.write p text.toUTF8 with e | t'
  · refine ⟨past, ?_⟩
    rw [changes_write_error (fun c => Tree.write_error hwhole) _ (andThen_error (change_error hwhole))]
    rfl
  · obtain ⟨hleads, hdir, -⟩ := Tree.write_eq_ok.mp hwhole
    have hwrite (c : ByteArray) : ∃ t', t.write p c = .ok t' := ⟨_, Tree.write_eq_ok.mpr ⟨hleads, hdir, rfl⟩⟩
    obtain ⟨t₂, past₂, hgrown, hsame⟩ := changes_write hwrite (fun _ => rfl) (growing text.toUTF8) past
    have hlast : t₂.write p text.toUTF8 = .ok t' := (hsame _).trans hwhole
    refine ⟨t' :: t₂ :: past₂, ?_⟩
    rw [andThen_ok hgrown, andThen_ok (change_ok hlast), change_ok rfl]
    rfl

end Agrees

end Disk

end Labyrinth
