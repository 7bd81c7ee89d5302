import Mathlib.Data.Prod.Basic
import Labyrinth.CommandLine.Execute
import Labyrinth.Proofs.Settings.Fields
import Labyrinth.Proofs.Settings.Resaving

/-!
# The settings of a command

The settings for a command are the fields of the file, with the number of steps that the command is given, and
are sensible. Settings that are shown and saved are shown again, and saving them again changes nothing
(`CommandLine.config_shows_saved`).
-/

namespace Labyrinth

namespace Settings

variable {p : Path} {s : Settings} {d d' : Disk} {text : String}

/-- The fields of settings in the file at a path. Where there is no file, there are none. -/
inductive Stored (t : Tree) (p : Path) : Draft → Prop
  | missing : (t.find p).isOk = false → Stored t p {}
  | file {text : String} {f : Draft} : t.read p = .ok text.toUTF8 → fieldsOfText text = .ok f → Stored t p f

theorem Stored.fits {t : Tree} {f : Draft} (h : Stored t p f) : f.Fits := by
  cases h with
  | missing _ => exact Draft.fits_empty
  | file _ htext => exact Draft.fits_of_fieldsOfText htext

theorem toUTF8_eq {bytes : ByteArray} (h : String.fromUTF8? bytes = some text) : text.toUTF8 = bytes := by
  unfold String.fromUTF8? at h
  split at h
  · cases h
    rfl
  · cases h

theorem read_of_readText (h : FileAccess.readText (m := StateM Disk) p d = (.ok text, d')) :
    d' = d ∧ d.tree.read p = .ok text.toUTF8 := by
  obtain ⟨hread, rfl⟩ := Prod.ext_iff.mp h
  obtain ⟨bytes, hbytes, htext⟩ := Except.bind_eq_ok.mp hread
  refine ⟨rfl, ?_⟩
  split at htext
  · next htext' =>
    cases htext
    rw [toUTF8_eq htext']
    exact hbytes
  · cases htext

theorem ofFileText_eq_ok (h : ofFileText text = .ok s) :
    s.validate = .ok () ∧ ∃ f, fieldsOfText text = .ok f ∧ f.complete = s := by
  obtain ⟨s', hread, h⟩ := Except.bind_eq_ok.mp h
  obtain ⟨⟨⟩, hvalid, h⟩ := Except.bind_eq_ok.mp h
  cases h
  refine ⟨hvalid, ?_⟩
  rw [Except.mapError_eq_ok, ofText_eq] at hread
  exact Except.map_eq_ok.mp hread

theorem load_of_missing (h : (d.tree.find p).isOk = false) : load (m := StateM Disk) p d = (.ok {}, d) := by
  have hfind : FileAccess.exists? (m := StateM Disk) p d = (false, d) := congrArg (·, d) h
  simp only [load, bind, StateT.bind, hfind]
  rfl

/-- What is loaded is sensible and made of the fields in the file. -/
theorem load_eq_ok (h : load (m := StateM Disk) p d = (.ok s, d')) :
    d' = d ∧ s.validate = .ok () ∧ ∃ f, Stored d.tree p f ∧ f.complete = s := by
  cases hexists : (d.tree.find p).isOk with
  | false =>
    cases (load_of_missing hexists).symm.trans h
    exact ⟨rfl, rfl, {}, .missing hexists, rfl⟩
  | true =>
    have hfind : FileAccess.exists? (m := StateM Disk) p d = (true, d) := congrArg (·, d) hexists
    obtain ⟨r, d₁, htext⟩ : ∃ r d₁, FileAccess.readText (m := StateM Disk) p d = (r, d₁) := ⟨_, _, rfl⟩
    simp only [load, bind, StateT.bind, hfind, htext, if_true] at h
    cases r with
    | error e => cases h
    | ok text =>
      obtain ⟨rfl, hread⟩ := read_of_readText htext
      obtain ⟨hok, rfl⟩ := Prod.ext_iff.mp h
      obtain ⟨hvalid, f, hfields, hcomplete⟩ := ofFileText_eq_ok hok
      exact ⟨rfl, hvalid, f, .file hread hfields, hcomplete⟩

end Settings

namespace CommandLine

variable {options options' : Options} {directory directory' : Option Path} {s s' : Settings} {d d' : Disk}
  {o : Output} {α β : Type}

theorem withMaxSteps_eq_ok {n : Option UInt64} (hs : s.validate = .ok ()) (h : withMaxSteps n s = .ok s') :
    s'.validate = .ok () ∧ s' = { s with maxSteps := n.getD s.maxSteps } := by
  cases n with
  | none =>
    cases h
    exact ⟨hs, rfl⟩
  | some n =>
    obtain ⟨⟨⟩, hvalid, h⟩ := Except.bind_eq_ok.mp h
    cases h
    exact ⟨hvalid, rfl⟩

theorem effectiveSettings_eq_ok (h : effectiveSettings (m := StateM Disk) options directory d = (.ok s, d')) :
    d' = d ∧ s.validate = .ok () ∧ ∃ f, Settings.Stored d.tree (settingsPath options directory) f ∧
      s = { f.complete with maxSteps := options.maxSteps.getD f.complete.maxSteps } := by
  obtain ⟨r, d₁, hload⟩ : ∃ r d₁, Settings.load (m := StateM Disk) (settingsPath options directory) d = (r, d₁) :=
    ⟨_, _, rfl⟩
  simp only [effectiveSettings, bind, StateT.bind, hload] at h
  obtain ⟨hok, rfl⟩ := Prod.ext_iff.mp h
  obtain ⟨s₁, rfl, hsteps⟩ := Except.bind_eq_ok.mp hok
  obtain ⟨rfl, hvalid, f, hstored, rfl⟩ := Settings.load_eq_ok hload
  obtain ⟨hvalid, rfl⟩ := withMaxSteps_eq_ok hvalid hsteps
  exact ⟨rfl, hvalid, f, hstored, rfl⟩

/-- Without another number of steps, the settings that a file was given are the ones for a command. -/
theorem effectiveSettings_of_read (hread : d.tree.read (settingsPath options directory) = .ok s.toJson.pretty.toUTF8)
    (hvalid : s.validate = .ok ()) (hsteps : options.maxSteps = none) :
    effectiveSettings (m := StateM Disk) options directory d = (.ok s, d) := by
  have hload := Settings.load_of_read hread
  rw [hvalid] at hload
  simp only [effectiveSettings, bind, StateT.bind, hload, hsteps]
  rfl

/-! ### Showing and saving -/

theorem run_bind_ok {x : ExceptT Failure (StateM Disk) α} {k : α → ExceptT Failure (StateM Disk) β} {a : α}
    (h : x.run d = (.ok a, d')) : (x >>= k).run d = (k a).run d' := by
  show (x.run >>= ExceptT.bindCont k) d = _
  simp only [bind, StateT.bind, h]
  rfl

theorem run_bind_error {x : ExceptT Failure (StateM Disk) α} {k : α → ExceptT Failure (StateM Disk) β} {e : Failure}
    (h : x.run d = (.error e, d')) : (x >>= k).run d = (.error e, d') := by
  show (x.run >>= ExceptT.bindCont k) d = _
  simp only [bind, StateT.bind, h]
  rfl

theorem run_bind_eq_ok {x : ExceptT Failure (StateM Disk) α} {k : α → ExceptT Failure (StateM Disk) β} {b : β} :
    (x >>= k).run d = (.ok b, d') ↔ ∃ a d₁, x.run d = (.ok a, d₁) ∧ (k a).run d₁ = (.ok b, d') := by
  obtain ⟨r, d₁, hx⟩ : ∃ r d₁, x.run d = (r, d₁) := ⟨_, _, rfl⟩
  cases r with
  | error e =>
    rw [run_bind_error hx, hx]
    constructor
    · rintro ⟨⟩
    · rintro ⟨a, d₂, ⟨⟩, -⟩
  | ok a =>
    rw [run_bind_ok hx, hx]
    constructor
    · exact fun h => ⟨a, d₁, rfl, h⟩
    · rintro ⟨a, d₂, ⟨⟩, h⟩
      exact h

theorem loadSettings_eq_ok :
    (loadSettings (m := StateM Disk) options directory).run d = (.ok s, d') ↔
      effectiveSettings (m := StateM Disk) options directory d = (.ok s, d') := by
  obtain ⟨r, d₁, hr⟩ : ∃ r d₁, effectiveSettings (m := StateM Disk) options directory d = (r, d₁) := ⟨_, _, rfl⟩
  have hload : (loadSettings (m := StateM Disk) options directory).run d = (r.mapError .settings, d₁) := by
    show (effectiveSettings (m := StateM Disk) options directory >>= _) d = _
    simp only [bind, StateT.bind, hr]
    rfl
  rw [hload, hr, Prod.mk.injEq, Prod.mk.injEq, Except.mapError_eq_ok]

theorem saveSettings_eq {p : Path} {r : Except FileError Unit}
    (h : Settings.save (m := StateM Disk) p s d = (r, d')) :
    (saveSettings (m := StateM Disk) p s).run d = (r.mapError fun e => .settings (.document (.file e)), d') := by
  show (Settings.save (m := StateM Disk) p s >>= _) d = _
  simp only [bind, StateT.bind, h]
  rfl

/-- What is shown when settings are saved. -/
def savedOutput (p : Path) (s : Settings) : Output :=
  ⟨s.toJson.pretty ++ "\nsaved to " ++ p.text, s.toJson⟩

theorem config_true : config (m := StateM Disk) options directory true =
    loadSettings options directory >>= fun s => saveSettings (settingsPath options directory) s >>= fun _ =>
      pure (savedOutput (settingsPath options directory) s) := rfl

/-- What a saving command shows has been saved. -/
theorem config_eq_ok (h : (config (m := StateM Disk) options directory true).run d = (.ok o, d')) :
    ∃ s, effectiveSettings (m := StateM Disk) options directory d = (.ok s, d) ∧ s.validate = .ok () ∧
      o = savedOutput (settingsPath options directory) s ∧
      Settings.save (m := StateM Disk) (settingsPath options directory) s d = (.ok (), d') := by
  rw [config_true] at h
  obtain ⟨s, d₁, hload, hrest⟩ := run_bind_eq_ok.mp h
  have hsettings := loadSettings_eq_ok.mp hload
  obtain ⟨hd, hvalid, -⟩ := effectiveSettings_eq_ok hsettings
  rw [hd] at hsettings hrest
  obtain ⟨⟨⟩, d₂, hrun, hshown⟩ := run_bind_eq_ok.mp hrest
  obtain ⟨ho, hd'⟩ := Prod.mk.inj (hshown : (Except.ok (savedOutput _ s), d₂) = (.ok o, d'))
  obtain ⟨r, d₃, hsave⟩ : ∃ r d₃, Settings.save (m := StateM Disk) (settingsPath options directory) s d = (r, d₃) :=
    ⟨_, _, rfl⟩
  rw [saveSettings_eq hsave] at hrun
  obtain ⟨hok, hd₃⟩ := Prod.mk.inj hrun
  rw [Except.mapError_eq_ok.mp hok, hd₃, hd'] at hsave
  exact ⟨s, hsettings, hvalid, (Except.ok.inj ho).symm, hsave⟩

theorem config_show (h : effectiveSettings (m := StateM Disk) options directory d = (.ok s, d)) :
    (config (m := StateM Disk) options directory false).run d = (.ok ⟨s.toJson.pretty, s.toJson⟩, d) :=
  run_bind_ok (loadSettings_eq_ok.mpr h)

theorem config_save {r : Except FileError Unit}
    (h : effectiveSettings (m := StateM Disk) options directory d = (.ok s, d))
    (hsave : Settings.save (m := StateM Disk) (settingsPath options directory) s d = (r, d')) :
    (config (m := StateM Disk) options directory true).run d =
      ((r.map fun _ => savedOutput (settingsPath options directory) s).mapError
        fun e => .settings (.document (.file e)), d') := by
  refine (run_bind_ok (loadSettings_eq_ok.mpr h)).trans ?_
  have hrun := saveSettings_eq hsave
  cases r with
  | error e => exact run_bind_error hrun
  | ok u => exact run_bind_ok hrun

/-- Settings for a command are sensible. They are the fields of the file, or the usual ones as far as these are
missing, but for the number of steps that the command is given. Once a command has shown and saved settings, each
later one for the same file that is given no number of steps shows the same settings. If it saves them, it changes
nothing but what stands beside the file, and nothing at all if it succeeds, as it does on a disk without faults. -/
theorem config_shows_saved :
    (∀ options directory d d' s, effectiveSettings (m := StateM Disk) options directory d = (.ok s, d') →
      d' = d ∧ s.validate = .ok () ∧ ∃ f, Settings.Stored d.tree (settingsPath options directory) f ∧
        s.version.toNat = f.version.getD 1 ∧ s.maxStack.toNat = f.maxStack.getD 4096 ∧
        s.start = f.start.getD none ∧
        s.maxSteps.toNat = (options.maxSteps.map fun n => (n.toNat : Int)).getD (f.maxSteps.getD 1000000)) ∧
    ∀ options directory d d' o,
      (execute (m := StateM Disk) ⟨.config true, options⟩ directory).run d = (.ok o, d') →
      ∃ s, effectiveSettings (m := StateM Disk) options directory d = (.ok s, d) ∧
        o = ⟨s.toJson.pretty ++ "\nsaved to " ++ (settingsPath options directory).text, s.toJson⟩ ∧
        ∀ options' directory', settingsPath options' directory' = settingsPath options directory →
          options'.maxSteps = none →
          (∀ e, e.tree = d'.tree →
            (execute (m := StateM Disk) ⟨.config false, options'⟩ directory').run e =
              (.ok ⟨s.toJson.pretty, s.toJson⟩, e)) ∧
          ∀ faults r e,
            (execute (m := StateM Disk) ⟨.config true, options'⟩ directory').run ⟨d'.tree, [], faults⟩ = (r, e) →
            (∀ t ∈ e.tree :: e.past, ∀ q,
              q ≠ d'.tree.place (Settings.temporary (settingsPath options directory)) →
                t.get? q = d'.tree.get? q) ∧
            (∀ o', r = .ok o' → o' = o ∧ ∀ q, e.tree.get? q = d'.tree.get? q) ∧ (faults = [] → r = .ok o) := by
  refine ⟨fun options directory d d' s h => ?_, fun options directory d d' o h => ?_⟩
  · obtain ⟨rfl, hvalid, f, hstored, rfl⟩ := effectiveSettings_eq_ok h
    refine ⟨rfl, hvalid, f, hstored, Settings.Draft.word32_eq hstored.fits.version 1,
      Settings.Draft.word64_eq hstored.fits.maxStack 4096, rfl, ?_⟩
    cases options.maxSteps with
    | none => exact Settings.Draft.word64_eq hstored.fits.maxSteps 1000000
    | some n => rfl
  · obtain ⟨s, hsettings, hvalid, rfl, hsave⟩ := config_eq_ok h
    obtain ⟨name, hsaved⟩ := Settings.saved_of_save hsave
    refine ⟨s, hsettings, rfl, fun options' directory' hpath hsteps => ?_⟩
    have hagain (e : Disk) (he : e.tree = d'.tree) :
        effectiveSettings (m := StateM Disk) options' directory' e = (.ok s, e) := by
      refine effectiveSettings_of_read ?_ hvalid hsteps
      rw [he, hpath]
      exact hsaved.read
    refine ⟨fun e he => config_show (hagain e he), fun faults r e hrun => ?_⟩
    obtain ⟨r', e', hsave'⟩ : ∃ r' e', Settings.save (m := StateM Disk) (settingsPath options directory) s
        ⟨d'.tree, [], faults⟩ = (r', e') := ⟨_, _, rfl⟩
    have hrun' := config_save (hagain ⟨d'.tree, [], faults⟩ rfl) (hpath ▸ hsave')
    rw [hpath] at hrun'
    cases hrun'.symm.trans hrun
    obtain ⟨hbeside, hok, hfaults⟩ := hsaved.save_again hsave'
    rw [Settings.place_temporary hsaved.fileName]
    refine ⟨hbeside, fun o' ho' => ?_, fun hnone => ?_⟩
    · obtain ⟨⟨⟩, hr', rfl⟩ := Except.map_eq_ok.mp (Except.mapError_eq_ok.mp ho')
      exact ⟨rfl, hok hr'⟩
    · rw [hfaults hnone]
      rfl

theorem config_shows_saved_steps :
    ∃ d' e : Disk, ∃ o : Output,
      (execute (m := StateM Disk) ⟨.config true, ⟨false, some ⟨"s.json"⟩, some 500⟩⟩ none).run ⟨⟨[], []⟩, [], []⟩ =
        (.ok o, d') ∧
      (execute (m := StateM Disk) ⟨.config false, ⟨false, some ⟨"s.json"⟩, none⟩⟩ none).run d' =
        (.ok ⟨({ maxSteps := 500 } : Settings).toJson.pretty, ({ maxSteps := 500 } : Settings).toJson⟩, d') ∧
      (execute (m := StateM Disk) ⟨.config true, ⟨false, some ⟨"s.json"⟩, none⟩⟩ none).run ⟨d'.tree, [], []⟩ =
        (.ok o, e) ∧
      ∀ q, e.tree.get? q = d'.tree.get? q := by
  have hmissing : ((⟨[], []⟩ : Tree).find ⟨"s.json"⟩).isOk = false := by decide +kernel
  have hsettings : effectiveSettings (m := StateM Disk) ⟨false, some ⟨"s.json"⟩, some 500⟩ none ⟨⟨[], []⟩, [], []⟩ =
      (.ok { maxSteps := 500 }, ⟨⟨[], []⟩, [], []⟩) := by
    have hload := Settings.load_of_missing (d := ⟨⟨[], []⟩, [], []⟩) hmissing
    simp only [effectiveSettings, bind, StateT.bind, settingsPath, Option.getD_some, hload]
    rfl
  obtain ⟨past, hsave⟩ := Settings.agrees_save ⟨"s.json"⟩ { maxSteps := 500 } ⟨[], []⟩ []
  have hok : (Settings.save (m := StateM Tree) ⟨"s.json"⟩ { maxSteps := 500 } ⟨[], []⟩).1 = .ok () := by
    decide +kernel
  rw [hok] at hsave
  obtain ⟨d', hrun⟩ : ∃ d', (execute (m := StateM Disk) ⟨.config true, ⟨false, some ⟨"s.json"⟩, some 500⟩⟩ none).run
      ⟨⟨[], []⟩, [], []⟩ = (.ok (savedOutput ⟨"s.json"⟩ { maxSteps := 500 }), d') :=
    ⟨_, config_save hsettings hsave⟩
  obtain ⟨s, hs, -, hlater⟩ := config_shows_saved.2 ⟨false, some ⟨"s.json"⟩, some 500⟩ none _ _ _ hrun
  obtain ⟨hs, -⟩ := Prod.mk.inj (hsettings.symm.trans hs)
  obtain ⟨hshow, hagain⟩ := hlater ⟨false, some ⟨"s.json"⟩, none⟩ none rfl rfl
  rw [← Except.ok.inj hs] at hshow
  obtain ⟨-, hsame, hnever⟩ := hagain [] _ _ Prod.mk.eta.symm
  exact ⟨d', _, _, hrun, hshow d' rfl, Prod.ext (hnever rfl) rfl, (hsame _ (hnever rfl)).2⟩

end CommandLine

end Labyrinth
