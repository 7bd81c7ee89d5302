import Labyrinth.Proofs.Except
import Labyrinth.Proofs.Settings.Document

/-!
# Fields of settings

Settings are made of the fields that a text holds (`Settings.fieldsOfText`). A field that is there is a number
in the range of its type (`Settings.Draft.fits_of_fieldsOfText`), so it is kept as it is.
-/

namespace Labyrinth

namespace Json.Reader

variable {α β σ κ : Type} {r : Reader α} {P : α → Prop} {Q : β → Prop}

/-- Whatever is read has a property. -/
def Gives (r : Reader α) (P : α → Prop) : Prop :=
  ∀ ⦃cs a ds⦄, r cs = .ok (a, ds) → P a

theorem Gives.bind {f : α → Reader β} (hr : Gives r P) (hf : ∀ a, P a → Gives (f a) Q) :
    Gives (r >>= f) Q := by
  intro cs b es h
  obtain ⟨⟨a, ds⟩, ha, hb⟩ := Except.bind_eq_ok.mp h
  exact hf a (hr ha) hb

theorem gives_any (r : Reader α) : Gives r fun _ => True := fun _ _ _ _ => trivial

theorem gives_pure {a : α} (h : P a) : Gives (pure a) P := by
  intro cs b ds hpure
  cases hpure
  exact h

theorem gives_throw (e : Fault) : Gives (throw e : Reader α) P := nofun

theorem gives_fail (r : Reader β) (e : Fault) : Gives (do let _ ← r; throw e : Reader α) P :=
  (gives_any r).bind fun _ _ => gives_throw e

theorem gives_refuse : Gives (refuse : Reader α) P := by
  refine (gives_any next?).bind fun c _ => ?_
  split
  · exact gives_throw _
  · exact gives_fail _ _
  · exact gives_fail _ _
  · exact gives_fail _ _
  · exact (gives_any _).bind fun _ _ => gives_fail _ _
  · exact gives_throw _
  · exact gives_throw _
  · split
    · exact gives_fail _ _
    · exact gives_throw _

theorem gives_integer (low high : Int) : Gives (integer low high) fun n => low ≤ n ∧ n ≤ high := by
  refine (gives_any next?).bind fun c _ => ?_
  split
  · exact gives_throw _
  · split
    · refine (gives_any numeral).bind fun n _ => ?_
      split
      · exact gives_throw _
      · split
        · next hbounds => exact gives_pure hbounds
        · exact gives_throw _
    · exact gives_refuse

/-- What is read where it may be missing has the property if it is there. -/
theorem Gives.element? (hr : Gives r P) (first : Bool) : Gives (element? r first) fun a? => ∀ a ∈ a?, P a := by
  refine (gives_any _).bind fun more _ => ?_
  split
  · refine hr.bind (f := fun a => Pure.pure (some a)) fun a ha => gives_pure fun b hb => ?_
    cases hb
    exact ha
  · exact gives_pure nofun

theorem Gives.once (hr : Gives r P) (old : Option α) : Gives (once old r) fun a? => ∀ a ∈ a?, P a := by
  unfold Reader.once
  split
  · exact (gives_throw (P := fun _ => False) _).bind fun _ h => h.elim
  · refine (gives_any colon).bind fun _ _ => ?_
    refine hr.bind (f := fun a => Pure.pure (some a)) fun a ha => gives_pure fun b hb => ?_
    cases hb
    exact ha

/-- What every member keeps holds behind the members. -/
theorem gives_members {key : Reader κ} {member : σ → κ → Reader σ} {I : σ → Prop} {s : σ}
    (hmember : ∀ s k, I s → Gives (member s k) I) (hs : I s) : Gives (members key member s) I := by
  have hgo (bound : Nat) (first : Bool) (s : σ) (hs : I s) : Gives (members.go key member bound first s) I := by
    induction bound generalizing first s with
    | zero => exact gives_throw _
    | succ bound ih =>
      refine (gives_any _).bind fun more _ => ?_
      split
      · refine (gives_any next?).bind fun c _ => ?_
        split
        · exact (gives_any _).bind fun _ _ => (gives_any key).bind fun k _ =>
            (hmember s k hs).bind fun s' hs' => ih false s' hs'
        · exact gives_throw _
      · exact gives_pure hs
  exact (gives_any get).bind fun cs _ => hgo _ true s hs

theorem Gives.document {text : String} {a : α} (hr : Gives r P) (h : document r text = .ok a) : P a := by
  obtain ⟨⟨b, rest⟩, hread, h⟩ := Except.bind_eq_ok.mp h
  obtain ⟨⟨⟩, -, h⟩ := Except.bind_eq_ok.mp h
  cases h
  exact hr hread

end Json.Reader

open Json.Reader

namespace Settings

/-- Reads the fields of settings, as far as they are there. -/
def readFields : Json.Reader Draft := do
  match ← next? with
  | some '[' =>
    skip
    let d ← fields
    close ']'
    return d
  | some '{' =>
    skip
    let d ← members string member {}
    close '}'
    return d
  | _ => refuse

theorem read_eq : read = Draft.complete <$> readFields := by
  rw [readFields, map_bind]
  refine congrArg (next? >>= ·) (funext fun c => ?_)
  by_cases hbracket : c = some '['
  · subst hbracket
    simp only [map_bind, map_pure]
  by_cases hbrace : c = some '{'
  · subst hbrace
    simp only [map_bind, map_pure]
  · simp only [map_refuse]

/-- The fields of settings that a text holds. -/
def fieldsOfText (text : String) : Except Json.Fault Draft :=
  document readFields text

/-- Settings are made of the fields that a text holds. -/
theorem ofText_eq (text : String) : Settings.ofText text = (fieldsOfText text).map Draft.complete := by
  rw [Settings.ofText, read_eq, document_map]
  rfl

/-! ### Ranges -/

/-- The numbers are in the ranges of the fields. -/
structure Draft.Fits (f : Draft) : Prop where
  version : ∀ n ∈ f.version, 0 ≤ n ∧ n ≤ UInt32.size - 1
  maxSteps : ∀ n ∈ f.maxSteps, 0 ≤ n ∧ n ≤ UInt64.size - 1
  maxStack : ∀ n ∈ f.maxStack, 0 ≤ n ∧ n ≤ UInt64.size - 1

namespace Draft

theorem fits_empty : Fits {} where
  version := nofun
  maxSteps := nofun
  maxStack := nofun

theorem gives_word32 : Gives word32 fun n => 0 ≤ n ∧ n ≤ UInt32.size - 1 := gives_integer _ _

theorem gives_word64 : Gives word64 fun n => 0 ≤ n ∧ n ≤ UInt64.size - 1 := gives_integer _ _

theorem gives_member (f : Draft) (key : String) (h : f.Fits) : Gives (member f key) Fits := by
  unfold member
  split
  · exact (gives_word32.once _).bind fun _ hn => gives_pure ⟨hn, h.maxSteps, h.maxStack⟩
  · exact (gives_word64.once _).bind fun _ hn => gives_pure ⟨h.version, hn, h.maxStack⟩
  · exact (gives_word64.once _).bind fun _ hn => gives_pure ⟨h.version, h.maxSteps, hn⟩
  · exact (gives_any _).bind fun _ _ => gives_pure ⟨h.version, h.maxSteps, h.maxStack⟩
  · exact (gives_any _).bind fun _ _ => (gives_any _).bind fun _ _ => (gives_any _).bind fun _ _ => gives_pure h

theorem gives_fields : Gives fields Fits := by
  refine (gives_word32.element? true).bind fun version hversion => ?_
  split
  · refine (gives_word64.element? false).bind fun maxSteps hsteps => ?_
    split
    · refine (gives_word64.element? false).bind fun maxStack hstack => ?_
      split
      · exact (gives_any _).bind fun _ _ => gives_pure ⟨hversion, hsteps, hstack⟩
      · exact gives_pure ⟨hversion, hsteps, nofun⟩
    · exact gives_pure ⟨hversion, nofun, nofun⟩
  · exact gives_pure fits_empty

theorem fits_of_fieldsOfText {f : Draft} {text : String} (h : fieldsOfText text = .ok f) : f.Fits := by
  refine Gives.document (r := readFields) ?_ h
  refine (gives_any next?).bind fun c _ => ?_
  split
  · exact (gives_any skip).bind fun _ _ => gives_fields.bind fun f hf =>
      (gives_any _).bind fun _ _ => gives_pure hf
  · exact (gives_any skip).bind fun _ _ => (gives_members gives_member fits_empty).bind fun f hf =>
      (gives_any _).bind fun _ _ => gives_pure hf
  · exact gives_refuse

theorem word32_eq {n? : Option Int} (h : ∀ n ∈ n?, 0 ≤ n ∧ n ≤ UInt32.size - 1) (default : UInt32) :
    (((n?.map fun n => n.toNat.toUInt32).getD default).toNat : Int) = n?.getD default.toNat := by
  cases n? with
  | none => rfl
  | some n =>
    obtain ⟨hlow, hhigh⟩ := h n rfl
    have hsize : n.toNat < UInt32.size := by omega
    show ((UInt32.ofNat n.toNat).toNat : Int) = n
    rw [UInt32.toNat_ofNat_of_lt' hsize, Int.toNat_of_nonneg hlow]

theorem word64_eq {n? : Option Int} (h : ∀ n ∈ n?, 0 ≤ n ∧ n ≤ UInt64.size - 1) (default : UInt64) :
    (((n?.map fun n => n.toNat.toUInt64).getD default).toNat : Int) = n?.getD default.toNat := by
  cases n? with
  | none => rfl
  | some n =>
    obtain ⟨hlow, hhigh⟩ := h n rfl
    have hsize : n.toNat < UInt64.size := by omega
    show ((UInt64.ofNat n.toNat).toNat : Int) = n
    rw [UInt64.toNat_ofNat_of_lt' hsize, Int.toNat_of_nonneg hlow]

end Draft

end Settings

end Labyrinth
