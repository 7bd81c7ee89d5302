import Labyrinth.Proofs.Renaming.Names

/-!
# Statements inside of statements

A `Spot` is the way to statements that stand behind others or in their bodies. What the analyser and the
compiler do on the way does not depend on the statements to which it leads (`Spot.Coded.checkAll_fill`,
`Spot.Coded.codeAll_fill`).
-/

namespace Labyrinth

inductive Spot where
  | here
  | next (s : Stmt) (spot : Spot)
  | cond (loc : Location) (test : Expr) (spot : Spot) (rest : List Stmt)
  | loop (loc : Location) (test : Expr) (spot : Spot) (rest : List Stmt)
  | block (loc : Location) (spot : Spot) (rest : List Stmt)

namespace Spot

/-- The statements with `ss` at the spot, where they are the last of their body. -/
def fill (ss : List Stmt) : Spot → List Stmt
  | here => ss
  | next s w => s :: fill ss w
  | cond loc test w rest => .cond loc test (fill ss w) :: rest
  | loop loc test w rest => .loop loc test (fill ss w) :: rest
  | block loc w rest => .block loc (fill ss w) :: rest

/-- Whether the spot is in a block inside. -/
def nested : Spot → Bool
  | here => false
  | next _ w => nested w
  | cond _ _ _ _ | loop _ _ _ _ | block _ _ _ => true

def rename (ρ : Renaming) : Spot → Spot
  | here => here
  | next s w => next (s.rename ρ) (rename ρ w)
  | cond loc test w rest => cond (ρ.place loc) (test.rename ρ) (rename ρ w) (Stmt.renameAll ρ rest)
  | loop loc test w rest => loop (ρ.place loc) (test.rename ρ) (rename ρ w) (Stmt.renameAll ρ rest)
  | block loc w rest => block (ρ.place loc) (rename ρ w) (Stmt.renameAll ρ rest)

def context (Γ : Context) : Spot → Context
  | here => Γ
  | next s w => context (s.after Γ) w
  | cond _ _ w _ | loop _ _ w _ | block _ w _ => context Γ.push w

end Spot

variable {p : Program} {Γ : Context} {n n' n₁ n₂ : Nat} {c d : List Line} {ss ss' : List Stmt}

/-- A spot that is in order, with the lines in front of it and behind it, and with the numbers of labels
at its ends and at those of the statements to which it leads. -/
inductive Spot.Coded (p : Program) :
    Context → Nat → Spot → Nat → Nat → Nat → List Line → List Line → Prop
  | here {Γ : Context} {n n' : Nat} : Coded p Γ n .here n n' n' [] []
  | next {Γ : Context} {n k n₁ n₂ n' : Nat} {s : Stmt} {w : Spot} {c before after : List Line} :
      s.Coded p Γ n k c → Coded p (s.after Γ) k w n₁ n₂ n' before after →
      Coded p Γ n (.next s w) n₁ n₂ n' (c ++ before) after
  | cond {Γ : Context} {n k n₁ n₂ n' : Nat} {loc : Location} {test : Expr} {w : Spot}
      {rest : List Stmt} {c before after d : List Line} :
      test.Coded p Γ .bool c → Coded p Γ.push (n + 1) w n₁ n₂ k before after →
      Stmt.CodedAll p Γ k rest n' d →
      Coded p Γ n (.cond loc test w rest) n₁ n₂ n'
        (c ++ [.taking [.bool] (.jumpIfFalse (labelName n))] ++ before)
        (after ++ [.plain (.label (labelName n))] ++ d)
  | loop {Γ : Context} {n k n₁ n₂ n' : Nat} {loc : Location} {test : Expr} {w : Spot}
      {rest : List Stmt} {c before after d : List Line} :
      test.Coded p Γ .bool c → Coded p Γ.push (n + 2) w n₁ n₂ k before after →
      Stmt.CodedAll p Γ k rest n' d →
      Coded p Γ n (.loop loc test w rest) n₁ n₂ n'
        ([.plain (.label (labelName n))] ++ c ++
          [.taking [.bool] (.jumpIfFalse (labelName (n + 1)))] ++ before)
        (after ++ [.plain (.jump (labelName n)), .plain (.label (labelName (n + 1)))] ++ d)
  | block {Γ : Context} {n k n₁ n₂ n' : Nat} {loc : Location} {w : Spot} {rest : List Stmt}
      {before after d : List Line} :
      Coded p Γ.push n w n₁ n₂ k before after → Stmt.CodedAll p Γ k rest n' d →
      Coded p Γ n (.block loc w rest) n₁ n₂ n' before (after ++ d)

namespace Spot

/-- What is in order splits into a spot and the statements there. -/
theorem exists_coded {w : Spot} (h : Stmt.CodedAll p Γ n (w.fill ss) n' c) :
    ∃ n₁ n₂ before d after, w.Coded p Γ n n₁ n₂ n' before after ∧
      Stmt.CodedAll p (w.context Γ) n₁ ss n₂ d ∧ c = before ++ d ++ after := by
  induction w generalizing Γ n n' c with
  | here => exact ⟨_, _, _, _, _, .here, h, by simp⟩
  | next s w ih =>
    cases h with
    | cons hs h =>
      obtain ⟨n₁, n₂, before, d, after, hw, hss, rfl⟩ := ih h
      exact ⟨n₁, n₂, _, d, after, .next hs hw, hss, by simp⟩
  | cond loc test w rest ih =>
    cases h with
    | cons hs hrest =>
      cases hs with
      | cond ht hb =>
        obtain ⟨n₁, n₂, before, d, after, hw, hss, rfl⟩ := ih hb
        exact ⟨n₁, n₂, _, d, _, .cond ht hw hrest, hss, by simp⟩
  | loop loc test w rest ih =>
    cases h with
    | cons hs hrest =>
      cases hs with
      | loop ht hb =>
        obtain ⟨n₁, n₂, before, d, after, hw, hss, rfl⟩ := ih hb
        exact ⟨n₁, n₂, _, d, _, .loop ht hw hrest, hss, by simp⟩
  | block loc w rest ih =>
    cases h with
    | cons hs hrest =>
      cases hs with
      | block hb =>
        obtain ⟨n₁, n₂, before, d, after, hw, hss, rfl⟩ := ih hb
        exact ⟨n₁, n₂, before, d, _, .block hw hrest, hss, by simp⟩

variable {ρ : Renaming} {Γ' : Context}

theorem context_still : ∀ {w : Spot} {Γ : Context}, (w.rename ρ.still).context Γ = w.context Γ
  | here, _ => rfl
  | next s w, Γ => by
    have hafter : (s.rename ρ.still).after Γ = s.after Γ := by
      cases s with
      | declare _ ty name _ => exact congrArg (Γ.withVariable · ty) (ρ.still_apply name)
      | ret _ value => cases value <;> rfl
      | _ => rfl
    rw [rename, context, hafter, context_still, context]
  | cond _ _ w _, Γ | loop _ _ w _, Γ | block _ w _, Γ => context_still (w := w) (Γ := Γ.push)

theorem Coded.within {w : Spot} {before after : List Line} (h : w.Coded p Γ n n₁ n₂ n' before after)
    (hΓ : Γ.Within p) : (w.context Γ).Within p := by
  induction h with
  | here => exact hΓ
  | next hs _ ih =>
    refine ih ?_
    cases hs with
    | declare _ _ hd => exact hΓ.withVariable hd
    | _ => exact hΓ
  | cond _ _ _ ih | loop _ _ _ ih | block _ _ ih => exact ih hΓ.push

/-- Other statements with the same labels get their code in the same surroundings. -/
theorem Coded.codeAll_fill {w : Spot} {before after : List Line} {Δ : Context} {code : Code}
    (hρ : ρ.Fresh p) (h : w.Coded p Γ n n₁ n₂ n' before after) (hΓ : Γ.Renames ρ Γ')
    (hss : Stmt.codeAll ((w.rename ρ).context Γ') n₁ ss = .ok ⟨Δ, n₂, code⟩) :
    ∃ Δ, Stmt.codeAll Γ' n ((w.rename ρ).fill ss) =
      .ok ⟨Δ, n', Line.codeRenamed ρ before ++ code ++ Line.codeRenamed ρ after⟩ := by
  induction h generalizing Γ' with
  | here => exact ⟨Δ, by simpa [rename, fill, context] using hss⟩
  | next hs _ ih =>
    obtain ⟨Δ, h⟩ := ih (hs.renames_after hρ hΓ) hss
    exact ⟨Δ, by simp [rename, fill, Stmt.codeAll, hs.code_rename hρ hΓ, h, bind, Except.bind, pure,
      Except.pure]⟩
  | cond ht _ hrest ih =>
    obtain ⟨Δ, h⟩ := ih hΓ.push hss
    obtain ⟨Δ', hrest⟩ := hrest.codeAll_rename hρ hΓ
    exact ⟨Δ', by simp [rename, fill, Stmt.codeAll, Stmt.code, ht.code_rename hρ hΓ, h, hrest,
      Instruction.rename, bind, Except.bind, pure, Except.pure]⟩
  | loop ht _ hrest ih =>
    obtain ⟨Δ, h⟩ := ih hΓ.push hss
    obtain ⟨Δ', hrest⟩ := hrest.codeAll_rename hρ hΓ
    exact ⟨Δ', by simp [rename, fill, Stmt.codeAll, Stmt.code, ht.code_rename hρ hΓ, h, hrest,
      Instruction.rename, bind, Except.bind, pure, Except.pure]⟩
  | block _ hrest ih =>
    obtain ⟨Δ, h⟩ := ih hΓ.push hss
    obtain ⟨Δ', hrest⟩ := hrest.codeAll_rename hρ hΓ
    exact ⟨Δ', by simp [rename, fill, Stmt.codeAll, Stmt.code, h, hrest, bind, Except.bind, pure,
      Except.pure]⟩

theorem Coded.checkAll_fill {w : Spot} {before after : List Line} (hρ : ρ.Fresh p)
    (h : w.Coded p Γ n n₁ n₂ n' before after) (hΓ : Γ.Renames ρ Γ')
    (hss : Stmt.checkAll ((w.rename ρ).context Γ') ss = .ok ()) :
    Stmt.checkAll Γ' ((w.rename ρ).fill ss) = .ok () := by
  induction h generalizing Γ' with
  | here => exact hss
  | next hs _ ih =>
    simp only [rename, fill, Stmt.checkAll, hs.check_rename hρ hΓ, bind, Except.bind]
    exact ih (hs.renames_after hρ hΓ) hss
  | cond ht _ hrest ih | loop ht _ hrest ih =>
    simp only [rename, fill, Stmt.checkAll, Stmt.check, Stmt.checkCondition_eq (ht.typeOf_rename hρ hΓ),
      ih hΓ.push hss, bind, Except.bind]
    exact hrest.checkAll_rename hρ hΓ
  | block _ hrest ih =>
    simp only [rename, fill, Stmt.checkAll, Stmt.check, ih hΓ.push hss, bind, Except.bind]
    exact hrest.checkAll_rename hρ hΓ

theorem anyReturns_fill (h : Stmt.anyReturns ss' = Stmt.anyReturns ss) :
    ∀ w : Spot, Stmt.anyReturns ((w.rename ρ).fill ss') = Stmt.anyReturns (w.fill ss)
  | here => h
  | next s w => by
    rw [rename, fill, Stmt.anyReturns, Stmt.returns_rename, anyReturns_fill h w, fill, Stmt.anyReturns]
  | cond _ _ _ _ => by
    rw [rename, fill, Stmt.anyReturns, Stmt.anyReturns_renameAll]
    rfl
  | loop _ test w _ => by
    rw [rename, fill, Stmt.anyReturns, Stmt.returns_loop, Expr.isTrue_rename, anyReturns_fill h w,
      Stmt.anyReturns_renameAll, fill, Stmt.anyReturns, Stmt.returns_loop]
  | block _ w _ => by
    rw [rename, fill, Stmt.anyReturns, Stmt.returns, anyReturns_fill h w, Stmt.anyReturns_renameAll, fill,
      Stmt.anyReturns, Stmt.returns]

end Spot

end Labyrinth
