import Labyrinth.Proofs.Parsing.Readers

/-!
# Expressions and the blocks around them

A reader gives back the levels and the height that it uses (`Parser.Keeps`), so an expression that stands
inside `n` blocks is read with `n` levels less to open, and with the height `n` in use. What is kept by
the readers of expressions for every `n` is a property of the expressions of a program
(`Program.forall_placed`), and the levels bound the blocks inside of each other (`Program.of_keeps`).
-/

namespace Labyrinth

namespace Stmt

mutual

/-- The expressions of a statement inside `n` blocks, each with the number of blocks around it. -/
def placed (n : Nat) : Stmt → List (Nat × Expr)
  | declare _ _ _ init => [(n, init)]
  | assign _ _ value | eval value | ret _ (some value) => [(n, value)]
  | ret _ none => []
  | cond _ test body | loop _ test body => (n, test) :: placedAll (n + 1) body
  | block _ body => placedAll (n + 1) body

def placedAll (n : Nat) : List Stmt → List (Nat × Expr)
  | [] => []
  | s :: ss => placed n s ++ placedAll n ss

end

mutual

/-- The greatest number of blocks inside each other in a statement. -/
def blocks : Stmt → Nat
  | declare _ _ _ _ | assign _ _ _ | eval _ | ret _ _ => 0
  | cond _ _ body | loop _ _ body | block _ body => 1 + blocksAll body

def blocksAll : List Stmt → Nat
  | [] => 0
  | s :: ss => max (blocks s) (blocksAll ss)

end

/-- A statement inside `n` blocks with expressions of a property, and with blocks up to the limit. -/
structure Within (P : Nat × Expr → Prop) (n : Nat) (s : Stmt) : Prop where
  placed : ∀ x ∈ s.placed n, P x
  blocks : n + s.blocks ≤ maxNesting

structure WithinAll (P : Nat × Expr → Prop) (n : Nat) (ss : List Stmt) : Prop where
  placed : ∀ x ∈ placedAll n ss, P x
  blocks : n + blocksAll ss ≤ maxNesting

section

variable {P : Nat × Expr → Prop} {n : Nat} {s : Stmt} {ss : List Stmt}

theorem WithinAll.nil (hn : n ≤ maxNesting) : WithinAll P n [] := ⟨nofun, hn⟩

theorem WithinAll.cons (hs : s.Within P n) (hss : WithinAll P n ss) : WithinAll P n (s :: ss) where
  placed := List.forall_mem_append.mpr ⟨hs.placed, hss.placed⟩
  blocks := by
    have hle := hs.blocks
    have hle' := hss.blocks
    rw [blocksAll]
    omega

/-- A statement without blocks. -/
theorem Within.flat {xs : List (Nat × Expr)} (hn : n ≤ maxNesting) (hplaced : s.placed n = xs)
    (hblocks : s.blocks = 0) (hxs : ∀ x ∈ xs, P x) : s.Within P n :=
  ⟨hplaced ▸ hxs, by omega⟩

/-- A statement with a block. -/
theorem Within.nest (xs : List (Nat × Expr)) (hplaced : s.placed n = xs ++ placedAll (n + 1) ss)
    (hblocks : s.blocks = 1 + blocksAll ss) (hxs : ∀ x ∈ xs, P x) (hss : WithinAll P (n + 1) ss) :
    s.Within P n where
  placed := hplaced ▸ List.forall_mem_append.mpr ⟨hxs, hss.placed⟩
  blocks := by
    have hle := hss.blocks
    omega

end

end Stmt

/-- The greatest number of blocks inside each other, the body of a function among them. -/
def Decl.blocks : Decl → Nat
  | .function f => 1 + Stmt.blocksAll f.body
  | .stmt s => s.blocks

def Decl.placed : Decl → List (Nat × Expr)
  | .function f => Stmt.placedAll 1 f.body
  | .stmt s => s.placed 0

/-- The expressions of a program, each with the number of blocks around it. -/
def Program.placed (p : Program) : List (Nat × Expr) :=
  p.flatMap Decl.placed

/-- A part of `ls` that a cursor may stand in front of: the last token is never left behind. -/
structure Remains (ls us : List Lexeme) : Prop where
  suffix : us <:+ ls
  nil : us = [] → ls = []

namespace Remains

variable {ls : List Lexeme}

theorem refl : Remains ls ls := ⟨List.suffix_rfl, id⟩

theorem trans {us vs : List Lexeme} (h : Remains ls us) (h' : Remains us vs) : Remains ls vs :=
  ⟨h'.suffix.trans h.suffix, fun hnil => h.nil (h'.nil hnil)⟩

theorem advance {s : Cursor} (h : Remains ls s.lexemes) : Remains ls s.advance.lexemes := by
  unfold Cursor.advance
  split
  · next l l' us hs => exact ⟨(List.suffix_cons l _).trans (hs ▸ h.suffix), nofun⟩
  · exact h

end Remains

namespace Cursor

variable {ls : List Lexeme} {s t u : Cursor}

theorem depth_advance (s : Cursor) : s.advance.depth = s.depth := by
  unfold advance
  split <;> rfl

theorem height_advance (s : Cursor) : s.advance.height = s.height := by
  unfold advance
  split <;> rfl

/-- The counters at `t` are those at `s`, and `t` stands in front of a part of `ls`. -/
structure Restored (ls : List Lexeme) (s t : Cursor) : Prop where
  remains : Remains ls t.lexemes
  depth : t.depth = s.depth
  height : t.height = s.height

namespace Restored

theorem refl (h : Remains ls s.lexemes) : s.Restored ls s := ⟨h, rfl, rfl⟩

theorem trans (h : s.Restored ls t) (h' : t.Restored ls u) : s.Restored ls u :=
  ⟨h'.remains, h'.depth.trans h.depth, h'.height.trans h.height⟩

theorem advance (h : Remains ls s.lexemes) : s.Restored ls s.advance :=
  ⟨h.advance, depth_advance s, height_advance s⟩

/-- Behind a level the counters are those in front of it. -/
theorem leave (h : Restored ls { s with depth := s.depth + 1, height := s.height + 1 } t) :
    s.Restored ls (Parser.leave t) where
  remains := h.remains
  depth := by simp [Parser.leave, h.depth]
  height := by simp [Parser.leave, h.height]

end Restored

end Cursor

namespace Parser

/-! ### Readers that give back what they use -/

variable {α β : Type} {ls : List Lexeme} {h n : Nat}

section

variable {P : α → Prop} {Q : β → Prop}

/-- At the height `h` or more and somewhere in `ls`, the reader leaves the counters as they are and gives
values with the property. -/
def Keeps (ls : List Lexeme) (h : Nat) (r : Parser α) (P : α → Prop) : Prop :=
  ∀ s, Remains ls s.lexemes → h ≤ s.height →
    r.Meets s (fun a t => s.Restored ls t ∧ P a) fun _ => True

namespace Keeps

theorem pure {a : α} (ha : P a) : Keeps ls h (pure a) P :=
  fun _ hs _ => ⟨.refl hs, ha⟩

theorem bind {r : Parser α} {f : α → Parser β} (hr : Keeps ls h r P)
    (hf : ∀ a, P a → Keeps ls h (f a) Q) : Keeps ls h (r >>= f) Q := by
  intro s hs hh
  refine .bind (hr s hs hh) ?_
  rintro a t ⟨ht, ha⟩
  refine .mono (hf a ha t ht.remains (ht.height ▸ hh)) ?_ fun _ => id
  rintro b u ⟨hu, hb⟩
  exact ⟨ht.trans hu, hb⟩

theorem after {r : Parser α} {f : α → Parser β} (hr : Keeps ls h r fun _ => True)
    (hf : ∀ a, Keeps ls h (f a) Q) : Keeps ls h (r >>= f) Q :=
  bind hr fun a _ => hf a

theorem mono {P' : α → Prop} {r : Parser α} (hr : Keeps ls h r P) (hP : ∀ a, P a → P' a) :
    Keeps ls h r P' :=
  fun s hs hh => .mono (hr s hs hh) (fun _ _ ⟨ht, ha⟩ => ⟨ht, hP _ ha⟩) fun _ => id

theorem map {r : Parser α} {f : α → β} (hr : Keeps ls h r fun a => Q (f a)) :
    Keeps ls h (f <$> r) Q :=
  fun s hs hh => .map (hr s hs hh)

theorem get {f : Cursor → Parser β} (hf : ∀ s, Keeps ls h (f s) Q) : Keeps ls h (get >>= f) Q :=
  fun s hs hh => .get (hf s s hs hh)

theorem throw (e : SyntaxError) : Keeps ls h (throw e) P :=
  fun _ _ _ => trivial

theorem fail (problem : SyntaxProblem) : Keeps ls h (fail problem) P :=
  fun _ _ _ => trivial

theorem unexpected (wanted : Expected) : Keeps ls h (unexpected wanted) P :=
  fun _ _ _ => trivial

theorem advance : Keeps ls h advance fun _ => True :=
  fun _ hs _ => ⟨.advance hs, trivial⟩

theorem expect (t : Token) : Keeps ls h (expect t) fun _ => True := by
  refine get fun s => ?_
  split
  · exact advance
  · exact unexpected _

theorem expectName (wanted : Expected) : Keeps ls h (expectName wanted) fun _ => True := by
  refine get fun s => ?_
  split
  · exact after advance fun _ => pure trivial
  · exact unexpected _

theorem expectType : Keeps ls h expectType fun _ => True := by
  refine get fun s => ?_
  split
  · exact after advance fun _ => pure trivial
  · exact unexpected _

theorem level {r : Parser α} {f : α → Parser β} (hr : Keeps ls (h + 1) r P)
    (hf : ∀ a, P a → Keeps ls h (f a) Q) :
    Keeps ls h (do enter; let a ← r; modify leave; f a : Parser β) Q := by
  intro s hs hh
  refine .bind (Q := fun _ t => t = { s with depth := s.depth + 1, height := s.height + 1 })
    (.enter (fun _ _ => rfl) fun _ => trivial) ?_
  rintro _ _ rfl
  refine .bind (hr _ hs (Nat.succ_le_succ hh)) ?_
  rintro a t ⟨ht, ha⟩
  have hleave := ht.leave
  refine .modify (.mono (hf a ha _ hleave.remains (hleave.height ▸ hh)) ?_ fun _ => id)
  rintro b u ⟨hu, hb⟩
  exact ⟨hleave.trans hu, hb⟩

theorem sepByComma {item : Parser α} (hitem : Keeps ls h item P) :
    Keeps ls h (sepByComma item) fun as => ∀ a ∈ as, P a := by
  have hgo : ∀ bound, Keeps ls h (sepByComma.go item bound) fun as => ∀ a ∈ as, P a := by
    intro bound
    induction bound with
    | zero => exact pure nofun
    | succ bound ih =>
      refine bind hitem fun a ha => get fun s => ?_
      split
      · exact after advance fun _ => bind ih fun as has => pure (List.forall_mem_cons.mpr ⟨ha, has⟩)
      · exact pure (by simpa using ha)
  exact get fun s => hgo _

theorem parenthesized {item : Parser α} (hitem : Keeps ls h item P) :
    Keeps ls h (parenthesized item) fun as => ∀ a ∈ as, P a := by
  refine after (expect _) fun _ => get fun s => ?_
  split
  · exact bind (P := fun as => as = []) (pure rfl) fun as has => after (expect _) fun _ =>
      pure (by simp [has])
  · exact bind (sepByComma hitem) fun as has => after (expect _) fun _ => pure has

end Keeps

end

/-! ### Statements and programs -/

variable {P : Nat × Expr → Prop}

theorem keeps_statements {stmt : Parser Stmt} (hn : n ≤ maxNesting)
    (hstmt : Keeps ls h stmt (·.Within P n)) : Keeps ls h (statements stmt) (Stmt.WithinAll P n) := by
  have hgo : ∀ bound, Keeps ls h (statements.go stmt bound) (Stmt.WithinAll P n) := by
    intro bound
    induction bound with
    | zero => exact .unexpected _
    | succ bound ih =>
      refine .get fun s => ?_
      split
      · exact .pure (.nil hn)
      · exact .unexpected _
      · exact .bind hstmt fun s hs => .bind ih fun ss hss => .pure (.cons hs hss)
  exact .get fun s => hgo _

theorem keeps_param : Keeps ls h param fun _ => True :=
  .after .expectType fun _ => .get fun _ => .after (.expectName _) fun _ => .pure trivial

variable (hexpr : ∀ h, Keeps ls h (expression (maxNesting - h)) fun e => P (h, e))

include hexpr

theorem keeps_declaration (hn : n ≤ maxNesting) :
    Keeps ls n (declaration (maxNesting - n)) (·.Within P n) := by
  refine .get fun s => .after .expectType fun ty => .after (.expectName _) fun name => ?_
  refine .after (.expect _) fun _ => .bind (hexpr n) fun init hinit => ?_
  exact .after (.expect _) fun _ => .pure (.flat hn rfl rfl (List.forall_mem_singleton.mpr hinit))

theorem keeps_statement {block : Parser (List Stmt)} (hn : n ≤ maxNesting)
    (hblock : Keeps ls n block (Stmt.WithinAll P (n + 1))) :
    Keeps ls n (statement (maxNesting - n) block) (·.Within P n) := by
  have hcondition : Keeps ls n (condition (maxNesting - n)) fun e => P (n, e) :=
    .after (.expect _) fun _ => .bind (hexpr n) fun _ he =>
      .after (.expect _) fun _ => .pure he
  have hsemicolon {f : Expr → Stmt} (hf : ∀ e, (f e).placed n = [(n, e)])
      (hblocks : ∀ e, (f e).blocks = 0) :
      Keeps ls n (do let e ← expression (maxNesting - n); expectMark .semicolon; return f e :
        Parser Stmt) (·.Within P n) :=
    .bind (hexpr n) fun e he => .after (.expect _) fun _ =>
      .pure (.flat hn (hf e) (hblocks e) (List.forall_mem_singleton.mpr he))
  have htested {f : Expr → List Stmt → Stmt}
      (hf : ∀ e body, (f e body).placed n = [(n, e)] ++ Stmt.placedAll (n + 1) body)
      (hblocks : ∀ e body, (f e body).blocks = 1 + Stmt.blocksAll body) :
      Keeps ls n (do let e ← condition (maxNesting - n); return f e (← block) : Parser Stmt)
        (·.Within P n) :=
    .bind hcondition fun e he => .bind hblock fun body hbody =>
      .pure (.nest [(n, e)] (hf e body) (hblocks e body) (List.forall_mem_singleton.mpr he) hbody)
  refine .get fun s => ?_
  split
  · exact keeps_declaration hexpr hn
  · exact keeps_declaration hexpr hn
  · exact keeps_declaration hexpr hn
  · exact .after .advance fun _ => htested (fun _ _ => rfl) fun _ _ => rfl
  · exact .after .advance fun _ => htested (fun _ _ => rfl) fun _ _ => rfl
  · refine .after .advance fun _ => .get fun s => ?_
    split
    · refine .bind (P := fun value => value = none) (.pure rfl) ?_
      rintro _ rfl
      exact .after (.expect _) fun _ => .pure (.flat hn rfl rfl nofun)
    · rw [bind_map_left]
      exact hsemicolon (fun _ => rfl) fun _ => rfl
  · exact .bind hblock fun body hbody => .pure (.nest [] rfl rfl nofun hbody)
  · split
    · exact .after .advance fun _ => .after .advance fun _ => hsemicolon (fun _ => rfl) fun _ => rfl
    · exact hsemicolon (fun _ => rfl) fun _ => rfl
  · exact hsemicolon (fun _ => rfl) fun _ => rfl

theorem keeps_block : ∀ (room n : Nat), room + n = maxNesting →
    Keeps ls n (block room) (Stmt.WithinAll P (n + 1))
  | 0, _, _ => .after (.expect _) fun _ => .fail _
  | room + 1, n, hr => by
    -- the block opens a level, so there is one less for what stands in it
    have hroom : room = maxNesting - (n + 1) := by omega
    have hn : n + 1 ≤ maxNesting := by omega
    have hbody := keeps_statement hexpr hn (keeps_block room (n + 1) (by omega))
    rw [← hroom] at hbody
    exact .after (.expect _) fun _ => .level (keeps_statements hn hbody) fun body hs =>
      .after (.expect _) fun _ => .pure hs

theorem keeps_decl :
    Keeps ls 0 decl fun d => (∀ x ∈ d.placed, P x) ∧ d.blocks ≤ maxNesting := by
  have hblock := keeps_block hexpr maxNesting 0 rfl
  refine .get fun s => ?_
  split
  · refine .map (.get fun s => .after (.expect _) fun _ => .after .expectType fun _ => ?_)
    refine .after (.expectName _) fun _ => .after ?_ fun params => .bind hblock fun body hbody => ?_
    · exact .mono (.parenthesized keeps_param) fun _ _ => trivial
    · exact .pure ⟨hbody.placed, hbody.blocks⟩
  · refine .map (.mono (keeps_statement hexpr (Nat.zero_le _) hblock) fun s hs => ?_)
    have hblocks := hs.blocks
    rw [Nat.zero_add] at hblocks
    exact ⟨hs.placed, hblocks⟩

theorem keeps_program :
    Keeps ls 0 program fun p => (∀ x ∈ p.placed, P x) ∧ ∀ d ∈ p, d.blocks ≤ maxNesting := by
  have hgo : ∀ bound, Keeps ls 0 (program.go bound) fun p =>
      (∀ x ∈ p.placed, P x) ∧ ∀ d ∈ p, d.blocks ≤ maxNesting := by
    intro bound
    induction bound with
    | zero => exact .pure ⟨nofun, nofun⟩
    | succ bound ih =>
      refine .get fun s => ?_
      split
      · exact .pure ⟨nofun, nofun⟩
      · exact .bind (keeps_decl hexpr) fun d hd => .bind ih fun ds hds =>
          .pure ⟨List.forall_mem_append.mpr ⟨hd.1, hds.1⟩, List.forall_mem_cons.mpr ⟨hd.2, hds.2⟩⟩
  exact .get fun s => hgo _

end Parser

namespace Program

variable {P : Nat × Expr → Prop} {ls : List Lexeme} {p : Program}

theorem of_keeps
    (hexpr : ∀ n, Parser.Keeps ls n (Parser.expression (maxNesting - n)) fun e => P (n, e))
    (h : ofLexemes ls = .ok p) : (∀ x ∈ p.placed, P x) ∧ ∀ d ∈ p, d.blocks ≤ maxNesting := by
  unfold ofLexemes at h
  split at h
  · next q t hq =>
    cases h
    exact ((Parser.keeps_program hexpr { lexemes := ls } .refl (Nat.zero_le 0)).ok hq).2
  · cases h

/-- What holds of the expressions that are read inside `n` blocks, whatever `n` is. -/
theorem forall_placed
    (hexpr : ∀ n, Parser.Keeps ls n (Parser.expression (maxNesting - n)) fun e => P (n, e))
    (h : ofLexemes ls = .ok p) : ∀ x ∈ p.placed, P x :=
  (of_keeps hexpr h).1

end Program

end Labyrinth
