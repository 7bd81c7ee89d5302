import Labyrinth.Proofs.Accepted
import Labyrinth.Proofs.Parsing.Sequels
import Labyrinth.Proofs.Scanning.Spaced

/-!
# Source texts one behind the other

A text that is a program leaves no trace for the text behind it but the lines that it takes: with a newline
between them the second is read as if it stood alone, with its places and its errors so many lines further
down (`Source.program_append`). No limit is used up by what stands in front.
-/

namespace Labyrinth

variable {n : Nat}

/-! ### Places further down -/

namespace Location

theorem after_lower (loc : Location) (c : Char) : (loc.lower n).after c = (loc.after c).lower n := by
  unfold after
  split
  · rw [lower, lower, Nat.add_right_comm]
  · rfl

theorem afterAll_lower (loc : Location) (cs : List Char) :
    (loc.lower n).afterAll cs = (loc.afterAll cs).lower n := by
  induction cs generalizing loc with
  | nil => rfl
  | cons c cs ih => rw [afterAll_cons, afterAll_cons, after_lower, ih]

/-- Behind a newline one is at the start of a line, as far down as there are newlines. -/
theorem afterAll_newline (cs : List Char) :
    start.afterAll (cs ++ ['\n']) = start.lower (cs.count '\n' + 1) := by
  rw [afterAll_append, afterAll_start]
  show (⟨1 + cs.count '\n' + 1, 1⟩ : Location) = ⟨1 + (cs.count '\n' + 1), 1⟩
  rw [Nat.add_assoc]

end Location

namespace Token

variable {loc : Location} {cs : List Char}

theorem scanFrom_lower (loc : Location) (cs : List Char) : scanFrom (loc.lower n) cs =
    ((scanFrom loc cs).map (List.map (Lexeme.move (.lower n)))).mapError (LexicalError.move (.lower n)) := by
  fun_induction scanFrom loc cs with
  | case1 =>
    rename_i loc cs _ _ hdrop
    rw [scanFrom_of_end hdrop, Location.afterAll_lower]
    rfl
  | case2 =>
    rename_i loc cs _ _ c rest hdrop ht
    rw [scanFrom_of_none hdrop ht, Location.afterAll_lower]
    rfl
  | case3 =>
    rename_i loc cs _ _ c rest hdrop t ht _ e hrest ih
    rw [scanFrom_of_longest hdrop ht, Location.afterAll_lower, Location.afterAll_lower, ih, hrest]
    rfl
  | case4 =>
    rename_i loc cs _ _ c rest hdrop t ht _ ls hrest ih
    rw [scanFrom_of_longest hdrop ht, Location.afterAll_lower, Location.afterAll_lower, ih, hrest]
    rfl

/-- The tokens behind a text and a newline are those of the text behind, further down. -/
theorem scan_append {a : String} {ks : List Lexeme} (h : scan a = .ok ks) (b : String) :
    scan (a ++ "\n" ++ b) =
      (((scan b).map (List.map (Lexeme.move (.lower (a.toList.count '\n' + 1))))).mapError
        (LexicalError.move (.lower (a.toList.count '\n' + 1)))).map (ks.dropLast ++ ·) := by
  have htext : (a ++ "\n" ++ b).toList = a.toList ++ '\n' :: b.toList := by simp
  rw [scan, htext, scanFrom_append_newline h, Location.afterAll_newline, scanFrom_lower]
  rfl

end Token

namespace Source

theorem program_eq_ok {source : String} {p : Program} (h : program source = .ok p) :
    ∃ ls, Token.scan source = .ok ls ∧ Program.ofLexemes ls = .ok p := by
  obtain ⟨ls, hls, hp⟩ := Except.bind_eq_ok.mp h
  exact ⟨ls, Except.mapError_eq_ok.mp hls, Except.mapError_eq_ok.mp hp⟩

theorem report_lexical_move (e : LexicalError) :
    (Failure.lexical (e.move (.lower n))).report = (Failure.lexical e).report.lower n := rfl

theorem report_syntactic_move (e : SyntaxError) :
    (Failure.syntactic (e.move (.lower n))).report = (Failure.syntactic e).report.lower n := by
  have hmessage : (e.move (.lower n)).message = e.message := rfl
  simp only [Failure.report, hmessage]
  rfl

/-- If the first text is a program, then the second is read behind it and a newline as it is alone: its
declarations follow, so many lines further down as the first takes, and an error in it is reported by the same
stage with the same message, in the same column and so many lines further down. -/
theorem program_append {a b : String} {p : Program} (ha : program a = .ok p) :
    (∀ q, program b = .ok q →
      program (a ++ "\n" ++ b) = .ok (p ++ q.move (.lower (a.toList.count '\n' + 1)))) ∧
    ∀ f, program b = .error f → ∃ g, program (a ++ "\n" ++ b) = .error g ∧
      g.report = f.report.lower (a.toList.count '\n' + 1) := by
  obtain ⟨ks, hks, hp⟩ := program_eq_ok ha
  have hscan := Token.scan_append hks b
  generalize a.toList.count '\n' + 1 = n at hscan ⊢
  cases hb : Token.scan b with
  | error e =>
    have hprogram : program b = .error (.lexical e) := by
      rw [program, lexemes, hb]
      rfl
    have happend : program (a ++ "\n" ++ b) = .error (.lexical (e.move (.lower n))) := by
      rw [program, lexemes, hscan, hb]
      rfl
    rw [hprogram, happend]
    refine ⟨fun q hq => (nomatch hq), fun f hf => ?_⟩
    cases hf
    exact ⟨_, rfl, report_lexical_move e⟩
  | ok ls =>
    have hparse := Program.ofLexemes_append (.lower n) (Token.scanned_of_scan hks) hp
      (Token.scanned_of_scan hb)
    have hprogram : program b = (Program.ofLexemes ls).mapError .syntactic := by
      rw [program, lexemes, hb]
      rfl
    have happend : program (a ++ "\n" ++ b) =
        (Program.ofLexemes (ks.dropLast ++ ls.map (Lexeme.move (.lower n)))).mapError .syntactic := by
      rw [program, lexemes, hscan, hb]
      rfl
    rw [hprogram, happend, hparse]
    cases Program.ofLexemes ls with
    | error e =>
      refine ⟨fun q hq => (nomatch hq), fun f hf => ?_⟩
      cases hf
      exact ⟨_, rfl, report_syntactic_move e⟩
    | ok q =>
      refine ⟨fun r hr => ?_, fun f hf => (nomatch hf)⟩
      cases hr
      rfl

/-- A comment ends with the text in front, and the error behind it is put two lines further down. -/
theorem program_append_commented : ∃ p q f g, program "f();\n// (" = .ok p ∧ program "g();" = .ok q ∧
    program "f();\n// (\ng();" = .ok (p ++ q.move (.lower 2)) ∧ program "(g();" = .error f ∧
    program "f();\n// (\n(g();" = .error g ∧ g.report = f.report.lower 2 := by
  obtain ⟨p, hp⟩ := Except.isSome_toOption (x := program "f();\n// (") (by decide +kernel)
  obtain ⟨q, hq⟩ := Except.isSome_toOption (x := program "g();") (by decide +kernel)
  have hnone : (program "(g();").toOption.isSome = false := by decide +kernel
  obtain ⟨hok, herror⟩ := program_append (b := "g();") hp
  cases hf : program "(g();" with
  | ok r => rw [hf] at hnone; cases hnone
  | error f =>
    obtain ⟨g, hg, hreport⟩ := (program_append hp).2 f hf
    exact ⟨p, q, f, g, hp, hq, hok q hq, rfl, hg, hreport⟩

end Source

end Labyrinth
