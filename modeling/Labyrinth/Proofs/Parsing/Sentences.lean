import Labyrinth.Proofs.Accepted
import Labyrinth.Proofs.Parsing.Completeness

/-!
# The parser reads the sentences of the grammar

What is read of a source text is what its tokens derive, and what they derive is read up to the limits of
nesting and of literals (`Source.reads_sentences`).
-/

namespace Labyrinth

variable {ls body : List Lexeme} {p : Program}

theorem Scanned.exists_body (h : Scanned ls) :
    ∃ body i, ls = body ++ [⟨.endOfInput, i⟩] ∧ ∀ l ∈ body, l.token.Regular := by
  induction h with
  | @last i => exact ⟨[], i, rfl, nofun⟩
  | @cons l ls hl _ ih =>
    obtain ⟨body, i, rfl, hbody⟩ := ih
    exact ⟨l :: body, i, rfl, List.forall_mem_cons.mpr ⟨hl, hbody⟩⟩

namespace Program

theorem ofLexemes_of_sentence {i : Location} (h : Grammar.Sentence body p) :
    ofLexemes (body ++ [⟨.endOfInput, i⟩]) = .ok p ∨
      ∃ e, ofLexemes (body ++ [⟨.endOfInput, i⟩]) = .error e ∧ Limit body e := by
  have hmeets := Parser.reads_program h (i := i) (by simp) { lexemes := _ } rfl
  unfold Parser.Meets at hmeets
  unfold ofLexemes
  split at hmeets
  · next q t hq => exact .inl (by rw [hq, hmeets.1])
  · next e t he => exact .inr ⟨e, by rw [he], hmeets⟩

end Program

namespace Source

/-- The tokens in front of the end of input derive what is read of a source text, and their literals are
in range. If they derive a program, then it is read, or there is a limit that is met. -/
theorem reads_sentences {source : String} (h : Token.scan source = .ok ls) :
    ∃ body i, ls = body ++ [⟨.endOfInput, i⟩] ∧ (∀ l ∈ body, l.token.Regular) ∧
      (∀ p, Program.ofLexemes ls = .ok p →
        Grammar.Sentence body p ∧ ∀ l ∈ body, l.token.Ranged) ∧
      ∀ p, Grammar.Sentence body p → Program.ofLexemes ls = .ok p ∨
        ∃ e, Program.ofLexemes ls = .error e ∧ Limit body e := by
  have hls := Token.scanned_of_scan h
  obtain ⟨body, i, rfl, hbody⟩ := hls.exists_body
  refine ⟨body, i, rfl, hbody, fun p hp => ?_, fun p hp => Program.ofLexemes_of_sentence hp⟩
  obtain ⟨body', i', he, hsentence⟩ := Program.sentence_of_ofLexemes hls hp
  obtain rfl := List.append_inj_left' he rfl
  exact hsentence

theorem reads_sentences_sample : ∃ ls body i p, Token.scan sample = .ok ls ∧
    ls = body ++ [⟨.endOfInput, i⟩] ∧ Program.ofLexemes ls = .ok p ∧ Grammar.Sentence body p := by
  obtain ⟨p, hp⟩ := Except.isSome_toOption (x := program sample) (by decide +kernel)
  obtain ⟨ls, hls, hread⟩ := Except.bind_eq_ok.mp hp
  have hls := Except.mapError_eq_ok.mp hls
  have hread := Except.mapError_eq_ok.mp hread
  obtain ⟨body, i, he, -, hok, -⟩ := reads_sentences hls
  exact ⟨ls, body, i, p, hls, he, hread, (hok p hread).1⟩

end Source

end Labyrinth
