import Labyrinth.Proofs.Code.Elaboration
import Labyrinth.Proofs.Parsing.Soundness
import Labyrinth.Source

/-!
# Accepted source texts

A source text that is compiled is a program that is in order; the lines of that program are the code of
the text.
-/

namespace Labyrinth

namespace Source

variable {source : String} {p : Program} {code : Code}

theorem checked_eq_ok (h : checked source = .ok p) :
    ∃ ls, (Token.scan source = .ok ls ∧ Program.ofLexemes ls = .ok p) ∧ p.check = .ok () := by
  obtain ⟨q, hq, h⟩ := Except.bind_eq_ok.mp h
  obtain ⟨⟨⟩, hc, h⟩ := Except.bind_eq_ok.mp h
  cases h
  obtain ⟨ls, hls, hq⟩ := Except.bind_eq_ok.mp hq
  exact ⟨ls, ⟨Except.mapError_eq_ok.mp hls, Except.mapError_eq_ok.mp hq⟩,
    Except.mapError_eq_ok.mp hc⟩

theorem code_of_compile (hp : checked source = .ok p) (hc : compile source = .ok code) :
    p.code = .ok code := by
  obtain ⟨q, hq, h⟩ := Except.bind_eq_ok.mp hc
  obtain rfl := Except.ok.inj (hp.symm.trans hq)
  exact Except.mapError_eq_ok.mp h

/-- Parameters are not void by the rules of types, and other variables by the grammar. -/
theorem solid_of_checked (h : checked source = .ok p) : p.Solid := by
  obtain ⟨ls, ⟨hscan, hread⟩, hcheck⟩ := checked_eq_ok h
  obtain ⟨body, i, -, hp, -⟩ := Program.sentence_of_ofLexemes (Token.scanned_of_scan hscan) hread
  intro x hx
  obtain ⟨d, hd, hx⟩ := List.mem_flatMap.mp hx
  obtain ⟨ts, -, hts⟩ := hp.exists_of_mem hd
  cases hts with
  | stmt hs => exact (hs.declares x hx).1
  | @function f hf =>
    rcases List.mem_append.mp hx with hx | hx
    · obtain ⟨y, hy, rfl⟩ := List.mem_map.mp hx
      exact Program.params_of_checkFrom hcheck hd y hy
    · cases hf with
      | mk _ hbody => exact (hbody.declares x hx).1

/-- The program of a text that is compiled is in order. -/
theorem exists_coded (hp : checked source = .ok p) (hc : compile source = .ok code) :
    ∃ ls, p.Coded ls ∧ code = Line.code ls :=
  let ⟨_, _, hcheck⟩ := checked_eq_ok hp
  Program.exists_coded hcheck (code_of_compile hp hc)

/-- A text with the kinds of statements and calls that there are. -/
def sample : String :=
  "func float twice(float x) { return x + x; } " ++
  "func int main() { int n = 2; while (n > 0) { n = n - 1; if (is_wall()) { turn_left(); } } print(twice(n + 1)); return n; }"

theorem exists_sample : ∃ p code, checked sample = .ok p ∧ compile sample = .ok code ∧ p.Consistent ∧
    p.Quiet ∧ (∃ g, .function g ∈ p ∧ g.name = "main") ∧
    ∀ g, .function g ∈ p → g.name = "main" → g.params = [] := by
  obtain ⟨p, hp, h⟩ := Except.any_toOption (x := checked sample) (q := fun p =>
    p.Consistent && p.Quiet && ((p.filterMap Decl.function?).any fun g => g.name = "main") &&
      (p.filterMap Decl.function?).all fun g => g.name ≠ "main" || g.params.isEmpty)
    (by decide +kernel)
  obtain ⟨code, hc, -⟩ := Except.any_toOption (q := fun _ => true) (x := compile sample)
    (by decide +kernel)
  simp only [Bool.and_eq_true, decide_eq_true_eq] at h
  obtain ⟨⟨⟨hconsistent, hquiet⟩, hmain⟩, hparams⟩ := h
  refine ⟨p, code, hp, hc, hconsistent, hquiet, ?_, fun g hg hname => ?_⟩
  · obtain ⟨g, hg, hname⟩ := List.any_eq_true.mp hmain
    exact ⟨g, Program.mem_filterMap_function?.mp hg, of_decide_eq_true hname⟩
  · simpa [hname] using List.all_eq_true.mp hparams g (Program.mem_filterMap_function?.mpr hg)

end Source

/-- A maze with room below its start. -/
def Maze.sample : Maze where
  rows := #[#[.start, .goal], #[.free, .free]]
  width := 2
  width_pos := by decide
  height_pos := by decide
  size_row := by decide

end Labyrinth
