import Labyrinth.Proofs.Accepted
import Labyrinth.Proofs.Code.Origins
import Labyrinth.Proofs.Listing.Reading
import Labyrinth.Proofs.Scanning.Placement

/-!
# Compiled code is legible

The names in the code of an accepted text are identifiers of the text, names of built-ins and names of
labels; all of them are legible words (`Source.legible_of_compile`).
-/

namespace Labyrinth

/-! ### Names -/

namespace Text

variable {w : List Char}

theorem IsWord.legible (h : IsWord w) : Legible w := by
  have hgraphic {c : Char} (hc : c.isAlphanum ∨ c = '_') : isGraphic c := by
    rcases hc with hc | rfl
    · exact isGraphic_of_isAlphanum hc
    · decide
  obtain ⟨c, cs, rfl, hc, hcs⟩ := h
  refine legible_of_graphic (List.cons_ne_nil c cs) (List.forall_mem_cons.mpr ⟨hgraphic ?_, ?_⟩)
  · exact hc.imp_left fun halpha => by rw [Char.isAlphanum, halpha, Bool.true_or]
  · exact fun d hd => hgraphic (hcs d hd)

theorem legible_labelName (n : Nat) : Legible (labelName n).toList := by
  have hletter : "L".toList = ['L'] := rfl
  rw [labelName, String.toList_append, hletter]
  refine legible_of_graphic (List.cons_ne_nil _ _) (List.forall_mem_cons.mpr ⟨by decide, ?_⟩)
  exact fun c hc => isGraphic_of_isDigit ((isDigits_toString n).2 c hc)

end Text

theorem Builtin.legible_name : ∀ b ∈ table, Text.Legible b.name.toList := by
  have hgraphic : table.all fun b => !b.name.toList.isEmpty && b.name.toList.all Text.isGraphic := by
    decide
  intro b hb
  have hname := List.all_eq_true.mp hgraphic b hb
  simp only [Bool.and_eq_true, Bool.not_eq_true', List.isEmpty_eq_false_iff] at hname
  exact Text.legible_of_graphic hname.1 (List.all_eq_true.mp hname.2)

/-! ### Programs -/

/-- The names of a program are words, and no function has more than `n` parameters. -/
structure Program.Spelled (p : Program) (n : Nat) : Prop where
  declared : ∀ x ∈ p.declared, Text.IsWord x.1.toList
  functions : ∀ f, .function f ∈ p → Text.IsWord f.name.toList
  params : ∀ f, .function f ∈ p → f.params.length ≤ n

namespace Program

variable {p : Program} {n : Nat} {name : String} {sig : Signature} {l : Line}

theorem Spelled.callee (h : p.Spelled n) (hc : p.Callee name sig) : Text.Legible name.toList := by
  cases hc with
  | builtin hb => exact Builtin.legible_name _ hb
  | function hf _ => exact (h.functions _ (mem_of_mem_functionsFrom hf)).legible

theorem Spelled.length_lt (h : p.Spelled n) (hn : n < UInt64.size) (hc : p.Callee name sig) :
    sig.params.length < UInt64.size := by
  have hbuiltin : ∀ b ∈ Builtin.table, b.signature.params.length < UInt64.size := by decide
  cases hc with
  | builtin hb => exact hbuiltin _ hb
  | @function Γ f hf _ =>
    have hle := h.params f (mem_of_mem_functionsFrom hf)
    rw [Function.signature, List.length_map]
    omega

/-- The lines of a program whose names are words have legible instructions. -/
theorem Spelled.legible (h : p.Spelled n) (hn : n < UInt64.size) (hl : l.Made p) :
    l.instruction.Legible := by
  cases hl with
  | load hd | store hd =>
    exact ⟨List.forall_mem_singleton.mpr (h.declared _ hd).legible, List.forall_mem_nil _⟩
  | branch k | jump k | label k =>
    exact ⟨List.forall_mem_singleton.mpr (Text.legible_labelName k), List.forall_mem_nil _⟩
  | call hc hargc _ _ =>
    constructor
    case names => exact List.forall_mem_singleton.mpr (h.callee hc)
    case counts => exact List.forall_mem_singleton.mpr (hargc ▸ h.length_lt hn hc)
  | @func f hc =>
    have hcount : f.params.length < UInt64.size := by
      simpa [Function.signature] using h.length_lt hn hc
    exact ⟨List.forall_mem_singleton.mpr (h.callee hc), List.forall_mem_singleton.mpr hcount⟩
  | unary o _ => cases o <;> exact ⟨List.forall_mem_nil _, List.forall_mem_nil _⟩
  | _ => exact ⟨List.forall_mem_nil _, List.forall_mem_nil _⟩

end Program

/-! ### Accepted texts -/

namespace Source

open Grammar

variable {source : String} {p : Program} {code : Code}

theorem spelled_of_checked (h : checked source = .ok p) : p.Spelled source.length := by
  obtain ⟨ls, ⟨hscan, hread⟩, -⟩ := checked_eq_ok h
  obtain ⟨body, i, rfl, hp, -⟩ := Program.sentence_of_ofLexemes (Token.scanned_of_scan hscan) hread
  have hlaid := Token.laid_of_scan hscan
  have hword {ts : List Lexeme} (hts : ts <:+: body) {name : String} (hname : Names ts name) :
      Text.IsWord name.toList := by
    obtain ⟨j, hj⟩ := hname
    exact hlaid.isWord (List.mem_append_left _ (hts.subset hj))
  have hlength : body.length ≤ source.length := by
    have hle := hlaid.length_le
    rw [List.length_append, List.length_singleton, String.length_toList] at hle
    omega
  have hfunction {f : Function} (hf : .function f ∈ p) : ∃ ts, ts <:+: body ∧ Definition ts f := by
    obtain ⟨ts, hts, hd⟩ := hp.exists_of_mem hf
    cases hd with
    | function hf => exact ⟨ts, hts, hf⟩
  constructor
  case declared =>
    intro x hx
    obtain ⟨d, hd, hx⟩ := List.mem_flatMap.mp hx
    obtain ⟨ts, hts, hd⟩ := hp.exists_of_mem hd
    exact hword hts (hd.names x hx)
  case functions =>
    intro f hf
    obtain ⟨ts, hts, hf⟩ := hfunction hf
    exact hword hts hf.names.1
  case params =>
    intro f hf
    obtain ⟨ts, hts, hf⟩ := hfunction hf
    exact hf.names.2.2.trans (hts.length_le.trans hlength)

/-- The code of an accepted text is legible. A text of `2 ^ 64` characters does not fit into memory. -/
theorem legible_of_compile (hc : compile source = .ok code) (hlen : source.length < UInt64.size) :
    code.Legible := by
  obtain ⟨p, hp, -⟩ := Except.bind_eq_ok.mp hc
  obtain ⟨ls, hls, rfl⟩ := exists_coded hp hc
  refine List.forall_mem_map.mpr fun l hl => ?_
  exact (spelled_of_checked hp).legible hlen (Program.CodedFrom.made hls l hl)

end Source

end Labyrinth
