import Labyrinth.Proofs.Listing.Compiled

/-!
# Listings round-trip

A code whose names are legible is read back from its listing, and so is all code that a compiler or a
listing gives (`Code.ofListing_listing`).
-/

namespace Labyrinth

namespace Code

variable {source : String} {code : Code}

theorem read_eq_ok (h : ofListing code.listing = .ok code) : read code.listing = .ok code := by
  rw [read, h]
  rfl

/-- To run the listing of a text is to run the text. -/
theorem run_read_listing (hc : Source.compile source = .ok code)
    (h : ofListing code.listing = .ok code) (maze : Maze) (settings : Settings) :
    (do ((← read code.listing).run maze settings).mapError .fault) =
      Source.run source maze settings := by
  rw [Source.run, hc, read_eq_ok h]

/-- The listing of a code is read as the code, provided that its doubles are read back: for any code whose
names have a character, no blanks and no two slashes in a row and whose counts fit into 64 bits; for the
code of any accepted text, so that its listing runs as the text does; and for any code that was read from a
listing, however that is written. -/
theorem ofListing_listing :
    (∀ code : Code, code.Legible → code.FloatsRead → ofListing code.listing = .ok code) ∧
    (∀ (source : String) (code : Code), source.length < UInt64.size →
      Source.compile source = .ok code → code.FloatsRead →
        ofListing code.listing = .ok code ∧ ∀ maze settings,
          (do ((← read code.listing).run maze settings).mapError .fault) =
            Source.run source maze settings) ∧
    ∀ (text : String) (code : Code), ofListing text = .ok code → code.FloatsRead →
      ofListing code.listing = .ok code := by
  refine ⟨fun code => ofListing_of_legible, ?_, ?_⟩
  · intro source code hlen hc hfloats
    have hread := ofListing_of_legible (Source.legible_of_compile hc hlen) hfloats
    exact ⟨hread, run_read_listing hc hread⟩
  · intro text code htext hfloats
    exact ofListing_of_legible (legible_of_ofListing htext) hfloats

/-- Names with slashes and letters beyond ASCII, NaN, a compiled literal, and a listing with comments, spare
blanks and numbers that are spelled in other ways. -/
theorem ofListing_listing_spellings :
    (∃ code : Code, code.listing = "LABEL /\nPUSH_FLOAT 0.1\nPUSH_FLOAT NaN\nCALL größe/ 3\n" ∧
      ofListing code.listing = .ok code) ∧
    (∃ code, Source.compile "func float main() { return 2.50; }" = .ok code ∧
      code.listing = "FUNC main 0\nPUSH_FLOAT 2.5\nRET\nEND\n" ∧
      ofListing code.listing = .ok code) ∧
    ∃ code,
      ofListing "// start\r\n PUSH_FLOAT\t1e-1 // x\n\nCALL f +07\nPUSH_FLOAT nan\n" = .ok code ∧
      code.listing = "PUSH_FLOAT 0.1\nCALL f 7\nPUSH_FLOAT NaN\n" ∧
      ofListing code.listing = .ok code := by
  obtain ⟨hlegible, hcompiled, hread⟩ := ofListing_listing
  refine ⟨⟨[.label "/", .pushFloat 0.1, .pushFloat (0.0 / 0.0), .call "größe/" 3], ?_, ?_⟩, ?_, ?_⟩
  · decide +kernel
  · exact hlegible _ (by decide +kernel) (by decide +kernel)
  · obtain ⟨code, hc, h⟩ := Except.any_toOption
      (x := Source.compile "func float main() { return 2.50; }") (q := fun code =>
        code.FloatsRead && code.listing = "FUNC main 0\nPUSH_FLOAT 2.5\nRET\nEND\n")
      (by decide +kernel)
    simp only [Bool.and_eq_true, decide_eq_true_eq] at h
    exact ⟨code, hc, h.2, (hcompiled _ code (by decide) hc h.1).1⟩
  · obtain ⟨code, hc, h⟩ := Except.any_toOption
      (x := ofListing "// start\r\n PUSH_FLOAT\t1e-1 // x\n\nCALL f +07\nPUSH_FLOAT nan\n")
      (q := fun code =>
        code.FloatsRead && code.listing = "PUSH_FLOAT 0.1\nCALL f 7\nPUSH_FLOAT NaN\n")
      (by decide +kernel)
    simp only [Bool.and_eq_true, decide_eq_true_eq] at h
    exact ⟨code, hc, h.2, hread _ code hc h.1⟩

end Code

end Labyrinth
