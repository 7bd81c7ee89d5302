/-!
# Pieces of a text

`pieces` cuts a text at its separators, which belong to no piece.
-/

namespace Labyrinth.Text

/-- What stands between the separators of a text; there is always at least one piece. -/
def pieces (sep : Char → Bool) : List Char → List (List Char)
  | [] => [[]]
  | c :: cs =>
    if sep c then [] :: pieces sep cs
    else match pieces sep cs with
      | [] => [[c]]
      | p :: ps => (c :: p) :: ps

theorem pieces_ne_nil (sep : Char → Bool) (cs : List Char) : pieces sep cs ≠ [] := by
  cases cs with
  | nil => simp [pieces]
  | cons c cs =>
    rw [pieces]
    split
    · simp
    · split <;> simp

/-- A piece holds no separator. -/
theorem not_sep_of_mem_pieces {sep : Char → Bool} {cs p : List Char} {c : Char}
    (hp : p ∈ pieces sep cs) (hc : c ∈ p) : sep c = false := by
  induction cs generalizing p with
  | nil =>
    obtain rfl : p = [] := by simpa [pieces] using hp
    simp at hc
  | cons d ds ih =>
    rw [pieces] at hp
    split at hp
    · rcases List.mem_cons.1 hp with rfl | hp
      · simp at hc
      · exact ih hp hc
    · next hd =>
      split at hp
      · next h => exact absurd h (pieces_ne_nil sep ds)
      · next q qs h =>
        rw [h] at ih
        rcases List.mem_cons.1 hp with rfl | hp
        · rcases List.mem_cons.1 hc with rfl | hc
          · simpa using hd
          · exact ih List.mem_cons_self hc
        · exact ih (List.mem_cons_of_mem q hp) hc

end Labyrinth.Text
