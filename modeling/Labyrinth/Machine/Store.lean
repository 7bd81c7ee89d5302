import Labyrinth.Machine.Value

/-!
# Variables

All functions share one store. It keeps its variables in the order in which they were first
written.
-/

namespace Labyrinth

structure Store where
  entries : List (String × Value)

namespace Store

def empty : Store := ⟨[]⟩

def get? (s : Store) (name : String) : Option Value :=
  s.entries.lookup name

/-- The entries with a value for a name, in its place or at the end. -/
def write (name : String) (v : Value) : List (String × Value) → List (String × Value)
  | [] => [(name, v)]
  | (n, w) :: es => if n = name then (n, v) :: es else (n, w) :: write name v es

def set (s : Store) (name : String) (v : Value) : Store :=
  ⟨write name v s.entries⟩

theorem lookup_cons_eq (m n : String) (w : Value) (es : List (String × Value)) :
    ((m, w) :: es).lookup n = if n = m then some w else es.lookup n := by
  by_cases h : n = m
  · simp [h]
  · simp [h, List.lookup_cons, beq_eq_false_iff_ne.2 h]

theorem lookup_write (name : String) (v : Value) (es : List (String × Value)) (n : String) :
    (write name v es).lookup n = if n = name then some v else es.lookup n := by
  induction es with
  | nil => rw [write, lookup_cons_eq]
  | cons e es ih =>
    obtain ⟨m, w⟩ := e
    by_cases hm : m = name
    · subst hm
      by_cases h : n = m <;> simp [write, lookup_cons_eq, h]
    · by_cases h : n = m
      · subst h
        simp [write, hm]
      · simp [write, lookup_cons_eq, hm, h, ih]

theorem get?_set (s : Store) (name : String) (v : Value) (n : String) :
    (s.set name v).get? n = if n = name then some v else s.get? n :=
  lookup_write name v s.entries n

end Store

end Labyrinth
