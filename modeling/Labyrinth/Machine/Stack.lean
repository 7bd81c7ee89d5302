/-!
# Stacks

A stack knows how many items it holds.
-/

namespace Labyrinth

structure Stack (α : Type) where
  /-- The items, the top first. -/
  items : List α
  size : Nat
  size_eq : size = items.length

namespace Stack

variable {α : Type}

def empty : Stack α := ⟨[], 0, rfl⟩

def push (s : Stack α) (a : α) : Stack α :=
  ⟨a :: s.items, s.size + 1, by simp [s.size_eq]⟩

/-- The top and what is below it. -/
def pop? (s : Stack α) : Option (α × Stack α) :=
  match h : s.items with
  | [] => none
  | a :: as => some (a, ⟨as, s.size - 1, by simp [s.size_eq, h]⟩)

def top? (s : Stack α) : Option α :=
  s.items.head?

@[ext] theorem ext {s t : Stack α} (h : s.items = t.items) : s = t := by
  obtain ⟨as, n, hn⟩ := s
  obtain ⟨bs, m, hm⟩ := t
  obtain rfl : as = bs := h
  obtain rfl : n = m := hn.trans hm.symm
  rfl

@[simp] theorem items_empty : (empty : Stack α).items = [] := rfl

@[simp] theorem items_push (s : Stack α) (a : α) : (s.push a).items = a :: s.items := rfl

theorem pop?_eq_none_iff {s : Stack α} : s.pop? = none ↔ s.items = [] := by
  unfold pop?
  split <;> simp_all

theorem pop?_eq_some_iff {s t : Stack α} {a : α} :
    s.pop? = some (a, t) ↔ s.items = a :: t.items := by
  unfold pop?
  split
  · simp_all
  · next b bs h =>
    simp only [h, Option.some.injEq, Prod.mk.injEq, List.cons.injEq]
    constructor
    · rintro ⟨rfl, rfl⟩
      exact ⟨rfl, rfl⟩
    · rintro ⟨rfl, ht⟩
      exact ⟨rfl, ext ht⟩

end Stack

end Labyrinth
