import Condy.Lib.Links

/-!
# Condy.Lib.Chain — singly linked sequences in a memory of links

`Chained h xs`: along `xs` every node points to the one behind it, and the last one points nowhere.  `Chained.append`
joins two sequences, for any memory that differs from the old one in the link of the first sequence's end.
-/

namespace Condy.Lib

variable {N : Type*} {h h' : N → Option N} {xs ys as bs : List N} {x : N}

/-- Every node of `xs` points to the node behind it. -/
def Chained (h : N → Option N) (xs : List N) : Prop := ∀ as x bs, xs = as ++ x :: bs → h x = bs.head?

theorem chained_nil : Chained h [] := by
  intro as x bs he
  exact absurd he.symm (by simp)

theorem chained_singleton (hx : h x = none) : Chained h [x] := by
  intro as y bs he
  obtain ⟨rfl, rfl, rfl⟩ : as = [] ∧ y = x ∧ bs = [] := by
    cases as <;> simp_all
  exact hx

theorem Chained.frame (hl : Chained h xs) (hx : ∀ x ∈ xs, h' x = h x) : Chained h' xs := by
  rintro as x bs rfl
  rw [hx x (by simp)]
  exact hl as x bs rfl

theorem Chained.head (hl : Chained h (x :: xs)) : h x = xs.head? := hl [] x xs rfl

theorem Chained.tail (hl : Chained h (x :: xs)) : Chained h xs := by
  rintro as y bs rfl
  exact hl (x :: as) y bs rfl

/-- Joining two sequences: the end of the first one points to the head of the second. -/
theorem Chained.append [DecidableEq N] (hl : Chained h xs) (hl' : Chained h' ys) (hnd : xs.Nodup)
    (hx : ∀ x ∈ xs, h' x = if xs.getLast? = some x then ys.head? else h x) : Chained h' (xs ++ ys) := by
  intro as x bs heq
  rcases List.append_eq_append_iff.mp heq with ⟨es, rfl, hy⟩ | ⟨es, rfl, hy⟩
  · exact hl' es x bs hy
  · cases es with
    | nil => exact hl' [] x bs hy.symm
    | cons e es =>
      obtain ⟨rfl, rfl⟩ : x = e ∧ bs = es ++ ys := by simpa using hy
      rw [hx x (by simp)]
      cases es with
      | nil => simp
      | cons b es =>
        rw [if_neg (getLast?_ne_inner as hnd), hl as x (b :: es) rfl]
        rfl

end Condy.Lib
