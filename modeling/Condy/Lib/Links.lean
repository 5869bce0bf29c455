import Mathlib.Data.List.Basic
import Mathlib.Data.List.Nodup
import Mathlib.Tactic.Common

/-!
# Condy.Lib.Links — doubly linked sequences in a memory of links

A memory gives every node two links.  `Linked h xs`: along `xs` every node points to its two neighbours, and the two
ends point nowhere.  `Linked.snoc` appends a node and `Linked.erase` takes one out, wherever it stands; both are about
any memory that differs from the old one in the right links.
-/

namespace Condy.Lib

structure Link (N : Type*) where
  next : Option N
  prev : Option N
  deriving DecidableEq

variable {N : Type*} {h h' : N → Link N} {xs as bs : List N} {x w e : N}

/-- Every node of `xs` points to the node behind it and to the one before it. -/
def Linked (h : N → Link N) (xs : List N) : Prop :=
  ∀ as x bs, xs = as ++ x :: bs → h x = ⟨bs.head?, as.getLast?⟩

theorem linked_nil : Linked h [] := by
  intro as x bs he
  exact absurd he.symm (by simp)

theorem Linked.mid (hl : Linked h (as ++ x :: bs)) : h x = ⟨bs.head?, as.getLast?⟩ := hl as x bs rfl

theorem Linked.frame (hl : Linked h xs) (hx : ∀ x ∈ xs, h' x = h x) : Linked h' xs := by
  rintro as x bs rfl
  rw [hx x (by simp)]
  exact hl.mid

/-- A node with another one behind it is not the last. -/
theorem getLast?_ne_inner (as : List N) {b : N} (hnd : (as ++ x :: b :: bs).Nodup) :
    ¬ (as ++ x :: b :: bs).getLast? = some x := by
  have hlast : (as ++ x :: b :: bs).getLast? = (b :: bs).getLast? := by
    simp [List.getLast?_append, List.getLast?_cons]
  rw [hlast]
  intro hm
  have hmem : x ∈ b :: bs := List.mem_of_getLast? hm
  have hnd' := (List.nodup_append.mp hnd).2.1
  exact (List.nodup_cons.mp hnd').1 hmem

section

variable [DecidableEq N]

/-- Appending `e`: it points back to the old end, and the old end points to it. -/
theorem Linked.snoc (hl : Linked h xs) (hnd : xs.Nodup) (he : h' e = ⟨none, xs.getLast?⟩)
    (hx : ∀ x ∈ xs, h' x = ⟨if xs.getLast? = some x then some e else (h x).next, (h x).prev⟩) :
    Linked h' (xs ++ [e]) := by
  intro as x bs hxs
  rcases List.eq_nil_or_concat bs with rfl | ⟨bs', b, rfl⟩
  · -- the new node
    obtain ⟨rfl, hex⟩ := List.append_inj' hxs rfl
    obtain rfl : e = x := by simpa using hex
    exact he
  · rw [List.concat_eq_append] at hxs ⊢
    rw [← List.cons_append, ← List.append_assoc] at hxs
    obtain ⟨rfl, hb⟩ := List.append_inj' hxs rfl
    obtain rfl : e = b := by simpa using hb
    rw [hx x (by simp), hl.mid]
    cases bs' with
    | nil => simp
    | cons b' bs'' =>
      rw [if_neg (getLast?_ne_inner as hnd)]
      simp

/-- Taking `w` out: its two neighbours now point to each other. -/
theorem Linked.erase (hl : Linked h (as ++ w :: bs)) (hnd : (as ++ w :: bs).Nodup)
    (hx : ∀ x ∈ as ++ bs, h' x = ⟨if as.getLast? = some x then bs.head? else (h x).next,
      if bs.head? = some x then as.getLast? else (h x).prev⟩) : Linked h' (as ++ bs) := by
  have hdisj : ∀ y ∈ as, y ∉ bs := by
    intro y hya hyb
    exact (List.nodup_append.mp hnd).2.2 y hya y (by simp [hyb]) rfl
  have hnda : as.Nodup := (List.nodup_append.mp hnd).1
  have hndb : bs.Nodup := (List.nodup_cons.mp (List.nodup_append.mp hnd).2.1).2
  -- a node behind `w`
  have hright : ∀ es x ds, bs = es ++ x :: ds → h' x = ⟨ds.head?, (as ++ es).getLast?⟩ := by
    rintro es x ds rfl
    have hold : h x = ⟨ds.head?, (as ++ w :: es).getLast?⟩ := by
      refine hl _ x ds ?_
      simp
    have hnl : ¬ as.getLast? = some x := fun hm => hdisj x (List.mem_of_getLast? hm) (by simp)
    rw [hx x (by simp), if_neg hnl, hold]
    cases es with
    | nil => simp
    | cons e' es' =>
      have hne : ¬ ((e' :: es') ++ x :: ds).head? = some x := by
        intro hm
        obtain rfl : e' = x := by simpa using hm
        simp at hndb
      rw [if_neg hne]
      simp [List.getLast?_append, List.getLast?_cons]
  -- a node before `w`
  have hleft : ∀ cs x es, as = cs ++ x :: es → h' x = ⟨(es ++ bs).head?, cs.getLast?⟩ := by
    rintro cs x es rfl
    have hold : h x = ⟨(es ++ w :: bs).head?, cs.getLast?⟩ := by
      refine hl cs x _ ?_
      simp
    have hnh : ¬ bs.head? = some x := fun hm => hdisj x (by simp) (List.mem_of_head? hm)
    rw [hx x (by simp), if_neg hnh, hold]
    cases es with
    | nil => simp
    | cons e' es' =>
      rw [if_neg (getLast?_ne_inner cs hnda)]
      simp
  intro cs x ds hcd
  rcases List.append_eq_append_iff.mp hcd with ⟨es, rfl, hb⟩ | ⟨es, rfl, hb⟩
  · exact hright es x ds hb
  · cases es with
    | nil =>
      rw [List.nil_append] at hb
      simpa using hright [] x ds hb.symm
    | cons e' es' =>
      obtain ⟨rfl, rfl⟩ : x = e' ∧ ds = es' ++ bs := by simpa using hb
      exact hleft cs x es' rfl

end

end Condy.Lib
