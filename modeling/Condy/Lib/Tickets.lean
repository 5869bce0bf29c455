import Mathlib.Data.List.Basic
import Mathlib.Data.List.Nodup
import Mathlib.Tactic.Common

/-!
# Condy.Lib.Tickets — first come, first served, with refusals and withdrawals

`Ordered order skip live` relates three lists of request ids: `order` holds the requests in the order in which they
were made, `skip` those that were refused or withdrawn, and `live` is what remains of `order` without them, still in
order.  A queue that keeps this relation between its requests and what it has served and still holds has lost,
duplicated and overtaken nothing.
-/

namespace Condy.Lib

variable {ι : Type*} [DecidableEq ι]

omit [DecidableEq ι] in
theorem nodup_snoc {l : List ι} {a : ι} (h : l.Nodup) (ha : a ∉ l) : (l ++ [a]).Nodup := by
  rw [← List.concat_eq_append]
  exact h.concat ha

/-- What holds for a list and for one more element at its end. -/
theorem forall_mem_snoc {α : Type*} {p : α → Prop} {l : List α} {a : α} (h : ∀ x ∈ l, p x) (ha : p a) :
    ∀ x ∈ l ++ [a], p x := by
  intro x hx
  rcases List.mem_append.mp hx with hx | hx
  · exact h x hx
  · rw [List.mem_singleton.mp hx]
    exact ha

/-- The element at an index and the list without it. -/
theorem split_getElem? {α : Type*} {l : List α} {j : ℕ} {x : α} (h : l[j]? = some x) :
    ∃ as bs, l = as ++ x :: bs ∧ l.eraseIdx j = as ++ bs ∧ as.length = j := by
  obtain ⟨hj, rfl⟩ := List.getElem?_eq_some_iff.mp h
  refine ⟨l.take j, l.drop (j + 1), ?_, List.eraseIdx_eq_take_drop_succ l j, List.length_take_of_le (Nat.le_of_lt hj)⟩
  rw [List.getElem_cons_drop, List.take_append_drop]

/-- Where an element stands in a list that was extended at the end. -/
theorem snoc_split {α : Type*} {l pre post : List α} {e x : α} (h : l ++ [e] = pre ++ x :: post) :
    (post = [] ∧ l = pre ∧ e = x) ∨ ∃ post', post = post' ++ [e] ∧ l = pre ++ x :: post' := by
  rcases List.eq_nil_or_concat post with rfl | ⟨post', y, rfl⟩
  · obtain ⟨h1, h2⟩ := List.append_inj' h rfl
    exact .inl ⟨rfl, h1, (List.cons.inj h2).1⟩
  · have h' : l ++ [e] = (pre ++ x :: post') ++ [y] := by simpa using h
    obtain ⟨h1, h2⟩ := List.append_inj' h' rfl
    obtain rfl := (List.cons.inj h2).1
    exact .inr ⟨post', by simp, h1⟩

/-- `live` is `order` without the members of `skip`. -/
structure Ordered (order skip live : List ι) : Prop where
  nodup : order.Nodup
  sub : skip ⊆ order
  live_eq : live = order.filter (fun r => decide (r ∉ skip))

namespace Ordered

variable {order skip live a b : List ι} {r : ι}

theorem init : Ordered ([] : List ι) [] [] := ⟨List.nodup_nil, List.Subset.refl _, rfl⟩

theorem live_nodup (h : Ordered order skip live) : live.Nodup := by
  rw [h.live_eq]
  exact h.nodup.filter _

theorem mem_live (h : Ordered order skip live) : r ∈ live ↔ r ∈ order ∧ r ∉ skip := by
  rw [h.live_eq, List.mem_filter, decide_eq_true_eq]

/-- A new request that is accepted goes to the end. -/
theorem arrive (h : Ordered order skip live) (hr : r ∉ order) :
    Ordered (order ++ [r]) skip (live ++ [r]) := by
  have hs : r ∉ skip := fun hs => hr (h.sub hs)
  refine ⟨nodup_snoc h.nodup hr, fun x hx => List.mem_append_left _ (h.sub hx), ?_⟩
  rw [List.filter_append, ← h.live_eq]
  simp [hs]

/-- A new request that is refused leaves the live ones alone. -/
theorem refuse (h : Ordered order skip live) (hr : r ∉ order) :
    Ordered (order ++ [r]) (skip ++ [r]) live := by
  refine ⟨nodup_snoc h.nodup hr, ?_, ?_⟩
  · intro x hx
    rcases List.mem_append.mp hx with hx | hx
    · exact List.mem_append_left _ (h.sub hx)
    · exact List.mem_append_right _ hx
  · rw [List.filter_append, h.live_eq]
    have hold : order.filter (fun x => decide (x ∉ skip ++ [r])) =
        order.filter (fun x => decide (x ∉ skip)) := by
      refine List.filter_congr (fun x hx => ?_)
      have hne : x ≠ r := fun he => hr (he ▸ hx)
      simp [hne]
    rw [hold]
    simp

/-- A live request that is withdrawn disappears; the others keep their order. -/
theorem withdraw (h : Ordered order skip (a ++ r :: b)) : Ordered order (skip ++ [r]) (a ++ b) := by
  have hr : r ∈ order := ((h.mem_live (r := r)).mp (by simp)).1
  have hnd := h.live_nodup
  refine ⟨h.nodup, ?_, ?_⟩
  · intro x hx
    rcases List.mem_append.mp hx with hx | hx
    · exact h.sub hx
    · rw [List.mem_singleton] at hx
      exact hx ▸ hr
  · have hf : order.filter (fun x => decide (x ∉ skip ++ [r])) =
        (order.filter (fun x => decide (x ∉ skip))).filter (fun x => decide (x ≠ r)) := by
      rw [List.filter_filter]
      refine List.filter_congr (fun x _ => ?_)
      simp [and_comm]
    rw [hf, ← h.live_eq, List.filter_append, List.filter_cons_of_neg (by simp)]
    have hmid := List.nodup_middle.mp hnd
    rw [List.nodup_cons, List.mem_append, not_or] at hmid
    obtain ⟨⟨hra, hrb⟩, -⟩ := hmid
    have hkeep : ∀ c : List ι, r ∉ c → c.filter (fun x => decide (x ≠ r)) = c := by
      intro c hc
      refine List.filter_eq_self.mpr (fun x hx => ?_)
      rw [decide_eq_true_eq]
      rintro rfl
      exact hc hx
    rw [hkeep a hra, hkeep b hrb]

/-- Withdrawing from the end part of the live requests, by erasure. -/
theorem withdraw_erase (h : Ordered order skip (a ++ b)) (hr : r ∈ b) :
    Ordered order (skip ++ [r]) (a ++ b.erase r) := by
  obtain ⟨b₁, b₂, hnot, hb, he⟩ := List.exists_erase_eq hr
  rw [he, ← List.append_assoc]
  apply withdraw
  rwa [List.append_assoc, ← hb]

end Ordered

end Condy.Lib
