import Condy.Channel.Model
import Condy.Lib.Window
import Mathlib.Data.List.Induction

/-!
# Condy.Channel.Buffer — the ring buffer of a channel holds a list

`Buf.Holds b hd xs`: the buffer holds the items `xs`, the oldest at position `hd` of an unbounded count.  The words
`head_` and `tail_` are `hd` and `hd + xs.length` modulo `2 ^ 64`, and exactly the slots of these positions are live.
`Holds.push` and `Holds.pop` are the specifications of `push_inner_` and `pop_inner_`.
-/

namespace Condy

open Lib

variable {T : Type}

/-- A capacity the constructor can give: zero, or a power of two that fits a `size_t`. -/
def CapOk (cap : ℕ) : Prop := cap = 0 ∨ ∃ k < 64, cap = 2 ^ k

theorem CapOk.lt {cap : ℕ} (h : CapOk cap) : cap < 2 ^ 64 := by
  rcases h with rfl | ⟨k, hk, rfl⟩
  · decide
  · exact Nat.pow_lt_pow_right (by decide) hk

namespace Buf

/-- The buffer holds `xs`, the oldest item at position `hd`. -/
structure Holds (b : Buf T) (hd : ℕ) (xs : List T) : Prop where
  head : b.head = hd % 2 ^ 64
  tail : b.tail = (hd + xs.length) % 2 ^ 64
  cap : CapOk b.capacity
  len : xs.length ≤ b.capacity
  win : Window b.slots b.capacity hd (xs.map some)
  vac : Vacant b.slots b.capacity hd xs.length

variable {b : Buf T} {hd : ℕ} {xs : List T} {x : T}

namespace Holds

theorem size_eq (h : b.Holds hd xs) : b.size = xs.length := by
  have hlt := h.cap.lt
  have hlen := h.len
  unfold size
  rw [h.head, h.tail]
  exact wrap_sub (by omega)

theorem empty_iff (h : b.Holds hd xs) : b.empty = true ↔ xs = [] := by
  rw [empty, beq_iff_eq, h.size_eq, List.length_eq_zero_iff]

theorem full_iff (h : b.Holds hd xs) : b.full = true ↔ xs.length = b.capacity := by
  rw [full, beq_iff_eq, h.size_eq]

/-- With a buffer, masking a wrapped counter gives the slot of the position. -/
theorem slot_eq (h : b.Holds hd xs) (hpos : 0 < b.capacity) (i : ℕ) :
    (i % 2 ^ 64) &&& b.mask = i % b.capacity := by
  rcases h.cap with h0 | ⟨k, hk, hcap⟩
  · omega
  · have hm : b.mask = 2 ^ k - 1 := by
      have h1 : 2 ^ k < 2 ^ 64 := Nat.pow_lt_pow_right (by decide) hk
      have h2 : 0 < 2 ^ k := Nat.two_pow_pos k
      unfold mask
      rw [hcap, show 2 ^ k + 2 ^ 64 - 1 = 2 ^ k - 1 + 2 ^ 64 by omega, Nat.add_mod_right,
        Nat.mod_eq_of_lt (by omega)]
    rw [hm, hcap]
    exact masked_index (by omega) i

theorem tailIdx_eq (h : b.Holds hd xs) (hpos : 0 < b.capacity) :
    b.tailIdx = (hd + xs.length) % b.capacity := by
  rw [tailIdx, h.tail, h.slot_eq hpos]

theorem headIdx_eq (h : b.Holds hd xs) (hpos : 0 < b.capacity) : b.headIdx = hd % b.capacity := by
  rw [headIdx, h.head, h.slot_eq hpos]

/-- The slot that `push_inner_` constructs in is in range and holds no item. -/
theorem tail_free (h : b.Holds hd xs) (hl : xs.length < b.capacity) :
    b.tailIdx < b.capacity ∧ b.slots b.tailIdx = none := by
  have hpos : 0 < b.capacity := by omega
  rw [h.tailIdx_eq hpos]
  exact ⟨Nat.mod_lt _ hpos, h.vac _ (next_not_in_window hl)⟩

/-- The slot that `pop_inner_` reads is in range and holds the oldest item. -/
theorem head_live (h : b.Holds hd (x :: xs)) :
    b.headIdx < b.capacity ∧ b.slots b.headIdx = some x := by
  have hpos : 0 < b.capacity := lt_of_lt_of_le (by simp) h.len
  rw [h.headIdx_eq hpos]
  have hw := h.win
  rw [List.map_cons] at hw
  exact ⟨Nat.mod_lt _ hpos, hw.head⟩

theorem push (h : b.Holds hd xs) (hl : xs.length < b.capacity) : (b.push x).Holds hd (xs ++ [x]) := by
  have hpos : 0 < b.capacity := by omega
  have hidx := h.tailIdx_eq hpos
  refine ⟨h.head, ?_, h.cap, ?_, ?_, ?_⟩
  · show (b.tail + 1) % 2 ^ 64 = _
    rw [h.tail, wrap_add_one]
    simp [Nat.add_assoc]
  · show (xs ++ [x]).length ≤ b.capacity
    rw [List.length_append, List.length_singleton]
    omega
  · show Window (Function.update b.slots b.tailIdx (some x)) b.capacity hd _
    have hw := h.win.push (x := some x) (by simpa using hl)
    rw [List.length_map, ← hidx] at hw
    simpa using hw
  · show Vacant (Function.update b.slots b.tailIdx (some x)) b.capacity hd _
    rw [hidx, List.length_append, List.length_singleton]
    exact vacant_push h.vac

theorem pop (h : b.Holds hd (x :: xs)) : b.pop.Holds (hd + 1) xs := by
  have hpos : 0 < b.capacity := lt_of_lt_of_le (by simp) h.len
  have hidx := h.headIdx_eq hpos
  have hlen := h.len
  rw [List.length_cons] at hlen
  refine ⟨?_, ?_, h.cap, ?_, ?_, ?_⟩
  · show (b.head + 1) % 2 ^ 64 = _
    rw [h.head, wrap_add_one]
  · show b.tail = _
    rw [h.tail, List.length_cons, show hd + (xs.length + 1) = hd + 1 + xs.length by omega]
  · show xs.length ≤ b.capacity
    omega
  · show Window (Function.update b.slots b.headIdx none) b.capacity (hd + 1) _
    have hw := h.win
    rw [List.map_cons] at hw
    refine hw.tail.update_out (fun i hi => ?_)
    rw [List.length_map] at hi
    rw [hidx, show hd + 1 + i = hd + (i + 1) by omega]
    intro he
    have := index_inj (i := i + 1) (j := 0) (by omega) hpos (by simpa using he)
    omega
  · show Vacant (Function.update b.slots b.headIdx none) b.capacity (hd + 1) _
    rw [hidx]
    exact vacant_pop (by simpa using h.vac)

end Holds

theorem filterMap_range_getElem? (xs : List T) :
    (List.range xs.length).filterMap (fun i => xs[i]?) = xs := by
  induction xs using List.reverseRecOn with
  | nil => rfl
  | append_singleton xs x ih =>
    rw [List.length_append, List.length_singleton, List.range_succ, List.filterMap_append]
    have hold : (List.range xs.length).filterMap (fun i => (xs ++ [x])[i]?) = xs := by
      refine Eq.trans (List.filterMap_congr (fun i hi => ?_)) ih
      rw [List.getElem?_append_left (List.mem_range.mp hi)]
    rw [hold]
    simp

/-- The items read off the slots are the items held. -/
theorem Holds.items_eq (h : b.Holds hd xs) : b.items = xs := by
  unfold items
  rw [h.size_eq]
  refine Eq.trans (List.filterMap_congr (fun i hi => ?_)) (filterMap_range_getElem? xs)
  have hi' := List.mem_range.mp hi
  have hlen := h.len
  rw [h.head, Nat.mod_add_mod, h.slot_eq (by omega), h.win i (by simpa using hi')]
  simp [List.getElem?_eq_getElem hi']

end Buf

end Condy
