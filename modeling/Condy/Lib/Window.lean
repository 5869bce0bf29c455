import Mathlib.Data.List.Basic
import Mathlib.Data.Nat.Bitwise
import Mathlib.Data.Nat.ModEq
import Mathlib.Logic.Function.Basic
import Mathlib.Tactic.Common

/-!
# Condy.Lib.Window — the live window of a ring of slots

A ring of `cap` slots is read and written at positions counted from the start of time; position `i` lives in slot
`i % cap`.  `Window slots cap hd xs` says that the positions `hd, hd + 1, …` hold the entries of `xs`, and
`Vacant slots cap hd n` that every slot outside the `n` positions from `hd` on is empty.

The counters of the program are machine words.  `wrap_sub` recovers the number of entries from two wrapped counters,
and `masked_index` the slot from a wrapped counter and a power-of-two mask.
-/

namespace Condy.Lib

/-! ## Wrapped counters -/

/-- Subtraction of wrapped counters gives their distance when that fits the word. -/
theorem wrap_sub {W a n : ℕ} (hn : n < W) : ((a + n) % W + W - a % W) % W = n := by
  have hW : 0 < W := by omega
  have hr : a % W < W := Nat.mod_lt a hW
  have hadd : (a + n) % W = (a % W + n) % W := by rw [Nat.mod_add_mod]
  rw [hadd]
  by_cases hc : a % W + n < W
  · rw [Nat.mod_eq_of_lt hc, show a % W + n + W - a % W = n + W by omega, Nat.add_mod_right,
      Nat.mod_eq_of_lt hn]
  · have h1 : (a % W + n) % W = a % W + n - W := by
      rw [Nat.mod_eq_sub_mod (by omega), Nat.mod_eq_of_lt (by omega)]
    rw [h1, show a % W + n - W + W - a % W = n by omega, Nat.mod_eq_of_lt hn]

/-- The distance of two wrapped positions. -/
theorem wrap_dist {W hd a b : ℕ} (hab : a ≤ b) (hW : b - a < W) : ((hd + b) % W + W - (hd + a) % W) % W = b - a := by
  rw [show hd + b = hd + a + (b - a) by omega]
  exact wrap_sub hW

theorem wrap_add_one {W a : ℕ} : (a % W + 1) % W = (a + 1) % W := Nat.mod_add_mod a W 1

/-- A mask of a power of two picks the slot of the unwrapped position. -/
theorem masked_index {k w : ℕ} (hk : k ≤ w) (i : ℕ) :
    (i % 2 ^ w) &&& (2 ^ k - 1) = i % 2 ^ k := by
  rw [Nat.and_two_pow_sub_one_eq_mod, Nat.mod_mod_of_dvd i (Nat.pow_dvd_pow 2 hk)]

/-- The same for a ring of `n` slots with its mask. -/
theorem masked_slot {w n mask : ℕ} (hn : ∃ k ≤ w, n = 2 ^ k) (hm : mask = n - 1) (i : ℕ) :
    (i % 2 ^ w) &&& mask = i % n := by
  obtain ⟨k, hk, rfl⟩ := hn
  rw [hm]
  exact masked_index hk i

/-! ## Windows -/

variable {β : Type*}

/-- The positions `hd, hd + 1, …` hold the entries of `xs`. -/
def Window (slots : ℕ → β) (cap hd : ℕ) (xs : List β) : Prop :=
  ∀ i (h : i < xs.length), slots ((hd + i) % cap) = xs[i]

/-- Every slot outside the `n` positions from `hd` on is empty. -/
def Vacant (slots : ℕ → Option β) (cap hd n : ℕ) : Prop :=
  ∀ j, (∀ i < n, (hd + i) % cap ≠ j) → slots j = none

/-- Two positions less than one turn apart live in different slots. -/
theorem index_inj {cap hd i j : ℕ} (hi : i < cap) (hj : j < cap)
    (h : (hd + i) % cap = (hd + j) % cap) : i = j := by
  have h' : i ≡ j [MOD cap] := Nat.ModEq.add_left_cancel' hd h
  exact Nat.ModEq.eq_of_lt_of_lt h' hi hj

variable {slots : ℕ → β} {cap hd : ℕ} {xs : List β} {x : β}

theorem window_nil : Window slots cap hd [] := fun _ h => absurd h (by simp)

/-- A write outside the window keeps it. -/
theorem Window.update_out (h : Window slots cap hd xs) {j : ℕ}
    (hj : ∀ i < xs.length, (hd + i) % cap ≠ j) : Window (Function.update slots j x) cap hd xs := by
  intro i hi
  rw [Function.update_of_ne (hj i hi)]
  exact h i hi

/-- The slot after the window is free while the window is shorter than the ring. -/
theorem next_not_in_window {n : ℕ} (hn : n < cap) : ∀ i < n, (hd + i) % cap ≠ (hd + n) % cap := by
  intro i hi he
  have := index_inj (by omega) hn he
  omega

/-- The slot after the window belongs to it with what stands there. -/
theorem Window.snoc (h : Window slots cap hd xs) (hx : slots ((hd + xs.length) % cap) = x) :
    Window slots cap hd (xs ++ [x]) := by
  intro i hi
  rw [List.length_append, List.length_singleton] at hi
  by_cases hlt : i < xs.length
  · rw [List.getElem_append_left hlt]
    exact h i hlt
  · have he : i = xs.length := by omega
    subst he
    rw [hx]
    simp

/-- **Push**: writing the slot after the window extends it. -/
theorem Window.push (h : Window slots cap hd xs) (hl : xs.length < cap) :
    Window (Function.update slots ((hd + xs.length) % cap) x) cap hd (xs ++ [x]) :=
  (h.update_out (next_not_in_window hl)).snoc (Function.update_self ..)

theorem Window.head (h : Window slots cap hd (x :: xs)) : slots (hd % cap) = x :=
  h 0 (by simp)

/-- **Pop**: dropping the first position keeps the rest. -/
theorem Window.tail (h : Window slots cap hd (x :: xs)) : Window slots cap (hd + 1) xs := by
  intro i hi
  have h1 := h (i + 1) (by simpa using hi)
  rw [show hd + 1 + i = hd + (i + 1) by omega]
  simpa using h1

/-- Dropping the first `n` positions keeps the rest. -/
theorem Window.drop (h : Window slots cap hd xs) (n : ℕ) : Window slots cap (hd + n) (xs.drop n) := by
  intro i hi
  rw [List.length_drop] at hi
  rw [Nat.add_assoc, List.getElem_drop]
  exact h (n + i) (by omega)

theorem vacant_push {slots : ℕ → Option β} {n : ℕ} {y : Option β} (h : Vacant slots cap hd n) :
    Vacant (Function.update slots ((hd + n) % cap) y) cap hd (n + 1) := by
  intro j hj
  rw [Function.update_of_ne (hj n (by omega)).symm]
  exact h j (fun i hi => hj i (by omega))

theorem vacant_pop {slots : ℕ → Option β} {n : ℕ} (h : Vacant slots cap hd (n + 1)) :
    Vacant (Function.update slots (hd % cap) none) cap (hd + 1) n := by
  intro j hj
  by_cases he : j = hd % cap
  · rw [he, Function.update_self]
  · rw [Function.update_of_ne he]
    refine h j (fun i hi => ?_)
    cases i with
    | zero => exact fun h0 => he h0.symm
    | succ i =>
      have := hj i (by omega)
      rwa [show hd + 1 + i = hd + (i + 1) by omega] at this

end Condy.Lib
