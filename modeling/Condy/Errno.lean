import Mathlib.Algebra.Ring.Nat
import Mathlib.Data.Int.Notation
import Mathlib.Data.Nat.Notation

/-!
# Condy.Errno — result codes and `std::bit_ceil`

Operations report an `int32_t`: zero or a positive count on success, a negated `errno` otherwise.
-/

namespace Condy

def EINTR : ℤ := 4
def EAGAIN : ℤ := 11
def EINVAL : ℤ := 22
def EPIPE : ℤ := 32
def EIDRM : ℤ := 43
def ECANCELED : ℤ := 125
def ENOTRECOVERABLE : ℤ := 131

/-- `std::bit_ceil` on a `w`-bit unsigned type: the least power of two that is not below `n`.  `none` is the case in
which that power does not fit the type and the behaviour is undefined. -/
def bitCeil (w n : ℕ) : Option ℕ :=
  ((List.range w).find? (fun k => decide (n ≤ 2 ^ k))).map (2 ^ ·)

theorem bitCeil_pow {w n m : ℕ} (h : bitCeil w n = some m) : ∃ k < w, m = 2 ^ k ∧ n ≤ 2 ^ k := by
  unfold bitCeil at h
  rw [Option.map_eq_some_iff] at h
  obtain ⟨k, hk, rfl⟩ := h
  refine ⟨k, List.mem_range.mp (List.mem_of_find?_eq_some hk), rfl, ?_⟩
  simpa using List.find?_some hk

end Condy
