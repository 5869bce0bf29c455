import Mathlib.Data.Nat.Bitwise
import Mathlib.Tactic.Common

/-!
# Condy.Runtime.Work — the user data of `detail/work_type.hpp`

The kernel returns with each completion one word.  It holds a pointer, aligned to 8 bytes, and in the three free bits
the kind of work.
-/

namespace Condy

inductive WorkType where
  | common | ignore | schedule | cancel
deriving DecidableEq, Repr

namespace WorkType

def bits : WorkType → ℕ
  | common => 0
  | ignore => 1
  | schedule => 2
  | cancel => 3

/-- `static_cast<WorkType>`; `none` is a value that `process_cqe_` treats as unreachable. -/
def ofBits : ℕ → Option WorkType
  | 0 => some common
  | 1 => some ignore
  | 2 => some schedule
  | 3 => some cancel
  | _ => none

theorem ofBits_bits (t : WorkType) : ofBits t.bits = some t := by
  cases t <;> rfl

theorem bits_lt (t : WorkType) : t.bits < 2 ^ 3 := by
  cases t <;> decide

end WorkType

/-- `encode_work_ptr`, with `ptr % 8 == 0`. -/
def encodeWork (ptr : ℕ) (type : WorkType) : ℕ := ptr ||| type.bits

/-- `decode_work`: the pointer is the word with the three type bits cleared. -/
def decodeWork (word : ℕ) : ℕ × Option WorkType :=
  let mask := 2 ^ 3 - 1
  (word - (word &&& mask), WorkType.ofBits (word &&& mask))

/-- **Round trip** for aligned pointers. -/
theorem decodeWork_encodeWork {ptr : ℕ} (h : ptr % 8 = 0) (type : WorkType) :
    decodeWork (encodeWork ptr type) = (ptr, some type) := by
  obtain ⟨q, rfl⟩ : ∃ q, ptr = 2 ^ 3 * q := ⟨ptr / 8, by omega⟩
  have hlt := type.bits_lt
  have hor : encodeWork (2 ^ 3 * q) type = 2 ^ 3 * q + type.bits := by
    rw [encodeWork, Nat.two_pow_add_eq_or_of_lt hlt]
  have hand : (2 ^ 3 * q + type.bits) &&& (2 ^ 3 - 1) = type.bits := by
    rw [Nat.and_two_pow_sub_one_eq_mod, Nat.mul_add_mod, Nat.mod_eq_of_lt hlt]
  simp only [decodeWork, hor]
  rw [hand, WorkType.ofBits_bits, Nat.add_sub_cancel]

/-- The word of an operation is the address of its finish handle. -/
theorem encodeWork_common (ptr : ℕ) : encodeWork ptr .common = ptr := Nat.or_zero ptr

/-- Aligned pointers with different tags, or different aligned pointers, have different words. -/
theorem encodeWork_inj {p q : ℕ} {t u : WorkType} (hp : p % 8 = 0) (hq : q % 8 = 0)
    (h : encodeWork p t = encodeWork q u) : p = q ∧ t = u := by
  have h1 := decodeWork_encodeWork hp t
  rw [h, decodeWork_encodeWork hq u] at h1
  obtain ⟨h2, h3⟩ := Prod.mk.inj h1
  exact ⟨h2.symm, (Option.some.inj h3).symm⟩

end Condy
