import Condy.Lib.Tickets
import Condy.Lib.Window
import Condy.ProvidedBuffers.Queue
import Mathlib.Data.List.Perm.Basic
import Mathlib.Tactic.Linarith

/-!
# Condy.ProvidedBuffers.QueueOrder — a queue whose completions are reaped in take order

Of the buffers pushed so far the first `hd` have left the ring, and the others are outstanding: `InStep` says that
`buf_lens_` holds their lengths from position `hd` on, and that the ids follow the positions.  The completions that were
not reaped lead from the outstanding buffers to what the kernel has left (`Accounts`).

`scan_eq` is the loop of `handle_finish`: on the lengths of the outstanding buffers it does what the kernel did to the
ring.
-/

namespace Condy.ProvidedBuffers

open Lib

/-! ## What the kernel takes -/

section Consume

variable {incr : Bool} {res : ℕ} {e : IoUringBuf} {es fs : List IoUringBuf}

theorem bytesIn_cons : bytesIn (e :: es) = e.len + bytesIn es := rfl

theorem consume_zero : consume incr 0 es = es := by
  cases es with
  | nil => rfl
  | cons e es => exact if_pos rfl

/-- The first buffer stays in the ring with the rest of its bytes. -/
theorem consume_part (h0 : res ≠ 0) (hlt : incr = true ∧ res < e.len) :
    consume incr res (e :: es) = ⟨e.addr + res, e.len - res, e.bid⟩ :: es := by
  rw [consume, if_neg h0, if_pos hlt]

/-- The first buffer leaves the ring. -/
theorem consume_all (h0 : res ≠ 0) (hle : ¬(incr = true ∧ res < e.len)) :
    consume incr res (e :: es) = consume incr (res - e.len) es := by
  rw [consume, if_neg h0, if_neg hle]

/-- A ring without `IOU_PBUF_RING_INC` loses the shortest prefix that holds the bytes. -/
theorem consume_shortest : ∀ {es : List IoUringBuf} {res : ℕ}, res ≤ bytesIn es → ∃ n ≤ es.length,
    consume false res es = es.drop n ∧ res ≤ bytesIn (es.take n) ∧ ∀ m < n, bytesIn (es.take m) < res
  | [], res, h => ⟨0, le_rfl, rfl, h, fun m hm => absurd hm (by omega)⟩
  | e :: es, res, h => by
    by_cases h0 : res = 0
    · subst h0
      exact ⟨0, Nat.zero_le _, consume_zero, Nat.zero_le _, fun m hm => absurd hm (by omega)⟩
    · rw [bytesIn_cons] at h
      obtain ⟨n, hn, heq, hhas, hmin⟩ := consume_shortest (show res - e.len ≤ bytesIn es by omega)
      refine ⟨n + 1, Nat.succ_le_succ hn, ?_, ?_, ?_⟩
      · rw [consume_all h0 (by simp), heq]
        rfl
      · rw [List.take_succ_cons, bytesIn_cons]
        omega
      · intro m hm
        cases m with
        | zero => exact Nat.pos_of_ne_zero h0
        | succ m =>
          have := hmin m (by omega)
          rw [List.take_succ_cons, bytesIn_cons]
          omega

/-- A ring with `IOU_PBUF_RING_INC` loses the bytes and no others. -/
theorem bytesIn_consume : ∀ {es : List IoUringBuf} {res : ℕ}, res ≤ bytesIn es →
    bytesIn (consume true res es) + res = bytesIn es
  | [], res, h => h.antisymm' (Nat.zero_le _) ▸ rfl
  | e :: es, res, h => by
    by_cases h0 : res = 0
    · rw [h0, consume_zero, Nat.add_zero]
    · rw [bytesIn_cons] at h ⊢
      by_cases hlt : res < e.len
      · rw [consume_part h0 ⟨rfl, hlt⟩, bytesIn_cons]
        change e.len - res + _ + _ = _
        omega
      · rw [consume_all h0 (by omega)]
        have := bytesIn_consume (show res - e.len ≤ bytesIn es by omega)
        omega

/-- Buffers pushed later do not change what is taken. -/
theorem consume_append : ∀ {es : List IoUringBuf} {res : ℕ}, res ≤ bytesIn es →
    consume incr res (es ++ fs) = consume incr res es ++ fs
  | [], res, h => by
    obtain rfl : res = 0 := Nat.le_zero.mp h
    exact consume_zero
  | e :: es, res, h => by
    rw [List.cons_append]
    by_cases h0 : res = 0
    · rw [h0, consume_zero, consume_zero, List.cons_append]
    · by_cases hlt : incr = true ∧ res < e.len
      · rw [consume_part h0 hlt, consume_part h0 hlt, List.cons_append]
      · rw [consume_all h0 hlt, consume_all h0 hlt]
        rw [bytesIn_cons] at h
        exact consume_append (by omega)

theorem length_consume_le (incr : Bool) : ∀ (es : List IoUringBuf) (res : ℕ), (consume incr res es).length ≤ es.length
  | [], _ => le_rfl
  | e :: es, res => by
    rw [consume]
    split_ifs
    · exact le_rfl
    · exact le_rfl
    · exact (length_consume_le incr es _).trans (Nat.le_succ _)

/-- The buffers that stay keep their ids. -/
theorem map_bid_consume : ∀ {es : List IoUringBuf} {res : ℕ},
    (consume incr res es).map IoUringBuf.bid = (es.map IoUringBuf.bid).drop (es.length - (consume incr res es).length)
  | [], _ => rfl
  | e :: es, res => by
    rw [consume]
    split_ifs
    · rw [Nat.sub_self, List.drop_zero]
    · simp
    · have hle := length_consume_le incr es (res - e.len)
      rw [map_bid_consume, List.map_cons, List.length_cons, Nat.succ_sub hle]
      rfl

theorem len_pos_consume : ∀ {es : List IoUringBuf} {res : ℕ}, (∀ e ∈ es, 0 < e.len) → ∀ e ∈ consume incr res es, 0 < e.len
  | [], _, h => h
  | e :: es, res, h => by
    rw [consume]
    split_ifs with h0 hlt
    · exact h
    · intro x hx
      rcases List.mem_cons.mp hx with rfl | hx
      · exact Nat.sub_pos_of_lt hlt.2
      · exact h x (List.mem_cons_of_mem e hx)
    · exact len_pos_consume fun x hx => h x (List.mem_cons_of_mem e hx)

/-- Bytes of the first buffer only: no more than this buffer leaves the ring. -/
theorem consume_first (hle : res ≤ e.len) : (e :: es).length - (consume incr res (e :: es)).length ≤ 1 := by
  rw [consume]
  split_ifs
  · simp
  · simp
  · rw [Nat.sub_eq_zero_of_le hle, consume_zero, List.length_cons]
    omega

end Consume

/-! ## The queue -/

namespace Queue

/-- The capacity is a power of two below `2 ^ 16`. -/
structure Sized (q : Queue) : Prop where
  pow : ∃ k < 16, q.capacity = 2 ^ k
  mask : q.mask = q.capacity - 1

variable {q q' : Queue} {hd : ℕ} {es : List IoUringBuf}

theorem Sized.slot_eq (h : q.Sized) (i : ℕ) : (i % 2 ^ 16) &&& q.mask = i % q.capacity := by
  obtain ⟨k, hk, hn⟩ := h.pow
  exact masked_slot ⟨k, hk.le, hn⟩ h.mask i

theorem Sized.capacity_lt (h : q.Sized) : q.capacity < 2 ^ 16 := by
  obtain ⟨k, hk, hn⟩ := h.pow
  rw [hn]
  exact Nat.pow_lt_pow_right (by decide) hk

theorem Sized.capacity_pos (h : q.Sized) : 0 < q.capacity := by
  obtain ⟨k, -, hn⟩ := h.pow
  rw [hn]
  exact Nat.two_pow_pos k

theorem create_sized {capacity : ℕ} {incr : Bool} (h : create capacity incr = some q) :
    q.Sized ∧ q.size = 0 ∧ q.br.tail = 0 ∧ q.asserts = true ∧ q.isIncr = incr := by
  obtain ⟨n, hn, h⟩ := Option.bind_eq_some_iff.mp h
  obtain ⟨k, -, rfl, -⟩ := bitCeil_pow hn
  obtain ⟨hlt, h⟩ := Option.ite_none_left_eq_some.mp h
  obtain rfl := Option.some.inj h
  have hk : k < 16 := (Nat.pow_lt_pow_iff_right (by decide)).mp (Nat.lt_of_not_le hlt)
  exact ⟨⟨⟨k, hk, rfl⟩, rfl⟩, rfl, rfl, rfl, rfl⟩

/-- What a push at position `n` leaves. -/
def pushed (q : Queue) (n data len : ℕ) : Queue :=
  { q with
    br := ⟨Function.update q.br.bufs (n % q.capacity) ⟨data, len, n % q.capacity⟩, (n + 1) % 2 ^ 16⟩
    bufLens := Function.update q.bufLens (n % q.capacity) len
    size := q.size + 1 }

/-- `push` on a queue with room, the tail at position `n`. -/
theorem push_eq (h : q.Sized) {n data len : ℕ} (ht : q.br.tail = n % 2 ^ 16) (hroom : q.size < q.capacity)
    (hlen : len < 2 ^ 32) : q.push data len = (.ok (n % q.capacity), q.pushed n data len) := by
  have hcap := h.capacity_lt
  have hslot : q.br.tail &&& q.mask = n % q.capacity := ht ▸ h.slot_eq n
  have hlt : n % q.capacity < 2 ^ 16 := (Nat.mod_lt n h.capacity_pos).trans hcap
  have htail : (q.br.tail + 1) % 2 ^ 16 = (n + 1) % 2 ^ 16 := ht ▸ wrap_add_one
  unfold push
  rw [if_neg (by omega)]
  simp only [BufRing.add, BufRing.advance, pushed, Nat.add_zero, hslot, htail, Nat.mod_eq_of_lt hlt,
    Nat.mod_eq_of_lt hlen, Nat.mod_eq_of_lt (show q.size + 1 < 2 ^ 32 by omega)]

/-- The entry before the new tail. -/
theorem pushed_entry (h : q.Sized) {n : ℕ} (ht : q.br.tail = n % 2 ^ 16) (data len : ℕ) :
    (q.pushed n data len).br.bufs (q.br.tail &&& q.mask) = ⟨data, len, n % q.capacity⟩ := by
  rw [ht, h.slot_eq]
  exact Function.update_self ..

/-- `push` with any length. -/
theorem push_ok (h : q.Sized) {n : ℕ} (ht : q.br.tail = n % 2 ^ 16) (hroom : q.size < q.capacity) (data len : ℕ) :
    ∃ q', q.push data len = (.ok (n % q.capacity), q') := by
  have hlt : n % q.capacity < 2 ^ 16 := (Nat.mod_lt n h.capacity_pos).trans h.capacity_lt
  have hbid : (q.br.tail &&& q.mask) % 2 ^ 16 = n % q.capacity := by rw [ht, h.slot_eq, Nat.mod_eq_of_lt hlt]
  unfold push
  rw [if_neg (Nat.not_le.mpr hroom)]
  dsimp only
  rw [hbid]
  exact ⟨_, rfl⟩

theorem push_full (hfull : q.capacity ≤ q.size) (data len : ℕ) :
    q.push data len = (.error "Capacity exceeded", q) := if_pos hfull

theorem scan_done (q : Queue) {fuel : ℕ} {c : Scan} (hb : c.bytes ≤ 0) : q.scan fuel c = some c := by
  unfold scan
  rw [if_pos hb]

theorem scan_turn (q : Queue) {fuel : ℕ} {c : Scan} (hb : 0 < c.bytes) :
    q.scan (fuel + 1) c = q.scan fuel (q.scanTurn c) := by
  rw [scan, if_neg (Int.not_le.mpr hb)]

/-- The slot of the first position changes and no other one of a window of at most one turn. -/
theorem update_first {slots : ℕ → ℕ} {cap hd x : ℕ} {xs : List ℕ} (hcap : xs.length < cap)
    (h : Window slots cap (hd + 1) xs) : Window (Function.update slots (hd % cap) x) cap (hd + 1) xs := by
  refine h.update_out fun i hi he => ?_
  rw [show hd + 1 + i = hd + (i + 1) by omega] at he
  exact absurd (index_inj (j := 0) (by omega) (by omega) he) (by omega)

/-- A turn of the loop at a position with length `len`. -/
theorem scanTurn_eq (h : q.Sized) {lens : ℕ → ℕ} {len : ℕ} {bytes : ℤ} {num : ℕ}
    (he : lens (hd % q.capacity) = len) (hb : 0 < bytes) (hb' : bytes < 2 ^ 31) (hn : num + 1 < 2 ^ 16) :
    q.scanTurn ⟨lens, hd % 2 ^ 16, bytes, num⟩ =
      if q.isIncr = true ∧ bytes.toNat < len then
        ⟨Function.update lens (hd % q.capacity) (len - bytes.toNat), (hd + 1) % 2 ^ 16, 0, num⟩
      else ⟨Function.update lens (hd % q.capacity) 0, (hd + 1) % 2 ^ 16, bytes - len, num + 1⟩ := by
  have hmod : bytes.toNat % 2 ^ 32 = bytes.toNat := Nat.mod_eq_of_lt (by omega)
  have hcast : (bytes.toNat : ℤ) = bytes := Int.toNat_of_nonneg hb.le
  unfold scanTurn
  simp only [h.slot_eq, he, hmod, wrap_add_one, Nat.mod_eq_of_lt hn]
  cases q.isIncr with
  | false => simp
  | true =>
    by_cases hlt : bytes.toNat < len
    · have hleft : len - bytes.toNat ≠ 0 := by omega
      simp [hlt, hlt.le, hleft, hcast]
    · have hle : len ≤ bytes.toNat := Nat.le_of_not_lt hlt
      simp [hlt, hle]

/-- **The loop of `handle_finish`** does to the lengths what the kernel did to the ring. -/
theorem scan_eq (h : q.Sized) : ∀ (es : List IoUringBuf) {fuel hd num : ℕ} {lens : ℕ → ℕ} {bytes : ℤ},
    Window lens q.capacity hd (es.map IoUringBuf.len) → es.length ≤ q.capacity → es.length ≤ fuel →
    num + es.length < 2 ^ 16 → bytes ≤ bytesIn es → bytes < 2 ^ 31 →
    ∃ c, q.scan fuel ⟨lens, hd % 2 ^ 16, bytes, num⟩ = some c ∧
      c.numBuffers = num + (es.length - (consume q.isIncr bytes.toNat es).length) ∧
      Window c.bufLens q.capacity (hd + (es.length - (consume q.isIncr bytes.toNat es).length))
        ((consume q.isIncr bytes.toNat es).map IoUringBuf.len) := by
  intro es
  induction es with
  | nil =>
    intro fuel hd num lens bytes hwin _ _ _ hle _
    have hb : bytes ≤ 0 := by simpa [bytesIn] using hle
    exact ⟨⟨lens, hd % 2 ^ 16, bytes, num⟩, q.scan_done hb, rfl, hwin⟩
  | cons e es ih =>
    intro fuel hd num lens bytes hwin hcap hfuel hnum hle hlt
    rw [List.length_cons] at hcap hfuel hnum
    by_cases hb : bytes ≤ 0
    · rw [Int.toNat_of_nonpos hb, consume_zero, Nat.sub_self]
      exact ⟨⟨lens, hd % 2 ^ 16, bytes, num⟩, q.scan_done hb, rfl, hwin⟩
    · have h0 : bytes.toNat ≠ 0 := by omega
      obtain ⟨fuel, rfl⟩ : ∃ m, fuel = m + 1 := ⟨fuel - 1, by omega⟩
      have hturn := scanTurn_eq h hwin.head (by omega : 0 < bytes) hlt (by omega : num + 1 < 2 ^ 16)
      have hrest : Window _ q.capacity (hd + 1) (es.map IoUringBuf.len) := hwin.tail
      rw [q.scan_turn (Int.lt_of_not_ge hb), hturn]
      by_cases hpart : q.isIncr = true ∧ bytes.toNat < e.len
      · -- the bytes end in this buffer
        rw [if_pos hpart, consume_part h0 hpart, List.length_cons, List.length_cons, Nat.sub_self]
        refine ⟨_, q.scan_done le_rfl, rfl, ?_⟩
        intro i hi
        cases i with
        | zero => simp
        | succ i =>
          have hkeep := update_first (x := e.len - bytes.toNat) (by rw [List.length_map]; omega) hrest i (by simpa using hi)
          simpa [show hd + 1 + i = hd + (i + 1) by omega] using hkeep
      · rw [if_neg hpart, consume_all h0 hpart]
        have hsub : (bytes - e.len).toNat = bytes.toNat - e.len := by omega
        rw [bytesIn_cons] at hle
        have hkeep := update_first (x := 0) (by rw [List.length_map]; omega) hrest
        obtain ⟨c, hc, hnumc, hwinc⟩ := ih hkeep (by omega) (show es.length ≤ fuel by omega)
          (show num + 1 + es.length < 2 ^ 16 by omega)
          (show bytes - e.len ≤ bytesIn es by push_cast at hle; omega) (by omega)
        rw [hsub] at hnumc hwinc
        have hlen := length_consume_le q.isIncr es (bytes.toNat - e.len)
        refine ⟨c, hc, ?_, ?_⟩
        · rw [hnumc, List.length_cons]
          omega
        · rw [List.length_cons, show hd + (es.length + 1 - (consume q.isIncr (bytes.toNat - e.len) es).length) =
            hd + 1 + (es.length - (consume q.isIncr (bytes.toNat - e.len) es).length) by omega]
          exact hwinc

theorem check_true {c : Bool} (hc : c = true) : q.check c = q := by
  rw [check, hc, Bool.and_true]

theorem window_mod {slots : ℕ → ℕ} {cap hd : ℕ} {xs : List ℕ} :
    Window slots cap (hd % cap) xs ↔ Window slots cap hd xs := by
  unfold Window
  simp only [Nat.mod_add_mod]

/-- `handle_finish` on a completion with `res` bytes of the outstanding buffers `es`. -/
theorem handleFinish_eq (h : q.Sized) {cqe : Cqe} (hwin : Window q.bufLens q.capacity hd (es.map IoUringBuf.len))
    (hsize : q.size = es.length) (hcap : es.length ≤ q.capacity) (hf : cqe.fBuffer = true) (hres : 0 < cqe.res)
    (hmax : cqe.res < 2 ^ 31) (hle : cqe.res.toNat ≤ bytesIn es) (hbid : cqe.bid = hd % q.capacity) :
    ∃ lens, q.handleFinish cqe = some
        (⟨cqe.bid, es.length - (consume q.isIncr cqe.res.toNat es).length⟩,
          { q with bufLens := lens, size := (consume q.isIncr cqe.res.toNat es).length }) ∧
      Window lens q.capacity (hd + (es.length - (consume q.isIncr cqe.res.toNat es).length))
        ((consume q.isIncr cqe.res.toNat es).map IoUringBuf.len) := by
  have hcap16 := h.capacity_lt
  have hidx : hd % q.capacity % 2 ^ 16 = hd % q.capacity :=
    Nat.mod_eq_of_lt ((Nat.mod_lt hd h.capacity_pos).trans hcap16)
  have hfuel : es.length ≤ q.capacity * cqe.res.toNat :=
    hcap.trans (Nat.le_mul_of_pos_right _ (by omega))
  obtain ⟨c, hc, hnum, hwin'⟩ := scan_eq h es (window_mod.mpr hwin) hcap hfuel
    (show 0 + es.length < 2 ^ 16 by omega) (show cqe.res ≤ bytesIn es by omega) hmax
  have hrest := length_consume_le q.isIncr es cqe.res.toNat
  rw [Nat.zero_add] at hnum
  rw [hidx] at hc
  refine ⟨c.bufLens, ?_, window_mod.mp ?_⟩
  · have hmod : (es.length + 2 ^ 32 - (es.length - (consume q.isIncr cqe.res.toNat es).length)) % 2 ^ 32 =
        (consume q.isIncr cqe.res.toNat es).length := by omega
    unfold handleFinish
    rw [hf, check_true (by simpa using hres), hbid]
    simp only [Bool.not_true, Bool.false_eq_true, if_false, hc, Option.map_some, hsize, hnum, hmod,
      check_true (decide_eq_true (Nat.sub_le es.length (consume q.isIncr cqe.res.toNat es).length))]
  · rw [← Nat.mod_add_mod]
    exact window_mod.mpr hwin'

/-- `handle_finish` on a completion of one buffer, wherever it stands in the ring. -/
theorem handleFinish_one (h : q.Sized) (hi : q.isIncr = false) {cqe : Cqe} {n : ℕ} (hf : cqe.fBuffer = true)
    (hres : 0 < cqe.res) (hmax : cqe.res < 2 ^ 31) (hbid : cqe.bid = n % q.capacity)
    (hle : cqe.res ≤ q.bufLens (n % q.capacity)) (hpos : 0 < q.size) (hsize : q.size < 2 ^ 32) :
    q.handleFinish cqe = some (⟨cqe.bid, 1⟩,
      { q with bufLens := Function.update q.bufLens (n % q.capacity) 0, size := q.size - 1 }) := by
  have hidx : n % q.capacity % 2 ^ 16 = n % q.capacity :=
    Nat.mod_eq_of_lt ((Nat.mod_lt n h.capacity_pos).trans h.capacity_lt)
  obtain ⟨fuel, hfuel⟩ : ∃ m, q.capacity * cqe.res.toNat = m + 1 :=
    Nat.exists_eq_succ_of_ne_zero (Nat.mul_pos h.capacity_pos (by omega)).ne'
  have hturn := scanTurn_eq h (show q.bufLens (n % q.capacity % q.capacity) = q.bufLens (n % q.capacity) by
    rw [Nat.mod_mod]) hres hmax (show 0 + 1 < 2 ^ 16 by decide)
  rw [hi, if_neg (by simp), hidx, Nat.mod_mod] at hturn
  have hmod : (q.size + 2 ^ 32 - 1) % 2 ^ 32 = q.size - 1 := by omega
  unfold handleFinish
  rw [hf, check_true (by simpa using hres), hbid]
  simp only [Bool.not_true, Bool.false_eq_true, if_false, hfuel]
  rw [scan_turn q hres, hturn, scan_done q (by simpa using hle)]
  simp only [Option.map_some, Nat.zero_add, hmod, check_true (decide_eq_true (Nat.succ_le_of_lt hpos))]

/-- The operation's `handle_finish`, one buffer at most if the operation is not bundled. -/
theorem finish_eq {c : Completion} {info : BufferInfo} (h : q.handleFinish c.cqe = some (info, q'))
    (hone : c.bundled = false → info.numBuffers ≤ 1) : q.finish c = some (info, q') := by
  unfold finish
  cases hb : c.bundled with
  | true => rw [if_pos rfl, h]
  | false =>
    rw [if_neg Bool.false_ne_true, handleFinishOne, h, Option.map_some]
    dsimp only
    rw [check_true (decide_eq_true (hone hb))]

/-- A completion without a buffer changes nothing. -/
theorem handleFinishOne_fail (q : Queue) (res : ℤ) : q.handleFinishOne ⟨res, false, 0⟩ = some (⟨0, 0⟩, q) := by
  change some (_, q.check _) = _
  rw [check_true (by decide)]

theorem finish_fail (q : Queue) (res : ℤ) (bundled : Bool) : q.finish ⟨⟨res, false, 0⟩, bundled⟩ = some (⟨0, 0⟩, q) :=
  finish_eq rfl (fun _ => Nat.zero_le 1)

end Queue

/-! ## The completions that were not reaped -/

/-- The completion is about the first of the buffers `es`. -/
structure Posted.Names (incr : Bool) (es : List IoUringBuf) (c : Posted) : Prop where
  flag : c.completion.cqe.fBuffer = true
  pos : 0 < c.completion.cqe.res
  max : c.completion.cqe.res < 2 ^ 31
  fits : c.res ≤ bytesIn es
  head : es.head?.map IoUringBuf.bid = some c.completion.cqe.bid
  left : c.left = es.length - (consume incr c.res es).length
  one : c.completion.bundled = false → c.left ≤ 1

/-- The completions are about the buffers of `es`, one after the other, and leave `ring`. -/
def Accounts (incr : Bool) : List IoUringBuf → List Posted → List IoUringBuf → Prop
  | es, [], ring => es = ring
  | es, c :: cs, ring => c.Names incr es ∧ Accounts incr (consume incr c.res es) cs ring

section Accounts

variable {incr : Bool} {ring fs : List IoUringBuf} {c : Posted}

theorem Posted.Names.append {es : List IoUringBuf} (h : c.Names incr es) : c.Names incr (es ++ fs) := by
  have hne : es ≠ [] := by
    rintro rfl
    exact absurd h.head (by simp)
  refine ⟨h.flag, h.pos, h.max, ?_, ?_, ?_, h.one⟩
  · have := h.fits
    unfold bytesIn at this ⊢
    rw [List.map_append, List.sum_append]
    omega
  · rw [List.head?_append_of_ne_nil _ hne]
    exact h.head
  · rw [consume_append h.fits, List.length_append, List.length_append, h.left]
    omega

theorem Accounts.append : ∀ {cs : List Posted} {es : List IoUringBuf}, Accounts incr es cs ring →
    Accounts incr (es ++ fs) cs (ring ++ fs)
  | [], _, h => congrArg (· ++ fs) h
  | c :: cs, es, ⟨hc, hcs⟩ => by
    refine ⟨hc.append, ?_⟩
    rw [consume_append hc.fits]
    exact hcs.append

theorem Accounts.snoc : ∀ {cs : List Posted} {es : List IoUringBuf}, Accounts incr es cs ring → c.Names incr ring →
    Accounts incr es (cs ++ [c]) (consume incr c.res ring)
  | [], _, h, hc => by
    obtain rfl := h
    exact ⟨hc, rfl⟩
  | _ :: _, _, ⟨hd, hcs⟩, hc => ⟨hd, hcs.snoc hc⟩

theorem Accounts.foldl_eq : ∀ {cs : List Posted} {es : List IoUringBuf}, Accounts incr es cs ring →
    cs.foldl (fun es c => consume incr c.res es) es = ring
  | [], _, h => h
  | _ :: _, _, ⟨_, hcs⟩ => hcs.foldl_eq

end Accounts

/-! ## The system -/

namespace QueueSystem

/-- `hd` buffers have left the ring. -/
structure InStep (cap : ℕ) (s : QueueSystem) (hd : ℕ) : Prop where
  sized : s.queue.Sized
  capacity : s.queue.capacity = cap
  asserts : s.queue.asserts = true
  tail : s.queue.br.tail = (hd + s.outstanding.length) % 2 ^ 16
  size : s.queue.size = s.outstanding.length
  room : s.outstanding.length ≤ cap
  lens : Window s.queue.bufLens cap hd (s.outstanding.map IoUringBuf.len)
  bids : Window id cap hd (s.outstanding.map IoUringBuf.bid)
  pos : ∀ e ∈ s.outstanding, 0 < e.len
  pushes : s.ids.length = hd + s.outstanding.length
  ids : s.ids = (List.range s.ids.length).map (· % cap)
  accounts : Accounts s.queue.isIncr s.outstanding s.posted s.ring
  reported : ∀ x ∈ s.reported, x.2 = ⟨x.1.completion.cqe.bid, x.1.left⟩

section Steps

variable {cap hd : ℕ} {s s' : QueueSystem}

theorem init_inStep {capacity : ℕ} {incr : Bool} {q : Queue} (hq : Queue.create capacity incr = some q) :
    (init q).InStep q.capacity 0 := by
  obtain ⟨hs, hsize, htail, ha, -⟩ := Queue.create_sized hq
  exact ⟨hs, rfl, ha, htail, hsize, Nat.zero_le _, window_nil, window_nil, fun _ he => (nomatch he), rfl, rfl, rfl,
    fun _ hx => (nomatch hx)⟩

/-- The ids are the positions modulo the capacity. -/
theorem bids_push {cap hd : ℕ} {bids : List ℕ} (h : Window id cap hd bids) (hl : bids.length < cap) :
    Window id cap hd (bids ++ [(hd + bids.length) % cap]) := by
  have hpush := h.push (x := (hd + bids.length) % cap) hl
  have hself : Function.update id ((hd + bids.length) % cap) ((hd + bids.length) % cap) = id :=
    Function.update_eq_self _ id
  rwa [hself] at hpush

theorem push_inStep {data len : ℕ} (h : s.InStep cap hd) (hs : s.push data len = some s') : s'.InStep cap hd := by
  obtain ⟨hg, hs⟩ := Option.ite_none_left_eq_some.mp hs
  push Not at hg
  obtain ⟨hpos, hlen⟩ := hg
  by_cases hfull : s.queue.capacity ≤ s.queue.size
  · rw [Queue.push_full hfull] at hs
    obtain rfl := Option.some.inj hs
    exact h
  · obtain rfl := h.capacity
    have hroom : s.outstanding.length < s.queue.capacity := by
      have := h.size
      omega
    rw [Queue.push_eq h.sized h.tail (by omega) hlen] at hs
    obtain rfl := Option.some.inj hs
    change InStep _ { s with
      queue := s.queue.pushed (hd + s.outstanding.length) data len
      ring := s.ring ++ [(s.queue.pushed (hd + s.outstanding.length) data len).br.bufs
        (s.queue.br.tail &&& s.queue.mask)]
      outstanding := s.outstanding ++ [(s.queue.pushed (hd + s.outstanding.length) data len).br.bufs
        (s.queue.br.tail &&& s.queue.mask)]
      ids := s.ids ++ [(hd + s.outstanding.length) % s.queue.capacity] } hd
    rw [Queue.pushed_entry h.sized h.tail]
    refine ⟨⟨h.sized.pow, h.sized.mask⟩, rfl, h.asserts, ?_, ?_, ?_, ?_, ?_, ?_, ?_, ?_, h.accounts.append, h.reported⟩
    · rw [List.length_append]
      rfl
    · rw [List.length_append]
      exact congrArg (· + 1) h.size
    · rw [List.length_append]
      exact hroom
    · have hpush := h.lens.push (x := len) (by rwa [List.length_map])
      rw [List.length_map] at hpush
      rw [List.map_append]
      exact hpush
    · have hpush := bids_push h.bids (by rwa [List.length_map])
      rw [List.length_map] at hpush
      rw [List.map_append]
      exact hpush
    · exact forall_mem_snoc h.pos (Nat.pos_of_ne_zero hpos)
    · rw [List.length_append, List.length_append, h.pushes]
      rfl
    · rw [List.length_append, List.length_singleton, List.range_succ, List.map_append, ← h.ids, h.pushes]
      rfl

theorem post_inStep {res : ℕ} {bundled : Bool} (h : s.InStep cap hd) (hs : s.post res bundled = some s') :
    s'.InStep cap hd := by
  unfold post at hs
  cases hr : s.ring with
  | nil =>
    rw [hr] at hs
    nomatch hs
  | cons e es =>
    rw [hr] at hs
    obtain ⟨hg, hs⟩ := Option.ite_none_left_eq_some.mp hs
    obtain rfl := Option.some.inj hs
    push Not at hg
    obtain ⟨hpos, hmax, hfits, hone⟩ := hg
    have hnames : Posted.Names s.queue.isIncr (e :: es) ⟨⟨⟨res, true, e.bid⟩, bundled⟩,
        (e :: es).length - (consume s.queue.isIncr res (e :: es)).length⟩ :=
      ⟨rfl, by simpa using Nat.pos_of_ne_zero hpos, by simpa using hmax, hfits, rfl, rfl,
        fun hb => consume_first (hone hb)⟩
    have haccounts := (hr ▸ h.accounts).snoc hnames
    exact ⟨h.sized, h.capacity, h.asserts, h.tail, h.size, h.room, h.lens, h.bids, h.pos, h.pushes, h.ids, haccounts,
      h.reported⟩

/-- The oldest completion is about the oldest outstanding buffers. -/
theorem InStep.finish_eq {c : Posted} (h : s.InStep cap hd) (hc : c.Names s.queue.isIncr s.outstanding) :
    ∃ lens, s.queue.finish c.completion = some (⟨c.completion.cqe.bid, c.left⟩,
        { s.queue with bufLens := lens, size := (consume s.queue.isIncr c.res s.outstanding).length }) ∧
      Window lens cap (hd + c.left) ((consume s.queue.isIncr c.res s.outstanding).map IoUringBuf.len) := by
  obtain rfl := h.capacity
  have hbid : c.completion.cqe.bid = hd % s.queue.capacity := by
    obtain ⟨e, he, hbid⟩ := Option.map_eq_some_iff.mp hc.head
    obtain ⟨es, hes⟩ := List.head?_eq_some_iff.mp he
    have hb := h.bids
    rw [hes, List.map_cons] at hb
    exact hbid.symm.trans hb.head.symm
  obtain ⟨lens, hfin, hwin⟩ := Queue.handleFinish_eq h.sized h.lens h.size h.room hc.flag hc.pos hc.max hc.fits hbid
  rw [hc.left]
  exact ⟨lens, Queue.finish_eq hfin (fun hb => hc.left ▸ hc.one hb), hwin⟩

theorem reap_inStep (h : s.InStep cap hd) (hs : s.reap = some s') : ∃ hd', s'.InStep cap hd' := by
  unfold reap at hs
  cases hp : s.posted with
  | nil =>
    rw [hp] at hs
    nomatch hs
  | cons c cs =>
    obtain ⟨hc, hcs⟩ : c.Names s.queue.isIncr s.outstanding ∧ _ := by
      have := h.accounts
      rwa [hp] at this
    obtain ⟨lens, hfin, hwin⟩ := h.finish_eq hc
    rw [hp] at hs
    simp only [hfin, Option.map_some] at hs
    obtain rfl := Option.some.inj hs
    have hlen := length_consume_le s.queue.isIncr s.outstanding c.res
    have hleft := hc.left
    refine ⟨hd + c.left, ⟨h.sized.pow, h.sized.mask⟩, h.capacity, h.asserts, ?_, rfl, hlen.trans h.room, hwin, ?_,
      len_pos_consume h.pos, ?_, h.ids, hcs, ?_⟩
    · rw [show hd + c.left + (consume s.queue.isIncr c.res s.outstanding).length = hd + s.outstanding.length by omega]
      exact h.tail
    · change Window id cap _ ((consume _ _ _).map _)
      rw [map_bid_consume, ← hleft]
      exact h.bids.drop c.left
    · change s.ids.length = hd + c.left + (consume _ _ _).length
      have := h.pushes
      omega
    · exact forall_mem_snoc h.reported rfl

/-- **Step lemma**: the queue and the kernel stay in step. -/
theorem step_inStep (op : QueueOp) (h : s.InStep cap hd) (hs : step s op = some s') : ∃ hd', s'.InStep cap hd' := by
  cases op with
  | push data len => exact ⟨hd, push_inStep h hs⟩
  | post res bundled => exact ⟨hd, post_inStep h hs⟩
  | fail res bundled =>
    rw [step, Queue.finish_fail, Option.map_some] at hs
    obtain rfl := Option.some.inj hs
    exact ⟨hd, h⟩
  | reap => exact reap_inStep h hs

end Steps

/-- **Queue and kernel in step**, for every capacity and every run with completions reaped in take order: the pushes
return the ids in turn, `push` throws exactly on a full queue and changes nothing then, `handle_finish` returns and
reports the buffers that left the ring, `size()` counts the outstanding buffers and `buf_lens_` holds what is left of
them.  What the kernel has left is what the completions not yet reaped leave of the outstanding buffers. -/
theorem queue_in_step {capacity : ℕ} {incr : Bool} {q : Queue} (hq : Queue.create capacity incr = some q)
    {ops : List QueueOp} {s : QueueSystem} (hrun : run step (init q) ops = some s) :
    s.queue.capacity = q.capacity ∧ s.ids = (List.range s.ids.length).map (· % q.capacity) ∧
    s.queue.size = s.outstanding.length ∧ s.outstanding.length ≤ q.capacity ∧ s.queue.asserts = true ∧
    (∀ e ∈ s.outstanding, s.queue.bufLens e.bid = e.len) ∧
    s.posted.foldl (fun es c => consume s.queue.isIncr c.res es) s.outstanding = s.ring ∧
    (∀ x ∈ s.reported, x.2 = ⟨x.1.completion.cqe.bid, x.1.left⟩) ∧
    (s.posted ≠ [] → ∃ s', step s .reap = some s') ∧
    ∀ data len, if s.outstanding.length = q.capacity then s.queue.push data len = (.error "Capacity exceeded", s.queue)
      else ∃ q', s.queue.push data len = (.ok (s.ids.length % q.capacity), q') := by
  obtain ⟨hd, h⟩ : ∃ hd, s.InStep q.capacity hd := by
    refine run_inv (I := fun s => ∃ hd, s.InStep q.capacity hd) ?_ ops ⟨0, init_inStep hq⟩ hrun
    rintro s op t ⟨hd, hI⟩ hs
    exact step_inStep op hI hs
  refine ⟨h.capacity, h.ids, h.size, h.room, h.asserts, ?_, h.accounts.foldl_eq, h.reported, ?_, ?_⟩
  · intro e he
    obtain ⟨i, hi, rfl⟩ := List.mem_iff_getElem.mp he
    have hbid := h.bids i (by rwa [List.length_map])
    have hlen := h.lens i (by rwa [List.length_map])
    rw [List.getElem_map] at hbid hlen
    rw [← hbid]
    exact hlen
  · intro hne
    obtain ⟨c, cs, hp⟩ := List.exists_cons_of_ne_nil hne
    have hacc := h.accounts
    rw [hp] at hacc
    obtain ⟨lens, hfin, -⟩ := h.finish_eq hacc.1
    rw [step, reap, hp]
    simp only [hfin, Option.map_some]
    exact ⟨_, rfl⟩
  · intro data len
    have hcap := h.capacity
    have hsize := h.size
    split_ifs with hfull
    · exact Queue.push_full (by omega) data len
    · have hroom := h.room
      have hslot := Queue.push_ok h.sized h.tail (by omega : s.queue.size < s.queue.capacity) data len
      rw [h.pushes, ← hcap]
      exact hslot

/-- Three buffers in a queue of two with `IOU_PBUF_RING_INC`: the third push throws, a completion leaves the first buffer
in part, the next one takes the rest and a byte of the second buffer, and then there is room. -/
theorem queue_in_step_run : ∃ q s, Queue.create 2 true = some q ∧
    run step (init q) [.push 64 4, .push 96 4, .push 128 4, .post 3 false, .post 2 true, .fail (-1) false, .reap, .reap,
      .push 128 4] = some s ∧ s.ids = [0, 1, 0] ∧ s.reported.map (·.2) = [⟨0, 0⟩, ⟨0, 1⟩] ∧ s.queue.size = 2 ∧
      s.queue.size = s.outstanding.length := by
  obtain ⟨q, hq⟩ : ∃ q, Queue.create 2 true = some q := Option.isSome_iff_exists.mp (by decide)
  have hrun : ((Queue.create 2 true).bind fun q => (run step (init q) [.push 64 4, .push 96 4, .push 128 4,
      .post 3 false, .post 2 true, .fail (-1) false, .reap, .reap, .push 128 4]).map (fun s =>
        (s.ids, s.reported.map (·.2), s.queue.size))) = some ([0, 1, 0], [⟨0, 0⟩, ⟨0, 1⟩], 2) := by
    decide +kernel
  rw [hq, Option.bind_some, Option.map_eq_some_iff] at hrun
  obtain ⟨s, hs, hend⟩ := hrun
  obtain ⟨hids, hrep, hsize⟩ : s.ids = [0, 1, 0] ∧ s.reported.map (·.2) = [⟨0, 0⟩, ⟨0, 1⟩] ∧ s.queue.size = 2 := by
    simpa using hend
  exact ⟨q, s, hq, hs, hids, hrep, hsize, (queue_in_step hq hs).2.2.1⟩

end QueueSystem

end Condy.ProvidedBuffers
