import Condy.ProvidedBuffers.PoolOrder

/-!
# Condy.ProvidedBuffers.PoolMemory — the memory of a pool and the ranges it registers

A `ProvidedBufferPool` is given memory for `num_buffers` buffers, or maps memory itself.  The count is rounded up to a
power of two before the ring is filled, the size is narrowed to 32 bits when it is stored, and the length to map is
computed from the size as it was passed.

`Pool.Registered` says that every slot of the ring holds the entry of a buffer below `num_buffers_`.  It is kept by
`handle_finish` on any completion and by dropping what it returned.  So the ranges that are ever registered are those of
the `num_buffers_` buffers, and they lie in the memory exactly if these buffers do.
-/

namespace Condy.ProvidedBuffers

open Lib

/-! ## Memory -/

structure Memory where
  base : ℕ
  len : ℕ
deriving DecidableEq, Repr

/-- The range of a ring entry lies inside the memory. -/
def Memory.Holds (m : Memory) (e : IoUringBuf) : Prop := m.base ≤ e.addr ∧ e.addr + e.len ≤ m.base + m.len

instance (m : Memory) (e : IoUringBuf) : Decidable (m.Holds e) := inferInstanceAs (Decidable (_ ∧ _))

/-- The argument of `alloc_buffer_data_`: `std::bit_ceil(num_buffers) * buffer_size`. -/
def mappedLen (num bufferSize : ℕ) : ℕ := num * bufferSize % 2 ^ 64

/-- The length that `cleanup_` passes to `munmap`, from the members. -/
def unmappedLen (numBuffers bufferSize : ℕ) : ℕ := numBuffers * bufferSize % 2 ^ 64

section Lengths

variable {k : ℕ} (size : ℕ)

/-- What is mapped is enough for the buffers with the narrowed size. -/
theorem le_mappedLen (hk : k < 32) : 2 ^ k * (size % 2 ^ 32) ≤ mappedLen (2 ^ k) size := by
  have hsplit : 2 ^ 64 = 2 ^ k * 2 ^ (64 - k) := by
    rw [← Nat.pow_add]
    congr 1
    omega
  have hdvd : 2 ^ 32 ∣ 2 ^ (64 - k) := Nat.pow_dvd_pow 2 (by omega)
  unfold mappedLen
  rw [hsplit, Nat.mul_mod_mul_left, ← Nat.mod_mod_of_dvd size hdvd]
  exact Nat.mul_le_mul_left _ (Nat.mod_le _ _)

theorem unmapped_eq_mapped_iff (k : ℕ) :
    unmappedLen (2 ^ k) (size % 2 ^ 32) = mappedLen (2 ^ k) size ↔ 2 ^ 32 ∣ 2 ^ k * (size / 2 ^ 32) := by
  have hsplit : 2 ^ k * size = 2 ^ k * (size / 2 ^ 32) * 2 ^ 32 + 2 ^ k * (size % 2 ^ 32) := by
    conv_lhs => rw [← Nat.div_add_mod size (2 ^ 32)]
    ring
  unfold unmappedLen mappedLen
  rw [hsplit]
  generalize 2 ^ k * (size / 2 ^ 32) = q
  generalize 2 ^ k * (size % 2 ^ 32) = t
  have hmod : t % 2 ^ 64 = (q * 2 ^ 32 + t) % 2 ^ 64 ↔ 2 ^ 64 ∣ q * 2 ^ 32 := by
    have hsub := Nat.modEq_iff_dvd' (n := 2 ^ 64) (Nat.le_add_left t (q * 2 ^ 32))
    rw [Nat.add_sub_cancel] at hsub
    exact hsub
  rw [hmod, show 2 ^ 64 = 2 ^ 32 * 2 ^ 32 by norm_num]
  exact Nat.mul_dvd_mul_iff_right (by decide)

end Lengths

/-! ## What is in the ring -/

namespace Pool

structure Registered (p : Pool) : Prop where
  pow : ∃ k < 16, p.numBuffers = 2 ^ k
  mask : p.mask = p.numBuffers - 1
  size : p.bufferSize < 2 ^ 32
  curr : p.currBufLen ≤ p.bufferSize
  left : 0 < p.bufferSize → 0 < p.currBufLen
  slots : ∀ i, ∃ bid < p.numBuffers, p.br.bufs (i &&& p.mask) = p.entry bid

/-- The members that never change. -/
structure Alike (p q : Pool) : Prop where
  base : q.buffersBase = p.buffersBase
  num : q.numBuffers = p.numBuffers
  mask : q.mask = p.mask
  size : q.bufferSize = p.bufferSize

/-- An owner points into one of the buffers. -/
def Owned (p : Pool) (b : ProvidedBuffer) : Prop :=
  b.owns = true → ∃ bid < p.numBuffers, p.getBuffer bid ≤ b.data ∧ b.data < p.getBuffer bid + p.bufferSize

variable {p q r : Pool} {b : ProvidedBuffer} {bytes : ℤ}

theorem Alike.refl (p : Pool) : p.Alike p := ⟨rfl, rfl, rfl, rfl⟩

theorem Alike.trans (h : p.Alike q) (h' : q.Alike r) : p.Alike r :=
  ⟨h'.base.trans h.base, h'.num.trans h.num, h'.mask.trans h.mask, h'.size.trans h.size⟩

theorem Alike.entry (h : p.Alike q) (bid : ℕ) : q.entry bid = p.entry bid := by
  simp only [Pool.entry, getBuffer, h.base, h.size]

theorem Alike.owned (h : p.Alike q) : q.Owned b ↔ p.Owned b := by
  simp only [Owned, getBuffer, h.base, h.num, h.size]

theorem Alike.check (p : Pool) (c : Bool) : p.Alike (p.check c) := ⟨rfl, rfl, rfl, rfl⟩

/-- The id of an owner's buffer is found again from its pointer. -/
theorem bidOf_owned {bid : ℕ} (hge : p.getBuffer bid ≤ b.data) (hlt : b.data < p.getBuffer bid + p.bufferSize) :
    p.bidOf b = bid := by
  unfold getBuffer at hge hlt
  refine Nat.div_eq_of_lt_le ?_ ?_
  · omega
  · rw [Nat.add_mul, Nat.one_mul]
    omega

theorem create_registered {base n size : ℕ} {incr : Bool} (h : create base n size incr = some p) : p.Registered := by
  obtain ⟨hoff, -, hcurr, -⟩ := create_offers h
  refine ⟨hoff.pow, hoff.mask, hoff.size, hcurr.le, fun hpos => hcurr ▸ hpos, fun i => ?_⟩
  obtain ⟨k, hk, hn⟩ := hoff.pow
  have hslot : i &&& p.mask = i % p.numBuffers := by
    rw [hoff.mask, hn]
    exact Nat.and_two_pow_sub_one_eq_mod i k
  have hlt : i % p.numBuffers < p.numBuffers := Nat.mod_lt _ (by rw [hn]; exact Nat.two_pow_pos k)
  have hwin := hoff.win (i % p.numBuffers) (by rwa [List.length_map, List.length_range])
  rw [Nat.zero_add, Nat.mod_mod] at hwin
  refine ⟨i % p.numBuffers, hlt, ?_⟩
  rw [hslot, hwin, List.getElem_map, List.getElem_range]

/-- What a turn of the loop returns lies from the private head on, and the head moves to the next entry with an owner. -/
theorem slice_cases (hs : p.slice bytes = (b, q)) :
    b.data = p.getBuffer p.currIoUringBuf.bid + (p.bufferSize - p.currBufLen) ∧ b.size ≤ p.currBufLen ∧
      (q = { p.advanceIoUringBuf with currBufLen := p.bufferSize } ∨
        ∃ len, 0 < len ∧ len ≤ p.currBufLen ∧ q = { p with currBufLen := len }) := by
  have hle : (if p.isIncr then min (bytes.toNat % 2 ^ 32) p.currBufLen else p.currBufLen) ≤ p.currBufLen := by
    split_ifs
    · exact Nat.min_le_right _ _
    · exact le_rfl
  unfold slice at hs
  by_cases hcurr : (if p.isIncr then p.currBufLen - (if p.isIncr then min (bytes.toNat % 2 ^ 32) p.currBufLen
      else p.currBufLen) else 0) = 0
  · rw [if_pos hcurr] at hs
    obtain ⟨rfl, rfl⟩ := Prod.mk.inj hs
    exact ⟨rfl, hle, .inl rfl⟩
  · rw [if_neg hcurr] at hs
    obtain ⟨rfl, rfl⟩ := Prod.mk.inj hs
    refine ⟨rfl, hle, .inr ⟨_, Nat.pos_of_ne_zero hcurr, ?_, rfl⟩⟩
    split_ifs
    · exact Nat.sub_le _ _
    · exact Nat.zero_le _

namespace Registered

variable (h : p.Registered)
include h

/-- The slice lies in the buffer at the private head. -/
theorem slice_owned (hpos : 0 < p.bufferSize) (hs : p.slice bytes = (b, q)) : p.Owned b := by
  intro _
  obtain ⟨hdata, -, -⟩ := slice_cases hs
  obtain ⟨bid, hbid, hslot⟩ := h.slots p.brHead
  rw [show p.currIoUringBuf.bid = bid from congrArg IoUringBuf.bid hslot] at hdata
  have hcurr := h.left hpos
  have hle := h.curr
  exact ⟨bid, hbid, by omega, by omega⟩

theorem slice (hs : p.slice bytes = (b, q)) : q.Registered ∧ p.Alike q := by
  obtain ⟨-, -, rfl | ⟨len, hlen, hle, rfl⟩⟩ := slice_cases hs
  · exact ⟨⟨h.pow, h.mask, h.size, le_rfl, id, h.slots⟩, rfl, rfl, rfl, rfl⟩
  · exact ⟨⟨h.pow, h.mask, h.size, hle.trans h.curr, fun _ => hlen, h.slots⟩, rfl, rfl, rfl, rfl⟩

/-- With buffers of no bytes the loop makes no progress. -/
theorem size_pos {fuel : ℕ} {r : List ProvidedBuffer × Pool} (hs : slices fuel p bytes = some r) (hb : 0 < bytes) :
    0 < p.bufferSize := by
  refine Nat.pos_of_ne_zero fun h0 => ?_
  induction fuel generalizing p r with
  | zero =>
    unfold slices at hs
    rw [if_neg (Int.not_le.mpr hb)] at hs
    cases hs
  | succ fuel ih =>
    obtain ⟨b, q, hq⟩ : ∃ b q, p.slice bytes = (b, q) := ⟨_, _, rfl⟩
    rw [slices_turn fuel hb hq] at hs
    obtain ⟨t, ht, -⟩ := Option.map_eq_some_iff.mp hs
    obtain ⟨hreg, halike⟩ := h.slice hq
    have hsize : b.size = 0 := by
      have hle := (slice_cases hq).2.1
      have hcurr := h.curr
      omega
    rw [hsize, Nat.cast_zero, Int.sub_zero] at ht
    exact ih hreg ht (halike.size.trans h0)

/-- The loop. -/
theorem slices {fuel : ℕ} {bs : List ProvidedBuffer} (hs : slices fuel p bytes = some (bs, q)) :
    q.Registered ∧ p.Alike q ∧ ∀ b ∈ bs, p.Owned b := by
  induction fuel generalizing p bytes bs with
  | zero =>
    unfold Pool.slices at hs
    split_ifs at hs
    obtain ⟨rfl, rfl⟩ := Prod.mk.inj (Option.some.inj hs)
    exact ⟨h, .refl _, fun _ hb => absurd hb List.not_mem_nil⟩
  | succ fuel ih =>
    by_cases hb : bytes ≤ 0
    · rw [slices_done _ hb] at hs
      obtain ⟨rfl, rfl⟩ := Prod.mk.inj (Option.some.inj hs)
      exact ⟨h, .refl _, fun _ hb => absurd hb List.not_mem_nil⟩
    · have hpos := h.size_pos hs (Int.not_le.mp hb)
      obtain ⟨b, t, hq⟩ : ∃ b t, p.slice bytes = (b, t) := ⟨_, _, rfl⟩
      rw [slices_turn fuel (Int.not_le.mp hb) hq] at hs
      obtain ⟨⟨bs', q'⟩, ht, he⟩ := Option.map_eq_some_iff.mp hs
      obtain ⟨rfl, rfl⟩ := Prod.mk.inj he
      obtain ⟨hreg, halike⟩ := h.slice hq
      obtain ⟨hreg', halike', howned⟩ := ih hreg ht
      refine ⟨hreg', halike.trans halike', List.forall_mem_cons.mpr ⟨h.slice_owned hpos hq, fun b hb => ?_⟩⟩
      exact halike.owned.mp (howned b hb)

theorem check (c : Bool) : (p.check c).Registered := ⟨h.pow, h.mask, h.size, h.curr, h.left, h.slots⟩

theorem handleFinish {cqe : Cqe} {bs : List ProvidedBuffer} (hs : p.handleFinish cqe = some (bs, q)) :
    q.Registered ∧ p.Alike q ∧ ∀ b ∈ bs, p.Owned b := by
  unfold Pool.handleFinish at hs
  split_ifs at hs
  · obtain ⟨rfl, rfl⟩ := Prod.mk.inj (Option.some.inj hs)
    exact ⟨h, .refl _, fun _ hb => absurd hb List.not_mem_nil⟩
  · obtain ⟨hreg, halike, howned⟩ := (h.check _).slices hs
    have hcheck := Alike.check p (decide (0 < cqe.res))
    exact ⟨hreg, hcheck.trans halike, fun b hb => hcheck.owned.mp (howned b hb)⟩

/-- A dropped owner registers its whole buffer again. -/
theorem reset (hb : p.Owned b) : (p.reset b).Registered ∧ p.Alike (p.reset b) := by
  unfold Pool.reset
  split_ifs with howns
  · obtain ⟨bid, hbid, hge, hlt⟩ := hb howns
    have hid : (b.data - p.buffersBase) / p.bufferSize = bid := bidOf_owned hge hlt
    obtain ⟨k, hk, hn⟩ := h.pow
    have hnum : p.numBuffers < 2 ^ 16 := hn ▸ Nat.pow_lt_pow_right (by decide) hk
    rw [addBufferBack_eq hid h.size (hbid.trans hnum)]
    refine ⟨⟨h.pow, h.mask, h.size, h.curr, h.left, ?_⟩, rfl, rfl, rfl, rfl⟩
    intro i
    change ∃ bid' < p.numBuffers, Function.update p.br.bufs (p.br.tail &&& p.mask) (p.entry bid) (i &&& p.mask) =
      p.entry bid'
    by_cases hi : i &&& p.mask = p.br.tail &&& p.mask
    · rw [hi, Function.update_self]
      exact ⟨bid, hbid, rfl⟩
    · rw [Function.update_of_ne hi]
      exact h.slots i
  · exact ⟨h, .refl p⟩

theorem resets {bs : List ProvidedBuffer} (hb : ∀ b ∈ bs, p.Owned b) :
    (bs.foldl Pool.reset p).Registered ∧ p.Alike (bs.foldl Pool.reset p) := by
  induction bs generalizing p with
  | nil => exact ⟨h, .refl p⟩
  | cons b bs ih =>
    obtain ⟨hreg, halike⟩ := h.reset (hb b List.mem_cons_self)
    obtain ⟨hreg', halike'⟩ := ih hreg fun x hx => halike.owned.mpr (hb x (List.mem_cons_of_mem b hx))
    exact ⟨hreg', halike.trans halike'⟩

theorem handleFinishOne {cqe : Cqe} (hs : p.handleFinishOne cqe = some (b, q)) :
    q.Registered ∧ p.Alike q ∧ p.Owned b := by
  obtain ⟨⟨bs, t⟩, ht, he⟩ := Option.map_eq_some_iff.mp hs
  obtain ⟨hreg, halike, howned⟩ := h.handleFinish ht
  cases bs with
  | nil =>
    obtain ⟨rfl, rfl⟩ := Prod.mk.inj he
    exact ⟨hreg, halike, fun hown => absurd hown (by decide)⟩
  | cons x xs =>
    obtain ⟨rfl, rfl⟩ := Prod.mk.inj he
    obtain ⟨hx, hxs⟩ := List.forall_mem_cons.mp howned
    have hcheck := halike.trans (Alike.check t (decide (xs.length + 1 = 1)))
    obtain ⟨hreg', halike'⟩ := (hreg.check _).resets fun b hb => hcheck.owned.mpr (hxs b hb)
    exact ⟨hreg', hcheck.trans halike', hx⟩

theorem finish {c : Completion} {bs : List ProvidedBuffer} (hs : p.finish c = some (bs, q)) :
    q.Registered ∧ p.Alike q ∧ ∀ b ∈ bs, p.Owned b := by
  obtain ⟨cqe, bundled⟩ := c
  cases bundled with
  | true => exact h.handleFinish hs
  | false =>
    obtain ⟨⟨b, t⟩, ht, he⟩ := Option.map_eq_some_iff.mp hs
    obtain ⟨rfl, rfl⟩ := Prod.mk.inj he
    obtain ⟨hreg, halike, howned⟩ := h.handleFinishOne ht
    exact ⟨hreg, halike, fun x hx => List.mem_singleton.mp hx ▸ howned⟩

end Registered

/-- All ranges in the ring lie inside the memory. -/
def RegisteredIn (m : Memory) (p : Pool) : Prop := ∀ i, m.Holds (p.br.bufs (i &&& p.mask))

end Pool

/-! ## Runs -/

inductive HoldingOp where
  /-- A completion is handled. -/
  | finish (c : Completion)
  /-- The provided buffer at index `j` is destroyed or reset. -/
  | drop (j : ℕ)
deriving DecidableEq, Repr

namespace Holding

def init (p : Pool) : Holding := ⟨p, []⟩

/-- Any completions, also those that the kernel would not send. -/
def step (s : Holding) : HoldingOp → Option Holding
  | .finish c => (s.finish c).map Prod.snd
  | .drop j => s.drop j

/-- `p` is the pool as it was constructed. -/
structure Inv (p : Pool) (s : Holding) : Prop where
  registered : s.pool.Registered
  alike : p.Alike s.pool
  live : ∀ b ∈ s.live, p.Owned b

variable {p : Pool} {s s' : Holding}

theorem Inv.step {op : HoldingOp} (h : s.Inv p) (hs : s.step op = some s') : s'.Inv p := by
  cases op with
  | finish c =>
    obtain ⟨⟨bs, t⟩, ht, rfl⟩ := Option.map_eq_some_iff.mp hs
    obtain ⟨⟨_, q⟩, hq, he⟩ := Option.map_eq_some_iff.mp ht
    obtain ⟨rfl, rfl⟩ := Prod.mk.inj he
    obtain ⟨hreg, halike, howned⟩ := h.registered.finish hq
    refine ⟨hreg, h.alike.trans halike, fun b hb => ?_⟩
    rcases List.mem_append.mp hb with hb | hb
    · exact h.live b hb
    · exact h.alike.owned.mp (howned b hb)
  | drop j =>
    obtain ⟨b, hb, rfl⟩ := Option.map_eq_some_iff.mp hs
    obtain ⟨hreg, halike⟩ := h.registered.reset (h.alike.owned.mpr (h.live b (List.mem_of_getElem? hb)))
    exact ⟨hreg, h.alike.trans halike, fun x hx => h.live x (List.mem_of_mem_eraseIdx hx)⟩

variable {base n size c : ℕ} {incr : Bool}

/-- At every point of a run the ranges in the ring are those of buffers of the pool. -/
theorem run_registered {ops : List HoldingOp} (hp : Pool.create base n size incr = some p)
    (hrun : run step (init p) ops = some s) : s.Inv p :=
  run_inv (fun _ _ _ h hs => h.step hs) ops
    (⟨Pool.create_registered hp, .refl p, fun _ hb => absurd hb List.not_mem_nil⟩ : (init p).Inv p) hrun

/-- Memory that holds all buffers holds what is registered. -/
theorem Inv.registeredIn {len : ℕ} (h : s.Inv p) (hlen : p.numBuffers * p.bufferSize ≤ len) :
    s.pool.RegisteredIn ⟨p.buffersBase, len⟩ := by
  intro i
  obtain ⟨bid, hbid, hslot⟩ := h.registered.slots i
  rw [hslot, h.alike.entry]
  have hend : (bid + 1) * p.bufferSize ≤ p.numBuffers * p.bufferSize :=
    Nat.mul_le_mul_right _ (by rw [← h.alike.num]; exact hbid)
  rw [Nat.add_mul, Nat.one_mul] at hend
  refine ⟨Nat.le_add_right _ _, ?_⟩
  change p.buffersBase + bid * p.bufferSize + p.bufferSize ≤ p.buffersBase + len
  omega

/-- The constructor registers the last buffer. -/
theorem le_of_registeredIn {len : ℕ} (hp : Pool.create base n size incr = some p)
    (h : p.RegisteredIn ⟨p.buffersBase, len⟩) : p.numBuffers * p.bufferSize ≤ len := by
  obtain ⟨hoff, -, -, -⟩ := Pool.create_offers hp
  have hpos := hoff.num_pos
  have hlast := hoff.entry_at (i := p.numBuffers - 1) (by rw [List.length_map, List.length_range]; omega)
  rw [List.getElem_map, List.getElem_range] at hlast
  have hend := (h ((0 + (p.numBuffers - 1)) % 2 ^ 16)).2
  rw [hlast] at hend
  change p.buffersBase + (p.numBuffers - 1) * p.bufferSize + p.bufferSize ≤ p.buffersBase + len at hend
  have hmul : (p.numBuffers - 1) * p.bufferSize + p.bufferSize = p.numBuffers * p.bufferSize := by
    rw [← Nat.succ_mul, Nat.succ_eq_add_one, Nat.sub_add_cancel hpos]
  omega

/-- The members that the constructor initialises. -/
theorem create_members (hc : bitCeil 32 n = some c) (hp : Pool.create base n size incr = some p) :
    p.buffersBase = base ∧ p.numBuffers = c ∧ p.bufferSize = size % 2 ^ 32 := by
  unfold Pool.create at hp
  rw [hc, Option.bind_some] at hp
  obtain ⟨-, hp⟩ := Option.ite_none_left_eq_some.mp hp
  obtain rfl := Option.some.inj hp
  exact ⟨rfl, rfl, rfl⟩

/-- **Where the registered ranges lie**, for every count that can be rounded up, every size, every series of completions
and drops.  External memory of `num_buffers * buffer_size` bytes holds them exactly if the rounded count of buffers of
the narrowed size fits.  Memory that the pool maps always holds them; `cleanup_` unmaps the length that was mapped
exactly if nothing of the product is lost when the size is narrowed. -/
theorem registered_inside_iff (hc : bitCeil 32 n = some c) :
    (∀ base incr p, Pool.create base n size incr = some p →
      ((∀ ops s, run step (init p) ops = some s → s.pool.RegisteredIn ⟨base, n * size⟩) ↔
        c * (size % 2 ^ 32) ≤ n * size)) ∧
    (∀ base incr p, Pool.create base n size incr = some p →
      ∀ ops s, run step (init p) ops = some s → s.pool.RegisteredIn ⟨base, mappedLen c size⟩) ∧
    (unmappedLen c (size % 2 ^ 32) = mappedLen c size ↔ 2 ^ 32 ∣ c * (size / 2 ^ 32)) := by
  obtain ⟨k, hk, rfl, -⟩ := bitCeil_pow hc
  refine ⟨fun base incr p hp => ⟨fun h => ?_, fun hle ops s hrun => ?_⟩, fun base incr p hp ops s hrun => ?_,
    unmapped_eq_mapped_iff size k⟩
  · obtain ⟨rfl, hnum, hsize⟩ := create_members hc hp
    have hle := le_of_registeredIn hp (h [] (init p) rfl)
    rwa [hnum, hsize] at hle
  · obtain ⟨rfl, hnum, hsize⟩ := create_members hc hp
    exact (run_registered hp hrun).registeredIn (by rwa [hnum, hsize])
  · obtain ⟨rfl, hnum, hsize⟩ := create_members hc hp
    exact (run_registered hp hrun).registeredIn (by rw [hnum, hsize]; exact le_mappedLen size hk)

/-- Four buffers of 16 bytes in 64 bytes. -/
theorem registered_inside_four : ∃ p, Pool.create 4096 4 16 false = some p ∧
    ∀ ops s, run step (init p) ops = some s → s.pool.RegisteredIn ⟨4096, 64⟩ := by
  obtain ⟨p, hp⟩ := Option.isSome_iff_exists.mp (by decide : (Pool.create 4096 4 16 false).isSome)
  obtain ⟨hinside, -, -⟩ := registered_inside_iff (n := 4) (c := 4) (by decide : bitCeil 32 4 = some 4)
  exact ⟨p, hp, (hinside 4096 false p hp).mpr (by decide)⟩

/-- Three buffers of 16 bytes in 48 bytes: the constructor registers a fourth one behind the end of the memory.  And of
one mapped buffer of `2 ^ 32 + 4096` bytes only the last 4096 are counted by `cleanup_`. -/
theorem registered_outside :
    (Pool.create 4096 3 16 false).map (fun p => p.br.bufs (3 &&& p.mask)) = some ⟨4144, 16, 3⟩ ∧
    ¬ (⟨4096, 3 * 16⟩ : Memory).Holds ⟨4144, 16, 3⟩ ∧
    mappedLen 1 (2 ^ 32 + 4096) = 2 ^ 32 + 4096 ∧ unmappedLen 1 ((2 ^ 32 + 4096) % 2 ^ 32) = 4096 := by
  decide

end Holding

end Condy.ProvidedBuffers
