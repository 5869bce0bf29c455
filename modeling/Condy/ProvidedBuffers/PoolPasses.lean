import Condy.ProvidedBuffers.PoolMemory
import Condy.ProvidedBuffers.PoolSlices

/-!
# Condy.ProvidedBuffers.PoolPasses — which bytes the slices of a pool with `IOU_PBUF_RING_INC` are

The kernel and `handle_finish` go over the same bytes: those of the ring entries, one entry after the other
(`ringBytes`).  The kernel is ahead by the completions that were not reaped.  It is modelled byte by byte here
(`Pool.write`), with the position that it keeps itself and the lengths that stand in the ring.

What `handle_finish` does with the bytes of a completion is `Reads`, and everything is proved from that: the slices are
the bytes that the kernel wrote (`Reads.ringBytes_eq`), and all slices together are passes over buffers, each of which
ends with the only slice that owns its buffer (`Reads.passes`).
-/

namespace Condy.ProvidedBuffers

open Lib

/-- The addresses of the bytes of a slice. -/
def ProvidedBuffer.bytes (b : ProvidedBuffer) : List ℕ := List.range' b.data b.size

def IoUringBuf.bytes (e : IoUringBuf) : List ℕ := List.range' e.addr e.len

/-- The addresses of the bytes of the entries, in the order in which they are used. -/
def ringBytes (es : List IoUringBuf) : List ℕ := es.flatMap IoUringBuf.bytes

/-- The kernel writes `n` bytes from offset `koff` of the entry at `khead` on, and goes to the next entry when one is
full.  `none`: the entries do not have as many bytes. -/
def Pool.write (p : Pool) : ℕ → ℕ → ℕ → Option (List ℕ × ℕ × ℕ)
  | 0, khead, koff => some ([], khead, koff)
  | n + 1, khead, koff =>
    let e := p.br.bufs (khead &&& p.mask)
    if khead = p.br.tail ∨ e.len ≤ koff then none else
    (if koff + 1 = e.len then p.write n ((khead + 1) % 2 ^ 16) 0 else p.write n khead (koff + 1)).map
      fun (as, pos) => ((e.addr + koff) :: as, pos)

/-- A completion and the bytes that the kernel wrote for it. -/
structure Written where
  cqe : Cqe
  bytes : List ℕ
deriving DecidableEq, Repr

/-- A completion that was reaped and what `handle_finish` returned for it. -/
structure Handed where
  written : Written
  slices : List ProvidedBuffer
deriving DecidableEq, Repr

structure PassSystem extends Holding where
  /-- The kernel's 16-bit head of the ring. -/
  khead : ℕ
  /-- The bytes of the entry at the head that the kernel has used. -/
  koff : ℕ
  /-- The completions that were not reaped, oldest first. -/
  inflight : List Written
  handed : List Handed

inductive PassOp where
  /-- The kernel completes an operation with the next `res` bytes of the ring. -/
  | take (res : ℕ)
  /-- The oldest completion is reaped. -/
  | reap
  /-- The provided buffer at index `j` of the live ones is destroyed or reset. -/
  | drop (j : ℕ)
deriving DecidableEq, Repr

namespace PassSystem

def init (p : Pool) : PassSystem := { pool := p, khead := 0, koff := 0, inflight := [], live := [], handed := [] }

def step (s : PassSystem) : PassOp → Option PassSystem
  | .take res =>
    if res = 0 ∨ 2 ^ 31 ≤ res then none else
    (s.pool.write res s.khead s.koff).map fun (as, khead, koff) =>
      { s with
        khead := khead
        koff := koff
        inflight := s.inflight ++ [⟨⟨res, true, (s.pool.br.bufs (s.khead &&& s.pool.mask)).bid⟩, as⟩] }
  | .reap =>
    match s.inflight with
    | [] => none
    | w :: ws => (s.toHolding.finish ⟨w.cqe, true⟩).map fun (bs, h) =>
        { s with toHolding := h, inflight := ws, handed := s.handed ++ [⟨w, bs⟩] }
  | .drop j => (s.toHolding.drop j).map fun h => { s with toHolding := h }

end PassSystem

/-! ## The bytes of the ring -/

section RingBytes

variable {size : ℕ} {e : IoUringBuf} {es : List IoUringBuf}

theorem ringBytes_append (es fs : List IoUringBuf) : ringBytes (es ++ fs) = ringBytes es ++ ringBytes fs :=
  List.flatMap_append

theorem ringBytes_cons_drop {o : ℕ} (he : e.len = size) (ho : o ≤ size) :
    (ringBytes (e :: es)).drop o = List.range' (e.addr + o) (size - o) ++ ringBytes es := by
  unfold ringBytes
  rw [List.flatMap_cons, IoUringBuf.bytes, he, List.drop_append_of_le_length (by rwa [List.length_range']),
    List.drop_range', Nat.mul_one]

/-- The bytes from a position inside an entry on. -/
theorem ringBytes_drop (hes : ∀ e ∈ es, e.len = size) {q o : ℕ} (hq : q < es.length) (ho : o ≤ size) :
    (ringBytes es).drop (q * size + o) = List.range' (es[q].addr + o) (size - o) ++ ringBytes (es.drop (q + 1)) := by
  induction q generalizing es with
  | zero =>
    obtain ⟨e, es, rfl⟩ := List.exists_cons_of_length_pos hq
    rw [Nat.zero_mul, Nat.zero_add]
    exact ringBytes_cons_drop (hes e List.mem_cons_self) ho
  | succ q ih =>
    obtain ⟨e, es, rfl⟩ := List.exists_cons_of_length_pos (Nat.zero_lt_of_lt hq)
    have hlen : e.bytes.length = size := by
      rw [IoUringBuf.bytes, List.length_range', hes e List.mem_cons_self]
    have hskip : (ringBytes (e :: es)).drop ((q + 1) * size + o) = (ringBytes es).drop (q * size + o) := by
      rw [show (q + 1) * size + o = e.bytes.length + (q * size + o) by rw [hlen]; ring, ← List.drop_drop]
      exact congrArg (List.drop _) (List.drop_left ..)
    rw [hskip, ih (fun x hx => hes x (List.mem_cons_of_mem e hx)) (Nat.lt_of_succ_lt_succ hq)]
    rfl

end RingBytes

theorem Pool.used_le (p : Pool) : p.used ≤ p.bufferSize := Nat.sub_le _ _

/-- What is left of the first entry, and the other entries. -/
theorem Pool.first_drop {p : Pool} {e : IoUringBuf} {es : List IoUringBuf} {o : ℕ} (he : e = p.entry e.bid)
    (ho : o ≤ p.bufferSize) :
    (ringBytes (e :: es)).drop o = List.range' (p.getBuffer e.bid + o) (p.bufferSize - o) ++ ringBytes es := by
  have haddr : e.addr = p.getBuffer e.bid := congrArg IoUringBuf.addr he
  rw [← haddr]
  exact ringBytes_cons_drop (congrArg IoUringBuf.len he) ho

/-- The position after one more byte. -/
theorem position_succ {size : ℕ} (hs : 0 < size) (pos : ℕ) :
    ((pos + 1) / size, (pos + 1) % size) =
      if pos % size + 1 = size then (pos / size + 1, 0) else (pos / size, pos % size + 1) := by
  have hdm := Nat.div_add_mod pos size
  have hlt := Nat.mod_lt pos hs
  split_ifs with hfull
  · obtain ⟨h1, h2⟩ := (Nat.div_mod_unique (a := pos + 1) (c := 0) (d := pos / size + 1) hs).mpr
      ⟨by rw [Nat.mul_add]; omega, hs⟩
    rw [h1, h2]
  · obtain ⟨h1, h2⟩ := (Nat.div_mod_unique (a := pos + 1) (c := pos % size + 1) (d := pos / size) hs).mpr
      ⟨by omega, by omega⟩
    rw [h1, h2]

namespace Pool

variable {p : Pool} {hd : ℕ} {es : List IoUringBuf}

theorem Offers.len_eq (h : p.Offers hd es) : ∀ e ∈ es, e.len = p.bufferSize :=
  fun e he => congrArg IoUringBuf.len (h.entries e he)

/-- One byte: the kernel is inside an entry, and its byte is the next one of the ring. -/
theorem Offers.next_byte (h : p.Offers hd es) {pos : ℕ} (hpos : pos ≤ es.length * p.bufferSize)
    (htail : (hd + pos / p.bufferSize) % 2 ^ 16 ≠ p.br.tail) :
    pos / p.bufferSize < es.length ∧ ∃ e, p.br.bufs ((hd + pos / p.bufferSize) % 2 ^ 16 &&& p.mask) = e ∧
      e.len = p.bufferSize ∧ (pos % p.bufferSize < p.bufferSize →
        (ringBytes es).drop pos = (e.addr + pos % p.bufferSize) :: (ringBytes es).drop (pos + 1)) := by
  have hle : pos / p.bufferSize ≤ es.length := Nat.div_le_of_le_mul (by rwa [Nat.mul_comm])
  have hq : pos / p.bufferSize < es.length := by
    refine lt_of_le_of_ne hle fun heq => htail ?_
    rw [heq, h.tail]
  refine ⟨hq, es[pos / p.bufferSize], h.entry_at hq, h.len_eq _ (List.getElem_mem hq), fun ho => ?_⟩
  have hdrop := ringBytes_drop h.len_eq hq ho.le
  rw [Nat.div_add_mod', show p.bufferSize - pos % p.bufferSize = (p.bufferSize - pos % p.bufferSize - 1) + 1 by omega,
    List.range'_succ, List.cons_append] at hdrop
  have htl : (ringBytes es).drop (pos + 1) = ((ringBytes es).drop pos).tail := List.tail_drop.symm
  rw [htl, hdrop]
  rfl

/-- **The kernel writes the next bytes of the ring.** -/
theorem Offers.write_spec (h : p.Offers hd es) :
    ∀ (n : ℕ) {pos khead' koff' : ℕ} {as : List ℕ}, pos ≤ es.length * p.bufferSize →
      p.write n ((hd + pos / p.bufferSize) % 2 ^ 16) (pos % p.bufferSize) = some (as, khead', koff') →
      pos + n ≤ es.length * p.bufferSize ∧ as.length = n ∧
        (ringBytes es).drop pos = as ++ (ringBytes es).drop (pos + n) ∧
        khead' = (hd + (pos + n) / p.bufferSize) % 2 ^ 16 ∧ koff' = (pos + n) % p.bufferSize := by
  intro n
  induction n with
  | zero =>
    intro pos khead' koff' as hpos hw
    obtain ⟨rfl, hk⟩ := Prod.mk.inj (Option.some.inj hw)
    obtain ⟨rfl, rfl⟩ := Prod.mk.inj hk
    exact ⟨hpos, rfl, rfl, rfl, rfl⟩
  | succ n ih =>
    intro pos khead' koff' as hpos hw
    obtain ⟨hguard, hw⟩ := Option.ite_none_left_eq_some.mp hw
    push Not at hguard
    obtain ⟨hq, e, he, helen, hbyte⟩ := h.next_byte hpos hguard.1
    rw [he, helen] at hguard
    rw [he, helen] at hw
    have hstep := position_succ (Nat.zero_lt_of_lt hguard.2) pos
    have hpos' : pos + 1 ≤ es.length * p.bufferSize := by
      have hdm := Nat.div_add_mod' pos p.bufferSize
      have hmul := Nat.mul_le_mul_right p.bufferSize (Nat.succ_le_of_lt hq)
      rw [Nat.succ_mul] at hmul
      omega
    obtain ⟨⟨as', k⟩, hrest, hk⟩ := Option.map_eq_some_iff.mp hw
    obtain ⟨rfl, rfl⟩ := Prod.mk.inj hk
    -- the position behind the byte, as the kernel computes it
    have hnext : p.write n ((hd + (pos + 1) / p.bufferSize) % 2 ^ 16) ((pos + 1) % p.bufferSize) =
        some (as', khead', koff') := by
      split_ifs at hrest hstep with hfull
      · obtain ⟨h1, h2⟩ := Prod.mk.inj hstep
        rw [h1, h2, ← hrest, wrap_add_one, Nat.add_assoc]
      · obtain ⟨h1, h2⟩ := Prod.mk.inj hstep
        rw [h1, h2]
        exact hrest
    obtain ⟨hle, hlen', hdrop, hkh, hko⟩ := ih hpos' hnext
    rw [show pos + (n + 1) = pos + 1 + n by omega]
    refine ⟨hle, congrArg Nat.succ hlen', ?_, hkh, hko⟩
    rw [hbyte hguard.2, hdrop]
    rfl

end Pool

/-! ## The slices of a completion -/

/-- The slices are one pass over the buffer `bid`: they cover it from its first byte to its last, and only the slice with
the last byte owns it. -/
structure Pass (p : Pool) (bid : ℕ) (bs : List ProvidedBuffer) : Prop where
  bid_lt : bid < p.numBuffers
  cover : bs.flatMap ProvidedBuffer.bytes = List.range' (p.getBuffer bid) p.bufferSize
  owner : ∃ before last, bs = before ++ [last] ∧ (∀ b ∈ before, b.owns = false) ∧ last.owns = true ∧ 0 < last.size ∧
    last.data + last.size = p.getBuffer bid + p.bufferSize

/-- The slices of the first entry that were handed out. -/
structure Part (p : Pool) (es : List IoUringBuf) (bs : List ProvidedBuffer) : Prop where
  none_owns : ∀ b ∈ bs, b.owns = false
  cover : ∀ e, es.head? = some e → bs.flatMap ProvidedBuffer.bytes = List.range' (p.getBuffer e.bid) p.used
  empty : es = [] → bs = []

theorem Part.nil {p : Pool} (hu : p.used = 0) (es : List IoUringBuf) : Part p es [] where
  none_owns := fun _ hb => absurd hb List.not_mem_nil
  cover := fun e _ => by rw [hu]; rfl
  empty := fun _ => rfl

/-- The slices of the first entry and one more of its bytes. -/
theorem Part.cover_snoc {p : Pool} {e : IoUringBuf} {es : List IoUringBuf} {bs : List ProvidedBuffer}
    (h : Part p (e :: es) bs) (n : ℕ) (owns : Bool) :
    (bs ++ [(⟨p.getBuffer e.bid + p.used, n, owns⟩ : ProvidedBuffer)]).flatMap ProvidedBuffer.bytes =
      List.range' (p.getBuffer e.bid) (p.used + n) := by
  rw [List.flatMap_append, h.cover e rfl, List.flatMap_singleton, ProvidedBuffer.bytes, ← List.range'_append_1]

namespace Reads

variable {p p' : Pool} {hd hd' n : ℕ} {es es' : List IoUringBuf} {bs : List ProvidedBuffer}

/-- **The slices are the next bytes of the ring**, and the private head stands behind them. -/
theorem ringBytes_eq (h : Reads p hd es n bs p' hd' es') (hes : ∀ e ∈ es, e = p.entry e.bid)
    (hcurr : p.currBufLen ≤ p.bufferSize) :
    (ringBytes es).drop p.used = bs.flatMap ProvidedBuffer.bytes ++ (ringBytes es').drop p'.used ∧
      (bs.flatMap ProvidedBuffer.bytes).length = n := by
  induction h with
  | done => exact ⟨rfl, rfl⟩
  | @part p hd n e es _ hlt =>
    have he := hes e List.mem_cons_self
    have hused : ({ p with currBufLen := p.currBufLen - n } : Pool).used = p.used + n := by
      change p.bufferSize - (p.currBufLen - n) = p.bufferSize - p.currBufLen + n
      omega
    have hle := ({ p with currBufLen := p.currBufLen - n } : Pool).used_le
    rw [hused] at hle ⊢
    have hsplit : p.bufferSize - p.used = n + (p.bufferSize - (p.used + n)) := by
      dsimp only at hle
      omega
    rw [List.flatMap_singleton, ProvidedBuffer.bytes, Pool.first_drop he p.used_le, Pool.first_drop he hle, hsplit,
      ← List.range'_append_1, List.append_assoc, ← Nat.add_assoc]
    exact ⟨rfl, List.length_range' ..⟩
  | @last p p' hd hd' n e es es' bs hle _ _ ih =>
    obtain ⟨hrest, hcount⟩ := ih (fun x hx => hes x (List.mem_cons_of_mem e hx)) le_rfl
    have hstart : ({ p with brHead := (hd + 1) % 2 ^ 16, currBufLen := p.bufferSize } : Pool).used = 0 := Nat.sub_self _
    have hleft : p.bufferSize - p.used = p.currBufLen := Nat.sub_sub_self hcurr
    rw [hstart, List.drop_zero] at hrest
    rw [Pool.first_drop (hes e List.mem_cons_self) p.used_le, hleft, hrest, List.flatMap_cons, ProvidedBuffer.bytes,
      List.append_assoc]
    refine ⟨rfl, ?_⟩
    rw [List.length_append, List.length_range', hcount]
    exact Nat.add_sub_of_le hle

/-- **The slices complete passes**, from those of the first entry that were handed out before. -/
theorem passes (h : Reads p hd es n bs p' hd' es') (hcurr : p.currBufLen ≤ p.bufferSize)
    (hbids : ∀ e ∈ es, e.bid < p.numBuffers) {before : List ProvidedBuffer} (hpart : Part p es before) :
    ∃ (done : List (ℕ × List ProvidedBuffer)) (after : List ProvidedBuffer),
      before ++ bs = done.flatMap Prod.snd ++ after ∧ (∀ x ∈ done, Pass p x.1 x.2) ∧ Part p' es' after := by
  induction h generalizing before with
  | done => exact ⟨[], before, List.append_nil _, fun _ hx => absurd hx List.not_mem_nil, hpart⟩
  | @part p hd n e es _ hlt =>
    refine ⟨[], before ++ [⟨p.getBuffer e.bid + p.used, n, false⟩], rfl, fun _ hx => absurd hx List.not_mem_nil,
      forall_mem_snoc hpart.none_owns rfl, fun x hx => ?_, nofun⟩
    obtain rfl : e = x := Option.some.inj hx
    rw [hpart.cover_snoc]
    change List.range' _ (p.bufferSize - p.currBufLen + n) = List.range' _ (p.bufferSize - (p.currBufLen - n))
    rw [show p.bufferSize - (p.currBufLen - n) = p.bufferSize - p.currBufLen + n by omega]
    rfl
  | @last p p' hd hd' n e es es' bs _ hpos _ ih =>
    obtain ⟨done, after, hsplit, hdone, hafter⟩ := ih le_rfl (fun x hx => hbids x (List.mem_cons_of_mem e hx))
      (Part.nil (Nat.sub_self _) es)
    have hsum : p.used + p.currBufLen = p.bufferSize := Nat.sub_add_cancel hcurr
    refine ⟨(e.bid, before ++ [⟨p.getBuffer e.bid + p.used, p.currBufLen, true⟩]) :: done, after, ?_, ?_, hafter⟩
    · rw [List.nil_append] at hsplit
      rw [List.flatMap_cons, hsplit]
      simp
    · refine List.forall_mem_cons.mpr ⟨⟨hbids e List.mem_cons_self, ?_, before, _, rfl, hpart.none_owns, rfl, hpos, ?_⟩,
        fun x hx => ⟨(hdone x hx).bid_lt, (hdone x hx).cover, (hdone x hx).owner⟩⟩
      · rw [hpart.cover_snoc, hsum]
      · change p.getBuffer e.bid + p.used + p.currBufLen = _
        rw [Nat.add_assoc, hsum]

theorem alike (h : Reads p hd es n bs p' hd' es') : p.Alike p' := by
  induction h with
  | done => exact .refl _
  | part => exact ⟨rfl, rfl, rfl, rfl⟩
  | last _ _ _ ih => exact ⟨ih.base, ih.num, ih.mask, ih.size⟩

end Reads

theorem Pass.alike {p q : Pool} {bid : ℕ} {bs : List ProvidedBuffer} (h : Pass p bid bs) (hq : p.Alike q) :
    Pass q bid bs := by
  have hbuf : q.getBuffer bid = p.getBuffer bid := by
    simp only [Pool.getBuffer, hq.base, hq.size]
  refine ⟨hq.num ▸ h.bid_lt, ?_, ?_⟩
  · rw [hbuf, hq.size]
    exact h.cover
  · rw [hbuf, hq.size]
    exact h.owner

/-- **The owner of a pass registers its buffer again**, whole and under its id; nothing else of the pool changes. -/
theorem Pass.reset {p : Pool} {bid hd : ℕ} {es : List IoUringBuf} {bs : List ProvidedBuffer} {b : ProvidedBuffer}
    (h : Pass p bid bs) (ho : p.Offers hd es) (hb : b ∈ bs) (howns : b.owns = true) :
    p.reset b = { p with br :=
      ⟨Function.update p.br.bufs (p.br.tail &&& p.mask) (p.entry bid), (p.br.tail + 1) % 2 ^ 16⟩ } := by
  obtain ⟨before, last, rfl, hbefore, -, hpos, hend⟩ := h.owner
  obtain rfl : b = last := by
    rcases List.mem_append.mp hb with hb | hb
    · rw [hbefore b hb] at howns
      nomatch howns
    · exact List.mem_singleton.mp hb
  have hle : b.size ≤ p.bufferSize := by
    have hcount := congrArg List.length h.cover
    rw [List.flatMap_append, List.length_append, List.length_range', List.flatMap_singleton, ProvidedBuffer.bytes,
      List.length_range'] at hcount
    omega
  have hbid : (b.data - p.buffersBase) / p.bufferSize = bid :=
    Pool.bidOf_owned (by omega) (by omega)
  have hge : p.buffersBase ≤ b.data := by
    have hbase : p.buffersBase ≤ p.getBuffer bid := Nat.le_add_right _ _
    omega
  have hlt := ho.num_lt
  have hbid_lt := h.bid_lt
  unfold Pool.reset
  rw [if_pos howns]
  rw [Pool.addBufferBack_eq hbid ho.size (hbid_lt.trans hlt)]
  simp only [hge, hle, hbid_lt, decide_true, Bool.and_true]

/-- Entries more behind the others. -/
theorem Part.append {p : Pool} {es : List IoUringBuf} {bs : List ProvidedBuffer} (h : Part p es bs)
    (hu : es = [] → p.used = 0) (fs : List IoUringBuf) : Part p (es ++ fs) bs := by
  refine ⟨h.none_owns, fun e he => ?_, fun hnil => h.empty (List.append_eq_nil_iff.mp hnil).1⟩
  by_cases hes : es = []
  · rw [h.empty hes, hu hes]
    rfl
  · rw [List.head?_append_of_ne_nil _ hes] at he
    exact h.cover e he

/-- A part covers less than one buffer, from its base address on. -/
theorem Part.bounded {p : Pool} {es : List IoUringBuf} {bs : List ProvidedBuffer} (h : Part p es bs)
    (hcurr : 0 < p.bufferSize → 0 < p.currBufLen) (hnum : 0 < p.numBuffers)
    (hbids : ∀ e ∈ es, e.bid < p.numBuffers) : ∃ bid < p.numBuffers, ∃ n, (n < p.bufferSize ∨ n = 0) ∧
      bs.flatMap ProvidedBuffer.bytes = List.range' (p.getBuffer bid) n := by
  cases es with
  | nil =>
    rw [h.empty rfl]
    exact ⟨0, hnum, 0, .inr rfl, rfl⟩
  | cons e es =>
    refine ⟨e.bid, hbids e List.mem_cons_self, p.used, ?_, h.cover e rfl⟩
    have hused : p.used = p.bufferSize - p.currBufLen := rfl
    omega

/-! ## Runs -/

/-- The number of bytes of the completions. -/
def pending (ws : List Written) : ℕ := (ws.map fun w => w.cqe.res.toNat).sum

namespace PassSystem

structure Inv (s : PassSystem) (hd : ℕ) (es : List IoUringBuf) : Prop where
  sliced : Sliced s.pool s.khead s.koff (s.live.filter (·.owns)) hd es (pending s.inflight)
  valid : ∀ w ∈ s.inflight, w.cqe.fBuffer = true ∧ 0 < w.cqe.res ∧ w.cqe.res < 2 ^ 31 ∧
    w.bytes.length = w.cqe.res.toNat
  /-- The kernel is ahead by the bytes of the completions. -/
  ahead : s.inflight.flatMap Written.bytes <+: (ringBytes es).drop s.pool.used
  handed : ∀ h ∈ s.handed, h.slices.flatMap ProvidedBuffer.bytes = h.written.bytes ∧
    (h.written.bytes.length : ℤ) = h.written.cqe.res
  passes : ∃ (done : List (ℕ × List ProvidedBuffer)) (after : List ProvidedBuffer),
    s.handed.flatMap Handed.slices = done.flatMap Prod.snd ++ after ∧ (∀ x ∈ done, Pass s.pool x.1 x.2) ∧
      Part s.pool es after

variable {s s' : PassSystem} {hd : ℕ} {es : List IoUringBuf}

theorem init_inv {base num bufferSize : ℕ} {p : Pool} (hp : Pool.create base num bufferSize true = some p) :
    (init p).Inv 0 ((List.range p.numBuffers).map p.entry) where
  sliced := (IncrSystem.init_inSlices hp).sliced
  valid := fun _ hw => absurd hw List.not_mem_nil
  ahead := List.nil_prefix
  handed := fun _ hh => absurd hh List.not_mem_nil
  passes := by
    obtain ⟨-, -, hcurr, -⟩ := Pool.create_offers hp
    exact ⟨[], [], rfl, fun _ hx => absurd hx List.not_mem_nil, Part.nil (Nat.sub_eq_zero_of_le hcurr.ge) _⟩

theorem length_written {ws : List Written} (h : ∀ w ∈ ws, w.bytes.length = w.cqe.res.toNat) :
    (ws.flatMap Written.bytes).length = pending ws := by
  induction ws with
  | nil => rfl
  | cons w ws ih =>
    rw [List.flatMap_cons, List.length_append, h w List.mem_cons_self,
      ih fun x hx => h x (List.mem_cons_of_mem w hx)]
    rfl

namespace Inv

theorem take {res : ℕ} (h : s.Inv hd es) (hs : s.step (.take res) = some s') : s'.Inv hd es := by
  obtain ⟨hres, hs⟩ := Option.ite_none_left_eq_some.mp hs
  obtain ⟨⟨as, khead, koff⟩, hw, rfl⟩ := Option.map_eq_some_iff.mp hs
  push Not at hres
  have hS := h.sliced
  rw [hS.khead, hS.koff] at hw
  obtain ⟨hle, hlen, hdrop, rfl, rfl⟩ := hS.offers.write_spec res hS.fits hw
  have hpending : pending (s.inflight ++ [⟨⟨res, true, (s.pool.br.bufs (s.khead &&& s.pool.mask)).bid⟩, as⟩]) =
      pending s.inflight + res := by
    simp [pending]
  refine ⟨⟨hS.offers, hS.incr, hS.asserts, hS.curr_le, hS.curr_pos, ?_, ?_, ?_, hS.ids, hS.owners, hS.slices⟩, ?_, ?_,
    h.handed, h.passes⟩
  · rw [hpending, ← Nat.add_assoc]
    exact hle
  · rw [hpending, ← Nat.add_assoc]
  · rw [hpending, ← Nat.add_assoc]
  · refine forall_mem_snoc h.valid ⟨rfl, ?_, ?_, hlen⟩
    · exact Int.natCast_pos.mpr (Nat.pos_of_ne_zero hres.1)
    · dsimp only
      omega
  · obtain ⟨rest, hrest⟩ := h.ahead
    -- what is left behind the completions starts with the bytes that were written now
    have hbehind : rest = (ringBytes es).drop (s.pool.used + pending s.inflight) := by
      rw [← List.drop_drop, ← hrest, ← length_written fun w hw => (h.valid w hw).2.2.2, List.drop_left]
    rw [hbehind, hdrop, ← List.append_assoc] at hrest
    rw [List.flatMap_append, List.flatMap_singleton]
    exact ⟨_, hrest⟩

theorem bids (h : s.Inv hd es) : ∀ e ∈ es, e.bid < s.pool.numBuffers := fun _ he =>
  List.mem_range.mp (h.sliced.ids.subset (List.mem_append_left _ (List.mem_map_of_mem he)))

/-- `handle_finish` on the oldest completion returns, and its slices are what the kernel wrote. -/
theorem reap (h : s.Inv hd es) {w : Written} {ws : List Written} (hws : s.inflight = w :: ws) :
    ∃ s' hd' es', s.step .reap = some s' ∧ s'.Inv hd' es' := by
  have hvalid := h.valid
  have hahead := h.ahead
  rw [hws] at hvalid hahead
  have hpending : pending s.inflight = w.cqe.res.toNat + pending ws := by
    rw [hws]
    rfl
  have hS := h.sliced
  rw [hpending] at hS
  obtain ⟨⟨hf, hpos, hmax, hlen⟩, hrest⟩ := List.forall_mem_cons.mp hvalid
  obtain ⟨bs, p', hd', es', hslices, hreads⟩ := hS.slices_reads (le_refl w.cqe.res.toNat) (by omega)
  have hcast : (w.cqe.res.toNat : ℤ) = w.cqe.res := Int.toNat_of_nonneg hpos.le
  rw [hcast, ← Pool.handleFinish_eq hf hpos] at hslices
  refine ⟨{ s with pool := p', inflight := ws, live := s.live ++ bs, handed := s.handed ++ [⟨w, bs⟩] }, hd', es', ?_, ?_⟩
  · have hhold := Holding.finish_eq (s := s.toHolding) (c := ⟨w.cqe, true⟩) hslices
    rw [step, hws]
    dsimp only
    rw [hhold]
    rfl
  · obtain ⟨hbytes, hcount⟩ := hreads.ringBytes_eq hS.offers.entries hS.curr_le
    obtain ⟨rest, hprefix⟩ := hahead
    rw [List.flatMap_cons, List.append_assoc, hbytes] at hprefix
    obtain ⟨hsame, hnext⟩ := List.append_inj hprefix (hlen.trans hcount.symm)
    refine ⟨?_, hrest, ⟨rest, hnext⟩, forall_mem_snoc h.handed ⟨hsame.symm, ?_⟩, ?_⟩
    · have howners := (hreads.sliced hS).owners_only
      rw [List.filter_append, List.filter_filter] at howners
      simp only [Bool.and_self] at howners
      rw [← List.filter_append] at howners
      exact howners
    · rw [hlen, hcast]
    · obtain ⟨done, after, hsplit, hdone, hpart⟩ := h.passes
      obtain ⟨done', after', hsplit', hdone', hpart'⟩ := hreads.passes hS.curr_le h.bids hpart
      refine ⟨done ++ done', after', ?_, ?_, hpart'⟩
      · rw [List.flatMap_append, hsplit, List.flatMap_singleton, List.append_assoc, hsplit', List.flatMap_append,
          List.append_assoc]
      · intro x hx
        rcases List.mem_append.mp hx with hx | hx
        · exact (hdone x hx).alike hreads.alike
        · exact (hdone' x hx).alike hreads.alike

theorem drop {j : ℕ} (h : s.Inv hd es) (hs : s.step (.drop j) = some s') : ∃ fs, s'.Inv hd (es ++ fs) := by
  obtain ⟨t, ht, rfl⟩ := Option.map_eq_some_iff.mp hs
  obtain ⟨b, hb, rfl⟩ := Option.map_eq_some_iff.mp ht
  obtain ⟨l, r, hl, he, -⟩ := split_getElem? hb
  have hS := h.sliced
  obtain ⟨done, after, hsplit, hdone, hpart⟩ := h.passes
  rw [hl, List.filter_append, List.filter_cons] at hS
  rw [he]
  unfold Pool.reset
  cases ho : b.owns with
  | false =>
    rw [ho, if_neg Bool.false_ne_true, ← List.filter_append] at hS
    refine ⟨[], ?_⟩
    rw [List.append_nil]
    exact ⟨hS, h.valid, h.ahead, h.handed, done, after, hsplit, hdone, hpart⟩
  | true =>
    rw [ho, if_pos rfl] at hS
    -- the owners hold different buffers
    have hlast : ∀ x ∈ l.filter (·.owns) ++ r.filter (·.owns), 0 < x.size → s.pool.bidOf x ≠ s.pool.bidOf b := by
      have hnodup := (List.nodup_append.mp (hS.ids.nodup_iff.mpr List.nodup_range)).2.1
      rw [List.filter_append, List.filter_cons_of_pos ho, List.filter_filter, List.filter_filter] at hnodup
      simp only [Bool.and_self] at hnodup
      rw [List.map_append, List.map_cons, List.nodup_middle, List.nodup_cons, ← List.map_append] at hnodup
      intro x hx _ heq
      exact hnodup.1 (heq ▸ List.mem_map_of_mem hx)
    obtain ⟨br, hadd, hS'⟩ := hS.drop_owner ho hlast
    rw [if_pos rfl, hadd]
    have hempty : es = [] → s.pool.used = 0 := by
      rintro rfl
      have hfits := h.sliced.fits
      rw [List.length_nil, Nat.zero_mul] at hfits
      omega
    have hpart' := hpart.append hempty [s.pool.entry (s.pool.bidOf b)]
    refine ⟨[s.pool.entry (s.pool.bidOf b)], ?_, h.valid, ?_, h.handed, done, after, hsplit, fun x hx => ?_,
      hpart'.none_owns, hpart'.cover, hpart'.empty⟩
    · rw [List.filter_append]
      exact hS'
    · rw [ringBytes_append, List.drop_append]
      exact h.ahead.trans (List.prefix_append _ _)
    · exact (hdone x hx).alike ⟨rfl, rfl, rfl, rfl⟩

/-- **Step lemma.** -/
theorem step {op : PassOp} (h : s.Inv hd es) (hs : s.step op = some s') : ∃ hd' es', s'.Inv hd' es' := by
  cases op with
  | take res => exact ⟨hd, es, h.take hs⟩
  | reap =>
    by_cases hne : s.inflight = []
    · rw [PassSystem.step, hne] at hs
      nomatch hs
    · obtain ⟨w, ws, hws⟩ := List.exists_cons_of_ne_nil hne
      obtain ⟨t, hd', es', ht, hI⟩ := h.reap hws
      obtain rfl := Option.some.inj (hs.symm.trans ht)
      exact ⟨hd', es', hI⟩
  | drop j =>
    obtain ⟨fs, hI⟩ := h.drop hs
    exact ⟨hd, es ++ fs, hI⟩

end Inv

/-- **The slices of a pool in incremental mode**, for every number and size of buffers, every series of results and any
drops in between.  `handle_finish` on the oldest completion returns.  For each completion the slices are, in order, the
bytes that the kernel wrote for it.  All slices that were ever returned are, in order, passes over buffers and a part of
one more, which covers less than a buffer and owns nothing.  Each pass covers its buffer, only its last slice owns it, and
dropping this one registers the buffer again at its base address, with its full length.  No assertion fails. -/
theorem slices_pass {base num bufferSize : ℕ} {p : Pool} (hp : Pool.create base num bufferSize true = some p)
    {ops : List PassOp} (hrun : run step (init p) ops = some s) :
    (s.inflight ≠ [] → ∃ s', s.step .reap = some s') ∧
    (∀ h ∈ s.handed, h.slices.flatMap ProvidedBuffer.bytes = h.written.bytes ∧
      (h.written.bytes.length : ℤ) = h.written.cqe.res) ∧
    (∃ (done : List (ℕ × List ProvidedBuffer)) (after : List ProvidedBuffer),
      s.handed.flatMap Handed.slices = done.flatMap Prod.snd ++ after ∧ (∀ b ∈ after, b.owns = false) ∧
      (∃ bid < s.pool.numBuffers, ∃ n, (n < s.pool.bufferSize ∨ n = 0) ∧
        after.flatMap ProvidedBuffer.bytes = List.range' (s.pool.getBuffer bid) n) ∧
      ∀ x ∈ done, Pass s.pool x.1 x.2 ∧ ∀ b ∈ x.2, b.owns = true → s.pool.reset b = { s.pool with br :=
        ⟨Function.update s.pool.br.bufs (s.pool.br.tail &&& s.pool.mask) (s.pool.entry x.1),
          (s.pool.br.tail + 1) % 2 ^ 16⟩ }) ∧
    s.pool.asserts = true := by
  obtain ⟨hd, es, h⟩ : ∃ hd es, s.Inv hd es := by
    refine run_inv (I := fun s => ∃ hd es, s.Inv hd es) ?_ ops ⟨0, _, init_inv hp⟩ hrun
    rintro s op t ⟨hd, es, hI⟩ hs
    exact hI.step hs
  refine ⟨fun hne => ?_, h.handed, ?_, h.sliced.asserts⟩
  · obtain ⟨w, ws, hws⟩ := List.exists_cons_of_ne_nil hne
    obtain ⟨s', -, -, hs', -⟩ := h.reap hws
    exact ⟨s', hs'⟩
  · obtain ⟨done, after, hsplit, hdone, hpart⟩ := h.passes
    exact ⟨done, after, hsplit, hpart.none_owns, hpart.bounded h.sliced.curr_pos h.sliced.offers.num_pos h.bids,
      fun x hx => ⟨hdone x hx, fun b hb ho => (hdone x hx).reset h.sliced.offers hb ho⟩⟩

/-- Two buffers of 8 bytes, results of 5 and 7 bytes: the second result ends the first buffer. -/
theorem slices_pass_run : ∃ p s, Pool.create 64 2 8 true = some p ∧
    run step (init p) [.take 5, .take 7, .reap, .reap] = some s ∧
    s.handed.map Handed.slices = [[⟨64, 5, false⟩], [⟨69, 3, true⟩, ⟨72, 4, false⟩]] ∧
    ∀ h ∈ s.handed, h.slices.flatMap ProvidedBuffer.bytes = h.written.bytes := by
  have hrun : ((Pool.create 64 2 8 true).bind fun p => (run step (init p) [.take 5, .take 7, .reap, .reap]).map
      fun s => s.handed.map Handed.slices) = some [[⟨64, 5, false⟩], [⟨69, 3, true⟩, ⟨72, 4, false⟩]] := by
    decide +kernel
  obtain ⟨p, hp, hrun⟩ := Option.bind_eq_some_iff.mp hrun
  obtain ⟨s, hs, hend⟩ := Option.map_eq_some_iff.mp hrun
  exact ⟨p, s, hp, hs, hend, fun h hh => ((slices_pass hp hs).2.1 h hh).1⟩

end PassSystem

end Condy.ProvidedBuffers
