import Condy.ProvidedBuffers.PoolOrder

/-!
# Condy.ProvidedBuffers.PoolSlices — a pool with `IOU_PBUF_RING_INC`

The kernel fills a buffer of such a pool by several completions, and `handle_finish` hands it out in as many slices.  Only
the slice with the last byte owns the buffer; when it is dropped, the whole buffer is offered to the kernel again.

The kernel, the completions that were not handled and the private head all count bytes from the first entry in the ring on:
`br_head_` and `curr_buf_len_` stand `used` bytes behind its start, and the kernel stands `bytes` more behind.  A live slice
lies before the private head in the first entry, or in a buffer that is not in the ring (`Sliced`).  This is kept as long
as an owner is dropped after the other slices of its buffer (`LastSlice`), and only then.
-/

namespace Condy.ProvidedBuffers

open Lib

structure IncrSystem extends Holding where
  /-- The kernel's 16-bit head of the ring. -/
  khead : ℕ
  /-- The bytes of the entry at the head that the kernel has used. -/
  koff : ℕ
  /-- The completions that were not reaped, oldest first. -/
  inflight : List Completion

inductive IncrOp where
  /-- The kernel completes an operation with the next `res` bytes of the ring, of one buffer if the operation is not
  bundled. -/
  | take (res : ℕ) (bundled : Bool)
  /-- An operation ends without a buffer. -/
  | fail (res : ℤ) (bundled : Bool)
  /-- The oldest completion is reaped. -/
  | reap
  /-- The provided buffer at index `j` of the live ones is destroyed or reset. -/
  | drop (j : ℕ)
deriving DecidableEq, Repr

namespace IncrSystem

def init (p : Pool) : IncrSystem := { pool := p, khead := 0, koff := 0, inflight := [], live := [] }

/-- The number of entries between the kernel's head and the tail. -/
def entries (s : IncrSystem) : ℕ := (s.pool.br.tail + 2 ^ 16 - s.khead) % 2 ^ 16

/-- The byte ranges, as start and length, that the ring offers to the kernel. -/
def offered (s : IncrSystem) : List (ℕ × ℕ) :=
  (List.range s.entries).map fun i =>
    let e := s.pool.br.bufs ((s.khead + i) % 2 ^ 16 &&& s.pool.mask)
    let off := if i = 0 then s.koff else 0
    (e.addr + off, e.len - off)

/-- The entries have `buffer_size_` bytes each; the kernel leaves one with its last byte. -/
def take (s : IncrSystem) (res : ℕ) (bundled : Bool) : Option IncrSystem :=
  let size := s.pool.bufferSize
  if s.pool.isIncr = false ∨ res = 0 ∨ 2 ^ 31 ≤ res ∨ s.entries * size < s.koff + res ∨
      (bundled = false ∧ size < s.koff + res) then none else
  some { s with
    khead := (s.khead + (s.koff + res) / size) % 2 ^ 16
    koff := (s.koff + res) % size
    inflight := s.inflight ++ [⟨⟨res, true, (s.pool.br.bufs (s.khead &&& s.pool.mask)).bid⟩, bundled⟩] }

def finish (s : IncrSystem) (c : Completion) : Option IncrSystem :=
  (s.toHolding.finish c).map fun (_, h) => { s with toHolding := h }

def step (s : IncrSystem) : IncrOp → Option IncrSystem
  | .take res bundled => s.take res bundled
  | .fail res bundled => s.finish ⟨⟨res, false, 0⟩, bundled⟩
  | .reap =>
    match s.inflight with
    | [] => none
    | c :: cs => ({ s with inflight := cs }).finish c
  | .drop j => (s.toHolding.drop j).map fun h => { s with toHolding := h }

/-- No byte of a live slice is offered to the kernel. -/
def Apart (s : IncrSystem) : Prop :=
  ∀ b ∈ s.live, ∀ r ∈ s.offered, ∀ x, ¬((b.data ≤ x ∧ x < b.data + b.size) ∧ r.1 ≤ x ∧ x < r.1 + r.2)

/-- An owner is dropped when no other slice of its buffer is alive. -/
def LastSlice (s : IncrSystem) : IncrOp → Prop
  | .drop j => ∀ b, s.live[j]? = some b → b.owns = true →
    ∀ x ∈ s.live.eraseIdx j, 0 < x.size → s.pool.bidOf x ≠ s.pool.bidOf b
  | _ => True

end IncrSystem

/-! ## Slices and positions -/

/-- The bytes of the first entry that `handle_finish` has handed out. -/
def Pool.used (p : Pool) : ℕ := p.bufferSize - p.currBufLen

/-- The slice lies in the buffer. -/
structure Pool.Within (p : Pool) (b : ProvidedBuffer) (bid off : ℕ) : Prop where
  data : b.data = p.getBuffer bid + off
  fits : off + b.size ≤ p.bufferSize

theorem Pool.Within.bidOf_eq {p : Pool} {b : ProvidedBuffer} {bid off : ℕ} (h : p.Within b bid off) (hb : 0 < b.size) :
    p.bidOf b = bid := by
  have := h.fits
  unfold bidOf
  rw [h.data, getBuffer, Nat.add_assoc, Nat.add_sub_cancel_left, Nat.mul_comm, Nat.mul_add_div (by omega),
    Nat.div_eq_of_lt (by omega), Nat.add_zero]

/-- The private head `used` bytes and the kernel `used + bytes` bytes behind the start of the first entry of `es`. -/
structure Sliced (p : Pool) (khead koff : ℕ) (live : List ProvidedBuffer) (hd : ℕ) (es : List IoUringBuf) (bytes : ℕ) :
    Prop where
  offers : p.Offers hd es
  incr : p.isIncr = true
  asserts : p.asserts = true
  curr_le : p.currBufLen ≤ p.bufferSize
  curr_pos : 0 < p.bufferSize → 0 < p.currBufLen
  fits : p.used + bytes ≤ es.length * p.bufferSize
  khead : khead = (hd + (p.used + bytes) / p.bufferSize) % 2 ^ 16
  koff : koff = (p.used + bytes) % p.bufferSize
  ids : (es.map IoUringBuf.bid ++ (live.filter (·.owns)).map p.bidOf).Perm (List.range p.numBuffers)
  owners : ∀ b ∈ live, b.owns = true → 0 < b.size
  slices : ∀ b ∈ live, 0 < b.size → ∃ bid off, p.Within b bid off ∧
    (bid ∉ es.map IoUringBuf.bid ∨ (es.head?.map IoUringBuf.bid = some bid ∧ off + b.size ≤ p.used))

/-- What the loop of `handle_finish` does with `n` bytes: it stops inside the first buffer, or hands out the rest of it
with the buffer and goes on with the next entry. -/
inductive Reads : Pool → ℕ → List IoUringBuf → ℕ → List ProvidedBuffer → Pool → ℕ → List IoUringBuf → Prop
  | done (p : Pool) (hd : ℕ) (es : List IoUringBuf) : Reads p hd es 0 [] p hd es
  | part {p : Pool} {hd n : ℕ} {e : IoUringBuf} {es : List IoUringBuf} (hpos : 0 < n) (hlt : n < p.currBufLen) :
    Reads p hd (e :: es) n [⟨p.getBuffer e.bid + p.used, n, false⟩] { p with currBufLen := p.currBufLen - n } hd (e :: es)
  | last {p p' : Pool} {hd hd' n : ℕ} {e : IoUringBuf} {es es' : List IoUringBuf} {bs : List ProvidedBuffer}
    (hle : p.currBufLen ≤ n) (hpos : 0 < p.currBufLen)
    (h : Reads { p with brHead := (hd + 1) % 2 ^ 16, currBufLen := p.bufferSize } (hd + 1) es (n - p.currBufLen)
      bs p' hd' es') :
    Reads p hd (e :: es) n (⟨p.getBuffer e.bid + p.used, p.currBufLen, true⟩ :: bs) p' hd' es'

namespace Sliced

variable {p : Pool} {khead koff : ℕ} {live : List ProvidedBuffer} {hd : ℕ} {es : List IoUringBuf} {bytes rest : ℕ}

theorem nodup (h : Sliced p khead koff live hd es bytes) : (es.map IoUringBuf.bid).Nodup :=
  (List.nodup_append.mp (h.ids.nodup_iff.mpr List.nodup_range)).1

/-- A turn of the loop hands out the bytes that are left of the first buffer, or as many of them as are asked for. -/
theorem slice_eq {e : IoUringBuf} (h : Sliced p khead koff live hd (e :: es) bytes) {n : ℕ} (hn : n < 2 ^ 31) :
    p.slice n = if n < p.currBufLen then
        (⟨p.getBuffer e.bid + p.used, n, false⟩, { p with currBufLen := p.currBufLen - n })
      else (⟨p.getBuffer e.bid + p.used, p.currBufLen, true⟩,
        { p with brHead := (hd + 1) % 2 ^ 16, currBufLen := p.bufferSize }) := by
  have hb : (p.brHead + 1) % 2 ^ 16 = (hd + 1) % 2 ^ 16 := by
    rw [h.offers.head]
    exact wrap_add_one
  have hmod : (n : ℤ).toNat % 2 ^ 32 = n := by
    rw [Int.toNat_natCast]
    exact Nat.mod_eq_of_lt (by omega)
  unfold Pool.slice
  rw [h.offers.curr_eq]
  simp only [h.incr, if_true, hmod, Pool.advanceIoUringBuf, hb]
  by_cases hlt : n < p.currBufLen
  · rw [if_pos hlt, Nat.min_eq_left hlt.le, if_neg (by omega)]
    rfl
  · rw [if_neg hlt, Nat.min_eq_right (Nat.le_of_not_lt hlt), if_pos (Nat.sub_self _)]
    rfl

theorem used_add_curr (h : Sliced p khead koff live hd es bytes) : p.used + p.currBufLen = p.bufferSize :=
  Nat.sub_add_cancel h.curr_le

/-- The rest of the first buffer is handed out, with the buffer. -/
theorem slice_last {e : IoUringBuf} (h : Sliced p khead koff live hd (e :: es) (bytes + rest)) (hle : p.currBufLen ≤ bytes)
    (hpos : 0 < p.currBufLen) :
    Sliced { p with brHead := (hd + 1) % 2 ^ 16, currBufLen := p.bufferSize } khead koff
      (live ++ [⟨p.getBuffer e.bid + p.used, p.currBufLen, true⟩]) (hd + 1) es (bytes - p.currBufLen + rest) := by
  have hsum := h.used_add_curr
  have hnodup := h.nodup
  rw [List.map_cons, List.nodup_cons] at hnodup
  have hwithin : p.Within ⟨p.getBuffer e.bid + p.used, p.currBufLen, true⟩ e.bid p.used := ⟨rfl, hsum.le⟩
  have hbid := hwithin.bidOf_eq hpos
  -- both heads are one buffer further
  have hshift : p.used + (bytes + rest) = bytes - p.currBufLen + rest + p.bufferSize := by omega
  have hused : ({ p with brHead := (hd + 1) % 2 ^ 16, currBufLen := p.bufferSize } : Pool).used = 0 := Nat.sub_self _
  have hoffers := h.offers.next
  refine ⟨⟨hoffers.pow, hoffers.mask, hoffers.size, hoffers.head, hoffers.tail, hoffers.win, hoffers.entries⟩, h.incr,
    h.asserts, le_rfl, id, ?_, ?_, ?_, ?_, ?_, ?_⟩
  · have hfits := h.fits
    rw [hshift, List.length_cons, Nat.succ_mul] at hfits
    rw [hused, Nat.zero_add]
    exact Nat.le_of_add_le_add_right hfits
  · rw [h.khead, hused, Nat.zero_add, hshift, Nat.add_div_right _ (by omega)]
    congr 1
    dsimp only
    omega
  · rw [h.koff, hused, Nat.zero_add, hshift, Nat.add_mod_right]
  · change (es.map _ ++ ((live ++ [_]).filter _).map p.bidOf).Perm (List.range p.numBuffers)
    rw [List.filter_append, List.map_append, ← List.append_assoc]
    refine List.Perm.trans ?_ h.ids
    rw [List.filter_cons_of_pos rfl, List.filter_nil, List.map_singleton, hbid, List.map_cons, List.cons_append]
    exact List.perm_append_singleton _ _
  · exact forall_mem_snoc h.owners fun _ => hpos
  · refine forall_mem_snoc (fun b hb hbs => ?_) fun _ =>
      ⟨e.bid, p.used, ⟨hwithin.data, hwithin.fits⟩, .inl hnodup.1⟩
    obtain ⟨bid, off, hw, hplace⟩ := h.slices b hb hbs
    refine ⟨bid, off, ⟨hw.data, hw.fits⟩, .inl fun hmem => ?_⟩
    rcases hplace with hout | ⟨hhead, -⟩
    · exact hout (List.mem_cons_of_mem _ hmem)
    · obtain rfl : e.bid = bid := Option.some.inj hhead
      exact hnodup.1 hmem

/-- A part of the first buffer is handed out. -/
theorem slice_part {e : IoUringBuf} (h : Sliced p khead koff live hd (e :: es) (bytes + rest)) (hlt : bytes < p.currBufLen) :
    Sliced { p with currBufLen := p.currBufLen - bytes } khead koff
      (live ++ [⟨p.getBuffer e.bid + p.used, bytes, false⟩]) hd (e :: es) rest := by
  have hsum := h.used_add_curr
  have hused : ({ p with currBufLen := p.currBufLen - bytes } : Pool).used = p.used + bytes := by
    change p.bufferSize - (p.currBufLen - bytes) = _
    omega
  have hshift : p.used + (bytes + rest) = p.used + bytes + rest := (Nat.add_assoc _ _ _).symm
  refine ⟨⟨h.offers.pow, h.offers.mask, h.offers.size, h.offers.head, h.offers.tail, h.offers.win, h.offers.entries⟩,
    h.incr, h.asserts, (Nat.sub_le _ _).trans h.curr_le, fun _ => Nat.sub_pos_of_lt hlt, ?_, ?_, ?_, ?_, ?_, ?_⟩
  · rw [hused, ← hshift]
    exact h.fits
  · rw [hused, ← hshift]
    exact h.khead
  · rw [hused, ← hshift]
    exact h.koff
  · rw [List.filter_append, List.filter_cons_of_neg (by simp), List.filter_nil, List.append_nil]
    exact h.ids
  · exact forall_mem_snoc h.owners fun ho => (nomatch ho)
  · rw [hused]
    refine forall_mem_snoc (fun b hb hbs => ?_) fun _ => ?_
    · obtain ⟨bid, off, hw, hplace⟩ := h.slices b hb hbs
      exact ⟨bid, off, ⟨hw.data, hw.fits⟩, hplace.imp_right fun hp => ⟨hp.1, hp.2.trans (Nat.le_add_right _ _)⟩⟩
    · exact ⟨e.bid, p.used, ⟨rfl, by change p.used + bytes ≤ p.bufferSize; omega⟩, .inr ⟨rfl, le_rfl⟩⟩

/-- Bytes that are taken and not handed out lie in an entry. -/
theorem exists_entry (h : Sliced p khead koff live hd es bytes) (hb : 0 < bytes) :
    (∃ e es', es = e :: es') ∧ 0 < p.currBufLen := by
  have hfits := h.fits
  have hmul : 0 < es.length * p.bufferSize := by omega
  exact ⟨List.exists_cons_of_length_pos (Nat.pos_of_mul_pos_right hmul), h.curr_pos (Nat.pos_of_mul_pos_left hmul)⟩

theorem slices_turn (fuel : ℕ) {n : ℕ} {b : ProvidedBuffer} {p' : Pool} (hn : 0 < n) (hs : p.slice n = (b, p'))
    (hb : b.size ≤ n) :
    p.slices (fuel + 1) n = (p'.slices fuel (n - b.size : ℕ)).map fun (bs, p'') => (b :: bs, p'') := by
  rw [Pool.slices_turn fuel (Int.natCast_pos.mpr hn) hs, Int.ofNat_sub hb]

/-- The loop of `handle_finish` takes `n` bytes from the private head on. -/
theorem slices_reads : ∀ {fuel : ℕ} {p : Pool} {live : List ProvidedBuffer} {hd : ℕ} {es : List IoUringBuf} {n : ℕ},
    Sliced p khead koff live hd es (n + rest) → n ≤ fuel → n < 2 ^ 31 →
    ∃ bs p' hd' es', p.slices fuel n = some (bs, p') ∧ Reads p hd es n bs p' hd' es' := by
  intro fuel
  induction fuel with
  | zero =>
    intro p live hd es n h hf _
    obtain rfl : n = 0 := Nat.le_zero.mp hf
    exact ⟨[], p, hd, es, Pool.slices_done _ le_rfl, .done p hd es⟩
  | succ fuel ih =>
    intro p live hd es n h hf hmax
    by_cases h0 : n = 0
    · subst h0
      exact ⟨[], p, hd, es, Pool.slices_done _ le_rfl, .done p hd es⟩
    · obtain ⟨⟨e, es, rfl⟩, hcurr⟩ := h.exists_entry (by omega)
      have hslice := h.slice_eq hmax
      by_cases hlt : n < p.currBufLen
      · -- the bytes end inside the first buffer
        rw [if_pos hlt] at hslice
        have hdone := slices_turn fuel (by omega : 0 < n) hslice le_rfl
        rw [Nat.sub_self, Nat.cast_zero, Pool.slices_done fuel le_rfl] at hdone
        exact ⟨_, _, hd, e :: es, hdone, .part (by omega) hlt⟩
      · rw [if_neg hlt] at hslice
        obtain ⟨bs, p', hd', es', hbs, hreads⟩ := ih (h.slice_last (Nat.le_of_not_lt hlt) hcurr) (by omega) (by omega)
        have hturn := slices_turn fuel (by omega : 0 < n) hslice (Nat.le_of_not_lt hlt)
        rw [hbs] at hturn
        exact ⟨_, p', hd', es', hturn, .last (Nat.le_of_not_lt hlt) hcurr hreads⟩

end Sliced

namespace Reads

variable {p p' : Pool} {hd hd' n : ℕ} {es es' : List IoUringBuf} {bs : List ProvidedBuffer}

theorem bufferSize_eq (h : Reads p hd es n bs p' hd' es') : p'.bufferSize = p.bufferSize := by
  induction h with
  | done => rfl
  | part => rfl
  | last _ _ _ ih => exact ih

theorem sliced {khead koff rest : ℕ} {live : List ProvidedBuffer} (h : Reads p hd es n bs p' hd' es')
    (hS : Sliced p khead koff live hd es (n + rest)) : Sliced p' khead koff (live ++ bs) hd' es' rest := by
  induction h generalizing live with
  | done =>
    rw [Nat.zero_add] at hS
    rwa [List.append_nil]
  | part _ hlt => exact hS.slice_part hlt
  | last hle hpos _ ih =>
    have hrest := ih (hS.slice_last hle hpos)
    rwa [List.append_assoc] at hrest

/-- Bytes that end in the first buffer come as one slice. -/
theorem length_one (h : Reads p hd es n bs p' hd' es') (hpos : 0 < n) (hle : n ≤ p.currBufLen) : bs.length = 1 := by
  cases h with
  | done => exact absurd hpos (lt_irrefl 0)
  | part => rfl
  | last hle' _ h =>
    obtain rfl : n = p.currBufLen := hle.antisymm hle'
    rw [Nat.sub_self] at h
    cases h with
    | done => rfl
    | part h0 => exact absurd h0 (lt_irrefl 0)
    | last hge h0 => exact absurd hge (Nat.not_le_of_lt h0)

end Reads

/-- **The loop of `handle_finish`** hands out `bytes` bytes from the private head on. -/
theorem Sliced.slices_eq {khead koff rest fuel : ℕ} {p : Pool} {live : List ProvidedBuffer} {hd : ℕ}
    {es : List IoUringBuf} {bytes : ℕ} (h : Sliced p khead koff live hd es (bytes + rest)) (hf : bytes ≤ fuel)
    (hmax : bytes < 2 ^ 31) :
    ∃ bs p' hd' es', p.slices fuel bytes = some (bs, p') ∧ Sliced p' khead koff (live ++ bs) hd' es' rest ∧
      p'.bufferSize = p.bufferSize ∧ (0 < bytes → bytes ≤ p.currBufLen → bs.length = 1) := by
  obtain ⟨bs, p', hd', es', hslices, hreads⟩ := h.slices_reads hf hmax
  exact ⟨bs, p', hd', es', hslices, hreads.sliced h, hreads.bufferSize_eq, hreads.length_one⟩

namespace Sliced

variable {p : Pool} {khead koff : ℕ} {live l r : List ProvidedBuffer} {b : ProvidedBuffer} {hd : ℕ}
  {es : List IoUringBuf} {bytes : ℕ}

/-- An owner that is dropped comes back behind the last entry. -/
theorem owner_back (h : Sliced p khead koff live hd es bytes) (hb : b ∈ live) (ho : b.owns = true) :
    es.length < p.numBuffers ∧ ∃ br, p.addBufferBack b.data b.size = { p with br := br } ∧
      ({ p with br := br } : Pool).Offers hd (es ++ [p.entry (p.bidOf b)]) := by
  have hmem : p.bidOf b ∈ (live.filter (·.owns)).map p.bidOf :=
    List.mem_map_of_mem (List.mem_filter.mpr ⟨hb, ho⟩)
  have hlt : p.bidOf b < p.numBuffers :=
    List.mem_range.mp (h.ids.subset (List.mem_append_right _ hmem))
  have hlen : es.length < p.numBuffers := by
    have hcount := h.ids.length_eq
    have := List.length_pos_of_mem hmem
    rw [List.length_append, List.length_map, List.length_range] at hcount
    omega
  obtain ⟨bid, off, hw, -⟩ := h.slices b hb (h.owners b hb ho)
  have hfits := hw.fits
  refine ⟨hlen, h.offers.addBufferBack hlen hlt ?_ (by omega)⟩
  rw [hw.data, Pool.getBuffer]
  omega

/-- A slice that owns nothing is dropped. -/
theorem drop_slice (h : Sliced p khead koff (l ++ b :: r) hd es bytes) (ho : b.owns = false) :
    Sliced p khead koff (l ++ r) hd es bytes := by
  have hmem : l ++ r ⊆ l ++ b :: r := ((List.sublist_cons_self b r).append_left l).subset
  have hids := h.ids
  rw [List.filter_append, List.filter_cons, ho, if_neg Bool.false_ne_true, ← List.filter_append] at hids
  exact ⟨h.offers, h.incr, h.asserts, h.curr_le, h.curr_pos, h.fits, h.khead, h.koff, hids,
    fun x hx => h.owners x (hmem hx), fun x hx => h.slices x (hmem hx)⟩

/-- The slices that own nothing can be left out. -/
theorem owners_only (h : Sliced p khead koff live hd es bytes) :
    Sliced p khead koff (live.filter (·.owns)) hd es bytes where
  offers := h.offers
  incr := h.incr
  asserts := h.asserts
  curr_le := h.curr_le
  curr_pos := h.curr_pos
  fits := h.fits
  khead := h.khead
  koff := h.koff
  ids := by
    rw [List.filter_filter]
    simp only [Bool.and_self]
    exact h.ids
  owners := fun b hb => h.owners b (List.mem_of_mem_filter hb)
  slices := fun b hb => h.slices b (List.mem_of_mem_filter hb)

/-- An owner is dropped when no other slice of its buffer is alive. -/
theorem drop_owner (h : Sliced p khead koff (l ++ b :: r) hd es bytes) (ho : b.owns = true)
    (hlast : ∀ x ∈ l ++ r, 0 < x.size → p.bidOf x ≠ p.bidOf b) :
    ∃ br, p.addBufferBack b.data b.size = { p with br := br } ∧
      Sliced { p with br := br } khead koff (l ++ r) hd (es ++ [p.entry (p.bidOf b)]) bytes := by
  have hmem : l ++ r ⊆ l ++ b :: r := ((List.sublist_cons_self b r).append_left l).subset
  have hids := h.ids
  rw [List.filter_append, List.filter_cons, ho, if_pos rfl, List.map_append, List.map_cons] at hids
  obtain ⟨-, br, hadd, hoff⟩ := h.owner_back (List.mem_append_right _ List.mem_cons_self) ho
  refine ⟨br, hadd, ⟨hoff, h.incr, h.asserts, h.curr_le, h.curr_pos, ?_, h.khead, h.koff, ?_,
    fun x hx => h.owners x (hmem hx), ?_⟩⟩
  · rw [List.length_append, Nat.add_mul]
    exact Nat.le_add_right_of_le h.fits
  · refine List.Perm.trans ?_ hids
    change ((es ++ [_]).map _ ++ ((l ++ r).filter _).map p.bidOf).Perm _
    rw [List.filter_append, List.map_append, List.map_append, List.append_assoc]
    refine List.Perm.append_left _ ?_
    rw [List.map_singleton, List.singleton_append]
    exact List.perm_middle.symm
  · intro x hx hxs
    obtain ⟨bid, off, hw, hplace⟩ := h.slices x (hmem hx) hxs
    refine ⟨bid, off, ⟨hw.data, hw.fits⟩, ?_⟩
    rcases hplace with hout | ⟨hhead, hle⟩
    · refine .inl fun hin => ?_
      rw [List.map_append] at hin
      rcases List.mem_append.mp hin with hin | hin
      · exact hout hin
      · have hne := hlast x hx hxs
        rw [hw.bidOf_eq hxs] at hne
        exact hne (List.mem_singleton.mp hin)
    · refine .inr ⟨?_, hle⟩
      have hne : es ≠ [] := by
        rintro rfl
        nomatch hhead
      rw [List.head?_append_of_ne_nil _ hne]
      exact hhead

end Sliced

/-! ## The completions that were not reaped -/

def bytesOf (cs : List Completion) : ℕ := (cs.map fun c => c.cqe.res.toNat).sum

/-- The completions, the first of which starts `a` bytes behind the start of a buffer, have bytes, and in one buffer each
if they are not bundled. -/
def Spans (size : ℕ) : ℕ → List Completion → Prop
  | _, [] => True
  | a, c :: cs =>
    (c.cqe.fBuffer = true ∧ 0 < c.cqe.res ∧ c.cqe.res < 2 ^ 31 ∧
      (c.bundled = false → a % size + c.cqe.res.toNat ≤ size)) ∧ Spans size (a + c.cqe.res.toNat) cs

section Spans

variable {size : ℕ} {c : Completion}

theorem Spans.snoc : ∀ {cs : List Completion} {a : ℕ}, Spans size a cs → Spans size (a + bytesOf cs) [c] →
    Spans size a (cs ++ [c])
  | [], _, _, h => h
  | d :: cs, a, ⟨hd, hcs⟩, h => by
    refine ⟨hd, hcs.snoc ?_⟩
    rwa [Nat.add_assoc]

theorem bytesOf_snoc (cs : List Completion) : bytesOf (cs ++ [c]) = bytesOf cs + c.cqe.res.toNat := by
  simp [bytesOf]

/-- Whole buffers before the first completion do not matter. -/
theorem Spans.mod : ∀ {cs : List Completion} {a b : ℕ}, a % size = b % size → Spans size a cs → Spans size b cs
  | [], _, _, _, h => h
  | _ :: _, _, _, he, ⟨⟨hf, hpos, hmax, hone⟩, hcs⟩ =>
    ⟨⟨hf, hpos, hmax, he ▸ hone⟩, hcs.mod (Nat.ModEq.add_right _ he)⟩

end Spans

/-! ## The system -/

namespace IncrSystem

structure InSlices (s : IncrSystem) (hd : ℕ) (es : List IoUringBuf) : Prop where
  sliced : Sliced s.pool s.khead s.koff s.live hd es (bytesOf s.inflight)
  spans : Spans s.pool.bufferSize s.pool.used s.inflight

section Steps

variable {s s' : IncrSystem} {hd : ℕ} {es : List IoUringBuf}

theorem init_inSlices {base num bufferSize : ℕ} {p : Pool} (hp : Pool.create base num bufferSize true = some p) :
    (init p).InSlices 0 ((List.range p.numBuffers).map p.entry) := by
  obtain ⟨ho, hi, hc, ha⟩ := Pool.create_offers hp
  have hstart : (init p).pool.used + bytesOf (init p).inflight = 0 := Nat.sub_eq_zero_of_le hc.ge
  have hid : (IoUringBuf.bid ∘ p.entry) = id := rfl
  refine ⟨⟨ho, hi, ha, hc.le, fun h => hc.symm ▸ h, ?_, ?_, ?_, ?_, fun _ hb => (nomatch hb), fun _ hb => (nomatch hb)⟩,
    trivial⟩
  · rw [hstart]
    exact Nat.zero_le _
  · rw [hstart, Nat.zero_div]
    rfl
  · rw [hstart, Nat.zero_mod]
    rfl
  · simp [init, hid]

/-- The number of entries the kernel has. -/
theorem InSlices.entries_eq (h : s.InSlices hd es) :
    s.entries = es.length - (s.pool.used + bytesOf s.inflight) / s.pool.bufferSize ∧
      (s.pool.used + bytesOf s.inflight) / s.pool.bufferSize ≤ es.length := by
  have hle : (s.pool.used + bytesOf s.inflight) / s.pool.bufferSize ≤ es.length := by
    rcases Nat.eq_zero_or_pos s.pool.bufferSize with h0 | hpos
    · rw [h0, Nat.div_zero]
      exact Nat.zero_le _
    · exact Nat.div_le_of_le_mul (by rw [Nat.mul_comm]; exact h.sliced.fits)
  have hlen : es.length ≤ s.pool.numBuffers := by
    have := h.sliced.ids.length_eq
    rw [List.length_append, List.length_map, List.length_range] at this
    omega
  have hnum := h.sliced.offers.num_lt
  refine ⟨?_, hle⟩
  unfold entries
  rw [h.sliced.offers.tail, h.sliced.khead]
  exact wrap_dist hle (((Nat.sub_le _ _).trans hlen).trans_lt hnum)

/-- An owner that is dropped comes back behind the last entry. -/
theorem InSlices.owner_back {b : ProvidedBuffer} (h : s.InSlices hd es) (hb : b ∈ s.live) (ho : b.owns = true) :
    es.length < s.pool.numBuffers ∧ ∃ br, s.pool.addBufferBack b.data b.size = { s.pool with br := br } ∧
      ({ s.pool with br := br } : Pool).Offers hd (es ++ [s.pool.entry (s.pool.bidOf b)]) :=
  h.sliced.owner_back hb ho

theorem take_inSlices {res : ℕ} {bundled : Bool} (h : s.InSlices hd es) (hs : s.take res bundled = some s') :
    s'.InSlices hd es := by
  obtain ⟨hg, hs⟩ := Option.ite_none_left_eq_some.mp hs
  obtain rfl := Option.some.inj hs
  push Not at hg
  obtain ⟨-, hpos, hmax, hroom, hone⟩ := hg
  obtain ⟨hentries, hle⟩ := h.entries_eq
  have hkhead := h.sliced.khead
  have hkoff := h.sliced.koff
  rw [hentries] at hroom
  -- the kernel's position in bytes
  obtain ⟨pos, hpos'⟩ : ∃ pos, pos = s.pool.used + bytesOf s.inflight := ⟨_, rfl⟩
  rw [← hpos'] at hle hroom hkhead hkoff
  have hdm := Nat.div_add_mod pos s.pool.bufferSize
  have hnext : s.pool.used + bytesOf (s.inflight ++ [⟨⟨res, true, (s.pool.br.bufs (s.khead &&& s.pool.mask)).bid⟩,
      bundled⟩]) = pos + res := by
    rw [bytesOf_snoc, ← Nat.add_assoc, ← hpos', Int.toNat_natCast]
  have hsplit : pos + res = s.koff + res + s.pool.bufferSize * (pos / s.pool.bufferSize) := by omega
  have hsize : 0 < s.pool.bufferSize := by
    rcases Nat.eq_zero_or_pos s.pool.bufferSize with h0 | hp
    · rw [h0, Nat.mul_zero] at hroom
      omega
    · exact hp
  refine ⟨⟨h.sliced.offers, h.sliced.incr, h.sliced.asserts, h.sliced.curr_le, h.sliced.curr_pos, ?_, ?_, ?_,
    h.sliced.ids, h.sliced.owners, h.sliced.slices⟩, h.spans.snoc ?_⟩
  · change _ ≤ es.length * s.pool.bufferSize
    rw [hnext, hsplit]
    have hmul : (es.length - pos / s.pool.bufferSize) * s.pool.bufferSize +
        s.pool.bufferSize * (pos / s.pool.bufferSize) = es.length * s.pool.bufferSize := by
      rw [Nat.mul_comm s.pool.bufferSize, ← Nat.add_mul, Nat.sub_add_cancel hle]
    omega
  · change (s.khead + (s.koff + res) / s.pool.bufferSize) % 2 ^ 16 = (hd + _ / s.pool.bufferSize) % 2 ^ 16
    rw [hnext, hsplit, Nat.add_mul_div_left _ _ hsize, hkhead, Nat.mod_add_mod]
    congr 1
    omega
  · rw [hnext, hsplit, Nat.add_mul_mod_self_left]
  · refine ⟨⟨rfl, by simpa using Nat.pos_of_ne_zero hpos, by simpa using hmax, fun hb => ?_⟩, trivial⟩
    rw [← hpos', ← hkoff, Int.toNat_natCast]
    exact hone hb

theorem fail_inSlices {res : ℤ} {bundled : Bool} (h : s.InSlices hd es) (hs : step s (.fail res bundled) = some s') :
    s'.InSlices hd es := by
  obtain ⟨bs, hfin, hbs⟩ := Pool.finish_fail (p := s.pool) res bundled
  rw [step, finish, Holding.finish_eq hfin] at hs
  obtain rfl := Option.some.inj hs
  have hS := h.sliced
  have hfilter : bs.filter (·.owns) = [] :=
    List.filter_eq_nil_iff.mpr fun b hb => by rw [(hbs b hb).2]; exact Bool.false_ne_true
  refine ⟨⟨hS.offers, hS.incr, hS.asserts, hS.curr_le, hS.curr_pos, hS.fits, hS.khead, hS.koff, ?_, fun b hb ho => ?_,
    fun b hb hpos => ?_⟩, h.spans⟩
  · change (_ ++ ((s.live ++ bs).filter _).map _).Perm _
    rw [List.filter_append, hfilter, List.append_nil]
    exact hS.ids
  · rcases List.mem_append.mp hb with hb | hb
    · exact hS.owners b hb ho
    · rw [(hbs b hb).2] at ho
      nomatch ho
  · rcases List.mem_append.mp hb with hb | hb
    · exact hS.slices b hb hpos
    · rw [(hbs b hb).1] at hpos
      exact absurd hpos (lt_irrefl 0)

/-- `handle_finish` on the oldest completion returns and hands out its bytes. -/
theorem reap_inSlices (h : s.InSlices hd es) {c : Completion} {cs : List Completion} (hcs : s.inflight = c :: cs) :
    ∃ s' hd' es', step s .reap = some s' ∧ s'.InSlices hd' es' := by
  have hspans := h.spans
  rw [hcs] at hspans
  obtain ⟨⟨hf, hpos, hmax, hone⟩, hrest⟩ := hspans
  have hbytes : bytesOf s.inflight = c.cqe.res.toNat + bytesOf cs := by
    rw [hcs]
    rfl
  have hS := h.sliced
  rw [hbytes] at hS
  obtain ⟨bs, p', hd', es', hslices, hS', hsize, hlen⟩ := hS.slices_eq (le_refl c.cqe.res.toNat) (by omega)
  have hcast : (c.cqe.res.toNat : ℤ) = c.cqe.res := Int.toNat_of_nonneg hpos.le
  have hfin : s.pool.handleFinish c.cqe = some (bs, p') := by
    rw [Pool.handleFinish_eq hf hpos]
    rwa [hcast] at hslices
  -- the private head went on by the bytes of the completion
  have hmod : (s.pool.used + c.cqe.res.toNat) % s.pool.bufferSize = p'.used % s.pool.bufferSize := by
    have hkoff := hS.koff
    rw [hS'.koff, hsize, ← Nat.add_assoc] at hkoff
    exact (Nat.ModEq.add_right_cancel' (bytesOf cs) hkoff).symm
  have hspans' : Spans p'.bufferSize p'.used cs := by
    rw [hsize]
    exact hrest.mod hmod
  refine ⟨{ s with inflight := cs, pool := p', live := s.live ++ bs }, hd', es', ?_, hS', hspans'⟩
  -- an operation on the pool itself stays inside one buffer
  have hlone : c.bundled = false → bs.length = 1 := fun hb => by
    have hsum := hS.used_add_curr
    obtain ⟨-, hcurr⟩ := hS.exists_entry (by omega)
    have hfits := hone hb
    rw [Nat.mod_eq_of_lt (by omega)] at hfits
    exact hlen (by omega) (by omega)
  have hhold := Holding.finish_eq (s := s.toHolding) (Pool.finish_of_handleFinish hfin hlone)
  rw [step, hcs]
  dsimp only
  rw [finish, hhold]
  rfl

/-- A slice is dropped: an owner comes back behind the last entry, and with it nothing that is alive. -/
theorem drop_inSlices {j : ℕ} (h : s.InSlices hd es) (hg : LastSlice s (.drop j)) (hs : step s (.drop j) = some s') :
    ∃ fs, s'.InSlices hd (es ++ fs) := by
  obtain ⟨t, ht, rfl⟩ := Option.map_eq_some_iff.mp hs
  obtain ⟨b, hb, rfl⟩ := Option.map_eq_some_iff.mp ht
  obtain ⟨l, r, hl, he, -⟩ := split_getElem? hb
  have hlast := hg b hb
  have hS := h.sliced
  rw [he] at hlast ⊢
  rw [hl] at hS
  unfold Pool.reset
  cases ho : b.owns with
  | false =>
    refine ⟨[], ⟨?_, h.spans⟩⟩
    rw [List.append_nil]
    exact hS.drop_slice ho
  | true =>
    obtain ⟨br, hadd, hS'⟩ := hS.drop_owner ho (hlast ho)
    rw [if_pos rfl, hadd]
    exact ⟨_, hS', h.spans⟩

/-- **Step lemma**: with owners dropped last, like every other step, no slice comes back to the ring. -/
theorem step_inSlices (op : IncrOp) (h : s.InSlices hd es) (hg : LastSlice s op) (hs : step s op = some s') :
    ∃ hd' es', s'.InSlices hd' es' := by
  cases op with
  | take res bundled => exact ⟨hd, es, take_inSlices h hs⟩
  | fail res bundled => exact ⟨hd, es, fail_inSlices h hs⟩
  | reap =>
    by_cases hne : s.inflight = []
    · rw [step, hne] at hs
      nomatch hs
    · obtain ⟨c, cs, hcs⟩ := List.exists_cons_of_ne_nil hne
      obtain ⟨t, hd', es', ht, hI⟩ := reap_inSlices h hcs
      obtain rfl := Option.some.inj (hs.symm.trans ht)
      exact ⟨hd', es', hI⟩
  | drop j =>
    obtain ⟨fs, hI⟩ := drop_inSlices h hg hs
    exact ⟨hd, es ++ fs, hI⟩

/-! ## What the ring offers -/

/-- The kernel at entry `k` of the window: the ring offers what is left of this entry and all of the later ones. -/
theorem mem_offered_iff {k : ℕ} {r : ℕ × ℕ} (ho : s.pool.Offers hd es) (hk : s.khead = (hd + k) % 2 ^ 16)
    (hle : k ≤ es.length) (hlen : es.length < 2 ^ 16) : r ∈ s.offered ↔ ∃ i e, es[k + i]? = some e ∧
      r = (s.pool.getBuffer e.bid + (if i = 0 then s.koff else 0),
        s.pool.bufferSize - (if i = 0 then s.koff else 0)) := by
  have hcount : s.entries = es.length - k := by
    unfold entries
    rw [ho.tail, hk]
    exact wrap_dist hle (by omega)
  have hentry : ∀ i e, es[k + i]? = some e →
      s.pool.br.bufs ((s.khead + i) % 2 ^ 16 &&& s.pool.mask) = s.pool.entry e.bid := by
    intro i e he
    obtain ⟨hi, rfl⟩ := List.getElem?_eq_some_iff.mp he
    rw [hk, Nat.mod_add_mod, Nat.add_assoc, ho.entry_at hi]
    exact ho.entries _ (List.getElem_mem hi)
  unfold offered
  rw [hcount, List.mem_map]
  constructor
  · rintro ⟨i, hi, rfl⟩
    have hlt : k + i < es.length := by
      have := List.mem_range.mp hi
      omega
    have he := List.getElem?_eq_getElem hlt
    refine ⟨i, _, he, ?_⟩
    dsimp only
    rw [hentry i _ he]
    rfl
  · rintro ⟨i, e, he, rfl⟩
    obtain ⟨hlt, -⟩ := List.getElem?_eq_some_iff.mp he
    refine ⟨i, List.mem_range.mpr (by omega), ?_⟩
    dsimp only
    rw [hentry i e he]
    rfl

theorem InSlices.length_le (h : s.InSlices hd es) : es.length ≤ s.pool.numBuffers := by
  have := h.sliced.ids.length_eq
  rw [List.length_append, List.length_map, List.length_range] at this
  omega

/-- A kernel that has used all entries stands at the start of the next one. -/
theorem InSlices.koff_last (h : s.InSlices hd es)
    (hall : (s.pool.used + bytesOf s.inflight) / s.pool.bufferSize = es.length) : s.koff = 0 := by
  have hdm := Nat.div_add_mod (s.pool.used + bytesOf s.inflight) s.pool.bufferSize
  have hfits := h.sliced.fits
  rw [hall, ← h.sliced.koff, Nat.mul_comm] at hdm
  omega

/-- Different buffers have no byte in common. -/
theorem getBuffer_add_le (p : Pool) {a b : ℕ} (hab : a < b) : p.getBuffer a + p.bufferSize ≤ p.getBuffer b := by
  unfold Pool.getBuffer
  have := Nat.mul_le_mul_right p.bufferSize (Nat.succ_le_of_lt hab)
  rw [Nat.succ_mul] at this
  omega

theorem InSlices.apart (h : s.InSlices hd es) : s.Apart := by
  intro b hb r hr x hx
  have hS := h.sliced
  obtain ⟨-, hle⟩ := h.entries_eq
  obtain ⟨i, e, he, rfl⟩ := (mem_offered_iff hS.offers hS.khead hle
    (h.length_le.trans_lt hS.offers.num_lt)).mp hr
  dsimp only at hx
  obtain ⟨bid, off, hw, hplace⟩ := hS.slices b hb (by omega)
  have hfits := hw.fits
  have hdata := hw.data
  have hsize : 0 < s.pool.bufferSize := by omega
  have hkoff : s.koff < s.pool.bufferSize := hS.koff ▸ Nat.mod_lt _ hsize
  have hoff : (if i = 0 then s.koff else 0) ≤ s.pool.bufferSize := by
    split_ifs
    · exact hkoff.le
    · exact Nat.zero_le _
  rcases Nat.lt_trichotomy e.bid bid with hlt | heq | hgt
  · have := getBuffer_add_le s.pool hlt
    omega
  · -- the slice is of a buffer in the ring: the first one, before the private head
    have hmem : bid ∈ es.map IoUringBuf.bid := List.mem_map.mpr ⟨e, List.mem_of_getElem? he, heq⟩
    obtain ⟨hhead, hused⟩ := hplace.resolve_left (not_not_intro hmem)
    have hfirst : (es.map IoUringBuf.bid)[0]? = (es.map IoUringBuf.bid)[(s.pool.used + bytesOf s.inflight) /
        s.pool.bufferSize + i]? := by
      rw [← List.head?_eq_getElem?, List.head?_map, hhead, List.getElem?_map, he, Option.map_some, heq]
    have hzero := (List.getElem?_inj (List.length_pos_of_mem hmem) hS.nodup).mp hfirst
    obtain ⟨hk, rfl⟩ := Nat.add_eq_zero_iff.mp hzero.symm
    have hpos : s.koff = s.pool.used + bytesOf s.inflight := by
      have hdm := Nat.div_add_mod (s.pool.used + bytesOf s.inflight) s.pool.bufferSize
      rw [hk, Nat.mul_zero, Nat.zero_add, ← hS.koff] at hdm
      exact hdm
    rw [heq, if_pos rfl] at hx
    omega
  · have := getBuffer_add_le s.pool hgt
    omega

/-- A drop keeps the slices apart from the ring exactly if it is the last one of its buffer. -/
theorem InSlices.drop_apart_iff {j : ℕ} (h : s.InSlices hd es) (hs : step s (.drop j) = some s') :
    s'.Apart ↔ LastSlice s (.drop j) := by
  constructor
  · intro hA b hb ho x hx hxs hsame
    obtain ⟨t, ht, rfl⟩ := Option.map_eq_some_iff.mp hs
    obtain ⟨b', hb', rfl⟩ := Option.map_eq_some_iff.mp ht
    obtain rfl := Option.some.inj (hb.symm.trans hb')
    have hS := h.sliced
    obtain ⟨hroom, br, hadd, hoff⟩ := h.owner_back (List.mem_of_getElem? hb) ho
    have hreset : s.pool.reset b = { s.pool with br := br } := by
      unfold Pool.reset
      rw [if_pos ho, hadd]
    rw [hreset] at hA
    have hnum := hS.offers.num_lt
    obtain ⟨-, hle⟩ := h.entries_eq
    have hkhead := hS.khead
    have hlast := h.koff_last
    generalize (s.pool.used + bytesOf s.inflight) / s.pool.bufferSize = k at hle hkhead hlast
    -- the buffer that came back is the last entry, all of it
    have hoffer := (mem_offered_iff (s := { s with live := s.live.eraseIdx j, pool := { s.pool with br := br } }) hoff
      hkhead (hle.trans (by simp)) (by rw [List.length_append, List.length_singleton]; omega)).mpr
      ⟨es.length - k, s.pool.entry (s.pool.bidOf b), by rw [Nat.add_sub_cancel' hle]; exact List.getElem?_concat_length,
        rfl⟩
    have hzero : (if es.length - k = 0 then s.koff else 0) = 0 := by
      split_ifs with h0
      · exact hlast (by omega)
      · rfl
    dsimp only at hoffer
    rw [hzero] at hoffer
    obtain ⟨bid, off, hw, -⟩ := hS.slices x (List.mem_of_mem_eraseIdx hx) hxs
    have hbid := hw.bidOf_eq hxs
    have hdata := hw.data
    have hfits := hw.fits
    have hstart : s.pool.getBuffer bid = s.pool.getBuffer (s.pool.bidOf b) := by rw [← hbid, hsame]
    refine hA x hx _ hoffer x.data ⟨⟨le_rfl, by omega⟩, ?_⟩
    change s.pool.getBuffer (s.pool.bidOf b) + 0 ≤ x.data ∧
      x.data < s.pool.getBuffer (s.pool.bidOf b) + 0 + (s.pool.bufferSize - 0)
    omega
  · intro hg
    obtain ⟨fs, hI⟩ := drop_inSlices h hg hs
    exact hI.apart

end Steps

/-- **Slices and ring stay apart** in every run that drops an owner only after the other slices of its buffer.  After such
a run a drop keeps them apart exactly if it does so too. -/
theorem slices_apart {base num bufferSize : ℕ} {p : Pool} (hp : Pool.create base num bufferSize true = some p)
    {ops : List IncrOp} {s : IncrSystem} (hg : Along step LastSlice (init p) ops)
    (hrun : run step (init p) ops = some s) :
    s.Apart ∧ s.pool.asserts = true ∧ (s.inflight ≠ [] → ∃ s', step s .reap = some s') ∧
    ∀ j s', step s (.drop j) = some s' → (s'.Apart ↔ LastSlice s (.drop j)) := by
  obtain ⟨hd, es, h⟩ : ∃ hd es, s.InSlices hd es := by
    refine run_inv_along (I := fun s => ∃ hd es, s.InSlices hd es) ?_ ops ⟨0, _, init_inSlices hp⟩ hg hrun
    rintro s op t ⟨hd, es, hI⟩ hg hs
    exact step_inSlices op hI hg hs
  refine ⟨h.apart, h.sliced.asserts, fun hne => ?_, fun j s' hs => h.drop_apart_iff hs⟩
  obtain ⟨c, cs, hcs⟩ := List.exists_cons_of_ne_nil hne
  obtain ⟨s', -, -, hs', -⟩ := reap_inSlices h hcs
  exact ⟨s', hs'⟩

instance (s : IncrSystem) : (op : IncrOp) → Decidable (LastSlice s op)
  | .drop j => decidable_of_iff (∀ b ∈ s.live[j]?, b.owns = true →
      ∀ x ∈ s.live.eraseIdx j, 0 < x.size → s.pool.bidOf x ≠ s.pool.bidOf b) Iff.rfl
  | .take _ _ => .isTrue trivial
  | .fail _ _ => .isTrue trivial
  | .reap => .isTrue trivial

/-- A buffer of 8 bytes comes in two slices, and the owner is dropped after the other one. -/
theorem slices_apart_run : ∃ p s, Pool.create 64 1 8 true = some p ∧
    run step (init p) [.take 4 false, .reap, .take 4 false, .reap, .drop 0, .drop 0, .take 3 false, .reap] = some s ∧
    s.offered = [(67, 5)] ∧ s.live = [⟨64, 3, false⟩] ∧ s.Apart := by
  have hrun : ((Pool.create 64 1 8 true).bind fun p => (run step (init p) [.take 4 false, .reap, .take 4 false, .reap,
      .drop 0, .drop 0, .take 3 false, .reap]).map fun s => (s.offered, s.live)) =
      some ([(67, 5)], [⟨64, 3, false⟩]) := by decide +kernel
  have hguard : (Pool.create 64 1 8 true).all (fun p => decide (Along step LastSlice (init p) [.take 4 false, .reap,
      .take 4 false, .reap, .drop 0, .drop 0, .take 3 false, .reap])) = true := by decide +kernel
  obtain ⟨p, hp, hrun⟩ := Option.bind_eq_some_iff.mp hrun
  obtain ⟨s, hs, hend⟩ := Option.map_eq_some_iff.mp hrun
  obtain ⟨hoff, hlive⟩ := Prod.mk.inj hend
  rw [hp] at hguard
  exact ⟨p, s, hp, hs, hoff, hlive, (slices_apart hp (of_decide_eq_true hguard) hs).1⟩

/-- The owner of the second half of a buffer is dropped first: the ring offers the first half, which is alive. -/
theorem owner_dropped_first : ∃ p s, Pool.create 64 1 8 true = some p ∧
    run step (init p) [.take 4 false, .reap, .take 4 false, .reap, .drop 1] = some s ∧
    s.live = [⟨64, 4, false⟩] ∧ s.offered = [(64, 8)] ∧ ¬s.Apart := by
  have hrun : ((Pool.create 64 1 8 true).bind fun p => (run step (init p) [.take 4 false, .reap, .take 4 false, .reap,
      .drop 1]).map fun s => (s.live, s.offered)) = some ([⟨64, 4, false⟩], [(64, 8)]) := by decide +kernel
  obtain ⟨p, hp, hrun⟩ := Option.bind_eq_some_iff.mp hrun
  obtain ⟨s, hs, hend⟩ := Option.map_eq_some_iff.mp hrun
  obtain ⟨hlive, hoff⟩ := Prod.mk.inj hend
  refine ⟨p, s, hp, hs, hlive, hoff, fun hA => ?_⟩
  exact hA ⟨64, 4, false⟩ (by rw [hlive]; simp) (64, 8) (by rw [hoff]; simp) 64 (by decide)

end IncrSystem

end Condy.ProvidedBuffers
