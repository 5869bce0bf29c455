import Condy.Lib.Window
import Condy.ManagedBuffer
import Condy.ProvidedBuffers.Pool
import Mathlib.Data.List.Perm.Basic
import Mathlib.Tactic.Linarith
import Mathlib.Tactic.Ring

/-!
# Condy.ProvidedBuffers.PoolOrder — a pool whose completions are reaped in take order

`Pool.Offers p hd es`: the entries of `es` stand in the ring from position `hd` of an unbounded count on, `br_head_`
is at `hd` and the tail behind the last of them.  `InOrder` adds the kernel and the holders: the completions that were
not reaped name the entries from `hd` on, one after the other, and every buffer id is in the ring or with one holder.

`handle_finish` looks only at `br_head_`.  So it returns the buffer that the completion names if the completion is
the oldest one that was not reaped, and `InOrder` is kept exactly by the steps that reap the oldest completion.
-/

namespace Condy.ProvidedBuffers

open Lib

/-! ## The ring and the private head -/

namespace Pool

/-- The ring entry of a buffer. -/
def entry (p : Pool) (bid : ℕ) : IoUringBuf := ⟨p.getBuffer bid, p.bufferSize, bid⟩

/-- The provided buffer that holds all of a buffer. -/
def whole (p : Pool) (bid : ℕ) : ProvidedBuffer := ⟨p.getBuffer bid, p.bufferSize, true⟩

/-- The id that `add_buffer_back` computes from a pointer. -/
def bidOf (p : Pool) (b : ProvidedBuffer) : ℕ := (b.data - p.buffersBase) / p.bufferSize

structure Offers (p : Pool) (hd : ℕ) (es : List IoUringBuf) : Prop where
  pow : ∃ k < 16, p.numBuffers = 2 ^ k
  mask : p.mask = p.numBuffers - 1
  size : p.bufferSize < 2 ^ 32
  head : p.brHead = hd % 2 ^ 16
  tail : p.br.tail = (hd + es.length) % 2 ^ 16
  win : Window p.br.bufs p.numBuffers hd es
  entries : ∀ e ∈ es, e = p.entry e.bid

theorem bidOf_whole (p : Pool) (bid : ℕ) (hs : 0 < p.bufferSize) : p.bidOf (p.whole bid) = bid := by
  unfold bidOf whole getBuffer
  rw [Nat.add_sub_cancel_left]
  exact Nat.mul_div_cancel bid hs

/-- `add_buffer_back` puts the entry of the buffer behind the tail, whatever its assertions say. -/
theorem addBufferBack_eq {p : Pool} {ptr size bid : ℕ} (hid : (ptr - p.buffersBase) / p.bufferSize = bid)
    (hsize : p.bufferSize < 2 ^ 32) (hbid : bid < 2 ^ 16) : p.addBufferBack ptr size =
      { p with
        asserts := p.asserts && decide (size ≤ p.bufferSize) && decide (p.buffersBase ≤ ptr) &&
          decide (bid < p.numBuffers)
        br := ⟨Function.update p.br.bufs (p.br.tail &&& p.mask) (p.entry bid), (p.br.tail + 1) % 2 ^ 16⟩ } := by
  simp only [Pool.addBufferBack, check, BufRing.add, BufRing.advance, hid, Nat.add_zero, Nat.mod_eq_of_lt hsize,
    Nat.mod_eq_of_lt hbid]
  rfl

namespace Offers

variable {p : Pool} {hd : ℕ} {e : IoUringBuf} {es : List IoUringBuf}

theorem slot_eq (h : p.Offers hd es) (i : ℕ) : (i % 2 ^ 16) &&& p.mask = i % p.numBuffers := by
  obtain ⟨k, hk, hn⟩ := h.pow
  exact masked_slot ⟨k, hk.le, hn⟩ h.mask i

theorem num_pos (h : p.Offers hd es) : 0 < p.numBuffers := by
  obtain ⟨k, -, hn⟩ := h.pow
  exact hn ▸ Nat.two_pow_pos k

theorem num_lt (h : p.Offers hd es) : p.numBuffers < 2 ^ 16 := by
  obtain ⟨k, hk, hn⟩ := h.pow
  rw [hn]
  exact Nat.pow_lt_pow_right (by decide) hk

/-- The entry at a position of the window. -/
theorem entry_at (h : p.Offers hd es) {i : ℕ} (hi : i < es.length) :
    p.br.bufs ((hd + i) % 2 ^ 16 &&& p.mask) = es[i] := by
  rw [h.slot_eq]
  exact h.win i hi

theorem curr_eq (h : p.Offers hd (e :: es)) : p.currIoUringBuf = e := by
  unfold currIoUringBuf
  rw [h.head]
  exact h.entry_at (i := 0) (by simp)

theorem next (h : p.Offers hd (e :: es)) :
    ({ p with brHead := (hd + 1) % 2 ^ 16 } : Pool).Offers (hd + 1) es where
  pow := h.pow
  mask := h.mask
  size := h.size
  head := rfl
  tail := by
    rw [show hd + 1 + es.length = hd + (e :: es).length by simp; omega]
    exact h.tail
  win := h.win.tail
  entries := fun x hx => h.entries x (List.mem_cons_of_mem e hx)

/-- A turn of the loop on a ring without `IOU_PBUF_RING_INC` hands out the whole buffer at the private head. -/
theorem slice_eq (h : p.Offers hd (e :: es)) (hi : p.isIncr = false) (hc : p.currBufLen = p.bufferSize) (bytes : ℤ) :
    p.slice bytes = (p.whole e.bid, { p with brHead := (hd + 1) % 2 ^ 16 }) := by
  have hb : (p.brHead + 1) % 2 ^ 16 = (hd + 1) % 2 ^ 16 := by
    rw [h.head]
    exact wrap_add_one
  unfold slice
  rw [h.curr_eq]
  simp only [hi, hc, whole, advanceIoUringBuf, hb, Nat.sub_self, Nat.add_zero, if_true, Bool.false_eq_true, if_false]

/-- **The loop of `handle_finish`**: `n` buffers' worth of bytes takes the next `n` buffers of the ring. -/
theorem slices_eq : ∀ (n : ℕ) {fuel : ℕ} {p : Pool} {hd : ℕ} {es : List IoUringBuf} {bytes : ℤ}, p.Offers hd es →
    p.isIncr = false → p.currBufLen = p.bufferSize → n ≤ es.length → n ≤ fuel →
    ((n : ℤ) - 1) * p.bufferSize < bytes → bytes ≤ n * p.bufferSize →
    slices fuel p bytes =
      some ((es.take n).map (fun e => p.whole e.bid), { p with brHead := (hd + n) % 2 ^ 16 }) := by
  intro n
  induction n with
  | zero =>
    intro fuel p hd es bytes h _ _ _ _ _ hle
    have hb : bytes ≤ 0 := by simpa using hle
    unfold slices
    rw [if_pos hb, Nat.add_zero, ← h.head]
    rfl
  | succ n ih =>
    intro fuel p hd es bytes h hi hc hn hf hlt hle
    obtain ⟨e, es, rfl⟩ := List.exists_cons_of_length_pos (show 0 < es.length by omega)
    obtain ⟨fuel, rfl⟩ : ∃ m, fuel = m + 1 := ⟨fuel - 1, by omega⟩
    have hmul : ((n + 1 : ℕ) : ℤ) * p.bufferSize = n * p.bufferSize + p.bufferSize := by push_cast; ring
    have hmul' : (((n + 1 : ℕ) : ℤ) - 1) * p.bufferSize = n * p.bufferSize := by push_cast; ring
    have hsub : ((n : ℤ) - 1) * p.bufferSize = n * p.bufferSize - p.bufferSize := by ring
    have hpos : (0 : ℤ) ≤ n * p.bufferSize := by positivity
    rw [hmul] at hle
    rw [hmul'] at hlt
    unfold slices
    rw [if_neg (by omega), h.slice_eq hi hc]
    have hlo : ((n : ℤ) - 1) * p.bufferSize < bytes - p.bufferSize := by omega
    have hhi : bytes - p.bufferSize ≤ (n : ℤ) * p.bufferSize := by omega
    have hrec := ih h.next hi hc (by simpa using hn) (Nat.le_of_succ_le_succ hf) hlo hhi
    rw [show hd + 1 + n = hd + (n + 1) by omega] at hrec
    change (slices fuel { p with brHead := (hd + 1) % 2 ^ 16 } (bytes - p.bufferSize)).map _ = _
    rw [hrec]
    rfl

theorem drop (h : p.Offers hd es) (n : ℕ) (hn : n ≤ es.length) :
    ({ p with brHead := (hd + n) % 2 ^ 16 } : Pool).Offers (hd + n) (es.drop n) where
  pow := h.pow
  mask := h.mask
  size := h.size
  head := rfl
  tail := by
    rw [List.length_drop, show hd + n + (es.length - n) = hd + es.length by omega]
    exact h.tail
  win := h.win.drop n
  entries := fun x hx => h.entries x (List.mem_of_mem_drop hx)

/-- A buffer comes back behind the last entry, with any pointer into it. -/
theorem addBufferBack (h : p.Offers hd es) (hl : es.length < p.numBuffers) {b : ProvidedBuffer}
    (hb : p.bidOf b < p.numBuffers) (hge : p.buffersBase ≤ b.data) (hsize : b.size ≤ p.bufferSize) :
    ∃ br, p.addBufferBack b.data b.size = { p with br := br } ∧
      ({ p with br := br } : Pool).Offers hd (es ++ [p.entry (p.bidOf b)]) := by
  have hnum := h.num_lt
  refine ⟨⟨Function.update p.br.bufs (p.br.tail &&& p.mask) (p.entry (p.bidOf b)), (p.br.tail + 1) % 2 ^ 16⟩, ?_, h.pow,
    h.mask, h.size, h.head, ?_, ?_, ?_⟩
  · rw [addBufferBack_eq (rfl : _ = p.bidOf b) h.size (hb.trans hnum)]
    simp only [hb, hge, hsize, decide_true, Bool.and_true]
  · change (p.br.tail + 1) % 2 ^ 16 = _
    rw [h.tail, wrap_add_one, List.length_append, List.length_singleton, Nat.add_assoc]
  · change Window (Function.update p.br.bufs (p.br.tail &&& p.mask) _) p.numBuffers hd _
    rw [h.tail, h.slot_eq]
    exact h.win.push hl
  · exact forall_mem_snoc h.entries rfl

end Offers

/-- The constructor's loop fills the first entries in order. -/
theorem offer_range {base size k : ℕ} (hs : size < 2 ^ 32) (hk : k < 16) : ∀ m ≤ 2 ^ k,
    (offer base size (2 ^ k - 1) ⟨fun _ => default, 0⟩ (List.range m)).tail = 0 ∧
    Window (offer base size (2 ^ k - 1) ⟨fun _ => default, 0⟩ (List.range m)).bufs (2 ^ k) 0
      ((List.range m).map (fun bid => ⟨base + bid * size, size, bid⟩)) := by
  intro m
  induction m with
  | zero => exact fun _ => ⟨rfl, window_nil⟩
  | succ m ih =>
    intro hm
    obtain ⟨htail, hwin⟩ := ih (by omega)
    have hpow : 2 ^ k < 2 ^ 16 := Nat.pow_lt_pow_right (by decide) hk
    rw [List.range_succ, List.map_append, offer, List.foldl_append]
    refine ⟨htail, ?_⟩
    change Window (Function.update (offer base size (2 ^ k - 1) _ (List.range m)).bufs
      (((offer base size (2 ^ k - 1) _ (List.range m)).tail + m) &&& (2 ^ k - 1)) _) _ _ _
    have hidx : (0 + m) &&& (2 ^ k - 1) = (0 + m) % 2 ^ k := Nat.and_two_pow_sub_one_eq_mod (0 + m) k
    have hpush := hwin.push (x := ⟨base + m * size, size, m⟩) (by rw [List.length_map, List.length_range]; omega)
    rw [htail, hidx, Nat.mod_eq_of_lt hs, Nat.mod_eq_of_lt (by omega : m < 2 ^ 16)]
    rwa [List.length_map, List.length_range] at hpush

theorem create_offers {base num size : ℕ} {incr : Bool} {p : Pool} (h : create base num size incr = some p) :
    p.Offers 0 ((List.range p.numBuffers).map p.entry) ∧ p.isIncr = incr ∧ p.currBufLen = p.bufferSize ∧
      p.asserts = true := by
  unfold create at h
  rw [Option.bind_eq_some_iff] at h
  obtain ⟨n, hn, h⟩ := h
  obtain ⟨k, -, rfl, -⟩ := bitCeil_pow hn
  obtain ⟨hlt, h⟩ := Option.ite_none_left_eq_some.mp h
  obtain rfl := Option.some.inj h
  have hk : k < 16 := (Nat.pow_lt_pow_iff_right (by decide)).mp (Nat.lt_of_not_le hlt)
  have hs : size % 2 ^ 32 < 2 ^ 32 := Nat.mod_lt _ (by decide)
  obtain ⟨htail, hwin⟩ := offer_range hs hk (2 ^ k) le_rfl
  refine ⟨⟨⟨k, hk, rfl⟩, rfl, hs, rfl, ?_, hwin, ?_⟩, rfl, rfl, rfl⟩
  · rw [List.length_map, List.length_range, Nat.zero_add]
    change (BufRing.tail _ + 2 ^ k) % 2 ^ 16 = _
    rw [htail, Nat.zero_add]
  · intro e he
    obtain ⟨bid, -, rfl⟩ := List.mem_map.mp he
    rfl

end Pool

/-! ## The completions that were not reaped -/

/-- The number of buffers of a completion. -/
def Completion.count (size : ℕ) (c : Completion) : ℕ := System.bufferCount size c.cqe.res.toNat

/-- The completion is about the first entries of `es`. -/
structure Completion.Names (size : ℕ) (es : List IoUringBuf) (c : Completion) : Prop where
  flag : c.cqe.fBuffer = true
  res : 0 < c.cqe.res
  head : es.head?.map IoUringBuf.bid = some c.cqe.bid
  pos : 0 < c.count size
  fits : c.count size ≤ es.length
  one : c.bundled = false → c.count size = 1

/-- The completions are about the entries of `es`, one after the other. -/
def Named (size : ℕ) : List IoUringBuf → List Completion → Prop
  | _, [] => True
  | es, c :: cs => c.Names size es ∧ Named size (es.drop (c.count size)) cs

/-- The number of entries that the completions are about. -/
def taken (size : ℕ) (cs : List Completion) : ℕ := (cs.map (Completion.count size)).sum

section Named

variable {size : ℕ} {es fs : List IoUringBuf} {c : Completion} {cs : List Completion}

theorem Completion.Names.size_pos (h : c.Names size es) : 0 < size := by
  refine Nat.pos_of_ne_zero (fun h0 => ?_)
  have := h.pos
  simp [count, System.bufferCount, h0] at this

theorem Completion.Names.fits_all {k : ℕ} (h : c.Names size (es.drop k)) : c.count size ≤ es.length := by
  have := h.fits
  rw [List.length_drop] at this
  omega

theorem Completion.Names.append (h : c.Names size es) : c.Names size (es ++ fs) := by
  have hne : es ≠ [] := by
    rintro rfl
    exact absurd h.head (by simp)
  refine ⟨h.flag, h.res, ?_, h.pos, ?_, h.one⟩
  · rw [List.head?_append_of_ne_nil _ hne]
    exact h.head
  · rw [List.length_append]
    exact Nat.le_add_right_of_le h.fits

theorem Named.append : ∀ {cs : List Completion} {es : List IoUringBuf}, Named size es cs → Named size (es ++ fs) cs
  | [], _, _ => trivial
  | c :: cs, es, ⟨hc, hcs⟩ => by
    refine ⟨hc.append, ?_⟩
    rw [List.drop_append_of_le_length hc.fits]
    exact hcs.append

theorem Named.taken_le : ∀ {cs : List Completion} {es : List IoUringBuf}, Named size es cs → taken size cs ≤ es.length
  | [], _, _ => Nat.zero_le _
  | c :: cs, es, ⟨hc, hcs⟩ => by
    have h1 := hcs.taken_le
    have h2 := hc.fits
    rw [List.length_drop] at h1
    unfold taken at h1 ⊢
    rw [List.map_cons, List.sum_cons]
    omega

/-- A completion about the entries that follow is taken last. -/
theorem Named.snoc : ∀ {cs : List Completion} {es : List IoUringBuf}, Named size es cs →
    c.Names size (es.drop (taken size cs)) → Named size es (cs ++ [c])
  | [], _, _, h => ⟨h, trivial⟩
  | d :: cs, es, ⟨hd, hcs⟩, h => by
    refine ⟨hd, hcs.snoc ?_⟩
    rw [List.drop_drop]
    exact h

/-- The entries of a completion start behind those of the completions before it. -/
theorem Named.split : ∀ (as : List Completion) {bs : List Completion} {es : List IoUringBuf},
    Named size es (as ++ c :: bs) → c.Names size (es.drop (taken size as)) ∧ (as ≠ [] → 0 < taken size as)
  | [], _, _, ⟨hc, _⟩ => ⟨hc, fun h => absurd rfl h⟩
  | d :: as, _, es, ⟨hd, has⟩ => by
    obtain ⟨hc, -⟩ := Named.split as has
    rw [List.drop_drop] at hc
    refine ⟨hc, fun _ => ?_⟩
    have := hd.pos
    unfold taken
    rw [List.map_cons, List.sum_cons]
    omega

theorem taken_snoc (cs : List Completion) : taken size (cs ++ [c]) = taken size cs + c.count size := by
  simp [taken]

end Named

/-- The buffers counted hold the bytes, and one buffer less does not. -/
theorem bufferCount_spec {size : ℕ} (res : ℕ) (hs : 0 < size) :
    ((System.bufferCount size res : ℤ) - 1) * size < res ∧ (res : ℤ) ≤ System.bufferCount size res * size := by
  unfold System.bufferCount
  have h1 := Nat.div_mul_le_self (res + size - 1) size
  have h2 := Nat.lt_div_mul_add (a := res + size - 1) hs
  generalize (res + size - 1) / size = n at *
  have h3 : ((n : ℤ) - 1) * size = ((n * size : ℕ) : ℤ) - size := by push_cast; ring
  have h4 : (n : ℤ) * size = ((n * size : ℕ) : ℤ) := by push_cast; ring
  rw [h3, h4]
  omega

/-! ## The system -/

namespace System

/-- The ids of the buffers that live provided buffers own. -/
def held (s : System) : List ℕ := (s.live.filter (·.owns)).map s.pool.bidOf

/-- What `handle_finish` returned starts at the buffer that the completion names. -/
def Right (base size : ℕ) (h : Cqe × List ProvidedBuffer) : Prop :=
  h.1.fBuffer = true → 0 < h.1.res → ∃ b rest, h.2 = b :: rest ∧ b.data = base + h.1.bid * size

structure InOrder (base size : ℕ) (s : System) (hd : ℕ) (es : List IoUringBuf) : Prop where
  geometry : s.pool.buffersBase = base ∧ s.pool.bufferSize = size
  offers : s.pool.Offers hd es
  incr : s.pool.isIncr = false
  curr : s.pool.currBufLen = s.pool.bufferSize
  asserts : s.pool.asserts = true
  /-- Every id is in the ring or owned by one live buffer. -/
  ids : (es.map IoUringBuf.bid ++ s.held).Perm (List.range s.pool.numBuffers)
  live : ∀ b ∈ s.live, b.owns = true → 0 < size ∧ b = s.pool.whole (s.pool.bidOf b)
  khead : s.khead = (hd + taken size s.inflight) % 2 ^ 16
  named : Named size es s.inflight
  handled : ∀ h ∈ s.handled, Right base size h

/-- A reaped completion is the oldest one that was not reaped yet. -/
def OldestFirst (_ : System) : Op → Prop
  | .reap i => i = 0
  | _ => True

theorem init_inOrder {base num bufferSize : ℕ} {p : Pool} (h : Pool.create base num bufferSize false = some p) :
    (init p).InOrder p.buffersBase p.bufferSize 0 ((List.range p.numBuffers).map p.entry) := by
  obtain ⟨ho, hi, hc, ha⟩ := Pool.create_offers h
  refine ⟨⟨rfl, rfl⟩, ho, hi, hc, ha, ?_, fun _ hb => (nomatch hb), rfl, trivial, fun _ hh => (nomatch hh)⟩
  have hid : (IoUringBuf.bid ∘ p.entry) = id := rfl
  simp [held, init, hid]

section Steps

variable {base size : ℕ} {s s' : System} {hd : ℕ} {es : List IoUringBuf}

theorem InOrder.len_le (h : s.InOrder base size hd es) : es.length + s.held.length = s.pool.numBuffers := by
  simpa using h.ids.length_eq

theorem take_inOrder {res : ℕ} {bundled : Bool} (h : s.InOrder base size hd es)
    (hs : s.take res bundled = some s') : s'.InOrder base size hd es := by
  unfold take at hs
  obtain ⟨hg, hs⟩ := Option.ite_none_left_eq_some.mp hs
  obtain rfl := Option.some.inj hs
  push Not at hg
  obtain ⟨-, hres, -, hpos, hav, hone⟩ := hg
  rw [h.geometry.2] at hpos hav hone ⊢
  have hlen := h.len_le
  have hnum := h.offers.num_lt
  have hle := h.named.taken_le
  -- The kernel's head is `taken` entries after the private one.
  have hdist : (s.pool.br.tail + 2 ^ 16 - s.khead) % 2 ^ 16 = es.length - taken size s.inflight := by
    rw [h.offers.tail, h.khead]
    exact wrap_dist hle (by omega)
  rw [hdist] at hav
  have hlt : taken size s.inflight < es.length := by omega
  have hentry : s.pool.br.bufs (s.khead &&& s.pool.mask) = es[taken size s.inflight] := by
    rw [h.khead]
    exact h.offers.entry_at hlt
  have hnames : Completion.Names size (es.drop (taken size s.inflight))
      ⟨⟨res, true, (s.pool.br.bufs (s.khead &&& s.pool.mask)).bid⟩, bundled⟩ := by
    refine ⟨rfl, by simpa using Nat.pos_of_ne_zero hres, ?_, ?_, ?_, ?_⟩
    · rw [List.head?_drop, List.getElem?_eq_getElem hlt, hentry]
      rfl
    · exact Nat.pos_of_ne_zero hpos
    · rw [List.length_drop]
      exact hav
    · exact hone
  refine ⟨h.geometry, h.offers, h.incr, h.curr, h.asserts, h.ids, h.live, ?_, h.named.snoc hnames, h.handled⟩
  change (s.khead + _) % 2 ^ 16 = _
  rw [taken_snoc, h.khead, Nat.mod_add_mod, Nat.add_assoc]
  rfl

/-- `handle_finish` on a completion takes the buffers at the private head, whichever the completion names. -/
theorem InOrder.handleFinish_eq {c : Completion} {k : ℕ} (h : s.InOrder base size hd es)
    (hc : c.Names size (es.drop k)) : s.pool.handleFinish c.cqe =
      some ((es.take (c.count size)).map (fun e => s.pool.whole e.bid),
        { s.pool with brHead := (hd + c.count size) % 2 ^ 16 }) := by
  obtain ⟨hlo, hhi⟩ := bufferCount_spec c.cqe.res.toNat hc.size_pos
  have hres := hc.res
  have hcheck : s.pool.check (decide (0 < c.cqe.res)) = s.pool := by
    simp [Pool.check, hres]
  have hcast : ((c.cqe.res.toNat : ℕ) : ℤ) = c.cqe.res := Int.toNat_of_nonneg hres.le
  rw [hcast] at hlo hhi
  have hfuel : c.count size ≤ c.cqe.res.toNat := by
    have hpos := hc.pos
    have hsize := hc.size_pos
    have hge : ((c.count size : ℤ) - 1) * 1 ≤ ((c.count size : ℤ) - 1) * size :=
      mul_le_mul_of_nonneg_left (by omega) (by omega)
    have : ((c.count size : ℤ) - 1) * size < c.cqe.res := hlo
    omega
  unfold Pool.handleFinish
  rw [hc.flag, hcheck]
  obtain rfl := h.geometry.2
  exact Pool.Offers.slices_eq _ h.offers h.incr h.curr hc.fits_all hfuel hlo hhi

/-- Both kinds of `handle_finish` return the buffers at the private head. -/
theorem InOrder.finish_eq {c : Completion} {k : ℕ} (cs : List Completion) (h : s.InOrder base size hd es)
    (hc : c.Names size (es.drop k)) : ({ s with inflight := cs } : System).finish c = some { s with
      inflight := cs
      pool := { s.pool with brHead := (hd + c.count size) % 2 ^ 16 }
      live := s.live ++ (es.take (c.count size)).map (fun e => s.pool.whole e.bid)
      handled := s.handled ++ [(c.cqe, (es.take (c.count size)).map (fun e => s.pool.whole e.bid))] } := by
  have hone : c.bundled = false →
      ((es.take (c.count size)).map fun e => s.pool.whole e.bid).length = 1 := fun hb => by
    have hfits := hc.fits_all
    have hcount := hc.one hb
    rw [List.length_map, List.length_take]
    omega
  have hfin := Pool.finish_of_handleFinish (h.handleFinish_eq hc) hone
  have hhold := Holding.finish_eq (s := { pool := s.pool, live := s.live }) hfin
  unfold finish
  rw [hhold]
  rfl

/-- `handle_finish` on the oldest completion returns. -/
theorem InOrder.reap_enabled (h : s.InOrder base size hd es) (hne : s.inflight ≠ []) :
    ∃ s', step s (.reap 0) = some s' := by
  obtain ⟨c, cs, hcs⟩ := List.exists_cons_of_ne_nil hne
  have hn := h.named
  rw [hcs] at hn
  have hfin := h.finish_eq (k := 0) (s.inflight.eraseIdx 0) hn.1
  rw [step, hcs, List.getElem?_cons_zero, Option.bind_some, ← hcs, hfin]
  exact ⟨_, rfl⟩

/-- Handed out buffers move from the ring to their holder. -/
theorem held_append {l : List ProvidedBuffer} (fs : List IoUringBuf) (hs : 0 < s.pool.bufferSize) :
    ((l ++ fs.map (fun e => s.pool.whole e.bid)).filter (·.owns)).map s.pool.bidOf =
      (l.filter (·.owns)).map s.pool.bidOf ++ fs.map IoUringBuf.bid := by
  have hown : (fs.map (fun e => s.pool.whole e.bid)).filter (·.owns) = fs.map (fun e => s.pool.whole e.bid) := by
    refine List.filter_eq_self.mpr (fun b hb => ?_)
    obtain ⟨e, -, rfl⟩ := List.mem_map.mp hb
    rfl
  have hbid : s.pool.bidOf ∘ (fun e => s.pool.whole e.bid) = IoUringBuf.bid :=
    funext (fun e => s.pool.bidOf_whole e.bid hs)
  rw [List.filter_append, hown, List.map_append, List.map_map, hbid]

/-- What reaping returns starts at the named buffer exactly if the completion is the oldest. -/
theorem InOrder.reap_right_iff {i : ℕ} (h : s.InOrder base size hd es) (hs : step s (.reap i) = some s') :
    (∀ x ∈ s'.handled, Right base size x) ↔ i = 0 := by
  obtain ⟨c, hc, hs⟩ := Option.bind_eq_some_iff.mp hs
  obtain ⟨as, bs, hsplit, -, has⟩ := split_getElem? hc
  have hn := h.named
  rw [hsplit] at hn
  obtain ⟨hnc, hpos⟩ := Named.split as hn
  rw [h.finish_eq _ hnc] at hs
  obtain rfl := Option.some.inj hs
  obtain ⟨e, es, rfl⟩ := List.exists_cons_of_length_pos (Nat.lt_of_lt_of_le hnc.pos hnc.fits_all)
  obtain ⟨n, hcn⟩ : ∃ n, c.count size = n + 1 := ⟨c.count size - 1, by have := hnc.pos; omega⟩
  -- The first buffer returned is the one at the private head, `e`.
  have hright : Right base size (c.cqe, ((e :: es).take (c.count size)).map (fun e => s.pool.whole e.bid)) ↔
      e.bid = c.cqe.bid := by
    have hdata : (s.pool.whole e.bid).data = base + e.bid * size := by
      rw [← h.geometry.1, ← h.geometry.2]
      rfl
    rw [hcn]
    constructor
    · intro hr
      obtain ⟨b, rest, hb, hd⟩ := hr hnc.flag hnc.res
      obtain ⟨rfl, -⟩ := List.cons.inj hb
      rw [hdata] at hd
      exact Nat.eq_of_mul_eq_mul_right hnc.size_pos (Nat.add_left_cancel hd)
    · rintro he - -
      exact ⟨s.pool.whole e.bid, _, rfl, by rw [hdata, he]⟩
  have hids : (e.bid :: es.map IoUringBuf.bid).Nodup :=
    (List.nodup_append.mp (h.ids.nodup_iff.mpr List.nodup_range)).1
  have hbid : e.bid = c.cqe.bid ↔ as = [] := by
    have hhead := hnc.head
    constructor
    · intro he
      by_contra hne
      obtain ⟨m, hm⟩ : ∃ m, taken size as = m + 1 := ⟨taken size as - 1, by have := hpos hne; omega⟩
      rw [hm, List.drop_succ_cons, ← he] at hhead
      obtain ⟨x, hx, hxe⟩ := Option.map_eq_some_iff.mp hhead
      have hmem : x ∈ es := List.mem_of_mem_drop (List.mem_of_mem_head? hx)
      exact (List.nodup_cons.mp hids).1 (List.mem_map.mpr ⟨x, hmem, hxe⟩)
    · rintro rfl
      simpa [taken] using hhead
  rw [← has, List.length_eq_zero_iff, ← hbid, ← hright]
  exact ⟨fun hall => hall _ (by simp), fun hr => forall_mem_snoc h.handled hr⟩

/-- The oldest completion gets the entries that it names. -/
theorem reap_inOrder (h : s.InOrder base size hd es) (hs : step s (.reap 0) = some s') :
    ∃ c cs, s.inflight = c :: cs ∧ s'.inflight = cs ∧ s'.pool.numBuffers = s.pool.numBuffers ∧
      s'.InOrder base size (hd + c.count size) (es.drop (c.count size)) ∧
      s'.handled = s.handled ++ [(c.cqe, (es.take (c.count size)).map fun e => s.pool.whole e.bid)] := by
  have hhandled := (h.reap_right_iff hs).mpr rfl
  obtain ⟨c, hc, hs⟩ := Option.bind_eq_some_iff.mp hs
  obtain ⟨as, cs, hcs, he, has⟩ := split_getElem? hc
  obtain rfl := List.eq_nil_of_length_eq_zero has
  have hn := h.named
  rw [hcs] at hn
  obtain ⟨hnc, hn⟩ := hn
  rw [he, h.finish_eq (k := 0) _ hnc] at hs
  obtain rfl := Option.some.inj hs
  have hpos : 0 < s.pool.bufferSize := h.geometry.2 ▸ hnc.size_pos
  refine ⟨c, cs, hcs, rfl, rfl, ⟨h.geometry, h.offers.drop _ hnc.fits, h.incr, h.curr, h.asserts, ?_, ?_, ?_, hn, hhandled⟩,
    rfl⟩
  · change ((es.drop _).map _ ++ ((s.live ++ _).filter _).map s.pool.bidOf).Perm (List.range s.pool.numBuffers)
    rw [held_append _ hpos, ← List.append_assoc]
    refine List.perm_append_comm.trans ?_
    rw [← List.append_assoc, ← List.map_append, List.take_append_drop]
    exact h.ids
  · intro b hb ho
    rcases List.mem_append.mp hb with hb | hb
    · exact h.live b hb ho
    · obtain ⟨e, -, rfl⟩ := List.mem_map.mp hb
      refine ⟨hnc.size_pos, ?_⟩
      change _ = s.pool.whole (s.pool.bidOf (s.pool.whole e.bid))
      rw [s.pool.bidOf_whole e.bid hpos]
  · have := h.khead
    rw [hcs] at this
    rw [this]
    simp [taken, Nat.add_assoc]

theorem fail_inOrder {res : ℤ} {bundled : Bool} (h : s.InOrder base size hd es)
    (hs : step s (.fail res bundled) = some s') : s'.InOrder base size hd es := by
  obtain ⟨bs, hfin, hbs⟩ := Pool.finish_fail (p := s.pool) res bundled
  have hhold := Holding.finish_eq (s := s.toHolding) hfin
  rw [step, finish, hhold] at hs
  obtain rfl := Option.some.inj hs
  have hfilter : bs.filter (·.owns) = [] :=
    List.filter_eq_nil_iff.mpr fun b hb => by rw [(hbs b hb).2]; exact Bool.false_ne_true
  refine ⟨h.geometry, h.offers, h.incr, h.curr, h.asserts, ?_, ?_, h.khead, h.named,
    forall_mem_snoc h.handled fun hf => (nomatch hf)⟩
  · simpa [held, hfilter] using h.ids
  · intro b hb ho
    rcases List.mem_append.mp hb with hb | hb
    · exact h.live b hb ho
    · rw [(hbs b hb).2] at ho
      nomatch ho

/-- What a holder gives back goes behind the last entry; the other owners stay. -/
theorem giveBack_inOrder {live : List ProvidedBuffer} {b : ProvidedBuffer} (h : s.InOrder base size hd es)
    (hown : (s.live.filter (·.owns)).Perm (live.filter (·.owns) ++ [b].filter (·.owns))) :
    ∃ fs, ({ s with live := live, pool := s.pool.reset b } : System).InOrder base size hd (es ++ fs) := by
  have hmem : ∀ x ∈ live, x.owns = true → x ∈ s.live := fun x hx ho =>
    List.mem_of_mem_filter (hown.mem_iff.mpr (List.mem_append_left _ (List.mem_filter.mpr ⟨hx, ho⟩)))
  have hheld := hown.map s.pool.bidOf
  have hids := (hheld.append_left (es.map IoUringBuf.bid)).symm.trans h.ids
  unfold Pool.reset
  cases ho : b.owns with
  | false =>
    refine ⟨[], h.geometry, by simpa using h.offers, h.incr, h.curr, h.asserts, ?_,
      fun x hx hxo => h.live x (hmem x hx hxo) hxo, h.khead, by simpa using h.named, h.handled⟩
    simpa [held, ho] using hids
  | true =>
    have hb : b ∈ s.live := by
      refine List.mem_of_mem_filter (hown.mem_iff.mpr (List.mem_append_right _ ?_))
      simp [ho]
    obtain ⟨hpos, hw⟩ := h.live b hb ho
    generalize s.pool.bidOf b = bid at hw
    subst hw
    have hbid := s.pool.bidOf_whole bid (h.geometry.2 ▸ hpos)
    rw [List.filter_cons_of_pos rfl, List.filter_nil, List.map_append, List.map_singleton, hbid] at hids
    have hlt : bid < s.pool.numBuffers := List.mem_range.mp (hids.subset (by simp))
    have hlen : es.length < s.pool.numBuffers := by
      have := hids.length_eq
      simp only [List.length_append, List.length_map, List.length_singleton, List.length_range] at this
      omega
    obtain ⟨br, hadd, hoff⟩ := h.offers.addBufferBack hlen (b := s.pool.whole bid) (hbid.symm ▸ hlt)
      (Nat.le_add_right _ _) le_rfl
    rw [hbid] at hoff
    rw [if_pos rfl, hadd]
    refine ⟨[s.pool.entry bid], h.geometry, hoff, h.incr, h.curr, h.asserts, ?_,
      fun x hx hxo => h.live x (hmem x hx hxo) hxo, h.khead, h.named.append, h.handled⟩
    refine List.Perm.trans ?_ hids
    rw [List.map_append, List.append_assoc]
    exact List.Perm.append_left _ List.perm_append_comm

theorem drop_inOrder {j : ℕ} (h : s.InOrder base size hd es) (hs : step s (.drop j) = some s') :
    ∃ es', s'.InOrder base size hd es' := by
  obtain ⟨t, ht, rfl⟩ := Option.map_eq_some_iff.mp hs
  obtain ⟨b, hb, rfl⟩ := Option.map_eq_some_iff.mp ht
  have hdestroy : ManagedBuffer.step ProvidedBuffer.empty s.live (.destroy j) = some (s.live.eraseIdx j, some b) := by
    rw [ManagedBuffer.step, hb, Option.map_some]
  obtain ⟨fs, hI⟩ := giveBack_inOrder h (ManagedBuffer.step_owned ProvidedBuffer.owns rfl _ hdestroy)
  exact ⟨es ++ fs, hI⟩

/-- **Step lemma**: reaping the oldest completion, like every other step, keeps the order. -/
theorem step_inOrder (op : Op) (h : s.InOrder base size hd es) (hg : OldestFirst s op) (hs : step s op = some s') :
    ∃ hd' es', s'.InOrder base size hd' es' := by
  cases op with
  | take res bundled => exact ⟨hd, es, take_inOrder h hs⟩
  | fail res bundled => exact ⟨hd, es, fail_inOrder h hs⟩
  | reap i =>
    obtain rfl : i = 0 := hg
    obtain ⟨_, _, -, -, -, hI, -⟩ := reap_inOrder h hs
    exact ⟨_, _, hI⟩
  | drop j => exact ⟨hd, drop_inOrder h hs⟩

end Steps

/-- **Completions reaped in the order in which their buffers were taken**: every completion with a buffer gets a
provided buffer that starts at the buffer it names.  After such a run `handle_finish` on the oldest completion returns,
and the next completion gets its buffer exactly if it is the oldest one that was not reaped. -/
theorem oldest_first_named {base num bufferSize : ℕ} {p : Pool}
    (hp : Pool.create base num bufferSize false = some p) {ops : List Op} {s : System}
    (hg : Along step OldestFirst (init p) ops) (hr : run step (init p) ops = some s) :
    (∀ x ∈ s.handled, Right p.buffersBase p.bufferSize x) ∧
      (s.inflight ≠ [] → ∃ s', step s (.reap 0) = some s') ∧
      ∀ i s', step s (.reap i) = some s' → ((∀ x ∈ s'.handled, Right p.buffersBase p.bufferSize x) ↔ i = 0) := by
  have hinv : ∃ hd es, s.InOrder p.buffersBase p.bufferSize hd es := by
    refine run_inv_along (I := fun s => ∃ hd es, s.InOrder p.buffersBase p.bufferSize hd es) ?_ ops
      ⟨0, _, init_inOrder hp⟩ hg hr
    rintro s op t ⟨hd, es, hI⟩ hg hs
    exact step_inOrder op hI hg hs
  obtain ⟨hd, es, hI⟩ := hinv
  exact ⟨hI.handled, hI.reap_enabled, fun i s' hs => hI.reap_right_iff hs⟩

/-- Two operations take the two buffers of a pool, are reaped in this order, and their buffers are dropped. -/
theorem oldest_first_named_run : ∃ p s, Pool.create 64 2 4 false = some p ∧
    run step (init p) [.take 3 false, .take 4 true, .reap 0, .reap 0, .drop 1, .drop 0, .take 6 true, .reap 0] =
      some s ∧ s.handled.length = 3 ∧ ∀ x ∈ s.handled, Right p.buffersBase p.bufferSize x := by
  obtain ⟨p, hp⟩ : ∃ p, Pool.create 64 2 4 false = some p := Option.isSome_iff_exists.mp (by decide)
  have hrun : ((Pool.create 64 2 4 false).bind fun p => (run step (init p) [.take 3 false, .take 4 true,
      .reap 0, .reap 0, .drop 1, .drop 0, .take 6 true, .reap 0]).map (·.handled.length)) = some 3 := by
    decide +kernel
  rw [hp, Option.bind_some, Option.map_eq_some_iff] at hrun
  obtain ⟨s, hs, hlen⟩ := hrun
  refine ⟨p, s, hp, hs, hlen, (oldest_first_named hp (along_of_forall _ _ ?_) hs).1⟩
  simp [OldestFirst]

/-- Two operations take the two buffers of a pool and the second one is reaped first: its completion names buffer `1`,
at address 68, and it gets buffer `0`, at address 64. -/
theorem newest_first_misnamed : ∃ p s, Pool.create 64 2 4 false = some p ∧
    run step (init p) [.take 3 false, .take 4 false, .reap 1] = some s ∧
    s.handled = [(⟨4, true, 1⟩, [⟨64, 4, true⟩])] ∧ p.getBuffer 1 = 68 ∧
    ¬ ∀ x ∈ s.handled, Right p.buffersBase p.bufferSize x := by
  have hrun : ((Pool.create 64 2 4 false).bind fun p =>
      (run step (init p) [.take 3 false, .take 4 false, .reap 1]).map
        (fun s => (s.handled, p.buffersBase, p.bufferSize))) = some ([(⟨4, true, 1⟩, [⟨64, 4, true⟩])], 64, 4) := by
    decide +kernel
  obtain ⟨p, hp, hrun⟩ := Option.bind_eq_some_iff.mp hrun
  obtain ⟨s, hs, hend⟩ := Option.map_eq_some_iff.mp hrun
  obtain ⟨hh, hb, hz⟩ : s.handled = _ ∧ p.buffersBase = 64 ∧ p.bufferSize = 4 := by simpa using hend
  refine ⟨p, s, hp, hs, hh, by rw [Pool.getBuffer, hb, hz], fun hall => ?_⟩
  rw [hh, hb, hz] at hall
  obtain ⟨b, rest, hbuf, hdata⟩ := hall _ List.mem_cons_self rfl (by decide)
  obtain ⟨rfl, -⟩ := List.cons.inj hbuf
  exact absurd hdata (by decide)

end System

end Condy.ProvidedBuffers
