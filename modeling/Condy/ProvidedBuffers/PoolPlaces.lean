import Condy.ProvidedBuffers.PoolOrder

/-!
# Condy.ProvidedBuffers.PoolPlaces — where the buffers of a pool are

`Traced` is the system of a pool whose program also moves, assigns and resets its provided buffers, and that records for
each completion which ids the kernel took for it.  Three positions divide the ring: from `br_head_` to the kernel's head
stand the ids that `handle_finish` has still to read, from there to the tail those offered to the kernel.  With completions
reaped in take order the two parts and the ids of the owners are a partition of all ids at every moment.
-/

namespace Condy.ProvidedBuffers

open Lib

/-! ## The parts of the ring -/

namespace System

/-- The ids of the entries between two 16-bit positions. -/
def ringIds (s : System) (first last : ℕ) : List ℕ :=
  (List.range ((last + 2 ^ 16 - first) % 2 ^ 16)).map fun i =>
    (s.pool.br.bufs ((first + i) % 2 ^ 16 &&& s.pool.mask)).bid

/-- Taken by the kernel for completions that were not handled yet. -/
def unread (s : System) : List ℕ := s.ringIds s.pool.brHead s.khead

/-- Offered to the kernel. -/
def offered (s : System) : List ℕ := s.ringIds s.khead s.pool.br.tail

end System

/-! ## Moves, and the ids of each completion -/

structure Traced where
  sys : System
  /-- For each completion that was not reaped the ids that the kernel took. -/
  consumed : List (List ℕ)
  /-- For each reaped completion the ids that the kernel took and what `handle_finish` returned. -/
  returned : List (List ℕ × List ProvidedBuffer)

inductive TracedOp where
  | take (res : ℕ) (bundled : Bool)
  | fail (res : ℤ) (bundled : Bool)
  | reap (i : ℕ)
  /-- The program moves, resets or destroys provided buffers. -/
  | buffer (op : ManagedBuffer.Op)
deriving DecidableEq, Repr

namespace Traced

def init (p : Pool) : Traced := { sys := .init p, consumed := [], returned := [] }

/-- The value whose `reset()` ran goes back to the pool. -/
def giveBack (p : Pool) : Option ProvidedBuffer → Pool
  | none => p
  | some b => p.reset b

def step (s : Traced) : TracedOp → Option Traced
  | .take res bundled => (s.sys.step (.take res bundled)).map fun t =>
    { s with sys := t, consumed := s.consumed ++ [s.sys.offered.take (System.bufferCount s.sys.pool.bufferSize res)] }
  | .fail res bundled => (s.sys.step (.fail res bundled)).map fun t => { s with sys := t }
  | .reap i => (s.sys.step (.reap i)).bind fun t => (s.consumed[i]?).bind fun ids => (t.handled.getLast?).map fun h =>
    { sys := t, consumed := s.consumed.eraseIdx i, returned := s.returned ++ [(ids, h.2)] }
  | .buffer op => (ManagedBuffer.step .empty s.sys.live op).map fun (live, given) =>
    { s with sys := { s.sys with live := live, pool := giveBack s.sys.pool given } }

/-- A reaped completion is the oldest one that was not reaped yet. -/
def OldestFirst (_ : Traced) : TracedOp → Prop
  | .reap i => i = 0
  | _ => True

end Traced

/-! ## The ring and the entries of the window -/

namespace System

variable {base size : ℕ} {s : System} {hd : ℕ} {es : List IoUringBuf}

theorem InOrder.ringIds_eq (h : s.InOrder base size hd es) {a b : ℕ} (hab : a ≤ b) (hb : b ≤ es.length) :
    s.ringIds ((hd + a) % 2 ^ 16) ((hd + b) % 2 ^ 16) = ((es.drop a).take (b - a)).map IoUringBuf.bid := by
  have hlen := h.len_le
  have hnum := h.offers.num_lt
  unfold ringIds
  rw [wrap_dist hab (by omega)]
  refine List.ext_getElem ?_ fun i hi _ => ?_
  · simp only [List.length_map, List.length_range, List.length_take, List.length_drop]
    omega
  · rw [List.length_map, List.length_range] at hi
    simp only [List.getElem_map, List.getElem_range, List.getElem_take, List.getElem_drop]
    rw [Nat.mod_add_mod, Nat.add_assoc, h.offers.entry_at (by omega)]

theorem InOrder.unread_eq (h : s.InOrder base size hd es) :
    s.unread = (es.take (taken size s.inflight)).map IoUringBuf.bid := by
  have := h.ringIds_eq (Nat.zero_le _) h.named.taken_le
  rwa [Nat.add_zero, Nat.sub_zero, List.drop_zero, ← h.offers.head, ← h.khead] at this

theorem InOrder.offered_eq (h : s.InOrder base size hd es) :
    s.offered = (es.drop (taken size s.inflight)).map IoUringBuf.bid := by
  have := h.ringIds_eq h.named.taken_le le_rfl
  rwa [← h.khead, ← h.offers.tail, List.take_of_length_le (by rw [List.length_drop])] at this

theorem InOrder.ring_eq (h : s.InOrder base size hd es) : s.unread ++ s.offered = es.map IoUringBuf.bid := by
  rw [h.unread_eq, h.offered_eq, ← List.map_append, List.take_append_drop]

/-- Other holders of the same buffers. -/
theorem InOrder.live_congr {live : List ProvidedBuffer} (h : s.InOrder base size hd es)
    (hown : (s.live.filter (·.owns)).Perm (live.filter (·.owns))) :
    ({ s with live := live } : System).InOrder base size hd es := by
  refine ⟨h.geometry, h.offers, h.incr, h.curr, h.asserts, ?_, ?_, h.khead, h.named, h.handled⟩
  · exact ((hown.map s.pool.bidOf).append_left _).symm.trans h.ids
  · intro b hb ho
    exact h.live b (List.mem_of_mem_filter (hown.mem_iff.mpr (List.mem_filter.mpr ⟨hb, ho⟩))) ho

/-- `add_buffer_back` of an owner writes no slot between `br_head_` and the tail. -/
theorem InOrder.addBufferBack_frame {b : ProvidedBuffer} (h : s.InOrder base size hd es) (hb : b ∈ s.live)
    (ho : b.owns = true) {i : ℕ} (hi : i < es.length) :
    (s.pool.addBufferBack b.data b.size).br.bufs ((s.pool.brHead + i) % 2 ^ 16 &&& s.pool.mask) =
      s.pool.br.bufs ((s.pool.brHead + i) % 2 ^ 16 &&& s.pool.mask) := by
  have hlen := h.len_le
  have hheld : 0 < s.held.length := by
    unfold held
    rw [List.length_map]
    exact List.length_pos_of_mem (List.mem_filter.mpr ⟨hb, ho⟩)
  change Function.update s.pool.br.bufs ((s.pool.br.tail + 0) &&& s.pool.mask) _ _ = _
  refine Function.update_of_ne ?_ ..
  rw [Nat.add_zero, h.offers.head, h.offers.tail, Nat.mod_add_mod, h.offers.slot_eq, h.offers.slot_eq]
  exact next_not_in_window (by omega) i hi

end System

/-! ## The ids of the completions -/

/-- The ids of the entries of `es` that the completions are about. -/
def segments (size : ℕ) : List IoUringBuf → List Completion → List (List ℕ)
  | _, [] => []
  | es, c :: cs => (es.take (c.count size)).map IoUringBuf.bid :: segments size (es.drop (c.count size)) cs

section Segments

variable {size : ℕ} {fs : List IoUringBuf}

theorem segments_append : ∀ {cs : List Completion} {es : List IoUringBuf}, Named size es cs →
    segments size (es ++ fs) cs = segments size es cs
  | [], _, _ => rfl
  | c :: cs, es, ⟨hc, hcs⟩ => by
    rw [segments, segments, List.take_append_of_le_length hc.fits, List.drop_append_of_le_length hc.fits,
      segments_append hcs]

theorem segments_snoc (c : Completion) : ∀ (cs : List Completion) (es : List IoUringBuf),
    segments size es (cs ++ [c]) =
      segments size es cs ++ [((es.drop (taken size cs)).take (c.count size)).map IoUringBuf.bid]
  | [], _ => rfl
  | d :: cs, es => by
    rw [List.cons_append, segments, segments, segments_snoc c cs, List.drop_drop, List.cons_append]
    rfl

end Segments

namespace Traced

structure InPlace (p : Pool) (s : Traced) (hd : ℕ) (es : List IoUringBuf) : Prop where
  order : s.sys.InOrder p.buffersBase p.bufferSize hd es
  num : s.sys.pool.numBuffers = p.numBuffers
  consumed : s.consumed = segments p.bufferSize es s.sys.inflight
  returned : ∀ x ∈ s.returned, x.2 = x.1.map p.whole

section Steps

variable {p : Pool} {s s' : Traced} {hd : ℕ} {es : List IoUringBuf}

theorem init_inPlace {base num bufferSize : ℕ} (hp : Pool.create base num bufferSize false = some p) :
    (init p).InPlace p 0 ((List.range p.numBuffers).map p.entry) :=
  ⟨System.init_inOrder hp, rfl, rfl, fun _ hx => (nomatch hx)⟩

theorem InPlace.whole_eq (h : s.InPlace p hd es) : s.sys.pool.whole = p.whole := by
  funext bid
  unfold Pool.whole Pool.getBuffer
  rw [h.order.geometry.1, h.order.geometry.2]

theorem take_inPlace {res : ℕ} {bundled : Bool} (h : s.InPlace p hd es) (hs : step s (.take res bundled) = some s') :
    s'.InPlace p hd es := by
  obtain ⟨t, ht, rfl⟩ := Option.map_eq_some_iff.mp hs
  refine ⟨System.take_inOrder h.order ht, ?_, ?_, h.returned⟩
  · obtain ⟨-, ht⟩ := Option.ite_none_left_eq_some.mp ht
    obtain rfl := Option.some.inj ht
    exact h.num
  · obtain ⟨-, ht⟩ := Option.ite_none_left_eq_some.mp ht
    obtain rfl := Option.some.inj ht
    dsimp only
    rw [segments_snoc, ← h.consumed, h.order.offered_eq, h.order.geometry.2, ← List.map_take]
    rfl

theorem fail_inPlace {res : ℤ} {bundled : Bool} (h : s.InPlace p hd es) (hs : step s (.fail res bundled) = some s') :
    s'.InPlace p hd es := by
  obtain ⟨t, ht, rfl⟩ := Option.map_eq_some_iff.mp hs
  have horder := System.fail_inOrder h.order ht
  obtain ⟨bs, hfin, -⟩ := Pool.finish_fail (p := s.sys.pool) res bundled
  rw [System.step, System.finish, Holding.finish_eq hfin] at ht
  obtain rfl := Option.some.inj ht
  exact ⟨horder, h.num, h.consumed, h.returned⟩

theorem reap_inPlace (h : s.InPlace p hd es) (hs : step s (.reap 0) = some s') : ∃ hd' es', s'.InPlace p hd' es' := by
  obtain ⟨t, ht, hs⟩ := Option.bind_eq_some_iff.mp hs
  obtain ⟨ids, hids, hs⟩ := Option.bind_eq_some_iff.mp hs
  obtain ⟨x, hx, rfl⟩ := Option.map_eq_some_iff.mp hs
  obtain ⟨c, cs, hcs, hcs', hnum, horder, hhandled⟩ := System.reap_inOrder h.order ht
  have hsegs := h.consumed
  rw [hcs, segments] at hsegs
  rw [hhandled, List.getLast?_append_of_ne_nil _ (by simp), List.getLast?_singleton] at hx
  rw [hsegs, List.getElem?_cons_zero] at hids
  obtain rfl := Option.some.inj hx
  obtain rfl := Option.some.inj hids
  refine ⟨_, _, horder, hnum.trans h.num, ?_, ?_⟩
  · dsimp only
    rw [hsegs, hcs', List.eraseIdx_cons_zero]
  · refine forall_mem_snoc h.returned ?_
    rw [List.map_map, h.whole_eq]
    rfl

/-- `handle_finish` on the oldest completion returns. -/
theorem InPlace.reap_enabled (h : s.InPlace p hd es) (hne : s.sys.inflight ≠ []) :
    ∃ s', step s (.reap 0) = some s' := by
  obtain ⟨t, ht⟩ := h.order.reap_enabled hne
  obtain ⟨c, cs, hcs, -, -, -, hhandled⟩ := System.reap_inOrder h.order ht
  have hsegs := h.consumed
  rw [hcs, segments] at hsegs
  rw [step, ht, hsegs, Option.bind_some, List.getElem?_cons_zero, Option.bind_some, hhandled, List.getLast?_concat]
  exact ⟨_, rfl⟩

theorem buffer_inPlace {op : ManagedBuffer.Op} (h : s.InPlace p hd es) (hs : step s (.buffer op) = some s') :
    ∃ fs, s'.InPlace p hd (es ++ fs) := by
  obtain ⟨⟨live, given⟩, hstep, rfl⟩ := Option.map_eq_some_iff.mp hs
  have hown := ManagedBuffer.step_owned ProvidedBuffer.owns rfl op hstep
  cases given with
  | none =>
    rw [Option.toList_none, List.filter_nil, List.append_nil] at hown
    refine ⟨[], ?_, h.num, ?_, h.returned⟩
    · rw [List.append_nil]
      exact h.order.live_congr hown
    · rw [List.append_nil]
      exact h.consumed
  | some b =>
    obtain ⟨fs, horder⟩ := System.giveBack_inOrder h.order hown
    refine ⟨fs, horder, ?_, ?_, h.returned⟩
    · change (s.sys.pool.reset b).numBuffers = _
      unfold Pool.reset
      split_ifs
      · exact h.num
      · exact h.num
    · dsimp only
      rw [segments_append h.order.named]
      exact h.consumed

/-- **Step lemma**: with the oldest completion reaped first, every buffer stays accounted for. -/
theorem step_inPlace (op : TracedOp) (h : s.InPlace p hd es) (hg : OldestFirst s op) (hs : step s op = some s') :
    ∃ hd' es', s'.InPlace p hd' es' := by
  cases op with
  | take res bundled => exact ⟨hd, es, take_inPlace h hs⟩
  | fail res bundled => exact ⟨hd, es, fail_inPlace h hs⟩
  | reap i =>
    obtain rfl : i = 0 := hg
    exact reap_inPlace h hs
  | buffer op =>
    obtain ⟨fs, hI⟩ := buffer_inPlace h hs
    exact ⟨hd, es ++ fs, hI⟩

end Steps

/-- **Each buffer is in one place**, in every run with completions reaped in take order and with any moves, resets and
drops: the ids that were taken and not handled, those offered in the ring and those of the owners are all ids, each once;
`handle_finish` on the oldest completion returns, and it returned the buffers that the kernel took, in order; the ring
holds no more entries than there are buffers, and `add_buffer_back` writes none of the slots that are still to be read. -/
theorem one_place {base num bufferSize : ℕ} {p : Pool} (hp : Pool.create base num bufferSize false = some p)
    {ops : List TracedOp} {s : Traced} (hg : Along step OldestFirst (init p) ops)
    (hrun : run step (init p) ops = some s) :
    (s.sys.unread ++ s.sys.offered ++ s.sys.held).Perm (List.range p.numBuffers) ∧
    (s.sys.inflight ≠ [] → ∃ s', step s (.reap 0) = some s') ∧
    (∀ x ∈ s.returned, x.2 = x.1.map p.whole) ∧
    (s.sys.unread ++ s.sys.offered).length ≤ p.numBuffers ∧
    (∀ b ∈ s.sys.live, b.owns = true → ∀ i < (s.sys.unread ++ s.sys.offered).length,
      (s.sys.pool.addBufferBack b.data b.size).br.bufs ((s.sys.pool.brHead + i) % 2 ^ 16 &&& s.sys.pool.mask) =
        s.sys.pool.br.bufs ((s.sys.pool.brHead + i) % 2 ^ 16 &&& s.sys.pool.mask)) ∧
    s.sys.pool.asserts = true := by
  obtain ⟨hd, es, h⟩ : ∃ hd es, s.InPlace p hd es := by
    refine run_inv_along (I := fun s => ∃ hd es, s.InPlace p hd es) ?_ ops ⟨0, _, init_inPlace hp⟩ hg hrun
    rintro s op t ⟨hd, es, hI⟩ hg hs
    exact step_inPlace op hI hg hs
  have hlen := h.order.len_le
  have hnum := h.num
  rw [h.order.ring_eq, List.length_map, ← hnum]
  exact ⟨h.order.ids, h.reap_enabled, h.returned, by omega, fun b hb ho i hi => h.order.addBufferBack_frame hb ho hi, h.order.asserts⟩

/-- Two of four buffers are read in a bundle, one of them is moved and assigned over the other, and the third is read. -/
theorem one_place_run : ∃ p s, Pool.create 64 4 8 false = some p ∧
    run step (init p) [.take 12 true, .take 8 false, .reap 0, .buffer (.moveConstruct 0), .buffer (.moveAssign 1 2),
      .take 5 false, .reap 0, .buffer (.destroy 2), .buffer (.reset 1)] = some s ∧
    s.returned.map Prod.fst = [[0, 1], [2]] ∧ s.sys.unread = [3] ∧ s.sys.offered = [1, 0] ∧ s.sys.held = [2] ∧
    (s.sys.unread ++ s.sys.offered ++ s.sys.held).Perm (List.range p.numBuffers) := by
  have hrun : ((Pool.create 64 4 8 false).bind fun p => (run step (init p) [.take 12 true, .take 8 false, .reap 0,
      .buffer (.moveConstruct 0), .buffer (.moveAssign 1 2), .take 5 false, .reap 0, .buffer (.destroy 2),
      .buffer (.reset 1)]).map (fun s => ((s.returned.map Prod.fst, s.sys.unread), s.sys.offered, s.sys.held))) =
      some (([[0, 1], [2]], [3]), [1, 0], [2]) := by decide +kernel
  obtain ⟨p, hp, hrun⟩ := Option.bind_eq_some_iff.mp hrun
  obtain ⟨s, hs, hend⟩ := Option.map_eq_some_iff.mp hrun
  simp only [Prod.mk.injEq] at hend
  obtain ⟨⟨hret, hunread⟩, hoff, hheld⟩ := hend
  refine ⟨p, s, hp, hs, hret, hunread, hoff, hheld, (one_place hp (along_of_forall _ _ ?_) hs).1⟩
  simp [OldestFirst]

end Traced

end Condy.ProvidedBuffers
