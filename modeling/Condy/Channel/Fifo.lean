import Condy.Channel.Refine
import Condy.Lib.Tickets

/-!
# Condy.Channel.Fifo — items are delivered in the order of the push requests

An item reaches a pop by one of three routes: straight from the push to a waiting pop, through the buffer, or from a
waiting push into the buffer and on.  `Spec.Fifo s handed buffered` gives every push that was not skipped its place:
the pushes `handed` (their items went to pops, in this order), `buffered` (their items are in the buffer) and the
waiting ones are, one after the other, all pushes in the order of their requests.  `Fifo.step` keeps it along every
transition, and `fifo` is the result for the runs of the code.
-/

namespace Condy

open Lib Relation Channel

variable {T : Type}

namespace Spec

def item (s : Spec T) (r : ℕ) : T := (s.pushes r).item

/-- The pushes that were not skipped, in order: `handed` to pops, `buffered`, and waiting. -/
structure Places (s : Spec T) (handed buffered : List ℕ) : Prop where
  pushes : Ordered (pushOrder s.log) (pushSkipped s.log) (handed ++ buffered ++ s.pushQ)
  handed_eq : handed.map s.item = (delivered s.log).map Prod.snd
  buffered_eq : buffered.map s.item = s.items

/-- The pops that were not skipped, in order: those that got an item, and the waiting ones. -/
def PopsServed (s : Spec T) : Prop :=
  Ordered (popOrder s.log) (popSkipped s.log) ((delivered s.log).map Prod.fst ++ s.popQ)

/-- The item of a push is the one it was called with. -/
def Asked (s : Spec T) : Prop :=
  ∀ r x, Event.pushReq r x ∈ s.log → r ∈ pushOrder s.log ∧ s.item r = x

/-- The pushes that have a place are among those requested. -/
theorem Places.known {s : Spec T} {A B : List ℕ} (h : s.Places A B) {r : ℕ}
    (hr : r ∈ A ∨ r ∈ B ∨ r ∈ s.pushQ) : r ∈ pushOrder s.log := by
  refine ((h.pushes.mem_live (r := r)).mp ?_).1
  rcases hr with hr | hr | hr <;> simp [hr]

variable [Inhabited T] {s s' : Spec T} {A B : List ℕ}

/-- A transition does not change the items of requested pushes. -/
theorem map_item (t : Trans s s') {l : List ℕ} (hl : ∀ r ∈ l, r ∈ pushOrder s.log) :
    l.map s'.item = l.map s.item :=
  List.map_congr_left (fun r hr => (push_frame t (hl r hr)).1)

theorem refused_ne {res : ℤ} (h : res = -EAGAIN ∨ res = -EPIPE) : res ≠ 0 := by
  rcases h with rfl | rfl <;> decide

theorem Asked.step (h : s.Asked) (t : Trans s s') : s'.Asked := by
  have hk : ∀ r x, Event.pushReq r x ∈ s.log → r ∈ pushOrder s'.log ∧ s'.item r = x := by
    intro r x hr
    obtain ⟨hord, hx⟩ := h r x hr
    refine ⟨?_, ((push_frame t hord).1).trans hx⟩
    cases t <;> simp [hord]
  cases t with
  | pushRefused r x | pushHanded r x | pushBuffered r x | pushQueued r x =>
    intro j y hj
    rcases List.mem_append.mp hj with hj | hj
    · exact hk j y hj
    · obtain ⟨rfl, rfl⟩ : j = r ∧ y = x := by simpa using hj
      exact ⟨by simp, by simp [item, PushHandle.new, PushHandle.take]⟩
  | pushCancelDone | popCancelDone | close | destroy => exact hk
  | _ => exact fun j y hj => hk j y (by simpa using hj)

theorem PopsServed.step (hI : s.Inv) (h : s.PopsServed) (t : Trans s s') : s'.PopsServed := by
  unfold PopsServed at h ⊢
  cases t with
  | pushHanded r x copied rt p rest hr hclosed hp =>
    rw [hp] at h
    simpa using h
  | popRefused p rt res hp hq hi hres =>
    have hskip : res = -EAGAIN ∨ res = -EPIPE := by
      rw [hres]
      split
      · exact .inr rfl
      · exact .inl rfl
    simpa [hskip, refused_ne hskip] using h.refuse hp
  | popShifted p rt r rest y ys hp hq hi =>
    -- a push waits, so no pop does
    have hidle : s.popQ = [] := by
      by_contra hne
      simp [(hI.popIdle hne).2.1] at hq
    have := h.arrive hp
    rw [hidle, List.append_nil] at this
    simpa [hidle, EAGAIN, EPIPE] using this
  | popBuffered p rt y ys hp hq hi =>
    have hidle : s.popQ = [] := by
      by_contra hne
      simp [(hI.popIdle hne).1] at hi
    have := h.arrive hp
    rw [hidle, List.append_nil] at this
    simpa [hidle, EAGAIN, EPIPE] using this
  | popQueued p rt hp hq hi hclosed => simpa using h.arrive hp
  | popCancelled p hp => simpa using h.withdraw_erase hp
  | popClosed p rest hp =>
    rw [hp] at h
    simpa using h.withdraw
  | pushCancelDone | popCancelDone | close | destroy => exact h
  | pushRefused | pushBuffered | pushQueued | pushCancelled | pushClosed => simpa using h

theorem Places.step (hI : s.Inv) (h : s.Places A B) (t : Trans s s') (hlive : s'.destroyed = false) :
    ∃ A' B', s'.Places A' B' := by
  have hA := map_item t (fun r hr => h.known (.inl hr))
  have hB := map_item t (fun r hr => h.known (.inr (.inl hr)))
  have hQ : ∀ r ∈ s.pushQ, (B ++ [r]).map s'.item = s.items ++ [s.item r] := by
    intro r hr
    have hitem : s'.item r = s.item r := (push_frame t (h.known (.inr (.inr hr)))).1
    rw [List.map_append, hB, h.buffered_eq, List.map_singleton, hitem]
  obtain ⟨hpush, hhand, hbuf⟩ := h
  rw [← hA] at hhand
  rw [← hB] at hbuf
  cases t with
  | pushRefused r x copied rt res hr hres =>
    have hskip : res = -EAGAIN ∨ res = -EPIPE := by
      rcases hres with ⟨-, hres⟩ | ⟨-, -, hres⟩
      · exact .inr hres
      · exact .inl hres
    exact ⟨A, B, by simpa [hskip] using hpush.refuse hr, by simpa using hhand, hbuf⟩
  | pushHanded r x copied rt p rest hr hclosed hp =>
    -- nothing is buffered and no push waits, so the new item is the next one
    obtain ⟨hi, hq, -⟩ := hI.popIdle (by simp [hp])
    obtain rfl : B = [] := by simpa [hi] using hbuf
    refine ⟨A ++ [r], [], ?_, ?_, by simpa using hi.symm⟩
    · have := hpush.arrive hr
      rw [hq, List.append_nil, List.append_nil] at this
      simpa [hq, EAGAIN, EPIPE] using this
    · rw [List.map_append, hhand]
      simp [item, PushHandle.new, PushHandle.take]
  | pushBuffered r x copied rt hr hclosed hp hl =>
    -- there is room, so no push waits
    have hq : s.pushQ = [] := by
      by_contra hne
      have := (hI.pushFull hne).1
      omega
    refine ⟨A, B ++ [r], ?_, by simpa using hhand, ?_⟩
    · have := hpush.arrive hr
      rw [hq, List.append_nil] at this
      simpa [hq, EAGAIN, EPIPE] using this
    · rw [List.map_append, hbuf]
      simp [item, PushHandle.new, PushHandle.take]
  | pushQueued r x copied rt hr hclosed hp hl =>
    exact ⟨A, B, by simpa using hpush.arrive hr, by simpa using hhand, hbuf⟩
  | popRefused p rt res hp hq hi hres =>
    have hne : res ≠ 0 := by
      rw [hres]
      split <;> decide
    exact ⟨A, B, by simpa using hpush, by simpa [hne] using hhand, hbuf⟩
  | popShifted p rt r rest y ys hp hq hi =>
    -- the waiting push comes right behind the buffered ones, and the first of all these is served
    obtain ⟨b, B', hcons, hb, hB'⟩ := List.map_eq_cons_iff.mp ((hQ r (by simp [hq])).trans hi)
    refine ⟨A ++ [b], B', ?_, ?_, hB'⟩
    · have hsplit : A ++ B ++ r :: rest = A ++ [b] ++ B' ++ rest := by
        rw [List.append_assoc, ← List.singleton_append, ← List.append_assoc B, hcons]
        simp
      rw [hq, hsplit] at hpush
      simpa using hpush
    · rw [List.map_append, hhand]
      simp [hb]
  | popBuffered p rt y ys hp hq hi =>
    obtain ⟨b, B', rfl, hb, hB'⟩ := List.map_eq_cons_iff.mp (hbuf.trans hi)
    refine ⟨A ++ [b], B', by simpa [hq] using hpush, ?_, hB'⟩
    rw [List.map_append, hhand]
    simp [hb]
  | pushCancelled r hr hrt =>
    exact ⟨A, B, by simpa using hpush.withdraw_erase hr, by simpa using hhand, hbuf⟩
  | pushClosed r rest hr =>
    rw [hr] at hpush
    exact ⟨A, B, by simpa using hpush.withdraw, by simpa using hhand, hbuf⟩
  | destroy hclosed => exact absurd hlive (by simp)
  | popQueued | popCancelled | popClosed => exact ⟨A, B, by simpa using hpush, by simpa using hhand, hbuf⟩
  | pushCancelDone | popCancelDone | close => exact ⟨A, B, hpush, hhand, hbuf⟩

/-- The three facts along any sequence of transitions from a new channel. -/
theorem fifo_star {cap : ℕ} (t : ReflTransGen Trans (Spec.empty cap) s) :
    s.Asked ∧ s.PopsServed ∧ (s.destroyed = false → ∃ A B, s.Places A B) := by
  induction t with
  | refl => exact ⟨fun _ _ h => (nomatch h), Ordered.init, fun _ => ⟨[], [], Ordered.init, rfl, rfl⟩⟩
  | @tail u v hu huv ih =>
    obtain ⟨hask, hpops, hplaces⟩ := ih
    have hI := inv_star (inv_empty cap) hu
    refine ⟨hask.step huv, hpops.step hI huv, fun hlive => ?_⟩
    have hlive' : u.destroyed = false := by
      cases huv <;> first | exact hlive | exact absurd hlive (by simp)
    obtain ⟨A, B, h⟩ := hplaces hlive'
    exact h.step hI huv hlive

end Spec

namespace Channel

variable [Inhabited T]

/-- **First come, first served**, for every capacity and every run of callers: `pushOrder` and `popOrder` are the
requests in the order in which they took the lock, `delivered` pairs each served pop with the item it got, and
`Ordered order skip live` says that `live` is `order` without `skip`.  Every push that is not skipped is in exactly
one place, since the three parts of `live` together have no duplicates.  `hlive`: the destructor has not run. -/
theorem fifo {cap : ℕ} {c₀ c : Channel T} {ops : List (Op T)} (h0 : init cap = some c₀)
    (hrun : run step c₀ ops = some c) (hlive : c.destroyed = false) :
    (∃ handed buffered : List ℕ,
      Ordered (pushOrder c.log) (pushSkipped c.log) (handed ++ buffered ++ c.pushAwaiters) ∧
      handed.map (fun r => (c.pushes r).item) = (delivered c.log).map Prod.snd ∧
      buffered.map (fun r => (c.pushes r).item) = c.buf.items) ∧
    Ordered (popOrder c.log) (popSkipped c.log) ((delivered c.log).map Prod.fst ++ c.popAwaiters) ∧
    (∀ r x, Event.pushReq r x ∈ c.log → (c.pushes r).item = x) ∧
    ∀ p x, Event.popLeft p .transferred x ∈ c.log → (c.pops p).result = (0, x) := by
  obtain ⟨-, hempty⟩ := init_spec h0
  obtain ⟨⟨-, hI⟩, ht⟩ := run_refines ops (Sound.init h0) hrun
  rw [hempty] at ht
  obtain ⟨hask, hpops, hplaces⟩ := Spec.fifo_star ht
  obtain ⟨A, B, h1, h2, h3⟩ := hplaces hlive
  refine ⟨⟨A, B, h1, h2, h3⟩, hpops, fun r x hr => (hask r x hr).2, fun p x hp => ?_⟩
  have hc : (Cause.transferred, x) ∈ popCauses c.log p := (mem_popCauses c.log p).mpr hp
  obtain ⟨-, -, -, ⟨⟨-, hquit⟩, -⟩ | ⟨-, ho⟩⟩ := hI.popFates.of_cause (R := c.abs.popRoom) hc
  · exact nomatch (congrArg Prod.fst hquit)
  · exact congrArg PopOutcome.result ho

/-- Capacity one: a direct hand-off, a push that waits behind a buffered item, one that is cancelled between them and
one by `force_push`. -/
theorem fifo_run : ∃ c₀ c : Channel ℕ, init 1 = some c₀ ∧
    run step c₀ [.pop 0 7, .push 0 10 false 7, .push 1 11 false 7, .push 2 12 true 7, .push 3 13 false 7,
      .cancelPush 2, .cancelPushDone 2, .tryPop 1, .forcePush 4 14 true, .tryPop 2] = some c ∧
    delivered c.log = [(0, 10), (1, 11), (2, 13)] ∧ pushSkipped c.log = [2] ∧ c.buf.items = [14] ∧
    ∃ handed buffered : List ℕ,
      Ordered (pushOrder c.log) (pushSkipped c.log) (handed ++ buffered ++ c.pushAwaiters) := by
  have hrun : ((init 1 : Option (Channel ℕ)).bind (fun c₀ =>
      (run step c₀ [.pop 0 7, .push 0 10 false 7, .push 1 11 false 7, .push 2 12 true 7, .push 3 13 false 7,
        .cancelPush 2, .cancelPushDone 2, .tryPop 1, .forcePush 4 14 true, .tryPop 2]).map (fun c =>
        (c.destroyed, delivered c.log, pushSkipped c.log, c.buf.items)))) =
      some (false, [(0, 10), (1, 11), (2, 13)], [2], [14]) := by decide
  obtain ⟨c₀, h0, hrun⟩ := Option.bind_eq_some_iff.mp hrun
  obtain ⟨c, hc, hres⟩ := Option.map_eq_some_iff.mp hrun
  obtain ⟨hlive, hdel, hskip, hitems⟩ : c.destroyed = false ∧ delivered c.log = [(0, 10), (1, 11), (2, 13)] ∧
      pushSkipped c.log = [2] ∧ c.buf.items = [14] := by simpa using hres
  obtain ⟨A, B, hord, -⟩ := (fifo h0 hc hlive).1
  exact ⟨c₀, c, h0, hc, hdel, hskip, hitems, A, B, hord⟩

end Channel

end Condy
