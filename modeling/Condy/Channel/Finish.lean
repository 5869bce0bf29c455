import Condy.Channel.Refine

/-!
# Condy.Channel.Finish — every suspended push and pop is completed once, with the right result

A waiting entry is completed by the other side, by its own cancellation, or by a close; whoever takes it out of its
waiting list completes it (`Spec.Inv.pushFates`, `Spec.Inv.popFates`).  `FinishedOnce` says what this means for the
handle.  After a close the buffer is only drained (`Drained`).  `finished` is the result for the runs of the code.
-/

namespace Condy

open Lib Relation Channel

variable {T : Type}

/-- What holds of a suspended operation at any time: `left why` if it left its waiting list for that reason, `queued`
while it is in that list, `cancelling` between the two halves of its own `cancel_`. -/
structure FinishedOnce (left : Cause → Prop) (queued cancelling : Prop) (result : ℤ) (sets scheduled : ℕ) :
    Prop where
  atMostOnce : scheduled ≤ 1
  setOnce : sets = scheduled
  whenLeft : scheduled = 1 ↔ ¬ queued ∧ ¬ cancelling
  transferred : result = 0 ↔ left .transferred
  closed : result = -EPIPE ↔ left .closed
  cancelled : result = -ECANCELED ↔ left .cancelled ∧ ¬ cancelling
  reported : scheduled = 1 → result ≠ -ENOTRECOVERABLE

namespace FinishedOnce

variable {left : Cause → Prop} {queued cancelling : Prop}

/-- Still waiting. -/
theorem ofQueued (hq : queued) (hl : ∀ why, ¬ left why) :
    FinishedOnce left queued cancelling (-ENOTRECOVERABLE) 0 0 where
  atMostOnce := Nat.zero_le 1
  setOnce := rfl
  whenLeft := by simp [hq]
  transferred := by simp [hl, ENOTRECOVERABLE]
  closed := by simp [hl, ENOTRECOVERABLE, EPIPE]
  cancelled := by simp [hl, ENOTRECOVERABLE, ECANCELED]
  reported := by simp

/-- Between the two halves of `cancel_`. -/
theorem ofCancelling (hc : cancelling) (hl : ∀ why, left why ↔ why = .cancelled) :
    FinishedOnce left queued cancelling (-ENOTRECOVERABLE) 0 0 where
  atMostOnce := Nat.zero_le 1
  setOnce := rfl
  whenLeft := by simp [hc]
  transferred := by simp [hl, ENOTRECOVERABLE]
  closed := by simp [hl, ENOTRECOVERABLE, EPIPE]
  cancelled := by simp [hc, ENOTRECOVERABLE, ECANCELED]
  reported := by simp

/-- Completed. -/
theorem ofLeft {why : Cause} (hq : ¬ queued) (hc : ¬ cancelling) (hl : ∀ why', left why' ↔ why' = why) :
    FinishedOnce left queued cancelling why.code 1 1 where
  atMostOnce := Nat.le_refl 1
  setOnce := rfl
  whenLeft := by simp [hq, hc]
  transferred := by cases why <;> simp [hl, Cause.code, EPIPE, ECANCELED]
  closed := by cases why <;> simp [hl, Cause.code, EPIPE, ECANCELED]
  cancelled := by cases why <;> simp [hl, hc, Cause.code, EPIPE, ECANCELED]
  reported := by cases why <;> simp [Cause.code, EPIPE, ECANCELED, ENOTRECOVERABLE]

end FinishedOnce

/-- The results that pops get, in order. -/
def popReports (log : List (Event T)) : List (ℤ × T) :=
  log.filterMap (fun
    | .popRet _ res x => some (res, x)
    | .popLeft _ why x => some (why.code, x)
    | _ => none)

/-- No push gets the result zero. -/
def NoPushSucceeds (evs : List (Event T)) : Prop :=
  ∀ r, Event.pushRet r 0 ∉ evs ∧ Event.pushLeft r .transferred ∉ evs

theorem popReports_append (l l' : List (Event T)) : popReports (l ++ l') = popReports l ++ popReports l' :=
  List.filterMap_append

theorem NoPushSucceeds.append {l l' : List (Event T)} (h : NoPushSucceeds l) (h' : NoPushSucceeds l') :
    NoPushSucceeds (l ++ l') := by
  intro r
  simp [h r, h' r]

namespace Spec

variable [Inhabited T] {s s' : Spec T}

/-- `s'` is a later state of the closed channel `s`: pops took `taken` out of the buffer, the other `m` pops got
`-EPIPE`, and those came last. -/
def Drained (s s' : Spec T) : Prop :=
  ∃ evs, s'.log = s.log ++ evs ∧ NoPushSucceeds evs ∧ (s'.destroyed = false →
    ∃ (taken : List T) (m : ℕ), s.items = taken ++ s'.items ∧
      popReports evs = taken.map (fun x => (0, x)) ++ List.replicate m (-EPIPE, default) ∧
      (0 < m → s'.items = []))

/-- One transition of a closed channel: nothing is popped, or the oldest item, or a pop finds the buffer empty. -/
theorem closed_step (hI : s.Inv) (hclosed : s.closed = true) (t : Trans s s') :
    s'.closed = true ∧ ∃ evs, s'.log = s.log ++ evs ∧ NoPushSucceeds evs ∧ (s'.destroyed = false →
      s'.items = s.items ∧ popReports evs = [] ∨
      (∃ y, s.items = y :: s'.items ∧ popReports evs = [(0, y)]) ∨
      s.items = [] ∧ s'.items = [] ∧ popReports evs = [(-EPIPE, default)]) := by
  have hpop : s.popQ = [] := by
    by_contra hne
    simp [(hI.popIdle hne).2.2] at hclosed
  have hpush : s.pushQ = [] := by
    by_contra hne
    simp [(hI.pushFull hne).2] at hclosed
  cases t with
  | pushRefused r x copied rt res hr hres =>
    have hne : res ≠ 0 := by rcases hres with ⟨-, rfl⟩ | ⟨-, -, rfl⟩ <;> decide
    exact ⟨hclosed, _, rfl, fun j => by simp [hne.symm], fun _ => .inl ⟨rfl, rfl⟩⟩
  | popRefused p rt res hp hq hi hres =>
    rw [if_pos hclosed] at hres
    subst hres
    exact ⟨hclosed, _, rfl, fun j => by simp, fun _ => .inr (.inr ⟨hi, hi, rfl⟩)⟩
  | popBuffered p rt y ys hp hq hi =>
    exact ⟨hclosed, _, rfl, fun j => by simp, fun _ => .inr (.inl ⟨y, hi, rfl⟩)⟩
  | pushCancelDone | popCancelDone =>
    exact ⟨hclosed, [], (List.append_nil _).symm, fun j => by simp, fun _ => .inl ⟨rfl, rfl⟩⟩
  | close => exact ⟨rfl, [], (List.append_nil _).symm, fun j => by simp, fun _ => .inl ⟨rfl, rfl⟩⟩
  | destroy =>
    exact ⟨hclosed, [], (List.append_nil _).symm, fun j => by simp, fun h => absurd h (by simp)⟩
  | pushHanded r x copied rt p rest hr hopen | pushBuffered r x copied rt hr hopen
  | pushQueued r x copied rt hr hopen => simp [hopen] at hclosed
  | popShifted p rt r rest y ys hp hq hi => simp [hpush] at hq
  | popQueued p rt hp hq hi hopen => simp [hopen] at hclosed
  | pushCancelled r hr => simp [hpush] at hr
  | popCancelled p hp => simp [hpop] at hp
  | popClosed p rest hp => simp [hpop] at hp
  | pushClosed r rest hr => simp [hpush] at hr

theorem closed_star (hI : s.Inv) (hclosed : s.closed = true) (t : ReflTransGen Trans s s') :
    s'.closed = true ∧ s.Drained s' := by
  induction t with
  | refl =>
    exact ⟨hclosed, [], (List.append_nil _).symm, fun j => by simp, fun _ => ⟨[], 0, rfl, rfl, by simp⟩⟩
  | @tail u v hu huv ih =>
    obtain ⟨hcl, evs, hlog, hno, htaken⟩ := ih
    obtain ⟨hcl', evs', hlog', hno', hcase⟩ := closed_step (inv_star hI hu) hcl huv
    refine ⟨hcl', evs ++ evs', by rw [hlog', hlog, List.append_assoc], hno.append hno', fun hlive => ?_⟩
    have hlive' : u.destroyed = false := by
      cases huv <;> first | exact hlive | exact absurd hlive (by simp)
    obtain ⟨taken, m, hitems, hrep, hm⟩ := htaken hlive'
    rw [popReports_append, hrep]
    rcases hcase hlive with ⟨hi, hr⟩ | ⟨y, hi, hr⟩ | ⟨hi, hi', hr⟩
    · exact ⟨taken, m, by rw [hitems, hi], by rw [hr, List.append_nil], fun h => hi ▸ hm h⟩
    · -- an item is still there, so no pop has failed yet
      obtain rfl : m = 0 := by
        by_contra hne
        simp [hm (Nat.pos_of_ne_zero hne)] at hi
      exact ⟨taken ++ [y], 0, by simp [hitems, hi], by simp [hr], by simp⟩
    · exact ⟨taken, m + 1, by simp [hitems, hi, hi'], by simp [hr, List.replicate_succ'], fun _ => hi'⟩

theorem push_finished (hI : s.Inv) {r : ℕ} (hw : pushWaits s.log r = true) (hrt : (s.pushes r).runtime.isSome) :
    FinishedOnce (fun why => Event.pushLeft r why ∈ s.log) (r ∈ s.pushQ) (r ∈ s.cancellingPush)
      (s.pushes r).result (s.pushes r).sets (s.pushes r).scheduled ∧
    ((s.pushes r).result ≠ 0 → (s.pushes r).moved = false) := by
  have hout : ∀ {o : PushOutcome}, (s.pushes r).outcome = o → (s.pushes r).result = o.result ∧
      (s.pushes r).moved = o.moved ∧ (s.pushes r).sets = o.sets ∧ (s.pushes r).scheduled = o.completions := by
    rintro o rfl
    simp [PushHandle.outcome, hrt]
  have hleft : ∀ why, Event.pushLeft r why ∈ s.log ↔ why ∈ pushCauses s.log r :=
    fun why => (mem_pushCauses s.log r).symm
  cases hI.pushFates r with
  | idle hw' => exact absurd hw (by simp [show pushWaits s.log r = false from hw'])
  | waiting _ hq _ hc ho =>
    obtain ⟨h1, h2, h3, h4⟩ := hout ho
    rw [h1, h2, h3, h4]
    refine ⟨.ofQueued hq (fun why => ?_), fun _ => rfl⟩
    rw [hleft, show pushCauses s.log r = [] from hc]
    exact List.not_mem_nil
  | leaving why _ _ hl hc ho =>
    obtain ⟨h1, h2, h3, h4⟩ := hout ho
    obtain ⟨hmem, rfl⟩ := (hl why).mpr rfl
    rw [h1, h2, h3, h4]
    refine ⟨.ofCancelling hmem (fun why => ?_), fun _ => rfl⟩
    rw [hleft, show pushCauses s.log r = [.cancelled] from hc, List.mem_singleton]
  | settled why _ hq hl hc ho =>
    obtain ⟨h1, h2, h3, h4⟩ := hout ho
    rw [h1, h2, h3, h4]
    refine ⟨.ofLeft hq (fun hmem => hl .cancelled ⟨hmem, rfl⟩) (fun why' => ?_), ?_⟩
    · rw [hleft, show pushCauses s.log r = [why] from hc, List.mem_singleton]
    · cases why <;> simp [PushOutcome.report, Cause.code]

theorem pop_finished (hI : s.Inv) {p : ℕ} (hw : popWaits s.log p = true) :
    FinishedOnce (fun why => ∃ x, Event.popLeft p why x ∈ s.log) (p ∈ s.popQ) (p ∈ s.cancellingPop)
      (s.pops p).result.1 (s.pops p).sets (s.pops p).scheduled := by
  have hout : ∀ {o : PopOutcome T}, (s.pops p).outcome = o → (s.pops p).result = o.result ∧
      (s.pops p).sets = o.sets ∧ (s.pops p).scheduled = o.completions := by
    rintro o rfl
    exact ⟨rfl, rfl, rfl⟩
  have hleft : ∀ why, (∃ x, Event.popLeft p why x ∈ s.log) ↔ ∃ x, (why, x) ∈ popCauses s.log p :=
    fun why => exists_congr (fun x => (mem_popCauses s.log p (q := (why, x))).symm)
  cases hI.popFates p with
  | idle hw' => exact absurd hw (by simp [show popWaits s.log p = false from hw'])
  | waiting _ hq _ hc ho =>
    obtain ⟨h1, h2, h3⟩ := hout ho
    rw [h1, h2, h3]
    refine .ofQueued hq (fun why => ?_)
    rw [hleft, show popCauses s.log p = [] from hc]
    simp
  | leaving why _ _ hl hc ho =>
    obtain ⟨h1, h2, h3⟩ := hout ho
    obtain ⟨hmem, rfl⟩ := (hl why).mpr rfl
    rw [h1, h2, h3]
    refine .ofCancelling hmem (fun why => ?_)
    rw [hleft, show popCauses s.log p = [(.cancelled, default)] from hc]
    simp
  | settled why _ hq hl hc ho =>
    obtain ⟨h1, h2, h3⟩ := hout ho
    rw [h1, h2, h3]
    refine .ofLeft hq (fun hmem => hl (.cancelled, default) ⟨hmem, rfl⟩) (fun why' => ?_)
    rw [hleft, show popCauses s.log p = [why] from hc]
    simp [Prod.ext_iff]

end Spec

namespace Channel

variable [Inhabited T]

/-- **Every suspended push and pop is completed once, with the right result**, in every run of callers.  A
cancellation is two steps, and the operation is neither waiting nor completed between them.  A push that ends with a
nonzero result, at once or after waiting, has not moved from the caller's item.  From a closed channel on, no push
gets zero, and pops get the buffered items in order and then `-EPIPE`. -/
theorem finished {cap : ℕ} {c₀ c : Channel T} {ops : List (Op T)} (h0 : init cap = some c₀)
    (hrun : run step c₀ ops = some c) :
    (∀ r, c.pushSuspended r = true →
      FinishedOnce (fun why => Event.pushLeft r why ∈ c.log) (r ∈ c.pushAwaiters) (r ∈ c.cancellingPush)
        (c.pushes r).result (c.pushes r).sets (c.pushes r).scheduled ∧
      ((c.pushes r).result ≠ 0 → (c.pushes r).callerMoved = false)) ∧
    (∀ p, c.popSuspended p = true →
      FinishedOnce (fun why => ∃ x, Event.popLeft p why x ∈ c.log) (p ∈ c.popAwaiters) (p ∈ c.cancellingPop)
        (c.pops p).result.1 (c.pops p).sets (c.pops p).scheduled) ∧
    (∀ r res, Event.pushRet r res ∈ c.log → res ≠ 0 → (c.pushes r).callerMoved = false) ∧
    (c.closed = true → ∀ (ops' : List (Op T)) (c' : Channel T), run step c ops' = some c' →
      c.abs.Drained c'.abs) := by
  obtain ⟨⟨hG, hI⟩, -⟩ := run_refines ops (Sound.init h0) hrun
  have hkept : ∀ r, (c.pushes r).moved = false → (c.pushes r).callerMoved = false :=
    fun r hm => by simp [PushHandle.callerMoved, hm]
  refine ⟨fun r hr => ?_, fun p hp => Spec.pop_finished hI hp, fun r res hret hne => ?_, ?_⟩
  · rw [pushSuspended, Bool.and_eq_true] at hr
    obtain ⟨h1, h2⟩ := Spec.push_finished hI hr.2 hr.1
    exact ⟨h1, fun hne => hkept r (h2 hne)⟩
  · obtain ⟨-, -, h | ⟨-, h⟩⟩ := hI.returned r res hret
    · exact absurd h hne
    · exact hkept r h
  · intro hclosed ops' c' hrun'
    exact (Spec.closed_star hI hclosed (run_refines ops' ⟨hG, hI⟩ hrun').2).2

/-- Capacity one, then a close: push 0 is buffered, push 1 was cancelled while it waited and push 2 is closed. -/
theorem finished_run : ∃ c₀ c : Channel ℕ, init 1 = some c₀ ∧
    run step c₀ [.push 0 10 false 7, .push 1 11 false 7, .push 2 12 false 7, .cancelPush 1, .pushClose,
      .cancelPushDone 1] = some c ∧
    FinishedOnce (fun why => Event.pushLeft 1 why ∈ c.log) (1 ∈ c.pushAwaiters) (1 ∈ c.cancellingPush)
      (-ECANCELED) 1 1 ∧ c.abs.Drained c.abs := by
  have hrun : ((init 1 : Option (Channel ℕ)).bind (fun c₀ =>
      (run step c₀ [.push 0 10 false 7, .push 1 11 false 7, .push 2 12 false 7, .cancelPush 1, .pushClose,
        .cancelPushDone 1]).map (fun c => (c.closed, c.pushSuspended 1, (c.pushes 1).result, (c.pushes 1).sets,
          (c.pushes 1).scheduled)))) = some (true, true, -ECANCELED, 1, 1) := by decide
  obtain ⟨c₀, h0, hrun⟩ := Option.bind_eq_some_iff.mp hrun
  obtain ⟨c, hc, hres⟩ := Option.map_eq_some_iff.mp hrun
  obtain ⟨hclosed, hsus, h1, h2, h3⟩ : c.closed = true ∧ c.pushSuspended 1 = true ∧
      (c.pushes 1).result = -ECANCELED ∧ (c.pushes 1).sets = 1 ∧ (c.pushes 1).scheduled = 1 := by
    simpa using hres
  obtain ⟨hpush, -, -, hdrain⟩ := finished h0 hc
  have hfin := (hpush 1 hsus).1
  rw [h1, h2, h3] at hfin
  exact ⟨c₀, c, h0, hc, hfin, hdrain hclosed [] c rfl⟩

end Channel

end Condy
