import Condy.Runtime.Inv

/-!
# Condy.Runtime.Cancel — which operation a cancel finds

A cancel entry names the address of a finish handle.  It is right as long as the operations at this address that are
ahead of it, executing or to be executed first, are the one that asked for it: `Aimed`.  A cancel that is queued on the
runtime's own thread is aimed, because the operation that asks for it still holds the address.  A cancel message is
turned into an entry only when it is reaped, and by then the address may belong to another operation.  `AddressKept`
excludes exactly this.
-/

namespace Condy

open Lib

/-- Every cancel entry names an address at which only the operation that asked for it is executing or ahead of it. -/
def Aimed (sq : List Sqe) (reqs : ℕ → Option Req) : Prop :=
  ∀ pre e post target, sq = pre ++ e :: post → e.request = .cancel target → ∀ t,
    ((reqs t).map (·.userData) = some target ∨ ∃ x ∈ pre, x.opTag = some t ∧ x.userData = target) → t = e.tag

namespace Aimed

variable {sq : List Sqe} {reqs reqs' : ℕ → Option Req} {e : Sqe}

theorem snoc (h : Aimed sq reqs) (he : ∀ target, e.request = .cancel target → ∀ t,
    ((reqs t).map (·.userData) = some target ∨ ∃ x ∈ sq, x.opTag = some t ∧ x.userData = target) → t = e.tag) :
    Aimed (sq ++ [e]) reqs := by
  intro pre x post target hsplit hx t ht
  rcases List.eq_nil_or_concat post with rfl | ⟨post, y, rfl⟩
  · obtain ⟨rfl, hxe⟩ := List.append_inj' hsplit rfl
    obtain rfl := (List.cons.inj hxe).1
    exact he target hx t ht
  · rw [List.concat_eq_append, ← List.cons_append, ← List.append_assoc] at hsplit
    obtain ⟨rfl, -⟩ := List.append_inj' hsplit rfl
    exact h pre x post target rfl hx t ht

theorem tail (h : Aimed (e :: sq) reqs) : Aimed sq reqs := by
  intro pre x post target hsplit hx t ht
  refine h (e :: pre) x post target (by rw [hsplit]; rfl) hx t ?_
  rcases ht with ht | ⟨y, hy, ht⟩
  · exact .inl ht
  · exact .inr ⟨y, List.mem_cons_of_mem e hy, ht⟩

/-- An entry that is executed was ahead of all the others. -/
theorem execOp (h : Aimed (e :: sq) reqs) (k : OpKind) (he : e.request = .op k) :
    Aimed sq (Function.update reqs e.tag (some ⟨e.userData, k, .ready⟩)) := by
  intro pre x post target hsplit hx t ht
  refine h (e :: pre) x post target (by rw [hsplit]; rfl) hx t ?_
  have htag : e.opTag = some e.tag := by
    unfold Sqe.opTag
    rw [he]
  rcases ht with ht | ⟨y, hy, ht⟩
  · by_cases hte : t = e.tag
    · subst hte
      rw [Function.update_self] at ht
      exact .inr ⟨e, List.mem_cons_self, htag, Option.some.inj ht⟩
    · rw [Function.update_of_ne hte] at ht
      exact .inl ht
  · exact .inr ⟨y, List.mem_cons_of_mem e hy, ht⟩

theorem of_reqs (h : Aimed sq reqs) (hr : ∀ t a, (reqs' t).map (·.userData) = some a →
    (reqs t).map (·.userData) = some a) : Aimed sq reqs' := by
  intro pre x post target hsplit hx t ht
  refine h pre x post target hsplit hx t (ht.imp_left (hr t target))

end Aimed

/-- The operation whose callback sent a cancel message. -/
def Origin.canceller : Origin → Option ℕ
  | .cancel tag => some tag
  | _ => none

namespace Runtime

/-- An operation other than `tag` does not hold the address. -/
def HeldBy (s : Runtime) (addr tag : ℕ) : Prop := ∀ h ∈ s.handles, h.addr = addr → h.tag = tag

/-- A cancel message is reaped while its address is free or still held by the operation whose callback sent it. -/
def AddressKept (s : Runtime) (op : Op) : Prop :=
  op = .reap → ∀ c ∈ s.cq.head?, ∀ tag ∈ c.origin.canceller, s.HeldBy (decodeWork c.userData).1 tag

instance (s : Runtime) (op : Op) : Decidable (s.AddressKept op) := by
  unfold AddressKept HeldBy
  infer_instance

/-- What a step does to the entries, the requests and the record of the cancels. -/
inductive Moves (s s' : Runtime) : Prop where
  | same (hsq : s'.sq = s.sq) (hreqs : s'.reqs = s.reqs) (hc : s'.cancelled = s.cancelled)
  | queue (e : Sqe) (hsq : s'.sq = s.sq ++ [e]) (hreqs : s'.reqs = s.reqs) (hc : s'.cancelled = s.cancelled)
      (haim : ∀ target, e.request = .cancel target → s.HeldBy target e.tag)
  | execOp (e : Sqe) (kind : OpKind) (he : e.request = .op kind) (hsq : s.sq = e :: s'.sq)
      (hreqs : s'.reqs = Function.update s.reqs e.tag (some ⟨e.userData, kind, .ready⟩)) (hc : s'.cancelled = s.cancelled)
  | execOther (e : Sqe) (hsq : s.sq = e :: s'.sq) (hreqs : s'.reqs = s.reqs) (hc : s'.cancelled = s.cancelled)
  | execCancel (e : Sqe) (target t : ℕ) (he : e.request = .cancel target) (hsq : s.sq = e :: s'.sq)
      (hreqs : s'.reqs = s.reqs) (ht : (s.reqs t).map (·.userData) = some target)
      (hc : s'.cancelled = s.cancelled ++ [(e.tag, t)])
  | post (hsq : s'.sq = s.sq)
      (hreqs : ∀ t a, (s'.reqs t).map (·.userData) = some a → (s.reqs t).map (·.userData) = some a)
      (hc : s'.cancelled = s.cancelled)

section

variable {s s' : Runtime}

/-- The operations at an address that is held by `tag` are `tag`. -/
theorem HeldBy.aimed (h : s.Inv) {addr tag : ℕ} (hh : s.HeldBy addr tag) (t : ℕ)
    (ht : (s.reqs t).map (·.userData) = some addr ∨ ∃ x ∈ s.sq, x.opTag = some t ∧ x.userData = addr) : t = tag := by
  have hop : ∀ o ∈ s.ops, o.addr = addr → o.tag = tag := by
    intro o ho ha
    obtain ⟨g, hg, rfl⟩ := List.mem_map.mp ho
    exact hh g hg ha
  rcases ht with ht | ⟨x, hx, ht, hu⟩
  · obtain ⟨r, hr, hu⟩ := Option.map_eq_some_iff.mp ht
    obtain ⟨-, o, ho, rfl, hru, -⟩ := h.flight.reqsOk t r hr
    rw [hru, encodeWork_common] at hu
    exact hop o ho hu
  · obtain ⟨o, ho, rfl, rfl⟩ := (h.flight.sqOk x hx).opTag_mem ht
    rw [OpInfo.sqe, encodeWork_common] at hu
    exact hop o ho hu

theorem resumeWork_frame (s : Runtime) : ∃ n b, s.resumeWork = { s with pendingWorks := n, underflow := b } := by
  unfold resumeWork
  split
  · exact ⟨2 ^ 64 - 1, true, rfl⟩
  · exact ⟨_, s.underflow, rfl⟩

theorem invoke_frame (s : Runtime) (w : ℕ) :
    ∃ n b ws, s.invoke w = { s with pendingWorks := n, underflow := b, waits := ws } := by
  unfold invoke
  split
  · obtain ⟨n, b, he⟩ := resumeWork_frame s
    rw [he]
    exact ⟨n, b, _, rfl⟩
  · exact ⟨s.pendingWorks, s.underflow, s.waits, rfl⟩

theorem queueSqe_moves (h : s.Inv) {e : Sqe} (hs : s.queueSqe e = some s') :
    s'.sq = s.sq ++ [e] ∧ s'.reqs = s.reqs ∧ s'.cancelled = s.cancelled := by
  obtain ⟨r, hr, rfl⟩ := Option.map_eq_some_iff.mp hs
  exact ⟨(sq_getSqe h.executed hr).2, rfl, rfl⟩

theorem start_moves (h : s.Inv) {addr : ℕ} {kind : OpKind} {stopRequested prepFails stopPossible : Bool}
    (hs : s.start addr kind stopRequested prepFails stopPossible = some s') : Moves s s' := by
  have hfail : ∀ (tag : ℕ) (res : ℤ), Moves s (({ s with nextTag := s.nextTag + 1 } : Runtime).fail kind tag res) := by
    intro tag res
    unfold fail
    split <;> exact .same rfl rfl rfl
  unfold start at hs
  obtain ⟨-, hs⟩ := Option.ite_none_left_eq_some.mp hs
  cases stopRequested with
  | true => rw [← Option.some.inj hs]; exact hfail _ _
  | false =>
    cases prepFails with
    | true => rw [← Option.some.inj hs]; exact hfail _ _
    | false =>
      obtain ⟨u, hu, rfl⟩ := Option.map_eq_some_iff.mp hs
      obtain ⟨r, hr, rfl⟩ := Option.map_eq_some_iff.mp hu
      refine .queue ⟨encodeWork addr .common, .op kind, s.nextTag⟩ ?_ rfl rfl (fun _ he => nomatch he)
      change r.maybeSubmit.all.drop s.executed = _
      rw [Ring.all_maybeSubmit, (sq_getSqe h.executed hr).2]

theorem execute_moves {e : Sqe} {hit : Option ℕ} {res : ℤ} (he : s.ring.all[s.executed]? = some e)
    (hs : ({ s with executed := s.executed + 1 } : Runtime).execute e hit res = some s') : Moves s s' := by
  have hsq := sq_eq_cons he
  unfold execute at hs
  cases hr : e.request with
  | op kind =>
    rw [hr] at hs
    obtain rfl := Option.some.inj hs
    exact .execOp e kind hr hsq rfl rfl
  | msgRing =>
    rw [hr] at hs
    obtain rfl := Option.some.inj hs
    exact .execOther e hsq rfl rfl
  | cancel target =>
    rw [hr] at hs
    cases hit with
    | none =>
      obtain ⟨-, hs⟩ := Option.ite_none_right_eq_some.mp hs
      obtain rfl := Option.some.inj hs
      exact .execOther e hsq rfl rfl
    | some t =>
      obtain ⟨ht, hs⟩ := Option.ite_none_right_eq_some.mp hs
      obtain rfl := Option.some.inj hs
      exact .execCancel e target t hr hsq rfl ht rfl

theorem post_moves {tag : ℕ} {res : ℤ} {more notif : Bool} (hs : s.post tag res more notif = some s') : Moves s s' := by
  obtain ⟨r, hr, hs⟩ := Option.bind_eq_some_iff.mp hs
  obtain ⟨p, -, rfl⟩ := Option.map_eq_some_iff.mp hs
  refine .post rfl (fun t a ht => ?_) rfl
  by_cases hte : t = tag
  · subst hte
    simp only [Function.update_self] at ht
    split at ht
    · nomatch ht
    · rw [hr]
      exact ht
  · simpa only [Function.update_of_ne hte] using ht

theorem processCqe_moves (h : s.Inv) {next : After} {c : Cqe} {cs : List Cqe} (hq : s.cq = c :: cs)
    (hg : AddressKept s .reap)
    (hs : ({ s with cq := cs } : Runtime).processCqe next c = some s') : Moves s s' := by
  have hok := h.flight.cqOk c (by rw [hq]; exact List.mem_cons_self)
  unfold CqeOk at hok
  unfold processCqe at hs
  cases horig : c.origin with
  | op t =>
    rw [horig] at hok
    obtain ⟨o, ho, rfl, hu⟩ := hok
    obtain ⟨g, hfind, -, -⟩ := find_handle h ho
    rw [hu, decodeWork_encodeWork (h.flight.align o ho)] at hs
    simp only [hfind] at hs
    obtain ⟨hs', rfl, -⟩ := handle_spec rfl hs
    exact .same rfl rfl rfl
  | cancel t =>
    rw [horig] at hok
    obtain ⟨a, ha, hu⟩ := hok
    have hheld := hg rfl c (by rw [hq]; rfl) t (by rw [horig]; rfl)
    rw [hu, decodeWork_encodeWork ha] at hs hheld
    rw [horig] at hs
    obtain ⟨u, hu', rfl⟩ := Option.map_eq_some_iff.mp hs
    have h1 := reapOther_inv h hq (by simp [horig]) (isMsgDone_eq_false ha hu (.inl (by decide)))
    obtain ⟨hsq, hreqs, hcan⟩ := queueSqe_moves h1 hu'
    refine .queue _ hsq hreqs hcan (fun target he => ?_)
    obtain rfl := Request.cancel.inj he
    exact hheld
  | other =>
    rw [horig] at hok
    obtain ⟨w, hw, hu | hu⟩ := hok
    · rw [hu, decodeWork_encodeWork hw] at hs
      obtain rfl := Option.some.inj hs
      exact .same rfl rfl rfl
    · rw [hu, decodeWork_encodeWork hw] at hs
      simp only at hs
      split at hs
      · split at hs
        · obtain rfl := Option.some.inj hs
          exact .same rfl rfl rfl
        · obtain rfl := Option.some.inj hs
          obtain ⟨n, b, he⟩ := resumeWork_frame ({ s with cq := cs } : Runtime)
          rw [he]
          exact .same rfl rfl rfl
      · obtain rfl := Option.some.inj hs
        obtain ⟨n, b, ws, he⟩ := invoke_frame ({ s with cq := cs } : Runtime) w
        rw [he]
        exact .same rfl rfl rfl

/-- What any step does, if cancel messages are reaped in time. -/
theorem step_moves (op : Op) (h : s.Inv) (hg : AddressKept s op) (hs : step s op = some s') : Moves s s' := by
  cases op with
  | run =>
    obtain ⟨-, hs⟩ := Option.ite_none_left_eq_some.mp hs
    split at hs <;> rw [← Option.some.inj hs] <;> exact .same rfl rfl rfl
  | tick =>
    rw [← Option.some.inj (Option.ite_none_right_eq_some.mp hs).2]
    unfold tick
    split <;> exact .same rfl rfl rfl
  | pick =>
    rw [← Option.some.inj (Option.ite_none_right_eq_some.mp hs).2]
    unfold pick
    split
    next w ws _ =>
      obtain ⟨n, b, xs, he⟩ := invoke_frame ({ s with localQueue := ws } : Runtime) w
      rw [he]
      exact .same rfl rfl rfl
    next =>
      split
      · exact .same rfl rfl rfl
      · exact .same (sq_submit s) rfl rfl
  | reap =>
    obtain ⟨next, -, ⟨-, rfl⟩ | ⟨c, cs, hq, hs⟩⟩ := reap_cases hs
    · exact .same rfl rfl rfl
    · exact processCqe_moves h hq hg hs
  | start addr kind stopRequested prepFails stopPossible =>
    exact start_moves h (Option.ite_none_right_eq_some.mp hs).2
  | sendMsg submit =>
    obtain ⟨u, hu, rfl⟩ := Option.map_eq_some_iff.mp (Option.ite_none_right_eq_some.mp hs).2
    obtain ⟨v, hv, rfl⟩ := Option.map_eq_some_iff.mp hu
    obtain ⟨hsq, hreqs, hcan⟩ := queueSqe_moves h hv
    split
    · exact .queue _ ((sq_submit v.pendWork).trans hsq) hreqs hcan (fun _ he => by cases he)
    · exact .queue _ hsq hreqs hcan (fun _ he => by cases he)
  | requestStop addr =>
    obtain ⟨u, hu, rfl⟩ := Option.map_eq_some_iff.mp (Option.ite_none_right_eq_some.mp hs).2
    obtain ⟨g, hg', hu⟩ := Option.bind_eq_some_iff.mp hu
    obtain ⟨hsq, hreqs, hcan⟩ := queueSqe_moves h hu
    refine .queue _ hsq hreqs hcan (fun target he g' hg'' ha => ?_)
    obtain rfl := Request.cancel.inj he
    -- The operation that asks for the cancel is the one at the address.
    have hga : g.addr = addr := by simpa using List.find?_some hg'
    have hmem : ∀ x ∈ s.handles, x.toOpInfo ∈ s.ops := fun x hx => List.mem_map_of_mem hx
    exact congrArg OpInfo.tag (h.flight.eq_of_addr (hmem g' hg'') (hmem g (List.mem_of_find?_eq_some hg'))
      (ha.trans hga.symm))
  | joinFinished =>
    rw [← Option.some.inj (Option.ite_none_right_eq_some.mp hs).2]
    exact .same rfl rfl rfl
  | waitReturn | schedule | beginWait | wake | remoteWakeup | remoteStopBegin | remoteStopEnd | postMsg =>
    rw [← Option.some.inj (Option.ite_none_right_eq_some.mp hs).2]
    exact .same rfl rfl rfl
  | ret =>
    simp only [step] at hs
    split at hs
    · rw [← Option.some.inj hs]
      exact .same rfl rfl rfl
    · rw [← Option.some.inj hs]
      obtain ⟨n, b, he⟩ := resumeWork_frame s
      split
      · rw [he]
        exact .same rfl rfl rfl
      · exact .same rfl rfl rfl
    · cases hs
  | allowExit =>
    rw [← Option.some.inj hs]
    exact .same rfl rfl rfl
  | remoteSchedule w | remoteWake w =>
    rw [← Option.some.inj (Option.ite_none_right_eq_some.mp hs).2]
    unfold remotePush
    split <;> exact .same rfl rfl rfl
  | remoteStopSend addr =>
    obtain ⟨g, -, rfl⟩ := Option.map_eq_some_iff.mp (Option.ite_none_right_eq_some.mp hs).2
    exact .same rfl rfl rfl
  | deliver i =>
    obtain ⟨c, -, rfl⟩ := Option.map_eq_some_iff.mp hs
    exact .same rfl rfl rfl
  | exec hit res =>
    obtain ⟨e, he, hs⟩ := Option.bind_eq_some_iff.mp (Option.ite_none_right_eq_some.mp hs).2
    exact execute_moves he hs
  | post tag res more notif => exact post_moves hs

/-! ## The result -/

/-- Every cancel that found a request found that of the operation that asked for it. -/
def CancelsOwn (s : Runtime) : Prop := ∀ p ∈ s.cancelled, p.1 = p.2

/-- **Step lemma.** -/
theorem step_aimed (h : s.Inv) (ha : Aimed s.sq s.reqs) (hc : s.CancelsOwn) (hm : Moves s s') :
    Aimed s'.sq s'.reqs ∧ s'.CancelsOwn := by
  unfold CancelsOwn at hc ⊢
  cases hm with
  | same hsq hreqs hcan => exact ⟨hsq ▸ hreqs ▸ ha, hcan ▸ hc⟩
  | queue e hsq hreqs hcan haim =>
    rw [hsq, hreqs, hcan]
    exact ⟨ha.snoc (fun target he t ht => (haim target he).aimed h t ht), hc⟩
  | execOp e kind he hsq hreqs hcan =>
    rw [hsq] at ha
    rw [hreqs, hcan]
    exact ⟨ha.execOp kind he, hc⟩
  | execOther e hsq hreqs hcan =>
    rw [hsq] at ha
    rw [hreqs, hcan]
    exact ⟨ha.tail, hc⟩
  | execCancel e target t he hsq hreqs ht hcan =>
    rw [hsq] at ha
    rw [hreqs, hcan]
    refine ⟨ha.tail, fun p hp => ?_⟩
    rcases List.mem_append.mp hp with hp | hp
    · exact hc p hp
    · rw [List.mem_singleton.mp hp]
      exact (ha [] e s'.sq target rfl he t (.inl ht)).symm
  | post hsq hreqs hcan =>
    rw [hsq, hcan]
    exact ⟨ha.of_reqs hreqs, hc⟩

end

/-- **No cancel finds another operation**, in every run in which each cancel message is reaped while its address is
free or held by the operation that sent it. -/
theorem cancels_own {eventInterval entries submitBatch : ℕ} {sqpoll : Bool} {lag : List ℕ} {as : List Op}
    {s : Runtime} (hg : Along step AddressKept (init eventInterval (.new entries sqpoll submitBatch lag)) as)
    (hr : run step (init eventInterval (.new entries sqpoll submitBatch lag)) as = some s) : s.CancelsOwn := by
  have hinv : s.Inv ∧ Aimed s.sq s.reqs ∧ s.CancelsOwn := by
    refine run_inv_along (I := fun s => s.Inv ∧ Aimed s.sq s.reqs ∧ s.CancelsOwn) ?_ as
      ⟨init_inv _ _ _ _ _, ?_, fun _ hp => nomatch hp⟩ hg hr
    · rintro s a t ⟨h, ha, hc⟩ hg hs
      exact ⟨step_inv a h hs, step_aimed h ha hc (step_moves a h hg hs)⟩
    · intro pre e post target hsplit
      exact absurd hsplit.symm (by simp [sq, init, Ring.new, Ring.all])
  exact hinv.2.2

/-- Operation 0 starts at address 16. -/
def startAt16 : List Op :=
  [.remoteSchedule 8, .run, .tick, .pick, .start 16 .single false false true, .ret, .tick, .pick, .exec none 0]

/-- A stop request on another thread while the operation is executing. -/
theorem cancels_own_remote : ∃ s, run step (init 61 (.new 8 false 32 [])) (startAt16 ++
      [.remoteStopBegin 16, .remoteStopSend 16, .remoteStopEnd 16, .deliver 0, .waitReturn, .reap, .reap, .tick, .pick,
        .exec (some 0) 0]) = some s ∧ s.cancelled = [(0, 0)] ∧ s.CancelsOwn := by
  have hrun : (run step (init 61 (.new 8 false 32 [])) (startAt16 ++
      ([.remoteStopBegin 16, .remoteStopSend 16, .remoteStopEnd 16, .deliver 0, .waitReturn, .reap, .reap, .tick, .pick,
        .exec (some 0) 0] : List Op))).map (·.cancelled) = some [(0, 0)] := by
    decide +kernel
  obtain ⟨s, hs, hend⟩ := Option.map_eq_some_iff.mp hrun
  exact ⟨s, hs, hend, cancels_own (by decide +kernel) hs⟩

/-- The operation ends, another thread runs its stop callback, the completion is reaped, a new operation starts at the
same address, and then the cancel message is reaped: the new operation is cancelled. -/
theorem cancel_hits_successor : ∃ s, run step (init 61 (.new 8 false 32 [])) (startAt16 ++
      [.post 0 0 false false, .remoteStopBegin 16, .remoteStopSend 16, .remoteStopEnd 16, .deliver 0, .waitReturn,
        .reap, .start 16 .single false false true, .ret, .reap, .reap, .tick, .pick, .exec none 0,
        .exec (some 1) 0]) = some s ∧ s.cancelled = [(0, 1)] ∧ ¬ s.CancelsOwn := by
  have hrun : (run step (init 61 (.new 8 false 32 [])) (startAt16 ++
      ([.post 0 0 false false, .remoteStopBegin 16, .remoteStopSend 16, .remoteStopEnd 16, .deliver 0, .waitReturn,
        .reap, .start 16 .single false false true, .ret, .reap, .reap, .tick, .pick, .exec none 0,
        .exec (some 1) 0] : List Op))).map (·.cancelled) = some [(0, 1)] := by
    decide +kernel
  obtain ⟨s, hs, hend⟩ := Option.map_eq_some_iff.mp hrun
  refine ⟨s, hs, hend, fun hc => ?_⟩
  have := hc (0, 1) (by rw [hend]; exact List.mem_cons_self)
  nomatch this

end Runtime

end Condy
