import Condy.Cluster.Inv
import Condy.Lib.Tickets

/-!
# Condy.Cluster.Step — every step keeps the invariant

First what each function with several outcomes can do (`callStep_cases` and so on), for every lemma about a step.  Then
one lemma for each function of the model: those that carry an item name the two spots and use `Routed.move`.
-/

namespace Condy

open Lib

namespace Cluster

variable {ι θ : Type} [DecidableEq ι] [DecidableEq θ] {s s' : Cluster ι θ} {xs : ι × Queue → List ℕ} {t : θ} {r : ι}

/-! ## What a step can do -/

/-- A step of a call, by its stage. -/
theorem callStep_cases {ok : Bool} (hs : s.callStep t ok = some s') : ∃ c, s.call t = some c ∧
    ((c.stage = .read ∧ s' = s.callRead t c) ∨ (c.stage = .lock ∧ s' = s.callLock t c) ∨
      (c.stage = .send ∧ s.callSend t c ok = some s')) := by
  obtain ⟨c, hc, hs⟩ := Option.bind_eq_some_iff.mp hs
  refine ⟨c, hc, ?_⟩
  cases hstage : c.stage with
  | read =>
    simp only [hstage] at hs
    exact .inl ⟨rfl, (Option.some.inj hs).symm⟩
  | lock =>
    simp only [hstage] at hs
    exact .inr (.inl ⟨rfl, (Option.some.inj hs).symm⟩)
  | send =>
    simp only [hstage] at hs
    exact .inr (.inr ⟨rfl, hs⟩)

/-- A message goes to the ring of the thread's runtime, or into the inbox of its target. -/
theorem callSend_cases {c : Call ι} {ok : Bool} (hs : s.callSend t c ok = some s') :
    (∃ r, (s.place t).runtime = some r ∧ s' = (s.setRt r
      (if c.type = .schedule then (s.rt r).scheduleMsgRing ⟨c.target, encodeWork c.work c.type⟩
        else ((s.rt r).scheduleMsgRing ⟨c.target, encodeWork c.work c.type⟩).submit)).setCall t none) ∨
    s' = { s with panicked := true } ∨
    s' = (s.setRt c.target { s.rt c.target with
      inbox := (s.rt c.target).inbox ++ [encodeWork c.work c.type] }).setCall t none := by
  unfold callSend at hs
  split at hs
  · next r hr => exact .inl ⟨r, hr, (Option.some.inj hs).symm⟩
  · split_ifs at hs
    · exact .inr (.inl (Option.some.inj hs).symm)
    · exact .inr (.inr (Option.some.inj hs).symm)

omit [DecidableEq θ] in
/-- A request fails, or its message goes into the inbox of its target. -/
theorem exec_cases {res : ℤ} (hs : s.exec r res = some s') : ∃ m ms, (s.rt r).handed = m :: ms ∧
    ((res < 0 ∧ s' = s.setRt r { s.rt r with
      handed := ms, cq := (s.rt r).cq ++ [⟨encodeWork 0 .schedule, res, some m⟩] }) ∨
    (¬ res < 0 ∧ s' =
      let s₁ := s.setRt r { s.rt r with handed := ms, acks := (s.rt r).acks + 1 }
      s₁.setRt m.target { s₁.rt m.target with inbox := (s₁.rt m.target).inbox ++ [m.data] })) := by
  unfold exec at hs
  simp only at hs
  split at hs
  · cases hs
  · next m ms hm =>
    refine ⟨m, ms, hm, ?_⟩
    split_ifs at hs with hres
    · exact .inl ⟨hres, (Option.some.inj hs).symm⟩
    · exact .inr ⟨hres, (Option.some.inj hs).symm⟩

/-- `run()` begins for the first time or again, or it throws. -/
theorem run_cases {ok : Bool} (hs : s.run t r ok = some s') : s.place t = .outside ∧ s.call t = none ∧
    (((s.rt r).runThread = none ∧
        s' = (s.setRt r { s.rt r with ringOpen := true, runThread := some t }).setPlace t (.flush r)) ∨
      ((s.rt r).runThread = some t ∧ s' = s.setPlace t (.reap r .top)) ∨ s' = s) := by
  obtain ⟨hg, hs⟩ := Option.ite_none_left_eq_some.mp hs
  simp only [not_or, ne_eq, Decidable.not_not] at hg
  refine ⟨hg.1, hg.2, ?_⟩
  split at hs
  · next hnew =>
    split_ifs at hs
    · exact .inl ⟨hnew, (Option.some.inj hs).symm⟩
    · exact .inr (.inr (Option.some.inj hs).symm)
  · next t' ht' =>
    split_ifs at hs with htt
    · exact .inr (.inl ⟨htt ▸ ht', (Option.some.inj hs).symm⟩)
    · exact .inr (.inr (Option.some.inj hs).symm)

/-- A thread may go to another place inside `run()`, and nothing else changes. -/
structure Goes (s : Cluster ι θ) (t : θ) (r : ι) (p : Place ι) : Prop where
  runtime : (s.place t).runtime = some r
  same : p.runtime = some r
  started : ∀ r', s.place t ≠ .flush r' ∧ p ≠ .flush r'
  notWait : ∀ r', p ≠ .wait r'
  noCall : (s.place t).user = true → s.call t = none

omit [DecidableEq ι] [DecidableEq θ] in
theorem Goes.of_place {p q : Place ι} (hq : s.place t = q) (hr : q.runtime = some r) (hp : p.runtime = some r)
    (hs : ∀ r', q ≠ .flush r' ∧ p ≠ .flush r') (hw : ∀ r', p ≠ .wait r') (hc : q.user = true → s.call t = none) :
    s.Goes t r p :=
  ⟨hq ▸ hr, hp, hq ▸ hs, hw, hq ▸ hc⟩

theorem loopStep_cases (hs : s.loopStep t = some s') :
    (∃ r, s.place t = .flush r ∧ s' = s.flush t r) ∨ (∃ r, s.place t = .top r ∧ s' = s.tick t r) ∨
    (∃ r, s.place t = .pick r ∧ s' = s.pick t r) ∨
    (∃ r next c cs, s.place t = .reap r next ∧ (s.rt r).cq = c :: cs ∧ s' = s.processCqe t r next c cs) ∨
    ∃ r p, s.Goes t r p ∧ s' = s.setPlace t p := by
  unfold loopStep at hs
  split at hs
  · next r hp => exact .inl ⟨r, hp, (Option.some.inj hs).symm⟩
  · next r hp => exact .inr (.inl ⟨r, hp, (Option.some.inj hs).symm⟩)
  · next r hp => exact .inr (.inr (.inl ⟨r, hp, (Option.some.inj hs).symm⟩))
  · next r hp =>
    obtain ⟨-, hs⟩ := Option.ite_none_left_eq_some.mp hs
    have hgo : s.Goes t r (.reap r .top) := .of_place hp rfl rfl (by simp) (by simp) nofun
    exact .inr (.inr (.inr (.inr ⟨r, _, hgo, (Option.some.inj hs).symm⟩)))
  · next r next hp =>
    obtain rfl := Option.some.inj hs
    unfold reap
    split
    · have hgo : s.Goes t r (.after r next) := by
        refine .of_place hp rfl ?_ ?_ ?_ nofun
        · cases next <;> rfl
        · cases next <;> simp [Place.after]
        · cases next <;> simp [Place.after]
      exact .inr (.inr (.inr (.inr ⟨r, _, hgo, rfl⟩)))
    · next c cs hq => exact .inr (.inr (.inr (.inl ⟨r, next, c, cs, hp, hq, rfl⟩)))
  · next r hp =>
    obtain ⟨hc, hs⟩ := Option.ite_none_right_eq_some.mp hs
    have hgo : s.Goes t r (.top r) := .of_place hp rfl rfl (by simp) (by simp) fun _ => hc
    exact .inr (.inr (.inr (.inr ⟨r, _, hgo, (Option.some.inj hs).symm⟩)))
  · next r next hp =>
    obtain ⟨hc, hs⟩ := Option.ite_none_right_eq_some.mp hs
    have hgo : s.Goes t r (.reap r next) := .of_place hp rfl rfl (by simp) (by simp) fun _ => hc
    exact .inr (.inr (.inr (.inr ⟨r, _, hgo, (Option.some.inj hs).symm⟩)))
  · cases hs

theorem complete_cases (hs : s.act (.complete t) = some s') : ∃ r p, s.Goes t r p ∧ s' = s.setPlace t p := by
  simp only [act] at hs
  split at hs
  · next r next hp =>
    have hgo : s.Goes t r (.handler r next) := .of_place hp rfl rfl (by simp) (by simp) (by simp [Place.user])
    exact ⟨r, _, hgo, (Option.some.inj hs).symm⟩
  · next r hp =>
    have hgo : s.Goes t r (.handler r .top) := .of_place hp rfl rfl (by simp) (by simp) (by simp [Place.user])
    exact ⟨r, _, hgo, (Option.some.inj hs).symm⟩
  · cases hs

/-! ## Calls -/

omit [DecidableEq ι] [DecidableEq θ] in
theorem free_iff : s.free t = true ↔ (s.place t).user = true ∧ s.call t = none := by
  unfold free
  rw [Bool.and_eq_true, Option.isNone_iff_eq_none]

theorem scheduleInternal_inv (h : s.Inv xs) {target : ι} {w : ℕ} (hs : s.scheduleInternal t target w = some s') :
    s'.Inv (if (s.place t).runtime = some target then
      Function.update xs (target, .localQueue) (xs (target, .localQueue) ++ [w]) else xs) := by
  obtain ⟨hg, hs⟩ := Option.ite_none_left_eq_some.mp hs
  simp only [not_or, Bool.not_eq_false, ne_eq, Decidable.not_not] at hg
  obtain ⟨hfree, halign, h0, hcount⟩ := hg
  obtain ⟨huser, hnone⟩ := free_iff.mp hfree
  have hw : ∀ k, w ∉ xs k := fun k hk => h.routed.not_mem hcount (.queue k) (Routed.mem_things (mem_contents_queue hk))
  split_ifs at hs with hown
  · obtain rfl := Option.some.inj hs
    rw [if_pos hown]
    refine h.next (h.rep.pushBack hw) ?_ rfl (fun _ => ⟨rfl, rfl, rfl⟩) h.rts h.calls fun r hr => ?_
    · refine h.routed.enter (q := .queue (target, .localQueue)) hcount ?_ fun o ho => contents_queue_update ho
      refine List.Perm.of_eq ?_
      simp [contents]
    · rw [Function.update_of_ne (by simp)]
      exact h.flushed r hr
  · obtain rfl := Option.some.inj hs
    rw [if_neg hown]
    refine h.next h.rep ?_ rfl (fun _ => ⟨rfl, rfl, rfl⟩) h.rts (CallOk.update h.calls fun c hc => ?_) h.flushed
    · refine h.routed.enter (q := .call t) hcount (List.Perm.of_eq ?_) fun o ho => contents_call_update ho
      rw [contents_call hnone]
      exact contents_call_self
    · obtain rfl := Option.some.inj hc
      exact ⟨⟨⟨halign, by simp, fun _ => h0⟩, by simp, by simp⟩, huser⟩

theorem allowExit_inv (h : s.Inv xs) {target : ι} (hs : s.allowExit t target = some s') : s'.Inv xs := by
  obtain ⟨hfree, hs⟩ := Option.ite_none_left_eq_some.mp hs
  obtain ⟨huser, hnone⟩ := free_iff.mp (Bool.not_eq_false _ ▸ hfree)
  have h1 : (s.setRt target { s.rt target with exitAllowed := true }).Inv xs := by
    refine h.keepRt ⟨rfl, rfl, rfl⟩ (fun b => by cases b <;> rfl) ?_
    obtain ⟨h1, h2, h3, h4, h5, h6⟩ := h.rts target
    exact ⟨h1, h2, h3, h4, h5, h6⟩
  split_ifs at hs with hown
  · obtain rfl := Option.some.inj hs
    exact h1
  · obtain rfl := Option.some.inj hs
    refine h1.keepCall (fun c hc => ?_) ?_
    · obtain rfl := Option.some.inj hc
      exact ⟨⟨⟨rfl, by simp, by simp⟩, by simp, by simp⟩, huser⟩
    · rw [show (s.setRt target { s.rt target with exitAllowed := true }).call t = none from hnone]
      rfl

theorem cancelInternal_inv (h : s.Inv xs) {target : ι} {data : ℕ} (hs : s.cancelInternal t target data = some s') :
    s'.Inv xs := by
  obtain ⟨hg, hs⟩ := Option.ite_none_left_eq_some.mp hs
  simp only [not_or, Bool.not_eq_false, ne_eq, Decidable.not_not] at hg
  obtain ⟨huser, hnone⟩ := free_iff.mp hg.1
  obtain rfl := Option.some.inj hs
  refine h.keepCall (fun c hc => ?_) ?_
  · obtain rfl := Option.some.inj hc
    exact ⟨⟨⟨hg.2.1, by simp, by simp⟩, by simp, by simp⟩, huser⟩
  · rw [hnone]
    rfl

section Stages

variable {c : Call ι} (h : s.Inv xs) (hc : s.call t = some c)
include h hc

/-- A call goes on to its next stage. -/
theorem setStage_inv {stage : Stage} (hlock : stage = .lock → c.type = .schedule)
    (hsend : stage = .send → (s.rt c.target).ringEnabled = true) :
    (s.setCall t (some { c with stage })).Inv xs := by
  obtain ⟨hok, huser⟩ := h.calls t c hc
  refine h.keepCall (fun c' hc' => ?_) ?_
  · obtain rfl := Option.some.inj hc'
    exact ⟨⟨hok.isCall, hlock, hsend⟩, huser⟩
  · rw [hc]
    rfl

theorem callRead_inv : (s.callRead t c).Inv xs := by
  unfold callRead
  split_ifs with hen hty
  · exact setStage_inv h hc (by simp) fun _ => hen
  · exact setStage_inv h hc (fun _ => hty) (by simp)
  · refine h.keepCall (by simp) ?_
    rw [hc]
    simp [Call.item, hty]

theorem callLock_inv (hstage : c.stage = .lock) : (s.callLock t c).Inv
    (if (s.rt c.target).ringEnabled = true then xs
      else Function.update xs (c.target, .globalQueue) (xs (c.target, .globalQueue) ++ [c.work])) := by
  unfold callLock
  split_ifs with hen
  · exact setStage_inv h hc (by simp) fun _ => hen
  · have hok := (h.calls t c hc).1
    have hcall : contents s.call xs s.rt (.call t) = [(c.target, c.work)] := by
      rw [contents_call hc]
      simp [Call.item, hok.lock hstage]
    -- it is in the call, so it is in no queue
    have hw : ∀ k, c.work ∉ xs k := by
      intro k hk
      have he := h.routed.unique (p := .call t) (by rw [hcall]; exact List.mem_singleton_self _) (mem_contents_queue hk)
      exact absurd he (by simp)
    have hclear := CallOk.clear (t := t) h
    have htr := h.endCall hc (q := .queue (c.target, .globalQueue)) (by simp)
      (Function.update xs (c.target, .globalQueue) (xs (c.target, .globalQueue) ++ [c.work])) s.rt
      (by simp [contents, Call.item, (h.calls t c hc).1.lock hstage]) fun o ho => contents_queue_update ho
    refine h.next (h.rep.pushBack hw) htr rfl (fun _ => ⟨rfl, rfl, rfl⟩) h.rts hclear fun r hr => ?_
    rw [Function.update_of_ne]
    · exact h.flushed r hr
    · intro he
      obtain rfl := (Prod.mk.inj he).1
      exact hen hr

/-- The message of a call that is about to send carries the item of the call. -/
theorem send_item : itemFor c.target (encodeWork c.work c.type) = c.item := by
  rw [itemFor, (h.calls t c hc).1.isCall.workOf_eq, Call.item]
  split_ifs <;> rfl

theorem send_ok (hstage : c.stage = .send) : MessageOk (enabled s.rt) ⟨c.target, encodeWork c.work c.type⟩ :=
  have hok := (h.calls t c hc).1
  ⟨⟨c.work, c.type, rfl, hok.isCall⟩, hok.send hstage⟩

/-- A runtime queues the message. -/
theorem sendQueued_inv (hstage : c.stage = .send) :
    ((s.setRt r ((s.rt r).scheduleMsgRing ⟨c.target, encodeWork c.work c.type⟩)).setCall t none).Inv xs := by
  set m : Message ι := ⟨c.target, encodeWork c.work c.type⟩
  have hrt := h.rts r
  have hx : RtOk (enabled s.rt) ((s.rt r).scheduleMsgRing m) := by
    refine ⟨hrt.opened, ?_, forall_mem_snoc hrt.queued (send_ok h hc hstage), hrt.handed, hrt.inbox, hrt.cq⟩
    have hp := hrt.pending
    simp only [Rt.scheduleMsgRing, List.length_append, List.length_singleton]
    omega
  have hk : Keeps (s.rt r) ((s.rt r).scheduleMsgRing m) := ⟨rfl, rfl, rfl⟩
  have htr := h.endCall hc (q := .bin r .queued) (by simp) xs (Function.update s.rt r ((s.rt r).scheduleMsgRing m))
    (List.Perm.of_eq ?_) fun o ho => contents_rt_update fun b hb => ?_
  · exact h.next h.rep htr rfl hk.update (RtOk.update h.rts hx) (CallOk.clear h) h.flushed
  · rw [contents_bin_self, ← send_item h hc]
    exact filterMap_snoc ..
  · cases b with
    | queued => exact absurd hb ho
    | handed | refused | inbox | cq => rfl

/-- A thread outside `run()` sends synchronously. -/
theorem sendSync_inv : ((s.setRt c.target { s.rt c.target with
    inbox := (s.rt c.target).inbox ++ [encodeWork c.work c.type] }).setCall t none).Inv xs := by
  set x : Rt ι θ := { s.rt c.target with inbox := (s.rt c.target).inbox ++ [encodeWork c.work c.type] }
  have hrt := h.rts c.target
  have hx : RtOk (enabled s.rt) x := by
    refine ⟨hrt.opened, hrt.pending, hrt.queued, hrt.handed, forall_mem_snoc hrt.inbox ?_, hrt.cq⟩
    exact ⟨c.work, c.type, rfl, (h.calls t c hc).1.isCall⟩
  have hk : Keeps (s.rt c.target) x := ⟨rfl, rfl, rfl⟩
  have htr := h.endCall hc (q := .bin c.target .inbox) (by simp) xs (Function.update s.rt c.target x)
    (List.Perm.of_eq ?_) fun o ho => contents_rt_update fun b hb => ?_
  · exact h.next h.rep htr rfl hk.update (RtOk.update h.rts hx) (CallOk.clear h) h.flushed
  · rw [contents_bin_self, ← send_item h hc]
    exact filterMap_snoc ..
  · cases b with
    | inbox => exact absurd hb ho
    | queued | handed | refused | cq => rfl

end Stages

/-! ## The submission queue and the kernel -/

/-- Items go from one list of a runtime to another of the same. -/
theorem Inv.moveBin (h : s.Inv xs) {x : Rt ι θ} (hk : Keeps (s.rt r) x) (hx : RtOk (enabled s.rt) x) {a b : Bin}
    (hab : a ≠ b) {l : List (ι × ℕ)} (ha : ((s.rt r).bin r a).Perm (l ++ x.bin r a))
    (hb : (x.bin r b).Perm ((s.rt r).bin r b ++ l)) (ho : ∀ d, d ≠ a → d ≠ b → x.bin r d = (s.rt r).bin r d) : (s.setRt r x).Inv xs := by
  have htr : Routed (contents s.call xs (Function.update s.rt r x)) s.target s.scheduled s.invoked := by
    refine h.routed.move (p := .bin r a) (q := .bin r b) (l := l) ?_ ?_ ?_
      fun o h1 h2 => contents_rt_update fun d hd => ho d ?_ ?_
    · simpa using hab
    · rwa [contents_bin_self]
    · rwa [contents_bin_self]
    · rintro rfl
      exact h1 hd
    · rintro rfl
      exact h2 hd
  exact h.next h.rep htr rfl hk.update (RtOk.update h.rts hx) h.calls h.flushed

theorem submit_inv (h : s.Inv xs) : (s.setRt r (s.rt r).submit).Inv xs := by
  have hrt := h.rts r
  refine h.moveBin ⟨rfl, rfl, rfl⟩ ?_ (a := .queued) (b := .handed) (l := (s.rt r).bin r .queued) (by simp) ?_ ?_ ?_
  · refine ⟨hrt.opened, ?_, fun _ hm => absurd hm List.not_mem_nil, fun m hm => ?_, hrt.inbox, hrt.cq⟩
    · have hp := hrt.pending
      simp only [Rt.submit, List.length_append, List.length_nil]
      omega
    · exact (List.mem_append.mp hm).elim (hrt.handed m) (hrt.queued m)
  · exact List.Perm.of_eq (List.append_nil _).symm
  · exact List.Perm.of_eq (List.filterMap_append ..)
  · intro d h1 h2
    cases d with
    | queued => exact absurd rfl h1
    | handed => exact absurd rfl h2
    | refused | inbox | cq => rfl

theorem callSend_inv (h : s.Inv xs) {c : Call ι} (hc : s.call t = some c) (hstage : c.stage = .send) {ok : Bool}
    (hs : s.callSend t c ok = some s') : s'.Inv xs := by
  rcases callSend_cases hs with ⟨r, -, rfl⟩ | rfl | rfl
  · have h1 := sendQueued_inv (r := r) h hc hstage
    split_ifs with hty
    · exact h1
    · have h2 := submit_inv (r := r) h1
      simpa [setRt, setCall] using h2
  · exact h.panic
  · exact sendSync_inv h hc

theorem callStep_inv (h : s.Inv xs) {ok : Bool} (hs : s.callStep t ok = some s') : ∃ xs', s'.Inv xs' := by
  obtain ⟨c, hc, ⟨-, rfl⟩ | ⟨hstage, rfl⟩ | ⟨hstage, hs⟩⟩ := callStep_cases hs
  · exact ⟨xs, callRead_inv h hc⟩
  · exact ⟨_, callLock_inv h hc hstage⟩
  · exact ⟨xs, callSend_inv h hc hstage hs⟩

section Kernel

variable (h : s.Inv xs)
include h

theorem ack_inv (hs : s.ack r = some s') : s'.Inv xs := by
  obtain ⟨ha, hs⟩ := Option.ite_none_left_eq_some.mp hs
  obtain rfl := Option.some.inj hs
  have hrt := h.rts r
  refine h.keepRt ⟨rfl, rfl, rfl⟩ (fun b => ?_) ⟨hrt.opened, ?_, hrt.queued, hrt.handed, hrt.inbox,
    forall_mem_snoc hrt.cq (.inl ⟨rfl, .inl rfl⟩)⟩
  · cases b with
    | cq =>
      refine (filterMap_snoc ..).trans ?_
      change _ ++ (itemFor r doneWord).toList = _
      rw [itemFor_doneWord]
      exact List.append_nil _
    | refused => exact (filterMap_snoc ..).trans (List.append_nil _)
    | queued | handed | inbox => rfl
  · have hp := hrt.pending
    simp only [List.countP_append, doneWord, List.countP_singleton] at hp ⊢
    simp
    omega

theorem arrive_inv {i : ℕ} (hs : s.arrive r i = some s') : s'.Inv xs := by
  obtain ⟨d, hd, rfl⟩ := Option.map_eq_some_iff.mp hs
  obtain ⟨hi, rfl⟩ := List.getElem?_eq_some_iff.mp hd
  have hrt := h.rts r
  have hword := hrt.inbox _ (List.getElem_mem hi)
  refine h.moveBin ⟨rfl, rfl, rfl⟩ ?_ (a := .inbox) (b := .cq) (l := (itemFor r ((s.rt r).inbox[i])).toList) (by simp) ?_ ?_ ?_
  · refine ⟨hrt.opened, ?_, hrt.queued, hrt.handed, fun d hd => hrt.inbox d (List.mem_of_mem_eraseIdx hd),
      forall_mem_snoc hrt.cq (.inr ⟨hword, rfl⟩)⟩
    have hp := hrt.pending
    simp only [List.countP_append, List.countP_singleton]
    simp [hword.ne_doneWord]
    omega
  · have hperm := (List.getElem_cons_eraseIdx_perm hi).symm.filterMap (itemFor r)
    exact hperm.trans (List.Perm.of_eq (filterMap_cons_toList ..))
  · exact List.Perm.of_eq (filterMap_snoc ..)
  · intro b h1 h2
    cases b with
    | inbox => exact absurd rfl h1
    | cq => exact absurd rfl h2
    | refused => exact (filterMap_snoc ..).trans (List.append_nil _)
    | queued | handed => rfl

/-- A message leaves the sender's ring and is accepted for the target. -/
theorem Inv.accept {m : Message ι} {ms : List (Message ι)} (hm : (s.rt r).handed = m :: ms)
    (hbin : (s.rt r).bin r .handed = m.item.toList ++ ms.filterMap Message.item) :
    let s₁ := s.setRt r { s.rt r with handed := ms, acks := (s.rt r).acks + 1 }
    (s₁.setRt m.target { s₁.rt m.target with inbox := (s₁.rt m.target).inbox ++ [m.data] }).Inv xs := by
  intro s₁
  set x : Rt ι θ := { s.rt r with handed := ms, acks := (s.rt r).acks + 1 }
  set y : Rt ι θ := { s₁.rt m.target with inbox := (s₁.rt m.target).inbox ++ [m.data] }
  have hrt := h.rts r
  have hhanded : ∀ m' ∈ m :: ms, MessageOk (enabled s.rt) m' := hm ▸ hrt.handed
  have hx : RtOk (enabled s.rt) x := by
    refine ⟨hrt.opened, ?_, hrt.queued, fun m' hm' => hhanded m' (List.mem_cons_of_mem _ hm'), hrt.inbox, hrt.cq⟩
    have hp := hrt.pending
    rw [hm, List.length_cons] at hp
    change (s.rt r).pendingWorks = (s.rt r).works + (s.rt r).queued.length + ms.length + ((s.rt r).acks + 1) +
      (s.rt r).cq.countP _
    omega
  have hrts : ∀ r', RtOk (enabled s.rt) (s₁.rt r') := RtOk.update h.rts hx
  have hy : RtOk (enabled s.rt) y := by
    obtain ⟨h1, h2, h3, h4, h5, h6⟩ := hrts m.target
    exact ⟨h1, h2, h3, h4, forall_mem_snoc h5 (hhanded m List.mem_cons_self).1, h6⟩
  have hk : Keeps (s.rt r) x := ⟨rfl, rfl, rfl⟩
  have hk' : Keeps (s₁.rt m.target) y := ⟨rfl, rfl, rfl⟩
  have htr : Routed (contents s.call xs (Function.update s₁.rt m.target y)) s.target s.scheduled s.invoked := by
    refine h.routed.move (p := .bin r .handed) (q := .bin m.target .inbox) (l := m.item.toList) (by simp)
      (List.Perm.of_eq ?_) (List.Perm.of_eq ?_) fun o h1 h2 => ?_
    · have hself : contents s.call xs s₁.rt (.bin r .handed) = x.bin r .handed := contents_bin_self .handed
      rw [contents_rt_update fun b hb => ?_, hself]
      · exact hbin
      · obtain ⟨-, rfl⟩ := Spot.bin.inj hb
        rfl
    · rw [contents_bin_self]
      refine (filterMap_snoc ..).trans (congrArg (· ++ _) ?_)
      refine contents_rt_update (o := .bin m.target .inbox) fun b hb => ?_
      obtain ⟨-, rfl⟩ := Spot.bin.inj hb
      rfl
    · refine (contents_rt_update fun b hb => ?_).trans (contents_rt_update fun b hb => ?_)
      · cases b with
        | inbox => exact absurd hb h2
        | queued | handed | refused | cq => rfl
      · cases b with
        | handed => exact absurd hb h1
        | queued | inbox | refused | cq => rfl
  exact h.next h.rep htr rfl (fun r' => (hk.update r').trans (hk'.update r')) (RtOk.update hrts hy) h.calls h.flushed

/-- The kernel executes a request. -/
theorem exec_inv {res : ℤ} (hs : s.exec r res = some s') : s'.Inv xs := by
  have hrt := h.rts r
  obtain ⟨m, ms, hm, hs⟩ := exec_cases hs
  have hbin : (s.rt r).bin r .handed = m.item.toList ++ ms.filterMap Message.item := by
    change (s.rt r).handed.filterMap _ = _
    rw [hm]
    exact filterMap_cons_toList ..
  have hp := hrt.pending
  rw [hm, List.length_cons] at hp
  have hhanded : ∀ m' ∈ m :: ms, MessageOk (enabled s.rt) m' := hm ▸ hrt.handed
  rcases hs with ⟨hres, rfl⟩ | ⟨-, rfl⟩
  · refine h.moveBin ⟨rfl, rfl, rfl⟩ ?_ (a := .handed) (b := .refused) (l := m.item.toList) (by simp)
      (List.Perm.of_eq hbin) (List.Perm.of_eq (filterMap_snoc ..)) fun d h1 h2 => ?_
    · refine ⟨hrt.opened, ?_, hrt.queued, fun m' hm' => hhanded m' (List.mem_cons_of_mem _ hm'), hrt.inbox,
        forall_mem_snoc hrt.cq (.inl ⟨rfl, .inr hres⟩)⟩
      simp only [List.countP_append, List.countP_singleton, doneWord] at hp ⊢
      simp
      omega
    · cases d with
      | handed => exact absurd rfl h1
      | refused => exact absurd rfl h2
      | cq =>
        refine (filterMap_snoc ..).trans ?_
        change _ ++ (itemFor r doneWord).toList = _
        rw [itemFor_doneWord]
        exact List.append_nil _
      | queued | inbox => rfl
  · exact h.accept hm hbin

end Kernel

/-! ## `run()` -/

omit [DecidableEq ι] [DecidableEq θ] in
theorem placeOk_outside (rt : ι → Rt ι θ) (t : θ) : PlaceOk rt t .outside :=
  ⟨fun _ hr => absurd hr (by simp [Place.runtime]), fun _ hr => absurd hr (by simp)⟩

/-- A thread enters `run()` of a runtime that never ran. -/
theorem enter_inv (h : s.Inv xs) (hout : s.place t = .outside) (hcall : s.call t = none)
    (hnew : (s.rt r).runThread = none) :
    ((s.setRt r { s.rt r with ringOpen := true, runThread := some t }).setPlace t (.flush r)).Inv xs := by
  set x : Rt ι θ := { s.rt r with ringOpen := true, runThread := some t }
  have hen : enabled (Function.update s.rt r x) = enabled s.rt := by
    funext r'
    rw [enabled_update]
    split_ifs with hr
    · rw [hr]
      rfl
    · rfl
  have hrt := h.rts r
  have hx : RtOk (enabled s.rt) x := ⟨fun _ => rfl, hrt.pending, hrt.queued, hrt.handed, hrt.inbox, hrt.cq⟩
  have hself : Function.update s.rt r x r = x := Function.update_self ..
  refine ⟨h.rep, ?_, fun r' => hen ▸ RtOk.update h.rts hx r', fun t' c hc => ?_, fun t' => ?_, fun r' hr' => ?_,
    fun r' t' ht' => ?_⟩
  · have hsame : contents s.call xs (Function.update s.rt r x) = contents s.call xs s.rt :=
      funext fun o => contents_rt_update fun b _ => by cases b <;> rfl
    exact hsame ▸ h.routed
  · obtain ⟨hok, hu⟩ := h.calls t' c hc
    refine ⟨hen ▸ hok, ?_⟩
    change (Function.update s.place t (.flush r) t').user = true
    rw [Function.update_of_ne]
    · exact hu
    · rintro rfl
      rw [show s.call t' = some c from hc] at hcall
      cases hcall
  · change PlaceOk (Function.update s.rt r x) t' (Function.update s.place t (.flush r) t')
    rcases eq_or_ne t' t with rfl | ht
    · rw [Function.update_self]
      refine ⟨fun r' hr' => ?_, fun r' hr' => ?_⟩
      · obtain rfl := Option.some.inj hr'
        rw [hself]
      · obtain rfl := Place.flush.inj hr'
        rw [hself]
    · rw [Function.update_of_ne ht]
      -- no thread was in `run()` of `r`
      have hne : ∀ r', (s.place t').runtime = some r' → r' ≠ r := by
        rintro r' hr' rfl
        have h1 := (h.places t').thread r' hr'
        rw [hnew] at h1
        cases h1
      refine ⟨fun r' hr' => ?_, fun r' hr' => ?_⟩
      · rw [Function.update_of_ne (hne r' hr')]
        exact (h.places t').thread r' hr'
      · rw [Function.update_of_ne (hne r' (by rw [hr']; rfl))]
        exact (h.places t').opened r' hr'
  · exact h.flushed r' ((congrFun hen r').symm.trans hr')
  · change (Function.update s.rt r x r').runThread = some t' at ht'
    change Function.update s.place t (.flush r) t' = .flush r' ∨ (Function.update s.rt r x r').ringEnabled = true
    rcases eq_or_ne r' r with rfl | hr
    · rw [hself] at ht'
      obtain rfl := Option.some.inj ht'
      exact .inl (Function.update_self ..)
    · rw [Function.update_of_ne hr] at ht' ⊢
      refine (h.started r' t' ht').imp_left fun hf => ?_
      rw [Function.update_of_ne, hf]
      rintro rfl
      rw [hout] at hf
      cases hf

theorem run_inv {ok : Bool} (h : s.Inv xs) (hs : s.run t r ok = some s') : s'.Inv xs := by
  obtain ⟨hout, hcall, ⟨hnew, rfl⟩ | ⟨hthread, rfl⟩ | rfl⟩ := run_cases hs
  · exact enter_inv h hout hcall hnew
  · refine h.setPlace ⟨fun r' hr' => ?_, fun r' hr' => absurd hr' (by simp)⟩ (by simp [hout]) fun hc => absurd hcall hc
    obtain rfl := Option.some.inj hr'
    exact hthread
  · exact h

/-- The locked section of the first `run()`. -/
theorem flush_inv (h : s.Inv xs) (hp : s.place t = .flush r) : (s.flush t r).Inv
    (Function.update (Function.update xs (r, .localQueue) (xs (r, .localQueue) ++ xs (r, .globalQueue)))
      (r, .globalQueue) []) := by
  set x : Rt ι θ := { s.rt r with ringEnabled := true }
  have hne : (r, Queue.localQueue) ≠ (r, Queue.globalQueue) := by simp
  have hen : ∀ r', enabled s.rt r' = true → enabled (Function.update s.rt r x) r' = true := by
    intro r' hr'
    rw [enabled_update]
    split_ifs
    · rfl
    · exact hr'
  have hrt := h.rts r
  have hx : RtOk (enabled s.rt) x :=
    ⟨fun _ => (h.places t).opened r hp, hrt.pending, hrt.queued, hrt.handed, hrt.inbox, hrt.cq⟩
  refine ⟨h.rep.pushBackList hne, ?_, fun r' => (RtOk.update h.rts hx r').mono hen, fun t' c hc => ?_,
    fun t' => ?_, fun r' hr' => ?_, fun r' t' ht' => ?_⟩
  · have hsame : ∀ ys, contents s.call ys (Function.update s.rt r x) = contents s.call ys s.rt :=
      fun ys => funext fun o => contents_rt_update fun b _ => by cases b <;> rfl
    change Routed (contents s.call _ (Function.update s.rt r x)) s.target s.scheduled s.invoked
    rw [hsame]
    refine h.routed.move (p := .queue (r, .globalQueue)) (q := .queue (r, .localQueue))
      (l := contents s.call xs s.rt (.queue (r, .globalQueue))) (by simp) (List.Perm.of_eq ?_) (List.Perm.of_eq ?_) fun o h1 h2 => ?_
    · simp [contents]
    · simp [contents]
    · rw [contents_queue_update h1, contents_queue_update h2]
  · obtain ⟨hok, hu⟩ := h.calls t' c hc
    refine ⟨hok.mono hen, ?_⟩
    change (Function.update s.place t (.top r) t').user = true
    rw [Function.update_of_ne]
    · exact hu
    · rintro rfl
      rw [hp] at hu
      cases hu
  · change PlaceOk (Function.update s.rt r x) t' (Function.update s.place t (.top r) t')
    have hkeep : PlaceOk (Function.update s.rt r x) t' (s.place t') :=
      (h.places t').keep
        ((Function.forall_update_iff s.rt fun r' y => y.ringOpen = (s.rt r').ringOpen).mpr ⟨rfl, fun _ _ => rfl⟩)
        ((Function.forall_update_iff s.rt fun r' y => y.runThread = (s.rt r').runThread).mpr ⟨rfl, fun _ _ => rfl⟩)
    rcases eq_or_ne t' t with rfl | ht
    · rw [Function.update_self]
      refine ⟨fun r' hr' => hkeep.thread r' ?_, fun r' hr' => absurd hr' (by simp)⟩
      rw [hp]
      exact hr'
    · rwa [Function.update_of_ne ht]
  · change enabled (Function.update s.rt r x) r' = true at hr'
    rw [enabled_update] at hr'
    by_cases hr : r' = r
    · rw [hr, Function.update_self]
    · rw [if_neg hr] at hr'
      rw [Function.update_of_ne (by simp [hr]), Function.update_of_ne (by simp [hr])]
      exact h.flushed r' hr'
  · change (Function.update s.rt r x r').runThread = some t' at ht'
    change Function.update s.place t (.top r) t' = .flush r' ∨ (Function.update s.rt r x r').ringEnabled = true
    rcases eq_or_ne r' r with rfl | hr
    · exact .inr (by rw [Function.update_self])
    · rw [Function.update_of_ne hr] at ht' ⊢
      refine (h.started r' t' ht').imp_left fun hf => ?_
      rw [Function.update_of_ne, hf]
      rintro rfl
      rw [hp] at hf
      exact hr (Place.flush.inj hf).symm

section Loop

variable (h : s.Inv xs)
include h

/-- A thread in the loop itself has no call in progress. -/
theorem Inv.no_call (hp : (s.place t).user = false) : s.call t = none := by
  by_contra hne
  obtain ⟨c, hc⟩ := Option.ne_none_iff_exists'.mp hne
  rw [(h.calls t c hc).2] at hp
  cases hp

theorem tick_inv (hp : s.place t = .top r) : (s.tick t r).Inv xs := by
  have hnone : s.call t = none := h.no_call (by rw [hp]; rfl)
  have hrt := h.rts r
  have hkeep : ∀ n, (s.setRt r { s.rt r with tickCount := n }).Inv xs := fun n =>
    h.keepRt ⟨rfl, rfl, rfl⟩ (fun b => by cases b <;> rfl)
      ⟨hrt.opened, hrt.pending, hrt.queued, hrt.handed, hrt.inbox, hrt.cq⟩
  have hr : ∀ n, ((s.setRt r { s.rt r with tickCount := n }).place t).runtime = some r := by
    intro n
    change (s.place t).runtime = some r
    rw [hp]
    rfl
  unfold tick
  simp only
  split_ifs
  · exact (hkeep 0).setPlace_same (hr 0) rfl (by simp [setRt, hp]) fun hc => absurd hnone hc
  · exact (hkeep _).setPlace_same (hr _) rfl (by simp [setRt, hp]) fun hc => absurd hnone hc

theorem pick_inv (hp : s.place t = .pick r) :
    (s.pick t r).Inv (Function.update xs (r, .localQueue) (xs (r, .localQueue)).tail) := by
  have hnone : s.call t = none := h.no_call (by rw [hp]; rfl)
  have hr : (s.place t).runtime = some r := by rw [hp]; rfl
  have hrt := h.rts r
  unfold pick
  simp only
  cases hq : xs (r, .localQueue) with
  | nil =>
    have hsame : Function.update xs (r, .localQueue) ([] : List ℕ).tail = xs := by
      rw [List.tail_nil, ← hq, Function.update_eq_self]
    rw [h.rep.popFront_nil hq, hsame]
    simp only
    split_ifs
    · have h1 : (s.setRt r { s.rt r with tickCount := 0, exitAllowed := false }).Inv xs :=
        h.keepRt ⟨rfl, rfl, rfl⟩ (fun b => by cases b <;> rfl)
          ⟨hrt.opened, hrt.pending, hrt.queued, hrt.handed, hrt.inbox, hrt.cq⟩
      exact h1.setPlace (placeOk_outside _ t) (by simp [setRt, hp]) fun hc => absurd hnone hc
    · exact (submit_inv h).setPlace_same (r := r) hr rfl (by simp [setRt, hp]) fun hc => absurd hnone hc
  | cons w rest =>
    obtain ⟨hw, hrep⟩ := h.rep.popFront_cons hq
    rw [hw]
    simp only
    have h1 : ({ s with
        mem := (SingleLinkListImpl.popFront s.mem (s.queue (r, .localQueue))).2.1
        queue := Function.update s.queue (r, .localQueue)
          (SingleLinkListImpl.popFront s.mem (s.queue (r, .localQueue))).2.2
        invoked := s.invoked ++ [w] } : Cluster ι θ).Inv (Function.update xs (r, .localQueue) rest) := by
      refine h.next hrep ?_ rfl (fun _ => ⟨rfl, rfl, rfl⟩) h.rts h.calls fun r' hr' => ?_
      · refine h.routed.leave (p := .queue (r, .localQueue)) (d := r) (List.Perm.of_eq ?_) fun o ho =>
          contents_queue_update ho
        simp only [contents, hq, Function.update_self, List.map_cons]
      · rw [Function.update_of_ne (by simp)]
        exact h.flushed r' hr'
    exact h1.setPlace_same (p := .work r) hr rfl (by simp [hp]) fun hc => absurd hnone hc

/-- The first completion is taken off the queue and held no item. -/
theorem dropCqe_inv {c : Completion ι} {cs : List (Completion ι)} (hq : (s.rt r).cq = c :: cs)
    (hw : IsWord c.userData) (hnone : workOf c.userData = none) (href : c.refused = none) :
    (s.setRt r { s.rt r with cq := cs }).Inv xs := by
  have hrt := h.rts r
  refine h.keepRt ⟨rfl, rfl, rfl⟩ (fun b => ?_) ⟨hrt.opened, ?_, hrt.queued, hrt.handed, hrt.inbox, fun c' hc' => ?_⟩
  · cases b with
    | cq =>
      change cs.filterMap _ = (s.rt r).cq.filterMap _
      rw [hq, List.filterMap_cons_none (by rw [itemFor, hnone]; rfl)]
    | refused =>
      change cs.filterMap _ = (s.rt r).cq.filterMap _
      rw [hq, List.filterMap_cons_none (by rw [href]; rfl)]
    | queued | handed | inbox => rfl
  · have hp := hrt.pending
    rw [hq, List.countP_cons_of_neg (by simpa using hw.ne_doneWord)] at hp
    exact hp
  · exact hrt.cq c' (by rw [hq]; exact List.mem_cons_of_mem _ hc')

/-- The end of an own message. -/
theorem resume_inv {c : Completion ι} {cs : List (Completion ι)} (hq : (s.rt r).cq = c :: cs)
    (hw : c.userData = doneWord) (href : c.refused = none) :
    (s.setRt r ({ s.rt r with cq := cs } : Rt ι θ).resumeWork).Inv xs := by
  have hrt := h.rts r
  refine h.keepRt ⟨rfl, rfl, rfl⟩ (fun b => ?_) ⟨hrt.opened, ?_, hrt.queued, hrt.handed, hrt.inbox, fun c' hc' => ?_⟩
  · cases b with
    | cq =>
      change cs.filterMap _ = (s.rt r).cq.filterMap _
      rw [hq, List.filterMap_cons_none (by rw [hw, itemFor_doneWord])]
    | refused =>
      change cs.filterMap _ = (s.rt r).cq.filterMap _
      rw [hq, List.filterMap_cons_none (by rw [href]; rfl)]
    | queued | handed | inbox => rfl
  · have hp := hrt.pending
    rw [hq, List.countP_cons_of_pos (by simpa using hw)] at hp
    simp only [Rt.resumeWork]
    rw [if_neg (by omega)]
    omega
  · exact hrt.cq c' (by rw [hq]; exact List.mem_cons_of_mem _ hc')

/-- A scheduled item is invoked. -/
theorem invokeCqe_inv {c : Completion ι} {cs : List (Completion ι)} (hq : (s.rt r).cq = c :: cs)
    (hw : IsWord c.userData) {w : ℕ} (hwork : workOf c.userData = some w) (href : c.refused = none) :
    ({ s.setRt r { s.rt r with cq := cs } with invoked := s.invoked ++ [w] } : Cluster ι θ).Inv xs := by
  have hrt := h.rts r
  have hx : RtOk (enabled s.rt) ({ s.rt r with cq := cs } : Rt ι θ) := by
    refine ⟨hrt.opened, ?_, hrt.queued, hrt.handed, hrt.inbox, fun c' hc' => ?_⟩
    · have hp := hrt.pending
      rw [hq, List.countP_cons_of_neg (by simpa using hw.ne_doneWord)] at hp
      exact hp
    · exact hrt.cq c' (by rw [hq]; exact List.mem_cons_of_mem _ hc')
  have hk : Keeps (s.rt r) ({ s.rt r with cq := cs } : Rt ι θ) := ⟨rfl, rfl, rfl⟩
  have htr : Routed (contents s.call xs (Function.update s.rt r { s.rt r with cq := cs })) s.target s.scheduled
      (s.invoked ++ [w]) := by
    refine h.routed.leave (p := .bin r .cq) (d := r) (List.Perm.of_eq ?_) fun o ho => contents_rt_update fun b hb => ?_
    · rw [contents_bin_self]
      change (s.rt r).cq.filterMap _ = (r, w) :: cs.filterMap _
      rw [hq, List.filterMap_cons_some (by rw [itemFor, hwork]; rfl)]
    · cases b with
      | cq => exact absurd hb ho
      | refused =>
        change cs.filterMap _ = (s.rt r).cq.filterMap _
        rw [hq, List.filterMap_cons_none (by rw [href]; rfl)]
      | queued | handed | inbox => rfl
  exact h.next h.rep htr rfl hk.update (RtOk.update h.rts hx) h.calls h.flushed

theorem processCqe_inv {next : After} (hp : s.place t = .reap r next) {c : Completion ι} {cs : List (Completion ι)}
    (hq : (s.rt r).cq = c :: cs) : (s.processCqe t r next c cs).Inv xs := by
  have hnone : s.call t = none := h.no_call (by rw [hp]; rfl)
  have hr : (s.place t).runtime = some r := by rw [hp]; rfl
  unfold processCqe
  rcases (h.rts r).cq c (by rw [hq]; exact List.mem_cons_self) with ⟨hdone, href⟩ | ⟨hword, href⟩
  · rw [hdone, doneWord, decodeWork_encodeWork rfl]
    simp only [if_true]
    split_ifs with hres
    · exact h.panic
    · exact resume_inv h hq hdone (href.resolve_right hres)
  · obtain ⟨w, type, hd, hcall⟩ := id hword
    have hwork := hcall.workOf_eq
    rw [← hd] at hwork
    rw [show decodeWork c.userData = (w, some type) by rw [hd, decodeWork_encodeWork hcall.1]]
    cases type with
    | common => exact absurd rfl hcall.2.1
    | ignore => exact dropCqe_inv h hq hword hwork href
    | cancel => exact dropCqe_inv h hq hword hwork href
    | schedule =>
      simp only [if_neg (hcall.2.2 rfl)]
      have h1 := invokeCqe_inv h hq hword hwork href
      exact h1.setPlace_same (p := .handler r next) hr rfl (by simp [setRt, hp]) fun hc => absurd hnone hc

/-- A thread goes to another place inside `run()`. -/
theorem Goes.inv {p : Place ι} (hgo : s.Goes t r p) : (s.setPlace t p).Inv xs := by
  refine h.setPlace_same hgo.runtime hgo.same hgo.started fun hc => absurd ?_ hc
  cases hu : (s.place t).user with
  | false => exact h.no_call hu
  | true => exact hgo.noCall hu

theorem loopStep_inv (hs : s.loopStep t = some s') : ∃ xs', s'.Inv xs' := by
  rcases loopStep_cases hs with ⟨r, hp, rfl⟩ | ⟨r, hp, rfl⟩ | ⟨r, hp, rfl⟩ | ⟨r, next, c, cs, hp, hq, rfl⟩ |
    ⟨r, p, hgo, rfl⟩
  · exact ⟨_, flush_inv h hp⟩
  · exact ⟨xs, tick_inv h hp⟩
  · exact ⟨_, pick_inv h hp⟩
  · exact ⟨xs, processCqe_inv h hp hq⟩
  · exact ⟨xs, Goes.inv h hgo⟩

end Loop

/-! ## All steps -/

theorem pendUser_inv (h : s.Inv xs) : (s.setRt r { s.rt r with
    pendingWorks := (s.rt r).pendingWorks + 1, works := (s.rt r).works + 1 }).Inv xs := by
  have hrt := h.rts r
  refine h.keepRt ⟨rfl, rfl, rfl⟩ (fun b => by cases b <;> rfl)
    ⟨hrt.opened, ?_, hrt.queued, hrt.handed, hrt.inbox, hrt.cq⟩
  have hp := hrt.pending
  simp only
  omega

theorem resumeUser_inv (h : s.Inv xs) (hw : (s.rt r).works ≠ 0) :
    (s.setRt r { (s.rt r).resumeWork with works := (s.rt r).works - 1 }).Inv xs := by
  have hrt := h.rts r
  refine h.keepRt ⟨rfl, rfl, rfl⟩ (fun b => by cases b <;> rfl)
    ⟨hrt.opened, ?_, hrt.queued, hrt.handed, hrt.inbox, hrt.cq⟩
  have hp := hrt.pending
  simp only [Rt.resumeWork]
  rw [if_neg (by omega)]
  omega

theorem step_inv (op : Op ι θ) (h : s.Inv xs) (hs : step s op = some s') : ∃ xs', s'.Inv xs' := by
  obtain ⟨-, hs⟩ := Option.ite_none_left_eq_some.mp hs
  cases op with
  | schedule t target w => exact ⟨_, scheduleInternal_inv h hs⟩
  | allowExit t target => exact ⟨xs, allowExit_inv h hs⟩
  | cancel t target data => exact ⟨xs, cancelInternal_inv h hs⟩
  | call t ok => exact callStep_inv h hs
  | run t r ok => exact ⟨xs, run_inv h hs⟩
  | loop t => exact loopStep_inv h hs
  | submit t =>
    obtain ⟨r, -, rfl⟩ := Option.map_eq_some_iff.mp hs
    exact ⟨xs, submit_inv h⟩
  | pend t =>
    obtain ⟨r, -, rfl⟩ := Option.map_eq_some_iff.mp hs
    exact ⟨xs, pendUser_inv h⟩
  | resume t =>
    obtain ⟨r, -, hs⟩ := Option.bind_eq_some_iff.mp hs
    obtain ⟨hw, hs⟩ := Option.ite_none_left_eq_some.mp hs
    obtain rfl := Option.some.inj hs
    exact ⟨xs, resumeUser_inv h hw⟩
  | complete t =>
    obtain ⟨r, p, hgo, rfl⟩ := complete_cases hs
    exact ⟨xs, Goes.inv h hgo⟩
  | exec r res => exact ⟨xs, exec_inv h hs⟩
  | ack r => exact ⟨xs, ack_inv h hs⟩
  | arrive r i => exact ⟨xs, arrive_inv h hs⟩

end Cluster

end Condy
