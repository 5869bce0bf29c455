import Condy.Loop
import Condy.Runtime.Pending

/-!
# Condy.Runtime.Loop — a runtime refines the loop

What the operations, the rings and the kernel do to the queues of a runtime, with all else left out.  The mail is what
the completion queue and the messages on their way hold of items; most steps leave the queues and the mail alone
(`Quiet`).
-/

namespace Condy

open Lib

def Control.place : Control → Loop.Place
  | .idle => .outside
  | .work | .handler _ _ => .user
  | .top | .pick | .wait | .reap _ | .panicked => .loop

theorem Control.place_ne {k : Control} : k.place ≠ .outside ↔ k ≠ .idle := by
  cases k <;> simp [Control.place]

/-- The item that `process_cqe_` invokes. -/
def Cqe.item (c : Cqe) : Option ℕ :=
  match decodeWork c.userData with
  | (data, some .schedule) => if data = 0 then none else some data
  | _ => none

theorem Cqe.item_eq {c : Cqe} {ptr : ℕ} {type : WorkType} (hp : ptr % 8 = 0) (hu : c.userData = encodeWork ptr type) :
    c.item = if type = .schedule ∧ ptr ≠ 0 then some ptr else none := by
  rw [Cqe.item, hu, decodeWork_encodeWork hp]
  cases type with
  | schedule => by_cases h0 : ptr = 0 <;> simp [h0]
  | _ => simp

/-- A wakeup, and a completion of any other type, is no item. -/
theorem Cqe.item_none {c : Cqe} {ptr : ℕ} {type : WorkType} (hp : ptr % 8 = 0) (hu : c.userData = encodeWork ptr type)
    (h : ¬(type = .schedule ∧ ptr ≠ 0)) : c.item = none :=
  (Cqe.item_eq hp hu).trans (if_neg h)

namespace Runtime

variable {s s' u : Runtime}

def items (s : Runtime) : Multiset ℕ := ((s.cq ++ s.inbox).filterMap Cqe.item : List ℕ)

/-- The runtime, seen from its queues. -/
def loop (s : Runtime) : Loop ℕ :=
  { place := s.control.place, ringEnabled := s.ringEnabled, exitAllowed := s.exitAllowed
    pendingWorks := s.pendingWorks, localQueue := s.localQueue, globalQueue := s.globalQueue, mail := s.items }

/-! ## Steps that schedule nothing -/

/-- The queues, the mail and the flags stay as they are. -/
structure Quiet (s s' : Runtime) : Prop where
  localQueue : s'.localQueue = s.localQueue
  globalQueue : s'.globalQueue = s.globalQueue
  enabled : s'.ringEnabled = s.ringEnabled
  exit : s'.exitAllowed = s.exitAllowed
  items : s'.items = s.items

theorem Quiet.trans (h : s.Quiet u) (h' : u.Quiet s') : s.Quiet s' :=
  ⟨h'.localQueue.trans h.localQueue, h'.globalQueue.trans h.globalQueue, h'.enabled.trans h.enabled,
    h'.exit.trans h.exit, h'.items.trans h.items⟩

theorem Quiet.after (h' : u.Quiet s') (h : s.Quiet u) : s.Quiet s' := h.trans h'

/-- On the thread of the runtime, in `run()`. -/
theorem Quiet.acts_self (h : s.Quiet s') (hout : s'.control ≠ .idle) {p : Loop.Place} (hp : p ≠ .outside) :
    Loop.Acts { s.loop with place := p } s'.loop := by
  have hloop : s'.loop = { s.loop with place := s'.control.place, pendingWorks := s'.pendingWorks } := by
    rw [loop, loop, h.localQueue, h.globalQueue, h.enabled, h.exit, h.items]
  rw [hloop]
  exact .inside hp (Control.place_ne.mpr hout) _

theorem Quiet.acts (h : s.Quiet s') (hin : s.control ≠ .idle) (hout : s'.control ≠ .idle) : Loop.Acts s.loop s'.loop :=
  h.acts_self hout (Control.place_ne.mpr hin)

/-- On other threads, and in the kernel. -/
theorem Quiet.stays (h : s.Quiet s') (hc : s'.control = s.control) (hp : s'.pendingWorks = s.pendingWorks) :
    Loop.Acts s.loop s'.loop := by
  have hloop : s'.loop = s.loop := by
    rw [loop, loop, h.localQueue, h.globalQueue, h.enabled, h.exit, h.items, hc, hp]
  exact hloop ▸ .refl _

theorem resumeWork_quiet (s : Runtime) : s.Quiet s.resumeWork := by
  unfold resumeWork
  split <;> exact ⟨rfl, rfl, rfl, rfl, rfl⟩

theorem queueSqe_quiet {e : Sqe} (hs : s.queueSqe e = some s') : s.Quiet s' := by
  obtain ⟨r, -, rfl⟩ := Option.map_eq_some_iff.mp hs
  exact ⟨rfl, rfl, rfl, rfl, rfl⟩

theorem invoke_quiet (s : Runtime) (w : ℕ) : s.Quiet (s.invoke w) := by
  unfold invoke
  split
  · exact (resumeWork_quiet s).trans ⟨rfl, rfl, rfl, rfl, rfl⟩
  · exact ⟨rfl, rfl, rfl, rfl, rfl⟩

theorem start_quiet {addr : ℕ} {kind : OpKind} {stopRequested prepFails stopPossible : Bool}
    (hs : s.start addr kind stopRequested prepFails stopPossible = some s') : s.Quiet s' := by
  have hfail : ∀ (v : Runtime) (tag : ℕ) (res : ℤ), v.Quiet (v.fail kind tag res) := by
    intro v tag res
    unfold fail
    split <;> exact ⟨rfl, rfl, rfl, rfl, rfl⟩
  unfold start at hs
  obtain ⟨-, hs⟩ := Option.ite_none_left_eq_some.mp hs
  cases stopRequested with
  | true =>
    rw [← Option.some.inj hs]
    exact .after (hfail ..) ⟨rfl, rfl, rfl, rfl, rfl⟩
  | false =>
    cases prepFails with
    | true =>
      rw [← Option.some.inj hs]
      exact .after (hfail ..) ⟨rfl, rfl, rfl, rfl, rfl⟩
    | false =>
      obtain ⟨v, hv, rfl⟩ := Option.map_eq_some_iff.mp hs
      have hstart : s.Quiet v := .after (queueSqe_quiet hv) ⟨rfl, rfl, rfl, rfl, rfl⟩
      exact hstart.trans ⟨rfl, rfl, rfl, rfl, rfl⟩

theorem processCqe_quiet {next : After} {c : Cqe} (hs : s.processCqe next c = some s') : s.Quiet s' := by
  unfold processCqe at hs
  split at hs
  · rw [← Option.some.inj hs]
    exact ⟨rfl, rfl, rfl, rfl, rfl⟩
  · split_ifs at hs <;> rw [← Option.some.inj hs]
    · exact ⟨rfl, rfl, rfl, rfl, rfl⟩
    · exact (resumeWork_quiet s).trans ⟨rfl, rfl, rfl, rfl, rfl⟩
    · exact (invoke_quiet s _).trans ⟨rfl, rfl, rfl, rfl, rfl⟩
  · obtain ⟨v, hv, rfl⟩ := Option.map_eq_some_iff.mp hs
    exact (queueSqe_quiet hv).trans ⟨rfl, rfl, rfl, rfl, rfl⟩
  · split at hs
    · rw [← Option.some.inj hs]
      exact ⟨rfl, rfl, rfl, rfl, rfl⟩
    · obtain ⟨hs', rfl, -⟩ := handle_spec rfl hs
      exact ⟨rfl, rfl, rfl, rfl, rfl⟩
  · rw [← Option.some.inj hs]
    exact ⟨rfl, rfl, rfl, rfl, rfl⟩

/-- A completion that is no item. -/
theorem post_quiet {c : Cqe} (hc : c.item = none) : s.Quiet { s with cq := s.cq ++ [c] } := by
  refine ⟨rfl, rfl, rfl, rfl, ?_⟩
  simp [items, hc]

theorem send_quiet {c : Cqe} (hc : c.item = none) : s.Quiet { s with inbox := s.inbox ++ [c] } := by
  refine ⟨rfl, rfl, rfl, rfl, ?_⟩
  simp [items, hc]

theorem inUser_place (hu : s.inUser = true) : s.loop.place = .user := by
  unfold inUser at hu
  unfold loop
  split at hu <;> simp_all [Control.place]

theorem inUser_ne_idle (hu : s.inUser = true) : s.control ≠ .idle := fun hc => by
  simp [inUser, hc] at hu

/-! ## Scheduling -/

theorem remotePush_acts {w : ℕ} (hw : w % 8 = 0) (hw0 : w ≠ 0) : Loop.Acts s.loop (s.remotePush w).loop := by
  have hitem : (Cqe.message w .schedule .other).item = some w := by rw [Cqe.item_eq hw rfl, if_pos ⟨rfl, hw0⟩]
  refine .one (.remoteSchedule w) ?_
  unfold remotePush Loop.step
  cases hen : s.ringEnabled with
  | false => simp [loop, hen, items]
  | true =>
    have hperm := (List.perm_append_singleton w ((s.cq ++ s.inbox).filterMap Cqe.item)).symm
    simpa [loop, hen, items, hitem] using hperm

/-! ## Steps -/

theorem run_acts (hs : step s .run = some s') : Loop.Acts s.loop s'.loop := by
  obtain ⟨hctl, hs⟩ := Option.ite_none_left_eq_some.mp hs
  have hplace : s.loop.place = .outside := by rw [loop, not_ne_iff.mp hctl]; rfl
  refine .one .run ?_
  rw [Loop.step, if_neg (not_not_intro hplace)]
  cases hen : s.ringEnabled with
  | false =>
    rw [hen] at hs
    rw [← Option.some.inj hs]
    simp [loop, hen, Control.place, items]
  | true =>
    rw [hen] at hs
    rw [← Option.some.inj hs]
    simp [loop, hen, Control.place, items]

theorem pick_acts (hctl : s.control = .pick) : Loop.Acts s.loop s.pick.loop := by
  have hplace : s.loop.place = .loop := by rw [loop, hctl]; rfl
  unfold pick
  split
  next w ws hq =>
    have hpop : Loop.step s.loop .pop = some { ({ s with localQueue := ws } : Runtime).loop with place := .user } := by
      simp [Loop.step, loop, hctl, hq, Control.place, items]
    have hquiet : Quiet { s with localQueue := ws }
        { ({ s with localQueue := ws } : Runtime).invoke w with control := .work } :=
      (invoke_quiet ..).trans ⟨rfl, rfl, rfl, rfl, rfl⟩
    exact (Loop.Acts.one .pop hpop).trans (hquiet.acts_self (by simp) (by simp))
  next hq =>
    split_ifs with hexit
    · refine .one .quit ?_
      rw [Loop.step, if_pos ⟨hplace, hq, hexit⟩]
      rfl
    · exact Quiet.acts ⟨rfl, rfl, rfl, rfl, rfl⟩ (by rw [hctl]; simp) (by simp)

theorem reap_acts (hs : step s .reap = some s') : Loop.Acts s.loop s'.loop := by
  obtain ⟨next, hctl, ⟨-, rfl⟩ | ⟨c, cs, hq, hs⟩⟩ := reap_cases hs
  · exact Quiet.acts ⟨rfl, rfl, rfl, rfl, rfl⟩ (by rw [hctl]; simp) (by cases next <;> simp [After.control])
  · have hquiet := processCqe_quiet hs
    have hout := processCqe_control hs
    cases hitem : c.item with
    | none =>
      have hdrop : s.Quiet { s with cq := cs } := ⟨rfl, rfl, rfl, rfl, by simp [items, hq, hitem]⟩
      exact (hdrop.trans hquiet).acts (by rw [hctl]; simp) hout
    | some w =>
      have hreceive : Loop.step s.loop (.receive w) = some { ({ s with cq := cs } : Runtime).loop with place := .user } := by
        simp [Loop.step, loop, hctl, Control.place, items, hq, hitem]
      exact (Loop.Acts.one _ hreceive).trans (hquiet.acts_self hout (by simp))

theorem ret_acts (hs : step s .ret = some s') : Loop.Acts s.loop s'.loop := by
  simp only [step] at hs
  split at hs
  next hctl =>
    obtain rfl := Option.some.inj hs
    exact Quiet.acts ⟨rfl, rfl, rfl, rfl, rfl⟩ (by rw [hctl]; simp) (by simp)
  next next finish hctl =>
    obtain rfl := Option.some.inj hs
    have hback : s.Quiet (if finish then s.resumeWork else s) := by
      split
      · exact resumeWork_quiet s
      · exact ⟨rfl, rfl, rfl, rfl, rfl⟩
    exact Quiet.acts (hback.trans ⟨rfl, rfl, rfl, rfl, rfl⟩) (by rw [hctl]; simp) (by simp)
  · cases hs

theorem execute_stays {e : Sqe} {hit : Option ℕ} {res : ℤ} {ops : List OpInfo} (he : SqeOk ops e)
    (hs : s.execute e hit res = some s') : s.Quiet s' ∧ s'.pendingWorks = s.pendingWorks := by
  unfold execute at hs
  split at hs
  · rw [← Option.some.inj hs]
    exact ⟨⟨rfl, rfl, rfl, rfl, rfl⟩, rfl⟩
  · rw [← Option.some.inj hs]
    exact ⟨⟨rfl, rfl, rfl, rfl, rfl⟩, rfl⟩
  next target hreq =>
    rw [SqeOk, hreq] at he
    have hcq : s.Quiet { s with cq := if res < 0 then s.cq ++ [⟨e.userData, res, false, false, .other⟩] else s.cq } := by
      split_ifs
      · exact post_quiet (Cqe.item_none (Nat.zero_mod 8) he (by simp))
      · exact ⟨rfl, rfl, rfl, rfl, rfl⟩
    cases hit <;> rw [← Option.some.inj (Option.ite_none_right_eq_some.mp hs).2]
    · exact ⟨hcq, rfl⟩
    · exact ⟨hcq.trans ⟨rfl, rfl, rfl, rfl, rfl⟩, rfl⟩

theorem exec_acts {hit : Option ℕ} {res : ℤ} (h : s.Inv) (hs : step s (.exec hit res) = some s') :
    Loop.Acts s.loop s'.loop := by
  obtain ⟨hlt, hs⟩ := Option.ite_none_right_eq_some.mp hs
  obtain ⟨e, he, hs⟩ := Option.bind_eq_some_iff.mp hs
  have hmem : e ∈ s.sq := by rw [sq_eq_cons he]; exact List.mem_cons_self
  obtain ⟨hquiet, hp⟩ := execute_stays (h.flight.sqOk e hmem) hs
  have hctl := execute_control hs
  have hcount : s.Quiet { s with executed := s.executed + 1 } := ⟨rfl, rfl, rfl, rfl, rfl⟩
  exact (hcount.trans hquiet).stays hctl hp

theorem post_acts {tag : ℕ} {res : ℤ} {more notif : Bool} (h : s.Inv)
    (hs : step s (.post tag res more notif) = some s') : Loop.Acts s.loop s'.loop := by
  obtain ⟨r, hr, hs⟩ := Option.bind_eq_some_iff.mp hs
  obtain ⟨p, -, rfl⟩ := Option.map_eq_some_iff.mp hs
  obtain ⟨-, o, ho, -, hdata, -⟩ := h.flight.reqsOk tag r hr
  have hitem : (⟨r.userData, res, more, notif, .op tag⟩ : Cqe).item = none :=
    Cqe.item_none (h.flight.align o ho) hdata (by simp)
  have hpost := post_quiet (s := s) hitem
  exact Quiet.stays (hpost.trans ⟨rfl, rfl, rfl, rfl, rfl⟩) rfl rfl

theorem step_loop (op : Op) (h : s.Inv) (hs : step s op = some s') : Loop.Acts s.loop s'.loop := by
  cases op with
  | run => exact run_acts hs
  | tick =>
    obtain ⟨hctl, hs⟩ := Option.ite_none_right_eq_some.mp hs
    obtain rfl := Option.some.inj hs
    unfold tick
    split <;> exact Quiet.acts ⟨rfl, rfl, rfl, rfl, rfl⟩ (by rw [hctl]; simp) (by simp)
  | pick =>
    obtain ⟨hctl, hs⟩ := Option.ite_none_right_eq_some.mp hs
    obtain rfl := Option.some.inj hs
    exact pick_acts hctl
  | waitReturn =>
    obtain ⟨⟨hctl, -⟩, hs⟩ := Option.ite_none_right_eq_some.mp hs
    obtain rfl := Option.some.inj hs
    exact Quiet.acts ⟨rfl, rfl, rfl, rfl, rfl⟩ (by rw [hctl]; simp) (by simp)
  | reap => exact reap_acts hs
  | start addr kind stopRequested prepFails stopPossible =>
    obtain ⟨hu, hs⟩ := Option.ite_none_right_eq_some.mp hs
    exact (start_quiet hs).acts (inUser_ne_idle hu) (by rw [start_control hs]; exact inUser_ne_idle hu)
  | sendMsg submit =>
    obtain ⟨hu, hs⟩ := Option.ite_none_right_eq_some.mp hs
    obtain ⟨v, hv, rfl⟩ := Option.map_eq_some_iff.mp hs
    obtain ⟨x, hx, rfl⟩ := Option.map_eq_some_iff.mp hv
    have hin : x.control ≠ .idle := by rw [queueSqe_control hx]; exact inUser_ne_idle hu
    split <;> exact Quiet.acts ((queueSqe_quiet hx).trans ⟨rfl, rfl, rfl, rfl, rfl⟩) (inUser_ne_idle hu) hin
  | requestStop addr =>
    obtain ⟨⟨hu, -⟩, hs⟩ := Option.ite_none_right_eq_some.mp hs
    obtain ⟨v, hv, rfl⟩ := Option.map_eq_some_iff.mp hs
    obtain ⟨g, -, hv⟩ := Option.bind_eq_some_iff.mp hv
    have hin : v.control ≠ .idle := by rw [queueSqe_control hv]; exact inUser_ne_idle hu
    exact Quiet.acts ((queueSqe_quiet hv).trans ⟨rfl, rfl, rfl, rfl, rfl⟩) (inUser_ne_idle hu) hin
  | schedule w =>
    obtain ⟨⟨hu, -⟩, hs⟩ := Option.ite_none_right_eq_some.mp hs
    obtain rfl := Option.some.inj hs
    exact .one (.schedule w) (if_pos (inUser_place hu))
  | wake w =>
    obtain ⟨⟨hu, -⟩, hs⟩ := Option.ite_none_right_eq_some.mp hs
    obtain rfl := Option.some.inj hs
    exact .one (.schedule w) (if_pos (inUser_place hu))
  | beginWait w =>
    obtain ⟨⟨hu, -⟩, hs⟩ := Option.ite_none_right_eq_some.mp hs
    obtain rfl := Option.some.inj hs
    exact Quiet.acts ⟨rfl, rfl, rfl, rfl, rfl⟩ (inUser_ne_idle hu) (inUser_ne_idle hu)
  | joinFinished =>
    obtain ⟨hu, hs⟩ := Option.ite_none_right_eq_some.mp hs
    obtain rfl := Option.some.inj hs
    exact Quiet.acts ⟨rfl, rfl, rfl, rfl, rfl⟩ (inUser_ne_idle hu) (inUser_ne_idle hu)
  | ret => exact ret_acts hs
  | allowExit =>
    obtain rfl := Option.some.inj hs
    exact .one .allowExit rfl
  | remoteSchedule w =>
    obtain ⟨⟨hw, hw0, -⟩, hs⟩ := Option.ite_none_right_eq_some.mp hs
    obtain rfl := Option.some.inj hs
    exact remotePush_acts hw hw0
  | remoteWake w =>
    obtain ⟨hmem, hs⟩ := Option.ite_none_right_eq_some.mp hs
    obtain rfl := Option.some.inj hs
    obtain ⟨hw, hw0⟩ := h.waits.2 _ hmem
    have hwoken : s.Quiet (s.setWoken w) := ⟨rfl, rfl, rfl, rfl, rfl⟩
    exact (hwoken.stays rfl rfl).trans (remotePush_acts hw hw0)
  | remoteWakeup =>
    obtain ⟨-, hs⟩ := Option.ite_none_right_eq_some.mp hs
    obtain rfl := Option.some.inj hs
    exact (send_quiet (Cqe.item_none (Nat.zero_mod 8) rfl (by simp))).stays rfl rfl
  | remoteStopBegin addr | remoteStopEnd addr =>
    obtain ⟨-, hs⟩ := Option.ite_none_right_eq_some.mp hs
    obtain rfl := Option.some.inj hs
    exact Quiet.stays ⟨rfl, rfl, rfl, rfl, rfl⟩ rfl rfl
  | remoteStopSend addr =>
    obtain ⟨-, hs⟩ := Option.ite_none_right_eq_some.mp hs
    obtain ⟨g, hg, rfl⟩ := Option.map_eq_some_iff.mp hs
    have haddr : g.addr = addr := by simpa using List.find?_some hg
    have halign : addr % 8 = 0 := haddr ▸ h.flight.align _ (List.mem_map_of_mem (List.mem_of_find?_eq_some hg))
    have hset : s.Quiet (s.setCallback addr .sent) := ⟨rfl, rfl, rfl, rfl, rfl⟩
    exact (hset.trans (send_quiet (Cqe.item_none halign rfl (by simp)))).stays rfl rfl
  | deliver i =>
    obtain ⟨c, hc, rfl⟩ := Option.map_eq_some_iff.mp hs
    obtain ⟨hi, rfl⟩ := List.getElem?_eq_some_iff.mp hc
    have hperm : (s.cq ++ [s.inbox[i]] ++ s.inbox.eraseIdx i).Perm (s.cq ++ s.inbox) := by
      rw [List.append_assoc, List.singleton_append]
      exact (List.getElem_cons_eraseIdx_perm hi).append_left s.cq
    exact Quiet.stays ⟨rfl, rfl, rfl, rfl, Multiset.coe_eq_coe.mpr (hperm.filterMap _)⟩ rfl rfl
  | exec hit res => exact exec_acts h hs
  | post tag res more notif => exact post_acts h hs
  | postMsg res =>
    obtain ⟨-, hs⟩ := Option.ite_none_right_eq_some.mp hs
    obtain rfl := Option.some.inj hs
    have hitem : (⟨encodeWork 0 .schedule, res, false, false, .other⟩ : Cqe).item = none :=
      Cqe.item_none (Nat.zero_mod 8) rfl (by simp)
    have hpost := post_quiet (s := s) hitem
    exact Quiet.stays (hpost.trans ⟨rfl, rfl, rfl, rfl, rfl⟩) rfl rfl

/-- **The runtime refines the loop**: in every run it does what `Loop` says, with the invokers for items. -/
theorem run_loop {as : List Op} (h : s.Inv) (hrun : run step s as = some s') : Loop.Acts s.loop s'.loop :=
  run_rel (R := fun u v => Loop.Acts u.loop v.loop) (fun _ => .refl _) (fun _ _ _ => .trans)
    (fun _ a _ h hs => ⟨step_inv a h hs, step_loop a h hs⟩) as h hrun

/-- Once `run()` was called no item is left in the global queue, where nothing would take it out. -/
theorem run_flushed {eventInterval entries submitBatch : ℕ} {sqpoll : Bool} {lag : List ℕ} {as : List Op}
    (hrun : run step (init eventInterval (.new entries sqpoll submitBatch lag)) as = some s)
    (hen : s.ringEnabled = true) : s.globalQueue = [] :=
  ((run_loop (init_inv ..) hrun).inv Loop.init_inv).flushed hen

end Runtime

end Condy
