import Condy.Runtime.Flight

/-!
# Condy.Runtime.Inv — the invariant of a runtime

`Inv s` holds in every state that a runtime reaches: the operations are tracked (`Flight`), and `pending_works_` is the
number of activities that it has to wait for, plus one while the user code of a finished operation still runs.
`step_inv` is the step lemma.
-/

namespace Condy

open Lib

/-- Taking out the one element with a given key. -/
theorem length_filter_key {α β : Type*} [DecidableEq β] {f : α → β} {l : List α} {a : β} (hn : (l.map f).Nodup)
    (ha : a ∈ l.map f) : (l.filter (fun x => f x ≠ a)).length + 1 = l.length := by
  have h1 : (l.filter (fun x => f x ≠ a)).map f = (l.map f).erase a := by
    rw [hn.erase_eq_filter, List.filter_map]
    exact congrArg (List.map f) (List.filter_congr (fun x _ => by by_cases hx : f x = a <;> simp [hx]))
  have h2 := congrArg List.length h1
  have h3 := List.length_pos_of_mem ha
  rw [List.length_map, List.length_erase_of_mem ha] at h2
  rw [List.length_map] at h2 h3
  omega

/-- The end of an own message. -/
def Cqe.isMsgDone (c : Cqe) : Bool := decide (c.userData = encodeWork 0 .schedule)

/-- While the user code of a finished operation runs its count is not yet given back; that of a message that could not
be sent never is. -/
def Control.extra : Control → ℕ
  | .handler _ true => 1
  | .panicked => 1
  | _ => 0

namespace Runtime

def ops (s : Runtime) : List OpInfo := s.handles.map (·.toOpInfo)

/-- The operations whose receivers were called. -/
def got (s : Runtime) : List ℕ := s.received.map Prod.fst

/-- The messages to other runtimes whose end was not reaped. -/
def msgCount (sq : List Sqe) (msgs : ℕ) (cq : List Cqe) : ℕ := sq.countP Sqe.isMsg + msgs + cq.countP Cqe.isMsgDone

/-- The invokers of the suspended waits are different, aligned and not null. -/
def WaitsOk (waits : List Wait) : Prop := (waits.map (·.ptr)).Nodup ∧ ∀ x ∈ waits, x.ptr % 8 = 0 ∧ x.ptr ≠ 0

structure Inv (s : Runtime) : Prop where
  executed : s.executed ≤ s.ring.handed
  flight : Flight s.ops s.sq s.reqs s.cq s.inbox s.nextTag s.got
  waits : WaitsOk s.waits
  count : s.pendingWorks = s.handles.length + msgCount s.sq s.msgs s.cq + s.waits.length + s.control.extra
  sound : s.underflow = false ∧ s.dangling = false

theorem init_inv (eventInterval entries : ℕ) (sqpoll : Bool) (submitBatch : ℕ) (lag : List ℕ) :
    (init eventInterval (.new entries sqpoll submitBatch lag)).Inv :=
  ⟨Nat.le_refl 0, flight_nil, ⟨List.nodup_nil, fun _ h => nomatch h⟩, rfl, rfl, rfl⟩

section

variable {s s' : Runtime} {c : Cqe} {cs : List Cqe} {e : Sqe} {next : After}

theorem resumeWork_eq (h : 0 < s.pendingWorks) : s.resumeWork = { s with pendingWorks := s.pendingWorks - 1 } := by
  unfold resumeWork
  cases hp : s.pendingWorks with
  | zero => omega
  | succ n => rfl

/-- An activity has ended and its count is given back. -/
theorem resume_inv {k : Control} (he : s.executed ≤ s.ring.handed)
    (hf : Flight s.ops s.sq s.reqs s.cq s.inbox s.nextTag s.got) (hw : WaitsOk s.waits)
    (hs : s.underflow = false ∧ s.dangling = false)
    (hc : s.pendingWorks = s.handles.length + msgCount s.sq s.msgs s.cq + s.waits.length + k.extra + 1) :
    ({ s.resumeWork with control := k } : Runtime).Inv := by
  rw [resumeWork_eq (by omega)]
  refine ⟨he, hf, hw, ?_, hs⟩
  change s.pendingWorks - 1 = s.handles.length + msgCount s.sq s.msgs s.cq + s.waits.length + k.extra
  omega

theorem sq_submit (s : Runtime) : ({ s with ring := s.ring.submit } : Runtime).sq = s.sq := by
  simp [sq]

theorem submit_inv (h : s.Inv) : ({ s with ring := s.ring.submit } : Runtime).Inv := by
  refine ⟨Nat.le_trans h.executed s.ring.handed_le_submit, ?_, h.waits, ?_, h.sound⟩
  · rw [sq_submit]
    exact h.flight
  · rw [sq_submit]
    exact h.count

/-- `get_sqe` puts the entry behind all that the kernel has still to execute. -/
theorem sq_getSqe {r : Ring Sqe} (h : s.executed ≤ s.ring.handed) (hr : s.ring.getSqe e = some r) :
    s.executed ≤ r.handed ∧ r.all.drop s.executed = s.sq ++ [e] := by
  obtain ⟨hall, hle, -⟩ := Ring.getSqe_spec hr
  refine ⟨Nat.le_trans h hle, ?_⟩
  rw [hall, List.drop_append_of_le_length (Nat.le_trans h s.ring.handed_le_all)]
  rfl

theorem ops_setCallback (s : Runtime) (addr : ℕ) (cb : StopCallback) : (s.setCallback addr cb).ops = s.ops := by
  unfold ops setCallback
  rw [List.map_map]
  refine List.map_congr_left (fun h _ => ?_)
  dsimp only [Function.comp]
  split <;> rfl

theorem setCallback_inv (h : s.Inv) (addr : ℕ) (cb : StopCallback) : (s.setCallback addr cb).Inv := by
  refine ⟨h.executed, ?_, h.waits, ?_, h.sound⟩
  · rw [ops_setCallback]
    exact h.flight
  · change s.pendingWorks = (s.handles.map _).length + msgCount s.sq s.msgs s.cq + s.waits.length + s.control.extra
    rw [List.length_map]
    exact h.count

/-- An entry of no operation is queued. -/
theorem queueSqe_spec (h : s.Inv) (he : e.opTag = none) (hok : SqeOk s.ops e) (hs : s.queueSqe e = some s') :
    ∃ r, s' = { s with ring := r } ∧ s.executed ≤ r.handed ∧ r.all.drop s.executed = s.sq ++ [e] ∧
      Flight s.ops (r.all.drop s.executed) s.reqs s.cq s.inbox s.nextTag s.got ∧
      msgCount (r.all.drop s.executed) s.msgs s.cq = msgCount s.sq s.msgs s.cq + (if e.isMsg then 1 else 0) := by
  obtain ⟨r, hr, rfl⟩ := Option.map_eq_some_iff.mp hs
  obtain ⟨hle, hsq⟩ := sq_getSqe h.executed hr
  refine ⟨r, rfl, hle, hsq, hsq ▸ h.flight.queueOther he hok, ?_⟩
  rw [hsq, msgCount, msgCount, List.countP_append, List.countP_singleton]
  omega

theorem prepCancel_inv (h : s.Inv) {data tag : ℕ} (hs : s.prepCancel data tag = some s') : s'.Inv := by
  obtain ⟨r, rfl, hle, -, hf, hm⟩ := queueSqe_spec h rfl (by rfl) hs
  refine ⟨hle, hf, h.waits, ?_, h.sound⟩
  exact h.count.trans (congrArg (s.handles.length + · + s.waits.length + s.control.extra) hm.symm)

theorem scheduleMsgRing_inv (h : s.Inv) (hs : s.scheduleMsgRing = some s') : s'.Inv := by
  obtain ⟨u, hu, rfl⟩ := Option.map_eq_some_iff.mp hs
  obtain ⟨r, rfl, hle, -, hf, hm⟩ := queueSqe_spec h rfl (by rfl) hu
  refine ⟨hle, hf, h.waits, ?_, h.sound⟩
  have hc := h.count
  have hone : (if (⟨encodeWork 0 .schedule, .msgRing, 0⟩ : Sqe).isMsg then 1 else 0) = 1 := rfl
  rw [hone] at hm
  change s.pendingWorks + 1 =
    s.handles.length + msgCount (r.all.drop s.executed) s.msgs s.cq + s.waits.length + s.control.extra
  omega

/-- Running an item of the local queue or a scheduled one. -/
theorem invoke_inv (h : s.Inv) (w : ℕ) : (s.invoke w).Inv ∧ (s.invoke w).control = s.control := by
  unfold invoke
  split
  case isTrue hw =>
    have hlen := length_filter_key h.waits.1 hw
    have hpos : 0 < s.pendingWorks := by
      rw [h.count]
      omega
    rw [resumeWork_eq hpos]
    refine ⟨⟨h.executed, h.flight, ?_, ?_, h.sound⟩, rfl⟩
    · exact ⟨h.waits.1.sublist (List.filter_sublist.map _), fun x hx => h.waits.2 x (List.mem_of_mem_filter hx)⟩
    · have hc := h.count
      change s.pendingWorks - 1 = s.handles.length + msgCount s.sq s.msgs s.cq +
        (s.waits.filter (fun x => x.ptr ≠ w)).length + s.control.extra
      omega
  case isFalse => exact ⟨h, rfl⟩

/-- Only the place of the thread changes. -/
theorem control_inv (h : s.Inv) {k : Control} (hk : k.extra = s.control.extra) :
    ({ s with control := k } : Runtime).Inv := by
  refine ⟨h.executed, h.flight, h.waits, ?_, h.sound⟩
  change s.pendingWorks = s.handles.length + msgCount s.sq s.msgs s.cq + s.waits.length + k.extra
  rw [hk]
  exact h.count

/-- A completion of no operation and no own message is taken out of the queue. -/
theorem reapOther_inv (h : s.Inv) (hq : s.cq = c :: cs) (hc : ∀ t, c.origin ≠ .op t) (hm : c.isMsgDone = false) :
    ({ s with cq := cs } : Runtime).Inv := by
  have hf := h.flight
  rw [hq] at hf
  refine ⟨h.executed, hf.reapOther hc, h.waits, ?_, h.sound⟩
  have hcount := h.count
  rw [hq, msgCount, List.countP_cons_of_neg (by simp [hm])] at hcount
  exact hcount

/-- The handle at the address of an operation in flight. -/
theorem find_handle (h : s.Inv) {o : OpInfo} (ho : o ∈ s.ops) :
    ∃ g, s.handles.find? (·.addr = o.addr) = some g ∧ g ∈ s.handles ∧ g.toOpInfo = o := by
  obtain ⟨g, hg, rfl⟩ := List.mem_map.mp ho
  cases hfind : s.handles.find? (·.addr = g.addr) with
  | none =>
    have := List.find?_eq_none.mp hfind g hg
    simp at this
  | some g' =>
    have hmem := List.mem_of_find?_eq_some hfind
    have haddr : g'.addr = g.addr := by simpa using List.find?_some hfind
    refine ⟨g', rfl, hmem, h.flight.eq_of_addr ?_ ho haddr⟩
    exact List.mem_map.mpr ⟨g', hmem, rfl⟩

/-- What `handle` changes, as a function of what the finish handle does. -/
theorem handle_spec {g : FinishHandle} {fin done : Bool} (hk : g.kind.handle c.more c.notif = (fin, done))
    (hs : s.handle g c next = some s') : ∃ hs', s' = { s with
        handles := hs', received := if fin then s.received ++ [(g.tag, c.res)] else s.received
        control := .handler next done } ∧
      hs'.map (·.toOpInfo) = if done then s.ops.filter (fun o => o.addr ≠ g.addr) else s.ops := by
  unfold handle at hs
  rw [hk] at hs
  obtain ⟨-, hs⟩ := Option.ite_none_left_eq_some.mp hs
  refine ⟨_, (Option.some.inj hs).symm, ?_⟩
  have hops : (if fin then (s.setCallback g.addr .unset).handles else s.handles).map (·.toOpInfo) = s.ops := by
    cases fin
    · rfl
    · exact ops_setCallback s g.addr .unset
  cases done
  · exact hops
  · rw [if_pos rfl, if_pos rfl, ← hops, List.filter_map]
    rfl

/-- A completion of an operation is handled. -/
theorem handle_inv (h : s.Inv) (hq : s.cq = c :: cs) (hctl : s.control = .reap next) {o : OpInfo} (ho : o ∈ s.ops)
    (hc : c.origin = .op o.tag) (hm : c.isMsgDone = false) {g : FinishHandle} (hgo : g.toOpInfo = o)
    (hs : ({ s with cq := cs } : Runtime).handle g c next = some s') : s'.Inv := by
  subst hgo
  have hf := h.flight
  rw [hq] at hf
  obtain ⟨q, hemit, -⟩ := hf.head_phase ho hc
  obtain ⟨hs', rfl, hops⟩ := handle_spec (OpKind.handle_eq hemit) hs
  have hcount := h.count
  rw [hq, msgCount, List.countP_cons_of_neg (by simp [hm]), hctl] at hcount
  -- The receiver is called when the operation leaves `ready`.
  have hgot : (if decide (handlePhase s.got g.tag = .ready ∧ q ≠ .ready) then s.received ++ [(g.tag, c.res)]
      else s.received).map Prod.fst =
        if handlePhase s.got g.tag = .ready ∧ q ≠ .ready then s.got ++ [g.tag] else s.got := by
    by_cases hr : handlePhase s.got g.tag = .ready ∧ q ≠ .ready
    · rw [if_pos hr, if_pos (decide_eq_true hr), List.map_append]
      rfl
    · rw [if_neg hr, if_neg (by simpa using hr)]
      rfl
  by_cases hend : q = .ended
  · subst hend
    have hlen : hs'.length + 1 = s.handles.length := by
      have := length_filter_key h.flight.addrs (List.mem_map_of_mem ho)
      rw [if_pos (by simp)] at hops
      have h2 := congrArg List.length hops
      rw [List.length_map] at h2
      change hs'.length = (s.ops.filter (fun o => o.addr ≠ g.addr)).length at h2
      have h3 : s.ops.length = s.handles.length := List.length_map _
      omega
    refine ⟨h.executed, ?_, h.waits, ?_, h.sound⟩
    · change Flight (hs'.map (·.toOpInfo)) s.sq s.reqs cs s.inbox s.nextTag (List.map Prod.fst _)
      rw [hops, hgot, if_pos (by simp)]
      refine hf.reapLast ho hc hemit ?_
      simp
    · change s.pendingWorks = hs'.length + msgCount s.sq s.msgs cs + s.waits.length + 1
      have : Control.extra (.reap next) = 0 := rfl
      unfold msgCount
      omega
  · refine ⟨h.executed, ?_, h.waits, ?_, h.sound⟩
    · change Flight (hs'.map (·.toOpInfo)) s.sq s.reqs cs s.inbox s.nextTag (List.map Prod.fst _)
      rw [hops, hgot, if_neg (by simpa using hend)]
      exact hf.reapMore ho hc hemit hend rfl
    · have hlen : hs'.length = s.handles.length := by
        rw [if_neg (by simpa using hend)] at hops
        have h2 := congrArg List.length hops
        rw [List.length_map] at h2
        exact h2.trans (List.length_map _)
      have hextra : Control.extra (.handler next (decide (q = .ended))) = 0 := by
        rw [decide_eq_false hend]
        rfl
      change s.pendingWorks = hs'.length + msgCount s.sq s.msgs cs + s.waits.length + _
      rw [hextra, hlen]
      exact hcount

/-- The word of a completion decides what `process_cqe_` does with it; a word that is not `Schedule` with a null pointer
is no own message. -/
theorem isMsgDone_eq_false {a : ℕ} {t : WorkType} (ha : a % 8 = 0) (hu : c.userData = encodeWork a t)
    (h : t ≠ .schedule ∨ a ≠ 0) : c.isMsgDone = false := by
  refine decide_eq_false (fun he => ?_)
  obtain ⟨h1, h2⟩ := encodeWork_inj ha (by decide) (hu ▸ he)
  rcases h with h | h
  · exact h h2
  · exact h h1

/-- The end of an own message: one activity less in the queues. -/
theorem msgDone_count (h : s.Inv) (hq : s.cq = c :: cs) (hctl : s.control = .reap next) (horig : c.origin = .other)
    (hu : c.userData = encodeWork 0 .schedule) : Flight s.ops s.sq s.reqs cs s.inbox s.nextTag s.got ∧
      s.pendingWorks = s.handles.length + msgCount s.sq s.msgs cs + s.waits.length + 0 + 1 := by
  have hdone : c.isMsgDone = true := decide_eq_true hu
  have hcount := h.count
  rw [hq, msgCount, List.countP_cons_of_pos hdone, hctl] at hcount
  have hextra : Control.extra (.reap next) = 0 := rfl
  have hf := h.flight
  rw [hq] at hf
  refine ⟨hf.reapOther (by simp [horig]), ?_⟩
  unfold msgCount
  omega

theorem processCqe_inv (h : s.Inv) (hq : s.cq = c :: cs) (hctl : s.control = .reap next)
    (hs : ({ s with cq := cs } : Runtime).processCqe next c = some s') : s'.Inv := by
  have hok := h.flight.cqOk c (by rw [hq]; exact List.mem_cons_self)
  unfold CqeOk at hok
  unfold processCqe at hs
  cases horig : c.origin with
  | op t =>
    rw [horig] at hok
    obtain ⟨o, ho, rfl, hu⟩ := hok
    have ha := h.flight.align o ho
    obtain ⟨g, hfind, -, hgo⟩ := find_handle h ho
    rw [hu, decodeWork_encodeWork ha] at hs
    simp only [hfind] at hs
    exact handle_inv h hq hctl ho horig (isMsgDone_eq_false ha hu (.inl (by decide))) hgo hs
  | cancel t =>
    rw [horig] at hok
    obtain ⟨a, ha, hu⟩ := hok
    rw [hu, decodeWork_encodeWork ha] at hs
    obtain ⟨u, hu', rfl⟩ := Option.map_eq_some_iff.mp hs
    have h1 := reapOther_inv h hq (by simp [horig]) (isMsgDone_eq_false ha hu (.inl (by decide)))
    refine control_inv (prepCancel_inv h1 hu') ?_
    obtain ⟨r, -, rfl⟩ := Option.map_eq_some_iff.mp hu'
    change 0 = s.control.extra
    rw [hctl]
    rfl
  | other =>
    rw [horig] at hok
    obtain ⟨w, hw, hu | hu⟩ := hok
    · rw [hu, decodeWork_encodeWork hw] at hs
      obtain rfl := Option.some.inj hs
      have h1 := reapOther_inv h hq (by simp [horig]) (isMsgDone_eq_false hw hu (.inl (by decide)))
      have h2 := control_inv h1 (k := .reap next) (by rw [← hctl])
      exact ⟨h2.executed, h2.flight, h2.waits, h2.count, h2.sound⟩
    · rw [hu, decodeWork_encodeWork hw] at hs
      simp only at hs
      by_cases hw0 : w = 0
      · subst hw0
        rw [if_pos rfl] at hs
        obtain ⟨hf, hcount⟩ := msgDone_count h hq hctl horig hu
        by_cases hres : c.res < 0
        · rw [if_pos hres] at hs
          obtain rfl := Option.some.inj hs
          exact ⟨h.executed, hf, h.waits, hcount, h.sound⟩
        · rw [if_neg hres] at hs
          obtain rfl := Option.some.inj hs
          exact resume_inv h.executed hf h.waits h.sound hcount
      · rw [if_neg hw0] at hs
        obtain rfl := Option.some.inj hs
        have h1 := reapOther_inv h hq (by simp [horig]) (isMsgDone_eq_false hw hu (.inr hw0))
        obtain ⟨h2, h3⟩ := invoke_inv h1 w
        refine control_inv h2 ?_
        rw [h3]
        change 0 = s.control.extra
        rw [hctl]
        rfl

/-! ### User code -/

theorem mem_ops_addr (s : Runtime) : s.ops.map OpInfo.addr = s.handles.map (·.addr) := by
  unfold ops
  rw [List.map_map]
  rfl

theorem start_inv (h : s.Inv) {addr : ℕ} {kind : OpKind} {stopRequested prepFails stopPossible : Bool}
    (hs : s.start addr kind stopRequested prepFails stopPossible = some s') : s'.Inv := by
  unfold start at hs
  obtain ⟨hg, hs⟩ := Option.ite_none_left_eq_some.mp hs
  push Not at hg
  obtain ⟨halign, hfree⟩ := hg
  -- A start that fails calls the receiver at once and counts nothing.
  have hfail : ∀ res, (({ s with nextTag := s.nextTag + 1 } : Runtime).fail kind s.nextTag res).Inv := by
    intro res
    have hfin : (kind.handle false false).1 = true := by cases kind <;> rfl
    unfold fail
    rw [if_pos hfin]
    refine ⟨h.executed, ?_, h.waits, h.count, h.sound⟩
    change Flight s.ops s.sq s.reqs s.cq s.inbox (s.nextTag + 1) ((s.received ++ [(s.nextTag, res)]).map Prod.fst)
    rw [List.map_append]
    exact h.flight.startFails
  cases stopRequested with
  | true =>
    obtain rfl := Option.some.inj hs
    exact hfail _
  | false =>
    cases prepFails with
    | true =>
      obtain rfl := Option.some.inj hs
      exact hfail _
    | false =>
      obtain ⟨u, hu, rfl⟩ := Option.map_eq_some_iff.mp hs
      obtain ⟨r, hr, rfl⟩ := Option.map_eq_some_iff.mp hu
      obtain ⟨hle, hsq⟩ := sq_getSqe h.executed hr
      have hsq' : r.maybeSubmit.all.drop s.executed = s.sq ++ [OpInfo.sqe ⟨addr, kind, s.nextTag⟩] := by
        rw [Ring.all_maybeSubmit, hsq]
        rfl
      refine ⟨Nat.le_trans hle r.handed_le_maybeSubmit, ?_, h.waits, ?_, h.sound⟩
      · change Flight ((s.handles ++ [_]).map FinishHandle.toOpInfo) (r.maybeSubmit.all.drop s.executed) s.reqs s.cq s.inbox
          (s.nextTag + 1) s.got
        rw [hsq', List.map_append]
        refine h.flight.start rfl halign ?_
        rw [mem_ops_addr]
        exact hfree
      · have hc := h.count
        change s.pendingWorks + 1 = (s.handles ++ [_]).length + msgCount (r.maybeSubmit.all.drop s.executed) s.msgs s.cq +
          s.waits.length + s.control.extra
        rw [hsq', msgCount, List.countP_append, List.length_append]
        unfold msgCount at hc
        simp only [List.countP_singleton, List.length_singleton]
        change s.pendingWorks + 1 = s.handles.length + 1 + (s.sq.countP Sqe.isMsg + 0 + s.msgs + _) + _ + _
        omega

theorem ret_inv (h : s.Inv) (hs : step s .ret = some s') : s'.Inv := by
  unfold step at hs
  cases hctl : s.control with
  | work =>
    rw [hctl] at hs
    obtain rfl := Option.some.inj hs
    exact control_inv h (by rw [hctl]; rfl)
  | handler next finish =>
    rw [hctl] at hs
    obtain rfl := Option.some.inj hs
    cases finish with
    | false => exact control_inv h (by rw [hctl]; rfl)
    | true =>
      have hc := h.count
      rw [hctl] at hc
      exact resume_inv h.executed h.flight h.waits h.sound hc
  | _ => rw [hctl] at hs; nomatch hs

theorem setWoken_inv (h : s.Inv) (w : ℕ) : (s.setWoken w).Inv := by
  have hptr : (s.setWoken w).waits.map (·.ptr) = s.waits.map (·.ptr) := by
    unfold setWoken
    rw [List.map_map]
    refine List.map_congr_left (fun x _ => ?_)
    dsimp only [Function.comp]
    split <;> rfl
  have hok : WaitsOk (s.setWoken w).waits := by
    refine ⟨hptr ▸ h.waits.1, fun x hx => ?_⟩
    have hmem : x.ptr ∈ s.waits.map (·.ptr) := hptr ▸ List.mem_map_of_mem hx
    obtain ⟨y, hy, he⟩ := List.mem_map.mp hmem
    exact he ▸ h.waits.2 y hy
  refine ⟨h.executed, h.flight, hok, ?_, h.sound⟩
  change s.pendingWorks = s.handles.length + msgCount s.sq s.msgs s.cq + (s.waits.map _).length + s.control.extra
  rw [List.length_map]
  exact h.count

/-! ### Other threads -/

/-- A message is put on its way. -/
theorem send_inv (h : s.Inv) (hc : MsgOk c) : ({ s with inbox := s.inbox ++ [c] } : Runtime).Inv :=
  ⟨h.executed, h.flight.send hc, h.waits, h.count, h.sound⟩

theorem remotePush_inv (h : s.Inv) {w : ℕ} (hw : w % 8 = 0) (hw0 : w ≠ 0) : (s.remotePush w).Inv := by
  unfold remotePush
  split
  · refine send_inv h ⟨⟨w, hw, .inr rfl⟩, fun he => ?_⟩
    exact hw0 (encodeWork_inj hw (by decide) he).1
  · exact ⟨h.executed, h.flight, h.waits, h.count, h.sound⟩

/-! ### The kernel -/

/-- The next entry to execute is the head of what is left. -/
theorem sq_eq_cons (he : s.ring.all[s.executed]? = some e) : s.sq = e :: s.ring.all.drop (s.executed + 1) := by
  obtain ⟨hlt, rfl⟩ := List.getElem?_eq_some_iff.mp he
  exact List.drop_eq_getElem_cons hlt

/-- An executed entry leaves the submission queue. -/
theorem execute_inv (h : s.Inv) (hlt : s.executed < s.ring.handed) (he : s.ring.all[s.executed]? = some e)
    {hit : Option ℕ} {res : ℤ} (hs : ({ s with executed := s.executed + 1 } : Runtime).execute e hit res = some s') :
    s'.Inv := by
  have hsq := sq_eq_cons he
  have hf := h.flight
  have hc := h.count
  rw [hsq] at hf hc
  have hok := hf.sqOk e List.mem_cons_self
  unfold execute at hs
  unfold SqeOk at hok
  cases hr : e.request with
  | op kind =>
    rw [hr] at hs
    obtain rfl := Option.some.inj hs
    refine ⟨hlt, hf.execOp kind hr, h.waits, ?_, h.sound⟩
    rw [msgCount, List.countP_cons_of_neg (by simp [Sqe.isMsg, hr])] at hc
    exact hc
  | msgRing =>
    rw [hr] at hs
    obtain rfl := Option.some.inj hs
    refine ⟨hlt, hf.execOther (by simp [Sqe.opTag, hr]), h.waits, ?_, h.sound⟩
    rw [msgCount, List.countP_cons_of_pos (by simp [Sqe.isMsg, hr])] at hc
    change s.pendingWorks = s.handles.length + msgCount (s.ring.all.drop (s.executed + 1)) (s.msgs + 1) s.cq +
      s.waits.length + s.control.extra
    unfold msgCount
    omega
  | cancel target =>
    rw [hr] at hs hok
    have hf := hf.execOther (by simp [Sqe.opTag, hr])
    rw [msgCount, List.countP_cons_of_neg (by simp [Sqe.isMsg, hr])] at hc
    -- The completion of a cancel that failed is ignored.
    have hcq : Flight s.ops (s.ring.all.drop (s.executed + 1)) s.reqs
        (if res < 0 then s.cq ++ [⟨e.userData, res, false, false, .other⟩] else s.cq) s.inbox s.nextTag s.got := by
      split
      · exact hf.cqOther (fun _ => by simp) ⟨0, rfl, .inl hok⟩
      · exact hf
    have hcount : (if res < 0 then s.cq ++ [⟨e.userData, res, false, false, .other⟩] else s.cq).countP Cqe.isMsgDone =
        s.cq.countP Cqe.isMsgDone := by
      have hno : Cqe.isMsgDone ⟨e.userData, res, false, false, .other⟩ = false := by
        rw [hok]
        rfl
      split
      · rw [List.countP_append, List.countP_singleton, hno]
        rfl
      · rfl
    rw [← hcount] at hc
    cases hit with
    | none =>
      obtain ⟨-, hs⟩ := Option.ite_none_right_eq_some.mp hs
      obtain rfl := Option.some.inj hs
      exact ⟨hlt, hcq, h.waits, hc, h.sound⟩
    | some t =>
      obtain ⟨-, hs⟩ := Option.ite_none_right_eq_some.mp hs
      obtain rfl := Option.some.inj hs
      exact ⟨hlt, hcq, h.waits, hc, h.sound⟩

theorem post_inv (h : s.Inv) {tag : ℕ} {res : ℤ} {more notif : Bool} (hs : s.post tag res more notif = some s') :
    s'.Inv := by
  obtain ⟨r, hr, hs⟩ := Option.bind_eq_some_iff.mp hs
  obtain ⟨p, hp, rfl⟩ := Option.map_eq_some_iff.mp hs
  obtain ⟨-, o, ho, -, hu, -⟩ := h.flight.reqsOk tag r hr
  refine ⟨h.executed, h.flight.post hr hp, h.waits, ?_, h.sound⟩
  have hno : Cqe.isMsgDone ⟨r.userData, res, more, notif, .op tag⟩ = false :=
    isMsgDone_eq_false (h.flight.align o ho) hu (.inl (by decide))
  have hc := h.count
  change s.pendingWorks = s.handles.length + msgCount s.sq s.msgs (s.cq ++ [_]) + s.waits.length + s.control.extra
  rw [msgCount, List.countP_append, List.countP_singleton, hno]
  exact hc

theorem deliver_inv (h : s.Inv) {i : ℕ} (hs : step s (.deliver i) = some s') : s'.Inv := by
  obtain ⟨c, hi, rfl⟩ := Option.map_eq_some_iff.mp hs
  have hok := h.flight.inboxOk c (List.mem_of_getElem? hi)
  refine ⟨h.executed, h.flight.deliver hi, h.waits, ?_, h.sound⟩
  have hno : c.isMsgDone = false := decide_eq_false hok.2
  have hc := h.count
  change s.pendingWorks = s.handles.length + msgCount s.sq s.msgs (s.cq ++ [c]) + s.waits.length + s.control.extra
  rw [msgCount, List.countP_append, List.countP_singleton, hno]
  exact hc

theorem postMsg_inv (h : s.Inv) {res : ℤ} (hs : step s (.postMsg res) = some s') : s'.Inv := by
  obtain ⟨hpos, hs⟩ := Option.ite_none_right_eq_some.mp hs
  obtain rfl := Option.some.inj hs
  refine ⟨h.executed, h.flight.cqOther (fun _ => by simp) ⟨0, rfl, .inr rfl⟩, h.waits, ?_, h.sound⟩
  have hc := h.count
  have hone : Cqe.isMsgDone ⟨encodeWork 0 .schedule, res, false, false, .other⟩ = true := rfl
  change s.pendingWorks = s.handles.length + msgCount s.sq (s.msgs - 1) (s.cq ++ [_]) + s.waits.length + s.control.extra
  rw [msgCount, List.countP_append, List.countP_singleton, hone]
  unfold msgCount at hc
  simp only [if_true]
  omega

/-! ### The loop -/

theorem pick_inv (h : s.Inv) (hctl : s.control = .pick) : s.pick.Inv := by
  have hextra : s.control.extra = 0 := by rw [hctl]; rfl
  unfold pick
  cases hl : s.localQueue with
  | cons w ws =>
    have h1 : ({ s with localQueue := ws } : Runtime).Inv := ⟨h.executed, h.flight, h.waits, h.count, h.sound⟩
    obtain ⟨h2, h3⟩ := invoke_inv h1 w
    refine control_inv h2 ?_
    rw [h3]
    exact hextra.symm
  | nil =>
    dsimp only
    split
    · have h1 := control_inv h (k := .idle) hextra.symm
      exact ⟨h1.executed, h1.flight, h1.waits, h1.count, h1.sound⟩
    · have h1 := control_inv (submit_inv h) (k := .wait) hextra.symm
      exact ⟨h1.executed, h1.flight, h1.waits, h1.count, h1.sound⟩

/-- A turn of a loop over the completion queue. -/
theorem reap_cases (hs : step s .reap = some s') : ∃ next, s.control = .reap next ∧
    ((s.cq = [] ∧ s' = { s with control := next.control }) ∨
      ∃ c cs, s.cq = c :: cs ∧ ({ s with cq := cs } : Runtime).processCqe next c = some s') := by
  simp only [step] at hs
  split at hs
  next next hctl hq => exact ⟨next, hctl, .inl ⟨hq, (Option.some.inj hs).symm⟩⟩
  next next c cs hctl hq => exact ⟨next, hctl, .inr ⟨c, cs, hq, hs⟩⟩
  next => nomatch hs

theorem reap_inv (h : s.Inv) (hs : step s .reap = some s') : s'.Inv := by
  obtain ⟨next, hctl, ⟨-, rfl⟩ | ⟨c, cs, hq, hs⟩⟩ := reap_cases hs
  · refine control_inv h ?_
    rw [hctl]
    cases next <;> rfl
  · exact processCqe_inv h hq hctl hs

theorem tick_inv (h : s.Inv) (hctl : s.control = .top) : s.tick.Inv := by
  unfold tick
  split
  · have h1 := control_inv h (k := .reap .pick) (by rw [hctl]; rfl)
    exact ⟨h1.executed, h1.flight, h1.waits, h1.count, h1.sound⟩
  · have h1 := control_inv h (k := .pick) (by rw [hctl]; rfl)
    exact ⟨h1.executed, h1.flight, h1.waits, h1.count, h1.sound⟩

/-- A coroutine starts to wait: one activity more. -/
theorem beginWait_inv {w : ℕ} (h : s.Inv) (hw : s.freshWork w) :
    ({ s.pendWork with waits := s.waits ++ [⟨w, false⟩] } : Runtime).Inv := by
  obtain ⟨halign, hnull, hfresh, -⟩ := hw
  refine ⟨h.executed, h.flight, ?_, ?_, h.sound⟩
  · refine ⟨?_, fun x hx => ?_⟩
    · change ((s.waits ++ [_]).map Wait.ptr).Nodup
      rw [List.map_append]
      exact nodup_snoc h.waits.1 hfresh
    · rcases List.mem_append.mp hx with hx | hx
      · exact h.waits.2 x hx
      · rw [List.mem_singleton.mp hx]
        exact ⟨halign, hnull⟩
  · have hc := h.count
    change s.pendingWorks + 1 =
      s.handles.length + msgCount s.sq s.msgs s.cq + (s.waits ++ [_]).length + s.control.extra
    rw [List.length_append, List.length_singleton]
    omega

/-- A stop request on another thread sends a `cancel` to the runtime. -/
theorem stopSend_inv {addr : ℕ} {g : FinishHandle} (h : s.Inv) (hg : s.handles.find? (·.addr = addr) = some g) :
    ({ s.setCallback addr .sent with inbox := s.inbox ++ [.message addr .cancel (.cancel g.tag)] } : Runtime).Inv := by
  have hga : g.addr = addr := by simpa using List.find?_some hg
  have halign : addr % 8 = 0 :=
    hga ▸ h.flight.align g.toOpInfo (List.mem_map.mpr ⟨g, List.mem_of_find?_eq_some hg, rfl⟩)
  refine send_inv (setCallback_inv h addr .sent) ⟨⟨addr, halign, rfl⟩, fun he => ?_⟩
  exact absurd (encodeWork_inj halign (by decide) he).2 (by decide)

/-- **Step lemma.** -/
theorem step_inv (op : Op) (h : s.Inv) (hs : step s op = some s') : s'.Inv := by
  cases op with
  | run =>
    obtain ⟨hctl, hs⟩ := Option.ite_none_left_eq_some.mp hs
    rw [ne_eq, not_not] at hctl
    split at hs
    · obtain rfl := Option.some.inj hs
      exact control_inv h (by rw [hctl]; rfl)
    · obtain rfl := Option.some.inj hs
      have h1 := control_inv h (k := .top) (by rw [hctl]; rfl)
      exact ⟨h1.executed, h1.flight, h1.waits, h1.count, h1.sound⟩
  | tick =>
    obtain ⟨hctl, hs⟩ := Option.ite_none_right_eq_some.mp hs
    obtain rfl := Option.some.inj hs
    exact tick_inv h hctl
  | pick =>
    obtain ⟨hctl, hs⟩ := Option.ite_none_right_eq_some.mp hs
    obtain rfl := Option.some.inj hs
    exact pick_inv h hctl
  | waitReturn =>
    obtain ⟨⟨hctl, -⟩, hs⟩ := Option.ite_none_right_eq_some.mp hs
    obtain rfl := Option.some.inj hs
    exact control_inv h (by rw [hctl]; rfl)
  | reap => exact reap_inv h hs
  | start addr kind stopRequested prepFails stopPossible =>
    obtain ⟨-, hs⟩ := Option.ite_none_right_eq_some.mp hs
    exact start_inv h hs
  | sendMsg submit =>
    obtain ⟨-, hs⟩ := Option.ite_none_right_eq_some.mp hs
    obtain ⟨u, hu, rfl⟩ := Option.map_eq_some_iff.mp hs
    have h1 := scheduleMsgRing_inv h hu
    split
    · exact submit_inv h1
    · exact h1
  | requestStop addr =>
    obtain ⟨-, hs⟩ := Option.ite_none_right_eq_some.mp hs
    obtain ⟨u, hu, rfl⟩ := Option.map_eq_some_iff.mp hs
    obtain ⟨g, -, hu⟩ := Option.bind_eq_some_iff.mp hu
    exact setCallback_inv (prepCancel_inv h hu) addr .ran
  | schedule w =>
    obtain ⟨-, hs⟩ := Option.ite_none_right_eq_some.mp hs
    obtain rfl := Option.some.inj hs
    exact ⟨h.executed, h.flight, h.waits, h.count, h.sound⟩
  | beginWait w =>
    obtain ⟨⟨-, hw⟩, hs⟩ := Option.ite_none_right_eq_some.mp hs
    obtain rfl := Option.some.inj hs
    exact beginWait_inv h hw
  | joinFinished =>
    obtain ⟨-, hs⟩ := Option.ite_none_right_eq_some.mp hs
    obtain rfl := Option.some.inj hs
    exact h
  | wake w =>
    obtain ⟨-, hs⟩ := Option.ite_none_right_eq_some.mp hs
    obtain rfl := Option.some.inj hs
    have h1 := setWoken_inv h w
    exact ⟨h1.executed, h1.flight, h1.waits, h1.count, h1.sound⟩
  | ret => exact ret_inv h hs
  | allowExit =>
    obtain rfl := Option.some.inj hs
    exact ⟨h.executed, h.flight, h.waits, h.count, h.sound⟩
  | remoteSchedule w =>
    obtain ⟨hw, hs⟩ := Option.ite_none_right_eq_some.mp hs
    obtain rfl := Option.some.inj hs
    exact remotePush_inv h hw.1 hw.2.1
  | remoteWake w =>
    obtain ⟨hw, hs⟩ := Option.ite_none_right_eq_some.mp hs
    obtain rfl := Option.some.inj hs
    obtain ⟨halign, hnull⟩ := h.waits.2 ⟨w, false⟩ hw
    exact remotePush_inv (setWoken_inv h w) halign hnull
  | remoteWakeup =>
    obtain ⟨-, hs⟩ := Option.ite_none_right_eq_some.mp hs
    obtain rfl := Option.some.inj hs
    exact send_inv h ⟨⟨0, rfl, .inl rfl⟩, by decide⟩
  | remoteStopBegin addr =>
    obtain ⟨-, hs⟩ := Option.ite_none_right_eq_some.mp hs
    obtain rfl := Option.some.inj hs
    exact setCallback_inv h addr .running
  | remoteStopSend addr =>
    obtain ⟨-, hs⟩ := Option.ite_none_right_eq_some.mp hs
    obtain ⟨g, hg, rfl⟩ := Option.map_eq_some_iff.mp hs
    exact stopSend_inv h hg
  | remoteStopEnd addr =>
    obtain ⟨-, hs⟩ := Option.ite_none_right_eq_some.mp hs
    obtain rfl := Option.some.inj hs
    exact setCallback_inv h addr .ran
  | deliver i => exact deliver_inv h hs
  | exec hit res =>
    obtain ⟨hlt, hs⟩ := Option.ite_none_right_eq_some.mp hs
    obtain ⟨e, he, hs⟩ := Option.bind_eq_some_iff.mp hs
    exact execute_inv h hlt he hs
  | post tag res more notif => exact post_inv h hs
  | postMsg res => exact postMsg_inv h hs

end

end Runtime

end Condy
