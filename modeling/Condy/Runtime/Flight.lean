import Condy.Lib.Tickets
import Condy.Runtime.Model

/-!
# Condy.Runtime.Flight — the operations in flight

A started operation has a finish handle, and the kernel knows it by an entry that it has still to execute, by a request
in execution, or by nothing more than completions that it has posted.  `Flight` ties these together.  Its main clause
is `track`: the handle is behind the kernel by exactly the completions of the operation that are in the queue, so that
feeding these to the contract `OpKind.emit` leads from the phase of the handle to the phase of the kernel.

The lemmas say what each kind of transition does to `Flight`; they are about the components of a state, not about
steps.
-/

namespace Condy

open Lib

/-! ## Phases -/

/-- The phase after a sequence of completions, given by their flags. -/
def OpKind.emits (k : OpKind) : Phase → List (Bool × Bool) → Option Phase
  | p, [] => some p
  | p, f :: fs => (k.emit p f.1 f.2).bind fun q => k.emits q fs

theorem OpKind.emits_append (k : OpKind) (fs gs : List (Bool × Bool)) (p : Phase) :
    k.emits p (fs ++ gs) = (k.emits p fs).bind fun q => k.emits q gs := by
  induction fs generalizing p with
  | nil => rfl
  | cons f fs ih =>
    rw [List.cons_append, emits, emits]
    cases k.emit p f.1 f.2 with
    | none => rfl
    | some q => exact ih q

theorem OpKind.emit_ended (k : OpKind) (more notif : Bool) : k.emit .ended more notif = none := by
  cases k <;> cases more <;> cases notif <;> rfl

/-- After the last completion nothing comes. -/
theorem OpKind.emits_ended {k : OpKind} {fs : List (Bool × Bool)} {p : Phase} (h : k.emits .ended fs = some p) :
    fs = [] ∧ p = .ended := by
  cases fs with
  | nil => exact ⟨rfl, (Option.some.inj h).symm⟩
  | cons f fs =>
    rw [emits, k.emit_ended] at h
    nomatch h

/-- **What a finish handle does on a completion that the contract allows**: `finish_` runs when the operation leaves the
phase `ready`, and `true` is returned when it has ended. -/
theorem OpKind.handle_eq {k : OpKind} {p q : Phase} {more notif : Bool} (h : k.emit p more notif = some q) :
    k.handle more notif = (decide (p = .ready ∧ q ≠ .ready), decide (q = .ended)) := by
  revert h
  cases k <;> cases p <;> cases more <;> cases notif <;> cases q <;> decide

/-- A phase that is left for good only by ending. -/
theorem OpKind.emit_cases {k : OpKind} {p q : Phase} {more notif : Bool} (h : k.emit p more notif = some q) :
    q = .ended ∨ q = .sent ∧ p = .ready ∨ q = .ready ∧ p = .ready := by
  revert h
  cases k <;> cases p <;> cases more <;> cases notif <;> cases q <;> decide

/-! ## What is where -/

def OpInfo.sqe (o : OpInfo) : Sqe := ⟨encodeWork o.addr .common, .op o.kind, o.tag⟩

/-- The operation that an entry starts. -/
def Sqe.opTag (e : Sqe) : Option ℕ :=
  match e.request with
  | .op _ => some e.tag
  | _ => none

def Sqe.isMsg (e : Sqe) : Bool := decide (e.request = .msgRing)

/-- The operations whose entry the kernel has still to execute. -/
def sqTags (sq : List Sqe) : List ℕ := sq.filterMap Sqe.opTag

def Cqe.flagsOf (tag : ℕ) (c : Cqe) : Option (Bool × Bool) :=
  if c.origin = .op tag then some (c.more, c.notif) else none

/-- The flags of the completions of an operation in the queue. -/
def stream (cq : List Cqe) (tag : ℕ) : List (Bool × Bool) := cq.filterMap (Cqe.flagsOf tag)

/-- An operation whose receiver was called waits at most for its notification. -/
def handlePhase (got : List ℕ) (tag : ℕ) : Phase := if tag ∈ got then .sent else .ready

def kernelPhase (sq : List Sqe) (reqs : ℕ → Option Req) (tag : ℕ) : Phase :=
  match reqs tag with
  | some r => r.phase
  | none => if tag ∈ sqTags sq then .ready else .ended

/-- An entry is that of a started operation, a message or a cancel. -/
def SqeOk (ops : List OpInfo) (e : Sqe) : Prop :=
  match e.request with
  | .op _ => ∃ o ∈ ops, e = o.sqe
  | .msgRing => e.userData = encodeWork 0 .schedule
  | .cancel _ => e.userData = encodeWork 0 .ignore

/-- A completion is that of a started operation, a cancel message, or of neither. -/
def CqeOk (ops : List OpInfo) (c : Cqe) : Prop :=
  match c.origin with
  | .op tag => ∃ o ∈ ops, o.tag = tag ∧ c.userData = encodeWork o.addr .common
  | .cancel _ => ∃ a, a % 8 = 0 ∧ c.userData = encodeWork a .cancel
  | .other => ∃ w, w % 8 = 0 ∧ (c.userData = encodeWork w .ignore ∨ c.userData = encodeWork w .schedule)

/-- A message of another thread, which is never taken for the end of an own message. -/
def MsgOk (c : Cqe) : Prop := CqeOk [] c ∧ c.userData ≠ encodeWork 0 .schedule

structure Flight (ops : List OpInfo) (sq : List Sqe) (reqs : ℕ → Option Req) (cq inbox : List Cqe) (next : ℕ)
    (got : List ℕ) : Prop where
  addrs : (ops.map OpInfo.addr).Nodup
  tags : (ops.map OpInfo.tag).Nodup
  align : ∀ o ∈ ops, o.addr % 8 = 0
  bound : ∀ o ∈ ops, o.tag < next
  sqOk : ∀ e ∈ sq, SqeOk ops e
  sqNodup : (sqTags sq).Nodup
  sqReqs : ∀ t ∈ sqTags sq, reqs t = none
  reqsOk : ∀ t r, reqs t = some r → r.phase ≠ .ended ∧
    ∃ o ∈ ops, o.tag = t ∧ r.userData = encodeWork o.addr .common ∧ r.kind = o.kind
  cqOk : ∀ c ∈ cq, CqeOk ops c
  inboxOk : ∀ c ∈ inbox, MsgOk c
  track : ∀ o ∈ ops, o.kind.emits (handlePhase got o.tag) (stream cq o.tag) = some (kernelPhase sq reqs o.tag)
  gotNodup : got.Nodup
  gotBound : ∀ t ∈ got, t < next
  gotAll : ∀ t < next, t ∉ got → ∃ o ∈ ops, o.tag = t

theorem flight_nil : Flight [] [] (fun _ => none) [] [] 0 [] where
  addrs := List.nodup_nil
  tags := List.nodup_nil
  align := fun _ h => nomatch h
  bound := fun _ h => nomatch h
  sqOk := fun _ h => nomatch h
  sqNodup := List.nodup_nil
  sqReqs := fun _ _ => rfl
  reqsOk := fun _ _ h => nomatch h
  cqOk := fun _ h => nomatch h
  inboxOk := fun _ h => nomatch h
  track := fun _ h => nomatch h
  gotNodup := List.nodup_nil
  gotBound := fun _ h => nomatch h
  gotAll := fun _ h => nomatch h

section

variable {ops ops' : List OpInfo} {o : OpInfo} {sq : List Sqe} {e : Sqe} {c : Cqe} {t : ℕ}

theorem SqeOk.mono (h : SqeOk ops e) (hs : ∀ o ∈ ops, e.opTag = some o.tag → o ∈ ops') : SqeOk ops' e := by
  unfold SqeOk at h ⊢
  cases hr : e.request with
  | op k =>
    rw [hr] at h
    obtain ⟨o, ho, rfl⟩ := h
    exact ⟨o, hs o ho rfl, rfl⟩
  | msgRing => rwa [hr] at h
  | cancel a => rwa [hr] at h

theorem CqeOk.mono (h : CqeOk ops c) (hs : ∀ o ∈ ops, c.origin = .op o.tag → o ∈ ops') : CqeOk ops' c := by
  unfold CqeOk at h ⊢
  cases hr : c.origin with
  | op t =>
    rw [hr] at h
    obtain ⟨o, ho, rfl, hu⟩ := h
    exact ⟨o, hs o ho hr, rfl, hu⟩
  | cancel t => rwa [hr] at h
  | other => rwa [hr] at h

/-- A message is of no operation. -/
theorem MsgOk.origin_ne (h : MsgOk c) (t : ℕ) : c.origin ≠ .op t := by
  intro ho
  have := h.1
  unfold CqeOk at this
  rw [ho] at this
  obtain ⟨o, ho, -⟩ := this
  nomatch ho

theorem mem_sqTags : t ∈ sqTags sq ↔ ∃ e ∈ sq, e.opTag = some t := List.mem_filterMap

@[simp] theorem sqTags_cons (e : Sqe) : sqTags (e :: sq) = e.opTag.toList ++ sqTags sq := by
  unfold sqTags
  cases h : e.opTag with
  | none => rw [List.filterMap_cons_none h]; rfl
  | some t => rw [List.filterMap_cons_some h]; rfl

@[simp] theorem sqTags_snoc (e : Sqe) : sqTags (sq ++ [e]) = sqTags sq ++ e.opTag.toList := by
  unfold sqTags
  rw [List.filterMap_append]
  cases h : e.opTag with
  | none => rw [List.filterMap_cons_none h]; rfl
  | some t => rw [List.filterMap_cons_some h]; rfl

theorem SqeOk.opTag_mem (h : SqeOk ops e) (ht : e.opTag = some t) : ∃ o ∈ ops, e = o.sqe ∧ o.tag = t := by
  unfold SqeOk at h
  unfold Sqe.opTag at ht
  cases hr : e.request with
  | op k =>
    rw [hr] at h ht
    obtain ⟨o, ho, rfl⟩ := h
    exact ⟨o, ho, rfl, Option.some.inj ht⟩
  | msgRing => rw [hr] at ht; nomatch ht
  | cancel a => rw [hr] at ht; nomatch ht

end

namespace Flight

variable {ops : List OpInfo} {sq : List Sqe} {reqs : ℕ → Option Req} {cq inbox : List Cqe} {next : ℕ} {got : List ℕ}
  {e : Sqe} {c : Cqe} {o : OpInfo} {t : ℕ} {p : Phase}

theorem eq_of_tag (h : Flight ops sq reqs cq inbox next got) {o o' : OpInfo} (ho : o ∈ ops) (ho' : o' ∈ ops)
    (ht : o.tag = o'.tag) : o = o' := List.inj_on_of_nodup_map h.tags ho ho' ht

theorem eq_of_addr (h : Flight ops sq reqs cq inbox next got) {o o' : OpInfo} (ho : o ∈ ops) (ho' : o' ∈ ops)
    (ha : o.addr = o'.addr) : o = o' := List.inj_on_of_nodup_map h.addrs ho ho' ha

/-- A number that no operation has got yet is nowhere. -/
theorem fresh (h : Flight ops sq reqs cq inbox next got) :
    next ∉ sqTags sq ∧ reqs next = none ∧ stream cq next = [] ∧ next ∉ got := by
  refine ⟨fun ht => ?_, ?_, ?_, fun ht => absurd (h.gotBound next ht) (Nat.lt_irrefl next)⟩
  · obtain ⟨e, he, ht⟩ := mem_sqTags.mp ht
    obtain ⟨o, ho, -, hot⟩ := (h.sqOk e he).opTag_mem ht
    have := h.bound o ho
    omega
  · cases hr : reqs next with
    | none => rfl
    | some r =>
      obtain ⟨-, o, ho, hot, -⟩ := h.reqsOk next r hr
      have := h.bound o ho
      omega
  · refine List.filterMap_eq_nil_iff.mpr (fun c hc => ?_)
    refine if_neg (fun horigin => ?_)
    have hok := h.cqOk c hc
    unfold CqeOk at hok
    rw [horigin] at hok
    obtain ⟨o, ho, hot, -⟩ := hok
    have := h.bound o ho
    omega

/-! ### Starting -/

/-- A start that fails counts as received and leaves nothing behind. -/
theorem startFails (h : Flight ops sq reqs cq inbox next got) :
    Flight ops sq reqs cq inbox (next + 1) (got ++ [next]) := by
  have hfresh := h.fresh
  refine { h with
    bound := fun o ho => Nat.lt_succ_of_lt (h.bound o ho)
    track := fun o ho => ?_
    gotNodup := nodup_snoc h.gotNodup hfresh.2.2.2
    gotBound := forall_mem_snoc (fun t ht => Nat.lt_succ_of_lt (h.gotBound t ht)) (Nat.lt_succ_self next)
    gotAll := fun t ht hg => ?_ }
  · have hne : o.tag ≠ next := Nat.ne_of_lt (h.bound o ho)
    have := h.track o ho
    simpa [handlePhase, hne] using this
  · rw [List.mem_append, List.mem_singleton, not_or] at hg
    exact h.gotAll t (by omega) hg.1

theorem start (h : Flight ops sq reqs cq inbox next got) (ho : o.tag = next) (ha : o.addr % 8 = 0)
    (hn : o.addr ∉ ops.map OpInfo.addr) : Flight (ops ++ [o]) (sq ++ [o.sqe]) reqs cq inbox (next + 1) got := by
  subst ho
  obtain ⟨hsq, hreq, hstr, hgot⟩ := h.fresh
  have hnt : o.tag ∉ ops.map OpInfo.tag := by
    intro hm
    obtain ⟨o', ho', he⟩ := List.mem_map.mp hm
    have := h.bound o' ho'
    omega
  have hsub : ∀ o' ∈ ops, o' ∈ ops ++ [o] := fun o' ho' => List.mem_append_left _ ho'
  have htags : sqTags (sq ++ [o.sqe]) = sqTags sq ++ [o.tag] := sqTags_snoc o.sqe
  refine
    { addrs := ?_, tags := ?_, align := forall_mem_snoc h.align ha
      bound := forall_mem_snoc (fun o' ho' => Nat.lt_succ_of_lt (h.bound o' ho')) (Nat.lt_succ_self _)
      sqOk := ?_, sqNodup := ?_, sqReqs := ?_, reqsOk := fun t r hr => ?_
      cqOk := fun c hc => (h.cqOk c hc).mono (fun o' ho' _ => hsub o' ho'), inboxOk := h.inboxOk, track := ?_
      gotNodup := h.gotNodup, gotBound := fun t ht => Nat.lt_succ_of_lt (h.gotBound t ht)
      gotAll := fun t ht hg => ?_ }
  · rw [List.map_append]
    exact nodup_snoc h.addrs hn
  · rw [List.map_append]
    exact nodup_snoc h.tags hnt
  · exact forall_mem_snoc (fun e he => (h.sqOk e he).mono (fun o' ho' _ => hsub o' ho')) ⟨o, by simp, rfl⟩
  · rw [htags]
    exact nodup_snoc h.sqNodup hsq
  · rw [htags]
    exact forall_mem_snoc h.sqReqs hreq
  · obtain ⟨hp, o', ho', hr'⟩ := h.reqsOk t r hr
    exact ⟨hp, o', hsub o' ho', hr'⟩
  · refine forall_mem_snoc (fun o' ho' => ?_) ?_
    · have hne : o'.tag ≠ o.tag := Nat.ne_of_lt (h.bound o' ho')
      have := h.track o' ho'
      unfold kernelPhase at this ⊢
      simpa [htags, hne] using this
    · simp [handlePhase, hgot, hstr, kernelPhase, hreq, htags, OpKind.emits]
  · rcases Nat.lt_succ_iff_lt_or_eq.mp ht with ht | rfl
    · obtain ⟨o', ho', he⟩ := h.gotAll t ht hg
      exact ⟨o', hsub o' ho', he⟩
    · exact ⟨o, by simp, rfl⟩

/-! ### Entries and messages that are of no operation -/

theorem queueOther (h : Flight ops sq reqs cq inbox next got) (he : e.opTag = none) (hok : SqeOk ops e) :
    Flight ops (sq ++ [e]) reqs cq inbox next got := by
  have htags : sqTags (sq ++ [e]) = sqTags sq := by
    rw [sqTags_snoc, he]
    exact List.append_nil _
  refine { h with
    sqOk := forall_mem_snoc h.sqOk hok
    sqNodup := htags ▸ h.sqNodup
    sqReqs := fun t ht => h.sqReqs t (htags ▸ ht)
    track := fun o ho => ?_ }
  have := h.track o ho
  unfold kernelPhase at this ⊢
  rwa [htags]

theorem execOther (h : Flight ops (e :: sq) reqs cq inbox next got) (he : e.opTag = none) :
    Flight ops sq reqs cq inbox next got := by
  have htags : sqTags (e :: sq) = sqTags sq := by
    rw [sqTags_cons, he]
    rfl
  refine { h with
    sqOk := fun x hx => h.sqOk x (List.mem_cons_of_mem e hx)
    sqNodup := htags ▸ h.sqNodup
    sqReqs := fun t ht => h.sqReqs t (htags ▸ ht)
    track := fun o ho => ?_ }
  have := h.track o ho
  unfold kernelPhase at this ⊢
  rwa [htags] at this

theorem stream_snoc_other {cq : List Cqe} (hc : ∀ t, c.origin ≠ .op t) (t : ℕ) :
    stream (cq ++ [c]) t = stream cq t := by
  have : [c].filterMap (Cqe.flagsOf t) = [] := by simp [Cqe.flagsOf, hc]
  rw [stream, List.filterMap_append, this, List.append_nil]
  rfl

theorem cqOther (h : Flight ops sq reqs cq inbox next got) (hc : ∀ t, c.origin ≠ .op t) (hok : CqeOk ops c) :
    Flight ops sq reqs (cq ++ [c]) inbox next got := by
  refine { h with cqOk := forall_mem_snoc h.cqOk hok, track := fun o ho => ?_ }
  rw [stream_snoc_other hc]
  exact h.track o ho

theorem reapOther (h : Flight ops sq reqs (c :: cq) inbox next got) (hc : ∀ t, c.origin ≠ .op t) :
    Flight ops sq reqs cq inbox next got := by
  refine { h with cqOk := fun x hx => h.cqOk x (List.mem_cons_of_mem c hx), track := fun o ho => ?_ }
  have := h.track o ho
  have hs : stream (c :: cq) o.tag = stream cq o.tag :=
    List.filterMap_cons_none (if_neg (hc o.tag))
  rwa [hs] at this

theorem send (h : Flight ops sq reqs cq inbox next got) (hc : MsgOk c) :
    Flight ops sq reqs cq (inbox ++ [c]) next got :=
  { h with inboxOk := forall_mem_snoc h.inboxOk hc }

theorem deliver (h : Flight ops sq reqs cq inbox next got) {i : ℕ} (hi : inbox[i]? = some c) :
    Flight ops sq reqs (cq ++ [c]) (inbox.eraseIdx i) next got := by
  have hc := h.inboxOk c (List.mem_of_getElem? hi)
  have h1 := h.cqOther hc.origin_ne (hc.1.mono (fun _ ho => nomatch ho))
  exact { h1 with inboxOk := fun x hx => h.inboxOk x (List.mem_of_mem_eraseIdx hx) }

/-! ### The kernel -/

/-- An executed entry becomes a request. -/
theorem execOp (h : Flight ops (e :: sq) reqs cq inbox next got) (k : OpKind) (he : e.request = .op k) :
    Flight ops sq (Function.update reqs e.tag (some ⟨e.userData, k, .ready⟩)) cq inbox next got := by
  have htag : e.opTag = some e.tag := by
    unfold Sqe.opTag
    rw [he]
  have htags : sqTags (e :: sq) = e.tag :: sqTags sq := by
    rw [sqTags_cons, htag]
    rfl
  obtain ⟨hnot, hnd⟩ := List.nodup_cons.mp (htags ▸ h.sqNodup)
  obtain ⟨o, ho, heo, hot⟩ := (h.sqOk e List.mem_cons_self).opTag_mem htag
  have hnone : reqs e.tag = none := h.sqReqs e.tag (by simp [htags])
  refine { h with
    sqOk := fun x hx => h.sqOk x (List.mem_cons_of_mem e hx)
    sqNodup := hnd
    sqReqs := fun t ht => ?_
    reqsOk := fun t r hr => ?_
    track := fun o' ho' => ?_ }
  · have hne : t ≠ e.tag := fun hte => hnot (hte ▸ ht)
    rw [Function.update_of_ne hne]
    exact h.sqReqs t (by simp [htags, ht])
  · by_cases hte : t = e.tag
    · subst hte
      rw [Function.update_self] at hr
      obtain rfl := Option.some.inj hr
      refine ⟨by simp, o, ho, hot, ?_, ?_⟩
      · rw [heo]; rfl
      · have : Request.op k = .op o.kind := by rw [← he, heo]; rfl
        exact Request.op.inj this
    · rw [Function.update_of_ne hte] at hr
      exact h.reqsOk t r hr
  · have htr := h.track o' ho'
    unfold kernelPhase at htr ⊢
    by_cases hte : o'.tag = e.tag
    · rw [hte] at htr ⊢
      rw [Function.update_self]
      simpa [hnone, htags] using htr
    · rw [Function.update_of_ne hte]
      simpa [htags, hte] using htr

/-- The kernel posts a completion. -/
theorem post (h : Flight ops sq reqs cq inbox next got) {r : Req} {res : ℤ} {more notif : Bool} (hr : reqs t = some r)
    (hp : r.kind.emit r.phase more notif = some p) :
    Flight ops sq (Function.update reqs t (if p = .ended then none else some { r with phase := p }))
      (cq ++ [⟨r.userData, res, more, notif, .op t⟩]) inbox next got := by
  obtain ⟨-, o, ho, rfl, hu, hk⟩ := h.reqsOk t r hr
  have hnsq : o.tag ∉ sqTags sq := fun ht => by
    rw [h.sqReqs o.tag ht] at hr
    nomatch hr
  refine { h with
    sqReqs := fun t ht => ?_
    reqsOk := fun t r' hr' => ?_
    cqOk := forall_mem_snoc h.cqOk ⟨o, ho, rfl, hu⟩
    track := fun o' ho' => ?_ }
  · have hne : t ≠ o.tag := fun hte => hnsq (hte ▸ ht)
    rw [Function.update_of_ne hne]
    exact h.sqReqs t ht
  · by_cases hte : t = o.tag
    · subst hte
      rw [Function.update_self] at hr'
      obtain ⟨hne, hr'⟩ := Option.ite_none_left_eq_some.mp hr'
      obtain rfl := Option.some.inj hr'
      exact ⟨hne, o, ho, rfl, hu, hk⟩
    · rw [Function.update_of_ne hte] at hr'
      exact h.reqsOk t r' hr'
  · have htr := h.track o' ho'
    by_cases hte : o'.tag = o.tag
    · obtain rfl := h.eq_of_tag ho' ho hte
      have hphase : kernelPhase sq reqs o'.tag = r.phase := by
        rw [kernelPhase, hr]
      have hstr : stream (cq ++ [⟨r.userData, res, more, notif, .op o'.tag⟩]) o'.tag =
          stream cq o'.tag ++ [(more, notif)] := by
        simp [stream, Cqe.flagsOf]
      rw [hphase] at htr
      rw [hstr, OpKind.emits_append, htr, Option.bind_some, ← hk]
      simp only [OpKind.emits, hp, Option.bind_some]
      unfold kernelPhase
      rw [Function.update_self]
      by_cases hend : p = .ended
      · simp [hend, hnsq]
      · simp [hend]
    · have hstr : stream (cq ++ [⟨r.userData, res, more, notif, .op o.tag⟩]) o'.tag = stream cq o'.tag := by
        simp [stream, Cqe.flagsOf, Ne.symm hte]
      rw [hstr]
      unfold kernelPhase at htr ⊢
      rwa [Function.update_of_ne hte]

/-! ### Reaping -/

/-- The head of the completion queue is of operation `o`: the phases that its flags connect. -/
theorem head_phase (h : Flight ops sq reqs (c :: cq) inbox next got) (ho : o ∈ ops) (hc : c.origin = .op o.tag) :
    ∃ q, o.kind.emit (handlePhase got o.tag) c.more c.notif = some q ∧
      o.kind.emits q (stream cq o.tag) = some (kernelPhase sq reqs o.tag) := by
  have htr := h.track o ho
  have hs : stream (c :: cq) o.tag = (c.more, c.notif) :: stream cq o.tag :=
    List.filterMap_cons_some (if_pos hc)
  rw [hs, OpKind.emits] at htr
  exact Option.bind_eq_some_iff.mp htr

/-- The phase of the handle after the completion at the head of the queue. -/
theorem reapMore (h : Flight ops sq reqs (c :: cq) inbox next got) (ho : o ∈ ops) (hc : c.origin = .op o.tag)
    (hq : o.kind.emit (handlePhase got o.tag) c.more c.notif = some p) (hne : p ≠ .ended) {got' : List ℕ}
    (hg : got' = if handlePhase got o.tag = .ready ∧ p ≠ .ready then got ++ [o.tag] else got) :
    Flight ops sq reqs cq inbox next got' := by
  obtain ⟨q, hq', hrest⟩ := h.head_phase ho hc
  obtain rfl := Option.some.inj (hq.symm.trans hq')
  have hcases := OpKind.emit_cases hq
  have hnew : handlePhase got' o.tag = p := by
    rcases hcases with rfl | ⟨rfl, hp⟩ | ⟨rfl, hp⟩
    · exact absurd rfl hne
    · rw [hg, if_pos ⟨hp, by simp⟩]
      simp [handlePhase]
    · rw [hg, if_neg (by simp), hp]
  have hother : ∀ t, t ≠ o.tag → (t ∈ got' ↔ t ∈ got) := by
    intro t ht
    rw [hg]
    split
    · simp [ht]
    · rfl
  refine { h with
    cqOk := fun x hx => h.cqOk x (List.mem_cons_of_mem c hx)
    track := fun o' ho' => ?_
    gotNodup := ?_
    gotBound := ?_
    gotAll := fun t ht hn => ?_ }
  · by_cases hte : o'.tag = o.tag
    · obtain rfl := h.eq_of_tag ho' ho hte
      rwa [hnew]
    · have htr := h.track o' ho'
      have hs : stream (c :: cq) o'.tag = stream cq o'.tag :=
        List.filterMap_cons_none (if_neg (by rw [hc]; simpa using Ne.symm hte))
      rw [hs] at htr
      unfold handlePhase at htr ⊢
      simpa only [hother o'.tag hte] using htr
  · rw [hg]
    split_ifs with hr
    · refine nodup_snoc h.gotNodup (fun hm => ?_)
      simp [handlePhase, hm] at hr
    · exact h.gotNodup
  · rw [hg]
    split_ifs
    · exact forall_mem_snoc h.gotBound (h.bound o ho)
    · exact h.gotBound
  · by_cases hte : t = o.tag
    · exact ⟨o, ho, hte.symm⟩
    · exact h.gotAll t ht (fun hm => hn ((hother t hte).mpr hm))

/-- After the last completion the kernel knows nothing of the operation. -/
theorem reapLast (h : Flight ops sq reqs (c :: cq) inbox next got) (ho : o ∈ ops) (hc : c.origin = .op o.tag)
    (hq : o.kind.emit (handlePhase got o.tag) c.more c.notif = some .ended) {got' : List ℕ}
    (hg : got' = if handlePhase got o.tag = .ready then got ++ [o.tag] else got) :
    Flight (ops.filter (fun g => g.addr ≠ o.addr)) sq reqs cq inbox next got' := by
  obtain ⟨q, hq', hrest⟩ := h.head_phase ho hc
  obtain rfl := Option.some.inj (hq.symm.trans hq')
  obtain ⟨hnil, hend⟩ := OpKind.emits_ended hrest
  have hreq : reqs o.tag = none := by
    cases hr : reqs o.tag with
    | none => rfl
    | some r =>
      rw [kernelPhase, hr] at hend
      exact absurd hend (h.reqsOk o.tag r hr).1
  have hnsq : o.tag ∉ sqTags sq := by
    intro hm
    simp [kernelPhase, hreq, hm] at hend
  have hmem : ∀ o' ∈ ops, o'.tag ≠ o.tag → o' ∈ ops.filter (fun g => g.addr ≠ o.addr) := by
    intro o' ho' hne
    refine List.mem_filter.mpr ⟨ho', ?_⟩
    simpa using fun ha => hne (congrArg OpInfo.tag (h.eq_of_addr ho' ho ha))
  have hsub : ∀ o' ∈ ops.filter (fun g => g.addr ≠ o.addr), o' ∈ ops ∧ o'.tag ≠ o.tag := by
    intro o' ho'
    obtain ⟨ho', ha⟩ := List.mem_filter.mp ho'
    refine ⟨ho', fun ht => ?_⟩
    obtain rfl := h.eq_of_tag ho' ho ht
    simp at ha
  have hother : ∀ t, t ≠ o.tag → (t ∈ got' ↔ t ∈ got) := by
    intro t ht
    rw [hg]
    split
    · simp [ht]
    · rfl
  have hgot : o.tag ∈ got' := by
    by_cases hm : o.tag ∈ got
    · simp [hg, handlePhase, hm]
    · simp [hg, handlePhase, hm]
  refine
    { addrs := h.addrs.sublist (List.filter_sublist.map _), tags := h.tags.sublist (List.filter_sublist.map _)
      align := fun o' ho' => h.align o' (hsub o' ho').1, bound := fun o' ho' => h.bound o' (hsub o' ho').1
      sqOk := fun e he => ?_, sqNodup := h.sqNodup, sqReqs := h.sqReqs, reqsOk := fun t r hr => ?_
      cqOk := fun x hx => ?_, inboxOk := h.inboxOk, track := fun o' ho' => ?_, gotNodup := ?_
      gotBound := fun t ht => ?_, gotAll := fun t ht hn => ?_ }
  · refine (h.sqOk e he).mono (fun o' ho' ht => hmem o' ho' (fun hte => ?_))
    exact hnsq (mem_sqTags.mpr ⟨e, he, hte ▸ ht⟩)
  · obtain ⟨hp, o', ho', ht, hrest⟩ := h.reqsOk t r hr
    refine ⟨hp, o', hmem o' ho' (fun hte => ?_), ht, hrest⟩
    rw [← ht, hte, hreq] at hr
    nomatch hr
  · refine (h.cqOk x (List.mem_cons_of_mem c hx)).mono (fun o' ho' horig => hmem o' ho' (fun hte => ?_))
    have : (x.more, x.notif) ∈ stream cq o.tag :=
      List.mem_filterMap.mpr ⟨x, hx, if_pos (hte ▸ horig)⟩
    rw [hnil] at this
    nomatch this
  · obtain ⟨ho', hte⟩ := hsub o' ho'
    have htr := h.track o' ho'
    have hs : stream (c :: cq) o'.tag = stream cq o'.tag :=
      List.filterMap_cons_none (if_neg (by rw [hc]; simpa using Ne.symm hte))
    rw [hs] at htr
    unfold handlePhase at htr ⊢
    simpa only [hother o'.tag hte] using htr
  · rw [hg]
    split_ifs with hr
    · refine nodup_snoc h.gotNodup (fun hm => ?_)
      simp [handlePhase, hm] at hr
    · exact h.gotNodup
  · by_cases hte : t = o.tag
    · rw [hte]
      exact h.bound o ho
    · exact h.gotBound t ((hother t hte).mp ht)
  · have hte : t ≠ o.tag := fun hte => hn (hte ▸ hgot)
    obtain ⟨o', ho', ht'⟩ := h.gotAll t ht (fun hm => hn ((hother t hte).mpr hm))
    exact ⟨o', hmem o' ho' (ht' ▸ hte), ht'⟩

end Flight

end Condy
