import Condy.Runtime.Frame

/-!
# Condy.Runtime.Callbacks — what the finish handles call

The three finish handles of `detail/finish_handles.hpp` with the user code that they call: the receiver, which is moved
from when it is called, the function of a multi-shot operation, and the free function of a zero-copy operation, after
which the handle deletes itself.  `Condy.Runtime.Model` keeps of `handle_impl_` only whether it calls the receiver and
what it returns; `Callbacks` runs the handles themselves beside a runtime.

`Delivered` lists what an operation may have called, by its kind and by how far it is.  A completion that the contract of
`io_uring` allows leads from one line of the list to another (`Delivered.handle`), and the runtime hands a finish handle
the completions of its operation and no others (`Fed`), so that every operation of every run is in the list
(`callbacks_delivered`).
-/

namespace Condy

open Lib

inductive Call (ρ : Type) where
  | func (r : ρ)
  | receiver (r : ρ)
  | freeFunc (res : ℤ)
deriving DecidableEq, Repr

/-- A finish handle.  `fault` is set when it is used after `delete this`, and when its receiver is called again. -/
structure Caller (ρ : Type) where
  kind : OpKind
  moved : Bool
  deleted : Bool
  calls : List (Call ρ)
  /-- The completions it was called with. -/
  fed : List Cqe
  fault : Bool
deriving DecidableEq, Repr

/-- The completion that `OpSenderOperationState::fail_` makes up. -/
def Cqe.failed (res : ℤ) : Cqe := ⟨0, res, false, false, .other⟩

/-- `SimpleCQEHandler`. -/
def simpleCQEHandler (c : Cqe) : ℤ := c.res

namespace Caller

variable {ρ : Type} (f : Cqe → ρ)

def new (kind : OpKind) : Caller ρ := ⟨kind, false, false, [], [], false⟩

/-- `finish_`; `f` is `cqe_handler_`. -/
def finish (h : Caller ρ) (c : Cqe) : Caller ρ :=
  { h with moved := true, calls := h.calls ++ [.receiver (f c)], fault := h.fault || h.moved }

/-- `ZeroCopyOpFinishHandle::notify_`. -/
def notify (h : Caller ρ) (res : ℤ) : Caller ρ := { h with deleted := true, calls := h.calls ++ [.freeFunc res] }

def handleImpl (h : Caller ρ) (c : Cqe) : Caller ρ × Bool :=
  match h.kind with
  | .single => (h.finish f c, true)
  | .multishot =>
    if c.more then ({ h with calls := h.calls ++ [.func (f c)] }, false)
    else (h.finish f c, true)
  | .zeroCopy =>
    if c.more then (h.finish f c, false)
    else if c.notif then (h.notify c.res, true)
    else ((h.finish f c).notify 0, true)

def handle (h : Caller ρ) (c : Cqe) : Caller ρ × Bool :=
  ({ h with fed := h.fed ++ [c], fault := h.fault || h.deleted } : Caller ρ).handleImpl f c

end Caller

/-! ## The callbacks of one operation -/

variable {ρ : Type}

/-- What an operation has called when it is in a phase. -/
inductive Delivered (f : Cqe → ρ) : Phase → Caller ρ → Prop
  | new (k : OpKind) : Delivered f .ready (.new k)
  | single (c : Cqe) : Delivered f .ended ⟨.single, true, false, [.receiver (f c)], [c], false⟩
  /-- A multi-shot operation calls its function with every result but the last, in order. -/
  | multishot (cs : List Cqe) :
      Delivered f .ready ⟨.multishot, false, false, cs.map fun c => .func (f c), cs, false⟩
  | multishotEnd (cs : List Cqe) (c : Cqe) : Delivered f .ended
      ⟨.multishot, true, false, (cs.map fun c => .func (f c)) ++ [.receiver (f c)], cs ++ [c], false⟩
  /-- A zero-copy operation calls its receiver, and its free function when the kernel has let go of the buffer. -/
  | sent (c : Cqe) : Delivered f .sent ⟨.zeroCopy, true, false, [.receiver (f c)], [c], false⟩
  | freed (c n : Cqe) :
      Delivered f .ended ⟨.zeroCopy, true, true, [.receiver (f c), .freeFunc n.res], [c, n], false⟩
  /-- There is no notification after a completion without `IORING_CQE_F_MORE`. -/
  | freedAtOnce (c : Cqe) :
      Delivered f .ended ⟨.zeroCopy, true, true, [.receiver (f c), .freeFunc 0], [c], false⟩

/-- What `Condy.Runtime.Model` keeps of `handle_impl_` is what the finish handle does. -/
theorem Caller.handle_eq (f : Cqe → ρ) (h : Caller ρ) (c : Cqe) :
    (h.handle f c).2 = (h.kind.handle c.more c.notif).2 ∧
      (.receiver (f c) ∈ (h.handle f c).1.calls ↔
        .receiver (f c) ∈ h.calls ∨ (h.kind.handle c.more c.notif).1 = true) := by
  unfold Caller.handle Caller.handleImpl OpKind.handle
  cases h.kind with
  | single => simp [finish]
  | multishot => cases hm : c.more <;> simp [finish]
  | zeroCopy => cases hm : c.more <;> cases hn : c.notif <;> simp [finish, notify]

/-- **A completion that the contract allows** is delivered. -/
theorem Delivered.handle {f : Cqe → ρ} {p q : Phase} {h : Caller ρ} {c : Cqe} (hd : Delivered f p h)
    (he : h.kind.emit p c.more c.notif = some q) : Delivered f q (h.handle f c).1 := by
  -- The flags decide the branch; for most flags the contract allows no completion.
  cases hd with
  | new k =>
    cases k with
    | single =>
      cases hm : c.more <;> cases hn : c.notif <;> rw [hm, hn] at he <;> cases he
      exact .single c
    | multishot =>
      cases hm : c.more <;> cases hn : c.notif <;> rw [hm, hn] at he <;> cases he
      · simp only [Caller.handle, Caller.handleImpl, Caller.new, hm]
        exact .multishotEnd [] c
      · simp only [Caller.handle, Caller.handleImpl, Caller.new, hm]
        exact .multishot [c]
    | zeroCopy =>
      cases hm : c.more <;> cases hn : c.notif <;> rw [hm, hn] at he <;> cases he
      · simp only [Caller.handle, Caller.handleImpl, Caller.new, hm, hn]
        exact .freedAtOnce c
      · simp only [Caller.handle, Caller.handleImpl, Caller.new, hm]
        exact .sent c
  | multishot cs =>
    cases hm : c.more <;> cases hn : c.notif <;> rw [hm, hn] at he <;> cases he
    · simp only [Caller.handle, Caller.handleImpl, hm]
      exact .multishotEnd cs c
    · have hcalls : (cs.map fun c => Call.func (f c)) ++ [.func (f c)] = (cs ++ [c]).map fun c => .func (f c) := by
        rw [List.map_append]
        rfl
      simp only [Caller.handle, Caller.handleImpl, hm, if_true, hcalls]
      exact .multishot (cs ++ [c])
  | sent c₀ =>
    cases hm : c.more <;> cases hn : c.notif <;> rw [hm, hn] at he <;> cases he
    simp only [Caller.handle, Caller.handleImpl, hm, hn]
    exact .freed c₀ c
  | single | multishotEnd | freed | freedAtOnce =>
    rw [OpKind.emit_ended] at he
    cases he

theorem Caller.handle_fed (f : Cqe → ρ) (h : Caller ρ) (c : Cqe) :
    (h.handle f c).1.fed = h.fed ++ [c] ∧ (h.handle f c).1.kind = h.kind := by
  unfold Caller.handle Caller.handleImpl
  dsimp only
  split
  · exact ⟨rfl, rfl⟩
  · split <;> exact ⟨rfl, rfl⟩
  · split
    · exact ⟨rfl, rfl⟩
    · split <;> exact ⟨rfl, rfl⟩

/-- A start that fails. -/
theorem Delivered.failed (f : Cqe → ρ) (k : OpKind) (res : ℤ) :
    Delivered f .ended ((Caller.new k : Caller ρ).handle f (.failed res)).1 :=
  (Delivered.new k).handle (c := .failed res) (by cases k <;> rfl)

/-! ## The callbacks of a runtime -/

/-- A runtime with the finish handles of all operations that it started, by their tags. -/
structure Callbacks (ρ : Type) where
  rt : Runtime
  caller : ℕ → Option (Caller ρ)

namespace Callbacks

def init (rt : Runtime) : Callbacks ρ := ⟨rt, fun _ => none⟩

variable (f : ℕ → Cqe → ρ)

/-- The finish handles after a step: an operation that starts makes one, and `process_cqe_` calls one. -/
def callers (m : Callbacks ρ) : Runtime.Op → ℕ → Option (Caller ρ)
  | .start _ kind stopRequested prepFails _ =>
    let h := Caller.new kind
    Function.update m.caller m.rt.nextTag (some (
      if stopRequested then (h.handle (f m.rt.nextTag) (.failed (-ECANCELED))).1
      else if prepFails then (h.handle (f m.rt.nextTag) (.failed (-EINVAL))).1
      else h))
  | .reap =>
    match m.rt.control, m.rt.cq with
    | .reap _, c :: _ =>
      match m.rt.handleOf c with
      | some g => Function.update m.caller g.tag ((m.caller g.tag).map fun h => (h.handle (f g.tag) c).1)
      | none => m.caller
    | _, _ => m.caller
  | _ => m.caller

def step (m : Callbacks ρ) (op : Runtime.Op) : Option (Callbacks ρ) :=
  (m.rt.step op).map fun rt => ⟨rt, m.callers f op⟩

/-! ### What a run shows from outside -/

/-- An operation is started, or a completion is taken off the completion queue. -/
inductive Seen where
  | started (kind : OpKind) (stopRequested prepFails : Bool)
  | reaped (c : Cqe)
deriving DecidableEq, Repr

def seen (m : Callbacks ρ) : Runtime.Op → List Seen
  | .start _ kind stopRequested prepFails _ => [.started kind stopRequested prepFails]
  | .reap =>
    match m.rt.control, m.rt.cq with
    | .reap _, c :: _ => [.reaped c]
    | _, _ => []
  | _ => []

/-- The starts of operations, in the order of their tags. -/
def startsOf (ev : List Seen) : List (OpKind × Bool × Bool) :=
  ev.filterMap fun
    | .started kind stopRequested prepFails => some (kind, stopRequested, prepFails)
    | .reaped _ => none

/-- The completions of an operation, in the order in which they were reaped. -/
def reapedOf (t : ℕ) (ev : List Seen) : List Cqe :=
  ev.filterMap fun
    | .started .. => none
    | .reaped c => if c.origin = .op t then some c else none

/-- The handle of operation `t` has the kind that was started, and was called with the completions of the operation that
were reaped; if the start failed, with that failure only. -/
def Fed (ev : List Seen) (t : ℕ) (h : Caller ρ) : Prop :=
  ∃ kind stopRequested prepFails, (startsOf ev)[t]? = some (kind, stopRequested, prepFails) ∧ h.kind = kind ∧
    h.fed = if stopRequested then [.failed (-ECANCELED)] else if prepFails then [.failed (-EINVAL)] else reapedOf t ev

end Callbacks

namespace Runtime

variable {s : Runtime} {c : Cqe} {g : FinishHandle}

/-- The finish handle that a completion is handed to is that of its operation. -/
theorem handleOf_origin (h : s.Inv) (hc : c ∈ s.cq) (hg : s.handleOf c = some g) :
    g.toOpInfo ∈ s.ops ∧ c.origin = .op g.tag := by
  have hok := h.flight.cqOk c hc
  unfold CqeOk at hok
  unfold handleOf at hg
  cases horig : c.origin with
  | op t =>
    rw [horig] at hok
    obtain ⟨o, ho, rfl, hu⟩ := hok
    obtain ⟨g', hfind, hmem, hgo⟩ := find_handle h ho
    rw [hu, decodeWork_encodeWork (h.flight.align o ho)] at hg
    obtain rfl := Option.some.inj (hfind.symm.trans hg)
    rw [hgo]
    exact ⟨ho, by rw [← hgo]⟩
  | cancel t =>
    rw [horig] at hok
    obtain ⟨a, ha, hu⟩ := hok
    rw [hu, decodeWork_encodeWork ha] at hg
    cases hg
  | other =>
    rw [horig] at hok
    obtain ⟨w, hw, hu | hu⟩ := hok
    · rw [hu, decodeWork_encodeWork hw] at hg
      cases hg
    · rw [hu, decodeWork_encodeWork hw] at hg
      cases hg

/-- A completion that no finish handle is called with is of no operation. -/
theorem handleOf_none (h : s.Inv) (hc : c ∈ s.cq) (hg : s.handleOf c = none) (t : ℕ) : c.origin ≠ .op t := by
  intro horig
  have hok := h.flight.cqOk c hc
  unfold CqeOk at hok
  rw [horig] at hok
  obtain ⟨o, ho, -, hu⟩ := hok
  obtain ⟨g, hfind, -, -⟩ := find_handle h ho
  unfold handleOf at hg
  rw [hu, decodeWork_encodeWork (h.flight.align o ho)] at hg
  cases hfind.symm.trans hg

end Runtime

namespace Callbacks

variable {ev : List Seen} {x : Caller ρ}

theorem startsOf_append (ev ev' : List Seen) : startsOf (ev ++ ev') = startsOf ev ++ startsOf ev' := List.filterMap_append

theorem reapedOf_append (t : ℕ) (ev ev' : List Seen) : reapedOf t (ev ++ ev') = reapedOf t ev ++ reapedOf t ev' :=
  List.filterMap_append

/-- What is seen is about other operations. -/
theorem Fed.snoc {t : ℕ} {ev' : List Seen} (h : Fed ev t x) (hr : reapedOf t ev' = []) : Fed (ev ++ ev') t x := by
  obtain ⟨kind, stop, fails, hstart, hkind, hfed⟩ := h
  refine ⟨kind, stop, fails, ?_, hkind, ?_⟩
  · rw [startsOf_append]
    exact List.getElem?_append_left (List.getElem?_eq_some_iff.mp hstart).1 ▸ hstart
  · rw [reapedOf_append, hr, List.append_nil]
    exact hfed

/-- Every operation is in the list: a live one in the phase of its handle, any other in the phase `ended`. -/
structure Inv (f : ℕ → Cqe → ρ) (ev : List Seen) (m : Callbacks ρ) : Prop where
  rt : m.rt.Inv
  starts : (startsOf ev).length = m.rt.nextTag
  unseen : ∀ t, m.rt.nextTag ≤ t → reapedOf t ev = []
  live : ∀ o ∈ m.rt.ops, ∃ h, m.caller o.tag = some h ∧ Fed ev o.tag h ∧
    (startsOf ev)[o.tag]? = some (o.kind, false, false) ∧ Delivered (f o.tag) (handlePhase m.rt.got o.tag) h
  ended : ∀ t < m.rt.nextTag, t ∉ m.rt.ops.map OpInfo.tag →
    ∃ h, m.caller t = some h ∧ Fed ev t h ∧ Delivered (f t) .ended h

variable {f : ℕ → Cqe → ρ} {m m' : Callbacks ρ} {rt : Runtime}

theorem handlePhase_snoc {got : List ℕ} {t t' : ℕ} (hne : t ≠ t') :
    handlePhase (got ++ [t']) t = handlePhase got t := by
  simp [handlePhase, hne]

/-- A step that starts nothing and calls no finish handle. -/
theorem Inv.keep {ev' : List Seen} (h : Inv f ev m) (hrt : rt.Inv) (hops : rt.ops = m.rt.ops)
    (hrec : rt.received = m.rt.received) (hnext : rt.nextTag = m.rt.nextTag) (hstarts : startsOf ev' = [])
    (hreaped : ∀ t, reapedOf t ev' = []) : Inv f (ev ++ ev') ⟨rt, m.caller⟩ := by
  have hsame : startsOf (ev ++ ev') = startsOf ev := by
    rw [startsOf_append, hstarts, List.append_nil]
  refine ⟨hrt, ?_, fun t ht => ?_, fun o ho => ?_, fun t ht hn => ?_⟩
  · rw [hsame, h.starts]
    exact hnext.symm
  · rw [reapedOf_append, hreaped, List.append_nil]
    exact h.unseen t (hnext ▸ ht)
  · have hgot : rt.got = m.rt.got := congrArg (List.map Prod.fst) hrec
    obtain ⟨x, hx, hfed, hstart, hd⟩ := h.live o (hops ▸ ho)
    rw [hsame]
    exact ⟨x, hx, hfed.snoc (hreaped _), hstart, by rw [hgot]; exact hd⟩
  · obtain ⟨x, hx, hfed, hd⟩ := h.ended t (hnext ▸ ht) (hops ▸ hn)
    exact ⟨x, hx, hfed.snoc (hreaped _), hd⟩

/-- The tag of a new operation is that of no other. -/
theorem Inv.fresh (h : Inv f ev m) : ∀ o ∈ m.rt.ops, o.tag ≠ m.rt.nextTag :=
  fun o ho => Nat.ne_of_lt (h.rt.flight.bound o ho)

section Started

variable {kind : OpKind} {stop prep : Bool}

theorem Inv.start_seen (h : Inv f ev m) (kind : OpKind) (stop prep : Bool) :
    (startsOf (ev ++ [.started kind stop prep]))[m.rt.nextTag]? = some (kind, stop, prep) := by
  rw [startsOf_append, ← h.starts]
  exact List.getElem?_concat_length

theorem Inv.starts_snoc (h : Inv f ev m) : (startsOf (ev ++ [.started kind stop prep])).length = m.rt.nextTag + 1 := by
  rw [startsOf_append, List.length_append, h.starts]
  rfl

theorem Inv.unseen_snoc (h : Inv f ev m) {t : ℕ} (ht : m.rt.nextTag ≤ t) :
    reapedOf t (ev ++ [.started kind stop prep]) = [] := by
  rw [reapedOf_append, h.unseen t ht]
  rfl

/-- What was started before. -/
theorem start_before {ev : List Seen} {t : ℕ} {e : OpKind × Bool × Bool} (ht : (startsOf ev)[t]? = some e) :
    (startsOf (ev ++ [.started kind stop prep]))[t]? = some e := by
  rw [startsOf_append]
  exact List.getElem?_append_left (List.getElem?_eq_some_iff.mp ht).1 ▸ ht

/-- An operation fails to start. -/
theorem Inv.fails {res : ℤ} (h : Inv f ev m) (hx : Delivered (f m.rt.nextTag) .ended x)
    (hfed : Fed (ev ++ [.started kind stop prep]) m.rt.nextTag x) (hrt : rt.Inv)
    (hops : rt.ops = m.rt.ops) (hrec : rt.received = m.rt.received ++ [(m.rt.nextTag, res)])
    (hnext : rt.nextTag = m.rt.nextTag + 1) :
    Inv f (ev ++ [.started kind stop prep]) ⟨rt, Function.update m.caller m.rt.nextTag (some x)⟩ := by
  refine ⟨hrt, h.starts_snoc.trans hnext.symm, fun t ht => h.unseen_snoc (Nat.le_of_succ_le (hnext.symm.le.trans ht)),
    fun o ho => ?_, fun t ht hn => ?_⟩
  · have ho' : o ∈ m.rt.ops := hops ▸ ho
    have hne := h.fresh o ho'
    have hgot : rt.got = m.rt.got ++ [m.rt.nextTag] := (congrArg (List.map Prod.fst) hrec).trans List.map_append
    obtain ⟨y, hy, hf, hstart, hd⟩ := h.live o ho'
    exact ⟨y, (Function.update_of_ne hne _ _).trans hy, hf.snoc rfl, start_before hstart,
      by rw [hgot, handlePhase_snoc hne]; exact hd⟩
  · have hn' : t ∉ m.rt.ops.map OpInfo.tag := hops ▸ hn
    rcases eq_or_ne t m.rt.nextTag with rfl | hne
    · exact ⟨x, Function.update_self .., hfed, hx⟩
    · have hlt : t < rt.nextTag := ht
      obtain ⟨y, hy, hf, hd⟩ := h.ended t (by omega) hn'
      exact ⟨y, (Function.update_of_ne hne _ _).trans hy, hf.snoc rfl, hd⟩

/-- An operation starts. -/
theorem Inv.begins {addr : ℕ} (h : Inv f ev m) (hrt : rt.Inv)
    (hops : rt.ops = m.rt.ops ++ [⟨addr, kind, m.rt.nextTag⟩]) (hrec : rt.received = m.rt.received)
    (hnext : rt.nextTag = m.rt.nextTag + 1) :
    Inv f (ev ++ [.started kind false false]) ⟨rt, Function.update m.caller m.rt.nextTag (some (.new kind))⟩ := by
  have hgot : rt.got = m.rt.got := congrArg (List.map Prod.fst) hrec
  have hnew : m.rt.nextTag ∉ m.rt.got := fun hm => Nat.lt_irrefl _ (h.rt.flight.gotBound _ hm)
  refine ⟨hrt, h.starts_snoc.trans hnext.symm, fun t ht => h.unseen_snoc (Nat.le_of_succ_le (hnext.symm.le.trans ht)),
    fun o ho => ?_, fun t ht hn => ?_⟩
  · have ho' : o ∈ rt.ops := ho
    rw [hops] at ho'
    rcases List.mem_append.mp ho' with ho' | ho'
    · have hne := h.fresh o ho'
      obtain ⟨y, hy, hf, hstart, hd⟩ := h.live o ho'
      exact ⟨y, (Function.update_of_ne hne _ _).trans hy, hf.snoc rfl, start_before hstart, by rw [hgot]; exact hd⟩
    · obtain rfl := List.mem_singleton.mp ho'
      have hseen := h.start_seen kind false false
      refine ⟨.new kind, Function.update_self .., ⟨kind, false, false, hseen, rfl, ?_⟩, hseen, ?_⟩
      · exact (h.unseen_snoc le_rfl).symm
      · rw [hgot, handlePhase, if_neg hnew]
        exact .new kind
  · have hn' : t ∉ rt.ops.map OpInfo.tag := hn
    rw [hops, List.map_append, List.mem_append, not_or] at hn'
    have hne : t ≠ m.rt.nextTag := fun he => hn'.2 (by rw [he]; exact List.mem_singleton_self _)
    have hlt : t < rt.nextTag := ht
    obtain ⟨y, hy, hf, hd⟩ := h.ended t (by omega) hn'.1
    exact ⟨y, (Function.update_of_ne hne _ _).trans hy, hf.snoc rfl, hd⟩

end Started

theorem startsOf_reaped (ev : List Seen) (c : Cqe) : startsOf (ev ++ [.reaped c]) = startsOf ev := by
  rw [startsOf_append]
  exact List.append_nil _

theorem reapedOf_self {t : ℕ} {c : Cqe} (hc : c.origin = .op t) : reapedOf t [.reaped c] = [c] := by
  simp [reapedOf, hc]

theorem reapedOf_of_ne {t t' : ℕ} {c : Cqe} (hc : c.origin = .op t') (hne : t ≠ t') : reapedOf t [.reaped c] = [] := by
  have horig : c.origin ≠ .op t := fun he => hne (Origin.op.inj (he.symm.trans hc))
  simp [reapedOf, horig]

/-- The completion of a live operation is handed to its finish handle. -/
theorem Fed.handle {t : ℕ} {c : Cqe} {kind : OpKind} {g : Cqe → ρ} (h : Fed ev t x)
    (hstart : (startsOf ev)[t]? = some (kind, false, false)) (hc : c.origin = .op t) :
    Fed (ev ++ [.reaped c]) t (x.handle g c).1 := by
  obtain ⟨kind', stop, fails, hstart', hkind, hfed⟩ := h
  obtain ⟨rfl, he⟩ := Prod.mk.inj (Option.some.inj (hstart'.symm.trans hstart))
  obtain ⟨rfl, rfl⟩ := Prod.mk.inj he
  obtain ⟨hfed', hkind'⟩ := x.handle_fed g c
  refine ⟨kind', false, false, ?_, hkind'.trans hkind, ?_⟩
  · rw [startsOf_reaped]
    exact hstart'
  · rw [hfed', hfed, reapedOf_append, reapedOf_self hc]
    rfl

section Handled

variable {rt₀ : Runtime} {g : FinishHandle} {c : Cqe} {q : Phase} {t : ℕ}
  (hemit : g.kind.emit (handlePhase rt₀.got g.tag) c.more c.notif = some q)

section

variable
  (hrec : rt.received = if (g.kind.handle c.more c.notif).1 then rt₀.received ++ [(g.tag, c.res)] else rt₀.received)
include hemit hrec

/-- The receiver is called with the completion that ends the phase `ready`. -/
theorem got_handled : rt.got =
    if handlePhase rt₀.got g.tag = .ready ∧ q ≠ .ready then rt₀.got ++ [g.tag] else rt₀.got := by
  rw [OpKind.handle_eq hemit] at hrec
  show rt.received.map Prod.fst = _
  rw [hrec]
  by_cases hr : handlePhase rt₀.got g.tag = .ready ∧ q ≠ .ready
  · rw [if_pos hr, if_pos (decide_eq_true hr), List.map_append]
    rfl
  · rw [if_neg hr, if_neg (by simpa using hr)]
    rfl

theorem handlePhase_other (ht : t ≠ g.tag) : handlePhase rt.got t = handlePhase rt₀.got t := by
  rw [got_handled hemit hrec]
  split
  · exact handlePhase_snoc ht
  · rfl

theorem handlePhase_self (hlast : q ≠ .ended) : handlePhase rt.got g.tag = q := by
  rw [got_handled hemit hrec]
  rcases OpKind.emit_cases hemit with rfl | ⟨rfl, hp⟩ | ⟨rfl, hp⟩
  · exact absurd rfl hlast
  · rw [if_pos ⟨hp, by simp⟩]
    simp [handlePhase]
  · rw [if_neg (by simp), hp]

end

include hemit in
/-- The handle is gone with the last completion of its operation, and no other handle is. -/
theorem mem_ops_handled (h : rt₀.Inv) (hmem : g.toOpInfo ∈ rt₀.ops)
    (hops : rt.ops = if (g.kind.handle c.more c.notif).2 then rt₀.ops.filter (fun o => o.addr ≠ g.addr) else rt₀.ops)
    {o : OpInfo} : o ∈ rt.ops ↔ o ∈ rt₀.ops ∧ (o.tag = g.tag → q ≠ .ended) := by
  rw [OpKind.handle_eq hemit] at hops
  rw [hops]
  by_cases hlast : q = .ended
  · have htag : o ∈ rt₀.ops → (o.addr = g.addr ↔ o.tag = g.tag) := fun ho =>
      ⟨fun ha => congrArg OpInfo.tag (h.flight.eq_of_addr ho hmem ha),
        fun ht => congrArg OpInfo.addr (h.flight.eq_of_tag ho hmem ht)⟩
    rw [if_pos (by simpa using hlast), List.mem_filter]
    refine and_congr_right fun ho => ?_
    simp [hlast, htag ho]
  · rw [if_neg (by simpa using hlast)]
    exact ⟨fun ho => ⟨ho, fun _ => hlast⟩, And.left⟩

end Handled

/-- A completion is handed to its finish handle. -/
theorem Inv.handles (h : Inv f ev m) {g : FinishHandle} {c : Cqe} (hc : c ∈ m.rt.cq) (hg : m.rt.handleOf c = some g)
    (hrt : rt.Inv)
    (hhead : ∃ q, g.kind.emit (handlePhase m.rt.got g.tag) c.more c.notif = some q)
    (hops : rt.ops = if (g.kind.handle c.more c.notif).2 then m.rt.ops.filter (fun o => o.addr ≠ g.addr) else m.rt.ops)
    (hrec : rt.received = if (g.kind.handle c.more c.notif).1 then m.rt.received ++ [(g.tag, c.res)] else m.rt.received)
    (hnext : rt.nextTag = m.rt.nextTag) :
    Inv f (ev ++ [.reaped c])
      ⟨rt, Function.update m.caller g.tag ((m.caller g.tag).map fun x => (x.handle (f g.tag) c).1)⟩ := by
  obtain ⟨hmem, horig⟩ := Runtime.handleOf_origin h.rt hc hg
  obtain ⟨q, hemit⟩ := hhead
  have hlive := fun o : OpInfo => mem_ops_handled hemit h.rt hmem hops (o := o)
  obtain ⟨x, hx, hfed, hstart, hd⟩ := h.live g.toOpInfo hmem
  have hfed' := hfed.handle (g := f g.tag) hstart horig
  have hkind : x.kind = g.kind := by
    obtain ⟨kind, stop, fails, hs, hk, -⟩ := hfed
    exact hk.trans (Prod.mk.inj (Option.some.inj (hs.symm.trans hstart))).1
  have hd' := hd.handle (c := c) (by rw [hkind]; exact hemit)
  have hnew : Function.update m.caller g.tag ((m.caller g.tag).map fun x => (x.handle (f g.tag) c).1) g.tag =
      some (x.handle (f g.tag) c).1 := by
    rw [Function.update_self, show m.caller g.tag = some x from hx]
    rfl
  refine ⟨hrt, ?_, fun t ht => ?_, fun o ho => ?_, fun t ht hn => ?_⟩
  · rw [startsOf_reaped, h.starts]
    exact hnext.symm
  · have hlt : m.rt.nextTag ≤ t := hnext ▸ ht
    have hne : t ≠ g.tag := Nat.ne_of_gt (Nat.lt_of_lt_of_le (h.rt.flight.bound _ hmem) hlt)
    rw [reapedOf_append, h.unseen t hlt, reapedOf_of_ne horig hne]
    rfl
  · obtain ⟨hin, hlast⟩ := (hlive o).mp ho
    rw [startsOf_reaped]
    rcases eq_or_ne o.tag g.tag with he | hne
    · obtain rfl := h.rt.flight.eq_of_tag hin hmem he
      exact ⟨_, hnew, hfed', hstart, by rw [handlePhase_self hemit hrec (hlast rfl)]; exact hd'⟩
    · obtain ⟨y, hy, hfy, hsy, hdy⟩ := h.live o hin
      exact ⟨y, (Function.update_of_ne hne _ _).trans hy, hfy.snoc (reapedOf_of_ne horig hne), hsy,
        by rw [handlePhase_other hemit hrec hne]; exact hdy⟩
  · rcases eq_or_ne t g.tag with rfl | hne
    · have hlast : q = .ended := by
        by_contra hlast
        exact hn (List.mem_map_of_mem ((hlive g.toOpInfo).mpr ⟨hmem, fun _ => hlast⟩))
      exact ⟨_, hnew, hfed', hlast ▸ hd'⟩
    · have hout : t ∉ m.rt.ops.map OpInfo.tag := by
        intro hm
        obtain ⟨o, ho, rfl⟩ := List.mem_map.mp hm
        exact hn (List.mem_map_of_mem ((hlive o).mpr ⟨ho, fun he => absurd he hne⟩))
      obtain ⟨y, hy, hfy, hdy⟩ := h.ended t (hnext ▸ ht) hout
      exact ⟨y, (Function.update_of_ne hne _ _).trans hy, hfy.snoc (reapedOf_of_ne horig hne), hdy⟩

theorem step_inv {op : Runtime.Op} (h : Inv f ev m) (hs : step f m op = some m') : Inv f (ev ++ m.seen op) m' := by
  obtain ⟨rt, hrun, rfl⟩ := Option.map_eq_some_iff.mp hs
  have hrt := Runtime.step_inv op h.rt hrun
  cases hst : op.starts with
  | true =>
    cases op with
    | start addr kind stopRequested prepFails stopPossible =>
      obtain ⟨-, hnext, hcases⟩ := Runtime.start_cases (Option.ite_none_right_eq_some.mp hrun).2
      have hseen := h.start_seen kind stopRequested prepFails
      cases stopRequested with
      | true =>
        obtain ⟨hf, hk⟩ := (Caller.new kind : Caller ρ).handle_fed (f m.rt.nextTag) (.failed (-ECANCELED))
        exact h.fails (.failed _ kind _) ⟨kind, true, prepFails, hseen, hk, hf⟩ hrt hcases.1 hcases.2 hnext
      | false =>
        cases prepFails with
        | true =>
          obtain ⟨hf, hk⟩ := (Caller.new kind : Caller ρ).handle_fed (f m.rt.nextTag) (.failed (-EINVAL))
          exact h.fails (.failed _ kind _) ⟨kind, false, true, hseen, hk, hf⟩ hrt hcases.1 hcases.2 hnext
        | false => exact h.begins hrt hcases.1 hcases.2 hnext
    | _ => cases hst
  | false =>
    by_cases hr : op = .reap
    · subst hr
      obtain ⟨next, hctl, ⟨hq, rfl⟩ | ⟨c, cs, hq, hc⟩⟩ := Runtime.reap_cases hrun
      · rw [show m.callers f .reap = m.caller by simp only [callers, hctl, hq],
          show m.seen .reap = [] by simp only [seen, hctl, hq]]
        exact h.keep hrt rfl rfl rfl rfl fun _ => rfl
      · have hmem : c ∈ m.rt.cq := by
          rw [hq]
          exact List.mem_cons_self
        obtain ⟨-, hnext, hcases⟩ := Runtime.processCqe_cases hc
        have hof : ({ m.rt with cq := cs } : Runtime).handleOf c = m.rt.handleOf c := rfl
        rw [hof] at hcases
        rw [show m.seen .reap = [.reaped c] by simp only [seen, hctl, hq]]
        cases hg : m.rt.handleOf c with
        | none =>
          rw [hg] at hcases
          rw [show m.callers f .reap = m.caller by simp only [callers, hctl, hq, hg]]
          have hother := Runtime.handleOf_none h.rt hmem hg
          exact h.keep hrt hcases.1 hcases.2 hnext rfl fun t => by simp [reapedOf, hother t]
        | some g =>
          rw [hg] at hcases
          rw [show m.callers f .reap = Function.update m.caller g.tag ((m.caller g.tag).map fun x =>
            (x.handle (f g.tag) c).1) by simp only [callers, hctl, hq, hg]]
          obtain ⟨hin, horig⟩ := Runtime.handleOf_origin h.rt hmem hg
          have hf := h.rt.flight
          rw [hq] at hf
          obtain ⟨q, hemit, -⟩ := hf.head_phase hin horig
          exact h.handles hmem hg hrt ⟨q, hemit⟩ hcases.1 hcases.2 hnext
    · obtain ⟨hops, hrec, hnext⟩ := Runtime.step_ops hst hr hrun
      have hkeep := h.keep hrt hops hrec hnext (show startsOf [] = [] from rfl) fun _ => rfl
      cases op with
      | start => cases hst
      | reap => exact absurd rfl hr
      | _ => exact hkeep

/-- **Every operation of every run calls its user code as its kind says.**  Whatever the program, the other threads and
the kernel do, an operation with a live handle and one that is over are both in the list `Delivered`: no finish handle is
used after it deleted itself, no receiver is called twice, a multi-shot function gets every result but the last in the
order of the completions, and a free function is called once, after the receiver.  The completions are all those of the
operation that were taken off the completion queue, in this order, and the kind is the one that was started.  An operation
is over exactly when nothing of it is outstanding, and then its receiver was called. -/
theorem callbacks_delivered {eventInterval entries submitBatch : ℕ} {sqpoll : Bool} {lag : List ℕ}
    {ops : List Runtime.Op}
    (hrun : run (step f) (init (.init eventInterval (.new entries sqpoll submitBatch lag))) ops = some m) :
    ∀ t < m.rt.nextTag, ∃ h p, m.caller t = some h ∧
      Fed (outputs (step f) seen (init (.init eventInterval (.new entries sqpoll submitBatch lag))) ops) t h ∧
      Delivered (f t) p h ∧ (p = .ended ↔ m.rt.opOutstanding t = false) ∧ (p = .ready ↔ t ∉ m.rt.got) := by
  have hinit : Inv f [] (init (.init eventInterval (.new entries sqpoll submitBatch lag)) : Callbacks ρ) :=
    ⟨Runtime.init_inv eventInterval entries sqpoll submitBatch lag, rfl, fun _ _ => rfl, (by rintro o ⟨⟩),
      (by rintro t ⟨⟩)⟩
  have h : Inv f ([] ++ outputs (step f) seen _ ops) m :=
    run_inv_outputs (P := Inv f) (fun _ _ _ _ h hs => step_inv h hs) ops hinit hrun
  rw [List.nil_append] at h
  intro t ht
  have hout := Runtime.opOutstanding_iff h.rt t
  by_cases hm : t ∈ m.rt.ops.map OpInfo.tag
  · obtain ⟨o, ho, rfl⟩ := List.mem_map.mp hm
    obtain ⟨x, hx, hfed, -, hd⟩ := h.live o ho
    refine ⟨x, _, hx, hfed, hd, ?_, ?_⟩
    · rw [hout.mpr hm]
      unfold handlePhase
      split <;> simp
    · unfold handlePhase
      split <;> simp [*]
  · obtain ⟨x, hx, hfed, hd⟩ := h.ended t ht hm
    refine ⟨x, .ended, hx, hfed, hd, ?_, ?_⟩
    · rw [← hout, Bool.not_eq_true] at hm
      simp [hm]
    · have hgot : t ∈ m.rt.got := by
        by_contra hn
        obtain ⟨o, ho, rfl⟩ := h.rt.flight.gotAll t ht hn
        exact hm (List.mem_map_of_mem ho)
      simp [hgot]

/-- A multi-shot and a zero-copy operation, and one that fails to start. -/
def kindsRun : List Runtime.Op :=
  [.remoteSchedule 8, .run, .tick, .pick, .start 16 .multishot false false false, .start 24 .zeroCopy false false false,
    .start 32 .zeroCopy true false false, .ret, .tick, .pick, .exec none 0, .exec none 0,
    .post 0 5 true false, .post 1 7 true false, .post 0 6 true false, .post 1 3 false true, .post 0 0 false false,
    .waitReturn, .reap, .ret, .reap, .ret, .reap, .ret, .reap, .ret, .reap, .ret]

theorem callbacks_delivered_kinds : ∃ m : Callbacks ℤ, run (step fun _ => simpleCQEHandler)
    (init (.init 61 (.new 8 false 32 []))) kindsRun = some m ∧
    (m.caller 0).map Caller.calls = some [.func 5, .func 6, .receiver 0] ∧
    (m.caller 1).map Caller.calls = some [.receiver 7, .freeFunc 3] ∧
    (m.caller 2).map Caller.calls = some [.receiver (-ECANCELED), .freeFunc 0] ∧
    ∀ t < m.rt.nextTag, ∃ h p, m.caller t = some h ∧ Delivered simpleCQEHandler p h ∧
      (p = .ended ↔ m.rt.opOutstanding t = false) := by
  have hrun : (run (step fun _ => simpleCQEHandler) (init (.init 61 (.new 8 false 32 []))) kindsRun).map (fun m =>
      ((m.caller 0).map Caller.calls, (m.caller 1).map Caller.calls, (m.caller 2).map Caller.calls)) =
      some (some [.func 5, .func 6, .receiver 0], some [.receiver 7, .freeFunc 3],
        some [.receiver (-ECANCELED), .freeFunc 0]) := by
    decide +kernel
  obtain ⟨m, hm, hend⟩ := Option.map_eq_some_iff.mp hrun
  obtain ⟨h0, hend⟩ := Prod.mk.inj hend
  obtain ⟨h1, h2⟩ := Prod.mk.inj hend
  refine ⟨m, hm, h0, h1, h2, fun t ht => ?_⟩
  obtain ⟨h, p, hcaller, -, hd, hended, -⟩ := callbacks_delivered hm t ht
  exact ⟨h, p, hcaller, hd, hended⟩

end Callbacks

end Condy
