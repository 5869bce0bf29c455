import Condy.Promise.Model
import Mathlib.Tactic.SplitIfs

/-!
# Condy.Promise.Handover — who destroys the frame, and when

The two exchanges that succeed are ordered.  The party that comes first leaves the frame to the other: a coroutine that
ends first becomes a zombie, which the consumer collects; a consumer that comes first marks the state, and the coroutine
then destroys the frame or calls back.  `Meets` lists what each party may still be doing in each of these situations.
-/

namespace Condy

open PromiseState Lib

/-! ## What each party may be doing -/

/-- The state the coroutine's exchange aims at. -/
def Final.aim : PromiseState → PromiseState
  | .runningJoinable => .zombie
  | _ => .finished

/-- The state that says the consumer came first. -/
def Action.claim : Action → PromiseState
  | .detach => .runningDetached
  | .join => .runningJoining

def Action.aim (a : Action) : PromiseState → PromiseState
  | .zombie => .finished
  | _ => a.claim

/-- The coroutine has not exchanged the state, and what it expects is in `P`. -/
inductive Final.Trying (P : PromiseState → Prop) : Final → Prop
  | body : Trying P .body
  | load : Trying P .load
  | branch {e : PromiseState} : P e → Trying P (.branch e)
  | cas {e : PromiseState} : P e → Trying P (.cas e (Final.aim e))

/-- The consumer has not exchanged the state.  A join that is about to offer its callback has written it. -/
inductive Consumer.Trying (a : Action) (slot : Slot) (P : PromiseState → Prop) : Consumer → Prop
  | ready : Trying a slot P .ready
  | load : Trying a slot P .load
  | branch {e : PromiseState} : P e → Trying a slot P (.branch e)
  | writeCallback : a = .join → P runningJoinable → Trying a slot P .writeCallback
  | cas {e : PromiseState} : P e → (a = .join → e = runningJoinable → slot = .callback) →
      Trying a slot P (.cas e (a.aim e))

theorem Final.Trying.mono {P Q : PromiseState → Prop} {f : Final} (h : f.Trying P) (hPQ : ∀ e, P e → Q e) :
    f.Trying Q := by
  cases h with
  | body => exact .body
  | load => exact .load
  | branch he => exact .branch (hPQ _ he)
  | cas he => exact .cas (hPQ _ he)

theorem Consumer.Trying.mono {a : Action} {slot : Slot} {P Q : PromiseState → Prop} {r : Consumer}
    (h : r.Trying a slot P) (hPQ : ∀ e, P e → Q e) : r.Trying a slot Q := by
  cases h with
  | ready => exact .ready
  | load => exact .load
  | branch he => exact .branch (hPQ _ he)
  | writeCallback ha he => exact .writeCallback ha (hPQ _ he)
  | cas he hw => exact .cas (hPQ _ he) hw

/-- The coroutine came first, and has nothing left to do with the frame. -/
inductive Final.Left : Final → Prop
  | won : Left (.won runningJoinable)
  | done : Left .done

/-- The consumer collects a zombie: its place, what `request_join` returned, and how often it destroyed the frame. -/
inductive Consumer.Collects : Action → Consumer → Option Bool → ℕ → Prop
  | won {a : Action} : Collects a (.won zombie) none 0
  | destroyDetached : Collects .detach .destroy none 0
  | doneDetached : Collects .detach .done none 1
  | readResult : Collects .join .readResult (some false) 0
  | destroy : Collects .join .destroy (some false) 0
  | done : Collects .join .done (some false) 1

/-- The consumer came first, and its action needs no more from it yet. -/
inductive Consumer.Rests : Action → Consumer → Option Bool → Prop
  | won {a : Action} : Rests a (.won runningJoinable) none
  | done : Rests .detach .done none
  | waiting : Rests .join .waiting (some true)

/-- The coroutine came second and owns a detached frame. -/
inductive Final.Frees : Final → ℕ → Prop
  | won : Frees (.won runningDetached) 0
  | destroy : Frees .destroy 0
  | done : Frees .done 1

/-- The coroutine came second and has a joiner to call. -/
inductive Final.Calls : Final → Prop
  | won : Calls (.won runningJoining)
  | readCallback : Calls .readCallback
  | invoke : Calls (.invoke .callback)

/-- The joiner was called. -/
inductive Consumer.Wakes : Consumer → Option Bool → ℕ → Prop
  | won : Wakes (.won runningJoinable) none 0
  | waiting : Wakes .waiting (some true) 0
  | readResult : Wakes .readResult (some true) 0
  | destroy : Wakes .destroy (some true) 0
  | done : Wakes .done (some true) 1

/-! ## The invariant -/

namespace Promise

/-- Action, state, slot, the two places, what was returned, and how often the callback was invoked and the frame
destroyed. -/
inductive Meets : Action → PromiseState → Slot → Final → Consumer → Option Bool → ℕ → ℕ → Prop
  | joinable {a : Action} {slot : Slot} {f : Final} {r : Consumer}
      (hf : f.Trying (· = runningJoinable)) (hr : r.Trying a slot (· = runningJoinable)) :
      Meets a runningJoinable slot f r none 0 0
  | zombie {a : Action} {slot : Slot} {f : Final} {r : Consumer}
      (hf : f.Left) (hr : r.Trying a slot fun e => e = runningJoinable ∨ e = .zombie) :
      Meets a .zombie slot f r none 0 0
  | claimed {a : Action} {slot : Slot} {f : Final} {r : Consumer} {ret : Option Bool}
      (hf : f.Trying fun e => e = runningJoinable ∨ e = a.claim) (hr : r.Rests a ret)
      (hslot : a = .join → slot = .callback) : Meets a a.claim slot f r ret 0 0
  | collected {a : Action} {slot : Slot} {f : Final} {r : Consumer} {ret : Option Bool} {d : ℕ}
      (hf : f.Left) (hr : r.Collects a ret d) : Meets a finished slot f r ret 0 d
  | freed {slot : Slot} {f : Final} {r : Consumer} {ret : Option Bool} {d : ℕ}
      (hf : f.Frees d) (hr : r.Rests .detach ret) : Meets .detach finished slot f r ret 0 d
  | called {f : Final} {r : Consumer} {ret : Option Bool}
      (hf : f.Calls) (hr : r.Rests .join ret) : Meets .join finished .callback f r ret 0 0
  | woken {slot : Slot} {r : Consumer} {ret : Option Bool} {d : ℕ} (hr : r.Wakes ret d) :
      Meets .join finished slot .done r ret 1 d

structure Inv (s : Promise) : Prop where
  meets : Meets s.action s.state s.slot s.final s.request s.returned s.callbacks s.destroyed
  body : s.final = .body ∨ s.bodyDone = true
  alive : s.useAfterDestroy = false
  tame : s.wildCall = false

theorem spawned_inv (a : Action) : (spawned a).Inv := ⟨.joinable .body .ready, .inl rfl, rfl, rfl⟩

theorem touch_eq {s : Promise} (h : s.destroyed = 0) : s.touch = s := by
  have hu : (s.useAfterDestroy || decide (s.destroyed ≠ 0)) = s.useAfterDestroy := by simp [h]
  rw [touch, hu]

/-! ## Steps before an exchange succeeds -/

/-- A coroutine that tries goes on trying, or exchanges the state it sees. -/
theorem finalStep_trying {s t : Promise} {b : Bool} {P : PromiseState → Prop} (hd : s.destroyed = 0)
    (h : s.final.Trying P) (hP : P s.state)
    (hrun : ∀ e, P e → e = runningJoinable ∨ e = runningDetached ∨ e = runningJoining) (hs : s.finalStep b = some t) :
    (∃ f done, f.Trying P ∧ (s.bodyDone = true ∨ s.final = .body → done = true) ∧
      t = { s with final := f, bodyDone := done }) ∨
    (s.final ≠ .body ∧ t = { s with state := Final.aim s.state, final := .won s.state }) := by
  rw [finalStep, touch_eq hd] at hs
  generalize hfin : s.final = f at h hs
  cases h with
  | body =>
    obtain rfl := Option.some.inj hs
    exact .inl ⟨.load, true, .load, fun _ => rfl, rfl⟩
  | load =>
    obtain rfl := Option.some.inj hs
    exact .inl ⟨.branch s.state, s.bodyDone, .branch hP, by simp, rfl⟩
  | branch he =>
    rename_i e
    refine .inl ⟨.cas e (Final.aim e), s.bodyDone, .cas he, by simp, ?_⟩
    rcases hrun e he with rfl | rfl | rfl <;> exact (Option.some.inj hs).symm
  | cas he =>
    rename_i e
    simp only at hs
    split_ifs at hs with hc
    · obtain rfl := Option.some.inj hs
      obtain ⟨rfl, -⟩ := hc
      exact .inr ⟨by simp, rfl⟩
    · obtain rfl := Option.some.inj hs
      exact .inl ⟨.branch s.state, s.bodyDone, .branch hP, by simp, rfl⟩

/-- A consumer that tries goes on trying, perhaps with its callback written, or exchanges the state it sees. -/
theorem requestStep_trying {s t : Promise} {b : Bool} {P : PromiseState → Prop} (hd : s.destroyed = 0)
    (h : s.request.Trying s.action s.slot P) (hP : P s.state)
    (hrun : ∀ e, P e → e = runningJoinable ∨ e = .zombie) (hs : s.requestStep b = some t) :
    (∃ r slot, r.Trying s.action slot P ∧ t = { s with request := r, slot := slot }) ∨
    ((s.action = .join → s.state = runningJoinable → s.slot = .callback) ∧
      t = { s with state := s.action.aim s.state, request := .won s.state }) := by
  rw [requestStep, touch_eq hd] at hs
  generalize hreq : s.request = r at h hs
  cases h with
  | ready =>
    obtain rfl := Option.some.inj hs
    exact .inl ⟨.load, s.slot, .load, rfl⟩
  | load =>
    obtain rfl := Option.some.inj hs
    exact .inl ⟨.branch s.state, s.slot, .branch hP, rfl⟩
  | branch he =>
    rename_i e
    left
    rcases hrun e he with rfl | rfl
    · cases ha : s.action with
      | detach =>
        simp only [ha] at hs
        obtain rfl := Option.some.inj hs
        exact ⟨.cas runningJoinable runningDetached, s.slot, .cas he (by simp), rfl⟩
      | join =>
        simp only [ha] at hs
        obtain rfl := Option.some.inj hs
        exact ⟨.writeCallback, s.slot, .writeCallback rfl he, rfl⟩
    · obtain rfl := Option.some.inj hs
      exact ⟨.cas .zombie .finished, s.slot, .cas he (by simp), rfl⟩
  | writeCallback ha he =>
    obtain rfl := Option.some.inj hs
    refine .inl ⟨.cas runningJoinable runningJoining, .callback, ?_, rfl⟩
    rw [ha]
    exact .cas he fun _ _ => rfl
  | cas he hw =>
    rename_i e
    simp only at hs
    split_ifs at hs with hc
    · obtain rfl := Option.some.inj hs
      obtain ⟨rfl, -⟩ := hc
      exact .inr ⟨hw, rfl⟩
    · obtain rfl := Option.some.inj hs
      exact .inl ⟨.branch s.state, s.slot, .branch hP, rfl⟩

/-! ## Steps of the two parties -/

theorem finalStep_inv {s t : Promise} {b : Bool} (hi : s.Inv) (hs : s.finalStep b = some t) : t.Inv := by
  obtain ⟨a, st, slot, done, f, r, ret, cb, d, u, w⟩ := s
  obtain ⟨hm, hb, hu, hw⟩ := hi
  simp only at hm hb hu hw
  subst hu hw
  cases hm with
  | joinable hf hr =>
    rcases finalStep_trying (P := (· = runningJoinable)) rfl hf rfl (fun e he => .inl he) hs with
      ⟨f', done', hf', hb', rfl⟩ | ⟨hne, rfl⟩
    · exact ⟨.joinable hf' hr, .inr (hb' hb.symm), rfl, rfl⟩
    · exact ⟨.zombie .won (hr.mono fun e he => .inl he), .inr (hb.resolve_left hne), rfl, rfl⟩
  | zombie hf hr =>
    cases hf with
    | won =>
      obtain rfl := Option.some.inj hs
      exact ⟨.zombie .done hr, .inr (hb.resolve_left (by simp)), rfl, rfl⟩
    | done => cases hs
  | claimed hf hr hslot =>
    have hrun : ∀ e, e = runningJoinable ∨ e = a.claim → e = runningJoinable ∨ e = runningDetached ∨
        e = runningJoining := by
      rintro e (rfl | rfl)
      · exact .inl rfl
      · cases a <;> simp [Action.claim]
    rcases finalStep_trying rfl hf (.inr rfl) hrun hs with ⟨f', done', hf', hb', rfl⟩ | ⟨hne, rfl⟩
    · exact ⟨.claimed hf' hr hslot, .inr (hb' hb.symm), rfl, rfl⟩
    · refine ⟨?_, .inr (hb.resolve_left hne), rfl, rfl⟩
      cases a with
      | detach => exact .freed .won hr
      | join =>
        obtain rfl := hslot rfl
        exact .called .won hr
  | collected hf hr =>
    cases hf with
    | won =>
      obtain rfl := Option.some.inj hs
      exact ⟨.collected .done hr, .inr (hb.resolve_left (by simp)), rfl, rfl⟩
    | done => cases hs
  | freed hf hr =>
    cases hf with
    | won =>
      obtain rfl := Option.some.inj hs
      exact ⟨.freed .destroy hr, .inr (hb.resolve_left (by simp)), rfl, rfl⟩
    | destroy =>
      obtain rfl := Option.some.inj hs
      exact ⟨.freed .done hr, .inr (hb.resolve_left (by simp)), rfl, rfl⟩
    | done => cases hs
  | called hf hr =>
    have hdone : done = true := hb.resolve_left (by rintro rfl; cases hf)
    cases hf with
    | won =>
      obtain rfl := Option.some.inj hs
      exact ⟨.called .readCallback hr, .inr hdone, rfl, rfl⟩
    | readCallback =>
      obtain rfl := Option.some.inj hs
      exact ⟨.called .invoke hr, .inr hdone, rfl, rfl⟩
    | invoke =>
      obtain rfl := Option.some.inj hs
      refine ⟨.woken ?_, .inr hdone, rfl, rfl⟩
      cases hr with
      | won => exact .won
      | waiting => exact .waiting
  | woken hr => cases hs

theorem requestStep_inv {s t : Promise} {b : Bool} (hi : s.Inv) (hs : s.requestStep b = some t) : t.Inv := by
  obtain ⟨a, st, slot, done, f, r, ret, cb, d, u, w⟩ := s
  obtain ⟨hm, hb, hu, hw⟩ := hi
  simp only at hm hb hu hw
  subst hu hw
  cases hm with
  | joinable hf hr =>
    rcases requestStep_trying (P := (· = runningJoinable)) rfl hr rfl (fun e he => .inl he) hs with
      ⟨r', slot', hr', rfl⟩ | ⟨hslot, rfl⟩
    · exact ⟨.joinable hf hr', hb, rfl, rfl⟩
    · exact ⟨.claimed (hf.mono fun e he => .inl he) .won fun ha => hslot ha rfl, hb, rfl, rfl⟩
  | zombie hf hr =>
    rcases requestStep_trying rfl hr (.inr rfl) (fun e he => he) hs with ⟨r', slot', hr', rfl⟩ | ⟨hslot, rfl⟩
    · exact ⟨.zombie hf hr', hb, rfl, rfl⟩
    · exact ⟨.collected hf .won, hb, rfl, rfl⟩
  | claimed hf hr hslot =>
    cases hr with
    | won =>
      cases a with
      | detach =>
        obtain rfl := Option.some.inj hs
        exact ⟨.claimed hf .done hslot, hb, rfl, rfl⟩
      | join =>
        obtain rfl := Option.some.inj hs
        exact ⟨.claimed hf .waiting hslot, hb, rfl, rfl⟩
    | done => cases hs
    | waiting => cases hs
  | collected hf hr =>
    cases hr with
    | won =>
      cases a with
      | detach =>
        obtain rfl := Option.some.inj hs
        exact ⟨.collected hf .destroyDetached, hb, rfl, rfl⟩
      | join =>
        obtain rfl := Option.some.inj hs
        exact ⟨.collected hf .readResult, hb, rfl, rfl⟩
    | destroyDetached =>
      obtain rfl := Option.some.inj hs
      exact ⟨.collected hf .doneDetached, hb, rfl, rfl⟩
    | readResult =>
      obtain rfl := Option.some.inj hs
      exact ⟨.collected hf .destroy, hb, rfl, rfl⟩
    | destroy =>
      obtain rfl := Option.some.inj hs
      exact ⟨.collected hf .done, hb, rfl, rfl⟩
    | doneDetached | done => cases hs
  | freed hf hr =>
    cases hr with
    | won =>
      obtain rfl := Option.some.inj hs
      exact ⟨.freed hf .done, hb, rfl, rfl⟩
    | done => cases hs
  | called hf hr =>
    cases hr with
    | won =>
      obtain rfl := Option.some.inj hs
      exact ⟨.called hf .waiting, hb, rfl, rfl⟩
    | waiting => cases hs
  | woken hr =>
    cases hr with
    | won =>
      obtain rfl := Option.some.inj hs
      exact ⟨.woken .waiting, hb, rfl, rfl⟩
    | waiting =>
      obtain rfl := Option.some.inj hs
      exact ⟨.woken .readResult, hb, rfl, rfl⟩
    | readResult =>
      obtain rfl := Option.some.inj hs
      exact ⟨.woken .destroy, hb, rfl, rfl⟩
    | destroy =>
      obtain rfl := Option.some.inj hs
      exact ⟨.woken .done, hb, rfl, rfl⟩
    | done => cases hs

theorem step_inv {s t : Promise} (op : Op) (hi : s.Inv) (hs : step s op = some t) : t.Inv := by
  cases op with
  | final b => exact finalStep_inv hi hs
  | request b => exact requestStep_inv hi hs

/-! ## How long a run can be -/

/-- Steps the coroutine still needs when the state stays as it is.  An expectation that became stale costs a failed
exchange. -/
def finalRank (st : PromiseState) : Final → ℕ
  | .body => 17
  | .load => 16
  | .branch e => if e = st then 10 else 15
  | .cas e _ => if e = st then 9 else 14
  | .won _ => 3
  | .readCallback => 2
  | .destroy | .invoke _ | .readCaller => 1
  | .done | .panicked => 0

def requestRank (st : PromiseState) : Consumer → ℕ
  | .ready => 18
  | .load => 17
  | .branch e => if e = st then 12 else 16
  | .writeCallback => if runningJoinable = st then 11 else 15
  | .cas e _ => if e = st then 10 else 14
  | .won _ => 4
  | .waiting => 3
  | .readResult => 2
  | .destroy => 1
  | .done | .panicked => 0

def rank (s : Promise) : ℕ := finalRank s.state s.final + requestRank s.state s.request

/-- What a spurious failure can add to the rank. -/
def Op.cost : Op → ℕ
  | .final b | .request b => if b then 3 else 0

theorem finalRank_le (st st' : PromiseState) (f : Final) : finalRank st f ≤ finalRank st' f + 5 := by
  cases f <;> grind [finalRank]

theorem requestRank_le (st st' : PromiseState) (r : Consumer) : requestRank st r ≤ requestRank st' r + 4 := by
  cases r <;> grind [requestRank]

theorem finalStep_rank {s t : Promise} {b : Bool} (hs : s.finalStep b = some t) :
    t.rank + 1 ≤ s.rank + if b then 3 else 0 := by
  -- a successful exchange may make the consumer's expectation stale
  have h := requestRank_le t.state s.state s.request
  unfold finalStep at hs
  split at hs <;> grind [rank, touch, destroyFrame, finalRank]

theorem requestStep_rank {s t : Promise} {b : Bool} (hs : s.requestStep b = some t) :
    t.rank + 1 ≤ s.rank + if b then 3 else 0 := by
  have h := finalRank_le t.state s.state s.final
  unfold requestStep at hs
  split at hs <;> grind [rank, touch, destroyFrame, requestRank]

theorem step_rank (s : Promise) (op : Op) (t : Promise) (hs : step s op = some t) : t.rank + 1 ≤ s.rank + op.cost := by
  cases op with
  | final b => exact finalStep_rank hs
  | request b => exact requestStep_rank hs

/-! ## What holds in every state reached -/

structure Handover (s : Promise) : Prop where
  destroyedOnce : s.destroyed ≤ 1
  alive : s.useAfterDestroy = false
  tame : s.wildCall = false
  noPanic : s.final ≠ .panicked ∧ s.request ≠ .panicked
  calledOnce : s.callbacks ≤ 1
  notCalled : s.returned = some false → s.callbacks = 0
  called : s.returned = some true → s.final = .done → s.callbacks = 1
  calledAfter : s.callbacks ≠ 0 → s.bodyDone = true
  readAfter : s.request = .readResult → s.bodyDone = true
  destroyedAfter : s.destroyed ≠ 0 → s.bodyDone = true
  destroyedEnd : s.final = .done → s.request = .done → s.destroyed = 1
  /-- A party that waits, waits for the other. -/
  goesOn : s.final ≠ .done ∨ s.request ≠ .done → ∃ op, (step s op).isSome

theorem finalStep_isSome {s : Promise} (h1 : s.final ≠ .done) (h2 : s.final ≠ .panicked) :
    (s.finalStep false).isSome := by
  unfold finalStep
  split
  case h_8 => split <;> rfl
  all_goals first | rfl | contradiction

theorem requestStep_isSome {s : Promise} (h1 : s.request ≠ .done) (h2 : s.request ≠ .panicked)
    (h3 : s.request = .waiting → s.callbacks ≠ 0) : (s.requestStep false).isSome := by
  unfold requestStep
  split
  case h_9 hw => rw [if_neg (h3 hw)]; rfl
  all_goals first | rfl | contradiction | (split <;> rfl)

/-- What the situations have in common. -/
theorem Meets.counts {a : Action} {st : PromiseState} {slot : Slot} {f : Final} {r : Consumer} {ret : Option Bool}
    {cb d : ℕ} (h : Meets a st slot f r ret cb d) :
    (d ≤ 1 ∧ cb ≤ 1) ∧ (f ≠ .panicked ∧ r ≠ .panicked) ∧ (ret = some false → cb = 0) ∧
      (ret = some true → f = .done → cb = 1) ∧ (f = .body → cb = 0 ∧ d = 0 ∧ r ≠ .readResult) ∧
      (f = .done → r = .done → d = 1) ∧ (f = .done → r = .waiting → cb ≠ 0) := by
  cases h with
  | joinable hf hr => cases hf <;> cases hr <;> simp
  | zombie hf hr => cases hf <;> cases hr <;> simp
  | claimed hf hr hslot => cases hf <;> cases hr <;> simp
  | collected hf hr => cases hf <;> cases hr <;> simp
  | freed hf hr => cases hf <;> cases hr <;> simp
  | called hf hr => cases hf <;> cases hr <;> simp
  | woken hr => cases hr <;> simp

theorem Inv.handover {s : Promise} (hi : s.Inv) : s.Handover := by
  obtain ⟨⟨hd, hcb⟩, hp, hfalse, htrue, hbody, hend, hwait⟩ := hi.meets.counts
  have hafter : ∀ {p : Prop}, (s.final = .body → ¬ p) → p → s.bodyDone = true :=
    fun h hp => hi.body.resolve_left fun hb => h hb hp
  refine ⟨hd, hi.alive, hi.tame, hp, hcb, hfalse, htrue, hafter fun hb h => h (hbody hb).1,
    hafter fun hb => (hbody hb).2.2, hafter fun hb h => h (hbody hb).2.1, hend, fun h => ?_⟩
  by_cases hf : s.final = .done
  · exact ⟨.request false, requestStep_isSome (h.resolve_left (not_not.mpr hf)) hp.2 (hwait hf)⟩
  · exact ⟨.final false, finalStep_isSome hf hp.1⟩

/-- **One consumer, one destruction**: in every interleaving, the frame is destroyed once and not touched afterwards,
the callback is invoked once if `request_join` returned `true` and not at all if it returned `false`, neither it nor a
destruction comes before the end of the body, and no panic is reached.  A run can be continued until both parties are
through, and only spurious failures make it longer. -/
theorem handover_sound (a : Action) {ops : List Op} {s : Promise} (hrun : run step (spawned a) ops = some s) :
    s.Handover ∧ ops.length ≤ 35 + (ops.map Op.cost).sum := by
  refine ⟨(run_inv (fun _ op _ hi hs => step_inv op hi hs) ops (spawned_inv a) hrun).handover, ?_⟩
  have h : ops.length + s.rank ≤ 35 + (ops.map Op.cost).sum := run_length rank Op.cost step_rank ops hrun
  omega

/-- A join writes its callback and fails, once spuriously and once because the coroutine ended; it collects the zombie
while the coroutine is still on its way out. -/
def lateJoin : List Op :=
  [.request false, .request false, .request false, .request false, .request true, .request false, .request false,
    .final false, .final false, .final false, .final false, .request false, .request false, .request false,
    .request false, .request false, .request false, .final false]

theorem handover_sound_lateJoin : ∃ s, run step (spawned .join) lateJoin = some s ∧ s.final = .done ∧
    s.request = .done ∧ s.returned = some false ∧ s.callbacks = 0 ∧ s.destroyed = 1 ∧ s.useAfterDestroy = false := by
  have hsome : (run step (spawned .join) lateJoin).map (fun s => (s.final, s.request, s.returned)) =
      some (.done, .done, some false) := by decide +kernel
  obtain ⟨s, hs, hend⟩ := Option.map_eq_some_iff.mp hsome
  obtain ⟨hf, hr, hret⟩ : s.final = .done ∧ s.request = .done ∧ s.returned = some false := by simpa using hend
  obtain ⟨h, -⟩ := handover_sound .join hs
  exact ⟨s, hs, hf, hr, hret, h.notCalled hret, h.destroyedEnd hf hr, h.alive⟩

end Promise

end Condy
