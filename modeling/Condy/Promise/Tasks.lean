import Condy.ManagedBuffer
import Condy.Promise.Handover

/-!
# Condy.Promise.Tasks — who is responsible for a spawned frame

A program spawns coroutines and moves, detaches, awaits and waits for their `Task`s, while the coroutines complete and
the joins and detaches go on step by step (`Promise.step`).  A `Task` is its handle, the number of a frame; `Task`s are
moved and destroyed as other move-only objects (`ManagedBuffer.step`).  `wait()` and `co_await` move the handle out of
the `Task` before they look at anything else, so a `wait()` that throws because the thread runs a runtime leaves the
frame to nobody.  `frames_owned_iff` says that this, and a result whose move throws, are the only ways to lose a frame.
-/

namespace Condy

open Lib PromiseState

/-- `std::logic_error("Sync wait inside runtime")`, `std::invalid_argument("Task not joinable")`. -/
inductive TaskError where
  | syncWaitInsideRuntime | notJoinable
deriving DecidableEq, Repr

/-- The frames in the order they were spawned, and the handles of the `Task`s that are alive. -/
structure TaskSystem where
  frames : List Promise
  tasks : List (Option ℕ)
  panicked : Bool
deriving DecidableEq, Repr

inductive TaskOp where
  | coSpawn
  | construct | moveConstruct (k : ℕ) | moveAssign (k j : ℕ) | destroy (k : ℕ)
  | detach (k : ℕ) | coAwait (k : ℕ)
  /-- On a plain thread, or on one that runs a runtime. -/
  | wait (k : ℕ) (inRuntime : Bool)
  /-- A step of the coroutine, or of the join or detach in progress. -/
  | frame (f : ℕ) (op : Promise.Op)
  /-- The move of the result out of the promise throws. -/
  | moveThrows (f : ℕ)
deriving DecidableEq, Repr

namespace TaskSystem

def init : TaskSystem := ⟨[], [], false⟩

/-- Constructors, assignment and destructor.  They panic where a handle would be dropped. -/
def manage (s : TaskSystem) (op : ManagedBuffer.Op) : Option TaskSystem :=
  (ManagedBuffer.step none s.tasks op).map fun x =>
    if x.2.join.isSome then { s with panicked := true } else { s with tasks := x.1 }

/-- `std::exchange(handle_, nullptr)`. -/
def clear (s : TaskSystem) (k : ℕ) : TaskSystem := { s with tasks := s.tasks.set k none }

/-- `request_detach` or `request_join` begins. -/
def request (s : TaskSystem) (f : ℕ) (a : Action) : TaskSystem :=
  { s with frames := s.frames.modify f fun p => { p with action := a, request := .load } }

/-- `detach()`, which is not defined without a handle.  The handle is cleared at the end of the call; nobody may look at
the `Task` before. -/
def detach (s : TaskSystem) (k : ℕ) : Option TaskSystem :=
  (s.tasks[k]?).bind fun h => h.map fun f => (s.clear k).request f .detach

/-- `operator co_await` and `await_ready`. -/
def coAwait (s : TaskSystem) (k : ℕ) : Option (TaskSystem × Option TaskError) :=
  (s.tasks[k]?).map fun h =>
    match h with
    | none => (s.clear k, some .notJoinable)
    | some f => ((s.clear k).request f .join, none)

/-- `wait` and `wait_inner_`. -/
def wait (s : TaskSystem) (k : ℕ) (inRuntime : Bool) : Option (TaskSystem × Option TaskError) :=
  (s.tasks[k]?).map fun h =>
    if inRuntime then (s.clear k, some .syncWaitInsideRuntime)
    else match h with
      | none => (s.clear k, some .notJoinable)
      | some f => ((s.clear k).request f .join, none)

/-- A join or detach begins with an operation on a `Task`, not here. -/
def frameStep (s : TaskSystem) (f : ℕ) (op : Promise.Op) : Option TaskSystem :=
  (s.frames[f]?).bind fun p =>
    match op with
    | .final b => (p.finalStep b).map fun p' => { s with frames := s.frames.set f p' }
    | .request b =>
      if p.request = .ready then none else (p.requestStep b).map fun p' => { s with frames := s.frames.set f p' }

/-- `value()` throws, and `destroy()` behind it is not reached. -/
def moveThrows (s : TaskSystem) (f : ℕ) : Option TaskSystem :=
  (s.frames[f]?).bind fun p =>
    if p.request = .readResult then some { s with frames := s.frames.set f { p with request := .done } } else none

/-- The state after an operation and what it threw. -/
def exec (s : TaskSystem) : TaskOp → Option (TaskSystem × Option TaskError)
  | .coSpawn => some ({ s with
      frames := s.frames ++ [.spawned .join], tasks := s.tasks ++ [some s.frames.length] }, none)
  | .construct => (s.manage .construct).map (·, none)
  | .moveConstruct k => (s.manage (.moveConstruct k)).map (·, none)
  | .moveAssign k j => (s.manage (.moveAssign k j)).map (·, none)
  | .destroy k => (s.manage (.destroy k)).map (·, none)
  | .detach k => (s.detach k).map (·, none)
  | .coAwait k => s.coAwait k
  | .wait k inRuntime => s.wait k inRuntime
  | .frame f op => (s.frameStep f op).map (·, none)
  | .moveThrows f => (s.moveThrows f).map (·, none)

/-- After a panic nothing happens any more. -/
def step (s : TaskSystem) (op : TaskOp) : Option TaskSystem :=
  if s.panicked then none else (s.exec op).map Prod.fst

end TaskSystem

/-! ## Responsibility -/

/-- `detach()` was called: it or the end of the coroutine destroys the frame. -/
def Promise.detached (p : Promise) : Bool := decide (p.action = .detach) && decide (p.request ≠ .ready)

/-- A join is in progress. -/
def Promise.joining (p : Promise) : Bool := decide (p.action = .join) && decide (p.request ≠ .ready ∧ p.request ≠ .done)

namespace Promise

variable {p p' : Promise} {b : Bool}

/-- The frame is there while nobody claims it and while its result is read, and gone after a join. -/
theorem Meets.ends {a : Action} {st : PromiseState} {slot : Slot} {f : Final} {r : Consumer} {ret : Option Bool}
    {cb d : ℕ} (h : Meets a st slot f r ret cb d) :
    (r = .ready → d = 0) ∧ (a = .join → r = .done → d = 1) ∧ (r = .readResult → a = .join ∧ d = 0) := by
  cases h with
  | joinable hf hr => cases hr <;> simp
  | zombie hf hr => cases hr <;> simp
  | claimed hf hr hslot => cases hr <;> simp
  | collected hf hr => cases hr <;> simp
  | freed hf hr => cases hr <;> simp
  | called hf hr => cases hr <;> simp
  | woken hr => cases hr <;> simp

/-- Either action may claim a frame that is not claimed. -/
theorem Inv.claim (h : p.Inv) (hr : p.request = .ready) (a : Action) :
    Inv { p with action := a, request := .load } := by
  obtain ⟨hm, hb, hu, hw⟩ := h
  refine ⟨?_, hb, hu, hw⟩
  obtain ⟨a', st, slot, done, f, r, ret, cb, d, u, w⟩ := p
  simp only at hm hr
  subst hr
  cases hm with
  | joinable hf _ => exact .joinable hf .load
  | zombie hf _ => exact .zombie hf .load
  | claimed _ hr | collected _ hr | freed _ hr | called _ hr | woken hr => cases hr

theorem finalStep_request (hs : p.finalStep b = some p') : p'.request = p.request := by
  unfold finalStep at hs
  split at hs <;> grind [touch, destroyFrame]

theorem requestStep_claimed (hs : p.requestStep b = some p') : p'.request ≠ .ready := by
  unfold requestStep at hs
  split at hs <;> grind [touch, destroyFrame]

end Promise

namespace TaskSystem

variable {s s' : TaskSystem} {f k : ℕ} {p p' : Promise}

/-- The number of parties responsible for a frame: joinable `Task`s, its detached completion, a join in progress. -/
def responsible (s : TaskSystem) (f : ℕ) (p : Promise) : ℕ :=
  s.tasks.count (some f) + p.detached.toNat + p.joining.toNat

/-- Every frame that was not destroyed has one responsible party. -/
def Owned (s : TaskSystem) : Prop :=
  ∀ (f : ℕ) (p : Promise), s.frames[f]? = some p → p.destroyed = 0 → s.responsible f p = 1

/-- The operation does not lose a frame. -/
def harmless (s : TaskSystem) : TaskOp → Bool
  | .wait k true => (s.tasks[k]?).join.isNone
  | .moveThrows _ => false
  | _ => true

/-- The frame exists, and nobody has begun to join or detach it. -/
def unclaimed (s : TaskSystem) (f : ℕ) : Bool := (s.frames[f]?).any fun p => decide (p.request = .ready)

structure Good (s : TaskSystem) : Prop where
  promises : ∀ (f : ℕ) (p : Promise), s.frames[f]? = some p → p.Inv
  held : ∀ f, s.tasks.count (some f) = (s.unclaimed f).toNat

/-! ### Operations that lose no frame -/

/-- The good states have one responsible party for each frame. -/
theorem Good.owned (h : s.Good) : s.Owned := by
  intro f p hp hd
  obtain ⟨-, hdone, -⟩ := (h.promises f p hp).meets.ends
  have hheld : s.tasks.count (some f) = (decide (p.request = .ready)).toNat := by
    rw [h.held f, unclaimed, hp]
    rfl
  rw [responsible, hheld]
  by_cases hr : p.request = .ready
  · simp [hr, Promise.detached, Promise.joining]
  · cases ha : p.action with
    | detach => simp [hr, ha, Promise.detached, Promise.joining]
    | join =>
      have hne : p.request ≠ .done := fun hr => by
        have := hdone ha hr
        omega
      simp [hr, ha, hne, Promise.detached, Promise.joining]

theorem init_good : init.Good := ⟨fun f p hp => absurd hp (by simp [init]), fun f => rfl⟩

/-- The same handles are held, and the frames are the same. -/
theorem Good.tasks (h : s.Good) (hframes : s'.frames = s.frames)
    (hcount : ∀ f, s'.tasks.count (some f) = s.tasks.count (some f)) : s'.Good := by
  refine ⟨fun f p hp => h.promises f p (hframes ▸ hp), fun f => ?_⟩
  rw [hcount f, h.held f, unclaimed, unclaimed, hframes]

/-- One frame changes, and a handle is given up for it if it is claimed now. -/
theorem Good.set (h : s.Good) (hp : s.frames[f]? = some p) (hframes : s'.frames = s.frames.set f p') (hinv : p'.Inv)
    (hcount : ∀ o, s'.tasks.count (some o) = if o = f then (decide (p'.request = .ready)).toNat
      else s.tasks.count (some o)) : s'.Good := by
  have hlt : f < s.frames.length := (List.getElem?_eq_some_iff.mp hp).1
  refine ⟨fun o q hq => ?_, fun o => ?_⟩
  · rw [hframes] at hq
    rcases eq_or_ne o f with rfl | ho
    · rw [List.getElem?_set_self hlt] at hq
      exact Option.some.inj hq ▸ hinv
    · rw [List.getElem?_set_ne (Ne.symm ho)] at hq
      exact h.promises o q hq
  · rw [hcount o, unclaimed, hframes]
    rcases eq_or_ne o f with rfl | ho
    · rw [if_pos rfl, List.getElem?_set_self hlt]
      rfl
    · rw [if_neg ho, List.getElem?_set_ne (Ne.symm ho)]
      exact h.held o

theorem manage_good (h : s.Good) {op : ManagedBuffer.Op} (hs : s.manage op = some s') : s'.Good := by
  obtain ⟨⟨tasks, given⟩, hx, hs⟩ := Option.map_eq_some_iff.mp hs
  have hperm := ManagedBuffer.step_owned Option.isSome rfl op hx
  simp only at hs
  split_ifs at hs with hgiven
  · obtain rfl := hs
    exact h.tasks rfl fun _ => rfl
  · obtain rfl := hs
    refine h.tasks rfl fun f => ?_
    -- Nothing is given back, so the handles that are held stay as they are.
    have hnone : given.toList.filter Option.isSome = [] := by
      cases given with
      | none => rfl
      | some x =>
        cases x with
        | none => rfl
        | some f => exact absurd rfl hgiven
    rw [hnone, List.append_nil] at hperm
    have hcount := hperm.count_eq (some f)
    rw [List.count_filter rfl, List.count_filter rfl] at hcount
    exact hcount.symm

theorem coSpawn_good (h : s.Good) : Good { s with
    frames := s.frames ++ [.spawned .join], tasks := s.tasks ++ [some s.frames.length] } := by
  refine ⟨fun f p hp => ?_, fun f => ?_⟩
  · rcases List.mem_append.mp (List.mem_of_getElem? hp) with hm | hm
    · obtain ⟨o, ho⟩ := List.getElem?_of_mem hm
      exact h.promises o p ho
    · exact List.mem_singleton.mp hm ▸ Promise.spawned_inv .join
  · change (s.tasks ++ [some s.frames.length]).count (some f) = _
    rw [List.count_append, h.held f, List.count_singleton, unclaimed, unclaimed]
    rcases Nat.lt_trichotomy f s.frames.length with hf | rfl | hf
    · rw [List.getElem?_append_left hf]
      simp [Nat.ne_of_gt hf]
    · simp [Promise.spawned]
    · have h1 : s.frames[f]? = none := List.getElem?_eq_none (Nat.le_of_lt hf)
      have h2 : (s.frames ++ [Promise.spawned .join])[f]? = none := List.getElem?_eq_none (by simp; omega)
      rw [h1, h2]
      simp [Nat.ne_of_lt hf]

/-- What `std::exchange(handle_, nullptr)` does to the number of handles. -/
theorem count_clear {h : Option ℕ} (hk : s.tasks[k]? = some h) (f : ℕ) :
    s.tasks.count (some f) = (s.clear k).tasks.count (some f) + if h = some f then 1 else 0 := by
  have hcount := (ManagedBuffer.set_empty_owned Option.isSome Option.isSome_none hk).count_eq (some f)
  rw [List.count_append, List.count_filter rfl, List.count_filter rfl, List.count_filter rfl,
    List.count_singleton] at hcount
  simpa [clear] using hcount

/-- A `Task` without a handle stays as it is. -/
theorem clear_none (hk : s.tasks[k]? = some none) : s.clear k = s := by
  obtain ⟨hlt, hk⟩ := List.getElem?_eq_some_iff.mp hk
  rw [clear, ← hk, List.set_getElem_self]

theorem Good.unclaimed_of_held (h : s.Good) (hk : s.tasks[k]? = some (some f)) :
    ∃ p, s.frames[f]? = some p ∧ p.request = .ready ∧ (s.clear k).tasks.count (some f) = 0 := by
  have hcount := count_clear hk f
  rw [if_pos rfl, h.held f, unclaimed] at hcount
  cases hp : s.frames[f]? with
  | none =>
    rw [hp] at hcount
    simp at hcount
  | some p =>
    rw [hp] at hcount
    by_cases hr : p.request = .ready
    · refine ⟨p, rfl, hr, ?_⟩
      simpa [hr] using hcount
    · simp [hr] at hcount

theorem claim_good (h : s.Good) (hk : s.tasks[k]? = some (some f)) (a : Action) :
    ((s.clear k).request f a).Good := by
  obtain ⟨p, hp, hr, hzero⟩ := h.unclaimed_of_held hk
  have hclaim := (h.promises f p hp).claim hr a
  refine h.set hp ?_ hclaim ?_
  · change s.frames.modify f _ = _
    rw [List.modify_eq_set_getElem?, hp]
    rfl
  · intro o
    rcases eq_or_ne o f with rfl | ho
    · rw [if_pos rfl]
      exact hzero
    · rw [if_neg ho, count_clear hk o, if_neg (by simpa using Ne.symm ho)]
      rfl

theorem frameStep_good (h : s.Good) {op : Promise.Op} (hs : s.frameStep f op = some s') : s'.Good := by
  obtain ⟨p, hp, hs⟩ := Option.bind_eq_some_iff.mp hs
  have hinv := h.promises f p hp
  -- A step of the frame leaves it claimed or unclaimed, as the handles do.
  have hset : ∀ {p' : Promise}, p'.Inv → (p'.request = .ready ↔ p.request = .ready) →
      Good { s with frames := s.frames.set f p' } := by
    intro p' hinv' hiff
    refine h.set hp rfl hinv' fun o => ?_
    rcases eq_or_ne o f with rfl | ho
    · rw [if_pos rfl, h.held o, unclaimed, hp, decide_eq_decide.mpr hiff]
      rfl
    · rw [if_neg ho]
  cases op with
  | final b =>
    obtain ⟨p', hp', rfl⟩ := Option.map_eq_some_iff.mp hs
    exact hset (Promise.finalStep_inv hinv hp') (by rw [Promise.finalStep_request hp'])
  | request b =>
    obtain ⟨hne, hs⟩ := Option.ite_none_left_eq_some.mp hs
    obtain ⟨p', hp', rfl⟩ := Option.map_eq_some_iff.mp hs
    exact hset (Promise.requestStep_inv hinv hp') (iff_of_false (Promise.requestStep_claimed hp') hne)

/-! ### Operations that lose a frame -/

/-- Nobody is responsible for a frame whose handle was cleared and not used. -/
theorem not_owned_clear (h : s.Good) (hk : s.tasks[k]? = some (some f)) : ¬ (s.clear k).Owned := by
  obtain ⟨p, hp, hr, hzero⟩ := h.unclaimed_of_held hk
  intro ho
  have hone := ho f p hp ((h.promises f p hp).meets.ends.1 hr)
  rw [responsible, hzero] at hone
  simp [Promise.detached, Promise.joining, hr] at hone

/-- Nobody is responsible for a frame whose join has ended without destroying it. -/
theorem not_owned_moveThrows (h : s.Good) (hs : s.moveThrows f = some s') : ¬ s'.Owned := by
  obtain ⟨p, hp, hs⟩ := Option.bind_eq_some_iff.mp hs
  obtain ⟨hr, hs⟩ := Option.ite_none_right_eq_some.mp hs
  obtain rfl := Option.some.inj hs
  obtain ⟨hjoin, hd⟩ := (h.promises f p hp).meets.ends.2.2 hr
  have hlt : f < s.frames.length := (List.getElem?_eq_some_iff.mp hp).1
  have hzero : s.tasks.count (some f) = 0 := by
    rw [h.held f, unclaimed, hp]
    simp [hr]
  intro ho
  have hone := ho f { p with request := .done } (List.getElem?_set_self hlt) hd
  rw [responsible] at hone
  simp [hzero, Promise.detached, Promise.joining, hjoin] at hone

/-! ### Runs -/

/-- An operation leads from a good state to a good one, unless it loses a frame, and one that throws changes no `Task`
then. -/
theorem exec_good (h : s.Good) {op : TaskOp} {e : Option TaskError} (hop : s.harmless op = true)
    (hs : s.exec op = some (s', e)) : s'.Good ∧ (e ≠ none → s'.tasks = s.tasks) := by
  -- Most operations do not throw.
  have hquiet : ∀ {o : Option TaskSystem}, o.map (·, none) = some (s', e) → (∀ t, o = some t → t.Good) →
      s'.Good ∧ (e ≠ none → s'.tasks = s.tasks) := by
    intro o ho hgood
    obtain ⟨t, ht, he⟩ := Option.map_eq_some_iff.mp ho
    obtain ⟨rfl, rfl⟩ := Prod.mk.inj he
    exact ⟨hgood t ht, fun hne => absurd rfl hne⟩
  cases op with
  | coSpawn =>
    obtain ⟨rfl, rfl⟩ := Prod.mk.inj (Option.some.inj hs)
    exact ⟨coSpawn_good h, fun hne => absurd rfl hne⟩
  | construct => exact hquiet (o := s.manage .construct) hs fun t ht => manage_good h ht
  | moveConstruct k => exact hquiet hs fun t ht => manage_good h ht
  | moveAssign k j => exact hquiet hs fun t ht => manage_good h ht
  | destroy k => exact hquiet hs fun t ht => manage_good h ht
  | detach k =>
    refine hquiet hs fun t ht => ?_
    obtain ⟨x, hk, ht⟩ := Option.bind_eq_some_iff.mp ht
    obtain ⟨f, rfl, rfl⟩ := Option.map_eq_some_iff.mp ht
    exact claim_good h hk .detach
  | coAwait k =>
    obtain ⟨x, hk, he⟩ := Option.map_eq_some_iff.mp hs
    cases x with
    | none =>
      obtain ⟨rfl, rfl⟩ := Prod.mk.inj he
      rw [clear_none hk]
      exact ⟨h, fun _ => rfl⟩
    | some f =>
      obtain ⟨rfl, rfl⟩ := Prod.mk.inj he
      exact ⟨claim_good h hk .join, fun hne => absurd rfl hne⟩
  | wait k inRuntime =>
    obtain ⟨x, hk, he⟩ := Option.map_eq_some_iff.mp hs
    cases x with
    | none =>
      have hsame : s' = s := by
        rw [← clear_none hk]
        cases inRuntime <;> exact (Prod.mk.inj he).1.symm
      rw [hsame]
      exact ⟨h, fun _ => rfl⟩
    | some f =>
      cases inRuntime with
      | true =>
        rw [harmless, hk] at hop
        cases hop
      | false =>
        obtain ⟨rfl, rfl⟩ := Prod.mk.inj he
        exact ⟨claim_good h hk .join, fun hne => absurd rfl hne⟩
  | frame f op => exact hquiet hs fun t ht => frameStep_good h ht
  | moveThrows f => cases hop

/-- The other operations lose one. -/
theorem exec_loses (h : s.Good) {op : TaskOp} {e : Option TaskError} (hop : s.harmless op = false)
    (hs : s.exec op = some (s', e)) : ¬ s'.Owned ∧ (e ≠ none → s'.tasks ≠ s.tasks) := by
  unfold harmless at hop
  split at hop
  · next k =>
    obtain ⟨x, hk, he⟩ := Option.map_eq_some_iff.mp hs
    obtain ⟨rfl, rfl⟩ := Prod.mk.inj he
    cases x with
    | none =>
      rw [hk] at hop
      cases hop
    | some f =>
      refine ⟨not_owned_clear h hk, fun _ hsame => ?_⟩
      have hcount := count_clear hk f
      rw [hsame, if_pos rfl] at hcount
      omega
  · obtain ⟨t, ht, he⟩ := Option.map_eq_some_iff.mp hs
    obtain ⟨rfl, rfl⟩ := Prod.mk.inj he
    exact ⟨not_owned_moveThrows h ht, fun hne => absurd rfl hne⟩
  · cases hop

/-- **One responsible party for each frame**, in every interleaving of the operations on `Task`s, the joins and detaches
in progress and the coroutines, as long as no `wait()` on a joinable `Task` is called on a thread that runs a runtime and
no result throws when it is moved.  From each state reached so, the next operation keeps this if and only if it is none
of these two, and the same decides whether an operation that throws leaves the `Task`s as they were. -/
theorem frames_owned_iff {ops : List TaskOp} {s : TaskSystem} (hrun : run step init ops = some s)
    (hops : Along step (fun s op => s.harmless op = true) init ops) :
    s.Owned ∧ ∀ op s' e, s.exec op = some (s', e) →
      (s'.Owned ↔ s.harmless op = true) ∧ (e ≠ none → (s'.tasks = s.tasks ↔ s.harmless op = true)) := by
  have h : s.Good := by
    refine run_inv_along (fun s op s' h hop hs => ?_) ops init_good hops hrun
    obtain ⟨-, hs⟩ := Option.ite_none_left_eq_some.mp hs
    obtain ⟨⟨t, e⟩, hexec, rfl⟩ := Option.map_eq_some_iff.mp hs
    exact (exec_good h hop hexec).1
  refine ⟨h.owned, fun op s' e hs => ?_⟩
  cases hop : s.harmless op with
  | true =>
    obtain ⟨hgood, hthrow⟩ := exec_good h hop hs
    exact ⟨iff_of_true hgood.owned rfl, fun hne => iff_of_true (hthrow hne) rfl⟩
  | false =>
    obtain ⟨hlost, hthrow⟩ := exec_loses h hop hs
    exact ⟨iff_of_false hlost (by simp), fun hne => iff_of_false (hthrow hne) (by simp)⟩

/-- Two coroutines.  The first `Task` is moved and detached; the second is waited for on a plain thread, while its
coroutine ends.  The moved `Task` may then be waited for anywhere, and throws. -/
def twoTasks : List TaskOp :=
  [.coSpawn, .coSpawn, .moveConstruct 0, .detach 2, .wait 1 false, .frame 1 (.final false), .frame 1 (.request false),
    .wait 0 true, .frame 0 (.request false)]

theorem frames_owned_two : ∃ s, run step init twoTasks = some s ∧ s.Owned ∧ s.tasks = [none, none, none] ∧
    ∀ s' e, s.exec (.wait 0 true) = some (s', e) → s'.Owned := by
  have hsome : (run step init twoTasks).map TaskSystem.tasks = some [none, none, none] := by decide +kernel
  obtain ⟨s, hs, hend⟩ := Option.map_eq_some_iff.mp hsome
  obtain ⟨howned, hnext⟩ := frames_owned_iff hs (by decide +kernel)
  refine ⟨s, hs, howned, hend, fun s' e hw => (hnext _ s' e hw).1.mpr ?_⟩
  rw [harmless, hend]
  rfl

/-- `wait()` on the thread of a runtime throws and has cleared the handle.  The coroutine ends as a zombie, which nobody
destroys, and the `Task` is destroyed without a panic. -/
theorem wait_orphans_frame :
    (init.exec .coSpawn).bind (fun x => x.1.exec (.wait 0 true)) =
      some (⟨[.spawned .join], [none], false⟩, some .syncWaitInsideRuntime) ∧
    ∃ s p, run step init [.coSpawn, .wait 0 true, .frame 0 (.final false), .frame 0 (.final false),
        .frame 0 (.final false), .frame 0 (.final false), .frame 0 (.final false), .destroy 0] = some s ∧
      s.panicked = false ∧ s.tasks = [] ∧ s.frames = [p] ∧ p.state = .zombie ∧ p.final = .done ∧ p.destroyed = 0 ∧
      s.responsible 0 p = 0 ∧ ¬ s.Owned := by
  refine ⟨by decide +kernel, ⟨[{ Promise.spawned .join with
    state := .zombie, bodyDone := true, final := .done }], [], false⟩, _, by decide +kernel, rfl, rfl, rfl, rfl, rfl, rfl,
    by decide +kernel, fun ho => ?_⟩
  exact absurd (ho 0 _ rfl rfl) (by decide +kernel)

end TaskSystem

end Condy
