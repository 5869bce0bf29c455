import Condy.Coro.Inv
import Condy.Lib.Tickets

/-!
# Condy.Coro.Move — what the steps are made of

A step is taken apart into moves (`Move`).  A move carries coroutines from one spot to another and changes the frames that
takes; what holds in every run is proved of each move.  What `co_spawn` and the members of `Task` do is the same on every
thread (`Request`).  The rules say what is left to show for a move: `Inv.next` of the
frames it touches, `Inv.change` and `Inv.touch` for one frame, `Inv.remove` for a frame that is destroyed.
-/

namespace Condy.Coro

open Lib PromiseState

variable {ι V E : Type} [DecidableEq ι]

/-- What a body that is at its end returns or throws. -/
def Body.outcome : Body ι V E → Option (Outcome V E)
  | .coReturn v => some (.ok v)
  | .throw e => some (.error e)
  | _ => none

/-- The frame at its final suspension point, with the result in the promise. -/
def Frame.ends (fr : Frame ι V E) : Outcome V E → Frame ι V E
  | .ok v => { fr with value := some v, point := .final }
  | .error e => { fr with exception := some e, point := .final }

namespace Machine

/-- The runtimes behind a step on the thread of `r`, which then runs `x`. -/
structure RtNext (s : Machine ι V E) (r : ι) (x : Option ℕ) (pended : List (ι × ℕ)) (rt : ι → Rt) : Prop where
  self : (rt r).control.frame = x
  other : ∀ r', r' ≠ r → (rt r').control.frame = (s.rt r').control.frame
  enabled : ∀ r', (rt r').ringEnabled = (s.rt r').ringEnabled
  pending : ∀ r', PendRt pended r' (rt r')
  started : ∀ r', (rt r').control ≠ .outside → (rt r').ringEnabled = true

/-- A queue to which an item for `r` may go. -/
def Takes (s : Machine ι V E) (q : QueueId ι) (r : ι) : Prop :=
  q.runtime = r ∧ ((s.rt r).ringEnabled = true → q ≠ .globalQueue r)

/-- The thread of `r` runs the coroutine `f`, which has `b` to do. -/
structure OnThread (s : Machine ι V E) (r : ι) (f : ℕ) (fr : Frame ι V E) (b : Body ι V E) : Prop where
  control : (s.rt r).control.frame = some f
  frame : s.frames f = some fr
  point : fr.point = .running b

omit [DecidableEq ι] in
theorem OnThread.halt {s : Machine ι V E} {r : ι} {f : ℕ} {fr : Frame ι V E} {b : Body ι V E} (hf : s.OnThread r f fr b)
    (p : Option Panic) : OnThread { s with panicked := p } r f fr b := ⟨hf.control, hf.frame, hf.point⟩

/-- What `co_spawn` and the members of `Task` do to the task and its frame, but for a `wait()` that loses the handle. -/
inductive Request (s : Machine ι V E) : Event ι V E → Machine ι V E → Prop
  | spawn {r : ι} {b : Body ι V E} {q : QueueId ι} {rt : ι → Rt} (hq : s.Takes q r)
      (hrt : s.RtNext r (s.rt r).control.frame s.pended rt) : Request s (.spawn s.nextFrame b) { s with
      frames := Function.update s.frames s.nextFrame
        (some { Frame.new b s.nextFrame [] with state := .runningJoinable })
      rt, nextFrame := s.nextFrame + 1, tasks := s.tasks ++ [s.nextFrame]
      spawned := s.spawned ++ [(s.nextFrame, b)]
      queue := Function.update s.queue q (s.queue q ++ [.promise s.nextFrame]) }
  | detach {t : ℕ} {tf : Frame ι V E} (ht : t ∈ s.tasks) (htf : s.frames t = some tf)
      (hst : tf.state = .runningJoinable) : Request s (.detach t) { s with
      frames := Function.update s.frames t (some { tf with state := .runningDetached })
      tasks := s.tasks.erase t, taken := s.taken ++ [t] }
  | wait {t : ℕ} {tf : Frame ι V E} (ht : t ∈ s.tasks) (htf : s.frames t = some tf)
      (hst : tf.state = .runningJoinable) : Request s (.wait t) { s with
      frames := Function.update s.frames t (some { tf with state := .runningJoining, union := .callback .taskWaiter })
      tasks := s.tasks.erase t, taken := s.taken ++ [t], waiters := s.waiters ++ [t] }
  | collect {t : ℕ} {tf : Frame ι V E} {waited : List (ℕ × Outcome V E)} {e : Event ι V E} (ht : t ∈ s.tasks)
      (htf : s.frames t = some tf) (hst : tf.state = .zombie)
      (hw : (e = .detach t ∨ e = .join t) ∧ waited = s.waited ∨
        ∃ o, e = .wait t ∧ tf.outcome = some o ∧ waited = s.waited ++ [(t, o)]) : Request s e { s with
      frames := Function.update s.frames t none
      tasks := s.tasks.erase t, taken := s.taken ++ [t], destroyed := s.destroyed ++ [t], waited }
  | gone {t : ℕ} (ht : t ∉ s.tasks) (hk : t ∈ s.taken) :
      Request s (.wait t) { s with waited := s.waited ++ [(t, .error .notJoinable)] }

/-- The body `b` of a coroutine of the task `root` goes on with `b'`, having done `l`, with no other coroutine in between;
`s₁` is what that does to the machine. -/
inductive Goes (s : Machine ι V E) (root : ℕ) : Body ι V E → List (Event ι V E) → Machine ι V E → Body ι V E → Prop
  | sender {op : ℕ} {k : ℤ → Body ι V E} {res : ℤ} :
      Goes s root (.sender op k) [.sender op res] (s.note [.answer root op res]) (k res)
  | spawn {r : ι} {callee : Body ι V E} {k : ℕ → Body ι V E} {s₁ : Machine ι V E}
      (hr : s.Request (.spawn s.nextFrame callee) s₁) :
      Goes s root (.spawn r callee k) [.spawn s.nextFrame callee] s₁ (k s.nextFrame)
  | join {t : ℕ} {k : Outcome V E → Body ι V E} {tf : Frame ι V E} {o : Outcome V E} {s₁ : Machine ι V E}
      (htf : s.frames t = some tf) (ho : tf.outcome = some o) (hr : s.Request (.join t) s₁) :
      Goes s root (.join t k) [.join t] s₁ (k o)
  | refused {t : ℕ} {k : Outcome V E → Body ι V E} (ht : t ∉ s.tasks) (hk : t ∈ s.taken) :
      Goes s root (.join t k) [.refused t] s (k (.error .notJoinable))
  | detach {t : ℕ} {k : Body ι V E} {s₁ : Machine ι V E} (hr : s.Request (.detach t) s₁) :
      Goes s root (.detach t k) [.detach t] s₁ k
  | lose {t : ℕ} {k : Outcome V E → Body ι V E} (ht : t ∈ s.tasks) :
      Goes s root (.wait t k) [.wait t] { s.take t with orphans := s.orphans ++ [t] } (k (.error .insideRuntime))
  | waitGone {t : ℕ} {k : Outcome V E → Body ι V E} (ht : t ∉ s.tasks) (hk : t ∈ s.taken) :
      Goes s root (.wait t k) [.wait t] s (k (.error .insideRuntime))
  | drop {t : ℕ} {k : Body ι V E} : Goes s root (.drop t k) [] s k

inductive Move (s : Machine ι V E) : Machine ι V E → Prop
  | halt {p : Option Panic} : Move s { s with panicked := p }
  | rts {r : ι} {rt : ι → Rt} (hrt : s.RtNext r (s.rt r).control.frame s.pended rt) : Move s { s with rt }
  | run {r : ι} (hc : (s.rt r).control = .outside) : Move s { s with
      rt := Function.update s.rt r { s.rt r with control := .loop, ringEnabled := true }
      queue := Function.update (Function.update s.queue (.localQueue r)
        (s.queue (.localQueue r) ++ s.queue (.globalQueue r))) (.globalQueue r) [] }
  | advance {r : ι} {f : ℕ} {fr : Frame ι V E} {b b' : Body ι V E} {l : List (Event ι V E)} {s₁ : Machine ι V E}
      (hf : s.OnThread r f fr b) (hg : s.Goes fr.root b l s₁ b') : Move s (s₁.goOn f l b')
  | outside {e : Event ι V E} {s₁ : Machine ι V E} (hr : s.Request e s₁) : Move s (s₁.note [.outside e])
  | awaitKernel {r : ι} {f : ℕ} {fr : Frame ι V E} {op : ℕ} {k : ℤ → Body ι V E} {rt : ι → Rt}
      (hf : s.OnThread r f fr (.sender op k)) (hrt : s.RtNext r none (s.pended ++ [(r, f)]) rt) : Move s { s with
      frames := Function.update s.frames f (some { fr with point := .sender op r ⟨.frame f, none⟩ k })
      rt, kernel := s.kernel ++ [(r, f)], pended := s.pended ++ [(r, f)] }
  | awaitWaits {r : ι} {f : ℕ} {fr : Frame ι V E} {op : ℕ} {k : ℤ → Body ι V E} {rt : ι → Rt}
      (hf : s.OnThread r f fr (.sender op k)) (hrt : s.RtNext r none (s.pended ++ [(r, f)]) rt) : Move s { s with
      frames := Function.update s.frames f (some { fr with point := .sender op r ⟨.frame f, none⟩ k })
      rt, waits := s.waits ++ [(r, f)], pended := s.pended ++ [(r, f)] }
  | awaitTask {r : ι} {f t : ℕ} {fr tf : Frame ι V E} {k : Outcome V E → Body ι V E} {rt : ι → Rt}
      (hf : s.OnThread r f fr (.join t k)) (hne : t ≠ f) (ht : t ∈ s.tasks) (htf : s.frames t = some tf)
      (hst : tf.state = .runningJoinable) (hrt : s.RtNext r none (s.pended ++ [(r, f)]) rt) : Move s { s with
      frames := Function.update (Function.update s.frames f (some { fr with
        point := .task t r k, trace := fr.trace ++ [.join t] })) t
        (some { tf with state := .runningJoining, union := .callback (.taskAwaiter f r) })
      rt, tasks := s.tasks.erase t, taken := s.taken ++ [t], pended := s.pended ++ [(r, f)]
      log := s.log ++ [.body fr.root (.join t)] }
  | switch {r r' : ι} {f : ℕ} {fr : Frame ι V E} {k : Body ι V E} {q : QueueId ι} {rt : ι → Rt}
      (hf : s.OnThread r f fr (.switch r' k)) (hq : s.Takes q r') (hrt : s.RtNext r none s.pended rt) : Move s { s with
      frames := Function.update s.frames f (some { fr with point := .switched k })
      rt, queue := Function.update s.queue q (s.queue q ++ [.promise f]) }
  | call {r : ι} {f : ℕ} {fr : Frame ι V E} {callee : Body ι V E} {k : Outcome V E → Body ι V E} {rt : ι → Rt}
      (hf : s.OnThread r f fr (.call callee k)) (hrt : s.RtNext r (some s.nextFrame) s.pended rt) : Move s { s with
      frames := Function.update (Function.update s.frames f (some { fr with point := .call s.nextFrame callee k }))
        s.nextFrame (some { Frame.new callee fr.root (fr.before ++ fr.trace) with
          union := .callerHandle (.frame f), point := .running callee })
      rt, nextFrame := s.nextFrame + 1 }
  | callReturn {r : ι} {g c : ℕ} {gf cf : Frame ι V E} {b callee : Body ι V E} {o : Outcome V E}
      {k : Outcome V E → Body ι V E} {rt : ι → Rt} (hg : s.OnThread r g gf b) (ho : b.outcome = some o)
      (hst : gf.state = .idle) (hu : gf.union = .callerHandle (.frame c)) (hc : s.frames c = some cf)
      (hp : cf.point = .call g callee k) (hrt : s.RtNext r (some c) s.pended rt) : Move s { s with
      frames := Function.update (Function.update s.frames g none) c
        (some { cf with point := .running (k o), trace := cf.trace ++ gf.trace })
      rt, destroyed := s.destroyed ++ [g] }
  | endZombie {r : ι} {f : ℕ} {fr : Frame ι V E} {b : Body ι V E} {o : Outcome V E} {rt : ι → Rt}
      (hf : s.OnThread r f fr b) (ho : b.outcome = some o) (hst : fr.state = .runningJoinable)
      (hrt : s.RtNext r none s.pended rt) : Move s { s with
      frames := Function.update s.frames f (some { fr.ends o with state := .zombie })
      rt, ended := s.ended ++ [(f, o)] }
  | endDetached {r : ι} {f : ℕ} {fr : Frame ι V E} {b : Body ι V E} {o : Outcome V E} {rt : ι → Rt}
      (hf : s.OnThread r f fr b) (ho : b.outcome = some o) (hst : fr.state = .runningDetached)
      (hrt : s.RtNext r none s.pended rt) : Move s { s with
      frames := Function.update s.frames f none
      rt, ended := s.ended ++ [(f, o)], destroyed := s.destroyed ++ [f] }
  | endJoined {r r' : ι} {f c : ℕ} {fr : Frame ι V E} {b : Body ι V E} {o : Outcome V E} {q : QueueId ι} {rt : ι → Rt}
      (hf : s.OnThread r f fr b) (ho : b.outcome = some o) (hst : fr.state = .runningJoining)
      (hu : fr.union = .callback (.taskAwaiter c r')) (hq : s.Takes q r') (hrt : s.RtNext r none s.pended rt) :
      Move s { s with
      frames := Function.update s.frames f (some { fr.ends o with state := .finished })
      rt, ended := s.ended ++ [(f, o)], queue := Function.update s.queue q (s.queue q ++ [.promise c]) }
  | endWaited {r : ι} {f : ℕ} {fr : Frame ι V E} {b : Body ι V E} {o : Outcome V E} {rt : ι → Rt}
      (hf : s.OnThread r f fr b) (ho : b.outcome = some o) (hst : fr.state = .runningJoining)
      (hu : fr.union = .callback .taskWaiter) (hrt : s.RtNext r none s.pended rt) : Move s { s with
      frames := Function.update s.frames f (some { fr.ends o with state := .finished })
      rt, ended := s.ended ++ [(f, o)] }
  | start {r : ι} {f : ℕ} {fr : Frame ι V E} {b : Body ι V E} {q : QueueId ι} {l : List Work} {rt : ι → Rt}
      (hr : (s.rt r).control.frame = none) (hf : s.frames f = some fr)
      (hp : fr.point = .initial b ∨ fr.point = .switched b) (hq : (s.queue q).Perm (.promise f :: l))
      (hrt : s.RtNext r (some f) s.pended rt) : Move s { s with
      frames := Function.update s.frames f (some { fr with point := .running b })
      rt, queue := Function.update s.queue q l }
  | completeKernel {r : ι} {f : ℕ} {fr : Frame ι V E} {op : ℕ} {a : SenderAwaiter} {k : ℤ → Body ι V E} {res : ℤ}
      {l : List (ι × ℕ)} {rt : ι → Rt} (hr : (s.rt r).control.frame = none) (hf : s.frames f = some fr)
      (hp : fr.point = .sender op r a k) (hq : s.kernel.Perm ((r, f) :: l))
      (hrt : s.RtNext r (some f) (s.pended.erase (r, f)) rt) : Move s { s with
      frames := Function.update s.frames f (some { fr with
        point := .running (k res), trace := fr.trace ++ [.sender op res] })
      rt, kernel := l, pended := s.pended.erase (r, f)
      log := s.log ++ [.answer fr.root op res, .body fr.root (.sender op res)] }
  | completeWaiter {r : ι} {f : ℕ} {fr : Frame ι V E} {op : ℕ} {a : SenderAwaiter} {k : ℤ → Body ι V E} {res : ℤ}
      {q : QueueId ι} {l : List Work} {rt : ι → Rt} (hr : (s.rt r).control.frame = none) (hf : s.frames f = some fr)
      (hp : fr.point = .sender op r a k) (hq : (s.queue q).Perm (.waiter f res :: l))
      (hrt : s.RtNext r (some f) (s.pended.erase (r, f)) rt) : Move s { s with
      frames := Function.update s.frames f (some { fr with
        point := .running (k res), trace := fr.trace ++ [.sender op res] })
      rt, queue := Function.update s.queue q l, pended := s.pended.erase (r, f)
      log := s.log ++ [.body fr.root (.sender op res)] }
  | resumeTask {r : ι} {f t : ℕ} {fr tf : Frame ι V E} {k : Outcome V E → Body ι V E} {o : Outcome V E}
      {q : QueueId ι} {l : List Work} {rt : ι → Rt} (hr : (s.rt r).control.frame = none) (hf : s.frames f = some fr)
      (hp : fr.point = .task t r k) (htf : s.frames t = some tf) (hst : tf.state = .finished)
      (ho : tf.outcome = some o) (hq : (s.queue q).Perm (.promise f :: l))
      (hrt : s.RtNext r (some f) (s.pended.erase (r, f)) rt) : Move s { s with
      frames := Function.update (Function.update s.frames t none) f (some { fr with point := .running (k o) })
      rt, queue := Function.update s.queue q l, destroyed := s.destroyed ++ [t], pended := s.pended.erase (r, f) }
  | wake {r : ι} {f : ℕ} {fr : Frame ι V E} {op : ℕ} {a : SenderAwaiter} {k : ℤ → Body ι V E} {l : List (ι × ℕ)}
      {q : QueueId ι} {res : ℤ} {rt : ι → Rt} (hf : s.frames f = some fr) (hp : fr.point = .sender op r a k)
      (hw : s.waits.Perm ((r, f) :: l)) (hq : s.Takes q r)
      (hrt : s.RtNext r (s.rt r).control.frame s.pended rt) : Move s { s with
      rt, waits := l, queue := Function.update s.queue q (s.queue q ++ [.waiter f res])
      log := s.log ++ [.answer fr.root op res] }
  | waitReturn {t : ℕ} {tf : Frame ι V E} {o : Outcome V E} (ht : t ∈ s.waiters) (htf : s.frames t = some tf)
      (hst : tf.state = .finished) (ho : tf.outcome = some o) : Move s { s with
      frames := Function.update s.frames t none
      waiters := s.waiters.erase t, destroyed := s.destroyed ++ [t], waited := s.waited ++ [(t, o)] }

/-! ## Rules -/

variable {s s' : Machine ι V E} {loc loc' : ℕ → Option (Spot ι)} {f : ℕ} {fr : Frame ι V E} {r : ι} {q : QueueId ι}

section

variable (h : s.Inv loc)
include h

/-- The numbers to come name no frame. -/
theorem Inv.ne_of_fresh (hf : s.frames f = some fr) {x : ℕ} (hx : s.nextFrame ≤ x) : x ≠ f := by
  rintro rfl
  cases (h.fresh x hx).symm.trans hf

theorem Inv.loc_thread (hc : (s.rt r).control.frame = some f) : loc f = some (.thread r) :=
  h.located.mem_iff.mp (by simp [contents, hc])

theorem Inv.loc_queue {w : Work} (hw : w ∈ s.queue q) : loc w.frame = some (.queue q) :=
  h.located.mem_iff.mp (List.mem_map_of_mem hw)

theorem Inv.loc_kernel {x : ι × ℕ} (hx : x ∈ s.kernel) : loc x.2 = some .kernel :=
  h.located.mem_iff.mp (List.mem_map_of_mem hx)

theorem Inv.loc_waits {x : ι × ℕ} (hx : x ∈ s.waits) : loc x.2 = some .waits :=
  h.located.mem_iff.mp (List.mem_map_of_mem hx)

theorem Inv.loc_joins {c : ℕ} (hf : s.frames f = some fr) (hj : fr.joiner = some c) : loc c = some (.joins f) :=
  h.located.mem_iff.mp (by simp [contents, hf, hj])

end

omit [DecidableEq ι] in
theorem point_of_same {x : ℕ} (hsame : (s'.frames x).map Frame.point = (s.frames x).map Frame.point)
    (hf : s.frames x = some fr) : ∃ fr', s'.frames x = some fr' ∧ fr'.point = fr.point := by
  rw [hf, Option.map_some, Option.map_eq_some_iff] at hsame
  exact hsame

/-- The rule for moves.  `touched` are the coroutines that are at another point or spot then; what hangs on these stays
as it is for the others. -/
theorem Inv.next (h : s.Inv loc) (touched : ℕ → Prop)
    (hsame : ∀ f, ¬ touched f → (s'.frames f).map Frame.point = (s.frames f).map Frame.point ∧ loc' f = loc f)
    (hlocated : Located s'.contents loc') (howned : Located s'.holdings s'.ownerOf)
    (hshape : ∀ f fr, s'.frames f = some fr → (s.frames f = some fr ∧ loc' f = loc f) ∨ Shape f (loc' f) fr)
    (hgone : ∀ f, touched f → s'.frames f = none → loc' f = none)
    (hfresh : ∀ f, s'.nextFrame ≤ f → s'.frames f = none)
    (hworks : ∀ q, ∀ w ∈ s'.queue q, (w ∈ s.queue q ∧ ¬ touched w.frame) ∨
      ∃ fr, s'.frames w.frame = some fr ∧ w.Fits q.runtime fr.point)
    (hsenders : ∀ x ∈ s'.kernel ++ s'.waits, (x ∈ s.kernel ++ s.waits ∧ ¬ touched x.2) ∨
      ∃ fr op a k, s'.frames x.2 = some fr ∧ fr.point = .sender op x.1 a k)
    (hunion : ∀ t tf c r, s'.frames t = some tf → tf.union = .callback (.taskAwaiter c r) →
      (∃ tf', s.frames t = some tf' ∧ tf'.union = .callback (.taskAwaiter c r)) ∨
        ∃ cf k, s'.frames c = some cf ∧ cf.point = .task t r k)
    (htask : ∀ c cf t r k, touched c → s.frames c = some cf → cf.point = .task t r k →
      s'.frames t = none ∨ ∃ cf' k', s'.frames c = some cf' ∧ cf'.point = .task t r k')
    (hnodup : s'.pended.Nodup)
    (hpended : ∀ r f, ((r, f) ∈ s'.pended ↔ (r, f) ∈ s.pended ∧ ¬ touched f ∨
      touched f ∧ ∃ fr, s'.frames f = some fr ∧ fr.point.pends = some r))
    (hpending : ∀ r, PendRt s'.pended r (s'.rt r))
    (hstarted : ∀ r, (s'.rt r).control ≠ .outside → (s'.rt r).ringEnabled = true)
    (hflushed : ∀ r, (s'.rt r).ringEnabled = true → s'.queue (.globalQueue r) = [])
    (hsound : s'.fault = false) : s'.Inv loc' := by
  refine ⟨hlocated, howned, fun f fr hf => ?_, fun f hf => ?_, hfresh, fun q w hw => ?_, fun x hx => ?_,
    fun t tf c r htf hu => ?_, ⟨hnodup, fun r f => ?_⟩, hpending, hstarted, hflushed, hsound⟩
  · rcases hshape f fr hf with ⟨hf', hl⟩ | hs
    · exact hl ▸ h.shape f fr hf'
    · exact hs
  · by_cases ht : touched f
    · exact hgone f ht hf
    · obtain ⟨h1, h2⟩ := hsame f ht
      rw [hf, Option.map_none, eq_comm, Option.map_eq_none_iff] at h1
      exact h2.trans (h.gone f h1)
  · rcases hworks q w hw with ⟨hw, ht⟩ | hfit
    · obtain ⟨fr, hf, hfit⟩ := h.works q w hw
      obtain ⟨fr', hf', hp⟩ := point_of_same (hsame _ ht).1 hf
      exact ⟨fr', hf', hp ▸ hfit⟩
    · exact hfit
  · rcases hsenders x hx with ⟨hx, ht⟩ | hfit
    · obtain ⟨fr, op, a, k, hf, hp⟩ := h.senders x hx
      obtain ⟨fr', hf', hp'⟩ := point_of_same (hsame _ ht).1 hf
      exact ⟨fr', op, a, k, hf', hp'.trans hp⟩
    · exact hfit
  · rcases hunion t tf c r htf hu with ⟨tf', htf', hu'⟩ | hnew
    · obtain ⟨cf, k, hcf, hp⟩ := h.joined t tf' c r htf' hu'
      by_cases hc : touched c
      · rcases htask c cf t r k hc hcf hp with hnone | hnew
        · rw [hnone] at htf
          cases htf
        · exact hnew
      · obtain ⟨cf', hcf', hp'⟩ := point_of_same (hsame c hc).1 hcf
        exact ⟨cf', k, hcf', hp'.trans hp⟩
    · exact hnew
  · rw [hpended r f]
    by_cases ht : touched f
    · simp [ht]
    · have hiff : (∃ fr, s'.frames f = some fr ∧ fr.point.pends = some r) ↔
          ∃ fr, s.frames f = some fr ∧ fr.point.pends = some r := by
        constructor
        · rintro ⟨fr, hf, hp⟩
          obtain ⟨fr', hf', hp'⟩ := point_of_same (hsame f ht).1.symm hf
          exact ⟨fr', hf', by rw [hp', hp]⟩
        · rintro ⟨fr, hf, hp⟩
          obtain ⟨fr', hf', hp'⟩ := point_of_same (hsame f ht).1 hf
          exact ⟨fr', hf', by rw [hp', hp]⟩
      simp [ht, h.pended.2 r f, hiff]

/-! ### Contents and holdings of a changed state -/

omit [DecidableEq ι] in
/-- A spot holds the same when what it is read from is the same. -/
theorem contents_congr {o : Spot ι} (hrt : ∀ r, o = .thread r → (s'.rt r).control.frame = (s.rt r).control.frame)
    (hq : ∀ q, o = .queue q → s'.queue q = s.queue q) (hk : o = .kernel → s'.kernel = s.kernel)
    (hw : o = .waits → s'.waits = s.waits)
    (hj : ∀ t, o = .joins t → (s'.frames t).bind Frame.joiner = (s.frames t).bind Frame.joiner) :
    s'.contents o = s.contents o := by
  cases o with
  | thread r => simp [contents, hrt r rfl]
  | queue q => simp [contents, hq q rfl]
  | kernel => simp [contents, hk rfl]
  | waits => simp [contents, hw rfl]
  | joins t => simp [contents, hj t rfl]

omit [DecidableEq ι] in
/-- A holder has the same when what it is read from is the same. -/
theorem holdings_congr {p : Holder} (ht : p = .handle → s'.tasks ++ s'.orphans = s.tasks ++ s.orphans) (hw : p = .thread → s'.waiters = s.waiters)
    (hc : ∀ c, p = .caller c →
      ((s'.frames c).bind fun fr => fr.point.callee) = (s.frames c).bind fun fr => fr.point.callee)
    (hj : ∀ c, p = .joiner c →
      ((s'.frames c).bind fun fr => fr.point.target) = (s.frames c).bind fun fr => fr.point.target) :
    s'.holdings p = s.holdings p := by
  cases p with
  | handle => exact ht rfl
  | thread => exact hw rfl
  | caller c => simp only [holdings, hc c rfl]
  | joiner c => simp only [holdings, hj c rfl]

theorem update_none_eq_some {α : Type} {m : ℕ → Option α} {x : ℕ} {a : α} :
    Function.update m f none x = some a ↔ x ≠ f ∧ m x = some a := by
  rcases eq_or_ne x f with rfl | hx
  · simp
  · simp [hx]

theorem update_some_eq_some {α : Type} {m : ℕ → Option α} {x : ℕ} {a b : α} :
    Function.update m f (some b) x = some a ↔ x = f ∧ b = a ∨ x ≠ f ∧ m x = some a := by
  rcases eq_or_ne x f with rfl | hx
  · simp
  · simp [hx]

/-- A change of one entry that a function does not see. -/
theorem bind_update {α β : Type} {m : ℕ → Option α} {a : Option α} (g : α → Option β) (ha : a.bind g = (m f).bind g)
    (x : ℕ) : (Function.update m f a x).bind g = (m x).bind g := by
  rcases eq_or_ne x f with rfl | hx
  · rw [Function.update_self, ha]
  · rw [Function.update_of_ne hx]

theorem bind_update_ne {α β : Type} {m : ℕ → Option α} {a : Option α} (g : α → Option β) {x : ℕ} (hx : x ≠ f) :
    (Function.update m f a x).bind g = (m x).bind g := by
  rw [Function.update_of_ne hx]

omit [DecidableEq ι] in
theorem bind_update_of_eq {α : Type} {fr' : Frame ι V E} (g : Frame ι V E → Option α) (hf : s.frames f = some fr)
    (hg : g fr' = g fr) (x : ℕ) : (Function.update s.frames f (some fr') x).bind g = (s.frames x).bind g :=
  bind_update g (by rw [hf]; exact hg) x

/-- A frame changes and keeps what it holds and who holds it. -/
theorem Inv.owned_keep {fr' : Frame ι V E} (h : s.Inv loc) (hf : s.frames f = some fr)
    (hframes : s'.frames = Function.update s.frames f (some fr'))
    (htasks : s'.tasks ++ s'.orphans = s.tasks ++ s.orphans) (hwaiters : s'.waiters = s.waiters)
    (howner : fr'.owner = fr.owner)
    (hcallee : fr'.point.callee = fr.point.callee) (htarget : fr'.point.target = fr.point.target) :
    Located s'.holdings s'.ownerOf := by
  refine h.owned.congr (fun p => holdings_congr (fun _ => htasks) (fun _ => hwaiters) (fun c _ => ?_) fun c _ => ?_)
    fun x => ?_
  · rw [hframes, bind_update_of_eq (fun fr => fr.point.callee) hf hcallee c]
  · rw [hframes, bind_update_of_eq (fun fr => fr.point.target) hf htarget c]
  · rw [ownerOf, hframes]
    exact bind_update_of_eq Frame.owner hf howner x

theorem RtNext.control_frame {P : List (ι × ℕ)} {rt : ι → Rt} (hrt : s.RtNext r (s.rt r).control.frame P rt) (r' : ι) :
    (rt r').control.frame = (s.rt r').control.frame := by
  rcases eq_or_ne r' r with rfl | hr
  · exact hrt.self
  · exact hrt.other r' hr

/-- The other threads run what they ran. -/
theorem RtNext.contents_other {x : Option ℕ} {P : List (ι × ℕ)} {o : Spot ι} (hrt : s.RtNext r x P s'.rt)
    (hne : o ≠ .thread r) (ho : (∀ r', o ≠ .thread r') → s'.contents o = s.contents o) :
    s'.contents o = s.contents o := by
  by_cases hr : ∃ r', o = .thread r'
  · obtain ⟨r', rfl⟩ := hr
    simp only [contents, hrt.other r' fun he => hne (by rw [he])]
  · exact ho fun r' he => hr ⟨r', he⟩

/-- The coroutine on the thread of `r` goes to another spot. -/
theorem Inv.located_from_thread {p : Spot ι} {P : List (ι × ℕ)} (h : s.Inv loc)
    (hc : (s.rt r).control.frame = some f) (hrt : s.RtNext r none P s'.rt) (hp : .thread r ≠ p)
    (hput : (s'.contents p).Perm (s.contents p ++ [f]))
    (ho : ∀ o, (∀ r', o ≠ .thread r') → o ≠ p → s'.contents o = s.contents o) :
    Located s'.contents (Function.update loc f (some p)) := by
  refine h.located.move_one (p := .thread r) hp ?_ hput
    (fun o h1 h2 => hrt.contents_other h1 fun hthread => ho o hthread h2) (Function.update_self ..)
    fun v hv => Function.update_of_ne hv _ _
  simp [contents, hc, hrt.self]

/-- A coroutine comes to the thread of `r`, which was in the loop. -/
theorem Inv.located_to_thread {p : Spot ι} {P : List (ι × ℕ)} (h : s.Inv loc)
    (hr : (s.rt r).control.frame = none) (hrt : s.RtNext r (some f) P s'.rt) (hp : p ≠ .thread r)
    (htake : (s.contents p).Perm (f :: s'.contents p))
    (ho : ∀ o, (∀ r', o ≠ .thread r') → o ≠ p → s'.contents o = s.contents o) :
    Located s'.contents (Function.update loc f (some (.thread r))) := by
  refine h.located.move_one (q := .thread r) hp htake ?_
    (fun o h1 h2 => hrt.contents_other h2 fun hthread => ho o hthread h1) (Function.update_self ..)
    fun v hv => Function.update_of_ne hv _ _
  simp [contents, hr, hrt.self]

section

variable (h : s.Inv loc)
include h

theorem Inv.not_pended (hf : s.frames f = some fr) (hp : fr.point.pends = none) (r : ι) : (r, f) ∉ s.pended := by
  rw [h.pended.2 r f]
  rintro ⟨fr', hf', hp'⟩
  rw [hf, Option.some.injEq] at hf'
  rw [← hf', hp] at hp'
  cases hp'

omit h [DecidableEq ι] in
/-- A coroutine that pends nothing goes to a point where it pends nothing. -/
theorem pended_keep {P : List (ι × ℕ)} {p : Point ι V E} (hn : ∀ r, (r, f) ∉ P) (hp : p.pends = none) (r : ι)
    (x : ℕ) : (r, x) ∈ P ↔ (r, x) ∈ P ∧ x ≠ f ∨ x = f ∧ p.pends = some r := by
  constructor
  · intro hx
    refine .inl ⟨hx, ?_⟩
    rintro rfl
    exact hn r hx
  · rintro (⟨hx, -⟩ | ⟨-, hr⟩)
    · exact hx
    · rw [hp] at hr
      cases hr

omit h [DecidableEq ι] in
/-- A coroutine that pends nothing goes to a point where it pends work on `r`. -/
theorem mem_pend {P : List (ι × ℕ)} {r' : ι} {x : ℕ} (hn : (r', f) ∉ P) :
    (r', x) ∈ P ++ [(r, f)] ↔ (r', x) ∈ P ∧ x ≠ f ∨ x = f ∧ r = r' := by
  rw [List.mem_append, List.mem_singleton, Prod.mk.injEq]
  constructor
  · rintro (hx | ⟨rfl, rfl⟩)
    · refine .inl ⟨hx, ?_⟩
      rintro rfl
      exact hn hx
    · exact .inr ⟨rfl, rfl⟩
  · rintro (⟨hx, -⟩ | ⟨rfl, rfl⟩)
    · exact .inl hx
    · exact .inr ⟨rfl, rfl⟩

/-- A coroutine that is not in a queue is named by no item. -/
theorem Inv.not_queued (hl : ∀ q, loc f ≠ some (.queue q)) (q : QueueId ι) (w : Work) (hw : w ∈ s.queue q) :
    w.frame ≠ f := fun he => hl q (he ▸ h.loc_queue hw)

theorem Inv.not_sent (hk : loc f ≠ some .kernel) (hw : loc f ≠ some .waits) (x : ι × ℕ)
    (hx : x ∈ s.kernel ++ s.waits) : x.2 ≠ f := by
  rintro rfl
  rcases List.mem_append.mp hx with hx | hx
  · exact hk (h.loc_kernel hx)
  · exact hw (h.loc_waits hx)

/-- The item that is taken was the only one of its coroutine. -/
theorem Inv.taken_alone {w : Work} {l : List Work} (hq : (s.queue q).Perm (w :: l)) (q' : QueueId ι) (v : Work)
    (hv : v ∈ Function.update s.queue q l q') : v ∈ s.queue q' ∧ v.frame ≠ w.frame := by
  have hloc := h.loc_queue (q := q) (hq.symm.subset List.mem_cons_self)
  rcases eq_or_ne q' q with rfl | hne
  · rw [Function.update_self] at hv
    have hrest : w.frame ∉ l.map Work.frame := h.located.notMem_rest (p := Spot.queue q') (hq.map Work.frame)
    exact ⟨hq.symm.subset (List.mem_cons_of_mem w hv), fun he => hrest (he ▸ List.mem_map_of_mem hv)⟩
  · rw [Function.update_of_ne hne] at hv
    refine ⟨hv, fun he => hne ?_⟩
    have := h.loc_queue hv
    rw [he, hloc] at this
    simpa using this.symm

end

/-- The rule for moves that touch one frame. -/
theorem Inv.change (h : s.Inv loc) (fr' : Frame ι V E) {l : Option (Spot ι)} (hf : s.frames f = some fr)
    (hu : fr'.union = fr.union) (hpt : fr.point.target = none)
    (hframes : s'.frames = Function.update s.frames f (some fr'))
    (hrest : s'.nextFrame = s.nextFrame ∧ s'.fault = s.fault)
    (hlocated : Located s'.contents (Function.update loc f l)) (howned : Located s'.holdings s'.ownerOf)
    (hshape : Shape f l fr')
    (hworks : ∀ q, ∀ w ∈ s'.queue q, (w ∈ s.queue q ∧ w.frame ≠ f) ∨ w.frame = f ∧ w.Fits q.runtime fr'.point)
    (hsenders : ∀ x ∈ s'.kernel ++ s'.waits, (x ∈ s.kernel ++ s.waits ∧ x.2 ≠ f) ∨
      x.2 = f ∧ ∃ op a k, fr'.point = .sender op x.1 a k)
    (hnodup : s'.pended.Nodup)
    (hpended : ∀ r x, ((r, x) ∈ s'.pended ↔ (r, x) ∈ s.pended ∧ x ≠ f ∨ x = f ∧ fr'.point.pends = some r))
    (hpending : ∀ r, PendRt s'.pended r (s'.rt r))
    (hstarted : ∀ r, (s'.rt r).control ≠ .outside → (s'.rt r).ringEnabled = true)
    (hflushed : ∀ r, (s'.rt r).ringEnabled = true → s'.queue (.globalQueue r) = []) :
    s'.Inv (Function.update loc f l) := by
  have hf' : s'.frames f = some fr' := by rw [hframes, Function.update_self]
  refine h.next (· = f) (fun x hx => ⟨?_, Function.update_of_ne hx _ _⟩) hlocated howned ?_ ?_ (fun x hx => ?_)
    (fun q w hw => ?_) (fun x hx => ?_) ?_ ?_ hnodup (fun r x => ?_) hpending hstarted hflushed
    (hrest.2.trans h.sound)
  · rw [hframes, Function.update_of_ne hx]
  · intro x gr hgr
    rcases eq_or_ne x f with rfl | hx
    · obtain rfl := Option.some.inj (hf'.symm.trans hgr)
      rw [Function.update_self]
      exact .inr hshape
    · rw [hframes, Function.update_of_ne hx] at hgr
      exact .inl ⟨hgr, Function.update_of_ne hx _ _⟩
  · rintro x rfl hx
    rw [hf'] at hx
    cases hx
  · rw [hrest.1] at hx
    rw [hframes, Function.update_of_ne (h.ne_of_fresh hf hx)]
    exact h.fresh x hx
  · rcases hworks q w hw with hw | ⟨he, hfit⟩
    · exact .inl hw
    · exact .inr ⟨fr', he ▸ hf', hfit⟩
  · rcases hsenders x hx with hx | ⟨he, op, a, k, hp⟩
    · exact .inl hx
    · exact .inr ⟨fr', op, a, k, he ▸ hf', hp⟩
  · intro t tf c r htf htu
    rcases eq_or_ne t f with rfl | ht
    · obtain rfl := Option.some.inj (hf'.symm.trans htf)
      exact .inl ⟨fr, hf, hu ▸ htu⟩
    · rw [hframes, Function.update_of_ne ht] at htf
      exact .inl ⟨tf, htf, htu⟩
  · rintro c cf t r k rfl hcf hp
    obtain rfl := Option.some.inj (hf.symm.trans hcf)
    rw [hp] at hpt
    cases hpt
  · rw [hpended r x]
    refine or_congr_right ⟨?_, ?_⟩
    · rintro ⟨rfl, hp⟩
      exact ⟨rfl, fr', hf', hp⟩
    · rintro ⟨rfl, gr, hgr, hp⟩
      obtain rfl := Option.some.inj (hf'.symm.trans hgr)
      exact ⟨rfl, hp⟩

/-- The rule for moves that touch one frame and leave its promise as it is. -/
theorem Inv.touch (h : s.Inv loc) (fr' : Frame ι V E) {l : Option (Spot ι)} (hf : s.frames f = some fr)
    (hsame : fr'.state = fr.state ∧ fr'.union = fr.union ∧ fr'.exception = fr.exception ∧ fr'.value = fr.value)
    (hpt : fr.point.callee = none ∧ fr.point.target = none ∧ fr.point.isFinal = false)
    (hpt' : fr'.point.callee = none ∧ fr'.point.target = none ∧ fr'.point.isFinal = false)
    (hframes : s'.frames = Function.update s.frames f (some fr'))
    (hrest : s'.nextFrame = s.nextFrame ∧ s'.tasks ++ s'.orphans = s.tasks ++ s.orphans ∧ s'.waiters = s.waiters ∧
      s'.fault = s.fault)
    (hlocated : Located s'.contents (Function.update loc f l)) (hplace : fr'.point.Fits f l)
    (hworks : ∀ q, ∀ w ∈ s'.queue q, (w ∈ s.queue q ∧ w.frame ≠ f) ∨ w.frame = f ∧ w.Fits q.runtime fr'.point)
    (hsenders : ∀ x ∈ s'.kernel ++ s'.waits, (x ∈ s.kernel ++ s.waits ∧ x.2 ≠ f) ∨
      x.2 = f ∧ ∃ op a k, fr'.point = .sender op x.1 a k)
    (hnodup : s'.pended.Nodup)
    (hpended : ∀ r x, ((r, x) ∈ s'.pended ↔ (r, x) ∈ s.pended ∧ x ≠ f ∨ x = f ∧ fr'.point.pends = some r))
    (hpending : ∀ r, PendRt s'.pended r (s'.rt r))
    (hstarted : ∀ r, (s'.rt r).control ≠ .outside → (s'.rt r).ringEnabled = true)
    (hflushed : ∀ r, (s'.rt r).ringEnabled = true → s'.queue (.globalQueue r) = []) :
    s'.Inv (Function.update loc f l) := by
  obtain ⟨hst, hu, he, hv⟩ := hsame
  have howner : fr'.owner = fr.owner := by rw [Frame.owner, Frame.owner, hst, hu]
  have hshape := h.shape f fr hf
  refine h.change fr' hf hu hpt.2.1 hframes ⟨hrest.1, hrest.2.2.2⟩ hlocated
    (h.owned_keep hf hframes hrest.2.1 hrest.2.2.1 howner (hpt'.1.trans hpt.1.symm) (hpt'.2.1.trans hpt.2.1.symm))
    ⟨hplace, ?_, ?_, ?_⟩ hworks hsenders hnodup hpended hpending hstarted hflushed
  · rw [hpt'.2.2, hst, ← hshape.final, hpt.2.2]
  · have := hshape.result
    rw [hpt.2.2] at this
    rw [hpt'.2.2, he, hv]
    exact this
  · rw [hst, howner]
    exact hshape.owner

/-- The rule for moves that destroy the frame `g` and take nothing out of a queue. -/
theorem Inv.remove {g : ℕ} {gf : Frame ι V E} (h : s.Inv loc) (hg : s.frames g = some gf)
    (hpt : gf.point.target = none ∧ gf.point.pends = none) (hl : loc g = none ∨ ∃ r, loc g = some (.thread r))
    (hframes : s'.frames = Function.update s.frames g none)
    (hrest : s'.nextFrame = s.nextFrame ∧ s'.fault = s.fault)
    (hsame : s'.queue = s.queue ∧ s'.kernel = s.kernel ∧ s'.waits = s.waits ∧ s'.pended = s.pended)
    (hlocated : Located s'.contents (Function.update loc g none)) (howned : Located s'.holdings s'.ownerOf)
    (hpending : ∀ r, PendRt s'.pended r (s'.rt r))
    (hstarted : ∀ r, (s'.rt r).control ≠ .outside → (s'.rt r).ringEnabled = true)
    (henabled : ∀ r, (s'.rt r).ringEnabled = (s.rt r).ringEnabled) : s'.Inv (Function.update loc g none) := by
  obtain ⟨hqueue, hkernel, hwaits, hpended⟩ := hsame
  have hplace : (∀ q, loc g ≠ some (.queue q)) ∧ loc g ≠ some .kernel ∧ loc g ≠ some .waits := by
    rcases hl with hl | ⟨r, hl⟩ <;> rw [hl] <;> simp
  refine h.next (· = g) (fun x hx => ⟨?_, Function.update_of_ne hx _ _⟩) hlocated howned (fun x fr hf => .inl ?_) ?_
    (fun x hx => ?_) (fun q w hw => .inl ?_) (fun x hx => .inl ?_) (fun t tf c r htf hu => .inl ?_) ?_ ?_ (fun r x => ?_)
    hpending hstarted (fun r hr => ?_) (hrest.2.trans h.sound)
  · rw [hframes, Function.update_of_ne hx]
  · rw [hframes, update_none_eq_some] at hf
    exact ⟨hf.2, Function.update_of_ne hf.1 _ _⟩
  · rintro x rfl -
    exact Function.update_self ..
  · rw [hrest.1] at hx
    rw [hframes]
    rcases eq_or_ne x g with rfl | hne
    · exact Function.update_self ..
    · exact (Function.update_of_ne hne _ _).trans (h.fresh x hx)
  · rw [hqueue] at hw
    exact ⟨hw, h.not_queued hplace.1 q w hw⟩
  · rw [hkernel, hwaits] at hx
    exact ⟨hx, h.not_sent hplace.2.1 hplace.2.2 x hx⟩
  · rw [hframes, update_none_eq_some] at htf
    exact ⟨tf, htf.2, hu⟩
  · rintro c cf t r k rfl hcf hp
    obtain rfl := Option.some.inj (hg.symm.trans hcf)
    rw [hp] at hpt
    cases hpt.1
  · exact hpended ▸ h.pended.1
  · rw [hpended, hframes]
    refine (pended_keep (h.not_pended hg hpt.2) hpt.2 r x).trans (or_congr_right ⟨fun hx => ?_, ?_⟩)
    · rw [hpt.2] at hx
      cases hx.2
    · rintro ⟨rfl, fr, hf, -⟩
      exact absurd rfl (update_none_eq_some.mp hf).1
  · rw [hqueue]
    exact h.flushed r (by rw [← henabled, hr])

section

variable (h : s.Inv loc) {rt : ι → Rt} (hen : ∀ r', (rt r').ringEnabled = (s.rt r').ringEnabled)
include h hen

theorem Inv.flushed_same (r' : ι) (hr : (rt r').ringEnabled = true) : s.queue (.globalQueue r') = [] :=
  h.flushed r' (by rw [← hen, hr])

/-- An item goes to a queue that takes it. -/
theorem Inv.flushed_put (hq : s.Takes q r) (l : List Work) (r' : ι) (hr : (rt r').ringEnabled = true) :
    Function.update s.queue q l (.globalQueue r') = [] := by
  rw [hen] at hr
  have hne : (.globalQueue r' : QueueId ι) ≠ q := by
    rintro rfl
    obtain ⟨rfl, hg⟩ := hq
    exact hg hr rfl
  rw [Function.update_of_ne hne, h.flushed r' hr]

/-- An item is taken out of a queue. -/
theorem Inv.flushed_take {w : Work} {l : List Work} (hq : (s.queue q).Perm (w :: l)) (r' : ι)
    (hr : (rt r').ringEnabled = true) : Function.update s.queue q l (.globalQueue r') = [] := by
  rw [hen] at hr
  have hne : (.globalQueue r' : QueueId ι) ≠ q := by
    rintro rfl
    rw [h.flushed r' hr] at hq
    simpa using hq.length_eq
  rw [Function.update_of_ne hne, h.flushed r' hr]

end

/-- What is in a queue after an item was put into `q`. -/
theorem mem_update_append {queue : QueueId ι → List Work} {q q' : QueueId ι} {w v : Work}
    (hw : w ∈ Function.update queue q (queue q ++ [v]) q') : w ∈ queue q' ∨ w = v ∧ q' = q := by
  rcases eq_or_ne q' q with rfl | hne
  · rw [Function.update_self, List.mem_append, List.mem_singleton] at hw
    exact hw.imp_right fun he => ⟨he, rfl⟩
  · rw [Function.update_of_ne hne] at hw
    exact .inl hw

end Machine

end Condy.Coro
