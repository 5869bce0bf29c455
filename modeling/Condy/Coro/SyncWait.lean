import Condy.Coro.Loop
import Mathlib.Data.List.Nodup

/-!
# Condy.Coro.SyncWait — when `run()` returns

`run()` returns when its runtime has nothing to resume and no work pends on it.  When that is so of every runtime and no
item is under way, every coroutine that was spawned has ended (`idle_all_ended`), and the frames that are left belong to
tasks and threads that have not asked for the result yet, or have lost their handle.  So `sync_wait` on a runtime of its own does not block in `wait()`,
and gives what the coroutine returns as plain code (`sync_wait_returns`).
-/

namespace Condy.Coro

open Lib PromiseState

variable {ι V E : Type} [DecidableEq ι]

def Work.isWaiter : Work → Bool
  | .waiter _ _ => true
  | .promise _ => false

namespace Machine

variable {s s' : Machine ι V E} {loc : ℕ → Option (Spot ι)} {f : ℕ} {fr : Frame ι V E}

/-! ## Nothing to resume -/

/-- No thread runs a coroutine, no item is in a queue or under way, and no work pends. -/
structure Idle (s : Machine ι V E) : Prop where
  threads : ∀ r, (s.rt r).control.frame = none
  queues : ∀ q, s.queue q = []
  works : ∀ r, (s.rt r).pendingWorks = 0

section

variable (hi : s.Inv loc) (hidle : s.Idle)
include hi hidle

omit hidle in
/-- Nobody awaits a sender or a task on a runtime without pending works. -/
theorem Inv.pends_ne {r : ι} (hw : (s.rt r).pendingWorks = 0) (hf : s.frames f = some fr) : fr.point.pends ≠ some r := by
  intro hr
  have hmem : (r, f) ∈ s.pended := (hi.pended.2 r f).mpr ⟨fr, hf, hr⟩
  have hpos : 0 < s.pended.countP (fun p => p.1 = r) := List.countP_pos_iff.mpr ⟨(r, f), hmem, by simp⟩
  have hpend := hi.pending r
  rw [PendRt, hw] at hpend
  omega

/-- A coroutine that awaits no other one is at its end. -/
theorem Idle.final (hf : s.frames f = some fr) (hc : fr.point.callee = none) : fr.point = .final := by
  have hplace := (hi.shape f fr hf).place
  have hpends : ∀ r, fr.point.pends ≠ some r := fun r => hi.pends_ne (hidle.works r) hf
  have hnoqueue : ¬ ∃ q, loc f = some (.queue q) := by
    rintro ⟨q, hl⟩
    have hmem := hi.located.mem_iff.mpr hl
    simp [contents, hidle.queues q] at hmem
  cases hp : fr.point with
  | initial b | switched b =>
    rw [hp] at hplace
    exact absurd hplace hnoqueue
  | running b =>
    rw [hp] at hplace
    obtain ⟨r, hl⟩ := hplace
    have hmem := hi.located.mem_iff.mpr hl
    simp [contents, hidle.threads r] at hmem
  | call g b k =>
    rw [hp] at hc
    cases hc
  | sender op r a k => exact absurd (by rw [hp]; rfl) (hpends r)
  | task t r k => exact absurd (by rw [hp]; rfl) (hpends r)
  | final => rfl

/-- No coroutine awaits another one: the one it came to would be one that was called, at its end. -/
theorem Idle.callee_none (ht : s.Traced) (hf : s.frames f = some fr) : fr.point.callee = none := by
  by_contra hc
  obtain ⟨g, gf, hg, -, hst, hgc⟩ := ht.chain hi.fresh hf hc
  have hfin := (hi.shape g gf hg).final
  rw [hidle.final hi hg hgc, hst] at hfin
  simp [Point.isFinal] at hfin

end

/-- What is left when no runtime has anything to resume. -/
theorem Sound.all_ended (h : s.Sound) (hidle : s.Idle) :
    (∀ t b, (t, b) ∈ s.spawned →
      ∃ o, (t, o) ∈ s.ended ∧ ∀ o', Evals s.ended b (s.eventsOf t) (some o') ↔ o' = o) ∧
    ∀ f fr, s.frames f = some fr →
      fr.state = .zombie ∧ (f ∈ s.tasks ∨ f ∈ s.orphans) ∨ fr.state = .finished ∧ f ∈ s.waiters := by
  obtain ⟨loc, hi⟩ := h.inv
  have hfinal : ∀ f fr, s.frames f = some fr → fr.point = .final := fun f fr hf =>
    hidle.final hi hf (hidle.callee_none hi h.traced hf)
  refine ⟨fun t b hb => ?_, fun f fr hf => ?_⟩
  · rcases h.traced.live t b hb with ⟨o, ho⟩ | ⟨fr, hf, -, hnf⟩
    · obtain ⟨pre, post, heq⟩ := List.append_of_mem ho
      obtain ⟨b', hb', he⟩ := h.traced.ended pre t o post heq
      obtain rfl := h.traced.body_unique hb hb'
      have he' := he.mono (heq ▸ List.subset_append_left pre _ : pre ⊆ s.ended)
      exact ⟨o, ho, h.traced.evals_iff (List.Subset.refl _) he'⟩
    · rw [hfinal t fr hf] at hnf
      cases hnf
  · have hs := hi.shape f fr hf
    have hstate := hs.final
    rw [hfinal f fr hf] at hstate
    have hst : fr.state = .zombie ∨ fr.state = .finished := of_decide_eq_true hstate.symm
    obtain ⟨p, hp⟩ := Option.isSome_iff_exists.mp (hs.owner (by rcases hst with hst | hst <;> simp [hst]))
    have hmem : f ∈ s.holdings p := hi.owned.mem_iff.mpr (by rw [ownerOf, hf, Option.bind_some, hp])
    rcases hst with hst | hst
    · simp only [Frame.owner, hst, Option.some.injEq] at hp
      subst hp
      exact .inl ⟨hst, List.mem_append.mp hmem⟩
    · refine .inr ⟨hst, ?_⟩
      cases hu : fr.union with
      | callerHandle x => simp [Frame.owner, hst, hu] at hp
      | callback x =>
        cases x with
        | taskWaiter =>
          simp only [Frame.owner, hst, hu, Option.some.injEq] at hp
          subst hp
          exact hmem
        | taskAwaiter c r =>
          -- The coroutine in the callback would still await the task.
          obtain ⟨cf, k, hcf, hcp⟩ := hi.joined f fr c r hf hu
          rw [hfinal c cf hcf] at hcp
          cases hcp

/-- When no runtime has anything to resume, every coroutine that was spawned has ended, with what its body gives as plain
code and with nothing else, and every frame that is left is that of a task that holds its handle or has lost it in a
`wait()` in a coroutine, or of a thread in `wait()` that is about to return. -/
theorem idle_all_ended (ops : List (Op ι V E)) (hrun : run step init ops = some s) (hidle : s.Idle) : Account ops s ∧
    (∀ t b, (t, b) ∈ s.spawned →
      ∃ o, (t, o) ∈ s.ended ∧ ∀ o', Evals s.ended b (s.eventsOf t) (some o') ↔ o' = o) ∧
    ∀ f fr, s.frames f = some fr →
      fr.state = .zombie ∧ (f ∈ s.tasks ∨ f ∈ s.orphans) ∨ fr.state = .finished ∧ f ∈ s.waiters :=
  ⟨run_account hrun, (run_sound hrun).all_ended hidle⟩

theorem idle_all_ended_sum : ∃ s, run step init sumOps = some s ∧ s.Idle ∧ Account sumOps s ∧
    (∀ t b, (t, b) ∈ s.spawned →
      ∃ o, (t, o) ∈ s.ended ∧ ∀ o', Evals s.ended b (s.eventsOf t) (some o') ↔ o' = o) ∧
    ∀ f fr, s.frames f = some fr →
      fr.state = .zombie ∧ (f ∈ s.tasks ∨ f ∈ s.orphans) ∨ fr.state = .finished ∧ f ∈ s.waiters := by
  refine ⟨_, rfl, ?_, idle_all_ended sumOps rfl ?_⟩
  all_goals exact ⟨fun _ => rfl, fun q => by cases q <;> rfl, fun _ => rfl⟩

/-! ## `sync_wait` -/

variable {u u' : Machine Unit V E}

/-- With one runtime, what a coroutine schedules goes to the local queue. -/
theorem Puts.mail (h : u.Puts u' ()) : u'.queue (.mail ()) = u.queue (.mail ()) := by
  cases h with
  | quiet h => rw [h.queue]
  | schedule h hq hrt =>
    rw [h.queue, ← hq]
    simp [Machine.schedule, push]

/-- What happens while a thread is in `run()`: what the thread does, and completions of channel and futex waits. -/
def Op.inRun : Op ι V E → Bool
  | .pop _ | .message _ _ | .complete _ _ _ | .ack _ | .exec _ _ | .wake _ _ _ => true
  | _ => false

/-- `sync_wait` up to `wait()`: `co_spawn`, `allow_exit`, and `run()`, during which `ops` happens. -/
def syncWait (r : ι) (b : Body ι V E) (ops : List (Op ι V E)) : List (Op ι V E) :=
  [.coSpawn r b, .allowExit r, .run r] ++ ops ++ [.quit r]

/-- With one runtime, nobody is sent a message to start or go on, but for waits that complete. -/
theorem step_mail {op : Op Unit V E} (hop : op.inRun = true) (hs : u.step op = some u') (w : Work)
    (hw : w ∈ u'.queue (.mail ())) : w ∈ u.queue (.mail ()) ∨ w.isWaiter = true := by
  unfold step at hs
  split_ifs at hs
  cases op with
  | pop r =>
    simp only [act] at hs
    split at hs
    · obtain rfl := Option.some.inj hs
      rw [(invoke_quiet ..).queue] at hw
      exact .inl (by simpa using hw)
    · cases hs
  | message r i =>
    simp only [act] at hs
    split at hs
    · obtain rfl := Option.some.inj hs
      rw [(invoke_quiet ..).queue] at hw
      simp only [Function.update_self] at hw
      exact .inl (List.mem_of_mem_eraseIdx hw)
    · cases hs
  | complete r i res =>
    simp only [act] at hs
    split at hs
    · rw [if_pos trivial] at hs
      obtain rfl := Option.some.inj hs
      rw [(receive_quiet ..).queue] at hw
      exact .inl hw
    · cases hs
  | ack r =>
    simp only [act] at hs
    split_ifs at hs
    obtain rfl := Option.some.inj hs
    exact .inl hw
  | exec r how =>
    simp only [act] at hs
    split at hs
    · split at hs
      · obtain rfl := Option.some.inj hs
        exact .inl hw
      · split at hs
        · rw [(execBody_puts hs).mail] at hw
          exact .inl hw
        · obtain rfl := Option.some.inj hs
          exact .inl hw
    · cases hs
  | wake here i res =>
    simp only [act] at hs
    split_ifs at hs
    obtain ⟨x, hx, rfl⟩ := Option.map_eq_some_iff.mp hs
    obtain ⟨q, rt, heq, -, -⟩ := schedule_eq
      ({ u.note (u.answer x.2 res) with waits := u.waits.eraseIdx i }) here x.1 (.waiter x.2 res)
    rw [heq] at hw
    rcases mem_update_append hw with hw | ⟨rfl, -⟩
    · exact .inl hw
    · exact .inr rfl
  | _ => cases hop

/-- The states of `sync_wait` while it is in `run()`. -/
structure InSyncWait (b : Body Unit V E) (u : Machine Unit V E) : Prop where
  sound : u.Sound
  spawned : (0, b) ∈ u.spawned
  mail : ∀ w ∈ u.queue (.mail ()), w.isWaiter = true

theorem run_inSyncWait {b : Body Unit V E} {ops : List (Op Unit V E)} (hops : ∀ op ∈ ops, op.inRun = true)
    (hrun : run step init ([.coSpawn () b, .allowExit (), .run ()] ++ ops) = some u) : InSyncWait b u := by
  rw [run_append, Option.bind_eq_some_iff] at hrun
  obtain ⟨u₀, h₀, hrun⟩ := hrun
  refine run_inv_along (I := InSyncWait b) (G := fun _ op => op.inRun = true) (fun v op v' hv hop hs => ?_) ops ?_
    (along_of_forall ops u₀ fun op hop _ => hops op hop) hrun
  · exact ⟨step_sound hv.sound hs, step_spawned_subset hv.sound hs hv.spawned,
      fun w hw => (step_mail hop hs w hw).elim (hv.mail w) id⟩
  · refine ⟨run_sound h₀, ?_, ?_⟩
    · obtain rfl := Option.some.inj h₀
      exact List.mem_cons_self
    · obtain rfl := Option.some.inj h₀
      intro w hw
      cases hw

/-- When `run()` has returned, nothing is left to resume. -/
theorem quit_idle {b : Body Unit V E} (h : InSyncWait b u) (hs : u.step (.quit ()) = some u') : u'.Idle := by
  obtain ⟨loc, hi⟩ := h.sound.inv
  unfold step at hs
  split_ifs at hs
  simp only [act] at hs
  split_ifs at hs with hc
  obtain rfl := Option.some.inj hs
  obtain ⟨hloop, hlocal, hworks, -⟩ := hc
  refine ⟨fun r => rfl, fun q => ?_, fun r => ?_⟩
  · cases q with
    | localQueue r => exact hlocal
    | globalQueue r => exact hi.flushed () (hi.started () (by rw [hloop]; simp))
    | mail r =>
      by_contra hne
      obtain ⟨w, hw⟩ := List.exists_mem_of_ne_nil _ hne
      obtain ⟨fr, hf, hfit⟩ := hi.works (.mail ()) w hw
      cases w with
      | promise f => exact absurd (h.mail _ hw) (by simp [Work.isWaiter])
      | waiter f res =>
        -- The coroutine still pends work on the runtime.
        cases hp : fr.point with
        | sender op r' a k => exact absurd (by rw [hp]; rfl) (hi.pends_ne hworks hf)
        | _ => simp [hp, Work.Fits] at hfit
  · exact hworks

/-- `sync_wait` with a coroutine `b` on a runtime of its own: when `run()` has returned, every coroutine has ended, and
`wait()` returns at once, with what `b` returns or throws as plain code and with nothing else. -/
theorem sync_wait_returns (b : Body Unit V E) (ops : List (Op Unit V E)) (hops : ∀ op ∈ ops, op.inRun = true)
    (hrun : run step init (syncWait () b ops) = some u) (ht : 0 ∉ u.taken) :
    (∀ t b', (t, b') ∈ u.spawned → ∃ o, (t, o) ∈ u.ended) ∧
    ∃ u' o, u.step (.wait 0) = some u' ∧ u'.waited = u.waited ++ [(0, o)] ∧ (0, b) ∈ u'.spawned ∧ (0, o) ∈ u'.ended ∧
      (∀ o', Evals u'.ended b (u'.eventsOf 0) (some o') ↔ o' = o) ∧ Account (syncWait () b ops ++ [.wait 0]) u' := by
  have haccount : ∀ {u'}, u.step (.wait 0) = some u' → Account (syncWait () b ops ++ [.wait 0]) u' := fun hs =>
    run_account (by rw [run_append, hrun, Option.bind_some, run_cons, hs]; rfl)
  rw [syncWait, run_append, Option.bind_eq_some_iff] at hrun
  obtain ⟨u₁, h₁, hquit⟩ := hrun
  rw [run_cons, Option.bind_eq_some_iff] at hquit
  obtain ⟨u₂, hquit, hu⟩ := hquit
  obtain rfl := Option.some.inj hu
  have hin := run_inSyncWait hops h₁
  have hidle := quit_idle hin hquit
  have hsound := step_sound hin.sound hquit
  obtain ⟨loc, hi⟩ := hsound.inv
  have hspawned : (0, b) ∈ u₂.spawned := step_spawned_subset hin.sound hquit hin.spawned
  obtain ⟨hended, hframes⟩ := hsound.all_ended hidle
  refine ⟨fun t b' hb => (hended t b' hb).imp fun o ho => ho.1, ?_⟩
  have htask : 0 ∈ u₂.tasks := (hsound.books.handles _ hspawned).resolve_right ht
  obtain ⟨tf, htf, hst⟩ := hi.task_frame htask
  have hzombie : tf.state = .zombie := by
    rcases hframes 0 tf htf with ⟨hz, -⟩ | ⟨hfin, -⟩
    · exact hz
    · exact hst.resolve_left (by rw [hfin]; simp)
  obtain ⟨o, ho⟩ := hi.outcome htf (.inl hzombie)
  obtain ⟨o', ho', hevals⟩ := hended 0 b hspawned
  have hout : (0, o) ∈ u₂.ended := (hsound.traced.frames 0 tf htf).result o ho
  obtain rfl := hsound.traced.ended_unique hout ho'
  have hpanic : u₂.panicked = none := by
    unfold step at hquit
    split_ifs at hquit with hp
    simp only [act] at hquit
    split_ifs at hquit
    obtain rfl := Option.some.inj hquit
    exact Option.not_isSome_iff_eq_none.mp hp
  have hstep : u₂.step (.wait 0) = (u₂.wait 0).map (·.note [.outside (.wait 0)]) := if_neg (by simp [hpanic])
  rw [wait_zombie htask htf hzombie ho] at hstep
  refine ⟨_, o, hstep, rfl, hspawned, hout, ?_, haccount hstep⟩
  -- A call from outside is not what the task did.
  have hev : ∀ v : Machine Unit V E, v.log = u₂.log ++ [.outside (.wait 0)] → v.eventsOf 0 = u₂.eventsOf 0 :=
    fun v hv => (eventsOf_append hv 0).trans (List.append_nil _)
  rw [hev _ rfl]
  exact hevals

theorem sync_wait_returns_sum : ∃ u, run step init (syncWait () sumBody (sumOps.drop 3)) = some u ∧
    (∀ t b', (t, b') ∈ u.spawned → ∃ o, (t, o) ∈ u.ended) ∧
    ∃ u' o, u.step (.wait 0) = some u' ∧ u'.waited = u.waited ++ [(0, o)] ∧ (0, sumBody) ∈ u'.spawned ∧
      (0, o) ∈ u'.ended ∧ (∀ o', Evals u'.ended sumBody (u'.eventsOf 0) (some o') ↔ o' = o) ∧
      Account (syncWait () sumBody (sumOps.drop 3) ++ [.wait 0]) u' :=
  ⟨_, rfl, sync_wait_returns sumBody (sumOps.drop 3) (by decide) rfl (by decide)⟩

end Machine

end Condy.Coro
