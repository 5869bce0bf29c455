import Condy.Coro.Runs
import Condy.Loop

/-!
# Condy.Coro.Loop — the runtimes of a machine refine the loop

What the coroutines do to the runtimes and their queues, with the coroutines left out.  Most parts of a step touch no
queue and no other runtime (`Quiet`); `schedule` puts one item where the loop puts it (`schedule_acts`).  So every step is
one of the loop of each runtime, or several (`step_loop`).
-/

namespace Condy.Coro

open Lib

variable {ι V E : Type} [DecidableEq ι]

def Control.place : Control → Loop.Place
  | .outside => .outside
  | .loop => .loop
  | .running _ _ => .user

theorem Control.place_ne {c : Control} : c.place ≠ .outside ↔ c ≠ .outside := by
  cases c <;> simp [Control.place]

namespace Machine

variable {s s' s₁ : Machine ι V E} {r : ι}

/-- The runtime `r`, seen from its queues. -/
def loop (s : Machine ι V E) (r : ι) : Loop Work :=
  { place := (s.rt r).control.place, ringEnabled := (s.rt r).ringEnabled, exitAllowed := (s.rt r).exitAllowed
    pendingWorks := (s.rt r).pendingWorks, localQueue := s.queue (.localQueue r)
    globalQueue := s.queue (.globalQueue r), mail := s.queue (.mail r) }

/-- Every runtime does what its loop can do. -/
def LoopActs (s s' : Machine ι V E) : Prop := ∀ r, Loop.Acts (s.loop r) (s'.loop r)

omit [DecidableEq ι] in
theorem LoopActs.trans (h : s.LoopActs s₁) (h' : s₁.LoopActs s') : s.LoopActs s' := fun r => (h r).trans (h' r)

omit [DecidableEq ι] in
/-- `r` acts, and the others and their queues stay as they are. -/
theorem LoopActs.only (r : ι) (hself : Loop.Acts (s.loop r) (s'.loop r)) (hrt : ∀ r', r' ≠ r → s'.rt r' = s.rt r')
    (hq : ∀ q, q.runtime ≠ r → s'.queue q = s.queue q) : s.LoopActs s' := by
  intro r'
  by_cases hr : r' = r
  · exact hr ▸ hself
  · have hloop : s'.loop r' = s.loop r' := by
      rw [loop, loop, hrt r' hr, hq (.localQueue r') hr, hq (.globalQueue r') hr, hq (.mail r') hr]
    exact hloop ▸ .refl _

/-! ## Parts that schedule nothing -/

/-- The runtimes and the queues stay as they are. -/
structure Keeps (s s' : Machine ι V E) : Prop where
  queue : s'.queue = s.queue
  rt : s'.rt = s.rt

omit [DecidableEq ι] in
theorem LoopActs.of (hq : s'.queue = s.queue) (hrt : s'.rt = s.rt) : s.LoopActs s' := by
  intro r
  have hloop : s'.loop r = s.loop r := by rw [loop, loop, hq, hrt]
  exact hloop ▸ .refl _

omit [DecidableEq ι] in
theorem Keeps.acts (h : s.Keeps s') : s.LoopActs s' := .of h.queue h.rt

omit [DecidableEq ι] in
theorem LoopActs.after (h : s₁.LoopActs s') (hq : s₁.queue = s.queue) (hrt : s₁.rt = s.rt) : s.LoopActs s' :=
  (LoopActs.of hq hrt).trans h

/-- On the thread of `r`, in `run()`, nothing was scheduled. -/
structure Quiet (s s' : Machine ι V E) (r : ι) : Prop where
  queue : s'.queue = s.queue
  other : ∀ r', r' ≠ r → s'.rt r' = s.rt r'
  enabled : (s'.rt r).ringEnabled = (s.rt r).ringEnabled
  exit : (s'.rt r).exitAllowed = (s.rt r).exitAllowed
  inside : (s.rt r).control ≠ .outside → (s'.rt r).control ≠ .outside

omit [DecidableEq ι] in
theorem Quiet.of (hq : s'.queue = s.queue) (hrt : s'.rt = s.rt) : s.Quiet s' r :=
  ⟨hq, fun r' _ => by rw [hrt], by rw [hrt], by rw [hrt], fun hr => by rwa [hrt]⟩

omit [DecidableEq ι] in
theorem Keeps.quiet (h : s.Keeps s') (r : ι) : s.Quiet s' r := .of h.queue h.rt

omit [DecidableEq ι] in
theorem Quiet.trans (h : s.Quiet s₁ r) (h' : s₁.Quiet s' r) : s.Quiet s' r :=
  ⟨h'.queue.trans h.queue, fun r' hr => (h'.other r' hr).trans (h.other r' hr), h'.enabled.trans h.enabled,
    h'.exit.trans h.exit, fun hr => h'.inside (h.inside hr)⟩

omit [DecidableEq ι] in
theorem Quiet.after (h : s₁.Quiet s' r) (hq : s₁.queue = s.queue) (hrt : s₁.rt = s.rt) : s.Quiet s' r :=
  (Quiet.of hq hrt).trans h

omit [DecidableEq ι] in
/-- From a state of the loop with the same queues and flags. -/
theorem Quiet.acts_self (h : s.Quiet s' r) (hr : (s.rt r).control ≠ .outside) {p : Loop.Place} (hp : p ≠ .outside) :
    Loop.Acts { s.loop r with place := p } (s'.loop r) := by
  have hloop : s'.loop r = { s.loop r with
      place := (s'.rt r).control.place, pendingWorks := (s'.rt r).pendingWorks } := by
    rw [loop, loop, h.queue, h.enabled, h.exit]
  rw [hloop]
  exact .inside hp (Control.place_ne.mpr (h.inside hr)) _

omit [DecidableEq ι] in
theorem Quiet.acts (h : s.Quiet s' r) (hr : (s.rt r).control ≠ .outside) : s.LoopActs s' :=
  .only r (h.acts_self hr (Control.place_ne.mpr hr)) h.other fun q _ => by rw [h.queue]

theorem setRt_quiet {x : Rt} (hen : x.ringEnabled = (s.rt r).ringEnabled) (hex : x.exitAllowed = (s.rt r).exitAllowed)
    (hc : (s.rt r).control ≠ .outside → x.control ≠ .outside) : s.Quiet (s.setRt r x) r := by
  have hself : (s.setRt r x).rt r = x := Function.update_self ..
  exact ⟨rfl, fun r' hr => Function.update_of_ne hr _ _, by rw [hself, hen], by rw [hself, hex], by rwa [hself]⟩

theorem setControl_quiet (s : Machine ι V E) (r : ι) {c : Control} (hc : c ≠ .outside) : s.Quiet (s.setControl r c) r :=
  setRt_quiet rfl rfl fun _ => hc

theorem pendWork_quiet (s : Machine ι V E) (r : ι) : s.Quiet (s.pendWork r) r := setRt_quiet rfl rfl id

theorem resumeWork_quiet (s : Machine ι V E) (r : ι) : s.Quiet (s.resumeWork r) r := setRt_quiet rfl rfl id

omit [DecidableEq ι] in
theorem destroy_keeps (s : Machine ι V E) (g : ℕ) : s.Keeps (s.destroy g) := by
  unfold destroy
  split <;> exact ⟨rfl, rfl⟩

omit [DecidableEq ι] in
theorem collect_keeps {g : ℕ} {o : Outcome V E} (hc : s.collect g = some (o, s')) : s.Keeps s' := by
  obtain ⟨gf, hg, hmap⟩ := Option.bind_eq_some_iff.mp hc
  obtain ⟨o', ho, he⟩ := Option.map_eq_some_iff.mp hmap
  obtain ⟨-, rfl⟩ := Prod.mk.inj he
  exact ⟨(destroy_keeps _ g).queue, (destroy_keeps _ g).rt⟩

omit [DecidableEq ι] in
theorem goOn_keeps (s : Machine ι V E) (f : ℕ) (l : List (Event ι V E)) (b : Body ι V E) : s.Keeps (s.goOn f l b) := by
  unfold goOn
  split <;> exact ⟨rfl, rfl⟩

omit [DecidableEq ι] in
theorem detach_keeps {t : ℕ} (hs : s.detach t = some s') : s.Keeps s' := by
  unfold detach at hs
  split_ifs at hs
  dsimp only at hs
  split at hs
  · obtain rfl := Option.some.inj hs
    exact ⟨rfl, rfl⟩
  · split at hs <;> obtain rfl := Option.some.inj hs
    · exact ⟨rfl, rfl⟩
    · exact ⟨(destroy_keeps _ t).queue, (destroy_keeps _ t).rt⟩
    · exact ⟨rfl, rfl⟩

omit [DecidableEq ι] in
theorem waitInside_keeps {t : ℕ} (hs : s.waitInside t = some s') : s.Keeps s' := by
  unfold waitInside at hs
  split_ifs at hs <;>
  · obtain rfl := Option.some.inj hs
    exact ⟨rfl, rfl⟩

omit [DecidableEq ι] in
theorem drop_keeps (s : Machine ι V E) (t : ℕ) : s.Keeps (s.drop t) := by
  unfold drop
  split_ifs <;> exact ⟨rfl, rfl⟩

omit [DecidableEq ι] in
theorem waitCollect_keeps (s : Machine ι V E) (t : ℕ) : s.Keeps (s.waitCollect t) := by
  unfold waitCollect
  split
  · exact ⟨rfl, rfl⟩
  next hc => exact ⟨(collect_keeps hc).queue, (collect_keeps hc).rt⟩

omit [DecidableEq ι] in
theorem wait_keeps {t : ℕ} (hs : s.wait t = some s') : s.Keeps s' := by
  unfold wait at hs
  split_ifs at hs
  · dsimp only at hs
    split at hs
    · obtain rfl := Option.some.inj hs
      exact ⟨rfl, rfl⟩
    · split at hs <;> obtain rfl := Option.some.inj hs
      · exact ⟨rfl, rfl⟩
      · exact ⟨(waitCollect_keeps _ t).queue, (waitCollect_keeps _ t).rt⟩
      · exact ⟨rfl, rfl⟩
  · obtain rfl := Option.some.inj hs
    exact ⟨rfl, rfl⟩

theorem suspend_quiet (s : Machine ι V E) (r : ι) (ret : Ret) : s.Quiet (s.suspend r ret) r := by
  cases ret with
  | work => exact setControl_quiet s r (by simp)
  | op => exact (resumeWork_quiet s r).trans (setControl_quiet _ r (by simp))

theorem proceed_quiet (s : Machine ι V E) (r : ι) (f : ℕ) (fr : Frame ι V E) (b : Body ι V E) (ret : Ret) :
    s.Quiet (s.proceed r f fr b ret) r := .after (setControl_quiet _ r (by simp)) rfl rfl

theorem resume_quiet (s : Machine ι V E) (r : ι) (f : ℕ) (ret : Ret) : s.Quiet (s.resume r f ret) r := by
  unfold resume
  split
  · exact .of rfl rfl
  · split
    · exact proceed_quiet ..
    · exact proceed_quiet ..
    · split
      · exact .of rfl rfl
      · exact .after (proceed_quiet ..) rfl rfl
    · split
      · exact .of rfl rfl
      next hc => exact ((collect_keeps hc).quiet r).trans (proceed_quiet ..)
    · split
      · exact .of rfl rfl
      next hc =>
        refine (resumeWork_quiet s r).trans (.after (proceed_quiet ..) ?_ ?_)
        · exact (collect_keeps hc).queue
        · exact (collect_keeps hc).rt
    · exact .of rfl rfl
    · exact .of rfl rfl

theorem receive_quiet (s : Machine ι V E) (r : ι) (f : ℕ) (res : ℤ) (ret : Ret) :
    s.Quiet (s.receive r f res ret) r := by
  unfold receive
  split
  · exact .of rfl rfl
  · split
    · dsimp only
      split
      · exact .after (resume_quiet ..) rfl rfl
      · exact .after (suspend_quiet ..) rfl rfl
      · exact .of rfl rfl
    · exact .of rfl rfl

theorem invoke_quiet (s : Machine ι V E) (r : ι) (w : Work) : s.Quiet (s.invoke r w) r := by
  cases w with
  | promise f => exact resume_quiet ..
  | waiter f res => exact (resumeWork_quiet s r).trans (receive_quiet ..)

/-! ## Scheduling -/

theorem push_acts {q : QueueId ι} {w : Work} (r : ι) (hq : q.runtime = r)
    (hself : Loop.Acts (s.loop r) ((s.push q w).loop r)) : s.LoopActs (s.push q w) :=
  .only r hself (fun _ _ => rfl) fun _ hq' => Function.update_of_ne (fun he => hq' (by rw [he, hq])) _ _

theorem push_mail_acts {w : Work} (hen : (s.rt r).ringEnabled = true) : s.LoopActs (s.push (.mail r) w) := by
  have hperm : (w :: s.queue (.mail r)).Perm (s.queue (.mail r) ++ [w]) := (List.perm_append_singleton ..).symm
  refine push_acts r rfl (.one (.remoteSchedule w) ?_)
  rw [Loop.step, if_pos (show (s.loop r).ringEnabled = true from hen)]
  simpa [loop, push] using hperm

/-- `schedule_internal` on a thread in `run()` of `here`, or outside of any. -/
theorem schedule_acts (here : Option ι) (r : ι) (w : Work) (hhere : ∀ h, here = some h → (s.rt h).control ≠ .outside) :
    s.LoopActs (s.schedule here r w) := by
  unfold schedule
  split_ifs with hown hen
  · have hplace : (s.loop r).place ≠ .outside := Control.place_ne.mpr (hhere r hown)
    refine push_acts r rfl ?_
    simpa [loop, push] using Loop.Acts.schedule w hplace
  · cases here with
    | none => exact push_mail_acts hen
    | some h =>
      have hne : r ≠ h := fun he => hown (by rw [he])
      -- The sender counts its message, on its own thread.
      have hcount : s.Quiet (s.setRt h { s.rt h with
          pendingWorks := (s.rt h).pendingWorks + 1, acks := (s.rt h).acks + 1 }) h := setRt_quiet rfl rfl id
      refine (hcount.acts (hhere h rfl)).trans (push_mail_acts ?_)
      rw [hcount.other r hne]
      exact hen
  · refine push_acts r rfl (.one (.remoteSchedule w) ?_)
    rw [Loop.step, if_neg (show ¬ (s.loop r).ringEnabled = true from hen)]
    simp [loop, push]

theorem schedule_control (s : Machine ι V E) (here : Option ι) (r : ι) (w : Work) (r' : ι) :
    ((s.schedule here r w).rt r').control = (s.rt r').control := by
  unfold schedule
  split_ifs
  · rfl
  · cases here with
    | none => rfl
    | some h =>
      rcases eq_or_ne r' h with rfl | hne
      · simp [push, setRt]
      · simp [push, setRt, hne]
  · rfl

theorem coSpawn_acts (here : Option ι) (r : ι) (b : Body ι V E)
    (hhere : ∀ h, here = some h → (s.rt h).control ≠ .outside) : s.LoopActs (s.coSpawn here r b) := by
  unfold coSpawn
  refine .after (schedule_acts here r _ ?_) rfl rfl
  exact hhere

/-! ## Steps -/

/-- What a step of the coroutine on the thread of `r` does to the queues: nothing, or it schedules one item. -/
inductive Puts (s s' : Machine ι V E) (r : ι) : Prop where
  | quiet (h : s.Quiet s' r)
  | schedule {s₁ : Machine ι V E} {r' : ι} {w : Work} (h : (s₁.schedule (some r) r' w).Quiet s' r)
      (hq : s₁.queue = s.queue) (hrt : s₁.rt = s.rt)

theorem Puts.acts (h : s.Puts s' r) (hr : (s.rt r).control ≠ .outside) : s.LoopActs s' := by
  cases h with
  | quiet h => exact h.acts hr
  | @schedule s₁ r' w h hq hrt =>
    rw [← hrt] at hr
    have hhere : ∀ h, some r = some h → (s₁.rt h).control ≠ .outside := fun h he => Option.some.inj he ▸ hr
    have hput : s.LoopActs (s₁.schedule (some r) r' w) := .after (schedule_acts (some r) r' w hhere) hq hrt
    refine hput.trans (h.acts ?_)
    rw [schedule_control]
    exact hr

section

variable {f : ℕ} {fr : Frame ι V E} {ret : Ret}

theorem finalSuspend_puts : s.Puts (s.finalSuspend r f fr ret) r := by
  unfold finalSuspend
  dsimp only
  split
  · split
    · exact .quiet (.after (resume_quiet ..) rfl rfl)
    · exact .quiet (.after (suspend_quiet ..) rfl rfl)
    · exact .quiet (.of rfl rfl)
  · exact .quiet (.after (suspend_quiet ..) rfl rfl)
  · exact .quiet (.after (((destroy_keeps _ f).quiet r).trans (suspend_quiet ..)) rfl rfl)
  · split
    · exact .schedule (suspend_quiet ..) rfl rfl
    · exact .quiet (.after (suspend_quiet ..) rfl rfl)
    · exact .quiet (.of rfl rfl)
  · exact .quiet (.of rfl rfl)
  · exact .quiet (.of rfl rfl)

theorem awaitSender_quiet {op : ℕ} {k : ℤ → Body ι V E} {how : Start} :
    s.Quiet (s.awaitSender r f fr ret op k how) r := by
  unfold awaitSender
  cases how with
  | «inline» res =>
    dsimp only
    split
    · exact .after (suspend_quiet ..) rfl rfl
    · exact .after (resume_quiet ..) rfl rfl
  | kernel | waits =>
    dsimp only
    split
    · exact (pendWork_quiet s r).trans (.after (suspend_quiet ..) rfl rfl)
    · exact (pendWork_quiet s r).trans (.after (resume_quiet ..) rfl rfl)

theorem awaitTask_quiet {t : ℕ} {k : Outcome V E → Body ι V E} (hs : s.awaitTask r f fr ret t k = some s') :
    s.Quiet s' r := by
  unfold awaitTask at hs
  split_ifs at hs
  · dsimp only at hs
    split at hs
    · obtain rfl := Option.some.inj hs
      exact (pendWork_quiet s r).trans (.of rfl rfl)
    · split at hs <;> obtain rfl := Option.some.inj hs
      · exact (pendWork_quiet s r).trans (.after (suspend_quiet ..) rfl rfl)
      · exact (pendWork_quiet s r).trans (.after (resume_quiet ..) rfl rfl)
      · exact (pendWork_quiet s r).trans (.of rfl rfl)
  · obtain rfl := Option.some.inj hs
    exact (goOn_keeps ..).quiet r

theorem execBody_puts {how : Start} {b : Body ι V E} (hs : s.execBody r f fr ret how b = some s') : s.Puts s' r := by
  cases b with
  | coReturn v | throw e =>
    obtain rfl := Option.some.inj hs
    exact finalSuspend_puts
  | call callee k =>
    obtain rfl := Option.some.inj hs
    exact .quiet (.after (proceed_quiet ..) rfl rfl)
  | sender op k =>
    obtain rfl := Option.some.inj hs
    exact .quiet awaitSender_quiet
  | spawn r' callee k =>
    obtain rfl := Option.some.inj hs
    exact .schedule ((goOn_keeps ..).quiet r) rfl rfl
  | join t k => exact .quiet (awaitTask_quiet hs)
  | detach t k =>
    obtain ⟨s₁, hd, rfl⟩ := Option.map_eq_some_iff.mp hs
    exact .quiet (((detach_keeps hd).quiet r).trans ((goOn_keeps ..).quiet r))
  | wait t k =>
    obtain ⟨s₁, hw, rfl⟩ := Option.map_eq_some_iff.mp hs
    exact .quiet (((waitInside_keeps hw).quiet r).trans ((goOn_keeps ..).quiet r))
  | drop t k =>
    obtain rfl := Option.some.inj hs
    exact .quiet (((drop_keeps s t).quiet r).trans ((goOn_keeps ..).quiet r))
  | switch r' k =>
    obtain rfl := Option.some.inj hs
    exact .schedule (suspend_quiet ..) rfl rfl

end

/-- The thread of `r` takes an item out of a queue of `r` and invokes it. -/
theorem invoke_acts {q : QueueId ι} {ws : List Work} {w : Work} (op : Loop.Op Work) (hq : q.runtime = r)
    (hr : (s.rt r).control ≠ .outside)
    (hs : Loop.step (s.loop r) op =
      some { ({ s with queue := Function.update s.queue q ws } : Machine ι V E).loop r with place := .user }) :
    s.LoopActs (({ s with queue := Function.update s.queue q ws } : Machine ι V E).invoke r w) := by
  have hquiet := invoke_quiet ({ s with queue := Function.update s.queue q ws } : Machine ι V E) r w
  refine .only r ((Loop.Acts.one op hs).trans (hquiet.acts_self hr (by simp))) hquiet.other fun q' hq' => ?_
  rw [hquiet.queue]
  exact Function.update_of_ne (fun he => hq' (by rw [he, hq])) _ _

theorem run_acts (hflushed : (s.rt r).ringEnabled = true → s.queue (.globalQueue r) = [])
    (hs : s.act (.run r) = some s') : s.LoopActs s' := by
  obtain ⟨hout, hs⟩ := Option.ite_none_left_eq_some.mp hs
  obtain rfl := Option.some.inj hs
  refine .only r ?_ (fun r' hr => Function.update_of_ne hr _ _) fun q hq => ?_
  · have hplace : (s.loop r).place = .outside := by rw [loop, not_ne_iff.mp hout]; rfl
    refine .one .run ?_
    rw [Loop.step, if_neg (not_not_intro hplace)]
    cases hen : (s.rt r).ringEnabled with
    | false => simp [loop, hen, Control.place]
    | true => simp [loop, hen, hflushed hen, Control.place]
  · have hglobal : q ≠ .globalQueue r := fun he => hq (by rw [he]; rfl)
    have hlocal : q ≠ .localQueue r := fun he => hq (by rw [he]; rfl)
    exact (Function.update_of_ne hglobal _ _).trans (Function.update_of_ne hlocal _ _)

theorem setRt_acts {x : Rt} (op : Loop.Op Work) (hs : Loop.step (s.loop r) op = some ((s.setRt r x).loop r)) :
    s.LoopActs (s.setRt r x) :=
  .only r (.one op hs) (fun _ hr => Function.update_of_ne hr _ _) fun _ _ => rfl

theorem act_loop {op : Op ι V E} (hflushed : ∀ r, (s.rt r).ringEnabled = true → s.queue (.globalQueue r) = [])
    (hs : s.act op = some s') : s.LoopActs s' := by
  cases op with
  | run r => exact run_acts (hflushed r) hs
  | pop r =>
    simp only [act] at hs
    split at hs
    next w ws hc hq =>
      obtain rfl := Option.some.inj hs
      refine invoke_acts (q := .localQueue r) .pop rfl (by rw [hc]; simp) ?_
      simp [Loop.step, loop, hc, hq, Control.place]
    · cases hs
  | message r i =>
    simp only [act] at hs
    split at hs
    next w hc hq =>
      obtain rfl := Option.some.inj hs
      have hmail : (s.queue (.mail r) : Multiset Work) = w ::ₘ ((s.queue (.mail r)).eraseIdx i : Multiset Work) :=
        Multiset.coe_eq_coe.mpr (perm_eraseIdx hq)
      refine invoke_acts (q := .mail r) (.receive w) rfl (by rw [hc]; simp) ?_
      simp [Loop.step, loop, hc, hmail, Control.place]
    · cases hs
  | complete r i res =>
    simp only [act] at hs
    split at hs
    next r' f hc hk =>
      obtain ⟨-, hs⟩ := Option.ite_none_right_eq_some.mp hs
      obtain rfl := Option.some.inj hs
      exact Quiet.acts (.after (receive_quiet ..) rfl rfl) (by rw [hc]; simp)
    · cases hs
  | ack r =>
    obtain ⟨⟨hc, -⟩, hs⟩ := Option.ite_none_right_eq_some.mp hs
    obtain rfl := Option.some.inj hs
    have hack : s.Quiet (s.setRt r { s.rt r with acks := (s.rt r).acks - 1 }) r := setRt_quiet rfl rfl id
    exact (hack.trans (resumeWork_quiet ..)).acts (by rw [hc]; simp)
  | quit r =>
    obtain ⟨⟨hc, hq, hp, he⟩, hs⟩ := Option.ite_none_right_eq_some.mp hs
    obtain rfl := Option.some.inj hs
    refine setRt_acts .quit ?_
    simp [Loop.step, loop, setRt, hc, hq, hp, he, Control.place]
  | exec r how =>
    simp only [act] at hs
    split at hs
    next f ret hc =>
      split at hs
      · obtain rfl := Option.some.inj hs
        exact .of rfl rfl
      · split at hs
        · exact (execBody_puts hs).acts (by rw [hc]; simp)
        · obtain rfl := Option.some.inj hs
          exact .of rfl rfl
    · cases hs
  | wake here i res =>
    obtain ⟨hhere, hs⟩ := Option.ite_none_left_eq_some.mp hs
    obtain ⟨x, -, rfl⟩ := Option.map_eq_some_iff.mp hs
    refine .after (schedule_acts here x.1 _ ?_) rfl rfl
    intro h hh hout
    exact hhere ⟨h, hh, hout⟩
  | coSpawn r b =>
    obtain rfl := Option.some.inj hs
    exact (coSpawn_acts none r b (by simp)).trans (.of rfl rfl)
  | allowExit r =>
    obtain rfl := Option.some.inj hs
    refine setRt_acts .allowExit ?_
    simp [Loop.step, loop, setRt]
  | detach t =>
    obtain ⟨s₁, hd, rfl⟩ := Option.map_eq_some_iff.mp hs
    exact (detach_keeps hd).acts.trans (.of rfl rfl)
  | wait t =>
    obtain ⟨s₁, hw, rfl⟩ := Option.map_eq_some_iff.mp hs
    exact (wait_keeps hw).acts.trans (.of rfl rfl)
  | waitReturn t =>
    obtain ⟨-, hs⟩ := Option.ite_none_right_eq_some.mp hs
    obtain rfl := Option.some.inj hs
    exact .after (waitCollect_keeps ..).acts rfl rfl

theorem step_loop {op : Op ι V E} (h : s.Sound) (hs : s.step op = some s') : s.LoopActs s' := by
  obtain ⟨loc, hi⟩ := h.inv
  exact act_loop hi.flushed (Option.ite_none_left_eq_some.mp hs).2

/-- **The machine refines the loop**: in every run each runtime does what `Loop` says, with the work items of the
coroutines for items. -/
theorem run_loop {ops ops' : List (Op ι V E)} (hrun : run step init ops = some s) (hrun' : run step s ops' = some s') :
    s.LoopActs s' :=
  run_rel (R := LoopActs) (fun _ _ => .refl _) (fun _ _ _ => LoopActs.trans)
    (fun _ _ _ h hs => ⟨step_sound h hs, step_loop h hs⟩) ops' (run_sound hrun) hrun'

end Machine

end Condy.Coro
