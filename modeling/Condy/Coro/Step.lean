import Condy.Coro.MoveInv

/-!
# Condy.Coro.Step — every step is a move

`step_reaches` finds the move of each step.  The invariant excludes every branch of the source that would use a null
handle, a destroyed frame or a coroutine that is not suspended there.  `Panics` lists what is left of the ways to
`panic_on`, and `given` is what a step does to the coroutines from outside.
-/

namespace Condy.Coro

open Lib PromiseState

variable {ι V E : Type} [DecidableEq ι]

namespace Machine

variable {s s' : Machine ι V E} {loc : ℕ → Option (Spot ι)} {f : ℕ} {fr : Frame ι V E} {r : ι} {q : QueueId ι} {ret : Ret}

/-- What makes a step end in `panic_on`: a coroutine throws that was detached, a task is detached whose coroutine threw,
or a task goes out of scope with its handle. -/
inductive Panics (s : Machine ι V E) : Panic → Prop
  | unhandled {r : ι} {f : ℕ} {fr : Frame ι V E} {e : Error E} (hf : s.OnThread r f fr (.throw e))
      (hst : fr.state = .runningDetached) : Panics s (.unhandledException f)
  | detached {t : ℕ} {tf : Frame ι V E} {e : Error E} (ht : t ∈ s.tasks) (htf : s.frames t = some tf)
      (hst : tf.state = .zombie) (he : tf.exception = some e) : Panics s (.unhandledException t)
  | dropped {r : ι} {f t : ℕ} {fr : Frame ι V E} {k : Body ι V E} (hf : s.OnThread r f fr (.drop t k))
      (ht : t ∈ s.tasks) : Panics s (.taskDestroyed t)

/-- What an await that a coroutine begins is given at once. -/
def givenTo (s : Machine ι V E) (f : ℕ) : Start → List (Entry ι V E)
  | .inline res => s.answer f res
  | .kernel | .waits => []

/-- What a step does to the coroutines from outside: the calls of other threads, and what senders complete with. -/
def given (s : Machine ι V E) : Op ι V E → List (Entry ι V E)
  | .coSpawn _ b => [.outside (.spawn s.nextFrame b)]
  | .detach t => [.outside (.detach t)]
  | .wait t => [.outside (.wait t)]
  | .exec r how => (s.rt r).control.frame.elim [] (s.givenTo · how)
  | .complete _ i res => (s.kernel[i]?).elim [] fun x => s.answer x.2 res
  | .wake _ i res => (s.waits[i]?).elim [] fun x => s.answer x.2 res
  | _ => []

omit [DecidableEq ι] in
theorem OnThread.givenTo_nil {b : Body ι V E} (hf : s.OnThread r f fr b) (hb : (Point.running b).asks = none)
    (how : Start) : s.givenTo f how = [] := by
  cases how with
  | «inline» res => simp [givenTo, answer, asked, hf.frame, hf.point, hb]
  | _ => rfl

omit [DecidableEq ι] in
theorem answer_sender {op : ℕ} {a : SenderAwaiter} {k : ℤ → Body ι V E} (hf : s.frames f = some fr)
    (hp : fr.point = .sender op r a k) (res : ℤ) : s.answer f res = [.answer fr.root op res] := by
  simp [answer, asked, hf, hp, Point.asks]

/-! ## The runtimes -/

/-- Counts may have changed; the threads do what they did. -/
structure RtKeep (s : Machine ι V E) (pended : List (ι × ℕ)) (rt : ι → Rt) : Prop where
  control : ∀ r', (rt r').control = (s.rt r').control
  enabled : ∀ r', (rt r').ringEnabled = (s.rt r').ringEnabled
  pending : ∀ r', PendRt pended r' (rt r')

section

variable (h : s.Inv loc) {P : List (ι × ℕ)}
include h

theorem RtKeep.refl : s.RtKeep s.pended s.rt := ⟨fun _ => rfl, fun _ => rfl, h.pending⟩

theorem RtKeep.next {rt : ι → Rt} (hk : s.RtKeep P rt) (r : ι) : s.RtNext r (s.rt r).control.frame P rt := by
  refine ⟨?_, fun r' _ => ?_, hk.enabled, hk.pending, fun r' hr => ?_⟩
  · rw [hk.control]
  · rw [hk.control]
  · rw [hk.control] at hr
    rw [hk.enabled, h.started r' hr]

/-- The thread of `r` gets another control. -/
theorem RtKeep.next_update {rt : ι → Rt} {x : Rt} (hk : s.RtKeep P rt) (hr : (s.rt r).control ≠ .outside)
    (hen : x.ringEnabled = (s.rt r).ringEnabled) {P' : List (ι × ℕ)} (hx : PendRt P' r x)
    (hP : ∀ r', r' ≠ r → P'.countP (fun p => p.1 = r') = P.countP (fun p => p.1 = r')) :
    s.RtNext r x.control.frame P' (Function.update rt r x) := by
  refine ⟨by rw [Function.update_self], fun r' hr' => ?_, fun r' => ?_, fun r' => ?_, fun r' hc => ?_⟩
  · rw [Function.update_of_ne hr', hk.control]
  · rcases eq_or_ne r' r with rfl | hr'
    · rw [Function.update_self, hen]
    · rw [Function.update_of_ne hr', hk.enabled]
  · rcases eq_or_ne r' r with rfl | hr'
    · rw [Function.update_self]
      exact hx
    · have := hk.pending r'
      rw [Function.update_of_ne hr', PendRt, hP r' hr']
      exact this
  · rcases eq_or_ne r' r with rfl | hr'
    · rw [Function.update_self, hen, h.started r' hr]
    · rw [Function.update_of_ne hr'] at hc ⊢
      rw [hk.control] at hc
      rw [hk.enabled, h.started r' hc]

/-- The thread of `r` is back in the loop. -/
theorem RtKeep.next_suspend {s₁ : Machine ι V E} (hk : s.RtKeep P s₁.rt) (hc : (s.rt r).control = .running f ret) :
    s.RtNext r none P (s₁.suspend r ret).rt := by
  have hp := hk.pending r
  rw [PendRt, hk.control, hc] at hp
  cases ret with
  | work =>
    refine hk.next_update h (x := { s₁.rt r with control := .loop }) (by rw [hc]; simp) (hk.enabled r) ?_ fun _ _ => rfl
    simpa [PendRt, Control.owes, Ret.owes] using hp
  | op =>
    simp only [Control.owes, Ret.owes] at hp
    have hrt : (s₁.suspend r .op).rt = Function.update s₁.rt r
        { s₁.rt r with pendingWorks := (s₁.rt r).pendingWorks - 1, control := .loop } := by
      simp [suspend, resumeWork, setControl, setRt, hp]
    rw [hrt]
    refine hk.next_update h (x := { s₁.rt r with pendingWorks := (s₁.rt r).pendingWorks - 1, control := .loop })
      (by rw [hc]; simp) (hk.enabled r) ?_ fun _ _ => rfl
    simp [PendRt, Control.owes, hp]

/-- The thread of `r` goes on with another coroutine. -/
theorem RtKeep.next_transfer {rt : ι → Rt} (hk : s.RtKeep P rt) (hc : (s.rt r).control = .running f ret) (g : ℕ) :
    s.RtNext r (some g) P (Function.update rt r { rt r with control := .running g ret }) := by
  refine hk.next_update h (x := { rt r with control := .running g ret }) (by rw [hc]; simp) (hk.enabled r) ?_
    fun _ _ => rfl
  have hp := hk.pending r
  rw [PendRt, hk.control, hc] at hp
  exact hp

omit h in
theorem RtKeep.pend {rt : ι → Rt} (hk : s.RtKeep P rt) (r : ι) (f : ℕ) :
    s.RtKeep (P ++ [(r, f)]) (Function.update rt r { rt r with pendingWorks := (rt r).pendingWorks + 1 }) := by
  refine ⟨fun r' => ?_, fun r' => ?_, fun r' => ?_⟩
  · rcases eq_or_ne r' r with rfl | hr'
    · rw [Function.update_self, hk.control]
    · rw [Function.update_of_ne hr', hk.control]
  · rcases eq_or_ne r' r with rfl | hr'
    · rw [Function.update_self, hk.enabled]
    · rw [Function.update_of_ne hr', hk.enabled]
  · have hp := hk.pending r'
    rw [PendRt] at hp
    rcases eq_or_ne r' r with rfl | hr'
    · simp [PendRt, hp]
      omega
    · simp [PendRt, Function.update_of_ne hr', hp, hr'.symm]

end

/-- `schedule_internal` puts the item into a queue of the runtime, and may count a message. -/
theorem schedule_eq (s : Machine ι V E) (here : Option ι) (r : ι) (w : Work) :
    ∃ q rt, s.schedule here r w = { s with rt, queue := Function.update s.queue q (s.queue q ++ [w]) } ∧ s.Takes q r ∧
      ∀ s₀ : Machine ι V E, ∀ P, s₀.RtKeep P s.rt → s₀.RtKeep P rt := by
  unfold schedule
  split_ifs with hhere hen
  · exact ⟨.localQueue r, s.rt, rfl, ⟨rfl, by simp⟩, fun _ _ hk => hk⟩
  · cases here with
    | none => exact ⟨.mail r, s.rt, rfl, ⟨rfl, by simp⟩, fun _ _ hk => hk⟩
    | some h =>
      refine ⟨.mail r, _, rfl, ⟨rfl, by simp⟩, fun s₀ P hk => ⟨fun r' => ?_, fun r' => ?_, fun r' => ?_⟩⟩
      all_goals
        rcases eq_or_ne r' h with rfl | hr'
        · simp only [setRt, Function.update_self]
          first
            | exact hk.control r'
            | exact hk.enabled r'
            | have := hk.pending r'
              simp only [PendRt] at this ⊢
              omega
        · simp only [setRt, Function.update_of_ne hr']
          first
            | exact hk.control r'
            | exact hk.enabled r'
            | exact hk.pending r'
  · exact ⟨.globalQueue r, s.rt, rfl, ⟨rfl, fun h => absurd h hen⟩, fun _ _ hk => hk⟩

/-! ## What the invariant says of the frames a step meets -/

section

variable (h : s.Inv loc)
include h

theorem Inv.on_thread (hc : (s.rt r).control = .running f ret) : ∃ fr b, s.OnThread r f fr b := by
  have hframe : (s.rt r).control.frame = some f := by rw [hc]; rfl
  have hloc := h.loc_thread hframe
  cases hf : s.frames f with
  | none => cases (h.gone f hf).symm.trans hloc
  | some fr =>
    have hplace := (h.shape f fr hf).place
    rw [hloc] at hplace
    cases hp : fr.point with
    | running b => exact ⟨fr, b, hframe, hf, hp⟩
    | _ => simp [hp, Point.Fits] at hplace

theorem Inv.outcome (hf : s.frames f = some fr) (hst : fr.state = .zombie ∨ fr.state = .finished) :
    ∃ o, fr.outcome = some o := by
  have hs := h.shape f fr hf
  have hresult := hs.result
  rw [hs.final, decide_eq_true hst, if_pos rfl] at hresult
  exact Option.isSome_iff_exists.mp hresult

/-- A task that holds its handle holds a frame, of a coroutine that runs or is a zombie. -/
theorem Inv.task_frame {t : ℕ} (ht : t ∈ s.tasks) :
    ∃ tf, s.frames t = some tf ∧ (tf.state = .runningJoinable ∨ tf.state = .zombie) := by
  have howner : s.ownerOf t = some .handle := h.owned.mem_iff.mp (List.mem_append_left _ ht)
  obtain ⟨tf, htf, ho⟩ := Option.bind_eq_some_iff.mp howner
  refine ⟨tf, htf, ?_⟩
  unfold Frame.owner at ho
  split at ho <;> simp_all

/-- A coroutine that was called is held by the one that awaits it. -/
theorem Inv.caller (hf : s.frames f = some fr) (hst : fr.state = .idle) :
    ∃ c cf callee k, fr.union = .callerHandle (.frame c) ∧ s.frames c = some cf ∧ cf.point = .call f callee k := by
  have hsome := (h.shape f fr hf).owner (by simp [hst])
  obtain ⟨p, hp⟩ := Option.isSome_iff_exists.mp hsome
  have howner : s.ownerOf f = some p := by rw [ownerOf, hf, Option.bind_some, hp]
  have hmem := h.owned.mem_iff.mpr howner
  unfold Frame.owner at hp
  split at hp <;> simp_all
  case h_1 c _ hu =>
    subst hp
    simp only [holdings, Option.mem_toList, Option.bind_eq_some_iff] at hmem
    obtain ⟨cf, hcf, hcallee⟩ := hmem
    refine ⟨cf, hcf, ?_⟩
    cases hpt : cf.point with
    | call g callee k =>
      rw [hpt] at hcallee
      cases hcallee
      exact ⟨callee, k, rfl⟩
    | _ => simp [hpt, Point.callee] at hcallee

/-- The task whose coroutine ended was awaited by the one that is in a queue now. -/
theorem Inv.awaited {t : ℕ} {r' : ι} {k : Outcome V E → Body ι V E} (hf : s.frames f = some fr)
    (hp : fr.point = .task t r' k) (hloc : loc f = some (.queue q)) :
    ∃ tf o, s.frames t = some tf ∧ tf.state = .finished ∧ tf.outcome = some o := by
  have hmem : t ∈ s.holdings (.joiner f) := by simp [holdings, hf, hp, Point.target]
  have howner : s.ownerOf t = some (.joiner f) := h.owned.mem_iff.mp hmem
  obtain ⟨tf, htf, ho⟩ := Option.bind_eq_some_iff.mp howner
  have hst : tf.state = .finished := by
    unfold Frame.owner at ho
    split at ho <;> simp_all
    case h_4 r'' hst hu =>
      -- The callback would still be there, with the coroutine in it.
      have := h.loc_joins htf (c := f) (by simp [Frame.joiner, hst, hu])
      rw [hloc] at this
      cases this
  obtain ⟨o, ho⟩ := h.outcome htf (.inr hst)
  exact ⟨tf, o, htf, hst, ho⟩

end

/-! ## The functions of the source, in the cases the invariant leaves -/

omit [DecidableEq ι] in
theorem ends_eq (fr : Frame ι V E) (o : Outcome V E) : (fr.ends o).state = fr.state ∧
    (fr.ends o).union = fr.union ∧ (fr.ends o).trace = fr.trace := by
  cases o <;> exact ⟨rfl, rfl, rfl⟩

theorem suspend_eq (s : Machine ι V E) (r : ι) (ret : Ret) : s.suspend r ret = { s with rt := (s.suspend r ret).rt } := by
  cases ret <;> rfl

omit [DecidableEq ι] in
/-- The result is read and the frame destroyed. -/
theorem collect_eq {g : ℕ} {gf : Frame ι V E} {o : Outcome V E} (hg : s.frames g = some gf) (ho : gf.outcome = some o) :
    s.collect g = some (o, { s with
      frames := Function.update s.frames g none, destroyed := s.destroyed ++ [g] }) := by
  simp [collect, hg, ho, setFrame, destroy]

theorem resume_start {b : Body ι V E} (hf : s.frames f = some fr) (hp : fr.point = .initial b ∨ fr.point = .switched b) :
    s.resume r f ret = { s with
      frames := Function.update s.frames f (some { fr with point := .running b })
      rt := Function.update s.rt r { s.rt r with control := .running f ret } } := by
  rcases hp with hp | hp <;> simp only [resume, hf, hp] <;> rfl

theorem resume_call {g c : ℕ} {gf cf : Frame ι V E} {o : Outcome V E} {callee : Body ι V E}
    {k : Outcome V E → Body ι V E} (hc : s.frames c = some cf) (hp : cf.point = .call g callee k)
    (hg : s.frames g = some gf) (ho : gf.outcome = some o) : s.resume r c ret = { s with
      frames := Function.update (Function.update s.frames g none) c
        (some { cf with point := .running (k o), trace := cf.trace ++ gf.trace })
      rt := Function.update s.rt r { s.rt r with control := .running c ret }, destroyed := s.destroyed ++ [g] } := by
  simp only [resume, hc, hp, collect_eq hg ho, hg]
  rfl

theorem resume_sender {op : ℕ} {r' : ι} {h : Handle} {res : ℤ} {k : ℤ → Body ι V E} (hf : s.frames f = some fr)
    (hp : fr.point = .sender op r' ⟨h, some res⟩ k) : s.resume r f ret = { s with
      frames := Function.update s.frames f (some { fr with
        point := .running (k res), trace := fr.trace ++ [.sender op res] })
      rt := Function.update s.rt r { s.rt r with control := .running f ret }
      log := s.log ++ [.body fr.root (.sender op res)], pended := s.pended.erase (r', f) } := by
  simp only [resume, hf, hp]
  rfl

theorem receive_sender {op : ℕ} {r' : ι} {res : ℤ} {k : ℤ → Body ι V E} (hf : s.frames f = some fr)
    (hp : fr.point = .sender op r' ⟨.frame f, none⟩ k) : s.receive r f res ret = { s with
      frames := Function.update s.frames f (some { fr with
        point := .running (k res), trace := fr.trace ++ [.sender op res] })
      rt := Function.update s.rt r { s.rt r with control := .running f ret }
      log := s.log ++ [.body fr.root (.sender op res)], pended := s.pended.erase (r', f) } := by
  have hset : (s.setFrame f { fr with point := .sender op r' ⟨.null, some res⟩ k }).frames f =
      some { fr with point := .sender op r' ⟨.null, some res⟩ k } := by simp [setFrame]
  simp only [receive, hf, hp, SenderAwaiter.handleResult]
  rw [resume_sender hset rfl]
  simp [setFrame]

section

variable {o : Outcome V E} (ho : fr.outcome = some o)
include ho

theorem finalSuspend_joinable (hst : fr.state = .runningJoinable) : s.finalSuspend r f fr ret = suspend { s with
    frames := Function.update s.frames f (some { fr with state := .zombie }), ended := s.ended ++ [(f, o)] } r ret := by
  simp only [finalSuspend, hst, ho]
  rfl

theorem finalSuspend_detached (hst : fr.state = .runningDetached) : s.finalSuspend r f fr ret = suspend { s with
    frames := Function.update s.frames f none, ended := s.ended ++ [(f, o)], destroyed := s.destroyed ++ [f]
    panicked := if fr.exception.isSome then some (.unhandledException f) else s.panicked } r ret := by
  simp [finalSuspend, hst, ho, destroy, setFrame]

theorem finalSuspend_waited (hst : fr.state = .runningJoining) (hu : fr.union = .callback .taskWaiter) :
    s.finalSuspend r f fr ret = suspend { s with
      frames := Function.update s.frames f (some { fr with state := .finished }), ended := s.ended ++ [(f, o)] } r ret := by
  simp only [finalSuspend, hst, ho, hu]
  rw [← hu]
  rfl

theorem finalSuspend_joined {c : ℕ} {r' : ι} (hst : fr.state = .runningJoining)
    (hu : fr.union = .callback (.taskAwaiter c r')) : s.finalSuspend r f fr ret = (schedule { s with
      frames := Function.update s.frames f (some { fr with state := .finished }), ended := s.ended ++ [(f, o)] }
        (some r) r' (.promise c)).suspend r ret := by
  simp only [finalSuspend, hst, ho, hu]
  rw [← hu]
  rfl

theorem finalSuspend_called {c : ℕ} {cf : Frame ι V E} {callee : Body ι V E} {k : Outcome V E → Body ι V E}
    (hst : fr.state = .idle) (hu : fr.union = .callerHandle (.frame c)) (hne : c ≠ f) (hcf : s.frames c = some cf)
    (hp : cf.point = .call f callee k) : s.finalSuspend r f fr ret = { s with
      frames := Function.update (Function.update s.frames f none) c
        (some { cf with point := .running (k o), trace := cf.trace ++ fr.trace })
      rt := Function.update s.rt r { s.rt r with control := .running c ret }, destroyed := s.destroyed ++ [f] } := by
  have hcf' : (s.setFrame f fr).frames c = some cf := (Function.update_of_ne hne _ _).trans hcf
  have hff : (s.setFrame f fr).frames f = some fr := Function.update_self ..
  simp only [finalSuspend, hst, hu]
  rw [resume_call hcf' hp hff ho]
  simp [setFrame]

end

/-! ## The parts of a step -/

/-- What was done to the coroutines so far. -/
def heard (s : Machine ι V E) : List (Entry ι V E) := s.log.filter Entry.isGiven

/-- A step from `s` may end in `s'`, by one move from where it may have begun to panic; `g` is what is done to the
coroutines in it. -/
structure Reaches (s : Machine ι V E) (g : List (Entry ι V E)) (s' : Machine ι V E) : Prop where
  move : Move { s with panicked := s'.panicked } s'
  panicked : s'.panicked = s.panicked ∨ ∃ p, s'.panicked = some p ∧ s.Panics p
  heard : s'.heard = s.heard ++ g

theorem Reaches.single {g : List (Entry ι V E)} (hm : s.Move s') (hp : s'.panicked = s.panicked)
    (hg : s'.heard = s.heard ++ g) : s.Reaches g s' := ⟨by rw [hp]; exact hm, .inl hp, hg⟩

/-- A step in which nothing is done to the coroutines. -/
theorem Reaches.quiet (hm : s.Move s') (hp : s'.panicked = s.panicked) (hl : s'.heard = s.heard) : s.Reaches [] s' :=
  .single hm hp (hl.trans (List.append_nil _).symm)

omit [DecidableEq ι] in
theorem note_heard (s : Machine ι V E) (l : List (Entry ι V E)) :
    (s.note l).heard = s.heard ++ l.filter Entry.isGiven := List.filter_append ..

omit [DecidableEq ι] in
/-- What a coroutine does is not done to it. -/
theorem goOn_heard (s : Machine ι V E) (f : ℕ) (l : List (Event ι V E)) (b : Body ι V E) :
    (s.goOn f l b).heard = s.heard := by
  unfold goOn
  split
  · rfl
  next fr _ =>
    rw [note_heard, List.filter_eq_nil_iff.mpr (by simp [Entry.isGiven]), List.append_nil]
    rfl

omit [DecidableEq ι] in
theorem goOn_panicked (s : Machine ι V E) (f : ℕ) (l : List (Event ι V E)) (b : Body ι V E) :
    (s.goOn f l b).panicked = s.panicked := by
  unfold goOn
  split <;> rfl

section

variable (h : s.Inv loc) (hc : (s.rt r).control = .running f ret)
include h hc

theorem Inv.next_suspend {s₁ : Machine ι V E} (hrt : s₁.rt = s.rt) : s.RtNext r none s.pended (s₁.suspend r ret).rt :=
  RtKeep.next_suspend h (by rw [hrt]; exact RtKeep.refl h) hc

/-- The end of a coroutine. -/
theorem finalSuspend_reaches {b : Body ι V E} {o : Outcome V E} (hf : s.OnThread r f fr b) (ho : b.outcome = some o) :
    s.Reaches [] (s.finalSuspend r f (fr.ends o) ret) := by
  have hs := h.shape f fr hf.frame
  have hresult := hs.result
  rw [hf.plain.2.2, if_neg (by simp)] at hresult
  obtain ⟨hst', hu', htr'⟩ := ends_eq fr o
  have hout : (fr.ends o).outcome = some o := outcome_ends hresult o (fr.ends o).state
  cases hst : fr.state with
  | idle =>
    obtain ⟨c, cf, callee, k, hu, hcf, hp⟩ := h.caller hf.frame hst
    have hne : c ≠ f := by
      rintro rfl
      rw [hf.frame, Option.some.injEq] at hcf
      rw [← hcf, hf.point] at hp
      cases hp
    rw [finalSuspend_called hout (hst'.trans hst) (hu'.trans hu) hne hcf hp, htr']
    exact .quiet (.callReturn hf ho hst hu hcf hp ((RtKeep.refl h).next_transfer h hc c)) rfl rfl
  | runningJoinable =>
    rw [finalSuspend_joinable hout (hst'.trans hst), suspend_eq]
    exact .quiet (.endZombie hf ho hst (h.next_suspend hc rfl)) rfl rfl
  | runningDetached =>
    rw [finalSuspend_detached hout (hst'.trans hst), suspend_eq]
    cases o with
    | ok v =>
      have hx : (fr.ends (.ok v)).exception = none := hresult.1
      rw [hx]
      exact .quiet (.endDetached hf ho hst (h.next_suspend hc rfl)) rfl rfl
    | error e =>
      have hb : b = .throw e := by cases b <;> simp_all [Body.outcome]
      exact ⟨.endDetached (hf.halt _) ho hst ((h.halt (some (.unhandledException f))).next_suspend hc rfl),
        .inr ⟨_, rfl, .unhandled (hb ▸ hf) hst⟩, (List.append_nil _).symm⟩
  | runningJoining =>
    have hsome := hs.owner (by simp [hst])
    cases hu : fr.union with
    | callerHandle x => simp [Frame.owner, hst, hu] at hsome
    | callback x =>
      cases x with
      | taskWaiter =>
        rw [finalSuspend_waited hout (hst'.trans hst) (hu'.trans hu), suspend_eq]
        exact .quiet (.endWaited hf ho hst hu (h.next_suspend hc rfl)) rfl rfl
      | taskAwaiter c r' =>
        rw [finalSuspend_joined hout (hst'.trans hst) (hu'.trans hu)]
        obtain ⟨q, rt, heq, hq, hrt⟩ := schedule_eq ({ s with
          frames := Function.update s.frames f (some { fr.ends o with state := .finished })
          ended := s.ended ++ [(f, o)] }) (some r) r' (.promise c)
        rw [heq, suspend_eq]
        exact .quiet (.endJoined hf ho hst hu hq (RtKeep.next_suspend h (hrt s s.pended (RtKeep.refl h)) hc)) rfl rfl
  | zombie | finished =>
    have hfin := hs.final
    rw [hf.plain.2.2, hst] at hfin
    simp at hfin

end

section

variable (h : s.Inv loc)
include h

theorem coSpawn_request (here : Option ι) (r' : ι) (b : Body ι V E) :
    s.Request (.spawn s.nextFrame b) (s.coSpawn here r' b) ∧ (s.coSpawn here r' b).panicked = s.panicked ∧
      (s.coSpawn here r' b).heard = s.heard := by
  obtain ⟨q, rt, heq, hq, hrt⟩ := schedule_eq ({ s with
    frames := Function.update s.frames s.nextFrame (some { Frame.new b s.nextFrame [] with state := .runningJoinable })
    nextFrame := s.nextFrame + 1, tasks := s.tasks ++ [s.nextFrame]
    spawned := s.spawned ++ [(s.nextFrame, b)] }) here r' (.promise s.nextFrame)
  have hk := hrt s s.pended (RtKeep.refl h)
  have hspawn : s.coSpawn here r' b = _ := heq
  rw [hspawn]
  exact ⟨.spawn hq (hk.next h r'), rfl, rfl⟩

omit h [DecidableEq ι] in
theorem detach_zombie {t : ℕ} {tf : Frame ι V E} (ht : t ∈ s.tasks) (htf : s.frames t = some tf)
    (hst : tf.state = .zombie) : s.detach t = some { s with
      frames := Function.update s.frames t none, tasks := s.tasks.erase t, taken := s.taken ++ [t]
      destroyed := s.destroyed ++ [t]
      panicked := if tf.exception.isSome then some (.unhandledException t) else s.panicked } := by
  simp [detach, ht, take, htf, hst, setFrame, destroy]

/-- `detach()`, on any thread.  It panics if the coroutine has thrown. -/
theorem detach_request {t : ℕ} (hd : s.detach t = some s') :
    Request { s with panicked := s'.panicked } (.detach t) s' ∧ s'.heard = s.heard ∧
      (s'.panicked = s.panicked ∨ ∃ p, s'.panicked = some p ∧ s.Panics p) := by
  by_cases ht : t ∈ s.tasks
  · obtain ⟨tf, htf, hst | hst⟩ := h.task_frame ht
    · simp only [detach, ht, if_true, take, htf, hst, Option.some.injEq] at hd
      subst hd
      exact ⟨.detach ht htf hst, rfl, .inl rfl⟩
    · rw [detach_zombie ht htf hst, Option.some.injEq] at hd
      subst hd
      refine ⟨.collect ht htf hst (.inl ⟨.inl rfl, rfl⟩), rfl, ?_⟩
      cases hx : tf.exception with
      | none => exact .inl rfl
      | some e => exact .inr ⟨_, rfl, .detached ht htf hst hx⟩
  · simp [detach, ht] at hd

end

section

variable (h : s.Inv loc) (hc : (s.rt r).control = .running f ret)
include h hc

/-- `co_await` of a sender. -/
theorem awaitSender_reaches {op : ℕ} {k : ℤ → Body ι V E} (hf : s.OnThread r f fr (.sender op k)) (how : Start) :
    s.Reaches (s.givenTo f how) (s.awaitSender r f fr ret op k how) := by
  cases how with
  | «inline» res =>
    have hset : ((s.note [.answer fr.root op res]).setFrame f
        { fr with point := .sender op r ⟨.frame f, some res⟩ k }).frames f =
        some { fr with point := .sender op r ⟨.frame f, some res⟩ k } := Function.update_self ..
    have heq : s.awaitSender r f fr ret op k (.inline res) =
        (s.note [.answer fr.root op res]).goOn f [.sender op res] (k res) := by
      have hrt : Function.update s.rt r { s.rt r with control := .running f ret } = s.rt := by
        rw [← hc, Function.update_eq_self]
      have hp : s.pended.erase (r, f) = s.pended := List.erase_of_not_mem (hf.not_pended h r)
      have hf₁ : (s.note [.answer fr.root op res]).frames f = some fr := hf.frame
      simp only [awaitSender, SenderAwaiter.handleResult, SenderAwaiter.awaitSuspend, SenderAwaiter.new, reduceCtorEq,
        decide_false, Bool.false_eq_true, if_false]
      rw [resume_sender hset rfl, goOn_eq hf₁]
      simp [setFrame, note, hrt, hp]
    have hg : s.givenTo f (.inline res) = [.answer fr.root op res] := by
      simp [givenTo, answer, asked, hf.frame, hf.point, Point.asks]
    rw [heq, hg]
    refine .single (.advance hf .sender) (goOn_panicked ..) ?_
    rw [goOn_heard, note_heard]
    rfl
  | kernel =>
    have heq : s.awaitSender r f fr ret op k .kernel = suspend { s with
        frames := Function.update s.frames f (some { fr with point := .sender op r ⟨.frame f, none⟩ k })
        rt := Function.update s.rt r { s.rt r with pendingWorks := (s.rt r).pendingWorks + 1 }
        kernel := s.kernel ++ [(r, f)], pended := s.pended ++ [(r, f)] } r ret := rfl
    rw [heq, suspend_eq]
    exact .quiet (.awaitKernel hf (((RtKeep.refl h).pend r f).next_suspend h hc)) rfl rfl
  | waits =>
    have heq : s.awaitSender r f fr ret op k .waits = suspend { s with
        frames := Function.update s.frames f (some { fr with point := .sender op r ⟨.frame f, none⟩ k })
        rt := Function.update s.rt r { s.rt r with pendingWorks := (s.rt r).pendingWorks + 1 }
        waits := s.waits ++ [(r, f)], pended := s.pended ++ [(r, f)] } r ret := rfl
    rw [heq, suspend_eq]
    exact .quiet (.awaitWaits hf (((RtKeep.refl h).pend r f).next_suspend h hc)) rfl rfl

/-- `co_await` of a zombie: the coroutine goes on at once, and the frame of the task is destroyed. -/
theorem awaitTask_zombie {t : ℕ} {k : Outcome V E → Body ι V E} {tf : Frame ι V E} {o : Outcome V E}
    (hf : s.OnThread r f fr (.join t k)) (hne : t ≠ f) (ht : t ∈ s.tasks) (htf : s.frames t = some tf)
    (hst : tf.state = .zombie) (ho : tf.outcome = some o) :
    s.awaitTask r f fr ret t k = some (goOn { s with
      frames := Function.update s.frames t none, tasks := s.tasks.erase t, taken := s.taken ++ [t]
      destroyed := s.destroyed ++ [t] } f [.join t] (k o)) := by
  have hrt : Function.update s.rt r { s.rt r with control := .running f ret } = s.rt := by
    rw [← hc, Function.update_eq_self]
  have hp : s.pended.erase (r, f) = s.pended := List.erase_of_not_mem (hf.not_pended h r)
  have ho' : Frame.outcome { tf with state := .finished } = some o := ho
  have hff : Function.update s.frames t none f = some fr := (Function.update_of_ne hne.symm _ _).trans hf.frame
  set s₁ := ((s.take t).pendWork r).setFrame f { fr with point := .task t r k, trace := fr.trace ++ [.join t] } with hs₁
  have h₁ : (s₁.note [.body fr.root (.join t)]).frames t = some tf := by
    simp [hs₁, note, setFrame, pendWork, setRt, take, hne, htf]
  have h₂ : ((s₁.note [.body fr.root (.join t)]).setFrame t { tf with state := .finished }).frames f =
      some { fr with point := .task t r k, trace := fr.trace ++ [.join t] } := by
    simp [hs₁, note, setFrame, hne.symm]
  have h₃ : (((s₁.note [.body fr.root (.join t)]).setFrame t { tf with state := .finished }).resumeWork r).frames t =
      some { tf with state := .finished } := by
    simp [resumeWork, setFrame, setRt]
  rw [goOn_eq hff]
  simp only [awaitTask, hne, ht, if_true, if_false, ← hs₁, h₁, hst, resume, h₂, collect_eq h₃ ho', proceed]
  simp [hs₁, note, setFrame, pendWork, setRt, take, resumeWork, setControl, hp, hrt, Function.update_comm hne]

/-- `co_await` of a task. -/
theorem awaitTask_reaches {t : ℕ} {k : Outcome V E → Body ι V E} (hf : s.OnThread r f fr (.join t k))
    (hs : s.awaitTask r f fr ret t k = some s') : s.Reaches [] s' := by
  by_cases htf' : t = f
  · simp [awaitTask, htf'] at hs
  by_cases ht : t ∈ s.tasks
  · obtain ⟨tf, htf, hst | hst⟩ := h.task_frame ht
    · have heq : s.awaitTask r f fr ret t k = some (suspend { s with
          frames := Function.update (Function.update s.frames f (some { fr with
            point := .task t r k, trace := fr.trace ++ [.join t] })) t
            (some { tf with state := .runningJoining, union := .callback (.taskAwaiter f r) })
          rt := Function.update s.rt r { s.rt r with pendingWorks := (s.rt r).pendingWorks + 1 }
          tasks := s.tasks.erase t, taken := s.taken ++ [t], pended := s.pended ++ [(r, f)]
          log := s.log ++ [.body fr.root (.join t)] } r ret) := by
        simp [awaitTask, htf', ht, take, pendWork, setRt, setFrame, note, htf, hst]
      rw [heq, Option.some.injEq] at hs
      subst hs
      rw [suspend_eq]
      refine .quiet (.awaitTask hf htf' ht htf hst (((RtKeep.refl h).pend r f).next_suspend h hc)) rfl ?_
      exact (note_heard s [.body fr.root (.join t)]).trans (List.append_nil _)
    · obtain ⟨o, ho⟩ := h.outcome htf (.inl hst)
      rw [awaitTask_zombie h hc hf htf' ht htf hst ho, Option.some.injEq] at hs
      subst hs
      exact .quiet (.advance hf (.join htf ho (.collect ht htf hst (.inl ⟨.inr rfl, rfl⟩)))) (goOn_panicked ..)
        (goOn_heard ..)
  · by_cases htk : t ∈ s.taken
    · simp only [awaitTask, htf', ht, htk, if_true, if_false, Option.some.injEq] at hs
      subst hs
      exact .quiet (.advance hf (.refused ht htk)) (goOn_panicked ..) (goOn_heard ..)
    · simp [awaitTask, htf', ht, htk] at hs

omit h hc in
/-- `wait()` in a coroutine. -/
theorem waitInside_goes {root t : ℕ} {k : Outcome V E → Body ι V E} (hs : s.waitInside t = some s') :
    s.Goes root (.wait t k) [.wait t] s' (k (.error .insideRuntime)) ∧ s'.panicked = s.panicked ∧
      s'.heard = s.heard := by
  unfold waitInside at hs
  split_ifs at hs with ht hk
  · obtain rfl := Option.some.inj hs
    exact ⟨.lose ht, rfl, rfl⟩
  · obtain rfl := Option.some.inj hs
    exact ⟨.waitGone ht hk, rfl, rfl⟩

/-- One part of the body of the coroutine on the thread. -/
theorem execBody_reaches {b : Body ι V E} {how : Start} (hf : s.OnThread r f fr b)
    (hs : s.execBody r f fr ret how b = some s') : s.Reaches (s.givenTo f how) s' := by
  cases b with
  | sender op k =>
    obtain rfl := Option.some.inj hs
    exact awaitSender_reaches h hc hf how
  | coReturn v =>
    rw [hf.givenTo_nil rfl how]
    obtain rfl := Option.some.inj hs
    exact finalSuspend_reaches h hc hf (o := .ok v) rfl
  | throw e =>
    rw [hf.givenTo_nil rfl how]
    obtain rfl := Option.some.inj hs
    exact finalSuspend_reaches h hc hf (o := .error e) rfl
  | call callee k =>
    rw [hf.givenTo_nil rfl how]
    obtain rfl := Option.some.inj hs
    exact .quiet (.call hf ((RtKeep.refl h).next_transfer h hc s.nextFrame)) rfl rfl
  | spawn r' callee k =>
    rw [hf.givenTo_nil rfl how]
    obtain rfl := Option.some.inj hs
    obtain ⟨hr, hpan, hheard⟩ := coSpawn_request h (some r) r' callee
    exact .quiet (.advance hf (.spawn hr)) ((goOn_panicked ..).trans hpan) ((goOn_heard ..).trans hheard)
  | join t k =>
    rw [hf.givenTo_nil rfl how]
    exact awaitTask_reaches h hc hf hs
  | detach t k =>
    rw [hf.givenTo_nil rfl how]
    obtain ⟨s₁, hd, rfl⟩ := Option.map_eq_some_iff.mp hs
    obtain ⟨hr, hheard, hpan⟩ := detach_request h hd
    refine ⟨?_, ?_, ?_⟩
    · rw [goOn_panicked]
      exact .advance (hf.halt _) (.detach hr)
    · rw [goOn_panicked]
      exact hpan
    · rw [goOn_heard, hheard, List.append_nil]
  | wait t k =>
    rw [hf.givenTo_nil rfl how]
    obtain ⟨s₁, hw, rfl⟩ := Option.map_eq_some_iff.mp hs
    obtain ⟨hg, hpan, hheard⟩ := waitInside_goes hw
    exact .quiet (.advance hf hg) ((goOn_panicked ..).trans hpan) ((goOn_heard ..).trans hheard)
  | drop t k =>
    rw [hf.givenTo_nil rfl how]
    obtain rfl := Option.some.inj hs
    by_cases ht : t ∈ s.tasks
    · have heq : s.drop t = { s with panicked := some (.taskDestroyed t) } := if_pos ht
      rw [heq]
      refine ⟨?_, .inr ⟨_, goOn_panicked .., .dropped hf ht⟩, ?_⟩
      · rw [goOn_panicked]
        exact .advance (hf.halt _) .drop
      · rw [goOn_heard, List.append_nil]
        rfl
    · have heq : s.drop t = s := if_neg ht
      rw [heq]
      exact .quiet (.advance hf .drop) (goOn_panicked ..) (goOn_heard ..)
  | switch r' k =>
    rw [hf.givenTo_nil rfl how]
    obtain rfl := Option.some.inj hs
    obtain ⟨q, rt, heq, hq, hrt⟩ := schedule_eq (s.setFrame f { fr with point := .switched k }) (some r) r' (.promise f)
    rw [heq, suspend_eq]
    exact .quiet (.switch hf hq (RtKeep.next_suspend h (hrt s s.pended (RtKeep.refl h)) hc)) rfl rfl

end

/-! ## Steps -/

section

variable (h : s.Inv loc) (hc : (s.rt r).control = .loop)
include h hc

omit hc in
/-- What `pending_works_` counts without the await of `f`. -/
theorem Inv.countP_erase (hf : s.frames f = some fr) (hp : fr.point.pends = some r) (r' : ι) :
    s.pended.countP (fun p => p.1 = r') =
      (s.pended.erase (r, f)).countP (fun p => p.1 = r') + if r = r' then 1 else 0 := by
  have hmem : (r, f) ∈ s.pended := (h.pended.2 r f).mpr ⟨fr, hf, hp⟩
  rw [(List.perm_cons_erase hmem).countP_eq, List.countP_cons]
  simp

/-- The thread of `r` leaves the loop for the coroutine `f`. -/
theorem Inv.next_start (f : ℕ) :
    s.RtNext r (some f) s.pended (Function.update s.rt r { s.rt r with control := .running f .work }) := by
  refine (RtKeep.refl h).next_update h (x := { s.rt r with control := .running f .work }) (by rw [hc]; simp) rfl ?_
    fun _ _ => rfl
  have hp := h.pending r
  rw [PendRt, hc] at hp
  exact hp

/-- The thread of `r` leaves the loop for the coroutine `f`, whose await is over: the work is given back now, or when the
coroutine is suspended. -/
theorem Inv.next_complete (hf : s.frames f = some fr) (hp : fr.point.pends = some r) :
    s.RtNext r (some f) (s.pended.erase (r, f)) (Function.update (s.resumeWork r).rt r
      { (s.resumeWork r).rt r with control := .running f .work }) ∧
    s.RtNext r (some f) (s.pended.erase (r, f)) (Function.update s.rt r { s.rt r with control := .running f .op }) := by
  have hcount := h.countP_erase hf hp
  have hpend := h.pending r
  rw [PendRt, hc, hcount r, if_pos rfl] at hpend
  simp only [Control.owes] at hpend
  have hother : ∀ r', r' ≠ r →
      (s.pended.erase (r, f)).countP (fun p => p.1 = r') = s.pended.countP (fun p => p.1 = r') := fun r' hr => by
    rw [hcount r', if_neg (Ne.symm hr), Nat.add_zero]
  constructor
  · have hrt : Function.update (s.resumeWork r).rt r { (s.resumeWork r).rt r with control := .running f .work } =
        Function.update s.rt r { s.rt r with
          control := .running f .work, pendingWorks := (s.rt r).pendingWorks - 1 } := by
      simp [resumeWork, setRt, show (s.rt r).pendingWorks ≠ 0 by omega]
    rw [hrt]
    refine (RtKeep.refl h).next_update h (x := { s.rt r with
      control := .running f .work, pendingWorks := (s.rt r).pendingWorks - 1 }) (by rw [hc]; simp) rfl ?_ hother
    simp only [PendRt, Control.owes, Ret.owes]
    omega
  · refine (RtKeep.refl h).next_update h (x := { s.rt r with control := .running f .op }) (by rw [hc]; simp) rfl ?_ hother
    simp only [PendRt, Control.owes, Ret.owes]
    omega

/-- An item of a queue of `r` is taken out and invoked. -/
theorem invoke_reaches {w : Work} {l : List Work} (hq : (s.queue q).Perm (w :: l)) (hqr : q.runtime = r) :
    s.Reaches [] (invoke { s with queue := Function.update s.queue q l } r w) := by
  have hmem : w ∈ s.queue q := hq.symm.subset List.mem_cons_self
  have hframe : (s.rt r).control.frame = none := by rw [hc]; rfl
  obtain ⟨fr, hf, hfit⟩ := h.works q w hmem
  rw [hqr] at hfit
  cases w with
  | promise f =>
    have hf' : s.frames f = some fr := hf
    cases hp : fr.point with
    | initial b | switched b =>
      have hp' : fr.point = .initial b ∨ fr.point = .switched b := by simp [hp]
      rw [invoke, resume_start (s := { s with queue := Function.update s.queue q l }) hf' hp']
      exact .quiet (.start hframe hf' hp' hq (h.next_start hc f)) rfl rfl
    | task t r' k =>
      rw [hp] at hfit
      obtain rfl : r' = r := hfit
      obtain ⟨tf, o, htf, hst, ho⟩ := h.awaited hf' hp (h.loc_queue hmem)
      have htf' : (resumeWork { s with queue := Function.update s.queue q l } r').frames t = some tf := htf
      have heq : invoke { s with queue := Function.update s.queue q l } r' (.promise f) = { s with
          frames := Function.update (Function.update s.frames t none) f (some { fr with point := .running (k o) })
          rt := Function.update (s.resumeWork r').rt r' { (s.resumeWork r').rt r' with control := .running f .work }
          queue := Function.update s.queue q l, destroyed := s.destroyed ++ [t]
          pended := s.pended.erase (r', f) } := by
        simp only [invoke, resume, hf', hp, collect_eq htf' ho]
        rfl
      rw [heq]
      exact .quiet (.resumeTask hframe hf' hp htf hst ho hq (h.next_complete hc hf' (by rw [hp]; rfl)).1) rfl rfl
    | _ => simp [hp, Work.Fits] at hfit
  | waiter f res =>
    have hf' : s.frames f = some fr := hf
    cases hp : fr.point with
    | sender op r' a k =>
      rw [hp] at hfit
      obtain rfl : r' = r := hfit
      have hplace := (h.shape f fr hf').place
      rw [hp] at hplace
      obtain ⟨rfl, -⟩ := hplace
      have hf'' : (resumeWork { s with queue := Function.update s.queue q l } r').frames f = some fr := hf'
      rw [invoke, receive_sender hf'' hp]
      refine .quiet (.completeWaiter hframe hf' hp hq (h.next_complete hc hf' (by rw [hp]; rfl)).1) rfl ?_
      exact (note_heard s [.body fr.root (.sender op res)]).trans (List.append_nil _)
    | _ => simp [hp, Work.Fits] at hfit

/-- The completion of an operation. -/
theorem complete_reaches {l : List (ι × ℕ)} {res : ℤ} (hq : s.kernel.Perm ((r, f) :: l)) :
    s.Reaches (s.answer f res) (receive { s.note (s.answer f res) with kernel := l } r f res .op) := by
  have hmem : (r, f) ∈ s.kernel := hq.symm.subset List.mem_cons_self
  have hframe : (s.rt r).control.frame = none := by rw [hc]; rfl
  obtain ⟨fr, op, a, k, hf, hp⟩ := h.senders (r, f) (List.mem_append_left _ hmem)
  have hplace := (h.shape f fr hf).place
  rw [hp] at hplace
  obtain ⟨rfl, -⟩ := hplace
  have hf' : ({ s.note (s.answer f res) with kernel := l } : Machine ι V E).frames f = some fr := hf
  rw [receive_sender hf' hp, answer_sender hf hp]
  simp only [note, List.append_assoc, List.cons_append, List.nil_append]
  refine .single (.completeKernel hframe hf hp hq (h.next_complete hc hf (by rw [hp]; rfl)).2) rfl ?_
  exact note_heard s [.answer fr.root op res, .body fr.root (.sender op res)]

end

theorem perm_eraseIdx {α : Type} {l : List α} {i : ℕ} {a : α} (hi : l[i]? = some a) : l.Perm (a :: l.eraseIdx i) := by
  obtain ⟨hlt, rfl⟩ := List.getElem?_eq_some_iff.mp hi
  exact (List.getElem_cons_eraseIdx_perm hlt).symm

section

variable (h : s.Inv loc)
include h

/-- Counts and flags of one runtime change. -/
theorem rts_move {x : Rt} (hx : x.control.frame = (s.rt r).control.frame)
    (hen : x.ringEnabled = (s.rt r).ringEnabled) (hp : PendRt s.pended r x)
    (hst : x.control ≠ .outside → x.ringEnabled = true) : s.Move (s.setRt r x) := by
  refine .rts (r := r) ⟨by rw [Function.update_self, hx], fun r' hr => by rw [Function.update_of_ne hr], fun r' => ?_,
    fun r' => ?_, fun r' hc => ?_⟩
  · rcases eq_or_ne r' r with rfl | hr
    · rw [Function.update_self, hen]
    · rw [Function.update_of_ne hr]
  · rcases eq_or_ne r' r with rfl | hr
    · rw [Function.update_self]
      exact hp
    · rw [Function.update_of_ne hr]
      exact h.pending r'
  · rcases eq_or_ne r' r with rfl | hr
    · rw [Function.update_self] at hc ⊢
      exact hst hc
    · rw [Function.update_of_ne hr] at hc ⊢
      exact h.started r' hc

omit h [DecidableEq ι] in
theorem wait_zombie {t : ℕ} {tf : Frame ι V E} {o : Outcome V E} (ht : t ∈ s.tasks) (htf : s.frames t = some tf)
    (hst : tf.state = .zombie) (ho : tf.outcome = some o) : s.wait t = some { s with
      frames := Function.update s.frames t none, tasks := s.tasks.erase t, taken := s.taken ++ [t]
      destroyed := s.destroyed ++ [t], waited := s.waited ++ [(t, o)] } := by
  have hset : ((s.take t).setFrame t { tf with state := .finished }).frames t = some { tf with state := .finished } :=
    Function.update_self ..
  have ho' : Frame.outcome { tf with state := .finished } = some o := ho
  have htake : (s.take t).frames t = some tf := htf
  simp only [wait, ht, if_true, htake, hst, waitCollect, collect_eq hset ho']
  simp [setFrame, take]

/-- `wait()` on a thread that runs no runtime. -/
theorem wait_request {t : ℕ} (hw : s.wait t = some s') :
    s.Request (.wait t) s' ∧ s'.panicked = s.panicked ∧ s'.heard = s.heard := by
  by_cases ht : t ∈ s.tasks
  · obtain ⟨tf, htf, hst | hst⟩ := h.task_frame ht
    · simp only [wait, ht, if_true, take, htf, hst, Option.some.injEq] at hw
      subst hw
      exact ⟨.wait ht htf hst, rfl, rfl⟩
    · obtain ⟨o, ho⟩ := h.outcome htf (.inl hst)
      rw [wait_zombie ht htf hst ho, Option.some.injEq] at hw
      subst hw
      exact ⟨.collect ht htf hst (.inr ⟨o, rfl, ho, rfl⟩), rfl, rfl⟩
  · by_cases hk : t ∈ s.taken
    · simp only [wait, ht, hk, if_true, if_false, Option.some.injEq] at hw
      subst hw
      exact ⟨.gone ht hk, rfl, rfl⟩
    · simp [wait, ht, hk] at hw

/-- A message that the thread of `r` has sent is acknowledged. -/
theorem ack_reaches (hc : (s.rt r).control = .loop) (hacks : 0 < (s.rt r).acks) :
    s.Reaches [] ((s.setRt r { s.rt r with acks := (s.rt r).acks - 1 }).resumeWork r) := by
  have hp := h.pending r
  rw [PendRt, hc] at hp
  simp only [Control.owes] at hp
  have heq : (s.setRt r { s.rt r with acks := (s.rt r).acks - 1 }).resumeWork r = s.setRt r { s.rt r with
      acks := (s.rt r).acks - 1, pendingWorks := (s.rt r).pendingWorks - 1 } := by
    simp [setRt, resumeWork, show (s.rt r).pendingWorks ≠ 0 by omega]
  rw [heq]
  refine .quiet (rts_move h rfl rfl ?_ (h.started r)) rfl rfl
  simp only [PendRt, hc, Control.owes]
  omega

/-- Another coroutine, or a thread outside of `run()`, completes a sender. -/
theorem wake_reaches {f : ℕ} {res : ℤ} {l : List (ι × ℕ)} (here : Option ι) (hw : s.waits.Perm ((r, f) :: l)) :
    s.Reaches (s.answer f res) (schedule { s.note (s.answer f res) with waits := l } here r (.waiter f res)) := by
  obtain ⟨fr, op, a, k, hf, hp⟩ := h.senders (r, f) (List.mem_append_right _ (hw.symm.subset List.mem_cons_self))
  obtain ⟨q, rt, heq, hq, hrt⟩ := schedule_eq { s.note (s.answer f res) with waits := l } here r (.waiter f res)
  have hans := answer_sender hf hp res
  rw [heq]
  refine .single ?_ rfl ?_
  · rw [hans]
    exact .wake hf hp hw hq ((hrt s s.pended (RtKeep.refl h)).next h r)
  · change (s.note (s.answer f res)).heard = s.heard ++ s.answer f res
    rw [note_heard, hans]
    rfl

/-- Every step is a move. -/
theorem step_reaches {op : Op ι V E} (hs : s.step op = some s') : s.Reaches (s.given op) s' := by
  unfold step at hs
  split_ifs at hs
  cases op with
  | run r =>
    simp only [act] at hs
    split_ifs at hs with hc
    obtain rfl := Option.some.inj hs
    exact .quiet (.run (not_not.mp hc)) rfl rfl
  | pop r =>
    simp only [act] at hs
    split at hs
    next w ws hc hq =>
      obtain rfl := Option.some.inj hs
      exact invoke_reaches h hc (q := .localQueue r) (by rw [hq]) rfl
    · cases hs
  | message r i =>
    simp only [act] at hs
    split at hs
    next w hc hq =>
      obtain rfl := Option.some.inj hs
      exact invoke_reaches h hc (q := .mail r) (perm_eraseIdx hq) rfl
    · cases hs
  | complete r i res =>
    simp only [act] at hs
    split at hs
    next r' f hc hq =>
      split_ifs at hs with hr
      subst hr
      obtain rfl := Option.some.inj hs
      rw [given, hq]
      exact complete_reaches h hc (perm_eraseIdx hq)
    · cases hs
  | ack r =>
    simp only [act] at hs
    split_ifs at hs with hc
    obtain rfl := Option.some.inj hs
    exact ack_reaches h hc.1 hc.2
  | quit r =>
    simp only [act] at hs
    split_ifs at hs with hc
    obtain rfl := Option.some.inj hs
    have hp := h.pending r
    rw [PendRt, hc.1] at hp
    exact .quiet (rts_move h (by rw [hc.1]; rfl) rfl hp fun hne => absurd rfl hne) rfl rfl
  | exec r how =>
    simp only [act] at hs
    split at hs
    next f ret hc =>
      obtain ⟨fr, b, hf⟩ := h.on_thread hc
      simp only [hf.frame, hf.point] at hs
      rw [given, hf.control]
      exact execBody_reaches h hc hf hs
    · cases hs
  | wake here i res =>
    simp only [act] at hs
    split_ifs at hs
    obtain ⟨⟨r, f⟩, hx, rfl⟩ := Option.map_eq_some_iff.mp hs
    rw [given, hx]
    exact wake_reaches h here (perm_eraseIdx hx)
  | coSpawn r b =>
    obtain rfl := Option.some.inj hs
    obtain ⟨hr, hp, hheard⟩ := coSpawn_request h none r b
    refine .single (.outside hr) hp ?_
    rw [note_heard, hheard]
    rfl
  | allowExit r =>
    obtain rfl := Option.some.inj hs
    exact .quiet (rts_move h rfl rfl (h.pending r) (h.started r)) rfl rfl
  | detach t =>
    obtain ⟨s₁, hd, rfl⟩ := Option.map_eq_some_iff.mp hs
    obtain ⟨hr, hheard, hp⟩ := detach_request h hd
    refine ⟨.outside hr, hp, ?_⟩
    rw [note_heard, hheard]
    rfl
  | wait t =>
    obtain ⟨s₁, hw, rfl⟩ := Option.map_eq_some_iff.mp hs
    obtain ⟨hr, hp, hheard⟩ := wait_request h hw
    refine .single (.outside hr) hp ?_
    rw [note_heard, hheard]
    rfl
  | waitReturn t =>
    simp only [act] at hs
    split_ifs at hs with hw
    obtain rfl := Option.some.inj hs
    obtain ⟨tf, htf, hst⟩ := Option.map_eq_some_iff.mp hw.2
    obtain ⟨o, ho⟩ := h.outcome htf (.inr hst)
    have htf' : ({ s with waiters := s.waiters.erase t } : Machine ι V E).frames t = some tf := htf
    simp only [waitCollect, collect_eq htf' ho]
    exact .quiet (.waitReturn hw.1 htf hst ho) rfl rfl

end

end Machine

end Condy.Coro
