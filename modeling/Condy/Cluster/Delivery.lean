import Condy.Cluster.Step

/-!
# Condy.Cluster.Delivery — every scheduled item is delivered once

The consequences of the invariant for whole runs, and what a thread leaves behind when it leaves `run()`.
-/

namespace Condy

open Lib

namespace Cluster

variable {ι θ : Type} [DecidableEq ι] [DecidableEq θ] {s s' : Cluster ι θ} {xs : ι × Queue → List ℕ} {t : θ} {r : ι}

/-- The items are in order, where the queues hold the sequences `xs`: an item was invoked as often as it was scheduled
and is nowhere, or once less and is at one spot, on its way to the runtime that it was scheduled on last. -/
structure Delivers (s : Cluster ι θ) (xs : ι × Queue → List ℕ) : Prop where
  queues : SingleRep s.mem s.queue xs
  once : ∀ w, (s.invoked.count w = s.scheduled.count w ∧ ∀ p r, (r, w) ∉ contents s.call xs s.rt p) ∨
    (s.invoked.count w + 1 = s.scheduled.count w ∧ ∃ p r, s.target w = some r ∧ (r, w) ∈ contents s.call xs s.rt p ∧
      ((contents s.call xs s.rt p).map Prod.snd).count w = 1 ∧ ∀ q, q ≠ p → ∀ r, (r, w) ∉ contents s.call xs s.rt q)
  flushed : ∀ r, (s.rt r).ringEnabled = true → xs (r, .globalQueue) = []
  /-- A message goes to a ring that is enabled. -/
  messages : ∀ r, ∀ m ∈ (s.rt r).queued ++ (s.rt r).handed, (s.rt m.target).ringEnabled = true

theorem Inv.delivers (h : s.Inv xs) : s.Delivers xs := by
  refine ⟨h.rep, h.routed.one, h.flushed, fun r m hm => ?_⟩
  rcases List.mem_append.mp hm with hm | hm
  · exact ((h.rts r).queued m hm).2
  · exact ((h.rts r).handed m hm).2

/-! ## Leaving `run()` -/

/-- How a step moves a thread: nobody moves, or one thread enters `run()`, stays in it, or leaves it by the `break`. -/
def Moves (s s' : Cluster ι θ) : Prop :=
  s'.place = s.place ∨ ∃ t p, s'.place = Function.update s.place t p ∧
    (s.place t = .outside ∨ p.runtime = (s.place t).runtime ∨
      ∃ r, s.place t = .pick r ∧ (s.rt r).pendingWorks = 0)

omit [DecidableEq ι] in
theorem moves_stay {p : Place ι} (hr : (s.place t).runtime = some r) (hp : p.runtime = some r)
    (hplace : s'.place = Function.update s.place t p) : Moves s s' :=
  .inr ⟨t, p, hplace, .inr (.inl (hp.trans hr.symm))⟩

theorem pick_moves (hp : s.place t = .pick r) : Moves s (s.pick t r) := by
  have hr : (s.place t).runtime = some r := by rw [hp]; rfl
  unfold pick
  simp only
  split
  · exact moves_stay hr rfl rfl
  · split_ifs with hexit
    · exact .inr ⟨t, .outside, rfl, .inr (.inr ⟨r, hp, hexit.1⟩)⟩
    · exact moves_stay hr rfl rfl

theorem processCqe_moves {next : After} (hp : s.place t = .reap r next) (c : Completion ι) (cs : List (Completion ι)) :
    Moves s (s.processCqe t r next c cs) := by
  have hr : (s.place t).runtime = some r := by rw [hp]; rfl
  unfold processCqe
  simp only
  split
  · exact .inl rfl
  · exact .inl rfl
  · split_ifs
    · exact .inl rfl
    · exact .inl rfl
    · exact moves_stay hr rfl rfl
  · exact moves_stay hr rfl rfl
  · exact .inl rfl

theorem loopStep_moves (hs : s.loopStep t = some s') : Moves s s' := by
  rcases loopStep_cases hs with ⟨r, hp, rfl⟩ | ⟨r, hp, rfl⟩ | ⟨r, hp, rfl⟩ | ⟨r, next, c, cs, hp, -, rfl⟩ |
    ⟨r, p, hgo, rfl⟩
  · exact moves_stay (p := .top r) (by rw [hp]; rfl) rfl rfl
  · unfold tick
    simp only
    split_ifs <;> exact moves_stay (r := r) (by rw [hp]; rfl) rfl rfl
  · exact pick_moves hp
  · exact processCqe_moves hp c cs
  · exact moves_stay hgo.runtime hgo.same rfl

theorem callStep_place {ok : Bool} (hs : s.callStep t ok = some s') : s'.place = s.place := by
  obtain ⟨c, -, ⟨-, rfl⟩ | ⟨-, rfl⟩ | ⟨-, hs⟩⟩ := callStep_cases hs
  · unfold callRead
    split_ifs <;> rfl
  · unfold callLock
    split_ifs <;> rfl
  · rcases callSend_cases hs with ⟨r, -, rfl⟩ | rfl | rfl <;> rfl

theorem step_moves {op : Op ι θ} (hs : step s op = some s') : Moves s s' := by
  obtain ⟨-, hs⟩ := Option.ite_none_left_eq_some.mp hs
  cases op with
  | schedule t target w =>
    obtain ⟨-, hs⟩ := Option.ite_none_left_eq_some.mp hs
    split_ifs at hs <;> obtain rfl := Option.some.inj hs <;> exact .inl rfl
  | allowExit t target =>
    obtain ⟨-, hs⟩ := Option.ite_none_left_eq_some.mp hs
    split_ifs at hs <;> obtain rfl := Option.some.inj hs <;> exact .inl rfl
  | cancel t target data =>
    obtain ⟨-, hs⟩ := Option.ite_none_left_eq_some.mp hs
    obtain rfl := Option.some.inj hs
    exact .inl rfl
  | call t ok => exact .inl (callStep_place hs)
  | run t r ok =>
    obtain ⟨hout, -, ⟨-, rfl⟩ | ⟨-, rfl⟩ | rfl⟩ := run_cases hs
    · exact .inr ⟨t, .flush r, rfl, .inl hout⟩
    · exact .inr ⟨t, .reap r .top, rfl, .inl hout⟩
    · exact .inl rfl
  | loop t => exact loopStep_moves hs
  | submit t =>
    obtain ⟨r, -, rfl⟩ := Option.map_eq_some_iff.mp hs
    exact .inl rfl
  | pend t =>
    obtain ⟨r, -, rfl⟩ := Option.map_eq_some_iff.mp hs
    exact .inl rfl
  | resume t =>
    obtain ⟨r, -, hs⟩ := Option.bind_eq_some_iff.mp hs
    obtain ⟨-, hs⟩ := Option.ite_none_left_eq_some.mp hs
    obtain rfl := Option.some.inj hs
    exact .inl rfl
  | complete t =>
    obtain ⟨r, p, hgo, rfl⟩ := complete_cases hs
    exact moves_stay hgo.runtime hgo.same rfl
  | exec r res =>
    obtain ⟨m, ms, -, ⟨-, rfl⟩ | ⟨-, rfl⟩⟩ := exec_cases hs <;> exact .inl rfl
  | ack r =>
    obtain ⟨-, hs⟩ := Option.ite_none_left_eq_some.mp hs
    obtain rfl := Option.some.inj hs
    exact .inl rfl
  | arrive r i =>
    obtain ⟨d, -, rfl⟩ := Option.map_eq_some_iff.mp hs
    exact .inl rfl

/-- A runtime whose thread leaves `run()` owes no message: none is queued, handed over or in a call. -/
theorem leaves (h : s.Inv xs) {op : Op ι θ} (hs : step s op = some s') (hr : (s.place t).runtime = some r)
    (hl : (s'.place t).runtime ≠ some r) :
    (s.rt r).queued = [] ∧ (s.rt r).handed = [] ∧ (s.rt r).acks = 0 ∧ s.call t = none := by
  rcases step_moves hs with hplace | ⟨t', p, hplace, hmove⟩
  · rw [hplace] at hl
    exact absurd hr hl
  · rw [hplace] at hl
    rcases eq_or_ne t t' with rfl | ht
    · rw [Function.update_self] at hl
      rcases hmove with hout | hsame | ⟨r', hp, hpend⟩
      · rw [hout] at hr
        cases hr
      · exact absurd (hsame.trans hr) hl
      · rw [hp] at hr
        obtain rfl := Option.some.inj hr
        have hcount := (h.rts r').pending
        rw [hpend] at hcount
        refine ⟨List.length_eq_zero_iff.mp (by omega), List.length_eq_zero_iff.mp (by omega), by omega, ?_⟩
        exact h.no_call (by rw [hp]; rfl)
    · rw [Function.update_of_ne ht] at hl
      exact absurd hr hl

/-! ## Invoking -/

/-- A step invokes nothing, or the loop of a runtime invokes an item that was scheduled on this runtime. -/
def Invokes (s s' : Cluster ι θ) (op : Op ι θ) : Prop :=
  s'.invoked = s.invoked ∨ ∃ t r w, op = .loop t ∧ (s.place t).runtime = some r ∧ s.target w = some r ∧
    s'.invoked = s.invoked ++ [w]

theorem pick_invokes (h : s.Inv xs) (hp : s.place t = .pick r) : Invokes s (s.pick t r) (.loop t) := by
  unfold pick
  simp only
  cases hq : xs (r, .localQueue) with
  | nil =>
    rw [h.rep.popFront_nil hq]
    simp only
    split_ifs
    · exact .inl rfl
    · exact .inl rfl
  | cons w rest =>
    have hmem : w ∈ xs (r, .localQueue) := by rw [hq]; exact List.mem_cons_self
    rw [(h.rep.popFront_cons hq).1]
    exact .inr ⟨t, r, w, rfl, by rw [hp]; rfl, h.routed.route _ _ (mem_contents_queue hmem), rfl⟩

theorem processCqe_invokes (h : s.Inv xs) {next : After} (hp : s.place t = .reap r next) {c : Completion ι}
    {cs : List (Completion ι)} (hq : (s.rt r).cq = c :: cs) : Invokes s (s.processCqe t r next c cs) (.loop t) := by
  unfold processCqe
  simp only
  split
  · exact .inl rfl
  · exact .inl rfl
  · next data hd =>
    split_ifs with h0
    · exact .inl rfl
    · exact .inl rfl
    · have hitem : itemFor r c.userData = some (r, data) := by
        unfold itemFor workOf
        rw [hd]
        simp only [if_neg h0, Option.map_some]
      have hmem : (r, data) ∈ contents s.call xs s.rt (.bin r .cq) :=
        List.mem_filterMap.mpr ⟨c, by rw [hq]; exact List.mem_cons_self, hitem⟩
      exact .inr ⟨t, r, data, rfl, by rw [hp]; rfl, h.routed.route _ _ hmem, rfl⟩
  · exact .inl rfl
  · exact .inl rfl

theorem loopStep_invokes (h : s.Inv xs) (hs : s.loopStep t = some s') : Invokes s s' (.loop t) := by
  rcases loopStep_cases hs with ⟨r, hp, rfl⟩ | ⟨r, hp, rfl⟩ | ⟨r, hp, rfl⟩ | ⟨r, next, c, cs, hp, hq, rfl⟩ |
    ⟨r, p, hgo, rfl⟩
  · exact .inl rfl
  · unfold tick
    simp only
    split_ifs
    · exact .inl rfl
    · exact .inl rfl
  · exact pick_invokes h hp
  · exact processCqe_invokes h hp hq
  · exact .inl rfl

theorem callStep_invoked {ok : Bool} (hs : s.callStep t ok = some s') : s'.invoked = s.invoked := by
  obtain ⟨c, -, ⟨-, rfl⟩ | ⟨-, rfl⟩ | ⟨-, hs⟩⟩ := callStep_cases hs
  · unfold callRead
    split_ifs <;> rfl
  · unfold callLock
    split_ifs <;> rfl
  · rcases callSend_cases hs with ⟨r, -, rfl⟩ | rfl | rfl <;> rfl

theorem step_invokes {op : Op ι θ} (h : s.Inv xs) (hs : step s op = some s') : Invokes s s' op := by
  obtain ⟨-, hs⟩ := Option.ite_none_left_eq_some.mp hs
  cases op with
  | schedule t target w =>
    obtain ⟨-, hs⟩ := Option.ite_none_left_eq_some.mp hs
    split_ifs at hs <;> obtain rfl := Option.some.inj hs <;> exact .inl rfl
  | allowExit t target =>
    obtain ⟨-, hs⟩ := Option.ite_none_left_eq_some.mp hs
    split_ifs at hs <;> obtain rfl := Option.some.inj hs <;> exact .inl rfl
  | cancel t target data =>
    obtain ⟨-, hs⟩ := Option.ite_none_left_eq_some.mp hs
    obtain rfl := Option.some.inj hs
    exact .inl rfl
  | call t ok => exact .inl (callStep_invoked hs)
  | run t r ok =>
    obtain ⟨-, -, ⟨-, rfl⟩ | ⟨-, rfl⟩ | rfl⟩ := run_cases hs <;> exact .inl rfl
  | loop t => exact loopStep_invokes h hs
  | submit t | pend t | arrive r i =>
    obtain ⟨-, -, rfl⟩ := Option.map_eq_some_iff.mp hs
    exact .inl rfl
  | resume t =>
    obtain ⟨r, -, hs⟩ := Option.bind_eq_some_iff.mp hs
    obtain ⟨-, hs⟩ := Option.ite_none_left_eq_some.mp hs
    obtain rfl := Option.some.inj hs
    exact .inl rfl
  | complete t =>
    obtain ⟨r, p, -, rfl⟩ := complete_cases hs
    exact .inl rfl
  | exec r res =>
    obtain ⟨m, ms, -, ⟨-, rfl⟩ | ⟨-, rfl⟩⟩ := exec_cases hs <;> exact .inl rfl
  | ack r =>
    obtain ⟨-, hs⟩ := Option.ite_none_left_eq_some.mp hs
    obtain rfl := Option.some.inj hs
    exact .inl rfl

/-- **Delivered once**: for any number of runtimes and threads, every item is invoked or at one spot at every moment, on
its way to the runtime it was scheduled on, which alone invokes it; no item stays in the global queue of a runtime that is
enabled, and a runtime whose thread leaves `run()` has sent all its messages. -/
theorem delivered_once (eventInterval : ι → ℕ) {ops : List (Op ι θ)} {s : Cluster ι θ}
    (hrun : Lib.run step (init eventInterval) ops = some s) :
    (∃ xs, s.Delivers xs) ∧ ∀ op s', step s op = some s' → Invokes s s' op ∧ ∀ t r, (s.place t).runtime = some r →
      (s'.place t).runtime ≠ some r → (s.rt r).queued = [] ∧ (s.rt r).handed = [] ∧ s.call t = none := by
  obtain ⟨xs, h⟩ := Lib.run_inv (I := fun s : Cluster ι θ => ∃ xs, s.Inv xs)
    (fun _ op _ hI hs => hI.elim fun _ h => step_inv op h hs) ops ⟨_, init_inv eventInterval⟩ hrun
  refine ⟨⟨xs, h.delivers⟩, fun op s' hs => ⟨step_invokes h hs, fun t r hr hl => ?_⟩⟩
  obtain ⟨h1, h2, -, h3⟩ := leaves h hs hr hl
  exact ⟨h1, h2, h3⟩

/-- Thread 0 finds runtime 1 not enabled and takes the slow path, while thread 1 enables it and flushes; the item goes by
message and is invoked.  From there, item 16 goes to the queue of runtime 0 and item 24 to it by message. -/
def startUpRace : List (Op (Fin 2) (Fin 2)) :=
  [.schedule 0 1 8, .call 0 true, .run 1 1 true, .loop 1, .call 0 true, .call 0 true, .loop 1, .loop 1, .arrive 1 0,
    .loop 1, .loop 1, .schedule 1 0 16, .call 1 true, .call 1 true, .schedule 1 0 24, .call 1 true, .run 0 0 true,
    .loop 0, .call 1 true, .call 1 true]

theorem delivered_once_startUp : ∃ s : Cluster (Fin 2) (Fin 2), Lib.run step (init fun _ => 61) startUpRace = some s ∧
    s.scheduled = [8, 16, 24] ∧ s.invoked = [8] ∧ (s.rt 1).queued = [⟨0, encodeWork 24 .schedule⟩] ∧
    ∃ xs, SingleRep s.mem s.queue xs ∧ (∀ p r, (r, 8) ∉ contents s.call xs s.rt p) ∧
      (∃ p, (0, 24) ∈ contents s.call xs s.rt p) ∧ xs (0, .globalQueue) = [] := by
  have hsome : (Lib.run step (init fun _ => 61 : Cluster (Fin 2) (Fin 2)) startUpRace).map
      (fun s => (s.scheduled, s.invoked, (s.rt 1).queued, (s.rt 0).ringEnabled && s.target 24 = some 0)) =
      some ([8, 16, 24], [8], [⟨0, encodeWork 24 .schedule⟩], true) := by decide +kernel
  obtain ⟨s, hs, hend⟩ := Option.map_eq_some_iff.mp hsome
  obtain ⟨h1, h2, h3, h4, h5⟩ : s.scheduled = [8, 16, 24] ∧ s.invoked = [8] ∧
      (s.rt 1).queued = [⟨0, encodeWork 24 .schedule⟩] ∧ (s.rt 0).ringEnabled = true ∧ s.target 24 = some 0 := by
    simpa using hend
  obtain ⟨⟨xs, hx⟩, -⟩ := delivered_once _ hs
  refine ⟨s, hs, h1, h2, h3, xs, hx.queues, ?_, ?_, hx.flushed 0 h4⟩
  · rcases hx.once 8 with ⟨-, h⟩ | ⟨h, -⟩
    · exact h
    · rw [h1, h2] at h
      exact absurd h (by decide)
  · rcases hx.once 24 with ⟨h, -⟩ | ⟨-, p, r, ht, hm, -⟩
    · rw [h1, h2] at h
      exact absurd h (by decide)
    · rw [h5] at ht
      cases ht
      exact ⟨p, hm⟩

end Cluster

end Condy
