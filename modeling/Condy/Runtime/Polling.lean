import Condy.Runtime.Frame

/-!
# Condy.Runtime.Polling — how long the loop goes without a look at the completion queue

`run()` counts its turns in `tick_count_` and calls `flush_ring_()` when the count reaches `event_interval_`; a turn that
finds the local queue empty waits for completions.  `turnsLeft` and `itemsLeft` say how many turns, and how many items of
the local queue, the loop can still take from a state before the next look; every step of the thread pays for itself out
of them (`Turn.turns`, `Turn.items`), and no other step touches the clock.
-/

namespace Condy

open Lib

namespace Runtime

namespace Clock

variable (k : Clock)

/-- The turns between two looks.  An interval of zero acts as one. -/
def interval : ℕ := max 1 k.eventInterval

def turnsLeft : ℕ :=
  match k.control with
  | .top | .pick | .work => k.interval - k.tickCount
  | .idle => if k.ringEnabled then 0 else k.interval
  | _ => 0

def itemsLeft : ℕ :=
  match k.control with
  | .pick => k.interval - k.tickCount
  | .top | .work => k.interval - k.tickCount - 1
  | .idle => if k.ringEnabled then 0 else k.interval
  | _ => 0

/-- The count stays below the interval, and `run()` enables the ring before its loop. -/
structure Ok : Prop where
  count : k.tickCount < k.interval
  enabled : k.control ≠ .idle → k.ringEnabled = true

theorem turnsLeft_le : k.turnsLeft ≤ k.interval := by
  unfold turnsLeft
  split
  · exact Nat.sub_le _ _
  · exact Nat.sub_le _ _
  · exact Nat.sub_le _ _
  · split
    · exact Nat.zero_le _
    · exact Nat.le_refl _
  · exact Nat.zero_le _

theorem itemsLeft_le : k.itemsLeft ≤ k.interval := by
  unfold itemsLeft
  split
  · exact Nat.sub_le _ _
  · omega
  · omega
  · split
    · exact Nat.zero_le _
    · exact Nat.le_refl _
  · exact Nat.zero_le _

end Clock

variable {s s' : Runtime}

/-! ## Steps -/

/-- What a step does to the clock. -/
inductive Turn (k : Clock) : Op → Clock → Prop
  | other {op : Op} (hop : op.loops = false) : Turn k op k
  | run (hctl : k.control = .idle) (hring : k.ringEnabled = false) :
      Turn k .run { k with control := .top, ringEnabled := true }
  | rerun (hctl : k.control = .idle) (hring : k.ringEnabled = true) : Turn k .run { k with control := .reap .top }
  | look (hctl : k.control = .top) (hdue : k.eventInterval ≤ k.tickCount + 1) :
      Turn k .tick { k with control := .reap .pick, tickCount := 0 }
  | count (hctl : k.control = .top) (hdue : k.tickCount + 1 < k.eventInterval) :
      Turn k .tick { k with control := .pick, tickCount := k.tickCount + 1 }
  | item (hctl : k.control = .pick) : Turn k .pick { k with control := .work }
  | leave (hctl : k.control = .pick) : Turn k .pick { k with control := .idle, tickCount := 0 }
  | wait (hctl : k.control = .pick) : Turn k .pick { k with control := .wait }
  | woken (hctl : k.control = .wait) : Turn k .waitReturn { k with control := .reap .top }
  | reap {c : Control} (hin : k.control ≠ .idle) (hc : c ≠ .idle) : Turn k .reap { k with control := c }
  | ret (hctl : k.control = .work) : Turn k .ret { k with control := .top }
  | handled {next : After} {finish : Bool} (hctl : k.control = .handler next finish) :
      Turn k .ret { k with control := .reap next }

theorem pick_turn (hctl : s.control = .pick) : Turn s.clock .pick s.pick.clock := by
  unfold pick
  split
  · rename_i w ws _
    have hinvoke : (({ s with localQueue := ws } : Runtime).invoke w).clock = s.clock := (invoke_kept _ w).clock
    have hitem : Turn s.clock .pick { s.clock with control := .work } := .item hctl
    rw [← hinvoke] at hitem ⊢
    exact hitem
  · split
    · exact .leave hctl
    · exact .wait hctl

theorem reap_turn (hs : step s .reap = some s') : Turn s.clock .reap s'.clock := by
  obtain ⟨next, hctl, ⟨-, rfl⟩ | ⟨c, cs, -, hs⟩⟩ := reap_cases hs
  · have hin : s.clock.control ≠ .idle := by simp [clock, hctl]
    exact .reap hin (by cases next <;> simp [After.control])
  · obtain ⟨⟨k, hk, hclock⟩, -, -⟩ := processCqe_cases hs
    rw [hclock]
    exact .reap (by simp [clock, hctl]) hk

theorem ret_turn (hs : step s .ret = some s') : Turn s.clock .ret s'.clock := by
  simp only [step] at hs
  split at hs
  · rename_i hctl
    rw [← Option.some.inj hs]
    exact .ret hctl
  · rename_i next finish hctl
    have hresume : (if finish then s.resumeWork else s).clock = s.clock := by
      cases finish with
      | false => rfl
      | true => exact (resumeWork_kept s).clock
    have hk : s'.clock = { s.clock with control := .reap next } := by
      rw [← Option.some.inj hs, ← hresume]
      rfl
    rw [hk]
    exact .handled hctl
  · cases hs

theorem step_turn {op : Op} (hs : step s op = some s') : Turn s.clock op s'.clock := by
  cases hop : op.loops with
  | false =>
    have hclock : s'.clock = s.clock := by
      cases hst : op.starts with
      | false => exact (step_kept hop hst hs).clock
      | true =>
        cases op with
        | start => exact (start_cases (Option.ite_none_right_eq_some.mp hs).2).1
        | _ => cases hst
    rw [hclock]
    exact .other hop
  | true =>
    cases op with
    | run =>
      obtain ⟨hctl, hs⟩ := Option.ite_none_left_eq_some.mp hs
      split at hs
      · rename_i hring
        rw [← Option.some.inj hs]
        exact .rerun (not_not.mp hctl) hring
      · rename_i hring
        rw [← Option.some.inj hs]
        exact .run (not_not.mp hctl) (Bool.eq_false_iff.mpr hring)
    | tick =>
      obtain ⟨hctl, hs⟩ := Option.ite_none_right_eq_some.mp hs
      rw [← Option.some.inj hs]
      unfold tick
      split
      · exact .look hctl ‹_›
      · exact .count hctl (Nat.lt_of_not_le ‹_›)
    | pick =>
      obtain ⟨hctl, hs⟩ := Option.ite_none_right_eq_some.mp hs
      rw [← Option.some.inj hs]
      exact pick_turn hctl
    | waitReturn =>
      obtain ⟨⟨hctl, -⟩, hs⟩ := Option.ite_none_right_eq_some.mp hs
      rw [← Option.some.inj hs]
      exact .woken hctl
    | reap => exact reap_turn hs
    | ret => exact ret_turn hs
    | _ => cases hop

/-! ## Runs -/

variable {k k' : Clock} {op : Op}

theorem Turn.interval_eq (h : Turn k op k') : k'.interval = k.interval := by
  cases h <;> rfl

theorem Turn.ok (h : Turn k op k') (hk : k.Ok) : k'.Ok := by
  have hpos : 0 < k.interval := Nat.lt_of_lt_of_le Nat.one_pos (Nat.le_max_left ..)
  cases h with
  | other hop => exact hk
  | run hctl hring => exact ⟨hk.count, fun _ => rfl⟩
  | rerun hctl hring => exact ⟨hk.count, fun _ => hring⟩
  | look hctl hdue => exact ⟨hpos, fun _ => hk.enabled (by simp [hctl])⟩
  | count hctl hdue =>
    exact ⟨Nat.lt_of_lt_of_le hdue (Nat.le_max_right ..), fun _ => hk.enabled (by simp [hctl])⟩
  | leave hctl => exact ⟨hpos, fun _ => hk.enabled (by simp [hctl])⟩
  | item hctl | wait hctl | woken hctl | ret hctl | handled hctl =>
    exact ⟨hk.count, fun _ => hk.enabled (by simp [hctl])⟩
  | reap hin hc => exact ⟨hk.count, fun _ => hk.enabled hin⟩

theorem Op.eq_false_of_loops {op op' : Op} (hop : op.loops = false) (hop' : op'.loops = true) : (op == op') = false := by
  refine beq_false_of_ne fun he => ?_
  rw [he, hop'] at hop
  cases hop

/-- A turn of the loop is paid for. -/
theorem Turn.turns (h : Turn k op k') (hk : k.Ok) (hop : op ≠ .reap) :
    k'.turnsLeft + (if op == .tick then 1 else 0) ≤ k.turnsLeft := by
  have hcount := hk.count
  cases h with
  | other hloops => rw [Op.eq_false_of_loops hloops rfl, if_neg Bool.false_ne_true, Nat.add_zero]
  | reap hin hc => exact absurd rfl hop
  | run hctl hring =>
    simp only [Clock.turnsLeft, Clock.interval, hctl, hring, if_neg, Bool.false_eq_true, not_false_eq_true]
    exact Nat.sub_le _ _
  | look hctl hdue =>
    simp only [Clock.turnsLeft, hctl, BEq.rfl, if_true]
    omega
  | count hctl hdue =>
    simp only [Clock.turnsLeft, Clock.interval, hctl, BEq.rfl, if_true] at hcount ⊢
    omega
  | item hctl | ret hctl => simp [Clock.turnsLeft, Clock.interval, hctl]
  | leave hctl =>
    have hring := hk.enabled (by simp [hctl])
    simp [Clock.turnsLeft, hring]
  | rerun hctl hring => simp [Clock.turnsLeft]
  | wait hctl | woken hctl | handled hctl => simp [Clock.turnsLeft]

/-- An item of the local queue is paid for. -/
theorem Turn.items (h : Turn k op k') (hk : k.Ok) (hop : op ≠ .reap) :
    k'.itemsLeft + (if op == .pick then 1 else 0) ≤ k.itemsLeft := by
  have hcount := hk.count
  cases h with
  | other hloops => rw [Op.eq_false_of_loops hloops rfl, if_neg Bool.false_ne_true, Nat.add_zero]
  | reap hin hc => exact absurd rfl hop
  | run hctl hring =>
    simp only [Clock.itemsLeft, Clock.interval, hctl, hring, if_neg, Bool.false_eq_true, not_false_eq_true]
    exact Nat.le_trans (Nat.sub_le _ _) (Nat.sub_le _ _)
  | look hctl hdue => simp [Clock.itemsLeft]
  | count hctl hdue => simp [Clock.itemsLeft, Clock.interval, hctl, Nat.sub_sub]
  | item hctl =>
    simp only [Clock.itemsLeft, Clock.interval, hctl, BEq.rfl, if_true] at hcount ⊢
    omega
  | leave hctl =>
    have hring := hk.enabled (by simp [hctl])
    simp only [Clock.itemsLeft, hring, hctl, BEq.rfl, if_true]
    omega
  | wait hctl =>
    simp only [Clock.itemsLeft, hctl, BEq.rfl, if_true]
    omega
  | ret hctl => simp [Clock.itemsLeft, Clock.interval, hctl]
  | rerun hctl hring => simp [Clock.itemsLeft]
  | woken hctl | handled hctl => simp [Clock.itemsLeft]

/-- **The loop looks at the completion queue often.**  Whatever the program, the other threads and the kernel do, the
loop makes at most `event_interval_` turns, and runs at most as many items of the local queue, without a look at the
completion queue.  An interval of zero acts as one. -/
theorem looks_often {eventInterval entries submitBatch : ℕ} {sqpoll : Bool} {lag : List ℕ} {as bs : List Op}
    (hr : run step (init eventInterval (.new entries sqpoll submitBatch lag)) as = some s)
    (hr' : run step s bs = some s') (hno : .reap ∉ bs) :
    bs.count .tick ≤ max 1 eventInterval ∧ bs.count .pick ≤ max 1 eventInterval := by
  have hstart : (init eventInterval (.new entries sqpoll submitBatch lag)).clock.Ok :=
    ⟨Nat.lt_of_lt_of_le Nat.one_pos (Nat.le_max_left ..), fun h => absurd rfl h⟩
  obtain ⟨hok, heq⟩ : s.clock.Ok ∧ s.clock.interval = max 1 eventInterval := by
    refine run_inv (I := fun s => s.clock.Ok ∧ s.clock.interval = max 1 eventInterval) ?_ as ⟨hstart, rfl⟩ hr
    rintro s a t ⟨hok, heq⟩ hs
    exact ⟨(step_turn hs).ok hok, (step_turn hs).interval_eq.trans heq⟩
  have hkeep : ∀ s a t, s.clock.Ok → step s a = some t → t.clock.Ok := fun _ _ _ h hs => (step_turn hs).ok h
  have hG : ∀ a ∈ bs, a ≠ .reap := fun a ha he => hno (he ▸ ha)
  have hturns := run_budget hkeep (fun _ _ _ h hg hs => (step_turn hs).turns h hg) bs hok hG hr'
  have hitems := run_budget hkeep (fun _ _ _ h hg hs => (step_turn hs).items h hg) bs hok hG hr'
  rw [← heq]
  exact ⟨(Nat.le_add_left ..).trans (hturns.trans s.clock.turnsLeft_le),
    (Nat.le_add_left ..).trans (hitems.trans s.clock.itemsLeft_le)⟩

/-- An interval of two and two items: both turns are used up without a look. -/
theorem looks_often_two : ∃ s s', run step (init 2 (.new 8 false 32 [])) [.remoteSchedule 8, .remoteSchedule 16, .run] =
    some s ∧ run step s [.tick, .pick, .ret, .tick] = some s' ∧ s'.control = .reap .pick ∧
    [Op.tick, .pick, .ret, .tick].count .tick ≤ max 1 2 ∧ [Op.tick, .pick, .ret, .tick].count .pick ≤ max 1 2 := by
  have hrun : ((run step (init 2 (.new 8 false 32 [])) [.remoteSchedule 8, .remoteSchedule 16, .run]).bind fun s =>
      (run step s [.tick, .pick, .ret, .tick]).map (·.control)) = some (.reap .pick) := by
    decide +kernel
  obtain ⟨s, hs, hrun⟩ := Option.bind_eq_some_iff.mp hrun
  obtain ⟨s', hs', hctl⟩ := Option.map_eq_some_iff.mp hrun
  exact ⟨s, s', hs, hs', hctl, looks_often hs hs' (by decide)⟩

end Runtime

end Condy
