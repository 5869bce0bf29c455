import Condy.Lib.Run
import Condy.Lib.Tickets
import Mathlib.Data.Fintype.Card
import Mathlib.Data.List.FinRange
import Mathlib.Logic.Function.Basic

/-!
# Condy.Sender.Parallel — `ParallelOperationState` and `RangedParallelOperationState`

The operation state of `n` child senders counts the completions of its children and calls its receiver at the last
one.  `receive_` runs the canceller before it takes its number.  `WhenAnyCanceller` requests a stop there, and the stop
callbacks of the other children run before `request_stop` returns; a child that completes in its callback enters
`receive_` a second time while the first call is still inside its canceller.  `System.frames` holds the calls that are
inside the canceller, the innermost first, and a schedule is any list of `Op`.

Both forms are there with their own `receive_`.  Child `i` has the result type `R i`; in the ranged form all of these
are the same.
-/

namespace Condy.Sender

open Lib

inductive Form where
  | variadic
  | ranged
  deriving DecidableEq, Repr

inductive Canceller where
  | whenAny
  | whenAll
  deriving DecidableEq, Repr

/-- The members of both classes.  A position of `order` and a result that were not written yet are `none`. -/
structure OpState (n : ℕ) (R : Fin n → Type) where
  order : ℕ → Option (Fin n)
  results : (i : Fin n) → Option (R i)
  completedCount : ℕ
  /-- The stop source of a `WhenAnyCanceller` has a stop request. -/
  stopRequested : Bool
  /-- `canceller_.reset()` was called. -/
  cancellerReset : Bool
  /-- What the receiver was called with, once for each call. -/
  received : List ((ℕ → Option (Fin n)) × ((i : Fin n) → Option (R i)))

/-- A call of `receive_` that is inside the canceller; `fires`: its `request_stop` runs the stop callbacks. -/
structure Frame {n : ℕ} (R : Fin n → Type) where
  child : Fin n
  result : R child
  fires : Bool

variable {n : ℕ} {R : Fin n → Type}

namespace OpState

/-- `std::move(receiver_)(std::make_pair(std::move(order_), std::move(results_)))`. -/
def callReceiver (s : OpState n R) : OpState n R := { s with received := s.received ++ [(s.order, s.results)] }

/-- `canceller_(result)`, up to the callbacks: whether it runs them. -/
def canceller (s : OpState n R) : Canceller → Bool × OpState n R
  | .whenAny => (!s.stopRequested, { s with stopRequested := true })
  | .whenAll => (false, s)

/-- `canceller_.cancel_()`, the stop callback on the token of the receiver; it is gone after a reset. -/
def cancel (s : OpState n R) : Canceller → OpState n R
  | .whenAny => if s.cancellerReset then s else { s with stopRequested := true }
  | .whenAll => s

/-- `ParallelOperationState::receive_` behind the canceller. -/
def receiveVariadic (s : OpState n R) (i : Fin n) (result : R i) : OpState n R :=
  let no := s.completedCount
  let s := { s with
    completedCount := no + 1
    order := Function.update s.order no (some i)
    results := Function.update s.results i (some result) }
  if no + 1 = n then ({ s with cancellerReset := true } : OpState n R).callReceiver else s

/-- `RangedParallelOperationState::receive_` behind the canceller. -/
def receiveRanged (s : OpState n R) (i : Fin n) (result : R i) : OpState n R :=
  let no := s.completedCount
  let s := { s with
    completedCount := no + 1
    order := Function.update s.order no (some i)
    results := Function.update s.results i (some result) }
  if no + 1 = n then s.callReceiver else s

def receive (s : OpState n R) : Form → (i : Fin n) → R i → OpState n R
  | .variadic => s.receiveVariadic
  | .ranged => s.receiveRanged

end OpState

/-- The operation state and what its environment has done. -/
structure System (n : ℕ) (R : Fin n → Type) where
  op : OpState n R
  /-- `start` was called. -/
  entered : Bool
  /-- Number of children that `start` has started. -/
  started : ℕ
  /-- The children that completed, in order, with their results. -/
  completions : List ((i : Fin n) × R i)
  frames : List (Frame R)

inductive Op {n : ℕ} (R : Fin n → Type) where
  /-- `start` is called. -/
  | start
  /-- The loop of `start` starts the next child. -/
  | startChild
  /-- Child `i` calls its receiver, which enters `receive_` and the canceller. -/
  | complete (i : Fin n) (result : R i)
  /-- The canceller returns and the innermost `receive_` goes on. -/
  | proceed
  /-- A stop is requested on the token of the receiver. -/
  | cancel

namespace System

def init : System n R where
  op := { order := fun _ => none, results := fun _ => none, completedCount := 0, stopRequested := false,
          cancellerReset := false, received := [] }
  entered := false
  started := 0
  completions := []
  frames := []

/-- A child completes at most once, not before its `start`, and either from the event loop or from the `start` of a
child (no call is inside the canceller) or in a stop callback that the innermost canceller runs.  The loop of `start`
goes on when the calls inside the last `start` have returned. -/
def step (form : Form) (c : Canceller) (s : System n R) : Op R → Option (System n R)
  | .start =>
    if s.entered then none
    else some { s with entered := true, op := if n = 0 then s.op.callReceiver else s.op }
  | .startChild =>
    if s.entered ∧ s.started < n ∧ s.frames.isEmpty then some { s with started := s.started + 1 } else none
  | .complete i result =>
    if i.val < s.started ∧ i ∉ s.completions.map Sigma.fst ∧ (s.frames.head?.map Frame.fires).getD true then
      some { s with
        op := (s.op.canceller c).2
        completions := s.completions ++ [⟨i, result⟩]
        frames := ⟨i, result, (s.op.canceller c).1⟩ :: s.frames }
    else none
  | .proceed =>
    match s.frames with
    | [] => none
    | f :: rest => some { s with op := s.op.receive form f.child f.result, frames := rest }
  | .cancel => some { s with op := s.op.cancel c }

end System

/-! ## One step -/

/-- Writing the position behind the last one appends. -/
theorem update_getElem? {α : Type*} {f : ℕ → Option α} {l : List α} (h : ∀ k, f k = l[k]?) (x : α) (k : ℕ) :
    Function.update f l.length (some x) k = (l ++ [x])[k]? := by
  by_cases hk : k = l.length
  · subst hk
    simp
  · rw [Function.update_of_ne hk, h, List.getElem?_append]
    split_ifs with hlt
    · rfl
    · rw [List.getElem?_eq_none (by omega), List.getElem?_eq_none (by simp; omega)]

/-- What the two versions of `receive_` do alike. -/
theorem OpState.receive_spec (s : OpState n R) (form : Form) (i : Fin n) (result : R i) :
    (s.receive form i result).completedCount = s.completedCount + 1 ∧
    (s.receive form i result).order = Function.update s.order s.completedCount (some i) ∧
    (s.receive form i result).results = Function.update s.results i (some result) ∧
    (s.receive form i result).received = s.received ++
      if s.completedCount + 1 = n then [((s.receive form i result).order, (s.receive form i result).results)] else [] := by
  by_cases hn : s.completedCount + 1 = n
  · cases form <;> simp [receive, receiveVariadic, receiveRanged, callReceiver, hn]
  · cases form <;> simp [receive, receiveVariadic, receiveRanged, hn]

theorem OpState.canceller_spec (s : OpState n R) (c : Canceller) :
    ∃ b, (s.canceller c).2 = { s with stopRequested := b } := by
  cases c with
  | whenAny => exact ⟨true, rfl⟩
  | whenAll => exact ⟨s.stopRequested, rfl⟩

theorem OpState.cancel_spec (s : OpState n R) (c : Canceller) : ∃ b, s.cancel c = { s with stopRequested := b } := by
  cases c with
  | whenAny =>
    by_cases hr : s.cancellerReset = true
    · exact ⟨s.stopRequested, if_pos hr⟩
    · exact ⟨true, if_neg hr⟩
  | whenAll => exact ⟨s.stopRequested, rfl⟩

namespace System

/-- The children of `done` have taken their numbers, in this order; those of the frames have not yet. -/
structure Inv (s : System n R) (done : List (Fin n)) : Prop where
  count : s.op.completedCount = done.length
  order : ∀ k, s.op.order k = done[k]?
  places : (done ++ s.frames.map Frame.child).Perm (s.completions.map Sigma.fst)
  nodup : (s.completions.map Sigma.fst).Nodup
  started : ∀ p ∈ s.completions, p.1.val < s.started
  entered : s.entered = false → s.started = 0
  frames : ∀ f ∈ s.frames, ⟨f.child, f.result⟩ ∈ s.completions
  results : ∀ p ∈ s.completions, p.1 ∈ done → s.op.results p.1 = some p.2
  received : s.op.received = if s.entered ∧ done.length = n then [(s.op.order, s.op.results)] else []

variable {form : Form} {c : Canceller} {s s' : System n R} {done : List (Fin n)}

theorem init_inv : (init : System n R).Inv [] where
  count := rfl
  order := fun _ => rfl
  places := List.Perm.refl _
  nodup := List.nodup_nil
  started := fun _ hp => absurd hp List.not_mem_nil
  entered := fun _ => rfl
  frames := fun _ hf => absurd hf List.not_mem_nil
  results := fun _ hp => absurd hp List.not_mem_nil
  received := by simp [init]

namespace Inv

variable (h : s.Inv done)
include h

theorem placed_nodup : (done ++ s.frames.map Frame.child).Nodup := h.places.nodup_iff.mpr h.nodup

/-- There are no more numbers than children. -/
theorem placed_le : done.length + s.frames.length ≤ n := by
  have hle := h.placed_nodup.length_le_card
  simpa using hle

/-- The completion of a child is in the list once. -/
theorem completion_unique {p q : (i : Fin n) × R i} (hp : p ∈ s.completions) (hq : q ∈ s.completions)
    (he : p.1 = q.1) : p = q :=
  List.inj_on_of_nodup_map h.nodup hp hq he

theorem start (hs : step form c s .start = some s') : s'.Inv done := by
  obtain ⟨he, hs⟩ := Option.ite_none_left_eq_some.mp hs
  obtain rfl := Option.some.inj hs
  have hstart := h.entered (by simpa using he)
  have hnil : s.completions = [] := by
    refine List.eq_nil_iff_forall_not_mem.mpr (fun p hp => ?_)
    have := h.started p hp
    omega
  have hdone : done.length = 0 := by
    have := h.places.length_eq
    simp only [hnil, List.length_append, List.map_nil, List.length_nil] at this
    omega
  have hrec : s.op.received = [] := by
    rw [h.received, if_neg]
    exact fun hand => he hand.1
  by_cases hn : n = 0
  · refine ⟨?_, ?_, h.places, h.nodup, h.started, nofun, h.frames, ?_, ?_⟩
    · simpa [hn, OpState.callReceiver] using h.count
    · simpa [hn, OpState.callReceiver] using h.order
    · simpa [hn, OpState.callReceiver] using h.results
    · simp [hn, OpState.callReceiver, hrec, hdone]
  · refine ⟨?_, ?_, h.places, h.nodup, h.started, nofun, h.frames, ?_, ?_⟩
    · simpa [hn] using h.count
    · simpa [hn] using h.order
    · simpa [hn] using h.results
    · have hne : ¬ 0 = n := fun hz => hn hz.symm
      simp [hn, hrec, hdone, hne]

theorem startChild (hs : step form c s .startChild = some s') : s'.Inv done := by
  obtain ⟨⟨he, -, -⟩, hs⟩ := Option.ite_none_right_eq_some.mp hs
  obtain rfl := Option.some.inj hs
  refine ⟨h.count, h.order, h.places, h.nodup, fun p hp => ?_, fun hne => ?_, h.frames, h.results, h.received⟩
  · exact Nat.lt_succ_of_lt (h.started p hp)
  · simp [he] at hne

theorem complete {i : Fin n} {r : R i} (hs : step form c s (.complete i r) = some s') : s'.Inv done := by
  obtain ⟨⟨hi, hnew, -⟩, hs⟩ := Option.ite_none_right_eq_some.mp hs
  obtain rfl := Option.some.inj hs
  obtain ⟨b, hop⟩ := s.op.canceller_spec c
  have hnot : i ∉ done := fun hmem => hnew (h.places.subset (List.mem_append_left _ hmem))
  simp only [hop]
  refine ⟨h.count, h.order, ?_, ?_, ?_, h.entered, ?_, ?_, h.received⟩
  · rw [List.map_cons, List.map_append, List.map_singleton]
    exact List.perm_middle.trans ((h.places.cons i).trans (List.perm_append_singleton _ _).symm)
  · rw [List.map_append, List.map_singleton]
    exact nodup_snoc h.nodup hnew
  · intro p hp
    rcases List.mem_append.mp hp with hp | hp
    · exact h.started p hp
    · rw [List.mem_singleton.mp hp]
      exact hi
  · intro f hf
    rcases List.mem_cons.mp hf with rfl | hf
    · exact List.mem_append_right _ List.mem_cons_self
    · exact List.mem_append_left _ (h.frames f hf)
  · intro p hp hd
    rcases List.mem_append.mp hp with hp | hp
    · exact h.results p hp hd
    · rw [List.mem_singleton.mp hp] at hd
      exact absurd hd hnot

theorem proceed (hs : step form c s .proceed = some s') : ∃ i, s'.Inv (done ++ [i]) := by
  simp only [step] at hs
  split at hs
  · exact absurd hs (by simp)
  · next f rest hf =>
    obtain rfl := Option.some.inj hs
    obtain ⟨hcount, horder, hresults, hreceived⟩ := s.op.receive_spec form f.child f.result
    have hle := h.placed_le
    have hnd := h.placed_nodup
    rw [hf] at hle hnd
    rw [List.length_cons] at hle
    have hnot : f.child ∉ done := by
      intro hmem
      exact (List.nodup_append.mp hnd).2.2 f.child hmem f.child (by simp) rfl
    have hent : s.entered = true := by
      by_contra hne
      have hst := h.entered (by simpa using hne)
      have hlt := h.started _ (h.frames f (by simp [hf]))
      omega
    refine ⟨f.child, ?_, ?_, ?_, h.nodup, h.started, h.entered, ?_, ?_, ?_⟩
    · rw [hcount, h.count, List.length_append, List.length_singleton]
    · intro k
      rw [horder, h.count]
      exact update_getElem? h.order f.child k
    · have hp := h.places
      rw [hf, List.map_cons] at hp
      simpa using hp
    · exact fun g hg => h.frames g (by simp [hf, hg])
    · intro p hp hd
      rw [hresults]
      by_cases hpe : p.1 = f.child
      · obtain rfl := h.completion_unique hp (h.frames f (by simp [hf])) hpe
        exact Function.update_self _ _ _
      · rw [Function.update_of_ne hpe]
        refine h.results p hp ?_
        simpa [hpe] using hd
    · have hrec : s.op.received = [] := by
        rw [h.received, if_neg]
        rintro ⟨-, hn⟩
        omega
      rw [hreceived, hrec, h.count, List.length_append, List.length_singleton, List.nil_append]
      simp only [hent, true_and]

theorem cancel (hs : step form c s .cancel = some s') : s'.Inv done := by
  obtain rfl := Option.some.inj hs
  obtain ⟨b, hop⟩ := s.op.cancel_spec c
  simp only [hop]
  exact ⟨h.count, h.order, h.places, h.nodup, h.started, h.entered, h.frames, h.results, h.received⟩

/-- **Step lemma.** -/
theorem step {op : Op R} (hs : System.step form c s op = some s') : ∃ done', s'.Inv done' := by
  cases op with
  | start => exact ⟨done, h.start hs⟩
  | startChild => exact ⟨done, h.startChild hs⟩
  | complete i r => exact ⟨done, h.complete hs⟩
  | proceed =>
    obtain ⟨i, hi⟩ := h.proceed hs
    exact ⟨_, hi⟩
  | cancel => exact ⟨done, h.cancel hs⟩

end Inv

/-! ## Runs -/

theorem run_system_inv {ops : List (Op R)} (hrun : run (step form c) init ops = some s) : ∃ done, s.Inv done :=
  run_inv (I := fun s : System n R => ∃ done, s.Inv done) (fun _ _ _ ⟨_, h⟩ hs => h.step hs) ops ⟨[], init_inv⟩ hrun

/-- A step adds the completion that it is. -/
theorem step_completions {op : Op R} (hs : step form c s op = some s') :
    s'.completions = s.completions ++ (match op with | .complete i r => [⟨i, r⟩] | _ => []) := by
  cases op with
  | start =>
    obtain ⟨-, hs⟩ := Option.ite_none_left_eq_some.mp hs
    obtain rfl := Option.some.inj hs
    exact (List.append_nil _).symm
  | startChild | complete =>
    obtain ⟨-, hs⟩ := Option.ite_none_right_eq_some.mp hs
    obtain rfl := Option.some.inj hs
    simp
  | proceed =>
    simp only [step] at hs
    split at hs
    · exact absurd hs (by simp)
    · obtain rfl := Option.some.inj hs
      exact (List.append_nil _).symm
  | cancel =>
    obtain rfl := Option.some.inj hs
    exact (List.append_nil _).symm

/-- The completions are those of the schedule. -/
theorem mem_completions {ops : List (Op R)} (hrun : run (step form c) init ops = some s) (i : Fin n) (r : R i) :
    ⟨i, r⟩ ∈ s.completions ↔ Op.complete i r ∈ ops := by
  constructor
  · intro hmem
    have horigin := run_origin (I := fun _ => True) (K := fun s : System n R => ⟨i, r⟩ ∈ s.completions)
      (A := fun op => op = Op.complete i r) (fun _ _ _ _ _ => trivial) ?_ ops trivial hrun hmem
    · rcases horigin with hmem | ⟨op, hop, rfl⟩
      · exact absurd hmem List.not_mem_nil
      · exact hop
    · intro s op s' _ hs hmem
      rw [step_completions hs] at hmem
      rcases List.mem_append.mp hmem with hmem | hmem
      · exact .inl hmem
      · right
        cases op with
        | complete j q =>
          obtain ⟨rfl, hq⟩ : i = j ∧ HEq r q := by simpa using hmem
          rw [eq_of_heq hq]
        | _ => simp at hmem
  · intro hop
    refine run_mark (I := fun _ => True) (G := fun _ _ => True) (J := fun s : System n R => ⟨i, r⟩ ∈ s.completions)
      (fun _ _ _ _ _ => trivial) ?_ ?_ ops hop trivial (along_of_forall _ _ fun _ _ _ => trivial) hrun
    · intro s s' _ hs
      rw [step_completions hs]
      simp
    · intro s op s' _ hmem _ hs
      rw [step_completions hs]
      exact List.mem_append_left _ hmem

/-- `t` is the ranged form after the steps that led the variadic form to `s`. -/
structure Same (s t : System n R) : Prop where
  inv : ∃ done, s.Inv done
  reset : s.op.cancellerReset = true → s.op.completedCount = n
  eq : ∃ b, t = { s with op := { s.op with cancellerReset := false, stopRequested := b } } ∧
    (s.op.cancellerReset = false → b = s.op.stopRequested)

/-- The forms differ only in what a stop request does after the last completion, when no child is left. -/
theorem same_step {t : System n R} (op : Op R) (h : Same s t) :
    Option.Rel Same (step .variadic c s op) (step .ranged c t op) := by
  obtain ⟨⟨done, hI⟩, hreset, b, rfl, hb⟩ := h
  -- as long as a number is left the canceller was not reset, and the two states are the same
  have heq : done.length < n → s.op.cancellerReset = false ∧
      ({ s with op := { s.op with cancellerReset := false, stopRequested := b } } : System n R) = s := by
    intro hlt
    have hr : s.op.cancellerReset = false := by
      by_contra hne
      have hc := hreset (by simpa using hne)
      rw [hI.count] at hc
      omega
    exact ⟨hr, by rw [hb hr, ← hr]⟩
  cases op with
  | start =>
    by_cases he : s.entered = true
    · simp only [step, he, if_true]
      exact .none
    · have hs : step .variadic c s .start = some _ := if_neg he
      have ht : step .ranged c { s with op := { s.op with cancellerReset := false, stopRequested := b } } .start =
        some _ := if_neg he
      rw [hs, ht]
      refine .some ⟨hI.step hs, ?_, b, ?_, ?_⟩
      all_goals split_ifs
      · exact hreset
      · exact hreset
      · rfl
      · rfl
      · exact hb
      · exact hb
  | startChild =>
    by_cases hg : s.entered ∧ s.started < n ∧ s.frames.isEmpty
    · have hs : step .variadic c s .startChild = some _ := if_pos hg
      have ht : step .ranged c { s with op := { s.op with cancellerReset := false, stopRequested := b } } .startChild =
        some _ := if_pos hg
      rw [hs, ht]
      exact .some ⟨hI.step hs, hreset, b, rfl, hb⟩
    · simp only [step, hg, if_false]
      exact .none
  | complete i r =>
    by_cases hg : i.val < s.started ∧ i ∉ s.completions.map Sigma.fst ∧ (s.frames.head?.map Frame.fires).getD true
    · have hs : step .variadic c s (.complete i r) = some _ := if_pos hg
      have hs' : step .ranged c s (.complete i r) = some _ := if_pos hg
      have hle := (hI.complete hs).placed_le
      rw [List.length_cons] at hle
      obtain ⟨hr, he⟩ := heq (by omega)
      rw [he, hs, hs']
      obtain ⟨b', hop⟩ := s.op.canceller_spec c
      refine .some ⟨hI.step hs, ?_, b', ?_, fun _ => ?_⟩
      · simp [hop, hr]
      · simp [hop, hr]
      · simp [hop]
    · simp only [step, hg, if_false]
      exact .none
  | proceed =>
    by_cases hnil : s.frames = []
    · simp only [step, hnil]
      exact .none
    · obtain ⟨f, rest, hf⟩ := List.exists_cons_of_ne_nil hnil
      have hle := hI.placed_le
      rw [hf, List.length_cons] at hle
      obtain ⟨hr, he⟩ := heq (by omega)
      have hs : step .variadic c s .proceed =
          some { s with op := s.op.receive .variadic f.child f.result, frames := rest } := by simp only [step, hf]
      have hs' : step .ranged c s .proceed =
          some { s with op := s.op.receive .ranged f.child f.result, frames := rest } := by simp only [step, hf]
      rw [he, hs, hs']
      by_cases hn : s.op.completedCount + 1 = n
      · refine .some ⟨hI.step hs, ?_, s.op.stopRequested, ?_, ?_⟩
        all_goals simp [OpState.receive, OpState.receiveVariadic, OpState.receiveRanged, OpState.callReceiver, hn, hr]
      · refine .some ⟨hI.step hs, ?_, s.op.stopRequested, ?_, ?_⟩
        all_goals simp [OpState.receive, OpState.receiveVariadic, OpState.receiveRanged, hn, hr]
  | cancel =>
    have hs : step .variadic c s .cancel = some _ := rfl
    rw [hs]
    cases c with
    | whenAll => exact .some ⟨hI.step hs, hreset, b, rfl, hb⟩
    | whenAny =>
      by_cases hr : s.op.cancellerReset = true
      · refine .some ⟨hI.step hs, ?_, true, ?_, ?_⟩
        all_goals simp [OpState.cancel, hr, hreset hr]
      · refine .some ⟨hI.step hs, ?_, true, ?_, ?_⟩
        all_goals simp [OpState.cancel, hr]

theorem Inv.length_received_le (h : s.Inv done) : s.op.received.length ≤ 1 := by
  rw [h.received]
  split_ifs <;> simp

/-- The receiver gets the order in which the children took their numbers, and the result of each child. -/
theorem received_results {ops : List (Op R)} (hrun : run (step form c) init ops = some s)
    {order : ℕ → Option (Fin n)} {results : (i : Fin n) → Option (R i)} (hmem : (order, results) ∈ s.op.received) :
    (∃ l : List (Fin n), l.Perm (List.finRange n) ∧ ∀ k, order k = l[k]?) ∧
      (∀ i, ∃ r, Op.complete i r ∈ ops) ∧ ∀ i r, Op.complete i r ∈ ops → results i = some r := by
  obtain ⟨done, hI⟩ := run_system_inv hrun
  have hnd : done.Nodup := (List.nodup_append.mp hI.placed_nodup).1
  rw [hI.received] at hmem
  split_ifs at hmem with hd
  · obtain ⟨rfl, rfl⟩ : order = s.op.order ∧ results = s.op.results := by simpa using hmem
    have hperm : done.Perm (List.finRange n) :=
      (List.subperm_of_subset hnd (fun i _ => List.mem_finRange i)).perm_of_length_le (by simp [hd.2])
    have hall : ∀ i, i ∈ done := fun i => hperm.symm.subset (List.mem_finRange i)
    refine ⟨⟨done, hperm, hI.order⟩, fun i => ?_, fun i r hop => ?_⟩
    · obtain ⟨p, hp, rfl⟩ := List.mem_map.mp (hI.places.subset (List.mem_append_left _ (hall i)))
      exact ⟨p.2, (mem_completions hrun p.1 p.2).mp hp⟩
    · exact hI.results ⟨i, r⟩ ((mem_completions hrun i r).mpr hop) (hall i)
  · exact absurd hmem List.not_mem_nil

/-- When all children have completed and no call is inside the canceller, the receiver was called. -/
theorem received_of_complete {ops : List (Op R)} (hrun : run (step form c) init ops = some s)
    (hent : s.entered = true) (hfr : s.frames = []) (hall : ∀ i, ∃ r, Op.complete i r ∈ ops) :
    s.op.received.length = 1 := by
  obtain ⟨done, hI⟩ := run_system_inv hrun
  have hsub : List.finRange n ⊆ done := by
    intro i _
    obtain ⟨r, hop⟩ := hall i
    have hmem := hI.places.symm.subset (List.mem_map_of_mem ((mem_completions hrun i r).mpr hop))
    simpa [hfr] using hmem
  have hge := (List.subperm_of_subset (List.nodup_finRange n) hsub).length_le
  rw [List.length_finRange] at hge
  have hle := hI.placed_le
  rw [hI.received, if_pos ⟨hent, by omega⟩]
  rfl

/-- **The receiver of a parallel operation is called once, when all children have completed**, for every number of
children, both forms, both cancellers and every schedule `ops`.  `l` is the order in which the children took their
numbers; `order_` and `results_` are what the receiver gets.  The last part says that one schedule can be followed in
both forms or in none, with the same calls of the receiver. -/
theorem receives_once {ops : List (Op R)} (hrun : run (step form c) init ops = some s) :
    s.op.received.length ≤ 1 ∧
    (∀ order results, (order, results) ∈ s.op.received →
      (∃ l : List (Fin n), l.Perm (List.finRange n) ∧ ∀ k, order k = l[k]?) ∧
      (∀ i, ∃ r, Op.complete i r ∈ ops) ∧ ∀ i r, Op.complete i r ∈ ops → results i = some r) ∧
    (s.entered = true → s.frames = [] → (∀ i, ∃ r, Op.complete i r ∈ ops) → s.op.received.length = 1) ∧
    (run (step .variadic c) (init : System n R) ops).map (fun s => s.op.received) =
      (run (step .ranged c) (init : System n R) ops).map (fun s => s.op.received) := by
  obtain ⟨done, hI⟩ := run_system_inv hrun
  refine ⟨hI.length_received_le, fun _ _ => received_results hrun, received_of_complete hrun, ?_⟩
  refine run_lockstep_map (S := Same) (fun _ _ op h => same_step op h) ?_ ops
    ⟨⟨[], init_inv⟩, nofun, false, rfl, fun _ => rfl⟩
  rintro s t ⟨-, -, b, rfl, -⟩
  rfl

/-- Three children of a `when_any`: child 2 completes in a stop callback that the completion of child 1 runs, so it
takes its number first. -/
theorem receives_once_nested : ∃ s : System 3 (fun _ => ℕ),
    run (step .ranged .whenAny) init [.start, .startChild, .startChild, .startChild, .complete 1 11, .complete 2 12,
      .proceed, .proceed, .complete 0 10, .proceed] = some s ∧
    [s.op.order 0, s.op.order 1, s.op.order 2] = [some 2, some 1, some 0] ∧ s.op.received.length = 1 ∧
    ∀ order results, (order, results) ∈ s.op.received → results 2 = some 12 := by
  have hrun : ((run (step .ranged .whenAny) (init : System 3 (fun _ => ℕ)) [.start, .startChild, .startChild,
      .startChild, .complete 1 11, .complete 2 12, .proceed, .proceed, .complete 0 10, .proceed]).map
      (fun s => ([s.op.order 0, s.op.order 1, s.op.order 2], s.op.received.length))) =
      some ([some 2, some 1, some 0], 1) := by decide
  obtain ⟨s, hs, hend⟩ := Option.map_eq_some_iff.mp hrun
  obtain ⟨horder, hlen⟩ := Prod.ext_iff.mp hend
  obtain ⟨-, hres, -⟩ := receives_once hs
  exact ⟨s, hs, horder, hlen, fun order results hmem => (hres order results hmem).2.2 2 12 (by simp)⟩

end System

end Condy.Sender
