import Condy.Futex.Inv

/-!
# Condy.Futex.Once — a waiter is completed once, unless an end of a detached list is cancelled

`notify_all_` walks a private list outside the lock, and `cancel_wait_` looks for its waiter in `wait_awaiters_` by the
waiter's own links.  While a waiter is the first or the last of a private list of two or more, the assertions of
`remove` fail on it, and without them `wait_awaiters_` is corrupted and waiters are completed twice
(`cancel_detached_end`).  In every run without such a cancellation every waiter is completed once (`waiters_once`).
-/

namespace Condy.Futex

open Lib

variable {V : Type} [DecidableEq V]

/-- Two waiters, both detached by `notify_all`, and the first one is cancelled before the loop has reached it: the
assertion on the head fails; without assertions the second waiter is put back into `wait_awaiters_` and the first is
completed twice. -/
theorem cancel_detached_end : ∃ s : Futex ℕ,
    run step (init 0) [.requestWait 1 0, .requestWait 2 0, .notifyAll 0, .cancelWait 1, .cancelWaitDone 1,
      .notifyAllNext 0] = some s ∧
    s.mem.asserts = false ∧ (s.lists none).head = some 2 ∧ (s.waiters 1).scheduled = 2 ∧
    causes s.log 1 = [.cancelled, .notified 0] := by
  have hrun : (run step (init 0) [.requestWait 1 0, .requestWait 2 0, .notifyAll 0, .cancelWait 1,
      .cancelWaitDone 1, .notifyAllNext 0]).map (fun s =>
        (s.mem.asserts, (s.lists none).head, (s.waiters 1).scheduled, causes s.log 1)) =
      some (false, some 2, 2, [.cancelled, .notified 0]) := by decide
  obtain ⟨s, hs, hres⟩ := Option.map_eq_some_iff.mp hrun
  simp only [Prod.mk.injEq] at hres
  exact ⟨s, hs, hres.1, hres.2.1, hres.2.2.1, hres.2.2.2⟩

omit [DecidableEq V] in
theorem mem_requested {l : List (FutexEvent V)} {w : ℕ} {old : V} (h : .enqueued w old ∈ l) : w ∈ requested l :=
  List.mem_filterMap.mpr ⟨_, h, rfl⟩

omit [DecidableEq V] in
/-- Whoever waits was waiting before or has been put into the list since. -/
theorem mem_waitingFrom {w : ℕ} (l : List (FutexEvent V)) : ∀ q, w ∈ waitingFrom q l →
    w ∈ q ∨ ∃ old, .enqueued w old ∈ l := by
  induction l with
  | nil => exact fun q hw => .inl hw
  | cons e l ih =>
    intro q hw
    rw [waitingFrom_cons] at hw
    rcases ih _ hw with hw | ⟨old, hw⟩
    · cases e with
      | enqueued w' old =>
        rcases List.mem_append.mp hw with hw | hw
        · exact .inl hw
        · rw [List.mem_singleton] at hw
          exact .inr ⟨old, by simp [hw]⟩
      | one o =>
        cases o with
        | none => exact .inl hw
        | some w' => exact .inl (List.mem_of_mem_erase hw)
      | all n => exact absurd hw List.not_mem_nil
      | left w' why =>
        cases why with
        | notified res => exact .inl hw
        | cancelled => exact .inl (List.mem_of_mem_erase hw)
      | store v | unequal w' old => exact .inl hw
    · exact .inr ⟨old, List.mem_cons_of_mem e hw⟩

variable {s : Futex V} {xs : Option ℕ → List ℕ}

omit [DecidableEq V] in
/-- A waiter of `wait_awaiters_` was put there after every `notify_all_` so far. -/
theorem Inv.after_all (h : s.Inv xs) {pre post : List (FutexEvent V)} {n : ℕ}
    (hlog : s.log = pre ++ .all n :: post) {w : ℕ} (hw : w ∈ xs none) :
    (∀ old, .enqueued w old ∉ pre) ∧ ∃ old, .enqueued w old ∈ post := by
  have hq := h.queue
  rw [hlog, waitingFrom_append, waitingFrom_cons] at hq
  rw [hq] at hw
  obtain hw | ⟨old, hpost⟩ := mem_waitingFrom post _ hw
  · exact absurd hw List.not_mem_nil
  · refine ⟨fun old' hpre => ?_, old, hpost⟩
    have hnd := h.fresh
    rw [hlog, requested_append, requested_cons] at hnd
    exact (List.nodup_append.mp hnd).2.2 w (mem_requested hpre) w (by simpa using mem_requested hpost) rfl

/-- What holds of a waiter at any time: it is completed once, and only after it has left every list. -/
structure CompletedOnce (s : Futex V) (xs : Option ℕ → List ℕ) (w : ℕ) : Prop where
  atMostOnce : (s.waiters w).scheduled ≤ 1
  setOnce : (s.waiters w).sets = (s.waiters w).scheduled
  whenLeft : (s.waiters w).scheduled = 1 ↔ (∀ k, w ∉ xs k) ∧ w ∉ s.notifying ∧ w ∉ s.cancelling
  oneCause : (causes s.log w).length ≤ 1
  reported : (s.waiters w).scheduled = 1 → ∃ why, causes s.log w = [why] ∧ (s.waiters w).result = why.code

omit [DecidableEq V] in
theorem Inv.completedOnce (h : s.Inv xs) {w : ℕ} (hw : waits s.log w = true) : s.CompletedOnce xs w := by
  cases h.fates w with
  | idle hw' => exact absurd hw (by simp [show waits s.log w = false from hw'])
  | waiting _ hq _ hc ho =>
    have ho' : s.waiters w = WaitHandle.new := ho
    have hc' : causes s.log w = [] := hc
    obtain ⟨k, hk⟩ := hq
    have hnot : ¬ ∀ k, w ∉ xs k := fun hall => hall k hk
    exact ⟨by simp [ho', WaitHandle.new], by simp [ho', WaitHandle.new], by simp [ho', WaitHandle.new, hnot],
      by simp [hc'], by simp [ho', WaitHandle.new]⟩
  | leaving why _ hq hl hc ho =>
    have ho' : s.waiters w = WaitHandle.new := ho
    have hc' : causes s.log w = [why] := hc
    have hnot : ¬ (w ∉ s.notifying ∧ w ∉ s.cancelling) := by
      rintro ⟨h1, h2⟩
      rcases (hl why).mpr rfl with ⟨h3, -⟩ | ⟨h3, -⟩
      · exact h1 h3
      · exact h2 h3
    exact ⟨by simp [ho', WaitHandle.new], by simp [ho', WaitHandle.new],
      ⟨fun h1 => absurd h1 (by simp [ho', WaitHandle.new]), fun h1 => absurd h1.2 hnot⟩, by simp [hc'],
      by simp [ho', WaitHandle.new]⟩
  | settled why _ hq hl hc ho =>
    have ho' : s.waiters w = WaitHandle.done why.code := ho
    have hc' : causes s.log w = [why] := hc
    refine ⟨by simp [ho', WaitHandle.done], by simp [ho', WaitHandle.done],
      ⟨fun _ => ⟨fun k hk => hq ⟨k, hk⟩, fun h1 => ?_, fun h1 => ?_⟩, fun _ => by simp [ho', WaitHandle.done]⟩,
      by simp [hc'], fun _ => ⟨why, hc', by simp [ho', WaitHandle.done]⟩⟩
    · exact hl (.notified 0) (.inl ⟨h1, rfl⟩)
    · exact hl .cancelled (.inr ⟨h1, rfl⟩)

/-- **Completed once**, in every run in which no cancellation names an end of a detached list of two or more: the
assertions hold, every waiter is in at most one list (`Rep`), the private list of a `notify_all_` that has ended is empty,
no detached waiter is in `wait_awaiters_`, and every waiter is completed once, for one reason. -/
theorem waiters_once (v : V) {ops : List (Op V)} {s : Futex V} (hsafe : Along step SafeCancel (init v) ops)
    (hrun : run step (init v) ops = some s) :
    s.mem.asserts = true ∧ ∃ xs : Option ℕ → List ℕ, Rep s.mem s.lists xs ∧
      (∀ n, s.results n = none → xs (some n) = []) ∧
      (∀ pre n post, s.log = pre ++ .all n :: post → ∀ w old, .enqueued w old ∈ pre → w ∉ xs none) ∧
      ∀ w, waits s.log w = true → s.CompletedOnce xs w := by
  obtain ⟨xs, h⟩ := run_inv_along (I := fun s : Futex V => ∃ xs, s.Inv xs)
    (fun _ _ _ hI hG hs => step_inv hI hG hs) ops ⟨_, inv_init v⟩ hsafe hrun
  refine ⟨h.asserts, xs, h.rep, h.idle, fun pre n post hlog w old hpre hw => ?_, fun w hw => h.completedOnce hw⟩
  exact (h.after_all hlog hw).1 old hpre

/-- Three detached waiters: the inner one is cancelled, the others are notified. -/
theorem waiters_once_inner : ∃ s : Futex ℕ,
    run step (init 0) [.requestWait 1 0, .requestWait 2 0, .requestWait 3 0, .notifyAll 0, .cancelWait 2,
      .notifyAllNext 0, .cancelWaitDone 2, .notifyAllNext 0] = some s ∧ s.mem.asserts = true ∧
    ∃ xs, s.CompletedOnce xs 2 := by
  have hsome : ((run step (init 0) [.requestWait 1 0, .requestWait 2 0, .requestWait 3 0, .notifyAll 0,
      .cancelWait 2, .notifyAllNext 0, .cancelWaitDone 2, .notifyAllNext 0]).map (fun s => waits s.log 2)) =
      some true := by decide
  obtain ⟨s, hs, hw⟩ := Option.map_eq_some_iff.mp hsome
  have hsafe : Along step SafeCancel (init 0) [.requestWait 1 0, .requestWait 2 0, .requestWait 3 0, .notifyAll 0,
      .cancelWait 2, .notifyAllNext 0, .cancelWaitDone 2, .notifyAllNext 0] := by
    refine ⟨trivial, trivial, trivial, trivial, fun n => ?_, trivial, trivial, trivial, trivial⟩
    cases n with
    | zero => exact .inr (by decide)
    | succ n => exact .inl rfl
  obtain ⟨ha, xs, -, -, -, h⟩ := waiters_once 0 hsafe hs
  exact ⟨s, hs, ha, xs, h 2 hw⟩

end Condy.Futex
