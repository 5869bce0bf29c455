import Condy.Futex.Model
import Condy.Lib.Tickets
import Condy.Lib.WaitRoom

/-!
# Condy.Futex.Inv — the invariant of a futex and its waiters

`Inv s xs`: the intrusive lists represent the sequences `xs` (`xs none` is `wait_awaiters_`, `xs (some n)` what the
`notify_all_` call `n` still holds), all assertions held, and every waiter has one of the fates of `Lib.Room`.

One step can break it: `cancel_wait_` of the first or the last waiter of a detached list of two or more.
`SafeCancel` excludes exactly that step, and `step_inv` is the step lemma for all others.
-/

namespace Condy

open Lib

/-- The result that a waiter gets when it is taken out for this reason. -/
def WaitCause.code : WaitCause → ℤ
  | .notified res => res
  | .cancelled => -ECANCELED

def WaitHandle.done (res : ℤ) : WaitHandle := { result := res, sets := 1, scheduled := 1 }

namespace Futex

variable {V : Type}

/-- The waiters as entries that wait, in whichever list they are. -/
def room (s : Futex V) (xs : Option ℕ → List ℕ) : Room WaitCause WaitHandle where
  queued := fun w => ∃ k, w ∈ xs k
  leaving := fun w why => w ∈ s.notifying ∧ why = .notified 0 ∨ w ∈ s.cancelling ∧ why = .cancelled
  waited := waits s.log
  causes := causes s.log
  outcome := s.waiters

structure Inv (s : Futex V) (xs : Option ℕ → List ℕ) : Prop where
  rep : Rep s.mem s.lists xs
  asserts : s.mem.asserts = true
  /-- Only a running call of `notify_all_` has a list. -/
  idle : ∀ n, s.results n = none → xs (some n) = []
  queue : xs none = waitingFrom [] s.log
  known : ∀ w, waits s.log w = true → w ∈ requested s.log
  fresh : (requested s.log).Nodup
  nodup : s.notifying.Nodup ∧ s.cancelling.Nodup
  fates : (s.room xs).Ok WaitHandle.new (fun why => WaitHandle.done why.code)

/-- A cancellation that does not name an end of a detached list of two or more. -/
def SafeCancel (s : Futex V) : Op V → Prop
  | .cancelWait w => ∀ n, (s.lists (some n)).head = (s.lists (some n)).tail ∨
      (s.lists (some n)).head ≠ some w ∧ (s.lists (some n)).tail ≠ some w
  | _ => True

theorem inv_init (v : V) : (init v).Inv (fun _ => []) where
  rep := ⟨fun _ => List.nodup_nil, fun _ => rfl, fun _ => rfl, fun _ => linked_nil,
    fun _ _ _ h => (nomatch h), fun _ _ => rfl⟩
  asserts := rfl
  idle := fun _ _ => rfl
  queue := rfl
  known := fun _ h => nomatch h
  fresh := List.nodup_nil
  nodup := ⟨List.nodup_nil, List.nodup_nil⟩
  fates := fun _ => .idle rfl (fun ⟨_, h⟩ => nomatch h) (fun _ h => h.elim (nomatch ·.1) (nomatch ·.1)) rfl

section Steps

variable {s s' : Futex V} {xs : Option ℕ → List ℕ} {w : ℕ} {bs rest : List ℕ}

theorem Inv.new (h : s.Inv xs) (hw : w ∉ requested s.log) : waits s.log w = false := by
  rw [← Bool.not_eq_true]
  exact fun hw' => hw (h.known w hw')

/-- A waiter whose request is not in the log is in no list. -/
theorem Inv.new_free (h : s.Inv xs) (hw : w ∉ requested s.log) : ∀ k, w ∉ xs k := by
  intro k hk
  exact (h.fates.of_not_waited (R := s.room xs) (h.new hw)).1 ⟨k, hk⟩

/-- A waiter in a list has neither been notified nor cancelled. -/
theorem Inv.of_queued (h : s.Inv xs) {k : Option ℕ} (hk : w ∈ xs k) : waits s.log w = true ∧
    w ∉ s.notifying ∧ w ∉ s.cancelling ∧ causes s.log w = [] ∧ s.waiters w = WaitHandle.new := by
  obtain ⟨h1, h2, h3, h4⟩ := h.fates.of_queued (R := s.room xs) ⟨k, hk⟩
  exact ⟨h1, fun hn => h2 (.notified 0) (.inl ⟨hn, rfl⟩), fun hc => h2 .cancelled (.inr ⟨hc, rfl⟩), h3, h4⟩

/-- The sequences after `w` was taken out of list `k`. -/
theorem queued_erase (as : List ℕ) (h : Rep s.mem s.lists xs) {k : Option ℕ} (hk : xs k = as ++ w :: bs) :
    (¬ ∃ k', w ∈ Function.update xs k (as ++ bs) k') ∧
    ∀ j, j ≠ w → ((∃ k', j ∈ Function.update xs k (as ++ bs) k') ↔ ∃ k', j ∈ xs k') := by
  have hnd := h.nodup k
  rw [hk] at hnd
  have hmid := (List.nodup_cons.mp (List.nodup_middle.mp hnd)).1
  constructor
  · rintro ⟨k', hk'⟩
    rcases eq_or_ne k' k with rfl | hne
    · rw [Function.update_self] at hk'
      exact hmid hk'
    · rw [Function.update_of_ne hne] at hk'
      exact hne (h.disjoint k' k w hk' (by simp [hk]))
  · intro j hj
    refine exists_congr (fun k' => ?_)
    rcases eq_or_ne k' k with rfl | hne
    · rw [Function.update_self, hk]
      simp [hj]
    · rw [Function.update_of_ne hne]

theorem done_eq (res : ℤ) : (WaitHandle.new.setResult res).schedule = WaitHandle.done res := rfl

theorem setList_self (s : Futex V) (k : Option ℕ) : s.setList k s.mem (s.lists k) = s := by
  simp [setList]

variable [DecidableEq V]

theorem store_inv {v : V} (h : s.Inv xs) (hs : step s (.store v) = some s') : s'.Inv xs := by
  obtain rfl := Option.some.inj hs
  refine ⟨h.rep, h.asserts, h.idle, ?_, fun w hw => ?_, ?_, h.nodup, h.fates.congr (fun j => ?_)⟩
  · simpa [emit] using h.queue
  · simpa [emit] using h.known w (by simpa [emit] using hw)
  · simpa [emit] using h.fresh
  · exact ⟨Iff.rfl, fun _ => Iff.rfl, by simp [room, emit], by simp [room, emit], rfl⟩

/-- `request_wait_` for a new waiter. -/
theorem requestWait_inv {old : V} (h : s.Inv xs) (hs : step s (.requestWait w old) = some s') :
    ∃ xs', s'.Inv xs' := by
  simp only [step] at hs
  obtain ⟨hg, hs⟩ := Option.ite_none_left_eq_some.mp hs
  obtain rfl := Option.some.inj hs
  obtain ⟨-, hw⟩ := not_or.mp hg
  have hnew := h.new hw
  have hfree := h.new_free hw
  unfold requestWait
  by_cases hv : s.value = old
  · -- the waiter goes to the end of `wait_awaiters_`
    rw [if_neg (show ¬ (s.setWaiter w (fun _ => WaitHandle.new)).value ≠ old from not_not.mpr hv)]
    simp only
    rw [if_pos trivial]
    obtain ⟨ha, hrep⟩ := h.rep.pushBack (k := none) hfree
    refine ⟨Function.update xs none (xs none ++ [w]), hrep, ha.trans h.asserts, fun n hn => ?_, ?_, ?_, ?_,
      h.nodup, ?_⟩
    · rw [Function.update_of_ne (by simp)]
      exact h.idle n hn
    · simp [emit, setList, setWaiter, h.queue]
    · intro j hj
      by_cases hjw : j = w
      · simp [emit, setList, setWaiter, hjw]
      · have := h.known j (by simpa [emit, setList, setWaiter, Ne.symm hjw] using hj)
        simp [emit, setList, setWaiter, this]
    · simpa [emit, setList, setWaiter] using nodup_snoc h.fresh hw
    · refine h.fates.join (i := w) (fun j hj => ⟨?_, fun _ => Iff.rfl, ?_, ?_, ?_⟩) hnew ⟨none, by simp⟩
        (fun _ => Iff.rfl) ?_ ?_ ?_
      · refine exists_congr (fun k => ?_)
        rcases eq_or_ne k none with rfl | hk
        · simp [hj]
        · rw [Function.update_of_ne hk]
      · simp [room, emit, setList, setWaiter, hj.symm]
      · simp [room, emit, setList, setWaiter]
      · simp [room, emit, setList, setWaiter, hj]
      · simp [room, emit, setList, setWaiter]
      · simp [room, emit, setList, setWaiter]
      · simp [room, emit, setList, setWaiter]
  · rw [if_pos (show (s.setWaiter w (fun _ => WaitHandle.new)).value ≠ old from hv)]
    simp only
    rw [if_neg (show ¬ (0 : ℤ) = -EAGAIN by decide)]
    refine ⟨xs, h.rep, h.asserts, h.idle, ?_, fun j hj => ?_, ?_, h.nodup, ?_⟩
    · simpa [emit, setWaiter] using h.queue
    · have := h.known j (by simpa [emit, setWaiter] using hj)
      simp [emit, setWaiter, this]
    · simpa [emit, setWaiter] using nodup_snoc h.fresh hw
    · refine h.fates.outsider (i := w) (fun j hj => ⟨Iff.rfl, fun _ => Iff.rfl, ?_, ?_, ?_⟩) hnew Iff.rfl
        (fun _ => Iff.rfl) ?_ ?_
      · simp [room, emit, setWaiter]
      · simp [room, emit, setWaiter]
      · simp [room, emit, setWaiter, hj]
      · simpa [room, emit, setWaiter] using hnew
      · simp [room, emit, setWaiter]

theorem notifyOne_inv (h : s.Inv xs) (hs : step s .notifyOne = some s') : ∃ xs', s'.Inv xs' := by
  simp only [step] at hs
  obtain ⟨-, hs⟩ := Option.ite_none_left_eq_some.mp hs
  cases hq : xs none with
  | nil =>
    have hlock : s.notifyOneLock = (none, s) := by
      simp only [notifyOneLock, h.rep.popFront_nil hq, setList_self]
    rw [hlock] at hs
    obtain rfl := Option.some.inj hs
    refine ⟨xs, h.rep, h.asserts, h.idle, ?_, fun j hj => ?_, ?_, h.nodup, h.fates.congr (fun j => ?_)⟩
    · simpa [emit] using h.queue
    · simpa [emit] using h.known j (by simpa [emit] using hj)
    · simpa [emit] using h.fresh
    · exact ⟨Iff.rfl, fun _ => Iff.rfl, by simp [room, emit], by simp [room, emit], rfl⟩
  | cons w rest =>
    obtain ⟨h1, h2, h3⟩ := h.rep.popFront_cons hq
    have hlock : s.notifyOneLock = (some w, s.setList none _ _) := Prod.ext h1 rfl
    rw [hlock] at hs
    obtain rfl := Option.some.inj hs
    obtain ⟨hw, hnn, hnc, -, -⟩ := h.of_queued (k := none) (w := w) (by simp [hq])
    obtain ⟨hout, hin⟩ := queued_erase [] h.rep hq
    refine ⟨Function.update xs none rest, h3, h2.trans h.asserts, fun n hn => ?_, ?_, fun j hj => ?_, ?_,
      ⟨nodup_snoc h.nodup.1 hnn, h.nodup.2⟩, ?_⟩
    · rw [Function.update_of_ne (by simp)]
      exact h.idle n hn
    · have := h.queue
      simp [emit, setList, ← this, hq]
    · simpa [emit, setList] using h.known j (by simpa [emit, setList] using hj)
    · simpa [emit, setList] using h.fresh
    · refine h.fates.take (i := w) (.notified 0) (fun j hj => ⟨hin j hj, ?_, ?_, ?_, rfl⟩) ⟨none, by simp [hq]⟩
        hout ?_ ?_ ?_ rfl
      · simp [room, emit, setList, hj]
      · simp [room, emit, setList]
      · simp [room, emit, setList, hj.symm]
      · simp [room, emit, setList, hnn, hnc]
      · simp [room, emit, setList]
      · simp [room, emit, setList]

omit [DecidableEq V] in
/-- A waiter taken out by a notifier is not also taken out by its cancellation. -/
theorem Inv.not_both (h : s.Inv xs) (hn : w ∈ s.notifying) : w ∉ s.cancelling := by
  intro hc
  have hl1 : (s.room xs).leaving w (.notified 0) := .inl ⟨hn, rfl⟩
  have hl2 : (s.room xs).leaving w .cancelled := .inr ⟨hc, rfl⟩
  have h1 := (h.fates.of_leaving hl1).2.2.1
  have h2 := (h.fates.of_leaving hl2).2.2.1
  rw [h1] at h2
  exact absurd h2 (by simp)

omit [DecidableEq V] in
/-- Whoever took the waiter out completes it. -/
theorem complete_inv (why : WaitCause) (h : s.Inv xs) (hl : (s.room xs).leaving w why) :
    ({ s.complete w why.code with
      notifying := s.notifying.erase w, cancelling := s.cancelling.erase w } : Futex V).Inv xs := by
  have ho : s.waiters w = WaitHandle.new := (h.fates.of_leaving hl).2.2.2
  obtain ⟨hndn, hndc⟩ := h.nodup
  refine ⟨h.rep, h.asserts, h.idle, h.queue, h.known, h.fresh, ⟨hndn.erase w, hndc.erase w⟩, ?_⟩
  refine h.fates.finish (i := w) (fun j hj => ⟨Iff.rfl, ?_, rfl, rfl, ?_⟩) hl Iff.rfl ?_ rfl rfl ?_
  · simp [room, List.mem_erase_of_ne hj]
  · simp [room, complete, setWaiter, hj]
  · simp [room, hndn.not_mem_erase, hndc.not_mem_erase]
  · simp [room, complete, setWaiter, ho, done_eq]

theorem notifyOneDone_inv (h : s.Inv xs) (hs : step s (.notifyOneDone w) = some s') : s'.Inv xs := by
  simp only [step] at hs
  obtain ⟨hw, hs⟩ := Option.ite_none_right_eq_some.mp hs
  obtain rfl := Option.some.inj hs
  have := complete_inv (.notified 0) h (.inl ⟨hw, rfl⟩)
  rwa [List.erase_of_not_mem (h.not_both hw)] at this

theorem cancelWaitDone_inv (h : s.Inv xs) (hs : step s (.cancelWaitDone w) = some s') : s'.Inv xs := by
  simp only [step] at hs
  obtain ⟨hw, hs⟩ := Option.ite_none_right_eq_some.mp hs
  obtain rfl := Option.some.inj hs
  have := complete_inv .cancelled h (.inr ⟨hw, rfl⟩)
  rwa [List.erase_of_not_mem (fun hn => h.not_both hn hw)] at this

omit [DecidableEq V] in
/-- The locked part of `notify_all_`: the waiters change lists. -/
theorem notifyAllLock_inv {n : ℕ} (res : ℤ) (h : s.Inv xs) (hn : s.results n = none) :
    ∃ xs', ((s.notifyAllLock n res).emit [.all n]).Inv xs' := by
  have hidle := h.idle n hn
  have hnew : s.lists (some n) = DoubleLinkListImpl.new := by
    have h1 := h.rep.head (some n)
    have h2 := h.rep.tail (some n)
    rw [hidle] at h1 h2
    cases hl : s.lists (some n)
    rw [hl] at h1 h2
    simp_all [DoubleLinkListImpl.new]
  obtain ⟨hm, hrep⟩ := h.rep.moveFrom (k := none) hidle (by simp)
  rw [hnew] at hm
  have hlists : ((s.notifyAllLock n res).emit [.all n]).lists =
      Function.update (Function.update s.lists (some n) (s.lists none)) none DoubleLinkListImpl.new := rfl
  have hmem : ((s.notifyAllLock n res).emit [.all n]).mem = s.mem := hm
  refine ⟨_, by rw [hmem, hlists]; exact hrep, by rw [hmem]; exact h.asserts, fun n' hn' => ?_, ?_, fun j hj => ?_,
    ?_, h.nodup, h.fates.congr (fun j => ⟨?_, fun _ => Iff.rfl, ?_, ?_, rfl⟩)⟩
  · have hne : n' ≠ n := by
      rintro rfl
      simp [notifyAllLock, emit] at hn'
    have hn'' : s.results n' = none := by simpa [notifyAllLock, emit, setList, hne] using hn'
    simpa [hne] using h.idle n' hn''
  · simp [notifyAllLock, emit, setList]
  · simpa [notifyAllLock, emit, setList] using h.known j (by simpa [notifyAllLock, emit, setList] using hj)
  · simpa [notifyAllLock, emit, setList] using h.fresh
  · -- a waiter of `wait_awaiters_` is now in the private list
    constructor
    · rintro ⟨k, hk⟩
      rcases eq_or_ne k none with rfl | hk0
      · simp at hk
      · rw [Function.update_of_ne hk0] at hk
        rcases eq_or_ne k (some n) with rfl | hkn
        · rw [Function.update_self] at hk
          exact ⟨none, hk⟩
        · rw [Function.update_of_ne hkn] at hk
          exact ⟨k, hk⟩
    · rintro ⟨k, hk⟩
      rcases eq_or_ne k none with rfl | hk0
      · exact ⟨some n, by simpa using hk⟩
      · refine ⟨k, ?_⟩
        have hkn : k ≠ some n := by
          rintro rfl
          simp [hidle] at hk
        rwa [Function.update_of_ne hk0, Function.update_of_ne hkn]
  · simp [room, notifyAllLock, emit, setList]
  · simp [room, notifyAllLock, emit, setList]

omit [DecidableEq V] in
/-- One turn of the loop of `notify_all_`. -/
theorem notifyAllNext_inv {n : ℕ} {res : ℤ} (h : s.Inv xs) (hn : s.results n = some res) :
    ∃ xs', (s.notifyAllNext n res).Inv xs' := by
  cases hq : xs (some n) with
  | nil =>
    have hnext : s.notifyAllNext n res = { s with results := Function.update s.results n none } := by
      simp only [notifyAllNext, h.rep.popFront_nil hq, setList_self]
    rw [hnext]
    refine ⟨xs, h.rep, h.asserts, fun n' hn' => ?_, h.queue, h.known, h.fresh, h.nodup, h.fates⟩
    rcases eq_or_ne n' n with rfl | hne
    · exact hq
    · exact h.idle n' (by simpa [hne] using hn')
  | cons w rest =>
    obtain ⟨h1, h2, h3⟩ := h.rep.popFront_cons hq
    set q := (s.lists (some n)).popFront s.mem with hqdef
    have hnext : s.notifyAllNext n res =
        ((s.setList (some n) q.2.1 q.2.2).complete w res).emit [.left w (.notified res)] := by
      simp only [notifyAllNext, ← hqdef, h1]
    rw [hnext]
    obtain ⟨hw, hnn, hnc, hc, ho⟩ := h.of_queued (k := some n) (w := w) (by simp [hq])
    obtain ⟨hout, hin⟩ := queued_erase [] h.rep hq
    refine ⟨Function.update xs (some n) rest, h3, h2.trans h.asserts, fun n' hn' => ?_, ?_, fun j hj => ?_, ?_,
      h.nodup, ?_⟩
    · have hn'' : s.results n' = none := hn'
      have hne : n' ≠ n := by
        rintro rfl
        rw [hn] at hn''
        exact nomatch hn''
      simpa [hne] using h.idle n' hn''
    · rw [Function.update_of_ne (by simp), h.queue]
      simp [emit, complete, setWaiter, setList]
    · simpa [emit, complete, setWaiter, setList] using
        h.known j (by simpa [emit, complete, setWaiter, setList] using hj)
    · simpa [emit, complete, setWaiter, setList] using h.fresh
    · refine h.fates.serve (i := w) (.notified res) (fun j hj => ⟨hin j hj, fun _ => Iff.rfl, ?_, ?_, ?_⟩)
        ⟨some n, by simp [hq]⟩ hout (fun _ => Iff.rfl) ?_ ?_ ?_
      · simp [room, emit, complete, setWaiter, setList]
      · simp [room, emit, complete, setWaiter, setList, hj.symm]
      · simp [room, emit, complete, setWaiter, setList, hj]
      · simp [room, emit, complete, setWaiter, setList]
      · simp [room, emit, complete, setWaiter, setList]
      · simp [room, emit, complete, setWaiter, setList, ho, done_eq, WaitCause.code]

omit [DecidableEq V] in
/-- A waiter of a detached list whose cancellation is safe is alone in it, or it is inside. -/
theorem safe_position (h : Rep s.mem s.lists xs) {n : ℕ} {as : List ℕ} (hq : xs (some n) = as ++ w :: bs)
    (hsafe : s.SafeCancel (.cancelWait w)) : as = [] ∧ bs = [] ∨ as ≠ [] ∧ bs ≠ [] := by
  have hhead := h.head (some n)
  have htail := h.tail (some n)
  have hnd := h.nodup (some n)
  rw [hq] at hhead htail hnd
  rcases hsafe n with heq | ⟨hh, ht⟩
  · left
    rw [hhead, htail] at heq
    cases as with
    | nil =>
      cases bs with
      | nil => exact ⟨rfl, rfl⟩
      | cons b bs =>
        -- the first of two nodes is not the last
        exact absurd heq.symm (getLast?_ne_inner [] hnd)
    | cons a as =>
      exfalso
      cases as with
      | nil => exact getLast?_ne_inner [] hnd heq.symm
      | cons a' as => exact getLast?_ne_inner [] hnd heq.symm
  · right
    constructor
    · rintro rfl
      exact hh (by rw [hhead]; rfl)
    · rintro rfl
      exact ht (by rw [htail]; simp)

omit [DecidableEq V] in
/-- `cancel_wait_` takes a waiter out of the list it is in. -/
theorem cancelled_inv {k : Option ℕ} {as : List ℕ} {m : Mem ℕ} {ls : Option ℕ → DoubleLinkListImpl ℕ}
    (h : s.Inv xs) (hq : xs k = as ++ w :: bs) (ha : m.asserts = s.mem.asserts)
    (hrep : Rep m ls (Function.update xs k (as ++ bs))) :
    (({ s with mem := m, lists := ls, cancelling := s.cancelling ++ [w] } : Futex V).emit
      [.left w .cancelled]).Inv (Function.update xs k (as ++ bs)) := by
  obtain ⟨hw, hnn, hnc, hc, ho⟩ := h.of_queued (k := k) (w := w) (by simp [hq])
  obtain ⟨hout, hin⟩ := queued_erase as h.rep hq
  refine ⟨hrep, ha.trans h.asserts, fun n hn => ?_, ?_, fun j hj => ?_, ?_,
    ⟨h.nodup.1, nodup_snoc h.nodup.2 hnc⟩, ?_⟩
  · have hidle := h.idle n hn
    rcases eq_or_ne (some n) k with rfl | hne
    · rw [hq] at hidle
      exact absurd hidle (by simp)
    · rwa [Function.update_of_ne hne]
  · have hqueue := h.queue
    rcases eq_or_ne k none with rfl | hne
    · have hnd := h.rep.nodup none
      rw [hq] at hnd hqueue
      have hwa : w ∉ as := fun hmem => (List.nodup_append.mp hnd).2.2 w hmem w (by simp) rfl
      rw [Function.update_self]
      simp [emit, ← hqueue, List.erase_append_right _ hwa]
    · have hwn : w ∉ xs none := h.rep.not_mem_of_other as hq hne.symm
      rw [Function.update_of_ne hne.symm]
      rw [hqueue] at hwn ⊢
      simp [emit, List.erase_of_not_mem hwn]
  · simpa [emit] using h.known j (by simpa [emit] using hj)
  · simpa [emit] using h.fresh
  · refine h.fates.take (i := w) .cancelled (fun j hj => ⟨hin j hj, ?_, ?_, ?_, rfl⟩) ⟨k, by simp [hq]⟩ hout
      ?_ ?_ ?_ rfl
    · simp [room, emit, hj]
    · simp [room, emit]
    · simp [room, emit, hj.symm]
    · simp [room, emit, hnn, hnc]
    · simp [room, emit]
    · simp [room, emit]

theorem cancelWait_inv (h : s.Inv xs) (hsafe : s.SafeCancel (.cancelWait w))
    (hs : step s (.cancelWait w) = some s') : ∃ xs', s'.Inv xs' := by
  simp only [step] at hs
  obtain ⟨-, hs⟩ := Option.ite_none_left_eq_some.mp hs
  unfold cancelWait at hs
  -- not found: nothing changes
  have hmiss : (s.lists none).remove s.mem w = (false, s.mem, s.lists none) → ∃ xs', s'.Inv xs' := by
    intro heq
    rw [heq] at hs
    simp only [Bool.false_eq_true, if_false, setList_self] at hs
    exact ⟨xs, Option.some.inj hs ▸ h⟩
  by_cases hin : ∃ k, w ∈ xs k
  · obtain ⟨k, hk⟩ := hin
    obtain ⟨as, bs, hq⟩ := List.append_of_mem hk
    rcases k with _ | n
    · -- waiting in `wait_awaiters_`
      obtain ⟨h1, h2, h3⟩ := h.rep.remove_mem hq
      rw [if_pos h1] at hs
      exact ⟨_, Option.some.inj hs ▸ cancelled_inv h hq h2 h3⟩
    · rcases safe_position h.rep hq hsafe with ⟨rfl, rfl⟩ | ⟨ha, hb⟩
      · exact hmiss (h.rep.remove_single hq (by simp))
      · obtain ⟨h1, h2, h3, h4⟩ := h.rep.remove_inner (k := none) hq ha hb
        rw [if_pos h1] at hs
        have hrep : Rep ((s.lists none).remove s.mem w).2.1
            (Function.update s.lists none ((s.lists none).remove s.mem w).2.2)
            (Function.update xs (some n) (as ++ bs)) := by
          rwa [h3, Function.update_eq_self]
        exact ⟨_, Option.some.inj hs ▸ cancelled_inv h hq h2 hrep⟩
  · exact hmiss (h.rep.remove_free (fun k hk => hin ⟨k, hk⟩))

/-- **Step lemma**: every step but an unsafe cancellation keeps the invariant. -/
theorem step_inv {op : Op V} (h : ∃ xs, s.Inv xs) (hsafe : s.SafeCancel op) (hs : step s op = some s') :
    ∃ xs, s'.Inv xs := by
  obtain ⟨xs, h⟩ := h
  cases op with
  | store v => exact ⟨xs, store_inv h hs⟩
  | requestWait w old => exact requestWait_inv h hs
  | notifyOne => exact notifyOne_inv h hs
  | notifyOneDone w => exact ⟨xs, notifyOneDone_inv h hs⟩
  | notifyAll n =>
    simp only [step] at hs
    obtain ⟨hg, hs⟩ := Option.ite_none_left_eq_some.mp hs
    obtain rfl := Option.some.inj hs
    exact notifyAllLock_inv 0 h (by simpa using (not_or.mp hg).2)
  | notifyAllNext n =>
    obtain ⟨res, hres, rfl⟩ := Option.map_eq_some_iff.mp hs
    exact notifyAllNext_inv h hres
  | cancelWait w => exact cancelWait_inv h hsafe hs
  | cancelWaitDone w => exact ⟨xs, cancelWaitDone_inv h hs⟩
  | destroy n =>
    simp only [step] at hs
    obtain ⟨hg, hs⟩ := Option.ite_none_left_eq_some.mp hs
    obtain rfl := Option.some.inj hs
    obtain ⟨xs', h'⟩ := notifyAllLock_inv (-EIDRM) h (by simpa using (not_or.mp hg).2)
    exact ⟨xs', h'.rep, h'.asserts, h'.idle, h'.queue, h'.known, h'.fresh, h'.nodup, h'.fates⟩

end Steps

end Futex

end Condy
