import Mathlib.Algebra.Ring.Nat
import Mathlib.Data.List.Basic
import Mathlib.Tactic.Common

/-!
# Condy.Options — `RuntimeOptions` and the ring that is made from them

The setters of `runtime_options.hpp` may be called in any order and any number of times; one that would contradict an
option that is already set throws and changes nothing.  `Consistent` says what the options are meant to satisfy.  The
checks of the setters are exactly what that takes (`call_ok_iff`): a call throws if and only if its assignments would
break it, and every consistent record of options can be built by some calls (`built_iff`).

`create_ring_` of `runtime.hpp` turns the options into the flags of `io_uring_setup`.  `FlagRules` are the rules of the
kernel for these flags; the options that can be built always meet them (`ring_flags_allowed`).
-/

namespace Condy

structure RuntimeOptions where
  eventInterval : ℕ
  disableRegisterRingFd : Bool
  enableIopoll : Bool
  enableHybridIopoll : Bool
  enableSqpoll : Bool
  sqpollIdleTimeMs : ℕ
  sqpollThreadCpu : Option ℕ
  enableDeferTaskrun : Bool
  sqSize : ℕ
  cqSize : ℕ
  submitBatch : ℕ
  /-- The ring of the runtime to attach to, by its file descriptor. -/
  attachWqTarget : Option ℕ
  enableCoopTaskrun : Bool
  enableSqe128 : Bool
  enableCqe32 : Bool
  enableSqeMixed : Bool
  enableCqeMixed : Bool
  enableNoMmap : Bool
  noMmapBuf : ℕ
  noMmapBufSize : ℕ
  enableSqRewind : Bool
deriving DecidableEq, Repr

/-- A call of a setter. -/
inductive Setter where
  | eventInterval (v : ℕ)
  | disableRegisterRingFd
  | enableIopoll
  | enableHybridIopoll
  | enableSqpoll (idleTimeMs : ℕ) (cpu : Option ℕ)
  | enableDeferTaskrun
  | sqSize (v : ℕ)
  | cqSize (v : ℕ)
  | submitBatch (v : ℕ)
  | enableAttachWq (other : ℕ)
  | enableCoopTaskrun
  | enableSqe128
  | enableCqe32
  | enableSqeMixed
  | enableCqeMixed
  | enableNoMmap (buf bufSize : ℕ)
  | enableSqRewind
deriving DecidableEq, Repr

namespace RuntimeOptions

/-- The options before the first call. -/
def default : RuntimeOptions where
  eventInterval := 61
  disableRegisterRingFd := false
  enableIopoll := false
  enableHybridIopoll := false
  enableSqpoll := false
  sqpollIdleTimeMs := 1000
  sqpollThreadCpu := none
  enableDeferTaskrun := false
  sqSize := 128
  cqSize := 0
  submitBatch := 0
  attachWqTarget := none
  enableCoopTaskrun := false
  enableSqe128 := false
  enableCqe32 := false
  enableSqeMixed := false
  enableCqeMixed := false
  enableNoMmap := false
  noMmapBuf := 0
  noMmapBufSize := 0
  enableSqRewind := false

/-- The conditions under which a setter throws, in the order in which it looks at them, and what it says. -/
def checks (o : RuntimeOptions) : Setter → List (Bool × String)
  | .enableHybridIopoll => [(!o.enableIopoll, "hybrid_iopoll cannot be enabled without iopoll")]
  | .enableSqpoll _ _ =>
    [(o.enableDeferTaskrun, "sqpoll cannot be enabled with defer_taskrun"),
      (o.enableCoopTaskrun, "sqpoll cannot be enabled with coop_taskrun"),
      (o.enableSqRewind, "sqpoll cannot be enabled with sq_rewind")]
  | .enableDeferTaskrun =>
    [(o.enableSqpoll, "defer_taskrun cannot be enabled with sqpoll"),
      (o.enableCoopTaskrun, "defer_taskrun cannot be enabled with coop_taskrun")]
  | .enableCoopTaskrun =>
    [(o.enableSqpoll, "coop_taskrun cannot be enabled with sqpoll"),
      (o.enableDeferTaskrun, "coop_taskrun cannot be enabled with defer_taskrun")]
  | .enableSqe128 => [(o.enableSqeMixed, "sqe128 cannot be enabled with sqe_mixed")]
  | .enableCqe32 => [(o.enableCqeMixed, "cqe32 cannot be enabled with cqe_mixed")]
  | .enableSqeMixed => [(o.enableSqe128, "sqe_mixed cannot be enabled with sqe128")]
  | .enableCqeMixed => [(o.enableCqe32, "cqe_mixed cannot be enabled with cqe32")]
  | .enableSqRewind => [(o.enableSqpoll, "sq_rewind cannot be enabled with sqpoll")]
  | _ => []

/-- The assignments of a setter. -/
def put (o : RuntimeOptions) : Setter → RuntimeOptions
  | .eventInterval v => { o with eventInterval := v }
  | .disableRegisterRingFd => { o with disableRegisterRingFd := true }
  | .enableIopoll => { o with enableIopoll := true }
  | .enableHybridIopoll => { o with enableHybridIopoll := true }
  | .enableSqpoll idleTimeMs cpu =>
    { o with enableSqpoll := true, sqpollIdleTimeMs := idleTimeMs, sqpollThreadCpu := cpu }
  | .enableDeferTaskrun => { o with enableDeferTaskrun := true }
  | .sqSize v => { o with sqSize := v }
  | .cqSize v => { o with cqSize := v }
  | .submitBatch v => { o with submitBatch := v }
  | .enableAttachWq other => { o with attachWqTarget := some other }
  | .enableCoopTaskrun => { o with enableCoopTaskrun := true }
  | .enableSqe128 => { o with enableSqe128 := true }
  | .enableCqe32 => { o with enableCqe32 := true }
  | .enableSqeMixed => { o with enableSqeMixed := true }
  | .enableCqeMixed => { o with enableCqeMixed := true }
  | .enableNoMmap buf bufSize => { o with enableNoMmap := true, noMmapBuf := buf, noMmapBufSize := bufSize }
  | .enableSqRewind => { o with enableSqRewind := true }

/-- A setter: `std::logic_error` with a text, or the new options. -/
def call (o : RuntimeOptions) (c : Setter) : Except String RuntimeOptions :=
  match (o.checks c).find? (·.1) with
  | some (_, what) => .error what
  | none => .ok (o.put c)

/-- The options after calls that the program goes on after, whether they throw or not. -/
def build (calls : List Setter) : RuntimeOptions :=
  calls.foldl (fun o c => (o.call c).toOption.getD o) default

/-! ## Consistent options -/

/-- What the options are meant to satisfy; parameters of an option that is not set have their defaults. -/
structure Consistent (o : RuntimeOptions) : Prop where
  hybrid : o.enableHybridIopoll = true → o.enableIopoll = true
  sqpoll : o.enableSqpoll = true →
    o.enableDeferTaskrun = false ∧ o.enableCoopTaskrun = false ∧ o.enableSqRewind = false
  taskrun : o.enableDeferTaskrun = true → o.enableCoopTaskrun = false
  sqe : o.enableSqe128 = true → o.enableSqeMixed = false
  cqe : o.enableCqe32 = true → o.enableCqeMixed = false
  idle : o.enableSqpoll = false → o.sqpollIdleTimeMs = 1000 ∧ o.sqpollThreadCpu = none
  mmap : o.enableNoMmap = false → o.noMmapBuf = 0 ∧ o.noMmapBufSize = 0

theorem default_consistent : default.Consistent :=
  ⟨by decide, by decide, by decide, by decide, by decide, by decide, by decide⟩

variable {o : RuntimeOptions} {c : Setter}

theorem call_eq_ok : (∃ o', o.call c = .ok o') ↔ ∀ x ∈ o.checks c, x.1 = false := by
  unfold call
  cases hf : (o.checks c).find? (·.1) with
  | none =>
    rw [List.find?_eq_none] at hf
    exact iff_of_true ⟨_, rfl⟩ fun x hx => by simpa using hf x hx
  | some x =>
    refine iff_of_false (by simp) fun h => ?_
    have := h x (List.mem_of_find?_eq_some hf)
    have hx := List.find?_some hf
    rw [this] at hx
    cases hx

theorem eq_false_of_imp {a b : Bool} (h : a = true → b = false) (hb : b = true) : a = false := by
  cases a
  · rfl
  · rw [h rfl] at hb
    cases hb

/-- What passes the checks may be set. -/
theorem put_consistent (h : o.Consistent) (hc : ∀ x ∈ o.checks c, x.1 = false) : (o.put c).Consistent := by
  cases c with
  | eventInterval | disableRegisterRingFd | sqSize | cqSize | submitBatch | enableAttachWq =>
    exact ⟨h.hybrid, h.sqpoll, h.taskrun, h.sqe, h.cqe, h.idle, h.mmap⟩
  | enableIopoll => exact ⟨fun _ => rfl, h.sqpoll, h.taskrun, h.sqe, h.cqe, h.idle, h.mmap⟩
  | enableNoMmap => exact ⟨h.hybrid, h.sqpoll, h.taskrun, h.sqe, h.cqe, h.idle, (by rintro ⟨⟩)⟩
  | enableHybridIopoll =>
    have hiopoll : o.enableIopoll = true := by simpa [checks] using hc
    exact ⟨fun _ => hiopoll, h.sqpoll, h.taskrun, h.sqe, h.cqe, h.idle, h.mmap⟩
  | enableSqpoll =>
    have hfree : o.enableDeferTaskrun = false ∧ o.enableCoopTaskrun = false ∧ o.enableSqRewind = false := by
      simpa [checks] using hc
    exact ⟨h.hybrid, fun _ => hfree, h.taskrun, h.sqe, h.cqe, (by rintro ⟨⟩), h.mmap⟩
  | enableDeferTaskrun =>
    obtain ⟨hsqpoll, hcoop⟩ : o.enableSqpoll = false ∧ o.enableCoopTaskrun = false := by simpa [checks] using hc
    exact ⟨h.hybrid, fun hs => absurd (hsqpoll.symm.trans hs) (by decide), fun _ => hcoop, h.sqe, h.cqe, h.idle, h.mmap⟩
  | enableCoopTaskrun =>
    obtain ⟨hsqpoll, hdefer⟩ : o.enableSqpoll = false ∧ o.enableDeferTaskrun = false := by simpa [checks] using hc
    exact ⟨h.hybrid, fun hs => absurd (hsqpoll.symm.trans hs) (by decide),
      fun hd => absurd (hdefer.symm.trans hd) (by decide), h.sqe, h.cqe, h.idle, h.mmap⟩
  | enableSqRewind =>
    have hsqpoll : o.enableSqpoll = false := by simpa [checks] using hc
    exact ⟨h.hybrid, fun hs => absurd (hsqpoll.symm.trans hs) (by decide), h.taskrun, h.sqe, h.cqe, h.idle, h.mmap⟩
  | enableSqe128 =>
    have hmixed : o.enableSqeMixed = false := by simpa [checks] using hc
    exact ⟨h.hybrid, h.sqpoll, h.taskrun, fun _ => hmixed, h.cqe, h.idle, h.mmap⟩
  | enableSqeMixed =>
    have hbig : o.enableSqe128 = false := by simpa [checks] using hc
    exact ⟨h.hybrid, h.sqpoll, h.taskrun, fun hs => absurd (hbig.symm.trans hs) (by decide), h.cqe, h.idle, h.mmap⟩
  | enableCqe32 =>
    have hmixed : o.enableCqeMixed = false := by simpa [checks] using hc
    exact ⟨h.hybrid, h.sqpoll, h.taskrun, h.sqe, fun _ => hmixed, h.idle, h.mmap⟩
  | enableCqeMixed =>
    have hbig : o.enableCqe32 = false := by simpa [checks] using hc
    exact ⟨h.hybrid, h.sqpoll, h.taskrun, h.sqe, fun hs => absurd (hbig.symm.trans hs) (by decide), h.idle, h.mmap⟩

/-- What the checks refuse may not be set. -/
theorem checks_pass (hp : (o.put c).Consistent) : ∀ x ∈ o.checks c, x.1 = false := by
  cases c with
  | eventInterval | disableRegisterRingFd | sqSize | cqSize | submitBatch | enableAttachWq | enableIopoll | enableNoMmap =>
    intro x hx
    cases hx
  | enableHybridIopoll =>
    have hiopoll : o.enableIopoll = true := hp.hybrid rfl
    simp [checks, hiopoll]
  | enableSqpoll =>
    obtain ⟨hd, hc, hr⟩ : o.enableDeferTaskrun = false ∧ o.enableCoopTaskrun = false ∧ o.enableSqRewind = false :=
      hp.sqpoll rfl
    simp [checks, hd, hc, hr]
  | enableDeferTaskrun =>
    have hcoop : o.enableCoopTaskrun = false := hp.taskrun rfl
    have hsqpoll : o.enableSqpoll = false := eq_false_of_imp (fun hs => (hp.sqpoll hs).1) rfl
    simp [checks, hcoop, hsqpoll]
  | enableCoopTaskrun =>
    have hdefer : o.enableDeferTaskrun = false := eq_false_of_imp (fun hd => hp.taskrun hd) rfl
    have hsqpoll : o.enableSqpoll = false := eq_false_of_imp (fun hs => (hp.sqpoll hs).2.1) rfl
    simp [checks, hdefer, hsqpoll]
  | enableSqRewind =>
    have hsqpoll : o.enableSqpoll = false := eq_false_of_imp (fun hs => (hp.sqpoll hs).2.2) rfl
    simp [checks, hsqpoll]
  | enableSqe128 =>
    have hmixed : o.enableSqeMixed = false := hp.sqe rfl
    simp [checks, hmixed]
  | enableSqeMixed =>
    have hbig : o.enableSqe128 = false := eq_false_of_imp (fun hs => hp.sqe hs) rfl
    simp [checks, hbig]
  | enableCqe32 =>
    have hmixed : o.enableCqeMixed = false := hp.cqe rfl
    simp [checks, hmixed]
  | enableCqeMixed =>
    have hbig : o.enableCqe32 = false := eq_false_of_imp (fun hs => hp.cqe hs) rfl
    simp [checks, hbig]

/-- **The checks are the right ones**: from consistent options a setter goes through exactly when the options after its
assignments are consistent. -/
theorem call_ok_iff (h : o.Consistent) : (∃ o', o.call c = .ok o') ↔ (o.put c).Consistent := by
  rw [call_eq_ok]
  exact ⟨put_consistent h, checks_pass⟩

theorem call_ok {o' : RuntimeOptions} (hc : o.call c = .ok o') : o' = o.put c := by
  unfold call at hc
  split at hc
  · cases hc
  · exact (Except.ok.inj hc).symm

theorem step_consistent (h : o.Consistent) (c : Setter) : ((o.call c).toOption.getD o).Consistent := by
  cases hc : o.call c with
  | error what => exact h
  | ok o' =>
    rw [call_ok hc]
    exact (call_ok_iff h).mp ⟨o', hc⟩

theorem foldl_consistent : ∀ (calls : List Setter) {o : RuntimeOptions}, o.Consistent →
    (calls.foldl (fun o c => (o.call c).toOption.getD o) o).Consistent
  | [], _, h => h
  | c :: calls, _, h => foldl_consistent calls (step_consistent h c)

theorem build_consistent (calls : List Setter) : (build calls).Consistent := foldl_consistent calls default_consistent

/-! ## Every consistent record can be built -/

def Built (o : RuntimeOptions) : Prop := ∃ calls, build calls = o

theorem Built.put (h : Built o) (c : Setter) (hc : ∀ x ∈ o.checks c, x.1 = false) : Built (o.put c) := by
  obtain ⟨calls, rfl⟩ := h
  obtain ⟨o', hok⟩ := call_eq_ok.mpr hc
  refine ⟨calls ++ [c], ?_⟩
  rw [build, List.foldl_append]
  show ((build calls).call c).toOption.getD (build calls) = _
  rw [hok]
  exact call_ok hok

/-- The calls that build a record: the sizes, then the options, `iopoll` before `hybrid_iopoll`. -/
theorem Consistent.built : ∀ {o : RuntimeOptions}, o.Consistent → Built o
  | ⟨ev, nofd, io, hy, sq, idle, cpu, de, sqs, cqs, sb, wq, co, s128, c32, sm, cm, nm, buf, bsz, rew⟩, h => by
    have hsizes : Built { default with eventInterval := ev, sqSize := sqs, cqSize := cqs, submitBatch := sb } :=
      (((Built.put ⟨[], rfl⟩ (.eventInterval ev) (by simp [checks])).put (.sqSize sqs) (by simp [checks])).put
        (.cqSize cqs) (by simp [checks])).put (.submitBatch sb) (by simp [checks])
    have hfd : Built { default with
        eventInterval := ev, sqSize := sqs, cqSize := cqs, submitBatch := sb, disableRegisterRingFd := nofd } := by
      cases nofd
      · exact hsizes
      · exact hsizes.put .disableRegisterRingFd (by simp [checks])
    have hwq : Built { default with
        eventInterval := ev, sqSize := sqs, cqSize := cqs, submitBatch := sb, disableRegisterRingFd := nofd
        attachWqTarget := wq } := by
      cases wq with
      | none => exact hfd
      | some other => exact hfd.put (.enableAttachWq other) (by simp [checks])
    have hmmap : Built { default with
        eventInterval := ev, sqSize := sqs, cqSize := cqs, submitBatch := sb, disableRegisterRingFd := nofd
        attachWqTarget := wq, enableNoMmap := nm, noMmapBuf := buf, noMmapBufSize := bsz } := by
      cases nm
      · obtain ⟨rfl, rfl⟩ : buf = 0 ∧ bsz = 0 := h.mmap rfl
        exact hwq
      · exact hwq.put (.enableNoMmap buf bsz) (by simp [checks])
    have hiopoll : Built { default with
        eventInterval := ev, sqSize := sqs, cqSize := cqs, submitBatch := sb, disableRegisterRingFd := nofd
        attachWqTarget := wq, enableNoMmap := nm, noMmapBuf := buf, noMmapBufSize := bsz
        enableIopoll := io, enableHybridIopoll := hy } := by
      cases hy
      · cases io
        · exact hmmap
        · exact hmmap.put .enableIopoll (by simp [checks])
      · obtain rfl : io = true := h.hybrid rfl
        exact (hmmap.put .enableIopoll (by simp [checks])).put .enableHybridIopoll (by simp [checks, put])
    have hsqe : Built { default with
        eventInterval := ev, sqSize := sqs, cqSize := cqs, submitBatch := sb, disableRegisterRingFd := nofd
        attachWqTarget := wq, enableNoMmap := nm, noMmapBuf := buf, noMmapBufSize := bsz
        enableIopoll := io, enableHybridIopoll := hy, enableSqe128 := s128, enableSqeMixed := sm } := by
      cases s128
      · cases sm
        · exact hiopoll
        · exact hiopoll.put .enableSqeMixed (by simp [checks, default])
      · obtain rfl : sm = false := h.sqe rfl
        exact hiopoll.put .enableSqe128 (by simp [checks, default])
    have hcqe : Built { default with
        eventInterval := ev, sqSize := sqs, cqSize := cqs, submitBatch := sb, disableRegisterRingFd := nofd
        attachWqTarget := wq, enableNoMmap := nm, noMmapBuf := buf, noMmapBufSize := bsz
        enableIopoll := io, enableHybridIopoll := hy, enableSqe128 := s128, enableSqeMixed := sm
        enableCqe32 := c32, enableCqeMixed := cm } := by
      cases c32
      · cases cm
        · exact hsqe
        · exact hsqe.put .enableCqeMixed (by simp [checks, default])
      · obtain rfl : cm = false := h.cqe rfl
        exact hsqe.put .enableCqe32 (by simp [checks, default])
    -- `sqpoll` excludes the task-run options and `sq_rewind`
    cases sq
    · obtain ⟨rfl, rfl⟩ : idle = 1000 ∧ cpu = none := h.idle rfl
      have hrewind : Built { default with
          eventInterval := ev, sqSize := sqs, cqSize := cqs, submitBatch := sb, disableRegisterRingFd := nofd
          attachWqTarget := wq, enableNoMmap := nm, noMmapBuf := buf, noMmapBufSize := bsz
          enableIopoll := io, enableHybridIopoll := hy, enableSqe128 := s128, enableSqeMixed := sm
          enableCqe32 := c32, enableCqeMixed := cm, enableSqRewind := rew } := by
        cases rew
        · exact hcqe
        · exact hcqe.put .enableSqRewind (by simp [checks, default])
      cases de
      · cases co
        · exact hrewind
        · exact hrewind.put .enableCoopTaskrun (by simp [checks, default])
      · obtain rfl : co = false := h.taskrun rfl
        exact hrewind.put .enableDeferTaskrun (by simp [checks, default])
    · obtain ⟨rfl, rfl, rfl⟩ : de = false ∧ co = false ∧ rew = false := h.sqpoll rfl
      exact hcqe.put (.enableSqpoll idle cpu) (by simp [checks, default])

/-- **The options that can be built** are the consistent ones, whatever calls are made, in whatever order and however
many of them throw; and a call from options that were built throws if and only if its assignments would contradict
them. -/
theorem built_iff (o : RuntimeOptions) : ((∃ calls, build calls = o) ↔ o.Consistent) ∧
    ∀ calls c, (∃ what, (build calls).call c = .error what) ↔ ¬ ((build calls).put c).Consistent := by
  refine ⟨⟨?_, Consistent.built⟩, fun calls c => ?_⟩
  · rintro ⟨calls, rfl⟩
    exact build_consistent calls
  · rw [← call_ok_iff (build_consistent calls)]
    cases (build calls).call c with
    | error what => exact iff_of_true ⟨what, rfl⟩ (by simp)
    | ok o' => exact iff_of_false (by simp) (by simp)

/-! ## The ring -/

/-- The flags of `io_uring_setup` that `create_ring_` uses. -/
inductive SetupFlag where
  | clamp | singleIssuer | submitAll | rDisabled | cqsize | iopoll | hybridIopoll | sqpoll | sqAff | attachWq
  | deferTaskrun | taskrunFlag | coopTaskrun | sqe128 | cqe32 | sqeMixed | cqeMixed | noMmap | sqRewind
deriving DecidableEq, Repr

/-- What `create_ring_` passes to the constructor of `Ring`; the fields of `io_uring_params` have 32 bits. -/
structure RingSetup where
  entries : ℕ
  flags : List SetupFlag
  cqEntries : ℕ
  sqThreadIdle : ℕ
  sqThreadCpu : ℕ
  wqFd : ℕ
  buf : ℕ
  bufSize : ℕ
  submitBatch : ℕ
deriving DecidableEq, Repr

def flagIf (b : Bool) (fs : List SetupFlag) : List SetupFlag := if b then fs else []

/-- `Runtime::create_ring_`, up to its assertion.  The constructor of `Ring` narrows the number of entries; the batch is
computed before that. -/
def createRing (o : RuntimeOptions) : RingSetup where
  entries := o.sqSize % 2 ^ 32
  flags :=
    [.clamp, .singleIssuer, .submitAll, .rDisabled] ++ flagIf (o.cqSize != 0) [.cqsize] ++
      flagIf o.enableIopoll ([.iopoll] ++ flagIf o.enableHybridIopoll [.hybridIopoll]) ++
      flagIf o.enableSqpoll ([.sqpoll] ++ flagIf o.sqpollThreadCpu.isSome [.sqAff]) ++
      flagIf o.attachWqTarget.isSome [.attachWq] ++
      flagIf o.enableDeferTaskrun [.deferTaskrun, .taskrunFlag] ++
      flagIf o.enableCoopTaskrun [.coopTaskrun, .taskrunFlag] ++
      flagIf o.enableSqe128 [.sqe128] ++ flagIf o.enableCqe32 [.cqe32] ++
      flagIf o.enableSqeMixed [.sqeMixed] ++ flagIf o.enableCqeMixed [.cqeMixed] ++
      flagIf o.enableNoMmap [.noMmap] ++ flagIf o.enableSqRewind [.sqRewind]
  cqEntries := if o.cqSize ≠ 0 then o.cqSize % 2 ^ 32 else 0
  sqThreadIdle := if o.enableSqpoll then o.sqpollIdleTimeMs % 2 ^ 32 else 0
  sqThreadCpu := if o.enableSqpoll then o.sqpollThreadCpu.getD 0 else 0
  wqFd := o.attachWqTarget.getD 0
  buf := if o.enableNoMmap then o.noMmapBuf else 0
  bufSize := if o.enableNoMmap then o.noMmapBufSize else 0
  submitBatch :=
    if o.submitBatch = 0 then (if o.enableSqpoll then min 32 o.sqSize else 2 ^ 64 - 1) else o.submitBatch

/-- The rules of `io_uring_setup` for combinations of these flags. -/
structure FlagRules (fs : List SetupFlag) : Prop where
  sqpoll : .sqpoll ∈ fs → .deferTaskrun ∉ fs ∧ .coopTaskrun ∉ fs ∧ .taskrunFlag ∉ fs ∧ .sqRewind ∉ fs
  defer : .deferTaskrun ∈ fs → .singleIssuer ∈ fs ∧ .coopTaskrun ∉ fs
  taskrun : .taskrunFlag ∈ fs ↔ .deferTaskrun ∈ fs ∨ .coopTaskrun ∈ fs
  affinity : .sqAff ∈ fs → .sqpoll ∈ fs
  hybrid : .hybridIopoll ∈ fs → .iopoll ∈ fs
  sqe : .sqe128 ∈ fs → .sqeMixed ∉ fs
  cqe : .cqe32 ∈ fs → .cqeMixed ∉ fs

@[simp] theorem mem_flagIf {b : Bool} {fs : List SetupFlag} {x : SetupFlag} : x ∈ flagIf b fs ↔ b = true ∧ x ∈ fs := by
  cases b <;> simp [flagIf]

theorem Consistent.flagRules (h : o.Consistent) : FlagRules o.createRing.flags := by
  refine ⟨?_, ?_, ?_, ?_, ?_, ?_, ?_⟩
  · intro hs
    obtain ⟨hd, hc, hr⟩ := h.sqpoll (by simpa [createRing] using hs)
    simp [createRing, hd, hc, hr]
  · intro hd
    have hc := h.taskrun (by simpa [createRing] using hd)
    simp [createRing, hc]
  · simp [createRing]
  · simp +contextual [createRing]
  · simp +contextual [createRing]
  · intro hs
    simp [createRing, h.sqe (by simpa [createRing] using hs)]
  · intro hs
    simp [createRing, h.cqe (by simpa [createRing] using hs)]

/-- **The kernel is never asked for a contradictory ring**: after any calls of the setters the flags meet the rules of
`io_uring_setup`, and the assertion on `submit_batch` fails only for a polled submission queue of size zero. -/
theorem ring_flags_allowed (calls : List Setter) : FlagRules (build calls).createRing.flags ∧
    ((build calls).createRing.submitBatch = 0 ↔
      (build calls).submitBatch = 0 ∧ (build calls).enableSqpoll = true ∧ (build calls).sqSize = 0) := by
  refine ⟨(build_consistent calls).flagRules, ?_⟩
  generalize build calls = o
  unfold createRing
  cases hs : o.enableSqpoll <;> by_cases hb : o.submitBatch = 0 <;> simp [hb]

end RuntimeOptions

end Condy
