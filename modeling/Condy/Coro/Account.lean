import Condy.Coro.Trace

/-!
# Condy.Coro.Account — the log of a machine is a run of the ledger

A machine refines the ledger of `Condy.Coro.Ledger`: what a move writes to the log is a run of the ledger, from what the
machine shows before to what it shows then (`Move.ledger`).  The ledger holds the handles that the tasks hold, has lost
those that a `wait()` in a coroutine has lost, and has for a task the result that is in a queue for its coroutine.
-/

namespace Condy.Coro

open Lib PromiseState

variable {ι V E : Type}

namespace Machine

/-- The sender `op`, which a coroutine of the task `t` awaits, has completed, and its result is in a queue. -/
def Pending (s : Machine ι V E) (t op : ℕ) (res : ℤ) : Prop :=
  ∃ q f, .waiter f res ∈ s.queue q ∧ s.asked f = some (t, op)

/-- The ledger has what the machine shows. -/
structure Matches (s : Machine ι V E) (l : Ledger ι V E) : Prop where
  spawned : l.spawned = s.spawned
  held : l.held = s.tasks
  lost : l.lost = s.orphans
  answers : ∀ t op res, l.answers t = some (op, res) ↔ s.Pending t op res
  known : ∀ t ∈ s.tasks ++ s.taken, l.Knows t

theorem init_matches : (init : Machine ι V E).Matches .empty := by
  refine ⟨rfl, rfl, rfl, fun t op res => ?_, fun t ht => ?_⟩
  · simp [Ledger.empty, Pending, init]
  · simp [init] at ht

variable {s s' : Machine ι V E} {l : Ledger ι V E} {f : ℕ} {fr : Frame ι V E} {q : QueueId ι}

/-! ## Results in the queues -/

theorem asked_congr (hf : s'.frames f = s.frames f) : s'.asked f = s.asked f := by
  rw [asked, hf]
  rfl

/-- A frame that stays at its point awaits what it awaited. -/
theorem asked_update {fr' : Frame ι V E} (hf : s.frames f = some fr)
    (hframes : s'.frames = Function.update s.frames f (some fr')) (hsame : fr'.root = fr.root ∧ fr'.point = fr.point)
    (x : ℕ) : s'.asked x = s.asked x := by
  rw [asked, hframes]
  exact bind_update_of_eq (fun fr => fr.point.asks.map (fr.root, ·)) hf (by rw [hsame.1, hsame.2]) x

theorem asked_of {op : ℕ} {r : ι} {a : SenderAwaiter} {k : ℤ → Body ι V E} (hf : s.frames f = some fr)
    (hp : fr.point = .sender op r a k) : s.asked f = some (fr.root, op) := by
  simp [asked, hf, hp, Point.asks]

theorem pending_congr (hq : ∀ f res, (∃ q, .waiter f res ∈ s'.queue q) ↔ ∃ q, .waiter f res ∈ s.queue q)
    (hf : ∀ q f res, .waiter f res ∈ s.queue q → s'.asked f = s.asked f) (t op : ℕ) (res : ℤ) :
    s'.Pending t op res ↔ s.Pending t op res := by
  constructor
  · rintro ⟨q', f, hw, ha⟩
    obtain ⟨q, hw⟩ := (hq f res).mp ⟨q', hw⟩
    exact ⟨q, f, hw, (hf q f res hw).symm.trans ha⟩
  · rintro ⟨q, f, hw, ha⟩
    obtain ⟨q', hw'⟩ := (hq f res).mpr ⟨q, hw⟩
    exact ⟨q', f, hw', (hf q f res hw).trans ha⟩

theorem Matches.congr (h : s.Matches l) (hspawned : s'.spawned = s.spawned)
    (htasks : s'.tasks = s.tasks ∧ s'.taken = s.taken) (horphans : s'.orphans = s.orphans)
    (hp : ∀ t op res, s'.Pending t op res ↔ s.Pending t op res) : s'.Matches l :=
  ⟨h.spawned.trans hspawned.symm, h.held.trans htasks.1.symm, h.lost.trans horphans.symm,
    fun t op res => (h.answers t op res).trans (hp t op res).symm, by rw [htasks.1, htasks.2]; exact h.known⟩

/-- The handle of `t` is given away. -/
theorem Matches.take {t : ℕ} (h : s.Matches l) (ht : t ∈ s.tasks) (hspawned : s'.spawned = s.spawned)
    (htasks : s'.tasks = s.tasks.erase t ∧ s'.taken = s.taken ++ [t]) (horphans : s'.orphans = s.orphans)
    (hp : ∀ t op res, s'.Pending t op res ↔ s.Pending t op res) : s'.Matches (l.take t) := by
  refine ⟨h.spawned.trans hspawned.symm, ?_, h.lost.trans horphans.symm,
    fun t op res => (h.answers t op res).trans (hp t op res).symm, fun x hx => ?_⟩
  · rw [htasks.1, ← h.held]
    rfl
  · rw [htasks.1, htasks.2, List.mem_append, List.mem_append, List.mem_singleton] at hx
    rcases hx with hx | hx | rfl
    · exact h.known x (List.mem_append_left _ (List.mem_of_mem_erase hx))
    · exact h.known x (List.mem_append_right _ hx)
    · exact h.known x (List.mem_append_left _ ht)

variable [DecidableEq ι] {loc : ℕ → Option (Spot ι)}

/-- A queue is changed, and has the same results. -/
theorem waiters_update {w : List Work} (hw : ∀ f res, .waiter f res ∈ w ↔ .waiter f res ∈ s.queue q) (f : ℕ) (res : ℤ) :
    (∃ q', .waiter f res ∈ Function.update s.queue q w q') ↔ ∃ q', .waiter f res ∈ s.queue q' := by
  refine exists_congr fun q' => ?_
  rcases eq_or_ne q' q with rfl | hne
  · rw [Function.update_self, hw]
  · rw [Function.update_of_ne hne]

theorem waiters_put (c f : ℕ) (res : ℤ) :
    (∃ q', .waiter f res ∈ Function.update s.queue q (s.queue q ++ [.promise c]) q') ↔
      ∃ q', .waiter f res ∈ s.queue q' :=
  waiters_update (fun f res => by simp) f res

theorem waiters_take {c : ℕ} {w : List Work} (hq : (s.queue q).Perm (.promise c :: w)) (f : ℕ) (res : ℤ) :
    (∃ q', .waiter f res ∈ Function.update s.queue q w q') ↔ ∃ q', .waiter f res ∈ s.queue q' :=
  waiters_update (fun f res => by rw [hq.mem_iff]; simp) f res

/-- The local queue of a runtime takes over what is in the global one. -/
theorem waiters_merge (r : ι) (f : ℕ) (res : ℤ) :
    (∃ q, .waiter f res ∈ Function.update (Function.update s.queue (.localQueue r)
      (s.queue (.localQueue r) ++ s.queue (.globalQueue r))) (.globalQueue r) [] q) ↔
      ∃ q, .waiter f res ∈ s.queue q := by
  constructor
  · rintro ⟨q, hw⟩
    rcases eq_or_ne q (.globalQueue r) with rfl | hg
    · rw [Function.update_self] at hw
      cases hw
    rw [Function.update_of_ne hg] at hw
    rcases eq_or_ne q (.localQueue r) with rfl | hl
    · rw [Function.update_self] at hw
      exact (List.mem_append.mp hw).elim (fun hw => ⟨_, hw⟩) fun hw => ⟨_, hw⟩
    · rw [Function.update_of_ne hl] at hw
      exact ⟨q, hw⟩
  · rintro ⟨q, hw⟩
    by_cases hq : q = .globalQueue r ∨ q = .localQueue r
    · refine ⟨.localQueue r, ?_⟩
      rw [Function.update_of_ne (by simp), Function.update_self, List.mem_append]
      rcases hq with rfl | rfl
      · exact .inr hw
      · exact .inl hw
    · obtain ⟨hg, hl⟩ := not_or.mp hq
      exact ⟨q, by rwa [Function.update_of_ne hg, Function.update_of_ne hl]⟩

section

variable (hi : s.Inv loc)
include hi

theorem Inv.waiter_frame {res : ℤ} (hw : .waiter f res ∈ s.queue q) :
    ∃ fr op a k, s.frames f = some fr ∧ fr.point = .sender op q.runtime a k := by
  obtain ⟨fr, hf, hfit⟩ := hi.works q _ hw
  cases hp : fr.point <;> simp only [hp, Work.Fits] at hfit
  subst hfit
  exact ⟨fr, _, _, _, hf, hp⟩

/-- No result is in a queue for a coroutine that does not await a sender. -/
theorem Inv.waiter_ne {x : ℕ} {res : ℤ} (hf : s.frames f = some fr)
    (hp : ∀ op r a k, fr.point ≠ .sender op r a k) (hw : .waiter x res ∈ s.queue q) : x ≠ f := by
  rintro rfl
  obtain ⟨fr', op, a, k, hf', hp'⟩ := hi.waiter_frame hw
  obtain rfl := Option.some.inj (hf.symm.trans hf')
  exact hp op _ a k hp'

theorem Inv.waiter_ne_fresh {x : ℕ} {res : ℤ} (hw : .waiter x res ∈ s.queue q) : x ≠ s.nextFrame := by
  obtain ⟨fr, -, -, -, hf, -⟩ := hi.waiter_frame hw
  exact (hi.ne_of_fresh hf le_rfl).symm

/-- What is pending for a task is for its coroutine that awaits no other one. -/
theorem Pending.active {op : ℕ} {res : ℤ} (ht : s.Traced) (hf : s.frames f = some fr) (hc : fr.point.callee = none)
    (hp : s.Pending fr.root op res) : ∃ q, .waiter f res ∈ s.queue q := by
  obtain ⟨q, x, hw, ha⟩ := hp
  obtain ⟨xf, op', a, k, hx, hxp⟩ := hi.waiter_frame hw
  obtain ⟨hroot, -⟩ := Prod.mk.inj (Option.some.inj ((asked_of hx hxp).symm.trans ha))
  obtain rfl := ht.unique x xf f fr hx hf (by rw [hxp]; rfl) hc hroot
  exact ⟨q, hw⟩

theorem Matches.answers_none (ht : s.Traced) (h : s.Matches l) (hf : s.frames f = some fr)
    (hc : fr.point.callee = none) (hloc : ∀ q, loc f ≠ some (.queue q)) : l.answers fr.root = none := by
  cases ha : l.answers fr.root with
  | none => rfl
  | some x =>
    obtain ⟨q, hw⟩ := ((h.answers fr.root x.1 x.2).mp ha).active hi ht hf hc
    exact absurd rfl (hi.not_queued hloc q _ hw)

end

omit [DecidableEq ι] in
theorem Matches.knows (ht : s.Traced) (h : s.Matches l) (hf : s.frames f = some fr) : l.Knows fr.root := by
  rw [Ledger.Knows, h.spawned]
  exact ht.mem_spawned hf

/-! ## Calls -/

section

variable {s₁ : Machine ι V E} {e : Event ι V E} (hi : s.Inv loc) (ht : s.Traced) (h : s.Matches l)
include hi h

theorem goOn_matches {r : ι} {b : Body ι V E} (hf : s.OnThread r f fr b) (tr : List (Event ι V E)) (b' : Body ι V E) :
    (s.goOn f tr b').Matches l := by
  rw [goOn_eq hf.frame]
  exact h.congr rfl ⟨rfl, rfl⟩ rfl (pending_congr (fun _ _ => Iff.rfl) fun q x res hw =>
    asked_congr (Function.update_of_ne (hf.not_queued hi q _ hw) _ _))

include ht

/-- `co_spawn` and the members of `Task` do to the machine what they do to the ledger. -/
theorem Request.ledger (hr : s.Request e s₁) : s₁.log = s.log ∧ ∃ l', l.call e = some l' ∧ s₁.Matches l' := by
  refine ⟨by cases hr <;> rfl, ?_⟩
  have hheld : ∀ {t}, t ∈ s.tasks → t ∈ l.held := fun htask => h.held ▸ htask
  cases hr with
  | @spawn r b q rt hq hrt =>
    have hnew : ¬ l.Knows s.nextFrame := by
      rw [Ledger.Knows, h.spawned, List.mem_map]
      rintro ⟨x, hx, he⟩
      exact absurd (ht.numbers.2 x hx) (by omega)
    refine ⟨_, if_neg hnew, ?_⟩
    refine ⟨by rw [h.spawned], by rw [h.held], h.lost, fun t op res => (h.answers t op res).trans (Iff.symm ?_),
      fun t htask => ?_⟩
    · exact pending_congr (fun f res => waiters_put _ f res)
        (fun q x res hw => asked_congr (Function.update_of_ne (hi.waiter_ne_fresh hw) _ _)) t op res
    · rw [Ledger.Knows, List.map_append, List.mem_append]
      simp only [List.append_assoc, List.mem_append, List.mem_singleton] at htask
      rcases htask with htask | rfl | htask
      · exact .inl (h.known t (List.mem_append_left _ htask))
      · exact .inr List.mem_cons_self
      · exact .inl (h.known t (List.mem_append_right _ htask))
  | detach htask htf hst =>
    exact ⟨_, if_pos (hheld htask), h.take htask rfl ⟨rfl, rfl⟩ rfl
      (pending_congr (fun _ _ => Iff.rfl) fun _ x _ _ => asked_update htf rfl (by simp) x)⟩
  | wait htask htf hst =>
    exact ⟨_, if_pos (hheld htask), h.take htask rfl ⟨rfl, rfl⟩ rfl
      (pending_congr (fun _ _ => Iff.rfl) fun _ x _ _ => asked_update htf rfl (by simp) x)⟩
  | @collect t tf waited e htask htf hst hw =>
    have hne : ∀ {q x res}, .waiter x res ∈ s.queue q → x ≠ t := fun hw =>
      hi.waiter_ne htf (by simp [(hi.nowhere htf (.inl hst)).2]) hw
    have hmatch : Matches { s with
        frames := Function.update s.frames t none, tasks := s.tasks.erase t, taken := s.taken ++ [t]
        destroyed := s.destroyed ++ [t], waited } (l.take t) :=
      h.take htask rfl ⟨rfl, rfl⟩ rfl (pending_congr (fun _ _ => Iff.rfl) fun q x res hw =>
        asked_congr (Function.update_of_ne (hne hw) _ _))
    rcases hw with ⟨rfl | rfl, -⟩ | ⟨o, rfl, -, -⟩ <;> exact ⟨_, if_pos (hheld htask), hmatch⟩
  | gone htask htaken =>
    refine ⟨l, (if_neg (h.held ▸ htask)).trans (if_pos (h.known _ (List.mem_append_right _ htaken))), ?_⟩
    exact h.congr rfl ⟨rfl, rfl⟩ rfl (pending_congr (fun _ _ => Iff.rfl) fun _ _ _ _ => rfl)

/-- What a body does in going on. -/
theorem Goes.ledger {b b' : Body ι V E} {tr : List (Event ι V E)} {r : ι} (hf : s.OnThread r f fr b)
    (hg : s.Goes fr.root b tr s₁ b') :
    ∃ es l', s₁.log ++ tr.map (.body fr.root) = s.log ++ es ∧ run Ledger.step l es = some l' ∧ s₁.Matches l' := by
  have hknows := h.knows ht hf.frame
  have hcall : ∀ {e}, s.Request e s₁ → l.loses e = [] → ∃ es l',
      s₁.log ++ [.body fr.root e] = s.log ++ es ∧ run Ledger.step l es = some l' ∧ s₁.Matches l' := by
    intro e hr hl
    obtain ⟨hlog, l', hc, hmatch⟩ := hr.ledger hi ht h
    exact ⟨[.body fr.root e], l', by rw [hlog], by simp [run, Ledger.step_body hknows hc hl], hmatch⟩
  cases hg with
  | @sender op k res =>
    have hnone := h.answers_none hi ht hf.frame hf.rest.1 fun q => by simp [hf.spot hi]
    refine ⟨[.answer fr.root op res, .body fr.root (.sender op res)], l, ?_, Ledger.run_answered hknows hnone op res,
      h.congr rfl ⟨rfl, rfl⟩ rfl (pending_congr (fun _ _ => Iff.rfl) fun _ _ _ _ => rfl)⟩
    simp [note]
  | spawn hr | join _ _ hr | detach hr => exact hcall hr rfl
  | @refused t k htask htaken =>
    have hc : l.call (.refused t) = some l := if_pos ⟨h.known t (List.mem_append_right _ htaken), h.held ▸ htask⟩
    exact ⟨[.body fr.root (.refused t)], l, rfl, by simp [run, Ledger.step_body hknows hc rfl], h⟩
  | @waitGone t k htask htaken =>
    have hnot : t ∉ l.held := h.held ▸ htask
    have hc : l.call (.wait t) = some l := (if_neg hnot).trans (if_pos (h.known t (List.mem_append_right _ htaken)))
    exact ⟨[.body fr.root (.wait t)], l, rfl, by simp [run, Ledger.step_body hknows hc (if_neg hnot)], h⟩
  | @lose t k htask =>
    have hheld : t ∈ l.held := h.held ▸ htask
    have hmatch : (s.take t).Matches (l.take t) :=
      h.take htask rfl ⟨rfl, rfl⟩ rfl (pending_congr (fun _ _ => Iff.rfl) fun _ _ _ _ => rfl)
    refine ⟨[.body fr.root (.wait t)], { l.take t with lost := l.lost ++ [t] }, rfl, ?_, hmatch.spawned, hmatch.held,
      by rw [h.lost], hmatch.answers, hmatch.known⟩
    simp [run, Ledger.step, Ledger.call, Ledger.loses, hknows, hheld]
  | drop => exact ⟨[], l, by simp, rfl, h⟩

end

/-! ## Moves -/

/-- A result is put in a queue for a coroutine, for whose task no other one is there. -/
theorem wake_matches {op : ℕ} {r : ι} {a : SenderAwaiter} {k : ℤ → Body ι V E} {res : ℤ} (h : s.Matches l)
    (hnone : l.answers fr.root = none) (hf : s.frames f = some fr) (hp : fr.point = .sender op r a k)
    (hspawned : s'.spawned = s.spawned) (htasks : s'.tasks = s.tasks ∧ s'.taken = s.taken)
    (horphans : s'.orphans = s.orphans) (hframes : s'.frames = s.frames)
    (hqueue : s'.queue = Function.update s.queue q (s.queue q ++ [.waiter f res])) :
    s'.Matches { l with answers := Function.update l.answers fr.root (some (op, res)) } := by
  have hasked := asked_of hf hp
  have hsame : ∀ x, s'.asked x = s.asked x := fun x => asked_congr (by rw [hframes])
  refine ⟨h.spawned.trans hspawned.symm, h.held.trans htasks.1.symm, h.lost.trans horphans.symm, fun t op' res' => ?_,
    by rw [htasks.1, htasks.2]; exact h.known⟩
  -- What is pending is what was, and the result for `f`.
  have hpending : s'.Pending t op' res' ↔ s.Pending t op' res' ∨ t = fr.root ∧ op' = op ∧ res' = res := by
    constructor
    · rintro ⟨q', x, hw, hx⟩
      rw [hqueue] at hw
      rw [hsame] at hx
      rcases mem_update_append hw with hw | ⟨he, -⟩
      · exact .inl ⟨q', x, hw, hx⟩
      · obtain ⟨rfl, rfl⟩ := Work.waiter.inj he
        obtain ⟨rfl, rfl⟩ := Prod.mk.inj (Option.some.inj (hasked.symm.trans hx))
        exact .inr ⟨rfl, rfl, rfl⟩
    · rintro (⟨q', x, hw, hx⟩ | ⟨rfl, rfl, rfl⟩)
      · refine ⟨q', x, ?_, (hsame x).trans hx⟩
        rw [hqueue]
        rcases eq_or_ne q' q with rfl | hne
        · rw [Function.update_self]
          exact List.mem_append_left _ hw
        · rwa [Function.update_of_ne hne]
      · refine ⟨q, f, ?_, (hsame f).trans hasked⟩
        rw [hqueue, Function.update_self]
        exact List.mem_append_right _ List.mem_cons_self
  rw [hpending, ← h.answers]
  rcases eq_or_ne t fr.root with rfl | hne
  · simp [hnone, eq_comm]
  · simp [hne]

/-- The result in a queue is taken by its coroutine. -/
theorem complete_matches {op : ℕ} {r : ι} {a : SenderAwaiter} {k : ℤ → Body ι V E} {res : ℤ} {w : List Work}
    {fr' : Frame ι V E} (hi : s.Inv loc) (ht : s.Traced) (h : s.Matches l) (hf : s.frames f = some fr)
    (hp : fr.point = .sender op r a k) (hq : (s.queue q).Perm (.waiter f res :: w)) (hspawned : s'.spawned = s.spawned)
    (htasks : s'.tasks = s.tasks ∧ s'.taken = s.taken) (horphans : s'.orphans = s.orphans)
    (hframes : s'.frames = Function.update s.frames f (some fr')) (hqueue : s'.queue = Function.update s.queue q w) :
    s'.Matches { l with answers := Function.update l.answers fr.root none } := by
  have hasked := asked_of hf hp
  have halone : ∀ {q' x res'}, .waiter x res' ∈ s'.queue q' → .waiter x res' ∈ s.queue q' ∧ x ≠ f := fun hw =>
    hi.taken_alone hq _ _ (hqueue ▸ hw)
  have hsame : ∀ x, x ≠ f → s'.asked x = s.asked x := fun x hx =>
    asked_congr (by rw [hframes, Function.update_of_ne hx])
  refine ⟨h.spawned.trans hspawned.symm, h.held.trans htasks.1.symm, h.lost.trans horphans.symm, fun t op' res' => ?_,
    by rw [htasks.1, htasks.2]; exact h.known⟩
  -- What is pending is what was, but for the task of `f`.
  have hpending : s'.Pending t op' res' ↔ s.Pending t op' res' ∧ t ≠ fr.root := by
    constructor
    · rintro ⟨q', x, hw, hx⟩
      obtain ⟨hw, hne⟩ := halone hw
      rw [hsame x hne] at hx
      refine ⟨⟨q', x, hw, hx⟩, ?_⟩
      rintro rfl
      obtain ⟨xf, op'', a', k', hxf, hxp⟩ := hi.waiter_frame hw
      obtain ⟨hroot, -⟩ := Prod.mk.inj (Option.some.inj ((asked_of hxf hxp).symm.trans hx))
      exact hne (ht.unique x xf f fr hxf hf (by rw [hxp]; rfl) (by rw [hp]; rfl) hroot)
    · rintro ⟨⟨q', x, hw, hx⟩, hne⟩
      have hxf : x ≠ f := by
        rintro rfl
        exact hne (Prod.mk.inj (Option.some.inj (hx.symm.trans hasked))).1
      refine ⟨q', x, ?_, (hsame x hxf).trans hx⟩
      rw [hqueue]
      rcases eq_or_ne q' q with rfl | hqne
      · rw [Function.update_self]
        rcases List.mem_cons.mp (hq.subset hw) with he | hw
        · exact absurd (Work.waiter.inj he).1 hxf
        · exact hw
      · rwa [Function.update_of_ne hqne]
  rw [hpending, ← h.answers]
  rcases eq_or_ne t fr.root with rfl | hne
  · simp
  · simp [hne]

/-- A move writes a run of the ledger to the log. -/
theorem Move.ledger (hi : s.Inv loc) (ht : s.Traced) (h : s.Matches l) (hm : s.Move s') :
    ∃ es l', s'.log = s.log ++ es ∧ Lib.run Ledger.step l es = some l' ∧ s'.Matches l' := by
  -- A move that the ledger does not see: no handle is given away, and every result stays where it is.
  have hquiet : ∀ {u : Machine ι V E}, u.log = s.log → u.spawned = s.spawned → u.tasks = s.tasks ∧ u.taken = s.taken →
      u.orphans = s.orphans → (∀ f res, (∃ q, .waiter f res ∈ u.queue q) ↔ ∃ q, .waiter f res ∈ s.queue q) →
      (∀ q f res, .waiter f res ∈ s.queue q → u.frames f = s.frames f) →
      ∃ es l', u.log = s.log ++ es ∧ Lib.run Ledger.step l es = some l' ∧ u.Matches l' :=
    fun hlog hspawned htasks horphans hq hf => ⟨[], l, by rw [hlog, List.append_nil], rfl,
      h.congr hspawned htasks horphans (pending_congr hq fun q f res hw => asked_congr (hf q f res hw))⟩
  -- A coroutine that is on a thread is in no queue.
  have hthread : ∀ {r f fr b}, s.OnThread r f fr b → ∀ (a : Option (Frame ι V E)) (q : QueueId ι) (x : ℕ) (res : ℤ),
      .waiter x res ∈ s.queue q → Function.update s.frames f a x = s.frames x := fun hf a q x res hw =>
    Function.update_of_ne (hf.not_queued hi q _ hw) _ _
  cases hm with
  | halt | rts hrt => exact hquiet rfl rfl ⟨rfl, rfl⟩ rfl (fun _ _ => Iff.rfl) fun _ _ _ _ => rfl
  | run hc => exact hquiet rfl rfl ⟨rfl, rfl⟩ rfl (waiters_merge _) fun _ _ _ _ => rfl
  | @advance r f fr b b' tr s₁ hf hg =>
    obtain ⟨es, l', hlog, hrun, hmatch⟩ := hg.ledger hi ht h hf
    obtain ⟨loc₁, hi₁⟩ := hg.inv hi
    obtain ⟨st, u, hf₁⟩ := hg.onThread hi hf
    refine ⟨es, l', ?_, hrun, goOn_matches hi₁ hmatch hf₁ tr b'⟩
    rw [goOn_eq hf₁.frame, ← hlog]
  | @outside e s₁ hr =>
    obtain ⟨hlog, l', hc, hmatch⟩ := hr.ledger hi ht h
    refine ⟨[.outside e], l', by rw [note, hlog], by simp [Lib.run, Ledger.step, hc], ?_⟩
    exact hmatch.congr rfl ⟨rfl, rfl⟩ rfl (pending_congr (fun _ _ => Iff.rfl) fun _ _ _ _ => rfl)
  | awaitKernel hf hrt | awaitWaits hf hrt =>
    exact hquiet rfl rfl ⟨rfl, rfl⟩ rfl (fun _ _ => Iff.rfl) (hthread hf _)
  | @awaitTask r f t fr tf k rt hf hne htask htf hst hrt =>
    have hheld : t ∈ l.held := h.held ▸ htask
    refine ⟨[.body fr.root (.join t)], l.take t, rfl, ?_, ?_⟩
    · have hc : l.call (.join t) = some (l.take t) := if_pos hheld
      simp [Lib.run, Ledger.step_body (h.knows ht hf.frame) hc rfl]
    · refine h.take htask rfl ⟨rfl, rfl⟩ rfl (pending_congr (fun _ _ => Iff.rfl) fun q x res hw => ?_)
      -- First the frame of `f` changes, then that of `t`.
      have hfirst : asked { s with frames := Function.update s.frames f (some { fr with
          point := .task t r k, trace := fr.trace ++ [.join t] }) } x = s.asked x :=
        asked_congr (hthread hf _ q x res hw)
      rw [← hfirst]
      exact asked_update ((Function.update_of_ne hne _ _).trans htf) rfl (by simp) x
  | switch hf hq hrt => exact hquiet rfl rfl ⟨rfl, rfl⟩ rfl (waiters_put _) (hthread hf _)
  | @call r f fr callee k rt hf hrt =>
    refine hquiet rfl rfl ⟨rfl, rfl⟩ rfl (fun _ _ => Iff.rfl) fun q x res hw => ?_
    exact (Function.update_of_ne (hi.waiter_ne_fresh hw) _ _).trans (hthread hf _ q x res hw)
  | @callReturn r g c gf cf b callee o k rt hg ho hst hu hc hp hrt =>
    refine hquiet rfl rfl ⟨rfl, rfl⟩ rfl (fun _ _ => Iff.rfl) fun q x res hw => ?_
    exact (Function.update_of_ne (hi.waiter_ne hc (by simp [hp]) hw) _ _).trans (hthread hg _ q x res hw)
  | endZombie hf ho hst hrt => exact hquiet rfl rfl ⟨rfl, rfl⟩ rfl (fun _ _ => Iff.rfl) (hthread hf _)
  | endDetached hf ho hst hrt => exact hquiet rfl rfl ⟨rfl, rfl⟩ rfl (fun _ _ => Iff.rfl) (hthread hf _)
  | endJoined hf ho hst hu hq hrt => exact hquiet rfl rfl ⟨rfl, rfl⟩ rfl (waiters_put _) (hthread hf _)
  | endWaited hf ho hst hu hrt => exact hquiet rfl rfl ⟨rfl, rfl⟩ rfl (fun _ _ => Iff.rfl) (hthread hf _)
  | start hr hf hp hq hrt =>
    refine hquiet rfl rfl ⟨rfl, rfl⟩ rfl (waiters_take hq) fun q x res hw => ?_
    exact Function.update_of_ne (hi.waiter_ne hf (by rcases hp with hp | hp <;> simp [hp]) hw) _ _
  | @completeKernel r f fr op a k res w rt hr hf hp hq hrt =>
    have hloc : loc f = some .kernel := hi.loc_kernel (hq.symm.subset List.mem_cons_self)
    have hnone := h.answers_none hi ht hf (by rw [hp]; rfl) fun q => by simp [hloc]
    refine ⟨_, l, rfl, Ledger.run_answered (h.knows ht hf) hnone op res, h.congr rfl ⟨rfl, rfl⟩ rfl
      (pending_congr (fun _ _ => Iff.rfl) fun q x res hw => asked_congr (Function.update_of_ne ?_ _ _))⟩
    exact hi.not_queued (fun q => by simp [hloc]) q _ hw
  | @completeWaiter r f fr op a k res q w rt hr hf hp hq hrt =>
    have hans : l.answers fr.root = some (op, res) :=
      (h.answers _ _ _).mpr ⟨q, f, hq.symm.subset List.mem_cons_self, asked_of hf hp⟩
    exact ⟨_, _, rfl, by simp [Lib.run, Ledger.step, hans],
      complete_matches hi ht h hf hp hq rfl ⟨rfl, rfl⟩ rfl rfl rfl⟩
  | @resumeTask r f t fr tf k o q w rt hr hf hp htf hst ho hq hrt =>
    refine hquiet rfl rfl ⟨rfl, rfl⟩ rfl (waiters_take hq) fun q x res hw => ?_
    have hfin := (hi.nowhere htf (.inr hst)).2
    exact (Function.update_of_ne (hi.waiter_ne hf (by simp [hp]) hw) _ _).trans
      (Function.update_of_ne (hi.waiter_ne htf (by simp [hfin]) hw) _ _)
  | @wake r f fr op a k w q res rt hf hp hw hq hrt =>
    have hloc : loc f = some .waits := hi.loc_waits (hw.symm.subset List.mem_cons_self)
    have hnone := h.answers_none hi ht hf (by rw [hp]; rfl) fun q => by simp [hloc]
    exact ⟨_, _, rfl, by simp [Lib.run, Ledger.step, h.knows ht hf, hnone],
      wake_matches h hnone hf hp rfl ⟨rfl, rfl⟩ rfl rfl rfl⟩
  | waitReturn htask htf hst ho =>
    refine hquiet rfl rfl ⟨rfl, rfl⟩ rfl (fun _ _ => Iff.rfl) fun q x res hw => ?_
    exact Function.update_of_ne (hi.waiter_ne htf (by simp [(hi.nowhere htf (.inr hst)).2]) hw) _ _

end Machine

end Condy.Coro
