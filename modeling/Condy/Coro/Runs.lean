import Condy.Coro.Account

/-!
# Condy.Coro.Runs — what holds in every run

Whatever the runtimes, the threads and the senders do, and in whatever order: a coroutine is at one spot and is resumed
from there only (`one_spot`), its frame has one holder and is destroyed once (`one_holder`), a task does and returns
what its body says as plain code (`plain_code`), and the library panics for the reasons of `Panics` only
(`panics_for_reason`).
-/

namespace Condy.Coro

open Lib PromiseState

variable {ι V E : Type} [DecidableEq ι]

namespace Machine

variable {s s' : Machine ι V E} {loc : ℕ → Option (Spot ι)}

/-! ## Books -/

/-- What the machine has noted of frames and tasks is so. -/
structure Books (s : Machine ι V E) : Prop where
  nodup : s.destroyed.Nodup
  destroyed : ∀ f, f ∈ s.destroyed ↔ f < s.nextFrame ∧ s.frames f = none
  handles : ∀ x ∈ s.spawned, x.1 ∈ s.tasks ∨ x.1 ∈ s.taken

omit [DecidableEq ι] in
theorem init_books : (init : Machine ι V E).Books := by
  constructor <;> simp [init]

omit [DecidableEq ι] in
theorem Books.keep (h : s.Books) (hd : s'.destroyed = s.destroyed) (hn : s'.nextFrame = s.nextFrame)
    (hf : ∀ x, s'.frames x = none ↔ s.frames x = none)
    (hh : ∀ x ∈ s'.spawned, x.1 ∈ s'.tasks ∨ x.1 ∈ s'.taken) : s'.Books :=
  ⟨hd ▸ h.nodup, fun f => by rw [hd, hn, hf, h.destroyed], hh⟩

omit [DecidableEq ι] in
/-- The frame `g` is destroyed. -/
theorem Books.destroy (h : s.Books) {g : ℕ} {gf : Frame ι V E} (hg : s.frames g = some gf) (hlt : g < s.nextFrame)
    (hd : s'.destroyed = s.destroyed ++ [g]) (hn : s'.nextFrame = s.nextFrame)
    (hf : ∀ x, s'.frames x = none ↔ x = g ∨ s.frames x = none)
    (hh : ∀ x ∈ s'.spawned, x.1 ∈ s'.tasks ∨ x.1 ∈ s'.taken) : s'.Books := by
  refine ⟨?_, fun f => ?_, hh⟩
  · rw [hd]
    refine nodup_snoc h.nodup fun hx => ?_
    have := ((h.destroyed g).mp hx).2
    rw [hg] at this
    cases this
  · rw [hd, hn, hf, List.mem_append, List.mem_singleton, h.destroyed]
    constructor
    · rintro (⟨h1, h2⟩ | rfl)
      · exact ⟨h1, .inr h2⟩
      · exact ⟨hlt, .inl rfl⟩
    · rintro ⟨h1, rfl | h2⟩
      · exact .inr rfl
      · exact .inl ⟨h1, h2⟩

omit [DecidableEq ι] in
/-- A frame is made. -/
theorem Books.create (h : s.Books) (hd : s'.destroyed = s.destroyed) (hn : s'.nextFrame = s.nextFrame + 1)
    (hf : ∀ x, s'.frames x = none ↔ x ≠ s.nextFrame ∧ s.frames x = none)
    (hh : ∀ x ∈ s'.spawned, x.1 ∈ s'.tasks ∨ x.1 ∈ s'.taken) : s'.Books := by
  refine ⟨hd ▸ h.nodup, fun f => ?_, hh⟩
  rw [hd, hn, hf, h.destroyed]
  constructor
  · rintro ⟨h1, h2⟩
    exact ⟨by omega, by omega, h2⟩
  · rintro ⟨h1, h2, h3⟩
    exact ⟨by omega, h3⟩

theorem update_eq_none {α : Type} {m : ℕ → Option α} {f x : ℕ} {a : Option α} :
    Function.update m f a x = none ↔ x = f ∧ a = none ∨ x ≠ f ∧ m x = none := by
  rcases eq_or_ne x f with rfl | hx
  · simp
  · simp [hx]

theorem update_some_keeps {α : Type} {m : ℕ → Option α} {f : ℕ} {a b : α} (hf : m f = some b) (x : ℕ) :
    Function.update m f (some a) x = none ↔ m x = none := by
  rw [update_eq_none]
  rcases eq_or_ne x f with rfl | hx
  · simp [hf]
  · simp [hx]

theorem update_none_iff {α : Type} {m : ℕ → Option α} {g x : ℕ} :
    Function.update m g none x = none ↔ x = g ∨ m x = none := by
  rw [update_eq_none]
  rcases eq_or_ne x g with rfl | hx
  · simp
  · simp [hx]

section

variable (hi : s.Inv loc) (h : s.Books)

include hi in
theorem Inv.lt_next {f : ℕ} {fr : Frame ι V E} (hf : s.frames f = some fr) : f < s.nextFrame := by
  by_contra hge
  cases (hi.fresh f (not_lt.mp hge)).symm.trans hf

include h

omit [DecidableEq ι] in
/-- A task that gives up its handle is one that was taken. -/
theorem Books.take (t : ℕ) : ∀ x ∈ s.spawned, x.1 ∈ s.tasks.erase t ∨ x.1 ∈ s.taken ++ [t] := by
  intro x hx
  rcases eq_or_ne x.1 t with he | hne
  · exact .inr (List.mem_append_right _ (List.mem_singleton.mpr he))
  · exact (h.handles x hx).imp (fun hm => (List.mem_erase_of_ne hne).mpr hm) fun hm => List.mem_append_left _ hm

include hi

theorem Request.books {e : Event ι V E} (hr : s.Request e s') : s'.Books := by
  cases hr with
  | spawn hq hrt =>
    refine h.create rfl rfl (fun x => update_eq_none.trans ?_) fun x hx => ?_
    · simp
    · rcases List.mem_append.mp hx with hx | hx
      · exact (h.handles x hx).imp_left fun hm => List.mem_append_left _ hm
      · rw [List.mem_singleton] at hx
        exact .inl (List.mem_append_right _ (by rw [hx]; exact List.mem_cons_self))
  | detach ht htf hst | wait ht htf hst => exact h.keep rfl rfl (update_some_keeps htf) (h.take _)
  | collect ht htf hst hw =>
    exact h.destroy htf (hi.lt_next htf) rfl rfl (fun _ => update_none_iff) (h.take _)
  | gone ht hk => exact h.keep rfl rfl (fun _ => Iff.rfl) h.handles

theorem Goes.books {root : ℕ} {b b' : Body ι V E} {l : List (Event ι V E)} (hg : s.Goes root b l s' b') : s'.Books := by
  cases hg with
  | spawn hr | join _ _ hr | detach hr => exact hr.books hi h
  | lose ht => exact h.keep rfl rfl (fun _ => Iff.rfl) (h.take _)
  | sender | refused | waitGone | drop => exact h.keep rfl rfl (fun _ => Iff.rfl) h.handles

theorem Move.books (hm : s.Move s') : s'.Books := by
  cases hm with
  | halt | rts hrt | run hc | wake hf hp hw hq hrt => exact h.keep rfl rfl (fun _ => Iff.rfl) h.handles
  | advance hf hg =>
    have h₁ := hg.books hi h
    obtain ⟨st, u, hf₁⟩ := hg.onThread hi hf
    rw [goOn_eq hf₁.frame]
    exact h₁.keep rfl rfl (update_some_keeps hf₁.frame) h₁.handles
  | outside hr =>
    have h₁ := hr.books hi h
    exact h₁.keep rfl rfl (fun _ => Iff.rfl) h₁.handles
  | awaitKernel hf hrt | awaitWaits hf hrt | switch hf hq hrt =>
    exact h.keep rfl rfl (update_some_keeps hf.frame) h.handles
  | awaitTask hf hne ht htf hst hrt =>
    refine h.keep rfl rfl (fun x => ?_) (h.take _)
    exact (update_some_keeps ((Function.update_of_ne hne _ _).trans htf) x).trans (update_some_keeps hf.frame x)
  | call hf hrt =>
    refine h.create rfl rfl (fun x => ?_) h.handles
    refine update_eq_none.trans ?_
    rw [update_some_keeps hf.frame]
    simp
  | @callReturn r g c gf cf b callee o k rt hg ho hst hu hc hp hrt =>
    refine h.destroy hg.frame (hi.lt_next hg.frame) rfl rfl (fun x => ?_) h.handles
    have hne : c ≠ g := by
      rintro rfl
      obtain rfl := Option.some.inj (hg.frame.symm.trans hc)
      cases hg.point.symm.trans hp
    exact (update_some_keeps ((Function.update_of_ne hne _ _).trans hc) x).trans update_none_iff
  | endZombie hf ho hst hrt => exact h.keep rfl rfl (update_some_keeps hf.frame) h.handles
  | endJoined hf ho hst hu hq hrt => exact h.keep rfl rfl (update_some_keeps hf.frame) h.handles
  | endWaited hf ho hst hu hrt => exact h.keep rfl rfl (update_some_keeps hf.frame) h.handles
  | endDetached hf ho hst hrt =>
    exact h.destroy hf.frame (hi.lt_next hf.frame) rfl rfl (fun _ => update_none_iff) h.handles
  | start hr hf hp hq hrt => exact h.keep rfl rfl (update_some_keeps hf) h.handles
  | completeKernel hr hf hp hq hrt => exact h.keep rfl rfl (update_some_keeps hf) h.handles
  | completeWaiter hr hf hp hq hrt => exact h.keep rfl rfl (update_some_keeps hf) h.handles
  | @resumeTask r f t fr tf k o q l rt hr hf hp htf hst ho hq hrt =>
    refine h.destroy htf (hi.lt_next htf) rfl rfl (fun x => ?_) h.handles
    have hne : f ≠ t := by
      rintro rfl
      obtain rfl := Option.some.inj (hf.symm.trans htf)
      cases hp.symm.trans (hi.nowhere htf (.inr hst)).2
    exact (update_some_keeps ((Function.update_of_ne hne _ _).trans hf) x).trans update_none_iff
  | waitReturn htask htf hst ho =>
    exact h.destroy htf (hi.lt_next htf) rfl rfl (fun _ => update_none_iff) h.handles

end

/-! ## Results of `wait()` -/

section

variable (ht : s.Traced) {x : ℕ × Outcome V E}
include ht

theorem Request.waited {e : Event ι V E} (hr : s.Request e s') (hx : x ∈ s'.waited) :
    x ∈ s.waited ∨ x ∈ s.ended ∨ ∃ t, e = .wait t ∧ x = (t, .error .notJoinable) ∧ t ∉ s.tasks := by
  cases hr with
  | spawn | detach | wait => exact .inl hx
  | @collect t tf waited e htask htf hst hw =>
    rcases hw with ⟨-, rfl⟩ | ⟨o, -, ho, rfl⟩
    · exact .inl hx
    · refine (List.mem_append.mp hx).imp_right fun hx => .inl ?_
      rw [List.mem_singleton.mp hx]
      exact (ht.frames t tf htf).result o ho
  | gone htask hk =>
    exact (List.mem_append.mp hx).imp_right fun hx => .inr ⟨_, rfl, List.mem_singleton.mp hx, htask⟩

/-- What a `wait()` has given is what the task ended with, but for one that finds the handle gone. -/
theorem Move.waited (hi : s.Inv loc) (hm : s.Move s') (hx : x ∈ s'.waited) : x ∈ s.waited ∨ x ∈ s'.ended ∨
    ∃ t, s'.log = s.log ++ [.outside (.wait t)] ∧ x = (t, .error .notJoinable) ∧ t ∉ s.tasks := by
  cases hm with
  | @advance r f fr b b' l s₁ hf hg =>
    obtain ⟨st, u, hf₁⟩ := hg.onThread hi hf
    have hended := (hg.traced hi ht).2
    rw [goOn_eq hf₁.frame] at hx ⊢
    have hreq : ∀ {e}, s.Request e s₁ → (∀ t, e ≠ .wait t) → x ∈ s.waited ∨ x ∈ s₁.ended := fun hr he => by
      rcases hr.waited ht hx with hx | hx | ⟨t, hw, -⟩
      · exact .inl hx
      · exact .inr (hended ▸ hx)
      · exact absurd hw (he t)
    refine or_assoc.mp (.inl ?_)
    cases hg with
    | spawn hr | join _ _ hr | detach hr => exact hreq hr (by simp)
    | sender | lose | refused | waitGone | drop => exact .inl hx
  | @outside e s₁ hr =>
    have hkeep : s₁.ended = s.ended ∧ s₁.log = s.log := by cases hr <;> exact ⟨rfl, rfl⟩
    refine (hr.waited ht hx).imp_right (Or.imp (fun hx => hkeep.1 ▸ hx) ?_)
    rintro ⟨t, rfl, hxt⟩
    exact ⟨t, by rw [note, hkeep.2], hxt⟩
  | @waitReturn t tf o htask htf hst ho =>
    refine (List.mem_append.mp hx).imp_right fun hx => .inl ?_
    rw [List.mem_singleton.mp hx]
    exact (ht.frames t tf htf).result o ho
  | _ => exact .inl hx

end

theorem Move.ended_subset (hi : s.Inv loc) (ht : s.Traced) (hm : s.Move s') : s.ended ⊆ s'.ended := by
  cases hm with
  | advance hf hg =>
    obtain ⟨st, u, hf₁⟩ := hg.onThread hi hf
    rw [goOn_eq hf₁.frame, ← (hg.traced hi ht).2]
    exact List.Subset.refl _
  | outside hr => cases hr <;> exact List.Subset.refl _
  | endZombie | endDetached | endJoined | endWaited => exact List.subset_append_left _ _
  | _ => exact List.Subset.refl _

theorem Move.spawned_subset (hi : s.Inv loc) (hm : s.Move s') : s.spawned ⊆ s'.spawned := by
  have hreq : ∀ {e s₁}, s.Request e s₁ → s.spawned ⊆ s₁.spawned := fun hr => by cases hr <;> simp
  cases hm with
  | advance hf hg =>
    obtain ⟨st, u, hf₁⟩ := hg.onThread hi hf
    rw [goOn_eq hf₁.frame]
    cases hg with
    | spawn hr | join _ _ hr | detach hr =>
      have hsub := hreq hr
      exact hsub
    | _ => exact List.Subset.refl _
  | outside hr =>
    have hsub := hreq hr
    exact hsub
  | _ => exact List.Subset.refl _

/-! ## Runs -/

/-- What every step preserves. -/
structure Sound (s : Machine ι V E) : Prop where
  inv : ∃ loc, s.Inv loc
  traced : s.Traced
  books : s.Books
  ledger : ∃ l, Lib.run Ledger.step .empty s.log = some l ∧ s.Matches l
  waited : ∀ t o, (t, o) ∈ s.waited → (t, o) ∈ s.ended ∨ o = .error .notJoinable ∧ Ledger.Refuses s.log t

theorem init_sound : (init : Machine ι V E).Sound :=
  ⟨⟨_, init_inv⟩, init_traced, init_books, ⟨_, rfl, init_matches⟩, fun _ _ ho => absurd ho List.not_mem_nil⟩

theorem Move.sound (h : s.Sound) (hm : s.Move s') : s'.Sound := by
  obtain ⟨loc, hi⟩ := h.inv
  obtain ⟨l, hl, hmatch⟩ := h.ledger
  obtain ⟨es, l', hlog, hrun, hmatch'⟩ := hm.ledger hi h.traced hmatch
  refine ⟨hm.inv hi, hm.traced hi h.traced, hm.books hi h.books, ⟨l', ?ledger, hmatch'⟩, fun t o ho => ?waited⟩
  case ledger =>
    rw [hlog, run_append, hl]
    exact hrun
  case waited =>
    rcases hm.waited h.traced hi ho with ho | ho | ⟨t', hnote, heq, htask⟩
    · refine (h.waited t o ho).imp (fun hx => hm.ended_subset hi h.traced hx) (And.imp_right fun hr => ?_)
      rw [hlog]
      exact hr.append es
    · exact .inl ho
    · obtain ⟨rfl, rfl⟩ := Prod.mk.inj heq
      exact .inr ⟨rfl, s.log, [], l, hnote, hl, hmatch.held ▸ htask⟩

theorem step_sound {op : Op ι V E} (h : s.Sound) (hs : s.step op = some s') : s'.Sound := by
  obtain ⟨loc, hi⟩ := h.inv
  have hhalt : Sound { s with panicked := s'.panicked } := Move.sound h .halt
  exact (step_reaches hi hs).move.sound hhalt

theorem step_spawned_subset {op : Op ι V E} (h : s.Sound) (hs : s.step op = some s') : s.spawned ⊆ s'.spawned := by
  obtain ⟨loc, hi⟩ := h.inv
  have hsub := (step_reaches hi hs).move.spawned_subset (hi.halt s'.panicked)
  exact hsub

theorem run_sound {ops : List (Op ι V E)} (hrun : run step init ops = some s) : s.Sound :=
  run_inv (fun _ _ _ h hs => step_sound h hs) ops init_sound hrun

/-- What was done to the coroutines is what the steps of the run have done to them. -/
theorem run_heard {ops : List (Op ι V E)} (hrun : run step init ops = some s) : s.heard = outputs step given init ops := by
  have hinit : (init : Machine ι V E).Sound ∧ (init : Machine ι V E).heard = [] := ⟨init_sound, rfl⟩
  refine (run_inv_outputs (P := fun g u => u.Sound ∧ u.heard = g) ?_ ops hinit hrun).2
  rintro g u op u' ⟨h, rfl⟩ hs
  obtain ⟨loc, hi⟩ := h.inv
  exact ⟨step_sound h hs, (step_reaches hi hs).heard⟩

/-- What a run has done, by the meaning of the bodies and by the ledger.  The log is what the threads outside and the
senders did in the run (`heard`), and what the bodies did in turn, as the ledger allows it (`ledger`); a task does what its
body does as plain code, with these results, and ends with what that code ends with, and with nothing else. -/
structure Account (ops : List (Op ι V E)) (s : Machine ι V E) : Prop where
  heard : s.heard = outputs step given init ops
  ledger : ∃ l, Lib.run Ledger.step .empty s.log = some l ∧ l.spawned = s.spawned ∧ l.held = s.tasks ∧ l.lost = s.orphans
  once : (s.spawned.map Prod.fst).Nodup ∧ (s.ended.map Prod.fst).Nodup
  doing : ∀ t b, (t, b) ∈ s.spawned → Evals s.ended b (s.eventsOf t) none
  /-- The tasks that it has awaited have ended before. -/
  ended : ∀ pre t o post, s.ended = pre ++ (t, o) :: post →
    ∃ b, (t, b) ∈ s.spawned ∧ ∀ o', Evals pre b (s.eventsOf t) (some o') ↔ o' = o
  waited : ∀ t o, (t, o) ∈ s.waited → (t, o) ∈ s.ended ∨ o = .error .notJoinable ∧ Ledger.Refuses s.log t

omit [DecidableEq ι] in
/-- Plain code has one end, for what it does and with what the tasks it awaits have ended with. -/
theorem Traced.evals_iff (h : s.Traced) {pre : List (ℕ × Outcome V E)} (hpre : pre ⊆ s.ended) {b : Body ι V E}
    {tr : List (Event ι V E)} {o : Outcome V E} (he : Evals pre b tr (some o)) (o' : Outcome V E) :
    Evals pre b tr (some o') ↔ o' = o := by
  constructor
  · intro he'
    have hone : ∀ t x y, (t, x) ∈ pre → (t, y) ∈ pre → x = y := fun t x y hx hy =>
      h.ended_unique (hpre hx) (hpre hy)
    exact (Evals.unique_end hone he' rfl he (rfl : tr ++ [] = tr ++ [])).2
  · rintro rfl
    exact he

theorem run_account {ops : List (Op ι V E)} (hrun : run step init ops = some s) : Account ops s := by
  have h := run_sound hrun
  obtain ⟨loc, hi⟩ := h.inv
  obtain ⟨l, hl, hmatch⟩ := h.ledger
  refine ⟨run_heard hrun, ⟨l, hl, hmatch.spawned, hmatch.held, hmatch.lost⟩, ⟨h.traced.numbers.1, h.traced.once⟩,
    fun t b hb => h.traced.doing hi.fresh hb, fun pre t o post heq => ?_, h.waited⟩
  obtain ⟨b, hb, he⟩ := h.traced.ended pre t o post heq
  exact ⟨b, hb, h.traced.evals_iff (heq ▸ List.subset_append_left _ _) he⟩

/-- A program that spawns a task, calls a coroutine and then awaits the task, on one runtime; and its run up to the end of
both. -/
def sumBody : Body Unit ℤ ℕ :=
  .spawn () (.sender 1 .coReturn) fun t => .call (.sender 2 .coReturn) fun o => .join t fun o' =>
    match o, o' with
    | .ok y, .ok x => .coReturn (x + y)
    | _, _ => .throw (.user 0)

def sumOps : List (Op Unit ℤ ℕ) :=
  [.coSpawn () sumBody, .allowExit (), .run (), .pop (), .exec () .kernel, .exec () .kernel, .exec () .kernel, .pop (),
    .exec () .kernel, .complete () 0 4, .exec () .kernel, .exec () .kernel, .complete () 0 3, .exec () .kernel, .pop (),
    .exec () .kernel]

/-- A coroutine is never resumed twice, on two threads, or when it is gone: no handle is used wrongly, every coroutine
that is not at its end and awaits no other one is at one spot, the one its suspension point says, and a destroyed one is
at none. -/
theorem one_spot (ops : List (Op ι V E)) (hrun : run step init ops = some s) : s.fault = false ∧
    ∃ loc, Located s.contents loc ∧ (∀ f fr, s.frames f = some fr → fr.point.Fits f (loc f)) ∧
      ∀ f, s.frames f = none → loc f = none := by
  obtain ⟨loc, hi⟩ := (run_sound hrun).inv
  exact ⟨hi.sound, loc, hi.located, fun f fr hf => (hi.shape f fr hf).place, hi.gone⟩

/-- Both senders are under way: the first coroutine awaits its callee and is at no spot. -/
theorem one_spot_sum : ∃ s, run step init (sumOps.take 9) = some s ∧ s.contents .kernel = [2, 1] ∧ s.fault = false ∧
    ∃ loc, Located s.contents loc ∧ (∀ f fr, s.frames f = some fr → fr.point.Fits f (loc f)) ∧
      ∀ f, s.frames f = none → loc f = none :=
  ⟨_, rfl, rfl, one_spot (sumOps.take 9) rfl⟩

/-- Who has a frame that is not destroyed: its own coroutine, which was detached; a task; a thread in `wait()`; or a
coroutine that called it or awaits it.  A handle that a `wait()` in a coroutine has lost is in `orphans`. -/
theorem Inv.held {f : ℕ} {fr : Frame ι V E} (hi : s.Inv loc) (hf : s.frames f = some fr) :
    fr.state = .runningDetached ∨ f ∈ s.tasks ∨ f ∈ s.waiters ∨
      (∃ c cf, s.frames c = some cf ∧ (cf.point.callee = some f ∨ cf.point.target = some f)) ∨ f ∈ s.orphans := by
  by_cases hst : fr.state = .runningDetached
  · exact .inl hst
  refine .inr ?_
  obtain ⟨p, hp⟩ := Option.isSome_iff_exists.mp ((hi.shape f fr hf).owner hst)
  have hmem : f ∈ s.holdings p := hi.owned.mem_iff.mpr (by rw [ownerOf, hf, Option.bind_some, hp])
  cases p with
  | handle => exact (List.mem_append.mp hmem).imp id fun hm => .inr (.inr hm)
  | thread => exact .inr (.inl hmem)
  | caller c =>
    simp only [holdings, Option.mem_toList, Option.bind_eq_some_iff] at hmem
    obtain ⟨cf, hcf, hc⟩ := hmem
    exact .inr (.inr (.inl ⟨c, cf, hcf, .inl hc⟩))
  | joiner c =>
    simp only [holdings, Option.mem_toList, Option.bind_eq_some_iff] at hmem
    obtain ⟨cf, hcf, hc⟩ := hmem
    exact .inr (.inr (.inl ⟨c, cf, hcf, .inr hc⟩))

/-- A frame is destroyed once, and has one holder until then, which will destroy it, or belongs to a detached coroutine,
which destroys itself.  It is lost in one way only: its handle was moved out of the task by a `wait()` in a coroutine,
that is on the thread of a runtime, which then throws. -/
theorem one_holder (ops : List (Op ι V E)) (hrun : run step init ops = some s) : s.destroyed.Nodup ∧
    (∀ f, f ∈ s.destroyed ↔ f < s.nextFrame ∧ s.frames f = none) ∧ Located s.holdings s.ownerOf ∧
    (∀ f fr, s.frames f = some fr → fr.state = .runningDetached ∨ f ∈ s.tasks ∨ f ∈ s.waiters ∨
      (∃ c cf, s.frames c = some cf ∧ (cf.point.callee = some f ∨ cf.point.target = some f)) ∨ f ∈ s.orphans) ∧
    (∃ l, Lib.run Ledger.step .empty s.log = some l ∧ l.held = s.tasks ∧ l.lost = s.orphans) ∧
    ∀ t ∈ s.orphans, ∃ u, .body u (.wait t) ∈ s.log := by
  have h := run_sound hrun
  obtain ⟨loc, hi⟩ := h.inv
  obtain ⟨l, hl, hmatch⟩ := h.ledger
  exact ⟨h.books.nodup, h.books.destroyed, hi.owned, fun f fr hf => hi.held hf, ⟨l, hl, hmatch.held, hmatch.lost⟩,
    hmatch.lost ▸ Ledger.lost_wait hl⟩

/-- A coroutine spawns a task, asks for its result with `wait()`, and ends. -/
def loseBody : Body Unit ℤ ℕ :=
  .spawn () (.coReturn 5) fun t => .wait t fun o => match o with
    | .ok v => .coReturn v
    | .error e => .throw e

def loseOps : List (Op Unit ℤ ℕ) :=
  [.coSpawn () loseBody, .run (), .pop (), .exec () .kernel, .exec () .kernel, .exec () .kernel, .pop (),
    .exec () .kernel]

/-- The frame of the second task is left when both have ended, and nobody can destroy it. -/
theorem one_holder_lost : ∃ s, run step init loseOps = some s ∧ s.destroyed = [] ∧ s.tasks = [0] ∧ s.orphans = [1] ∧
    s.ended = [(0, .error .insideRuntime), (1, .ok 5)] ∧ s.destroyed.Nodup ∧
    (∀ f, f ∈ s.destroyed ↔ f < s.nextFrame ∧ s.frames f = none) ∧ Located s.holdings s.ownerOf ∧
    (∀ f fr, s.frames f = some fr → fr.state = .runningDetached ∨ f ∈ s.tasks ∨ f ∈ s.waiters ∨
      (∃ c cf, s.frames c = some cf ∧ (cf.point.callee = some f ∨ cf.point.target = some f)) ∨ f ∈ s.orphans) ∧
    (∃ l, Lib.run Ledger.step .empty s.log = some l ∧ l.held = s.tasks ∧ l.lost = s.orphans) ∧
    ∀ t ∈ s.orphans, ∃ u, .body u (.wait t) ∈ s.log :=
  ⟨_, rfl, rfl, rfl, rfl, rfl, one_holder loseOps rfl⟩

/-- A task does what its body does as plain code, whoever else runs, and returns or throws what that code returns or
throws, with the results that its senders completed with and the tasks it has awaited ended with.  A `co_await` that
throws for a task without a handle is one where the handle was gone. -/
theorem plain_code (ops : List (Op ι V E)) (hrun : run step init ops = some s) : Account ops s := run_account hrun

theorem plain_code_sum : ∃ s, run step init sumOps = some s ∧ s.ended = [(1, .ok 3), (0, .ok 7)] ∧
    s.eventsOf 0 = [.spawn 1 (.sender 1 .coReturn), .sender 2 4, .join 1] ∧ Account sumOps s :=
  ⟨_, rfl, rfl, rfl, plain_code sumOps rfl⟩

end Machine

end Condy.Coro
