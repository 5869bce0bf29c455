import Condy.Coro.Move

/-!
# Condy.Coro.MoveInv — every move keeps the invariant

One lemma for each kind of move, by the rules of `Condy.Coro.Move`; `Move.inv` puts them together.
-/

namespace Condy.Coro

open Lib PromiseState

variable {ι V E : Type} [DecidableEq ι]

namespace Machine

variable {s s' : Machine ι V E} {loc loc' : ℕ → Option (Spot ι)} {f : ℕ} {fr : Frame ι V E} {r : ι} {q : QueueId ι}

/-! ## Moves that touch one frame -/

section

variable (h : s.Inv loc) {rt : ι → Rt}
include h

theorem OnThread.spot {b : Body ι V E} (hf : s.OnThread r f fr b) : loc f = some (.thread r) := h.loc_thread hf.control

omit h [DecidableEq ι] in
theorem OnThread.plain {b : Body ι V E} (hf : s.OnThread r f fr b) :
    fr.point.callee = none ∧ fr.point.target = none ∧ fr.point.isFinal = false := by
  rw [hf.point]
  exact ⟨rfl, rfl, rfl⟩

theorem OnThread.not_pended {b : Body ι V E} (hf : s.OnThread r f fr b) (r' : ι) : (r', f) ∉ s.pended :=
  h.not_pended hf.frame (by rw [hf.point]; rfl) r'

theorem OnThread.not_queued {b : Body ι V E} (hf : s.OnThread r f fr b) (q : QueueId ι) (w : Work)
    (hw : w ∈ s.queue q) : w.frame ≠ f := h.not_queued (fun q => by rw [hf.spot h]; simp) q w hw

theorem OnThread.not_sent {b : Body ι V E} (hf : s.OnThread r f fr b) (x : ι × ℕ) (hx : x ∈ s.kernel ++ s.waits) :
    x.2 ≠ f := h.not_sent (by rw [hf.spot h]; simp) (by rw [hf.spot h]; simp) x hx

omit h [DecidableEq ι] in
theorem goOn_eq (hf : s.frames f = some fr) (l : List (Event ι V E)) (b : Body ι V E) : s.goOn f l b = { s with
    frames := Function.update s.frames f (some { fr with point := .running b, trace := fr.trace ++ l })
    log := s.log ++ l.map (.body fr.root) } := by
  simp only [goOn, hf]
  rfl

theorem goOn_inv {b : Body ι V E} (hf : s.OnThread r f fr b) (l : List (Event ι V E)) (b' : Body ι V E) :
    Inv (s.goOn f l b') loc := by
  rw [goOn_eq hf.frame]
  have hloc := hf.spot h
  have hup : Function.update loc f (some (.thread r)) = loc := by rw [← hloc, Function.update_eq_self]
  have hn := hf.not_pended h
  rw [← hup]
  refine h.touch { fr with point := .running b', trace := fr.trace ++ l } hf.frame ⟨rfl, rfl, rfl, rfl⟩ hf.plain
    ⟨rfl, rfl, rfl⟩ rfl ⟨rfl, rfl, rfl, rfl⟩ ?_ ⟨r, rfl⟩
    (fun q w hw => .inl ⟨hw, hf.not_queued h q w hw⟩) (fun x hx => .inl ⟨hx, hf.not_sent h x hx⟩) h.pended.1
    (pended_keep hn rfl) h.pending h.started h.flushed
  · rw [hup]
    exact h.located.congr (fun o => contents_congr (fun _ _ => rfl) (fun _ _ => rfl) (fun _ => rfl) (fun _ => rfl)
      fun t _ => bind_update_of_eq Frame.joiner hf.frame (by rfl) t) fun _ => rfl

/-- The coroutine on the thread suspends in `co_await` of a sender; `p` is where the sender waits. -/
theorem await_inv {op : ℕ} {k : ℤ → Body ι V E} {kernel waits : List (ι × ℕ)} {p : Spot ι}
    (hf : s.OnThread r f fr (.sender op k)) (hrt : s.RtNext r none (s.pended ++ [(r, f)]) rt)
    (hp : (p = .kernel ∧ kernel = s.kernel ++ [(r, f)] ∧ waits = s.waits) ∨
      (p = .waits ∧ kernel = s.kernel ∧ waits = s.waits ++ [(r, f)])) :
    Inv { s with
      frames := Function.update s.frames f (some { fr with point := .sender op r ⟨.frame f, none⟩ k })
      rt, kernel, waits, pended := s.pended ++ [(r, f)] } (Function.update loc f (some p)) := by
  have hn := hf.not_pended h
  have hplace : (Point.sender op r ⟨.frame f, none⟩ k : Point ι V E).Fits f (some p) := by
    rcases hp with ⟨rfl, -⟩ | ⟨rfl, -⟩
    · exact ⟨rfl, .inl rfl⟩
    · exact ⟨rfl, .inr (.inl rfl)⟩
  refine h.touch { fr with point := .sender op r ⟨.frame f, none⟩ k } hf.frame ⟨rfl, rfl, rfl, rfl⟩ hf.plain
    ⟨rfl, rfl, rfl⟩ rfl ⟨rfl, rfl, rfl, rfl⟩ ?_ hplace
    (fun q w hw => .inl ⟨hw, hf.not_queued h q w hw⟩) (fun x hx => ?_) ?_ (fun r' x => ?_) hrt.pending hrt.started
    (h.flushed_same hrt.enabled)
  · refine h.located_from_thread hf.control hrt ?_ ?_ fun o hthread hne => ?_
    · rcases hp with ⟨rfl, -⟩ | ⟨rfl, -⟩ <;> simp
    · rcases hp with ⟨rfl, rfl, -⟩ | ⟨rfl, -, rfl⟩ <;> simp [contents]
    · refine contents_congr (fun r' hr => absurd hr (hthread r')) (fun _ _ => rfl) (fun ho => ?_) (fun ho => ?_)
        fun t _ => bind_update_of_eq Frame.joiner hf.frame (by rfl) t
      · rcases hp with ⟨rfl, -⟩ | ⟨-, hk, -⟩
        · exact absurd ho hne
        · exact hk
      · rcases hp with ⟨-, -, hw⟩ | ⟨rfl, -⟩
        · exact hw
        · exact absurd ho hne
  · have hnew : x ∈ s.kernel ++ s.waits ∨ x = (r, f) := by
      rcases hp with ⟨-, rfl, rfl⟩ | ⟨-, rfl, rfl⟩ <;> simp only [List.mem_append, List.mem_singleton] at hx ⊢ <;> tauto
    rcases hnew with hx | rfl
    · exact .inl ⟨hx, hf.not_sent h x hx⟩
    · exact .inr ⟨rfl, op, _, k, rfl⟩
  · exact nodup_snoc h.pended.1 (hn r)
  · exact (mem_pend (hn r')).trans (or_congr_right (and_congr_right fun _ => (Option.some_inj).symm))

theorem switch_inv {r' : ι} {k : Body ι V E} (hf : s.OnThread r f fr (.switch r' k)) (hq : s.Takes q r')
    (hrt : s.RtNext r none s.pended rt) : Inv { s with
      frames := Function.update s.frames f (some { fr with point := .switched k })
      rt, queue := Function.update s.queue q (s.queue q ++ [.promise f]) } (Function.update loc f (some (.queue q))) := by
  have hn := hf.not_pended h
  refine h.touch { fr with point := .switched k } hf.frame ⟨rfl, rfl, rfl, rfl⟩ hf.plain ⟨rfl, rfl, rfl⟩ rfl
    ⟨rfl, rfl, rfl, rfl⟩ ?_ ⟨q, rfl⟩ (fun q' w hw => ?_) (fun x hx => .inl ⟨hx, hf.not_sent h x hx⟩) h.pended.1
    (pended_keep hn rfl) hrt.pending hrt.started (h.flushed_put hrt.enabled hq _)
  · refine h.located_from_thread hf.control hrt (by simp) ?_ fun o hthread hne => ?_
    · simp [contents, Work.frame]
    · exact contents_congr (fun r' hr => absurd hr (hthread r'))
        (fun q' hq' => Function.update_of_ne (fun he => hne (by rw [hq', he])) _ _) (fun _ => rfl) (fun _ => rfl)
        fun t _ => bind_update_of_eq Frame.joiner hf.frame (by rfl) t
  · rcases mem_update_append hw with hw | ⟨rfl, rfl⟩
    · exact .inl ⟨hw, hf.not_queued h q' w hw⟩
    · exact .inr ⟨rfl, trivial⟩

theorem start_inv {b : Body ι V E} {l : List Work} (hr : (s.rt r).control.frame = none) (hf : s.frames f = some fr)
    (hp : fr.point = .initial b ∨ fr.point = .switched b) (hq : (s.queue q).Perm (.promise f :: l))
    (hrt : s.RtNext r (some f) s.pended rt) : Inv { s with
      frames := Function.update s.frames f (some { fr with point := .running b })
      rt, queue := Function.update s.queue q l } (Function.update loc f (some (.thread r))) := by
  have hloc : loc f = some (.queue q) := h.loc_queue (hq.symm.subset List.mem_cons_self)
  have hn := h.not_pended hf (by rcases hp with hp | hp <;> rw [hp] <;> rfl)
  refine h.touch { fr with point := .running b } hf ⟨rfl, rfl, rfl, rfl⟩ ?_ ⟨rfl, rfl, rfl⟩ rfl ⟨rfl, rfl, rfl, rfl⟩ ?_
    ⟨r, rfl⟩ (fun q' w hw => .inl (h.taken_alone hq q' w hw))
    (fun x hx => .inl ⟨hx, h.not_sent (by simp [hloc]) (by simp [hloc]) x hx⟩) h.pended.1
    (pended_keep hn rfl) hrt.pending hrt.started (h.flushed_take hrt.enabled hq)
  · rcases hp with hp | hp <;> rw [hp] <;> exact ⟨rfl, rfl, rfl⟩
  · refine h.located_to_thread (p := .queue q) hr hrt (by simp) ?_ fun o hthread hne => ?_
    · simpa [contents, Work.frame] using hq.map Work.frame
    · exact contents_congr (fun r' hr => absurd hr (hthread r'))
        (fun q' hq' => Function.update_of_ne (fun he => hne (by rw [hq', he])) _ _) (fun _ => rfl) (fun _ => rfl)
        fun t _ => bind_update_of_eq Frame.joiner hf (by rfl) t

/-- The awaits but for the one of `f`. -/
theorem Inv.mem_pended_erase (hf : s.frames f = some fr) (hp : fr.point.pends = some r) (r' : ι) (x : ℕ) :
    (r', x) ∈ s.pended.erase (r, f) ↔ (r', x) ∈ s.pended ∧ x ≠ f := by
  rw [h.pended.1.mem_erase_iff]
  constructor
  · rintro ⟨hne, hx⟩
    refine ⟨hx, ?_⟩
    rintro rfl
    obtain ⟨fr', hf', hp'⟩ := (h.pended.2 r' x).mp hx
    obtain rfl := Option.some.inj (hf.symm.trans hf')
    exact hne (by rw [Option.some.inj (hp.symm.trans hp')])
  · rintro ⟨hx, hne⟩
    exact ⟨fun he => hne (Prod.mk.inj he).2, hx⟩

/-- A sender completes.  `p` is where it waited, and what else waits there stays. -/
theorem complete_inv {op : ℕ} {a : SenderAwaiter} {k : ℤ → Body ι V E} {res : ℤ} {kernel : List (ι × ℕ)}
    {queue : QueueId ι → List Work} {log : List (Entry ι V E)} {p : Spot ι} (hr : (s.rt r).control.frame = none)
    (hf : s.frames f = some fr) (hp : fr.point = .sender op r a k)
    (hrt : s.RtNext r (some f) (s.pended.erase (r, f)) rt)
    (hq : (p = .kernel ∧ s.kernel.Perm ((r, f) :: kernel) ∧ queue = s.queue) ∨
      ∃ q l, p = .queue q ∧ (s.queue q).Perm (.waiter f res :: l) ∧ queue = Function.update s.queue q l ∧
        kernel = s.kernel) :
    Inv { s with
      frames := Function.update s.frames f (some { fr with
        point := .running (k res), trace := fr.trace ++ [.sender op res] })
      rt, kernel, queue, log, pended := s.pended.erase (r, f) } (Function.update loc f (some (.thread r))) := by
  have hpends : fr.point.pends = some r := by rw [hp]; rfl
  have hloc : loc f = some p := by
    rcases hq with ⟨rfl, hk, -⟩ | ⟨q, l, rfl, hq, -⟩
    · exact h.loc_kernel (x := (r, f)) (hk.symm.subset List.mem_cons_self)
    · exact h.loc_queue (w := .waiter f res) (hq.symm.subset List.mem_cons_self)
  refine h.touch { fr with point := .running (k res), trace := fr.trace ++ [.sender op res] } hf ⟨rfl, rfl, rfl, rfl⟩
    (by rw [hp]; exact ⟨rfl, rfl, rfl⟩) ⟨rfl, rfl, rfl⟩ rfl ⟨rfl, rfl, rfl, rfl⟩ ?_ ⟨r, rfl⟩ (fun q' w hw => .inl ?_)
    (fun x hx => .inl ?_) (h.pended.1.erase _) (fun r' x => ?_) hrt.pending hrt.started fun r' hr' => ?_
  · refine h.located_to_thread (p := p) hr hrt ?_ ?_ fun o hthread hne => ?_
    · rcases hq with ⟨rfl, -⟩ | ⟨q, l, rfl, -⟩ <;> simp
    · rcases hq with ⟨rfl, hk, -⟩ | ⟨q, l, rfl, hq, rfl, -⟩
      · exact hk.map Prod.snd
      · simpa [contents, Work.frame] using hq.map Work.frame
    · refine contents_congr (fun r' hr => absurd hr (hthread r')) (fun q' hq' => ?_) (fun ho => ?_) (fun _ => rfl)
        fun t _ => bind_update_of_eq Frame.joiner hf (by rfl) t
      · rcases hq with ⟨-, -, rfl⟩ | ⟨q, l, rfl, -, rfl, -⟩
        · rfl
        · exact Function.update_of_ne (fun he => hne (by rw [hq', he])) _ _
      · rcases hq with ⟨rfl, -⟩ | ⟨q, l, -, -, -, hk⟩
        · exact absurd ho hne
        · exact hk
  · rcases hq with ⟨rfl, -, rfl⟩ | ⟨q, l, -, hq, rfl, -⟩
    · exact ⟨hw, h.not_queued (by simp [hloc]) q' w hw⟩
    · exact h.taken_alone hq q' w hw
  · rcases hq with ⟨rfl, hk, rfl⟩ | ⟨q, l, rfl, -, -, rfl⟩
    · have hmem : x ∈ s.kernel ++ s.waits := by
        rcases List.mem_append.mp hx with hx | hx
        · exact List.mem_append_left _ (hk.symm.subset (List.mem_cons_of_mem _ hx))
        · exact List.mem_append_right _ hx
      refine ⟨hmem, ?_⟩
      rintro rfl
      rcases List.mem_append.mp hx with hx | hx
      · have hrest : x.2 ∉ kernel.map Prod.snd := h.located.notMem_rest (p := Spot.kernel) (hk.map Prod.snd)
        exact hrest (List.mem_map_of_mem hx)
      · have := h.loc_waits hx
        rw [hloc] at this
        cases this
    · exact ⟨hx, h.not_sent (by simp [hloc]) (by simp [hloc]) x hx⟩
  · rw [h.mem_pended_erase hf hpends]
    refine ⟨.inl, ?_⟩
    rintro (hx | ⟨-, hp⟩)
    · exact hx
    · cases hp
  · rcases hq with ⟨-, -, rfl⟩ | ⟨q, l, -, hq, rfl, -⟩
    · exact h.flushed_same hrt.enabled r' hr'
    · exact h.flushed_take hrt.enabled hq r' hr'

end

/-! ## Moves that end a coroutine -/

omit [DecidableEq ι] in
theorem outcome_ends (hr : fr.exception = none ∧ fr.value = none) (o : Outcome V E) (st : PromiseState) :
    Frame.outcome { fr.ends o with state := st } = some o := by
  cases o with
  | ok v => simp [Frame.outcome, Frame.ends, hr.1]
  | error e => simp [Frame.outcome, Frame.ends]

omit [DecidableEq ι] in
theorem shape_ends {l : Option (Spot ι)} (hs : Shape f l fr) (hp : fr.point.isFinal = false) (o : Outcome V E)
    {st : PromiseState} (hst : st = .zombie ∨ st = .finished)
    (ho : (Frame.owner { fr.ends o with state := st }).isSome = true) :
    Shape f none { fr.ends o with state := st } := by
  have hr := hs.result
  rw [hp, if_neg (by simp)] at hr
  have hfinal : (fr.ends o).point = .final := by cases o <;> rfl
  refine ⟨?_, ?_, ?_, fun _ => ho⟩
  · rw [hfinal]
    rfl
  · rw [hfinal]
    exact (decide_eq_true hst).symm
  · rw [hfinal, outcome_ends hr]
    rfl

/-- The coroutine on the thread of `r` is at its end and goes to no other spot. -/
theorem Inv.located_off_thread {P : List (ι × ℕ)} (h : s.Inv loc) (hc : (s.rt r).control.frame = some f)
    (hrt : s.RtNext r none P s'.rt) (ho : ∀ o, (∀ r', o ≠ .thread r') → s'.contents o = s.contents o) :
    Located s'.contents (Function.update loc f none) := by
  refine h.located.leave (p := .thread r) ?_ fun o hne => hrt.contents_other hne (ho o)
  simp [contents, hc, hrt.self]

section

variable (h : s.Inv loc) {rt : ι → Rt} {b : Body ι V E} (o : Outcome V E) (hf : s.OnThread r f fr b)
  (hrt : s.RtNext r none s.pended rt)
include h hf hrt

/-- A coroutine ends with nobody to be resumed. -/
theorem end_inv {st : PromiseState} (hst : st = .zombie ∧ fr.state = .runningJoinable ∨
    st = .finished ∧ fr.state = .runningJoining ∧ fr.union = .callback .taskWaiter) :
    Inv { s with
      frames := Function.update s.frames f (some { fr.ends o with state := st })
      rt, ended := s.ended ++ [(f, o)] } (Function.update loc f none) := by
  have howner : Frame.owner { fr.ends o with state := st } = fr.owner := by
    rcases hst with ⟨rfl, hst⟩ | ⟨rfl, hst, hu⟩ <;> cases o <;> simp [Frame.owner, Frame.ends, *]
  have hjoiner : Frame.joiner { fr.ends o with state := st } = fr.joiner := by
    rcases hst with ⟨rfl, hst⟩ | ⟨rfl, hst, hu⟩ <;> cases o <;> simp [Frame.joiner, *]
  have hpoint : Frame.point { fr.ends o with state := st } = .final := by cases o <;> rfl
  have hn := hf.not_pended h
  refine h.change { fr.ends o with state := st } hf.frame (by cases o <;> rfl) hf.plain.2.1 rfl ⟨rfl, rfl⟩ ?_ ?_ ?_
    (fun q w hw => .inl ⟨hw, hf.not_queued h q w hw⟩) (fun x hx => .inl ⟨hx, hf.not_sent h x hx⟩) h.pended.1
    (pended_keep hn (by rw [hpoint]; rfl)) hrt.pending hrt.started (h.flushed_same hrt.enabled)
  · exact h.located_off_thread hf.control hrt fun p hthread => contents_congr (fun r' hr => absurd hr (hthread r'))
      (fun _ _ => rfl) (fun _ => rfl) (fun _ => rfl) fun t _ => bind_update_of_eq Frame.joiner hf.frame hjoiner t
  · refine h.owned_keep hf.frame rfl rfl rfl howner ?_ ?_
    · rw [hpoint, hf.plain.1]
      rfl
    · rw [hpoint, hf.plain.2.1]
      rfl
  · refine shape_ends (h.shape f fr hf.frame) hf.plain.2.2 o (hst.imp And.left And.left) ?_
    rw [howner]
    exact (h.shape f fr hf.frame).owner (by rcases hst with ⟨-, hst⟩ | ⟨-, hst, -⟩ <;> simp [hst])

/-- A detached coroutine ends, and its frame is destroyed. -/
theorem endDetached_inv (hst : fr.state = .runningDetached) : Inv { s with
      frames := Function.update s.frames f none
      rt, ended := s.ended ++ [(f, o)], destroyed := s.destroyed ++ [f] } (Function.update loc f none) := by
  have hnone : ∀ {α : Type} (g : Frame ι V E → Option α), g fr = none → ∀ x,
      (Function.update s.frames f none x).bind g = (s.frames x).bind g := fun g hg x =>
    bind_update g (by rw [hf.frame]; exact hg.symm) x
  refine h.remove hf.frame ⟨hf.plain.2.1, by rw [hf.point]; rfl⟩ (.inr ⟨r, hf.spot h⟩) rfl ⟨rfl, rfl⟩
    ⟨rfl, rfl, rfl, rfl⟩ ?_ ?_ hrt.pending hrt.started hrt.enabled
  · exact h.located_off_thread hf.control hrt fun p hthread => contents_congr (fun r' hr => absurd hr (hthread r'))
      (fun _ _ => rfl) (fun _ => rfl) (fun _ => rfl) fun t _ => hnone Frame.joiner (by simp [Frame.joiner, hst]) t
  · exact h.owned.congr
      (fun p => holdings_congr (fun _ => rfl) (fun _ => rfl) (fun c _ => hnone (fun fr => fr.point.callee) hf.plain.1 c)
        fun c _ => hnone (fun fr => fr.point.target) hf.plain.2.1 c)
      (hnone Frame.owner (by simp [Frame.owner, hst]))

end

omit [DecidableEq ι] in
theorem shape_place {l l' : Option (Spot ι)} (hs : Shape f l fr) (hp : fr.point.Fits f l') : Shape f l' fr :=
  ⟨hp, hs.final, hs.result, hs.owner⟩

omit [DecidableEq ι] in
/-- A coroutine that is not at its end goes to another point. -/
theorem shape_point {l l' : Option (Spot ι)} (hs : Shape f l fr) (hfin : fr.point.isFinal = false) {p : Point ι V E}
    (hp : p.isFinal = false) (hfit : p.Fits f l') (tr : List (Event ι V E)) :
    Shape f l' { fr with point := p, trace := tr } := by
  refine ⟨hfit, ?_, ?_, hs.owner⟩
  · rw [hp, ← hs.final, hfin]
  · have := hs.result
    rw [hfin] at this
    rw [hp]
    exact this

/-- The coroutine that awaits the one that ends goes from its callback to a queue. -/
theorem endJoined_inv (h : s.Inv loc) {rt : ι → Rt} {b : Body ι V E} (o : Outcome V E) {c : ℕ} {r' : ι}
    (hf : s.OnThread r f fr b) (hst : fr.state = .runningJoining) (hu : fr.union = .callback (.taskAwaiter c r'))
    (hq : s.Takes q r') (hrt : s.RtNext r none s.pended rt) :
    Inv { s with
      frames := Function.update s.frames f (some { fr.ends o with state := .finished })
      rt, ended := s.ended ++ [(f, o)], queue := Function.update s.queue q (s.queue q ++ [.promise c]) }
      (Function.update (Function.update loc f none) c (some (.queue q))) := by
  obtain ⟨cf, k, hcf, hcp⟩ := h.joined f fr c r' hf.frame hu
  have hne : c ≠ f := by
    rintro rfl
    rw [hf.frame, Option.some.injEq] at hcf
    rw [← hcf, hf.point] at hcp
    cases hcp
  have hjoiner : fr.joiner = some c := by simp [Frame.joiner, hst, hu]
  have hloc := h.loc_joins hf.frame hjoiner
  have howner : Frame.owner { fr.ends o with state := .finished } = fr.owner := by
    cases o <;> simp [Frame.owner, Frame.ends, hst, hu]
  have hpoint : (fr.ends o).point = .final := by cases o <;> rfl
  have hn := hf.not_pended h
  have hcf' : Function.update s.frames f (some { fr.ends o with state := .finished }) c = some cf :=
    (Function.update_of_ne hne _ _).trans hcf
  refine h.next (fun x => x = f ∨ x = c) (fun x hx => ?_) ?_ ?_ (fun x gr hgr => ?_) ?_ (fun x hx => ?_)
    (fun q' w hw => ?_) (fun x hx => .inl ⟨hx, ?_⟩) (fun t tf c' r'' htf htu => .inl ?_) ?_ h.pended.1
    (fun r'' x => ?_) hrt.pending hrt.started (h.flushed_put hrt.enabled hq _) h.sound
  · rw [not_or] at hx
    refine ⟨congrArg _ (Function.update_of_ne hx.1 _ _), ?_⟩
    rw [Function.update_of_ne hx.2, Function.update_of_ne hx.1]
  · have hoff : Located (Function.update s.contents (.thread r) []) (Function.update loc f none) := by
      refine h.located.leave (p := .thread r) ?_ fun o hop => Function.update_of_ne hop _ _
      simp [contents, hf.control]
    refine hoff.move_one (p := .joins f) (q := .queue q) (by simp) ?_ ?_ (fun p h1 h2 => ?_) (Function.update_self ..)
      fun v hv => Function.update_of_ne hv _ _
    · simp [contents, hf.frame, Frame.joiner, hst, hu]
    · simp [contents, Work.frame]
    · rcases eq_or_ne p (.thread r) with rfl | hp
      · simp [contents, hrt.self]
      · rw [Function.update_of_ne hp]
        refine hrt.contents_other hp fun hthread => contents_congr (fun r' hr => absurd hr (hthread r'))
          (fun q' hq' => Function.update_of_ne (fun he => h2 (by rw [hq', he])) _ _) (fun _ => rfl) (fun _ => rfl)
          fun t ht => ?_
        exact bind_update_ne Frame.joiner fun he => h1 (by rw [ht, he])
  · refine h.owned_keep hf.frame rfl rfl rfl howner ?_ ?_
    · rw [hpoint, hf.plain.1]
      rfl
    · rw [hpoint, hf.plain.2.1]
      rfl
  · rcases update_some_eq_some.mp hgr with ⟨rfl, rfl⟩ | ⟨hx, hold⟩
    · right
      rw [Function.update_of_ne hne.symm, Function.update_self]
      refine shape_ends (h.shape x fr hf.frame) hf.plain.2.2 o (.inr rfl) ?_
      rw [howner]
      exact (h.shape x fr hf.frame).owner (by simp [hst])
    · rcases eq_or_ne x c with rfl | hxc
      · right
        obtain rfl := Option.some.inj (hcf.symm.trans hold)
        rw [Function.update_self]
        exact shape_place (h.shape x cf hcf) (by rw [hcp]; exact .inr ⟨q, rfl⟩)
      · exact .inl ⟨hold, by rw [Function.update_of_ne hxc, Function.update_of_ne hx]⟩
  · rintro x (rfl | rfl) hx
    · rw [Function.update_of_ne hne.symm, Function.update_self]
    · cases hcf'.symm.trans hx
  · exact (Function.update_of_ne (h.ne_of_fresh hf.frame hx) _ _).trans (h.fresh x hx)
  · rcases mem_update_append hw with hw | ⟨rfl, rfl⟩
    · refine .inl ⟨hw, not_or.mpr ⟨hf.not_queued h q' w hw, ?_⟩⟩
      exact h.not_queued (fun q => by rw [hloc]; simp) q' w hw
    · refine .inr ⟨cf, hcf', ?_⟩
      rw [hcp]
      exact hq.1.symm
  · exact not_or.mpr ⟨hf.not_sent h x hx, h.not_sent (by rw [hloc]; simp) (by rw [hloc]; simp) x hx⟩
  · rcases update_some_eq_some.mp htf with ⟨rfl, rfl⟩ | ⟨-, htf⟩
    · refine ⟨fr, hf.frame, ?_⟩
      rw [← htu]
      cases o <;> rfl
    · exact ⟨tf, htf, htu⟩
  · rintro x xf t r'' k' (rfl | rfl) hxf hxp
    · obtain rfl := Option.some.inj (hf.frame.symm.trans hxf)
      cases hf.point.symm.trans hxp
    · exact .inr ⟨xf, k', (Function.update_of_ne hne _ _).trans hxf, hxp⟩
  · by_cases hx : x = f ∨ x = c
    · rcases hx with rfl | rfl
      · refine iff_of_false (hn r'') ?_
        rintro (⟨-, hx⟩ | ⟨-, gr, hgr, hp⟩)
        · exact hx (.inl rfl)
        · obtain ⟨-, rfl⟩ | ⟨hx, -⟩ := update_some_eq_some.mp hgr
          · rw [hpoint] at hp
            cases hp
          · exact hx rfl
      · rw [h.pended.2 r'' x]
        simp [hne, hcf]
    · simp [hx]

/-! ## Requests of tasks -/

omit [DecidableEq ι] in
theorem perm_take (s : Machine ι V E) {t : ℕ} (ht : t ∈ s.tasks) :
    (s.tasks ++ s.orphans).Perm (t :: (s.tasks.erase t ++ s.orphans)) := (List.perm_cons_erase ht).append_right _

omit [DecidableEq ι] in
/-- A request changes the promise of a coroutine that is not at its end. -/
theorem shape_request {l : Option (Spot ι)} (hs : Shape f l fr) (hst : fr.state = .runningJoinable) {st : PromiseState}
    {u : Union ι} (hst' : st ≠ .zombie ∧ st ≠ .finished)
    (ho : st ≠ .runningDetached → (Frame.owner { fr with state := st, union := u }).isSome = true) :
    Shape f l { fr with state := st, union := u } := by
  refine ⟨hs.place, ?_, hs.result, ho⟩
  have hfin := hs.final
  simp only [hst, reduceCtorEq, or_self, decide_false] at hfin
  simp [hfin, hst']

section

variable (h : s.Inv loc) {t : ℕ} {tf : Frame ι V E}
include h

/-- A task that runs is detached or waited for.  `p` is who then holds its frame. -/
theorem request_inv {st : PromiseState} {u : Union ι} {waiters : List ℕ} (ht : t ∈ s.tasks) (htf : s.frames t = some tf)
    (hst : tf.state = .runningJoinable) (hp : (st = .runningDetached ∧ u = tf.union ∧ waiters = s.waiters) ∨
      (st = .runningJoining ∧ u = .callback .taskWaiter ∧ waiters = s.waiters ++ [t])) :
    Inv { s with
      frames := Function.update s.frames t (some { tf with state := st, union := u })
      tasks := s.tasks.erase t, taken := s.taken ++ [t], waiters } loc := by
  have hjoiner : Frame.joiner { tf with state := st, union := u } = tf.joiner := by
    rcases hp with ⟨rfl, rfl, -⟩ | ⟨rfl, rfl, -⟩ <;> simp [Frame.joiner, hst]
  have hcallee : ∀ c, ((Function.update s.frames t (some { tf with state := st, union := u }) c).bind
      fun fr => fr.point.callee) = (s.frames c).bind fun fr => fr.point.callee :=
    bind_update_of_eq (fun fr => fr.point.callee) htf (by rfl)
  have htarget : ∀ c, ((Function.update s.frames t (some { tf with state := st, union := u }) c).bind
      fun fr => fr.point.target) = (s.frames c).bind fun fr => fr.point.target :=
    bind_update_of_eq (fun fr => fr.point.target) htf (by rfl)
  have hperm := s.perm_take ht
  have hother : ∀ v, v ≠ t → (Function.update s.frames t (some { tf with state := st, union := u }) v).bind Frame.owner =
      s.ownerOf v := fun v hv => bind_update_ne Frame.owner hv
  refine h.next (fun _ => False) (fun x _ => ⟨?_, rfl⟩) ?_ ?_ (fun x gr hgr => ?_) (fun _ hx => hx.elim)
    (fun x hx => ?_) (fun q w hw => .inl ⟨hw, not_false⟩) (fun x hx => .inl ⟨hx, not_false⟩) (fun x xf c r hxf hu => .inl ?_)
    (fun _ _ _ _ _ hx => hx.elim) h.pended.1 (fun r x => by simp) h.pending h.started h.flushed h.sound
  · rcases eq_or_ne x t with rfl | hx
    · simp [htf]
    · exact congrArg _ (Function.update_of_ne hx _ _)
  · exact h.located.congr (fun o => contents_congr (fun _ _ => rfl) (fun _ _ => rfl) (fun _ => rfl) (fun _ => rfl)
      fun x _ => bind_update_of_eq Frame.joiner htf hjoiner x) fun _ => rfl
  · rcases hp with ⟨rfl, rfl, rfl⟩ | ⟨rfl, rfl, rfl⟩
    · refine h.owned.leave_one (p := Holder.handle) hperm (fun p hne => ?_) (by simp [ownerOf, Frame.owner]) hother
      exact holdings_congr (fun ht => absurd ht hne) (fun _ => rfl) (fun c _ => hcallee c) fun c _ => htarget c
    · refine h.owned.move_one (p := Holder.handle) (q := Holder.thread) (by simp) hperm (.refl _) (fun p h1 h2 => ?_)
        (by simp [ownerOf, Frame.owner]) hother
      exact holdings_congr (fun ht => absurd ht h1) (fun ht => absurd ht h2) (fun c _ => hcallee c)
        fun c _ => htarget c
  · rcases update_some_eq_some.mp hgr with ⟨rfl, rfl⟩ | ⟨-, hold⟩
    · refine .inr (shape_request (h.shape x tf htf) hst ?_ ?_)
      · rcases hp with ⟨rfl, -⟩ | ⟨rfl, -⟩ <;> simp
      · rcases hp with ⟨rfl, -⟩ | ⟨rfl, rfl, -⟩ <;> simp [Frame.owner]
    · exact .inl ⟨hold, rfl⟩
  · exact (Function.update_of_ne (h.ne_of_fresh htf hx) _ _).trans (h.fresh x hx)
  · rcases update_some_eq_some.mp hxf with ⟨rfl, rfl⟩ | ⟨-, hold⟩
    · rcases hp with ⟨-, rfl, -⟩ | ⟨-, rfl, -⟩
      · exact ⟨tf, htf, hu⟩
      · cases hu
    · exact ⟨xf, hold, hu⟩

/-- A coroutine at its end is at no spot. -/
theorem Inv.nowhere (hf : s.frames f = some fr) (hst : fr.state = .zombie ∨ fr.state = .finished) :
    loc f = none ∧ fr.point = .final := by
  have hs := h.shape f fr hf
  have hfin : fr.point.isFinal = true := by rw [hs.final, decide_eq_true hst]
  have hplace := hs.place
  cases hp : fr.point <;> simp only [hp, Point.isFinal, reduceCtorEq] at hfin
  rw [hp] at hplace
  exact ⟨hplace, rfl⟩

/-- The frame of a coroutine at its end is destroyed by the task or the thread that holds it. -/
theorem release_inv {tasks waiters taken : List ℕ} {waited : List (ℕ × Outcome V E)} (htf : s.frames t = some tf)
    (hst : tf.state = .zombie ∨ tf.state = .finished)
    (hp : (t ∈ s.tasks ∧ tasks = s.tasks.erase t ∧ waiters = s.waiters) ∨
      (t ∈ s.waiters ∧ tasks = s.tasks ∧ waiters = s.waiters.erase t)) :
    Inv { s with
      frames := Function.update s.frames t none
      tasks, waiters, taken, destroyed := s.destroyed ++ [t], waited } loc := by
  obtain ⟨hloc, hfin⟩ := h.nowhere htf hst
  have hup : Function.update loc t none = loc := by rw [← hloc, Function.update_eq_self]
  have hnone : ∀ {α : Type} (g : Frame ι V E → Option α), g tf = none → ∀ x,
      (Function.update s.frames t none x).bind g = (s.frames x).bind g := fun g hg x =>
    bind_update g (by rw [htf]; exact hg.symm) x
  have hcallee := hnone (fun fr => fr.point.callee) (by simp only [hfin]; rfl)
  have htarget := hnone (fun fr => fr.point.target) (by simp only [hfin]; rfl)
  have hother : ∀ v, v ≠ t → (Function.update s.frames t none v).bind Frame.owner = s.ownerOf v :=
    fun v hv => bind_update_ne Frame.owner hv
  rw [← hup]
  refine h.remove htf (by rw [hfin]; exact ⟨rfl, rfl⟩) (.inl hloc) rfl ⟨rfl, rfl⟩ ⟨rfl, rfl, rfl, rfl⟩ ?_ ?_ h.pending
    h.started fun _ => rfl
  · rw [hup]
    refine h.located.congr (fun o => contents_congr (fun _ _ => rfl) (fun _ _ => rfl) (fun _ => rfl) (fun _ => rfl)
      fun x _ => hnone Frame.joiner ?_ x) fun _ => rfl
    rcases hst with hst | hst <;> simp [Frame.joiner, hst]
  · rcases hp with ⟨ht, rfl, rfl⟩ | ⟨ht, rfl, rfl⟩
    · refine h.owned.leave_one (p := Holder.handle) (s.perm_take ht) (fun p hne => ?_) (by simp [ownerOf]) hother
      exact holdings_congr (fun ht => absurd ht hne) (fun _ => rfl) (fun c _ => hcallee c) fun c _ => htarget c
    · refine h.owned.leave_one (p := Holder.thread) (List.perm_cons_erase ht) (fun p hne => ?_) (by simp [ownerOf]) hother
      exact holdings_congr (fun _ => rfl) (fun ht => absurd ht hne) (fun c _ => hcallee c) fun c _ => htarget c

/-- The coroutine on the thread awaits a task that runs. -/
theorem awaitTask_inv {rt : ι → Rt} {k : Outcome V E → Body ι V E} {tr : List (Event ι V E)} {log : List (Entry ι V E)}
    (hf : s.OnThread r f fr (.join t k)) (hne : t ≠ f)
    (ht : t ∈ s.tasks) (htf : s.frames t = some tf) (hst : tf.state = .runningJoinable)
    (hrt : s.RtNext r none (s.pended ++ [(r, f)]) rt) : Inv { s with
      frames := Function.update (Function.update s.frames f (some { fr with point := .task t r k, trace := tr })) t
        (some { tf with state := .runningJoining, union := .callback (.taskAwaiter f r) })
      rt, tasks := s.tasks.erase t, taken := s.taken ++ [t], pended := s.pended ++ [(r, f)], log }
      (Function.update loc f (some (.joins t))) := by
  have hn := hf.not_pended h
  have hf' : Function.update (Function.update s.frames f (some { fr with point := .task t r k, trace := tr })) t
      (some { tf with state := .runningJoining, union := .callback (.taskAwaiter f r) }) f =
      some { fr with point := .task t r k, trace := tr } := by
    rw [Function.update_of_ne hne.symm, Function.update_self]
  have hcallee : ∀ c, ((Function.update (Function.update s.frames f (some { fr with point := .task t r k, trace := tr })) t
      (some { tf with state := .runningJoining, union := .callback (.taskAwaiter f r) }) c).bind
      fun fr => fr.point.callee) = (s.frames c).bind fun fr => fr.point.callee := fun c => by
    rw [bind_update (fun fr : Frame ι V E => fr.point.callee) (by rw [Function.update_of_ne hne, htf]; rfl),
      bind_update_of_eq (fun fr => fr.point.callee) hf.frame (by rw [hf.plain.1]; rfl)]
  refine h.next (· = f) (fun x hx => ⟨?_, Function.update_of_ne hx _ _⟩) ?_ ?_ (fun x gr hgr => ?_) ?_ (fun x hx => ?_)
    (fun q w hw => .inl ⟨hw, hf.not_queued h q w hw⟩) (fun x hx => .inl ⟨hx, hf.not_sent h x hx⟩)
    (fun x xf c r' hxf hu => ?_) ?_ ?_ (fun r' x => ?_) hrt.pending hrt.started (h.flushed_same hrt.enabled) h.sound
  · rcases eq_or_ne x t with rfl | hxt
    · simp [htf]
    · exact congrArg _ ((Function.update_of_ne hxt _ _).trans (Function.update_of_ne hx _ _))
  · refine h.located_from_thread hf.control hrt (by simp) ?_ fun o hthread hno => ?_
    · simp [contents, htf, Frame.joiner, hst]
    · refine contents_congr (fun r' hr => absurd hr (hthread r')) (fun _ _ => rfl) (fun _ => rfl) (fun _ => rfl)
        fun x hx => ?_
      have hxt : x ≠ t := fun he => hno (by rw [hx, he])
      refine (bind_update_ne Frame.joiner hxt).trans ?_
      exact bind_update_of_eq Frame.joiner hf.frame (by rfl) x
  · refine h.owned.move_one (p := Holder.handle) (q := Holder.joiner f) (by simp) (s.perm_take ht) ?_ (fun p h1 h2 => ?_) ?_
      fun v hv => ?_
    · simp [holdings, hf', hf.frame, hf.point, Point.target]
    · refine holdings_congr (fun ht => absurd ht h1) (fun _ => rfl) (fun c _ => hcallee c) fun c hc => ?_
      refine (bind_update (fun fr : Frame ι V E => fr.point.target) ?_ c).trans ?_
      · rw [Function.update_of_ne hne, htf]
        rfl
      · exact bind_update_ne _ fun he => h2 (by rw [hc, he])
    · simp [ownerOf, Frame.owner]
    · refine (bind_update_ne Frame.owner hv).trans ?_
      exact bind_update_of_eq Frame.owner hf.frame (by rfl) v
  · rcases update_some_eq_some.mp hgr with ⟨rfl, rfl⟩ | ⟨-, hgr'⟩
    · rw [Function.update_of_ne hne]
      exact .inr (shape_request (h.shape x tf htf) hst (by simp) (by simp [Frame.owner]))
    · rcases update_some_eq_some.mp hgr' with ⟨rfl, rfl⟩ | ⟨hx, hold⟩
      · rw [Function.update_self]
        exact .inr (shape_point (h.shape x fr hf.frame) hf.plain.2.2 (p := .task t r k) rfl (.inl rfl) tr)
      · exact .inl ⟨hold, Function.update_of_ne hx _ _⟩
  · rintro x rfl hx
    cases hf'.symm.trans hx
  · refine (Function.update_of_ne (h.ne_of_fresh htf hx) _ _).trans ?_
    exact (Function.update_of_ne (h.ne_of_fresh hf.frame hx) _ _).trans (h.fresh x hx)
  · rcases update_some_eq_some.mp hxf with ⟨rfl, rfl⟩ | ⟨-, hxf'⟩
    · injection hu with hu
      injection hu with hc hr
      subst hc hr
      exact .inr ⟨_, k, hf', rfl⟩
    · rcases update_some_eq_some.mp hxf' with ⟨rfl, rfl⟩ | ⟨-, hold⟩
      · exact .inl ⟨fr, hf.frame, hu⟩
      · exact .inl ⟨xf, hold, hu⟩
  · rintro c cf x r' k' rfl hcf hp
    obtain rfl := Option.some.inj (hf.frame.symm.trans hcf)
    cases hf.point.symm.trans hp
  · exact nodup_snoc h.pended.1 (hn r)
  · refine (mem_pend (hn r')).trans (or_congr_right (and_congr_right ?_))
    rintro rfl
    constructor
    · intro hr
      exact ⟨_, hf', congrArg some hr⟩
    · rintro ⟨gr, hgr, hp⟩
      obtain rfl := Option.some.inj (hf'.symm.trans hgr)
      exact Option.some.inj hp

end

/-! ## Calls and returns -/

/-- The rule for moves in which the coroutine `c` takes the result of `g` and destroys its frame. -/
theorem Inv.collect {g c : ℕ} {gf cf : Frame ι V E} (h : s.Inv loc) (cf' : Frame ι V E) (hg : s.frames g = some gf)
    (hc : s.frames c = some cf) (hgc : g ≠ c) (hpt : gf.point.target = none ∧ gf.point.pends = none)
    (hct : ∀ t, cf.point.target = some t → t = g) (hu : cf'.union = cf.union)
    (hframes : s'.frames = Function.update (Function.update s.frames g none) c (some cf'))
    (hrest : s'.nextFrame = s.nextFrame ∧ s'.fault = s.fault ∧ s'.kernel = s.kernel ∧ s'.waits = s.waits)
    (hlocated : Located s'.contents loc') (hloc : loc' g = none ∧ ∀ x, x ≠ g → x ≠ c → loc' x = loc x)
    (howned : Located s'.holdings s'.ownerOf) (hshape : Shape c (loc' c) cf')
    (hworks : ∀ q, ∀ w ∈ s'.queue q, w ∈ s.queue q ∧ w.frame ≠ g ∧ w.frame ≠ c)
    (hsenders : ∀ x ∈ s.kernel ++ s.waits, x.2 ≠ g ∧ x.2 ≠ c) (hnodup : s'.pended.Nodup)
    (hpended : ∀ r x, (r, x) ∈ s'.pended ↔ (r, x) ∈ s.pended ∧ x ≠ c) (hpends : cf'.point.pends = none)
    (hpending : ∀ r, PendRt s'.pended r (s'.rt r))
    (hstarted : ∀ r, (s'.rt r).control ≠ .outside → (s'.rt r).ringEnabled = true)
    (hflushed : ∀ r, (s'.rt r).ringEnabled = true → s'.queue (.globalQueue r) = []) : s'.Inv loc' := by
  have hc' : s'.frames c = some cf' := by rw [hframes, Function.update_self]
  have hg' : s'.frames g = none := by rw [hframes, Function.update_of_ne hgc, Function.update_self]
  have hother : ∀ x, x ≠ g → x ≠ c → s'.frames x = s.frames x := fun x h1 h2 => by
    rw [hframes, Function.update_of_ne h2, Function.update_of_ne h1]
  refine h.next (fun x => x = g ∨ x = c) (fun x hx => ?_) hlocated howned (fun x fr hf => ?_) ?_ (fun x hx => ?_)
    (fun q w hw => .inl ?_) (fun x hx => .inl ?_) (fun t tf c' r htf htu => .inl ?_) ?_ hnodup (fun r x => ?_)
    hpending hstarted hflushed (hrest.2.1.trans h.sound)
  · rw [not_or] at hx
    exact ⟨congrArg _ (hother x hx.1 hx.2), hloc.2 x hx.1 hx.2⟩
  · rcases eq_or_ne x c with rfl | hxc
    · obtain rfl := Option.some.inj (hc'.symm.trans hf)
      exact .inr hshape
    · have hxg : x ≠ g := by
        rintro rfl
        cases hg'.symm.trans hf
      exact .inl ⟨(hother x hxg hxc).symm.trans hf, hloc.2 x hxg hxc⟩
  · rintro x (rfl | rfl) hx
    · exact hloc.1
    · cases hc'.symm.trans hx
  · rw [hrest.1] at hx
    exact (hother x (h.ne_of_fresh hg hx) (h.ne_of_fresh hc hx)).trans (h.fresh x hx)
  · obtain ⟨hold, h1, h2⟩ := hworks q w hw
    exact ⟨hold, not_or.mpr ⟨h1, h2⟩⟩
  · rw [hrest.2.2.1, hrest.2.2.2] at hx
    exact ⟨hx, not_or.mpr (hsenders x hx)⟩
  · rcases eq_or_ne t c with rfl | htc
    · obtain rfl := Option.some.inj (hc'.symm.trans htf)
      exact ⟨cf, hc, hu ▸ htu⟩
    · have htg : t ≠ g := by
        rintro rfl
        cases hg'.symm.trans htf
      exact ⟨tf, (hother t htg htc).symm.trans htf, htu⟩
  · rintro x xf t r k (rfl | rfl) hxf hxp
    · obtain rfl := Option.some.inj (hg.symm.trans hxf)
      rw [hxp] at hpt
      cases hpt.1
    · obtain rfl := Option.some.inj (hc.symm.trans hxf)
      rw [hct t (by rw [hxp]; rfl)]
      exact .inl hg'
  · rw [hpended r x]
    constructor
    · rintro ⟨hx, hxc⟩
      refine .inl ⟨hx, not_or.mpr ⟨?_, hxc⟩⟩
      rintro rfl
      exact h.not_pended hg hpt.2 r hx
    · rintro (⟨hx, hne⟩ | ⟨rfl | rfl, fr, hf, hp⟩)
      · exact ⟨hx, (not_or.mp hne).2⟩
      · cases hg'.symm.trans hf
      · obtain rfl := Option.some.inj (hc'.symm.trans hf)
        rw [hpends] at hp
        cases hp

section

variable (h : s.Inv loc) {rt : ι → Rt}
include h

/-- A called coroutine ends, and the one that called it goes on. -/
theorem callReturn_inv {g c : ℕ} {gf cf : Frame ι V E} {b callee b' : Body ι V E} {k : Outcome V E → Body ι V E}
    {tr : List (Event ι V E)} (hg : s.OnThread r g gf b) (hst : gf.state = .idle) (hc : s.frames c = some cf)
    (hp : cf.point = .call g callee k) (hrt : s.RtNext r (some c) s.pended rt) :
    Inv { s with
      frames := Function.update (Function.update s.frames g none) c (some { cf with point := .running b', trace := tr })
      rt, destroyed := s.destroyed ++ [g] }
      (Function.update (Function.update loc g none) c (some (.thread r))) := by
  have hgc : g ≠ c := by
    rintro rfl
    rw [hg.frame, Option.some.injEq] at hc
    rw [← hc, hg.point] at hp
    cases hp
  have hloc : loc c = none := by
    have := (h.shape c cf hc).place
    rw [hp] at this
    exact this
  have hg' : Function.update s.frames g none c = some cf := (Function.update_of_ne hgc.symm _ _).trans hc
  have hbind : ∀ {α : Type} (p : Frame ι V E → Option α), p gf = none →
      p { cf with point := .running b', trace := tr } = p cf → ∀ x, (Function.update (Function.update s.frames g none) c
        (some { cf with point := .running b', trace := tr }) x).bind p = (s.frames x).bind p := fun p h1 h2 x => by
    rw [bind_update p (by rw [hg']; exact h2), bind_update p (by rw [hg.frame]; exact h1.symm)]
  refine h.collect { cf with point := .running b', trace := tr } hg.frame hc hgc
    ⟨hg.plain.2.1, by rw [hg.point]; rfl⟩ (fun t ht => ?_) rfl rfl ⟨rfl, rfl, rfl, rfl⟩ ?_
    ⟨(Function.update_of_ne hgc _ _).trans (Function.update_self ..), fun x h1 h2 => ?_⟩ ?_ ?_ (fun q w hw => ?_)
    (fun x hx => ?_) h.pended.1 (fun r' x => ?_) rfl hrt.pending hrt.started (h.flushed_same hrt.enabled)
  · rw [hp] at ht
    cases ht
  · refine h.located.replace (p := Spot.thread r) (w := g) (v := c) ?_ ?_ (fun o hne => ?_) hgc.symm hloc ?_
      (Function.update_self ..) fun u h1 h2 => ?_
    · simp [contents, hg.control]
    · simp [contents, hrt.self]
    · refine hrt.contents_other hne fun hthread => contents_congr (fun r' hr => absurd hr (hthread r')) (fun _ _ => rfl)
        (fun _ => rfl) (fun _ => rfl) fun t _ => hbind Frame.joiner (by simp [Frame.joiner, hst]) rfl t
    · rw [Function.update_of_ne hgc, Function.update_self]
    · rw [Function.update_of_ne h2, Function.update_of_ne h1]
  · rw [Function.update_of_ne h2, Function.update_of_ne h1]
  · refine h.owned.leave_one (p := Holder.caller c) (w := g) ?_ (fun p hne => ?_) ?_ fun v hv => ?_
    · simp [holdings, hc, hp, Point.callee]
    · refine holdings_congr (fun _ => rfl) (fun _ => rfl) (fun x hx => ?_) fun x _ => ?_
      · refine (bind_update_ne _ fun he => hne (by rw [hx, he])).trans ?_
        exact bind_update (fun fr : Frame ι V E => fr.point.callee) (by rw [hg.frame]; exact hg.plain.1.symm) x
      · exact hbind (fun fr => fr.point.target) hg.plain.2.1 (by rw [hp]; rfl) x
    · simp [ownerOf, Function.update_of_ne hgc]
    · refine (bind_update Frame.owner (by rw [hg']; rfl) v).trans ?_
      exact bind_update_ne _ hv
  · rw [Function.update_self]
    exact shape_point (h.shape c cf hc) (by rw [hp]; rfl) (p := .running b') rfl ⟨r, rfl⟩ tr
  · exact ⟨hw, hg.not_queued h q w hw, h.not_queued (by rw [hloc]; simp) q w hw⟩
  · exact ⟨hg.not_sent h x hx, h.not_sent (by rw [hloc]; simp) (by rw [hloc]; simp) x hx⟩
  · refine ⟨fun hx => ⟨hx, ?_⟩, And.left⟩
    rintro rfl
    exact h.not_pended hc (by rw [hp]; rfl) r' hx

/-- The coroutine that awaited a task goes on with its result. -/
theorem resumeTask_inv {t : ℕ} {tf : Frame ι V E} {k : Outcome V E → Body ι V E} {b' : Body ι V E} {l : List Work}
    (hr : (s.rt r).control.frame = none) (hf : s.frames f = some fr) (hp : fr.point = .task t r k)
    (htf : s.frames t = some tf) (hst : tf.state = .finished) (hq : (s.queue q).Perm (.promise f :: l))
    (hrt : s.RtNext r (some f) (s.pended.erase (r, f)) rt) : Inv { s with
      frames := Function.update (Function.update s.frames t none) f (some { fr with point := .running b' })
      rt, queue := Function.update s.queue q l, destroyed := s.destroyed ++ [t], pended := s.pended.erase (r, f) }
      (Function.update loc f (some (.thread r))) := by
  obtain ⟨hloct, hfin⟩ := h.nowhere htf (.inr hst)
  have htf' : t ≠ f := by
    rintro rfl
    rw [hf, Option.some.injEq] at htf
    rw [← htf, hp] at hfin
    cases hfin
  have hloc : loc f = some (.queue q) := h.loc_queue (hq.symm.subset List.mem_cons_self)
  have hf' : Function.update s.frames t none f = some fr := (Function.update_of_ne htf'.symm _ _).trans hf
  have hbind : ∀ {α : Type} (p : Frame ι V E → Option α), p tf = none → p { fr with point := .running b' } = p fr →
      ∀ x, (Function.update (Function.update s.frames t none) f (some { fr with point := .running b' }) x).bind p =
        (s.frames x).bind p := fun p h1 h2 x => by
    rw [bind_update p (by rw [hf']; exact h2), bind_update p (by rw [htf]; exact h1.symm)]
  refine h.collect { fr with point := .running b' } htf hf htf' (by rw [hfin]; exact ⟨rfl, rfl⟩) (fun u hu => ?_) rfl rfl
    ⟨rfl, rfl, rfl, rfl⟩ ?_ ⟨(Function.update_of_ne htf' _ _).trans hloct, fun x _ h2 => Function.update_of_ne h2 _ _⟩
    ?_ ?_ (fun q' w hw => ?_) (fun x hx => ?_) (h.pended.1.erase _) (h.mem_pended_erase hf (by rw [hp]; rfl)) rfl
    hrt.pending hrt.started (h.flushed_take hrt.enabled hq)
  · rw [hp] at hu
    exact (Option.some.inj hu).symm
  · refine h.located_to_thread (p := .queue q) hr hrt (by simp) ?_ fun o hthread hne => ?_
    · simpa [contents, Work.frame] using hq.map Work.frame
    · exact contents_congr (fun r' hr => absurd hr (hthread r'))
        (fun q' hq' => Function.update_of_ne (fun he => hne (by rw [hq', he])) _ _) (fun _ => rfl) (fun _ => rfl)
        fun x _ => hbind Frame.joiner (by simp [Frame.joiner, hst]) rfl x
  · refine h.owned.leave_one (p := Holder.joiner f) (w := t) ?_ (fun p hne => ?_) ?_ fun v hv => ?_
    · simp [holdings, hf, hp, Point.target]
    · refine holdings_congr (fun _ => rfl) (fun _ => rfl) (fun x _ => ?_) fun x hx => ?_
      · exact hbind (fun fr => fr.point.callee) (by simp only [hfin]; rfl) (by rw [hp]; rfl) x
      · refine (bind_update_ne _ fun he => hne (by rw [hx, he])).trans ?_
        exact bind_update (fun fr : Frame ι V E => fr.point.target) (by rw [htf]; simp only [Option.bind, hfin]; rfl) x
    · simp [ownerOf, Function.update_of_ne htf']
    · refine (bind_update Frame.owner (by rw [hf']; rfl) v).trans ?_
      exact bind_update_ne _ hv
  · rw [Function.update_self]
    exact shape_point (h.shape f fr hf) (by rw [hp]; rfl) (p := .running b') rfl ⟨r, rfl⟩ fr.trace
  · obtain ⟨hold, hne⟩ := h.taken_alone hq q' w hw
    exact ⟨hold, h.not_queued (by rw [hloct]; simp) q' w hold, hne⟩
  · exact ⟨h.not_sent (by rw [hloct]; simp) (by rw [hloct]; simp) x hx,
      h.not_sent (by rw [hloc]; simp) (by rw [hloc]; simp) x hx⟩

end

/-! ## New coroutines, and moves that touch no frame -/

section

variable (h : s.Inv loc) {rt : ι → Rt}
include h

theorem Inv.nowhere_fresh : loc s.nextFrame = none := h.gone _ (h.fresh _ le_rfl)

/-- `co_await` of a coroutine: its frame is made, and it runs on the thread of the one that called it. -/
theorem call_inv {callee : Body ι V E} {k : Outcome V E → Body ι V E} (hf : s.OnThread r f fr (.call callee k))
    (hrt : s.RtNext r (some s.nextFrame) s.pended rt) : Inv { s with
      frames := Function.update (Function.update s.frames f (some { fr with point := .call s.nextFrame callee k }))
        s.nextFrame (some { Frame.new callee fr.root (fr.before ++ fr.trace) with
          union := .callerHandle (.frame f), point := .running callee })
      rt, nextFrame := s.nextFrame + 1 }
      (Function.update (Function.update loc f none) s.nextFrame (some (.thread r))) := by
  have hn := hf.not_pended h
  have hloc := h.nowhere_fresh
  have hfresh : s.frames s.nextFrame = none := h.fresh _ le_rfl
  have hne : s.nextFrame ≠ f := h.ne_of_fresh hf.frame le_rfl
  set frames := Function.update (Function.update s.frames f (some { fr with point := .call s.nextFrame callee k }))
    s.nextFrame (some { Frame.new callee fr.root (fr.before ++ fr.trace) with
      union := .callerHandle (.frame f), point := .running callee }) with hframes
  have hf' : frames f = some { fr with point := .call s.nextFrame callee k } := by
    rw [hframes, Function.update_of_ne hne.symm, Function.update_self]
  have hg' : frames s.nextFrame = some { Frame.new callee fr.root (fr.before ++ fr.trace) with
      union := .callerHandle (.frame f), point := .running callee } := by
    rw [hframes, Function.update_self]
  have hother : ∀ x, x ≠ f → x ≠ s.nextFrame → frames x = s.frames x := fun x h1 h2 => by
    rw [hframes, Function.update_of_ne h2, Function.update_of_ne h1]
  have hbind : ∀ {α : Type} (p : Frame ι V E → Option α),
      p { Frame.new callee fr.root (fr.before ++ fr.trace) with
        union := .callerHandle (.frame f), point := .running callee } = none →
      p { fr with point := .call s.nextFrame callee k } = p fr → ∀ x, (frames x).bind p = (s.frames x).bind p :=
    fun p h1 h2 x => by
      rw [hframes, bind_update p (by rw [Function.update_of_ne hne, hfresh]; exact h1), bind_update_of_eq p hf.frame h2]
  refine h.next (fun x => x = f ∨ x = s.nextFrame) (fun x hx => ?_) ?_ ?_ (fun x gr hgr => ?_) ?_ (fun x hx => ?_)
    (fun q w hw => .inl ⟨hw, not_or.mpr ⟨hf.not_queued h q w hw, h.not_queued (by rw [hloc]; simp) q w hw⟩⟩)
    (fun x hx => .inl ⟨hx, not_or.mpr ⟨hf.not_sent h x hx, h.not_sent (by rw [hloc]; simp) (by rw [hloc]; simp) x hx⟩⟩)
    (fun t tf c r' htf hu => .inl ?_) ?_ h.pended.1 (fun r' x => ?_) hrt.pending hrt.started
    (h.flushed_same hrt.enabled) h.sound
  · rw [not_or] at hx
    refine ⟨congrArg _ (hother x hx.1 hx.2), ?_⟩
    rw [Function.update_of_ne hx.2, Function.update_of_ne hx.1]
  · refine h.located.replace (p := Spot.thread r) (w := f) (v := s.nextFrame) ?_ ?_ (fun o ho => ?_) hne hloc ?_
      (Function.update_self ..) fun u h1 h2 => ?_
    · simp [contents, hf.control]
    · simp [contents, hrt.self]
    · exact hrt.contents_other ho fun hthread => contents_congr (fun r' hr => absurd hr (hthread r')) (fun _ _ => rfl)
        (fun _ => rfl) (fun _ => rfl) fun t _ => hbind Frame.joiner rfl rfl t
    · rw [Function.update_of_ne hne.symm, Function.update_self]
    · rw [Function.update_of_ne h2, Function.update_of_ne h1]
  · refine h.owned.enter_one (w := s.nextFrame) (q := Holder.caller f) ?_ ?_ (fun p hp => ?_) ?_ fun v hv => ?_
    · rw [ownerOf, hfresh]
      rfl
    · simp [holdings, hf', hf.frame, hf.point, Point.callee]
    · refine holdings_congr (fun _ => rfl) (fun _ => rfl) (fun x hx => ?_) fun x _ => ?_
      · refine (bind_update (fun fr : Frame ι V E => fr.point.callee) ?_ x).trans
          (bind_update_ne _ fun he => hp (by rw [hx, he]))
        rw [Function.update_of_ne hne, hfresh]
        rfl
      · exact hbind (fun fr => fr.point.target) rfl (by rw [hf.plain.2.1]; rfl) x
    · exact congrArg (Option.bind · Frame.owner) hg'
    · exact (bind_update_ne Frame.owner hv).trans (bind_update_of_eq Frame.owner hf.frame (by rfl) v)
  · rcases eq_or_ne x s.nextFrame with rfl | hxg
    · obtain rfl := Option.some.inj (hg'.symm.trans hgr)
      rw [Function.update_self]
      exact .inr ⟨⟨r, rfl⟩, rfl, ⟨rfl, rfl⟩, fun _ => rfl⟩
    · rcases eq_or_ne x f with rfl | hxf
      · obtain rfl := Option.some.inj (hf'.symm.trans hgr)
        rw [Function.update_of_ne hne.symm, Function.update_self]
        exact .inr (shape_point (h.shape x fr hf.frame) hf.plain.2.2 (p := .call s.nextFrame callee k) rfl rfl fr.trace)
      · refine .inl ⟨(hother x hxf hxg).symm.trans hgr, ?_⟩
        rw [Function.update_of_ne hxg, Function.update_of_ne hxf]
  · rintro x (rfl | rfl) hx
    · cases hf'.symm.trans hx
    · cases hg'.symm.trans hx
  · have hle : s.nextFrame ≤ x := Nat.le_of_succ_le hx
    exact (hother x (h.ne_of_fresh hf.frame hle) (Nat.ne_of_gt hx)).trans (h.fresh x hle)
  · rcases eq_or_ne t s.nextFrame with rfl | htg
    · obtain rfl := Option.some.inj (hg'.symm.trans htf)
      cases hu
    · rcases eq_or_ne t f with rfl | htf'
      · obtain rfl := Option.some.inj (hf'.symm.trans htf)
        exact ⟨fr, hf.frame, hu⟩
      · exact ⟨tf, (hother t htf' htg).symm.trans htf, hu⟩
  · rintro x xf t r' k' (rfl | rfl) hxf hxp
    · obtain rfl := Option.some.inj (hf.frame.symm.trans hxf)
      cases hf.point.symm.trans hxp
    · cases hfresh.symm.trans hxf
  · constructor
    · intro hx
      refine .inl ⟨hx, not_or.mpr ⟨?_, ?_⟩⟩
      · rintro rfl
        exact hn r' hx
      · rintro rfl
        obtain ⟨xf, hxf, -⟩ := (h.pended.2 r' _).mp hx
        cases hfresh.symm.trans hxf
    · rintro (⟨hx, -⟩ | ⟨rfl | rfl, gr, hgr, hp⟩)
      · exact hx
      · obtain rfl := Option.some.inj (hf'.symm.trans hgr)
        cases hp
      · obtain rfl := Option.some.inj (hg'.symm.trans hgr)
        cases hp

theorem spawn_inv {b : Body ι V E} (hq : s.Takes q r) (hrt : s.RtNext r (s.rt r).control.frame s.pended rt) :
    Inv { s with
      frames := Function.update s.frames s.nextFrame
        (some { Frame.new b s.nextFrame [] with state := .runningJoinable })
      rt, nextFrame := s.nextFrame + 1, tasks := s.tasks ++ [s.nextFrame]
      spawned := s.spawned ++ [(s.nextFrame, b)]
      queue := Function.update s.queue q (s.queue q ++ [.promise s.nextFrame]) }
      (Function.update loc s.nextFrame (some (.queue q))) := by
  have hloc := h.nowhere_fresh
  have hfresh : s.frames s.nextFrame = none := h.fresh _ le_rfl
  have hbind : ∀ {α : Type} (p : Frame ι V E → Option α),
      p { Frame.new b s.nextFrame [] with state := .runningJoinable } = none → ∀ x,
      (Function.update s.frames s.nextFrame (some { Frame.new b s.nextFrame [] with state := .runningJoinable }) x).bind p =
        (s.frames x).bind p := fun p hp x => bind_update p (by rw [hfresh]; exact hp) x
  refine h.next (· = s.nextFrame) (fun x hx => ⟨congrArg _ (Function.update_of_ne hx _ _), Function.update_of_ne hx _ _⟩)
    ?_ ?_ (fun x gr hgr => ?_) ?_ (fun x hx => ?_) (fun q' w hw => ?_)
    (fun x hx => .inl ⟨hx, h.not_sent (by rw [hloc]; simp) (by rw [hloc]; simp) x hx⟩)
    (fun t tf c r' htf hu => .inl ?_) ?_ h.pended.1 (fun r' x => ?_) hrt.pending hrt.started
    (h.flushed_put hrt.enabled hq _) h.sound
  · refine h.located.enter_one (w := s.nextFrame) (q := Spot.queue q) hloc ?_ (fun o hne => ?_) (Function.update_self ..)
      fun v hv => Function.update_of_ne hv _ _
    · simp [contents, Work.frame]
    · refine contents_congr (fun r' _ => ?_) (fun q' hq' => Function.update_of_ne (fun he => hne (by rw [hq', he])) _ _)
        (fun _ => rfl) (fun _ => rfl) fun t _ => hbind Frame.joiner rfl t
      exact hrt.control_frame r'
  · refine h.owned.enter_one (w := s.nextFrame) (q := Holder.handle) ?_ ?_ (fun p hp => ?_) ?_ fun v hv =>
      bind_update_ne Frame.owner hv
    · rw [ownerOf, hfresh]
      rfl
    · have hswap : ([s.nextFrame] ++ s.orphans).Perm (s.orphans ++ [s.nextFrame]) := List.perm_append_comm
      simpa [holdings] using hswap.append_left s.tasks
    · exact holdings_congr (fun ht => absurd ht hp) (fun _ => rfl) (fun c _ => hbind (fun fr => fr.point.callee) rfl c)
        fun c _ => hbind (fun fr => fr.point.target) rfl c
    · simp [ownerOf, Frame.owner]
  · rcases update_some_eq_some.mp hgr with ⟨rfl, rfl⟩ | ⟨hx, hold⟩
    · rw [Function.update_self]
      exact .inr ⟨⟨q, rfl⟩, rfl, ⟨rfl, rfl⟩, fun _ => rfl⟩
    · exact .inl ⟨hold, Function.update_of_ne hx _ _⟩
  · rintro x rfl hx
    cases (Function.update_self ..).symm.trans hx
  · exact (Function.update_of_ne (Nat.ne_of_gt hx) _ _).trans (h.fresh x (Nat.le_of_succ_le hx))
  · rcases mem_update_append hw with hw | ⟨rfl, rfl⟩
    · exact .inl ⟨hw, h.not_queued (by rw [hloc]; simp) q' w hw⟩
    · exact .inr ⟨_, Function.update_self .., trivial⟩
  · rcases update_some_eq_some.mp htf with ⟨rfl, rfl⟩ | ⟨-, hold⟩
    · cases hu
    · exact ⟨tf, hold, hu⟩
  · rintro x xf t r' k' rfl hxf -
    cases hfresh.symm.trans hxf
  · constructor
    · intro hx
      refine .inl ⟨hx, ?_⟩
      rintro rfl
      obtain ⟨xf, hxf, -⟩ := (h.pended.2 r' _).mp hx
      cases hfresh.symm.trans hxf
    · rintro (⟨hx, -⟩ | ⟨rfl, gr, hgr, hp⟩)
      · exact hx
      · obtain ⟨-, rfl⟩ | ⟨hx, -⟩ := update_some_eq_some.mp hgr
        · cases hp
        · exact absurd rfl hx

/-- The rule for moves that leave the frames as they are.  `touched` are the coroutines that go to another queue. -/
theorem Inv.requeue (touched : ℕ → Prop) (hl : ∀ x, ¬ touched x → loc' x = loc x)
    (hframes : s'.frames = s.frames ∧ s'.nextFrame = s.nextFrame ∧ s'.tasks ++ s'.orphans = s.tasks ++ s.orphans ∧
      s'.waiters = s.waiters ∧ s'.pended = s.pended ∧ s'.fault = s.fault)
    (hlocated : Located s'.contents loc')
    (hplace : ∀ x fr, touched x → s.frames x = some fr → fr.point.Fits x (loc' x))
    (hgone : ∀ x, touched x → s.frames x ≠ none)
    (hworks : ∀ q, ∀ w ∈ s'.queue q, w ∈ s.queue q ∨ ∃ fr, s.frames w.frame = some fr ∧ w.Fits q.runtime fr.point)
    (hsenders : ∀ x ∈ s'.kernel ++ s'.waits, x ∈ s.kernel ++ s.waits)
    (hpending : ∀ r, PendRt s'.pended r (s'.rt r))
    (hstarted : ∀ r, (s'.rt r).control ≠ .outside → (s'.rt r).ringEnabled = true)
    (hflushed : ∀ r, (s'.rt r).ringEnabled = true → s'.queue (.globalQueue r) = []) : s'.Inv loc' := by
  obtain ⟨hframes, hnext, htasks, hwaiters, hpended, hfault⟩ := hframes
  refine ⟨hlocated, ?_, fun x fr hx => ?_, fun x hx => ?_, ?_, fun q w hw => ?_, fun x hx => ?_, ?_, ?_, hpending, hstarted,
    hflushed, hfault.trans h.sound⟩
  · exact h.owned.congr (fun p => holdings_congr (fun _ => htasks) (fun _ => hwaiters) (fun c _ => by rw [hframes])
      fun c _ => by rw [hframes]) fun x => by rw [ownerOf, ownerOf, hframes]
  · rw [hframes] at hx
    by_cases ht : touched x
    · exact shape_place (h.shape x fr hx) (hplace x fr ht hx)
    · exact hl x ht ▸ h.shape x fr hx
  · rw [hframes] at hx
    exact (hl x fun ht => hgone x ht hx).trans (h.gone x hx)
  · rw [hnext, hframes]
    exact h.fresh
  · rw [hframes]
    exact (hworks q w hw).elim (h.works q w) id
  · rw [hframes]
    exact h.senders x (hsenders x hx)
  · rw [hframes]
    exact h.joined
  · rw [hpended, hframes]
    exact h.pended

/-- A channel or futex wait completes, and its coroutine goes to a queue of its runtime. -/
theorem wake_inv {op : ℕ} {a : SenderAwaiter} {k : ℤ → Body ι V E} {l : List (ι × ℕ)} {res : ℤ}
    {log : List (Entry ι V E)} (hf : s.frames f = some fr) (hp : fr.point = .sender op r a k)
    (hw : s.waits.Perm ((r, f) :: l)) (hq : s.Takes q r) (hrt : s.RtNext r (s.rt r).control.frame s.pended rt) :
    Inv { s with
      rt, waits := l, queue := Function.update s.queue q (s.queue q ++ [.waiter f res]), log }
      (Function.update loc f (some (.queue q))) := by
  have hplace := (h.shape f fr hf).place
  rw [hp] at hplace
  refine h.requeue (· = f) (fun y hy => Function.update_of_ne hy _ _) ⟨rfl, rfl, rfl, rfl, rfl, rfl⟩ ?_ ?_ ?_
    (fun q' w hw' => ?_) (fun y hy => ?_) hrt.pending hrt.started (h.flushed_put hrt.enabled hq _)
  · refine h.located.move_one (w := f) (p := Spot.waits) (q := Spot.queue q) (by simp) ?_ ?_ (fun o h1 h2 => ?_)
      (Function.update_self ..) fun v hv => Function.update_of_ne hv _ _
    · exact hw.map Prod.snd
    · simp [contents, Work.frame]
    · exact contents_congr (fun r' _ => hrt.control_frame r')
        (fun q' hq' => Function.update_of_ne (fun he => h2 (by rw [hq', he])) _ _) (fun _ => rfl)
        (fun ho => absurd ho h1) fun _ _ => rfl
  · rintro y yf rfl hyf
    obtain rfl := Option.some.inj (hf.symm.trans hyf)
    rw [Function.update_self, hp]
    exact ⟨hplace.1, .inr (.inr ⟨q, rfl⟩)⟩
  · rintro y rfl hy
    cases hf.symm.trans hy
  · rcases mem_update_append hw' with hold | ⟨rfl, rfl⟩
    · exact .inl hold
    · refine .inr ⟨fr, hf, ?_⟩
      rw [hp]
      exact hq.1.symm
  · rcases List.mem_append.mp hy with hy | hy
    · exact List.mem_append_left _ hy
    · exact List.mem_append_right _ (hw.symm.subset (List.mem_cons_of_mem _ hy))

/-- A handle is lost: nobody gets hold of the frame. -/
theorem lose_inv {t : ℕ} {taken : List ℕ} (ht : t ∈ s.tasks) :
    Inv { s with tasks := s.tasks.erase t, taken, orphans := s.orphans ++ [t] } loc := by
  have hperm : (s.tasks.erase t ++ (s.orphans ++ [t])).Perm (s.tasks ++ s.orphans) := by
    rw [← List.append_assoc]
    exact (List.perm_append_singleton _ _).trans (s.perm_take ht).symm
  refine ⟨h.located.congr (fun o => contents_congr (fun _ _ => rfl) (fun _ _ => rfl) (fun _ => rfl) (fun _ => rfl)
      fun _ _ => rfl) fun _ => rfl, h.owned.congr_perm (fun p => ?_) fun _ => rfl, h.shape, h.gone, h.fresh, h.works,
    h.senders, h.joined, h.pended, h.pending, h.started, h.flushed, h.sound⟩
  cases p with
  | handle => exact hperm
  | _ => exact .refl _

theorem rts_inv (hrt : s.RtNext r (s.rt r).control.frame s.pended rt) : Inv { s with rt } loc := by
  refine h.requeue (fun _ => False) (fun _ _ => rfl) ⟨rfl, rfl, rfl, rfl, rfl, rfl⟩ ?_ (fun _ _ hx => hx.elim)
    (fun _ hx => hx.elim) (fun _ _ hw => .inl hw) (fun _ hx => hx) hrt.pending hrt.started (h.flushed_same hrt.enabled)
  exact h.located.congr (fun o => contents_congr (fun r' _ => hrt.control_frame r') (fun _ _ => rfl) (fun _ => rfl)
    (fun _ => rfl) fun _ _ => rfl) fun _ => rfl

/-- `run()` begins: what other threads have left in the global queue goes to the local queue. -/
theorem begin_inv (hc : (s.rt r).control = .outside) : Inv { s with
      rt := Function.update s.rt r { s.rt r with control := .loop, ringEnabled := true }
      queue := Function.update (Function.update s.queue (.localQueue r)
        (s.queue (.localQueue r) ++ s.queue (.globalQueue r))) (.globalQueue r) [] }
      fun x => if x ∈ (s.queue (.globalQueue r)).map Work.frame then some (.queue (.localQueue r)) else loc x := by
  have hold : ∀ x, x ∈ (s.queue (.globalQueue r)).map Work.frame → loc x = some (.queue (.globalQueue r)) :=
    fun x hx => h.located.mem_iff.mp hx
  have hrt : ∀ r', (Function.update s.rt r { s.rt r with control := .loop, ringEnabled := true } r').control.frame =
      (s.rt r').control.frame := fun r' => by
    rcases eq_or_ne r' r with rfl | hr
    · rw [Function.update_self, hc]
      rfl
    · rw [Function.update_of_ne hr]
  refine h.requeue (· ∈ (s.queue (.globalQueue r)).map Work.frame) (fun x hx => if_neg hx)
    ⟨rfl, rfl, rfl, rfl, rfl, rfl⟩ ?_ (fun x fr hx hf => ?_) (fun x hx hf => ?_) (fun q w hw => ?_) (fun _ hx => hx)
    (fun r' => ?_) (fun r' hr' => ?_) fun r' hr' => ?_
  · refine h.located.move (p := Spot.queue (.globalQueue r)) (q := Spot.queue (.localQueue r)) (by simp) ?_ ?_
      fun o h1 h2 => ?_
    · simp [contents]
    · simp [contents]
    · refine contents_congr (fun r' _ => hrt r') (fun q hq => ?_) (fun _ => rfl) (fun _ => rfl) fun _ _ => rfl
      refine (Function.update_of_ne (fun he => h1 (by rw [hq, he])) _ _).trans ?_
      exact Function.update_of_ne (fun he => h2 (by rw [hq, he])) _ _
  · rw [if_pos hx]
    have hplace := (h.shape x fr hf).place
    rw [hold x hx] at hplace
    cases hp : fr.point <;> rw [hp] at hplace <;> simp_all [Point.Fits]
  · cases (h.gone x hf).symm.trans (hold x hx)
  · rcases eq_or_ne q (.globalQueue r) with rfl | hg
    · simp at hw
    · simp only [Function.update_of_ne hg] at hw
      rcases eq_or_ne q (.localQueue r) with rfl | hl
      · rw [Function.update_self, List.mem_append] at hw
        rcases hw with hw | hw
        · exact .inl hw
        · exact .inr (h.works (.globalQueue r) w hw)
      · rw [Function.update_of_ne hl] at hw
        exact .inl hw
  · rcases eq_or_ne r' r with rfl | hr
    · have := h.pending r'
      simp only [PendRt, hc, Control.owes] at this
      simpa [PendRt, Control.owes] using this
    · simpa only [PendRt, Function.update_of_ne hr] using h.pending r'
  · rcases eq_or_ne r' r with rfl | hr
    · simp
    · simp only [Function.update_of_ne hr] at hr' ⊢
      exact h.started r' hr'
  · rcases eq_or_ne r' r with rfl | hr
    · simp
    · simp only [Function.update_of_ne hr] at hr'
      refine (Function.update_of_ne (by simpa using hr) _ _).trans ?_
      exact (Function.update_of_ne (by simp) _ _).trans (h.flushed r' hr')

end

theorem Inv.halt (h : s.Inv loc) (p : Option Panic) : Inv { s with panicked := p } loc :=
  ⟨h.located, h.owned, h.shape, h.gone, h.fresh, h.works, h.senders, h.joined, h.pended, h.pending, h.started, h.flushed,
    h.sound⟩

theorem Inv.note (h : s.Inv loc) (l : List (Entry ι V E)) : (s.note l).Inv loc :=
  ⟨h.located, h.owned, h.shape, h.gone, h.fresh, h.works, h.senders, h.joined, h.pended, h.pending, h.started, h.flushed,
    h.sound⟩

/-! ## Calls on any thread -/

section

variable {e : Event ι V E} {s₁ : Machine ι V E} {b b' : Body ι V E} {l : List (Event ι V E)} {root : ℕ}

theorem Request.inv (h : s.Inv loc) (hr : s.Request e s₁) : ∃ loc', s₁.Inv loc' := by
  cases hr with
  | spawn hq hrt => exact ⟨_, spawn_inv h hq hrt⟩
  | detach ht htf hst => exact ⟨_, request_inv h ht htf hst (.inl ⟨rfl, rfl, rfl⟩)⟩
  | wait ht htf hst => exact ⟨_, request_inv h ht htf hst (.inr ⟨rfl, rfl, rfl⟩)⟩
  | collect ht htf hst _ => exact ⟨_, release_inv h htf (.inl hst) (.inl ⟨ht, rfl, rfl⟩)⟩
  | gone =>
    exact ⟨loc, h.located, h.owned, h.shape, h.gone, h.fresh, h.works, h.senders, h.joined, h.pended, h.pending,
      h.started, h.flushed, h.sound⟩

/-- A coroutine that runs is not touched, but for the promise of a task. -/
theorem Request.onThread (h : s.Inv loc) (hr : s.Request e s₁) (hf : s.OnThread r f fr b) :
    ∃ st u, s₁.OnThread r f { fr with state := st, union := u } b := by
  cases hr with
  | spawn hq hrt =>
    have hne := h.ne_of_fresh hf.frame le_rfl
    exact ⟨_, _, (hrt.control_frame r).trans hf.control, (Function.update_of_ne hne.symm _ _).trans hf.frame, hf.point⟩
  | @detach t tf ht htf hst | @wait t tf ht htf hst =>
    rcases eq_or_ne f t with rfl | hne
    · obtain rfl := Option.some.inj (hf.frame.symm.trans htf)
      exact ⟨_, _, hf.control, Function.update_self .., hf.point⟩
    · exact ⟨_, _, hf.control, (Function.update_of_ne hne _ _).trans hf.frame, hf.point⟩
  | @collect t tf waited e ht htf hst hw =>
    have hne : f ≠ t := by
      rintro rfl
      obtain rfl := Option.some.inj (hf.frame.symm.trans htf)
      cases (h.nowhere htf (.inl hst)).2.symm.trans hf.point
    exact ⟨_, _, hf.control, (Function.update_of_ne hne _ _).trans hf.frame, hf.point⟩
  | gone => exact ⟨_, _, hf.control, hf.frame, hf.point⟩

theorem Goes.inv (h : s.Inv loc) (hg : s.Goes root b l s₁ b') : ∃ loc', s₁.Inv loc' := by
  cases hg with
  | sender => exact ⟨_, h.note _⟩
  | spawn hr | join _ _ hr | detach hr => exact hr.inv h
  | lose ht => exact ⟨_, lose_inv h ht⟩
  | refused | waitGone | drop => exact ⟨_, h⟩

theorem Goes.onThread {b₀ : Body ι V E} (h : s.Inv loc) (hg : s.Goes root b l s₁ b') (hf : s.OnThread r f fr b₀) :
    ∃ st u, s₁.OnThread r f { fr with state := st, union := u } b₀ := by
  cases hg with
  | sender => exact ⟨_, _, hf.control, hf.frame, hf.point⟩
  | spawn hr | join _ _ hr | detach hr => exact hr.onThread h hf
  | lose ht => exact ⟨_, _, hf.control, hf.frame, hf.point⟩
  | refused | waitGone | drop => exact ⟨_, _, hf⟩

end

/-- What one move preserves. -/
theorem Move.inv (h : s.Inv loc) (hm : s.Move s') : ∃ loc', s'.Inv loc' := by
  cases hm with
  | halt => exact ⟨_, h.halt _⟩
  | rts hrt => exact ⟨_, rts_inv h hrt⟩
  | run hc => exact ⟨_, begin_inv h hc⟩
  | advance hf hg =>
    obtain ⟨loc₁, h₁⟩ := hg.inv h
    obtain ⟨st, u, hf₁⟩ := hg.onThread h hf
    exact ⟨_, goOn_inv h₁ hf₁ _ _⟩
  | outside hr =>
    obtain ⟨loc₁, h₁⟩ := hr.inv h
    exact ⟨_, h₁.note _⟩
  | awaitKernel hf hrt => exact ⟨_, await_inv h hf hrt (.inl ⟨rfl, rfl, rfl⟩)⟩
  | awaitWaits hf hrt => exact ⟨_, await_inv h hf hrt (.inr ⟨rfl, rfl, rfl⟩)⟩
  | awaitTask hf hne ht htf hst hrt => exact ⟨_, awaitTask_inv h hf hne ht htf hst hrt⟩
  | switch hf hq hrt => exact ⟨_, switch_inv h hf hq hrt⟩
  | call hf hrt => exact ⟨_, call_inv h hf hrt⟩
  | callReturn hg _ hst _ hc hp hrt => exact ⟨_, callReturn_inv h hg hst hc hp hrt⟩
  | endZombie hf _ hst hrt => exact ⟨_, end_inv h _ hf hrt (.inl ⟨rfl, hst⟩)⟩
  | endDetached hf _ hst hrt => exact ⟨_, endDetached_inv h _ hf hrt hst⟩
  | endJoined hf _ hst hu hq hrt => exact ⟨_, endJoined_inv h _ hf hst hu hq hrt⟩
  | endWaited hf _ hst hu hrt => exact ⟨_, end_inv h _ hf hrt (.inr ⟨rfl, hst, hu⟩)⟩
  | start hr hf hp hq hrt => exact ⟨_, start_inv h hr hf hp hq hrt⟩
  | completeKernel hr hf hp hq hrt => exact ⟨_, complete_inv h hr hf hp hrt (.inl ⟨rfl, hq, rfl⟩)⟩
  | completeWaiter hr hf hp hq hrt => exact ⟨_, complete_inv h hr hf hp hrt (.inr ⟨_, _, rfl, hq, rfl, rfl⟩)⟩
  | resumeTask hr hf hp htf hst _ hq hrt => exact ⟨_, resumeTask_inv h hr hf hp htf hst hq hrt⟩
  | wake hf hp hw hq hrt => exact ⟨_, wake_inv h hf hp hw hq hrt⟩
  | waitReturn ht htf hst _ => exact ⟨_, release_inv h htf (.inr hst) (.inr ⟨ht, rfl, rfl⟩)⟩

end Machine

end Condy.Coro
