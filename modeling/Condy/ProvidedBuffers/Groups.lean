import Condy.ProvidedBuffers.PoolMemory

/-!
# Condy.ProvidedBuffers.Groups — buffer group ids over the lives of queues and pools

Every queue and every pool has a buffer group id from the `IdPool` of its runtime.  The constructor maps memory (a pool
that is not given any), takes an id and registers the ring; each of these can fail, and a guard then runs `cleanup_` on
what is there so far.  The destructor runs the same `cleanup_`.

`Groups.Holds s objs` says what the objects of `objs` hold: ids, registered rings and mapped memory.  `cleanup_` of one
object gives back what this one holds (`Holds.cleanup`), whether it was finished or not; so a failed constructor leaves
the state as it was, and every id that was handed out is given back once.
-/

namespace Condy

/-! ## `IdPool` -/

/-- `IdPool<T, From, To>`; the top of `recycled_ids_` is the head.  `asserts` stays `true` as long as every assertion
held. -/
structure IdPool (lo hi : ℕ) where
  nextId : ℕ
  recycledIds : List ℕ
  asserts : Bool
deriving DecidableEq, Repr

namespace IdPool

variable {lo hi : ℕ}

def new : IdPool lo hi := ⟨lo, [], true⟩

def allocate (p : IdPool lo hi) : Except String (ℕ × IdPool lo hi) :=
  match p.recycledIds with
  | id :: rest => .ok (id, { p with recycledIds := rest })
  | [] => if p.nextId < hi then .ok (p.nextId, { p with nextId := p.nextId + 1 }) else .error "ID pool exhausted"

def recycle (p : IdPool lo hi) (id : ℕ) : IdPool lo hi :=
  { p with recycledIds := id :: p.recycledIds, asserts := p.asserts && decide (lo ≤ id ∧ id < p.nextId ∧ id < hi) }

/-- The id can still be handed out. -/
def Allocatable (p : IdPool lo hi) (id : ℕ) : Prop := id ∈ p.recycledIds ∨ p.nextId ≤ id ∧ id < hi

/-- The ids of `out` are in use: they and the recycled ones are the ids below `next_id_`. -/
structure Inv (p : IdPool lo hi) (out : List ℕ) : Prop where
  lo_le : lo ≤ p.nextId
  le_hi : p.nextId ≤ max lo hi
  ids : (out ++ p.recycledIds).Perm (List.range' lo (p.nextId - lo))
  asserts : p.asserts = true

variable {p p' : IdPool lo hi} {out : List ℕ} {id : ℕ}

theorem new_inv : (new : IdPool lo hi).Inv [] := by
  refine ⟨le_rfl, Nat.le_max_left lo hi, ?_, rfl⟩
  rw [show (new : IdPool lo hi).nextId = lo from rfl, Nat.sub_self]
  exact List.Perm.refl _

namespace Inv

theorem perm {out' : List ℕ} (h : p.Inv out) (hp : out'.Perm out) : p.Inv out' :=
  ⟨h.lo_le, h.le_hi, (hp.append_right _).trans h.ids, h.asserts⟩

theorem nodup (h : p.Inv out) : out.Nodup :=
  (List.nodup_append.mp (h.ids.nodup_iff.mpr List.nodup_range')).1

theorem lt (h : p.Inv out) (hid : id ∈ out) : lo ≤ id ∧ id < p.nextId ∧ id < hi := by
  have hrange := List.mem_range'_1.mp (h.ids.subset (List.mem_append_left _ hid))
  have hlo := h.lo_le
  have hhi := h.le_hi
  omega

theorem allocate (h : p.Inv out) (ha : p.allocate = .ok (id, p')) : p'.Inv (id :: out) := by
  unfold IdPool.allocate at ha
  cases hrec : p.recycledIds with
  | cons x rest =>
    rw [hrec] at ha
    obtain ⟨rfl, rfl⟩ := Prod.mk.inj (Except.ok.inj ha)
    have hids := h.ids
    rw [hrec] at hids
    exact ⟨h.lo_le, h.le_hi, List.perm_middle.symm.trans hids, h.asserts⟩
  | nil =>
    rw [hrec] at ha
    dsimp only at ha
    split_ifs at ha with hlt
    obtain ⟨rfl, rfl⟩ := Prod.mk.inj (Except.ok.inj ha)
    have hids := h.ids
    have hlo := h.lo_le
    rw [hrec, List.append_nil] at hids
    refine ⟨Nat.le_succ_of_le hlo, ?_, ?_, h.asserts⟩
    · exact le_max_of_le_right hlt
    · have hnext : List.range' lo (p.nextId + 1 - lo) = List.range' lo (p.nextId - lo) ++ [p.nextId] := by
        rw [Nat.sub_add_comm hlo, List.range'_1_concat, Nat.add_sub_cancel' hlo]
      rw [List.append_nil, hnext]
      exact (hids.cons p.nextId).trans (List.perm_append_singleton _ _).symm

/-- The assertion of `recycle` holds for an id in use. -/
theorem recycle (h : p.Inv (id :: out)) : (p.recycle id).Inv out := by
  have hlt := h.lt List.mem_cons_self
  refine ⟨h.lo_le, h.le_hi, List.perm_middle.trans h.ids, ?_⟩
  change (p.asserts && decide _) = true
  rw [h.asserts, decide_eq_true hlt]
  rfl

/-- **`allocate` throws exactly when all ids are in use.** -/
theorem allocate_error_iff (h : p.Inv out) (hlt : lo < hi) :
    p.allocate = .error "ID pool exhausted" ↔ out.length = hi - lo := by
  have hlen := h.ids.length_eq
  rw [List.length_append, List.length_range'] at hlen
  have hlo := h.lo_le
  have hhi := h.le_hi
  rw [max_eq_right hlt.le] at hhi
  unfold IdPool.allocate
  cases hrec : p.recycledIds with
  | cons x rest =>
    rw [hrec, List.length_cons] at hlen
    refine iff_of_false (fun he => (nomatch he)) (by omega)
  | nil =>
    rw [hrec, List.length_nil] at hlen
    dsimp only
    split_ifs with hnext
    · refine iff_of_false (fun he => (nomatch he)) (by omega)
    · exact iff_of_true rfl (by omega)

end Inv

theorem allocate_error {what : String} (ha : p.allocate = .error what) : what = "ID pool exhausted" := by
  unfold IdPool.allocate at ha
  split at ha
  · nomatch ha
  · split_ifs at ha
    exact (Except.error.inj ha).symm

theorem allocatable_of_allocate (ha : p.allocate = .ok (id, p')) : p.Allocatable id := by
  unfold allocate at ha
  cases hrec : p.recycledIds with
  | cons y rest =>
    rw [hrec] at ha
    obtain ⟨rfl, -⟩ := Prod.mk.inj (Except.ok.inj ha)
    exact .inl (hrec ▸ List.mem_cons_self)
  | nil =>
    rw [hrec] at ha
    dsimp only at ha
    split_ifs at ha with hlt
    obtain ⟨rfl, -⟩ := Prod.mk.inj (Except.ok.inj ha)
    exact .inr ⟨le_rfl, hlt⟩

/-- Giving the id back restores what can be handed out. -/
theorem allocatable_recycle (ha : p.allocate = .ok (id, p')) (x : ℕ) :
    (p'.recycle id).Allocatable x ↔ p.Allocatable x := by
  unfold allocate at ha
  cases hrec : p.recycledIds with
  | cons y rest =>
    rw [hrec] at ha
    obtain ⟨rfl, rfl⟩ := Prod.mk.inj (Except.ok.inj ha)
    simp only [Allocatable, recycle, hrec]
  | nil =>
    rw [hrec] at ha
    dsimp only at ha
    split_ifs at ha with hlt
    obtain ⟨rfl, rfl⟩ := Prod.mk.inj (Except.ok.inj ha)
    simp only [Allocatable, recycle, hrec, List.mem_singleton, List.not_mem_nil, false_or]
    omega

end IdPool

namespace ProvidedBuffers

open Lib

/-! ## Objects -/

/-- `std::numeric_limits<uint16_t>::max()`, the value of `bgid_` before an id is there. -/
def noBgid : ℕ := 65535

/-- The members of a pool that its `cleanup_` uses; a queue has none of them. -/
inductive GroupKind where
  | queue
  | pool (buffersBase numBuffers bufferSize : ℕ) (ownsBuffers : Bool)
deriving DecidableEq, Repr

/-- A queue or a pool, perhaps half constructed. -/
structure Group where
  /-- Tells the objects apart that had an id. -/
  serial : ℕ
  bgid : ℕ
  /-- `br_` is not null. -/
  br : Bool
  kind : GroupKind
deriving DecidableEq, Repr

inductive BuildError where
  | runtimeError (what : String)
  | systemError (what : String)
deriving DecidableEq, Repr

/-- A call of a constructor; `addr` is what `mmap` returns. -/
inductive Construction where
  | queue (capacity : ℕ)
  | pool (numBuffers bufferSize : ℕ) (addr : Option ℕ)
  | external (bufferData numBuffers bufferSize : ℕ)
deriving DecidableEq, Repr

/-- The runtime as far as queues and pools use it, and the objects that are alive. -/
structure Groups where
  ids : IdPool 0 65535
  /-- The group ids that the kernel has a ring for. -/
  rings : List ℕ
  mapped : List Memory
  live : List Group
  /-- `cleanup_` asserts that the kernel freed the ring and unmapped the memory. -/
  asserts : Bool
  /-- The ids that were handed out, with their objects. -/
  held : List (ℕ × ℕ)
  /-- The ids that were recycled, with their objects. -/
  recycled : List (ℕ × ℕ)

namespace Groups

def init : Groups :=
  { ids := .new, rings := [], mapped := [], live := [], asserts := true, held := [], recycled := [] }

def freeBufRing (s : Groups) (bgid : ℕ) : Groups :=
  { s with rings := s.rings.erase bgid, asserts := s.asserts && decide (bgid ∈ s.rings) }

def recycle (s : Groups) (g : Group) : Groups :=
  { s with ids := s.ids.recycle g.bgid, recycled := s.recycled ++ [(g.serial, g.bgid)] }

def munmap (s : Groups) (m : Memory) : Groups :=
  { s with mapped := s.mapped.erase m, asserts := s.asserts && decide (m ∈ s.mapped) }

/-- `BundledProvidedBufferQueue::cleanup_`, and the first part of `BundledProvidedBufferPool::cleanup_`. -/
def cleanupRing (s : Groups) (g : Group) : Groups :=
  let s := if g.br then s.freeBufRing g.bgid else s
  if g.bgid ≠ noBgid then s.recycle g else s

def cleanup (s : Groups) (g : Group) : Groups :=
  match g.kind with
  | .queue => s.cleanupRing g
  | .pool base num size owns =>
    if owns then (s.cleanupRing g).munmap ⟨base, unmappedLen num size⟩ else s.cleanupRing g

/-- The two constructors behind their initialisers.  `ringOk`: the kernel has the resources for the ring; it refuses a
second ring for the same id. -/
def construct (s : Groups) (kind : GroupKind) (ringOk : Bool) : Option BuildError × Groups :=
  let g : Group := { serial := s.held.length, bgid := noBgid, br := false, kind := kind }
  match s.ids.allocate with
  | .error what => (some (.runtimeError what), s.cleanup g)
  | .ok (id, ids) =>
    let s := { s with ids := ids, held := s.held ++ [(g.serial, id)] }
    let g := { g with bgid := id }
    if ringOk ∧ id ∉ s.rings then
      (none, { s with rings := s.rings ++ [id], live := s.live ++ [{ g with br := true }] })
    else (some (.systemError "io_uring_setup_buf_ring"), s.cleanup g)

/-- The initialisers and the constructor.  `none`: `std::bit_ceil` is undefined. -/
def build (s : Groups) (c : Construction) (ringOk : Bool) : Option (Option BuildError × Groups) :=
  match c with
  | .queue capacity => (bitCeil 32 capacity).map fun _ => s.construct .queue ringOk
  | .pool n size addr => (bitCeil 32 n).map fun num =>
    match addr with
    | none => (some (.systemError "mmap"), s)
    | some a => ({ s with mapped := ⟨a, mappedLen num size⟩ :: s.mapped }).construct
        (.pool a num (size % 2 ^ 32) true) ringOk
  | .external data n size => (bitCeil 32 n).map fun num => s.construct (.pool data num (size % 2 ^ 32) false) ringOk

end Groups

inductive GroupOp where
  | construct (c : Construction) (ringOk : Bool)
  /-- The object at index `j` of the live ones is destroyed. -/
  | destroy (j : ℕ)
deriving DecidableEq, Repr

/-- The size of a buffer fits the member `buffer_size_`. -/
def Construction.Sized : Construction → Prop
  | .pool _ size _ => size < 2 ^ 32
  | _ => True

def GroupOp.Sized : GroupOp → Prop
  | .construct c _ => c.Sized
  | .destroy _ => True

instance : DecidablePred Construction.Sized
  | .pool _ size _ => inferInstanceAs (Decidable (size < 2 ^ 32))
  | .queue _ => .isTrue trivial
  | .external _ _ _ => .isTrue trivial

instance : DecidablePred GroupOp.Sized
  | .construct c _ => inferInstanceAs (Decidable c.Sized)
  | .destroy _ => .isTrue trivial

def Groups.step (s : Groups) : GroupOp → Option Groups
  | .construct c ringOk => (s.build c ringOk).map Prod.snd
  | .destroy j => (s.live[j]?).map fun g => ({ s with live := s.live.eraseIdx j }).cleanup g

/-! ## What objects hold -/

namespace Group

def id? (g : Group) : Option ℕ := if g.bgid = noBgid then none else some g.bgid

def ring? (g : Group) : Option ℕ := if g.br then some g.bgid else none

def region? (g : Group) : Option Memory :=
  match g.kind with
  | .pool base num size true => some ⟨base, unmappedLen num size⟩
  | _ => none

/-- The entry of the object in the logs. -/
def holder? (g : Group) : Option (ℕ × ℕ) := g.id?.map fun id => (g.serial, id)

end Group

namespace Groups

structure Holds (s : Groups) (objs : List Group) : Prop where
  ids : s.ids.Inv (objs.filterMap Group.id?)
  rings : s.rings.Perm (objs.filterMap Group.ring?)
  mapped : s.mapped.Perm (objs.filterMap Group.region?)
  log : s.held.Perm (s.recycled ++ objs.filterMap Group.holder?)
  serials : s.held.map Prod.fst = List.range s.held.length
  asserts : s.asserts = true

variable {s s' : Groups} {g : Group} {objs : List Group}

theorem Holds.perm {objs' : List Group} (h : s.Holds objs) (hp : objs'.Perm objs) : s.Holds objs' where
  ids := h.ids.perm (hp.filterMap _)
  rings := h.rings.trans (hp.filterMap _).symm
  mapped := h.mapped.trans (hp.filterMap _).symm
  log := h.log.trans ((hp.filterMap _).symm.append_left _)
  serials := h.serials
  asserts := h.asserts

/-- Erasing what the first object holds leaves what the others hold. -/
theorem erase_held {α : Type} [BEq α] [LawfulBEq α] {f : Group → Option α} {l : List α} {x : α}
    (h : l.Perm ((g :: objs).filterMap f)) (hx : f g = some x) : x ∈ l ∧ (l.erase x).Perm (objs.filterMap f) := by
  rw [List.filterMap_cons_some hx] at h
  refine ⟨h.symm.subset List.mem_cons_self, ?_⟩
  have herase := h.erase x
  rwa [List.erase_cons_head] at herase

/-- The ring of the object is freed. -/
theorem Holds.freeRing (h : s.Holds (g :: objs)) :
    (if g.br then s.freeBufRing g.bgid else s).Holds ({ g with br := false } :: objs) := by
  by_cases hbr : g.br = true
  · rw [if_pos hbr]
    obtain ⟨hmem, hrings⟩ := erase_held h.rings (show g.ring? = some g.bgid from if_pos hbr)
    refine ⟨h.ids, ?_, h.mapped, h.log, h.serials, ?_⟩
    · rwa [List.filterMap_cons_none rfl]
    · change (s.asserts && decide _) = true
      rw [h.asserts, decide_eq_true hmem]
      rfl
  · rw [if_neg hbr]
    rw [Bool.not_eq_true] at hbr
    rw [← hbr]
    exact h

/-- The id of an object without a ring is recycled. -/
theorem Holds.recycleId (h : s.Holds (g :: objs)) (hbr : g.br = false) :
    (if g.bgid ≠ noBgid then s.recycle g else s).Holds ({ g with bgid := noBgid } :: objs) := by
  have hring : g.ring? = none := by rw [Group.ring?, hbr]; rfl
  have hrings := h.rings
  rw [List.filterMap_cons_none hring] at hrings
  by_cases hid : g.bgid = noBgid
  · rw [if_neg (not_not_intro hid)]
    rw [← hid]
    exact h
  · rw [if_pos hid]
    have hsome : g.id? = some g.bgid := if_neg hid
    have hholder : g.holder? = some (g.serial, g.bgid) := by rw [Group.holder?, hsome]; rfl
    have hids := h.ids
    have hlog := h.log
    rw [List.filterMap_cons_some hsome] at hids
    rw [List.filterMap_cons_some hholder] at hlog
    refine ⟨?_, ?_, h.mapped, ?_, h.serials, h.asserts⟩
    · rw [List.filterMap_cons_none rfl]
      exact hids.recycle
    · rw [List.filterMap_cons_none (by rw [Group.ring?, hbr]; rfl)]
      exact hrings
    · rw [List.filterMap_cons_none rfl]
      change s.held.Perm ((s.recycled ++ [(g.serial, g.bgid)]) ++ _)
      rwa [List.append_assoc, List.singleton_append]

/-- **`cleanup_` gives back what its object holds.** -/
theorem Holds.cleanup (h : s.Holds (g :: objs)) : (s.cleanup g).Holds objs := by
  obtain ⟨serial, bgid, br, kind⟩ := g
  have hring : (s.cleanupRing ⟨serial, bgid, br, kind⟩).Holds (⟨serial, noBgid, false, kind⟩ :: objs) :=
    h.freeRing.recycleId rfl
  unfold Groups.cleanup
  -- nothing but the mapping is left
  have hdrop : ∀ {t : Groups}, t.Holds (⟨serial, noBgid, false, kind⟩ :: objs) →
      (Group.mk serial noBgid false kind).region? = none → t.Holds objs := by
    intro t ht hnone
    obtain ⟨hids, hrings, hmapped, hlog, hserials, hasserts⟩ := ht
    rw [List.filterMap_cons_none rfl] at hids hrings hlog
    rw [List.filterMap_cons_none hnone] at hmapped
    exact ⟨hids, hrings, hmapped, hlog, hserials, hasserts⟩
  cases kind with
  | queue => exact hdrop hring rfl
  | pool base num size owns =>
    cases owns with
    | false => exact hdrop hring rfl
    | true =>
      obtain ⟨hids, hrings, hmapped, hlog, hserials, hasserts⟩ := hring
      obtain ⟨hmem, hmapped⟩ := erase_held hmapped rfl
      rw [List.filterMap_cons_none rfl] at hids hrings hlog
      refine ⟨hids, hrings, hmapped, hlog, hserials, ?_⟩
      change (Groups.asserts _ && decide _) = true
      rw [hasserts, decide_eq_true hmem]
      rfl

/-- `cleanup_` does not touch other objects. -/
theorem cleanup_live (s : Groups) (g : Group) : (s.cleanup g).live = s.live := by
  have hring : (s.cleanupRing g).live = s.live := by
    unfold cleanupRing
    dsimp only
    split_ifs <;> rfl
  unfold cleanup
  split
  · exact hring
  · split_ifs <;> exact hring

theorem cleanup_ids (s : Groups) (g : Group) :
    (s.cleanup g).ids = if g.bgid = noBgid then s.ids else s.ids.recycle g.bgid := by
  have hring : (s.cleanupRing g).ids = if g.bgid = noBgid then s.ids else s.ids.recycle g.bgid := by
    unfold cleanupRing
    dsimp only
    split_ifs <;> first | rfl | contradiction
  unfold cleanup
  split
  · exact hring
  · split_ifs at hring ⊢ <;> exact hring

theorem cleanup_mapped (s : Groups) (g : Group) : (s.cleanup g).mapped = g.region?.elim s.mapped s.mapped.erase := by
  have hring : (s.cleanupRing g).mapped = s.mapped := by
    unfold cleanupRing
    dsimp only
    split_ifs <;> rfl
  obtain ⟨serial, bgid, br, kind⟩ := g
  cases kind with
  | queue => exact hring
  | pool base num size owns =>
    cases owns with
    | false => exact hring
    | true => exact congrArg (List.erase · _) hring

/-! ## Construction -/

/-- The live objects hold what is held, and each of them has an id. -/
structure Inv (s : Groups) : Prop where
  holds : s.Holds s.live
  bgids : ∀ g ∈ s.live, g.bgid ≠ noBgid

theorem init_inv : init.Inv :=
  ⟨⟨IdPool.new_inv, .refl _, .refl _, .refl _, rfl, rfl⟩, fun _ hg => absurd hg List.not_mem_nil⟩

theorem ids_live (hb : ∀ g ∈ objs, g.bgid ≠ noBgid) : objs.filterMap Group.id? = objs.map Group.bgid := by
  rw [← List.filterMap_eq_map]
  exact List.filterMap_congr fun g hg => if_neg (hb g hg)

theorem holders_live (hb : ∀ g ∈ objs, g.bgid ≠ noBgid) :
    objs.filterMap Group.holder? = objs.map fun g => (g.serial, g.bgid) := by
  rw [← List.filterMap_eq_map]
  refine List.filterMap_congr fun g hg => ?_
  rw [Group.holder?, Group.id?, if_neg (hb g hg)]
  rfl

/-- The kernel has a ring only for ids in use. -/
theorem ring_mem {id : ℕ} (h : s.rings.Perm (objs.filterMap Group.ring?)) (hb : ∀ g ∈ objs, g.bgid ≠ noBgid)
    (hid : id ∈ s.rings) : id ∈ objs.filterMap Group.id? := by
  rw [ids_live hb]
  obtain ⟨g, hg, hring⟩ := List.mem_filterMap.mp (h.subset hid)
  obtain ⟨-, hring⟩ := Option.ite_none_right_eq_some.mp hring
  exact Option.some.inj hring ▸ List.mem_map_of_mem hg

/-- The object takes its id. -/
theorem Holds.allocate {kind : GroupKind} {id : ℕ} {ids : IdPool 0 65535}
    (h : s.Holds (⟨s.held.length, noBgid, false, kind⟩ :: objs)) (ha : s.ids.allocate = .ok (id, ids)) :
    ({ s with ids := ids, held := s.held ++ [(s.held.length, id)] } : Groups).Holds
        (⟨s.held.length, id, false, kind⟩ :: objs) ∧ id ≠ noBgid ∧ id ∉ objs.filterMap Group.id? := by
  have hids := h.ids
  rw [List.filterMap_cons_none rfl] at hids
  have hnew := hids.allocate ha
  have hne : id ≠ noBgid := (hnew.lt List.mem_cons_self).2.2.ne
  have hsome : (Group.mk s.held.length id false kind).id? = some id := if_neg hne
  refine ⟨⟨?_, h.rings, h.mapped, ?_, ?_, h.asserts⟩, hne, (List.nodup_cons.mp hnew.nodup).1⟩
  · rw [List.filterMap_cons_some hsome]
    exact hnew
  · have hlog := h.log
    rw [List.filterMap_cons_none rfl] at hlog
    rw [List.filterMap_cons_some (by rw [Group.holder?, hsome]; rfl)]
    exact (List.perm_append_singleton _ _).trans ((hlog.cons _).trans List.perm_middle.symm)
  · dsimp only
    rw [List.map_append, h.serials, List.length_append, List.length_singleton, List.range_succ]
    rfl

/-- The object that a constructor finished: it has an id that was free, and a ring. -/
structure Finished (s s' : Groups) (g : Group) : Prop where
  live : s'.live = s.live ++ [g]
  rings : s'.rings = s.rings ++ [g.bgid]
  allocated : s.ids.Allocatable g.bgid
  unused : g.bgid ∉ s.live.map Group.bgid
  br : g.br = true

/-- What a constructor does: it finishes the object, or fails and leaves everything else as it was. -/
structure Built (s s' : Groups) (ringOk : Bool) (r : Option BuildError) : Prop where
  inv : s'.Inv
  succeeds : r = none ↔ ringOk = true ∧ s.live.length ≠ 65535
  finished : r = none → ∃ g, Finished s s' g
  exhausted : r = some (.runtimeError "ID pool exhausted") ↔ s.live.length = 65535
  refused : ringOk = true → r ≠ some (.systemError "io_uring_setup_buf_ring")
  failed : r ≠ none → (∀ id, s'.ids.Allocatable id ↔ s.ids.Allocatable id) ∧ s'.live = s.live

/-- The destructors run for an object that is not finished, and the constructor throws `e`. -/
theorem Built.fail {e : BuildError} {ringOk : Bool} (h : s'.Holds (g :: s.live)) (hb : ∀ g ∈ s.live, g.bgid ≠ noBgid)
    (hlive : s'.live = s.live) (hnone : ¬(ringOk = true ∧ s.live.length ≠ 65535))
    (hfull : e = .runtimeError "ID pool exhausted" ↔ s.live.length = 65535)
    (hok : ringOk = true → e ≠ .systemError "io_uring_setup_buf_ring")
    (hids : ∀ id, (s'.cleanup g).ids.Allocatable id ↔ s.ids.Allocatable id) :
    Built s (s'.cleanup g) ringOk (some e) := by
  have hsame : (s'.cleanup g).live = s.live := (cleanup_live _ _).trans hlive
  refine ⟨⟨?_, ?_⟩, iff_of_false nofun hnone, nofun, ?_, fun ht he => hok ht (Option.some.inj he), fun _ => ⟨hids, hsame⟩⟩
  · rw [hsame]
    exact h.cleanup
  · rw [hsame]
    exact hb
  · rw [Option.some.injEq]
    exact hfull

theorem construct_built {kind : GroupKind} {ringOk : Bool} {r : Option BuildError}
    (h : s.Holds (⟨s.held.length, noBgid, false, kind⟩ :: s.live)) (hb : ∀ g ∈ s.live, g.bgid ≠ noBgid)
    (hc : s.construct kind ringOk = (r, s')) :
    Built s s' ringOk r ∧ (r ≠ none → s'.mapped = (Group.mk 0 noBgid false kind).region?.elim s.mapped s.mapped.erase) := by
  have hids := h.ids
  rw [List.filterMap_cons_none rfl] at hids
  have hfull := hids.allocate_error_iff (by decide)
  rw [ids_live hb, List.length_map] at hfull
  unfold construct at hc
  cases ha : s.ids.allocate with
  | error what =>
    rw [ha] at hc
    obtain ⟨rfl, rfl⟩ := Prod.mk.inj hc
    obtain rfl := IdPool.allocate_error ha
    refine ⟨Built.fail h hb rfl (fun hand => hand.2 (hfull.mp ha)) (iff_of_true rfl (hfull.mp ha)) (fun _ => by decide) ?_,
      fun _ => cleanup_mapped _ _⟩
    intro id
    rw [cleanup_ids, if_pos rfl]
  | ok idp =>
    obtain ⟨id, ids⟩ := idp
    rw [ha] at hc
    obtain ⟨hholds, hne, hfresh⟩ := h.allocate ha
    have hnotfull : s.live.length ≠ 65535 := by
      intro hlen
      rw [hfull.mpr hlen] at ha
      nomatch ha
    have hrings := h.rings
    rw [List.filterMap_cons_none rfl] at hrings
    have hring : id ∉ s.rings := fun hmem => hfresh (ring_mem hrings hb hmem)
    dsimp only at hc
    by_cases hok : ringOk = true
    · rw [if_pos ⟨hok, hring⟩] at hc
      obtain ⟨rfl, rfl⟩ := Prod.mk.inj hc
      have hdone : Finished s { s with
          ids := ids, held := s.held ++ [(s.held.length, id)], rings := s.rings ++ [id]
          live := s.live ++ [⟨s.held.length, id, true, kind⟩] } ⟨s.held.length, id, true, kind⟩ :=
        ⟨rfl, rfl, IdPool.allocatable_of_allocate ha, ids_live hb ▸ hfresh, rfl⟩
      refine ⟨⟨⟨?_, forall_mem_snoc hb hne⟩, iff_of_true rfl ⟨hok, hnotfull⟩, fun _ => ⟨_, hdone⟩,
        iff_of_false nofun hnotfull, fun _ => nofun, fun hf => absurd rfl hf⟩, fun hf => absurd rfl hf⟩
      refine Holds.perm (?_ : Holds _ (⟨s.held.length, id, true, kind⟩ :: s.live)) (List.perm_append_singleton _ _)
      refine ⟨hholds.ids, ?_, hholds.mapped, hholds.log, hholds.serials, hholds.asserts⟩
      exact (List.perm_append_singleton _ _).trans (hrings.cons id)
    · rw [if_neg fun hand => hok hand.1] at hc
      obtain ⟨rfl, rfl⟩ := Prod.mk.inj hc
      refine ⟨Built.fail hholds hb rfl (fun hand => hok hand.1) (iff_of_false (by decide) hnotfull)
        (fun ht => absurd ht hok) ?_, fun _ => cleanup_mapped _ _⟩
      intro x
      rw [cleanup_ids, if_neg hne]
      exact IdPool.allocatable_recycle ha x

/-- An object that holds nothing but its mapping. -/
theorem Holds.fresh {n : ℕ} {kind : GroupKind} (h : s.Holds objs)
    (hk : (Group.mk n noBgid false kind).region? = none) : s.Holds (⟨n, noBgid, false, kind⟩ :: objs) where
  ids := by rw [List.filterMap_cons_none rfl]; exact h.ids
  rings := by rw [List.filterMap_cons_none rfl]; exact h.rings
  mapped := by rw [List.filterMap_cons_none hk]; exact h.mapped
  log := by rw [List.filterMap_cons_none rfl]; exact h.log
  serials := h.serials
  asserts := h.asserts

theorem Holds.fresh_mapped {n base num size : ℕ} (h : s.Holds objs) :
    ({ s with mapped := ⟨base, unmappedLen num size⟩ :: s.mapped } : Groups).Holds
      (⟨n, noBgid, false, .pool base num size true⟩ :: objs) where
  ids := by rw [List.filterMap_cons_none rfl]; exact h.ids
  rings := by rw [List.filterMap_cons_none rfl]; exact h.rings
  mapped := h.mapped.cons _
  log := by rw [List.filterMap_cons_none rfl]; exact h.log
  serials := h.serials
  asserts := h.asserts

/-- A call of a constructor, from any state of a run. -/
theorem Inv.build {c : Construction} {ringOk : Bool} {r : Option BuildError} (h : s.Inv) (hsize : c.Sized)
    (hb : s.build c ringOk = some (r, s')) :
    s'.Inv ∧ (r ≠ some (.systemError "mmap") → Built s s' ringOk r) ∧ (r ≠ none →
      (∀ id, s'.ids.Allocatable id ↔ s.ids.Allocatable id) ∧ s'.mapped = s.mapped ∧ s'.live = s.live) := by
  cases c with
  | queue capacity =>
    obtain ⟨num, -, hc⟩ := Option.map_eq_some_iff.mp hb
    obtain ⟨hbuilt, hmapped⟩ := construct_built (h.holds.fresh rfl) h.bgids hc
    exact ⟨hbuilt.inv, fun _ => hbuilt, fun hr => ⟨(hbuilt.failed hr).1, hmapped hr, (hbuilt.failed hr).2⟩⟩
  | external data n size =>
    obtain ⟨num, -, hc⟩ := Option.map_eq_some_iff.mp hb
    obtain ⟨hbuilt, hmapped⟩ := construct_built (h.holds.fresh rfl) h.bgids hc
    exact ⟨hbuilt.inv, fun _ => hbuilt, fun hr => ⟨(hbuilt.failed hr).1, hmapped hr, (hbuilt.failed hr).2⟩⟩
  | pool n size addr =>
    obtain ⟨num, -, hc⟩ := Option.map_eq_some_iff.mp hb
    cases addr with
    | none =>
      obtain ⟨rfl, rfl⟩ := Prod.mk.inj hc
      exact ⟨h, fun hne => absurd rfl hne, fun _ => ⟨fun _ => Iff.rfl, rfl, rfl⟩⟩
    | some a =>
      have hlen : mappedLen num size = unmappedLen num (size % 2 ^ 32) := by
        rw [Nat.mod_eq_of_lt hsize]
        rfl
      dsimp only at hc
      rw [hlen] at hc
      obtain ⟨hbuilt, hmapped⟩ := construct_built h.holds.fresh_mapped h.bgids hc
      refine ⟨hbuilt.inv, fun _ => ⟨hbuilt.inv, hbuilt.succeeds, fun hr => ?_, hbuilt.exhausted, hbuilt.refused,
        hbuilt.failed⟩, fun hr => ?_⟩
      · obtain ⟨g, hg⟩ := hbuilt.finished hr
        exact ⟨g, hg.live, hg.rings, hg.allocated, hg.unused, hg.br⟩
      exact ⟨(hbuilt.failed hr).1, (hmapped hr).trans (List.erase_cons_head ..), (hbuilt.failed hr).2⟩

theorem Inv.step {op : GroupOp} (h : s.Inv) (hsize : op.Sized) (hs : s.step op = some s') : s'.Inv := by
  cases op with
  | construct c ringOk =>
    obtain ⟨⟨r, t⟩, hb, rfl⟩ := Option.map_eq_some_iff.mp hs
    exact (h.build hsize hb).1
  | destroy j =>
    obtain ⟨g, hg, rfl⟩ := Option.map_eq_some_iff.mp hs
    have hperm : (g :: s.live.eraseIdx j).Perm s.live := by
      obtain ⟨hlt, rfl⟩ := List.getElem?_eq_some_iff.mp hg
      exact List.getElem_cons_eraseIdx_perm hlt
    have hholds := h.holds.perm hperm
    have hcleanup : (({ s with live := s.live.eraseIdx j } : Groups).cleanup g).Holds (s.live.eraseIdx j) :=
      Holds.cleanup ⟨hholds.ids, hholds.rings, hholds.mapped, hholds.log, hholds.serials, hholds.asserts⟩
    refine ⟨?_, ?_⟩
    · rw [cleanup_live]
      exact hcleanup
    · rw [cleanup_live]
      exact fun x hx => h.bgids x (List.mem_of_mem_eraseIdx hx)

/-- **Buffer group ids over any series of constructions and destructions**: the ids of the live objects are distinct and
below 65535; a constructor that gets its memory fails for lack of ids exactly when 65535 objects are alive, and the
kernel never sees an id twice; it succeeds exactly if there is an id and the kernel has the resources for the ring, and
then the new object has an id that was free and a ring of its own; a constructor that fails leaves the allocatable ids,
the mappings and the live objects as they were; each id that was handed out is recycled once for its object, unless this
is alive; and all assertions hold. -/
theorem group_ids_exact {ops : List GroupOp} (hsize : ∀ op ∈ ops, op.Sized) (hrun : run step init ops = some s) :
    ((s.live.map Group.bgid).Nodup ∧ ∀ g ∈ s.live, g.bgid < 65535) ∧
    (∀ c ringOk r s', c.Sized → s.build c ringOk = some (r, s') →
      (r ≠ some (.systemError "mmap") → (r = some (.runtimeError "ID pool exhausted") ↔ s.live.length = 65535)) ∧
      (ringOk = true → r ≠ some (.systemError "io_uring_setup_buf_ring")) ∧
      (r ≠ some (.systemError "mmap") → (r = none ↔ ringOk = true ∧ s.live.length ≠ 65535)) ∧
      (r = none → ∃ g, Finished s s' g) ∧
      (r ≠ none →
        (∀ id, s'.ids.Allocatable id ↔ s.ids.Allocatable id) ∧ s'.mapped = s.mapped ∧ s'.live = s.live)) ∧
    (s.held.Nodup ∧ s.held.Perm (s.recycled ++ s.live.map fun g => (g.serial, g.bgid))) ∧
    s.ids.asserts = true ∧ s.asserts = true := by
  have h : s.Inv := run_inv_along (fun _ _ _ h hg hs => h.step hg hs) ops init_inv
    (along_of_forall ops init fun op hop _ => hsize op hop) hrun
  have hids := h.holds.ids
  rw [ids_live h.bgids] at hids
  refine ⟨⟨hids.nodup, fun g hg => (hids.lt (List.mem_map_of_mem hg)).2.2⟩, fun c ringOk r s' hc hb => ?_,
    ⟨?_, ?_⟩, hids.asserts, h.holds.asserts⟩
  · obtain ⟨-, hbuilt, hfailed⟩ := h.build hc hb
    refine ⟨fun hne => (hbuilt hne).exhausted, fun hok => ?_, fun hne => (hbuilt hne).succeeds,
      fun hr => (hbuilt (hr ▸ nofun)).finished hr, hfailed⟩
    by_cases hne : r = some (.systemError "mmap")
    · rw [hne]
      decide
    · exact (hbuilt hne).refused hok
  · exact List.Nodup.of_map Prod.fst (h.holds.serials ▸ List.nodup_range)
  · rw [← holders_live h.bgids]
    exact h.holds.log

/-- A queue, a pool whose ring is refused, a second pool; then the queue is destroyed.  The refused pool had id 1, which
the second pool gets. -/
theorem group_ids_exact_run : ∃ s, run step init [.construct (.queue 8) true, .construct (.pool 4 16 (some 4096)) false,
      .construct (.pool 2 32 (some 8192)) true, .destroy 0] = some s ∧
    s.live.map Group.bgid = [1] ∧ s.recycled = [(1, 1), (0, 0)] ∧ s.mapped = [⟨8192, 64⟩] ∧ s.ids.asserts = true := by
  have hrun : (run step init [.construct (.queue 8) true, .construct (.pool 4 16 (some 4096)) false,
      .construct (.pool 2 32 (some 8192)) true, .destroy 0]).map (fun s => (s.live.map Group.bgid, s.recycled, s.mapped)) =
      some ([1], [(1, 1), (0, 0)], [⟨8192, 64⟩]) := by
    decide
  obtain ⟨s, hs, hend⟩ := Option.map_eq_some_iff.mp hrun
  obtain ⟨hlive, hend⟩ := Prod.mk.inj hend
  obtain ⟨hrec, hmapped⟩ := Prod.mk.inj hend
  exact ⟨s, hs, hlive, hrec, hmapped, (group_ids_exact (by decide) hs).2.2.2.1⟩

end Groups

end ProvidedBuffers

end Condy
