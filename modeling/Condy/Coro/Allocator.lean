import Condy.Align
import Condy.Lib.Run
import Mathlib.Data.List.Perm.Basic
import Mathlib.Logic.Function.Basic

/-!
# Condy.Coro.Allocator — `BindAllocator` of `detail/coro.hpp`: coroutine frames from a user's allocator

`operator new` asks the allocator for the frame and a copy of the allocator behind it; `operator delete` is given only the
frame and its size, finds the copy again by the same rounding, moves it out and returns the block through it.

Memory is byte by byte.  The coroutines write what they like inside their frames, and everybody else writes what they like
outside the blocks that are handed out, so the copy is kept only because nothing of that reaches it.
-/

namespace Condy.Coro.Allocator

open Lib

/-- A byte of an allocator object, or any other byte. -/
inductive Byte (A : Type) where
  | raw (b : ℕ)
  | part (a : A) (i : ℕ)
deriving DecidableEq, Repr

/-- `alignof(Allocator)`, a power of two, and `sizeof(Allocator)`. -/
structure Layout where
  alignLog : ℕ
  sizeof : ℕ
  log_le : alignLog ≤ 64
  sizeof_pos : 0 < sizeof

/-- A coroutine frame, and the allocator that its coroutine function was called with. -/
structure Frame (A : Type) where
  base : ℕ
  size : ℕ
  alloc : A
deriving DecidableEq, Repr

/-- What an allocator has handed out. -/
structure Block (A : Type) where
  alloc : A
  base : ℕ
  size : ℕ
deriving DecidableEq, Repr

def Block.Apart {A : Type} (b c : Block A) : Prop := b.base + b.size ≤ c.base ∨ c.base + c.size ≤ b.base

instance {A : Type} (b c : Block A) : Decidable (b.Apart c) := inferInstanceAs (Decidable (_ ∨ _))

def Block.Inside {A : Type} (b : Block A) (x : ℕ) : Prop := b.base ≤ x ∧ x < b.base + b.size

instance {A : Type} (b : Block A) (x : ℕ) : Decidable (b.Inside x) := inferInstanceAs (Decidable (_ ∧ _))

namespace Layout

variable {A : Type} (l : Layout)

/-- `allocator_offset`. -/
def allocatorOffset (size : ℕ) : ℕ := alignUp size (2 ^ l.alignLog)

/-- `total_size`. -/
def totalSize (size : ℕ) : ℕ := (l.allocatorOffset size + l.sizeof) % 2 ^ 64

/-- The block that is requested for a frame. -/
def block (f : Frame A) : Block A := ⟨f.alloc, f.base, l.totalSize f.size⟩

/-- `mem + allocator_offset`. -/
def copyAddr (f : Frame A) : ℕ := f.base + l.allocatorOffset f.size

/-- The computation of `total_size` does not wrap. -/
def Fits (size : ℕ) : Prop := size + 2 ^ l.alignLog + l.sizeof ≤ 2 ^ 64

/-- The placement new of the copy. -/
def construct (mem : ℕ → Byte A) (addr : ℕ) (a : A) : ℕ → Byte A :=
  fun x => if addr ≤ x ∧ x < addr + l.sizeof then .part a (x - addr) else mem x

/-- The destructor of the copy; what is left there has no value. -/
def destroy (mem : ℕ → Byte A) (addr : ℕ) : ℕ → Byte A :=
  fun x => if addr ≤ x ∧ x < addr + l.sizeof then .raw 0 else mem x

/-- The allocator object at an address, if there is one. -/
def load [DecidableEq A] (mem : ℕ → Byte A) (addr : ℕ) : Option A :=
  match mem addr with
  | .part a 0 => if ∀ i < l.sizeof, mem (addr + i) = .part a i then some a else none
  | _ => none

end Layout

/-- `frames` are the coroutine frames that are alive, `blocks` what the allocators have handed out and not got back. -/
structure Heap (A : Type) where
  mem : ℕ → Byte A
  frames : List (Frame A)
  blocks : List (Block A)
  /-- Something was read as an allocator that is none, or a block was returned that its allocator had not handed out. -/
  fault : Bool

inductive Op (A : Type) where
  /-- `operator new` for a frame; the allocator's answer is its base. -/
  | new (f : Frame A)
  /-- `operator new` whose copy constructor of the allocator throws. -/
  | newThrows (f : Frame A)
  /-- The coroutine writes to its frame. -/
  | write (f : Frame A) (i : ℕ) (b : Byte A)
  /-- Something else in the process writes, the allocators into their own free memory included. -/
  | writeElsewhere (x : ℕ) (b : Byte A)
  /-- `operator delete` with the frame and its size, as the compiler calls it. -/
  | delete (f : Frame A)

namespace Heap

variable {A : Type} [DecidableEq A] (l : Layout)

def init (mem : ℕ → Byte A) : Heap A := { mem := mem, frames := [], blocks := [], fault := false }

/-- An allocator hands out only memory that no allocator has handed out. -/
def Free (h : Heap A) (b : Block A) : Prop := ∀ c ∈ h.blocks, b.Apart c

instance (h : Heap A) (b : Block A) : Decidable (h.Free b) := inferInstanceAs (Decidable (∀ c ∈ _, _))

def allocate (h : Heap A) (b : Block A) : Heap A := { h with blocks := b :: h.blocks }

def deallocate (h : Heap A) (b : Block A) : Heap A :=
  if b ∈ h.blocks then { h with blocks := h.blocks.erase b } else { h with fault := true }

def operatorNew (h : Heap A) (f : Frame A) : Heap A :=
  let h' := h.allocate (l.block f)
  { h' with mem := l.construct h'.mem (l.copyAddr f) f.alloc, frames := f :: h'.frames }

def operatorNewThrows (h : Heap A) (f : Frame A) : Heap A := (h.allocate (l.block f)).deallocate (l.block f)

/-- `operator delete(ptr, size)`: the allocator comes from the copy in memory. -/
def operatorDelete (h : Heap A) (ptr size : ℕ) : Heap A :=
  match l.load h.mem (ptr + l.allocatorOffset size) with
  | none => { h with fault := true }
  | some a =>
    { h with mem := l.destroy h.mem (ptr + l.allocatorOffset size) }.deallocate ⟨a, ptr, l.totalSize size⟩

def step (h : Heap A) : Op A → Option (Heap A)
  | .new f => if h.Free (l.block f) then some (h.operatorNew l f) else none
  | .newThrows f => if h.Free (l.block f) then some (h.operatorNewThrows l f) else none
  | .write f i b =>
    if f ∈ h.frames ∧ i < f.size then some { h with mem := Function.update h.mem (f.base + i) b } else none
  | .writeElsewhere x b =>
    if ∀ c ∈ h.blocks, ¬ c.Inside x then some { h with mem := Function.update h.mem x b } else none
  | .delete f =>
    if f ∈ h.frames then
      let h' := h.operatorDelete l f.base f.size
      some { h' with frames := h'.frames.erase f }
    else none

end Heap

/-- The sizes of the frames are such that nothing wraps. -/
def Op.Fits {A : Type} (l : Layout) : Op A → Prop
  | .new f => l.Fits f.size
  | _ => True

/-! ## Where the copy lies -/

namespace Layout

variable {A : Type} {l : Layout} {f : Frame A}

theorem Fits.offset {size : ℕ} (h : l.Fits size) :
    size ≤ l.allocatorOffset size ∧ l.allocatorOffset size + l.sizeof < 2 ^ 64 := by
  unfold Fits at h
  have hup := alignUp_bounds (v := size) l.log_le (by omega)
  unfold allocatorOffset
  omega

theorem Fits.totalSize {size : ℕ} (h : l.Fits size) : l.totalSize size = l.allocatorOffset size + l.sizeof :=
  Nat.mod_eq_of_lt h.offset.2

/-- The frame ends before the copy. -/
theorem Fits.frame_before (h : l.Fits f.size) : f.base + f.size ≤ l.copyAddr f :=
  Nat.add_le_add_left h.offset.1 _

/-- The copy ends with the block. -/
theorem Fits.copy_end (h : l.Fits f.size) : l.copyAddr f + l.sizeof = (l.block f).base + (l.block f).size := by
  show f.base + l.allocatorOffset f.size + l.sizeof = f.base + l.totalSize f.size
  rw [h.totalSize, Nat.add_assoc]

/-- The copy is aligned if the block is. -/
theorem aligned_copyAddr (h : 2 ^ l.alignLog ∣ f.base) : 2 ^ l.alignLog ∣ l.copyAddr f :=
  Nat.dvd_add h (dvd_alignUp l.log_le)

/-- The copy lies inside its block. -/
theorem Fits.inside (h : l.Fits f.size) {x : ℕ} (hx : l.copyAddr f ≤ x) (hx' : x < l.copyAddr f + l.sizeof) :
    (l.block f).Inside x :=
  ⟨Nat.le_trans (Nat.le_add_right _ _) hx, h.copy_end ▸ hx'⟩

theorem copies_apart {g : Frame A} (hf : l.Fits f.size) (hg : l.Fits g.size) (hapart : (l.block f).Apart (l.block g)) {x : ℕ}
    (hx : l.copyAddr g ≤ x) (hx' : x < l.copyAddr g + l.sizeof) : ¬ (l.copyAddr f ≤ x ∧ x < l.copyAddr f + l.sizeof) := by
  rintro ⟨hy, hy'⟩
  have hin := hf.inside hy hy'
  have hin' := hg.inside hx hx'
  unfold Block.Apart at hapart
  unfold Block.Inside at hin hin'
  omega

/-- A copy is in memory, all of it. -/
def Stored (l : Layout) (mem : ℕ → Byte A) (addr : ℕ) (a : A) : Prop := ∀ i < l.sizeof, mem (addr + i) = .part a i

variable {mem mem' : ℕ → Byte A} {addr : ℕ} {a : A}

theorem Stored.load [DecidableEq A] (h : l.Stored mem addr a) : l.load mem addr = some a := by
  have hfirst : mem addr = .part a 0 := h 0 l.sizeof_pos
  unfold Layout.load
  rw [hfirst]
  exact if_pos h

theorem Stored.congr (h : l.Stored mem addr a) (hsame : ∀ x, addr ≤ x → x < addr + l.sizeof → mem' x = mem x) :
    l.Stored mem' addr a := by
  intro i hi
  rw [hsame (addr + i) (by omega) (by omega)]
  exact h i hi

theorem Stored.update (h : l.Stored mem addr a) {x : ℕ} {b : Byte A} (hx : x < addr ∨ addr + l.sizeof ≤ x) :
    l.Stored (Function.update mem x b) addr a :=
  h.congr fun y hy hy' => Function.update_of_ne (by omega) _ _

theorem stored_construct : l.Stored (l.construct mem addr a) addr a := by
  intro i hi
  unfold construct
  rw [if_pos ⟨by omega, by omega⟩, Nat.add_sub_cancel_left]

theorem construct_of_outside {x : ℕ} (hx : ¬ (addr ≤ x ∧ x < addr + l.sizeof)) : l.construct mem addr a x = mem x := if_neg hx

theorem destroy_of_outside {x : ℕ} (hx : ¬ (addr ≤ x ∧ x < addr + l.sizeof)) : l.destroy mem addr x = mem x := if_neg hx

end Layout

/-! ## The invariant -/

namespace Heap

variable {A : Type} {l : Layout} {h h' : Heap A}

structure Inv (l : Layout) (h : Heap A) : Prop where
  sound : h.fault = false
  blocks : h.blocks.Perm (h.frames.map l.block)
  apart : h.frames.Pairwise fun f g => (l.block f).Apart (l.block g)
  fits : ∀ f ∈ h.frames, l.Fits f.size
  stored : ∀ f ∈ h.frames, l.Stored h.mem (l.copyAddr f) f.alloc

theorem init_inv (mem : ℕ → Byte A) : (init mem).Inv l where
  sound := rfl
  blocks := List.Perm.refl _
  apart := List.Pairwise.nil
  fits := fun _ hf => absurd hf List.not_mem_nil
  stored := fun _ hf => absurd hf List.not_mem_nil

namespace Inv

variable {f g : Frame A}

theorem mem_blocks (hi : h.Inv l) (hf : f ∈ h.frames) : l.block f ∈ h.blocks :=
  hi.blocks.mem_iff.mpr (List.mem_map_of_mem hf)

/-- A change of memory that leaves the copies alone. -/
theorem setMem (hi : h.Inv l) {mem : ℕ → Byte A} (hst : ∀ f ∈ h.frames, l.Stored mem (l.copyAddr f) f.alloc) :
    { h with mem := mem }.Inv l :=
  ⟨hi.sound, hi.blocks, hi.apart, hi.fits, hst⟩

theorem operatorNew (hi : h.Inv l) (hfree : h.Free (l.block f)) (hfit : l.Fits f.size) : (h.operatorNew l f).Inv l where
  sound := hi.sound
  blocks := hi.blocks.cons _
  apart := List.pairwise_cons.mpr ⟨fun g hg => hfree _ (hi.mem_blocks hg), hi.apart⟩
  fits := List.forall_mem_cons.mpr ⟨hfit, hi.fits⟩
  stored := by
    refine List.forall_mem_cons.mpr ⟨Layout.stored_construct, fun g hg => ?_⟩
    have hapart := hfree _ (hi.mem_blocks hg)
    exact (hi.stored g hg).congr fun x hx hx' =>
      Layout.construct_of_outside (Layout.copies_apart hfit (hi.fits g hg) hapart hx hx')

theorem writeElsewhere (hi : h.Inv l) {x : ℕ} (hx : ∀ c ∈ h.blocks, ¬ c.Inside x) (b : Byte A) :
    { h with mem := Function.update h.mem x b }.Inv l := by
  refine hi.setMem fun g hg => (hi.stored g hg).update ?_
  by_contra hin
  exact hx _ (hi.mem_blocks hg) ((hi.fits g hg).inside (by omega) (by omega))

variable [DecidableEq A]

/-- A frame and one that is left after its removal have their blocks apart. -/
theorem apart_erase (hi : h.Inv l) (hf : f ∈ h.frames) (hg : g ∈ h.frames.erase f) : (l.block f).Apart (l.block g) := by
  have hsymm : ∀ f g : Frame A, (l.block f).Apart (l.block g) → (l.block g).Apart (l.block f) := fun _ _ => Or.symm
  have hpair := (List.perm_cons_erase hf).pairwise hi.apart (fun {f g} => hsymm f g)
  exact List.rel_of_pairwise_cons hpair hg

theorem operatorNewThrows (hi : h.Inv l) (f : Frame A) : (h.operatorNewThrows l f).Inv l := by
  have hback : h.operatorNewThrows l f = h := by
    unfold Heap.operatorNewThrows deallocate allocate
    rw [if_pos List.mem_cons_self, List.erase_cons_head]
  rw [hback]
  exact hi

/-- The deallocation is of the frame's block, through the allocator that handed it out. -/
theorem operatorDelete_eq (hi : h.Inv l) (hf : f ∈ h.frames) : h.operatorDelete l f.base f.size =
    { h with mem := l.destroy h.mem (l.copyAddr f), blocks := h.blocks.erase (l.block f) } := by
  have hload : l.load h.mem (f.base + l.allocatorOffset f.size) = some f.alloc := (hi.stored f hf).load
  unfold Heap.operatorDelete
  rw [hload]
  exact if_pos (hi.mem_blocks hf)

theorem operatorDelete (hi : h.Inv l) (hf : f ∈ h.frames) :
    { h.operatorDelete l f.base f.size with frames := (h.operatorDelete l f.base f.size).frames.erase f }.Inv l := by
  rw [hi.operatorDelete_eq hf]
  have hsub : ∀ g ∈ h.frames.erase f, g ∈ h.frames := fun _ => List.mem_of_mem_erase
  refine ⟨hi.sound, ?_, hi.apart.sublist List.erase_sublist, fun g hg => hi.fits g (hsub g hg), fun g hg => ?_⟩
  · have hsplit : h.blocks.Perm (l.block f :: (h.frames.erase f).map l.block) :=
      hi.blocks.trans ((List.perm_cons_erase hf).map l.block)
    exact ((List.perm_cons_erase (hi.mem_blocks hf)).symm.trans hsplit).cons_inv
  · have hapart := hi.apart_erase hf hg
    exact (hi.stored g (hsub g hg)).congr fun x hx hx' =>
      Layout.destroy_of_outside (Layout.copies_apart (hi.fits f hf) (hi.fits g (hsub g hg)) hapart hx hx')

/-- A frame's own bytes lie before its copy, and apart from the other copies. -/
theorem write (hi : h.Inv l) (hf : f ∈ h.frames) {i : ℕ} (hlt : i < f.size) (b : Byte A) :
    { h with mem := Function.update h.mem (f.base + i) b }.Inv l := by
  refine hi.setMem fun g hg => (hi.stored g hg).update ?_
  have hbefore := (hi.fits f hf).frame_before
  by_cases hgf : g = f
  · subst hgf
    omega
  · have hapart := hi.apart_erase hf ((List.mem_erase_of_ne hgf).mpr hg)
    have hend := (hi.fits f hf).copy_end
    have hend' := (hi.fits g hg).copy_end
    have hstart : (l.block g).base ≤ l.copyAddr g := Nat.le_add_right _ _
    have hbase : (l.block f).base = f.base := rfl
    unfold Block.Apart at hapart
    omega

end Inv

variable [DecidableEq A]

theorem step_inv (op : Op A) (hi : h.Inv l) (hfit : op.Fits l) (hs : h.step l op = some h') : h'.Inv l := by
  cases op with
  | new f =>
    obtain ⟨hfree, hs⟩ := Option.ite_none_right_eq_some.mp hs
    cases hs
    exact hi.operatorNew hfree hfit
  | newThrows f =>
    obtain ⟨-, hs⟩ := Option.ite_none_right_eq_some.mp hs
    cases hs
    exact hi.operatorNewThrows f
  | write f i b =>
    obtain ⟨⟨hf, hlt⟩, hs⟩ := Option.ite_none_right_eq_some.mp hs
    cases hs
    exact hi.write hf hlt b
  | writeElsewhere x b =>
    obtain ⟨hx, hs⟩ := Option.ite_none_right_eq_some.mp hs
    cases hs
    exact hi.writeElsewhere hx b
  | delete f =>
    obtain ⟨hf, hs⟩ := Option.ite_none_right_eq_some.mp hs
    cases hs
    exact hi.operatorDelete hf

/-- Over every run the blocks that are handed out are those of the frames that are alive, whatever the coroutines and
everybody else write; `operator delete` never reads anything else as an allocator and never returns a block to an allocator
that did not hand it out with this size.  A copy lies behind its frame, aligned if the block is. -/
theorem blocks_returned {mem : ℕ → Byte A} {ops : List (Op A)} (hsizes : ∀ op ∈ ops, op.Fits l)
    (hrun : run (step l) (init mem) ops = some h) :
    h.fault = false ∧ h.blocks.Perm (h.frames.map l.block) ∧
      ∀ f ∈ h.frames, f.base + f.size ≤ l.copyAddr f ∧ (2 ^ l.alignLog ∣ f.base → 2 ^ l.alignLog ∣ l.copyAddr f) ∧
        l.load h.mem (l.copyAddr f) = some f.alloc := by
  have hi : h.Inv l := run_inv_along (I := Inv l) (G := fun _ op => op.Fits l)
    (fun _ op _ hi hfit hs => step_inv op hi hfit hs) ops (init_inv mem)
    (along_of_forall ops _ fun op hop _ => hsizes op hop) hrun
  exact ⟨hi.sound, hi.blocks, fun f hf =>
    ⟨(hi.fits f hf).frame_before, Layout.aligned_copyAddr, (hi.stored f hf).load⟩⟩

/-- Two frames of 20 bytes from two allocators of 8 bytes; the first writes to its last byte, a third allocation fails, and
the first frame is freed. -/
def twoFrames : List (Op Bool) :=
  [.new ⟨64, 20, true⟩, .new ⟨96, 20, false⟩, .write ⟨64, 20, true⟩ 19 (.raw 7), .newThrows ⟨128, 9, true⟩,
    .writeElsewhere 130 (.part true 0), .delete ⟨64, 20, true⟩]

theorem blocks_returned_two : ∃ h, run (step ⟨3, 8, by decide, by decide⟩) (init fun _ => .raw 0) twoFrames = some h ∧
    h.fault = false ∧ h.blocks = [⟨false, 96, 32⟩] := by
  have hrun : (run (step ⟨3, 8, by decide, by decide⟩) (init fun _ => .raw 0) twoFrames).map
      (fun h => (h.frames, h.blocks)) = some ([⟨96, 20, false⟩], [⟨false, 96, 32⟩]) := by decide +kernel
  obtain ⟨h, hh, hfields⟩ := Option.map_eq_some_iff.mp hrun
  have hfit : ∀ op ∈ twoFrames, op.Fits ⟨3, 8, by decide, by decide⟩ := by
    simp [twoFrames, Op.Fits, Layout.Fits]
  exact ⟨h, hh, (blocks_returned hfit hh).1, congrArg Prod.snd hfields⟩

end Heap

end Condy.Coro.Allocator
