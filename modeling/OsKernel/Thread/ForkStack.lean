import OsKernel.Thread.Stack
import Mathlib.Data.BitVec
import Mathlib.Tactic.Ring

/-! # The stack copy of `thread_fork_to_user`

`thread_fork_to_user` gives the child a page-sized block from `kmalloc`, puts
the stack anchor at its top, and copies the parent's in-use kernel stack, from
the stack pointer `sp` up to the parent's `stack_base`, to the same distance
below the child's `stack_base`: the copy carries the trap frame the parent
entered the kernel with.  In the child, the code then zeroes the `a0` slot of
the copied trap frame.

Memory is a map from 64-bit addresses to bytes.  `_thread_finish_fork` (in
assembly) switches to the child's stack and writes none of the bytes
considered here.  The copy stays in the block only when the parent's in-use
stack fits under the anchor, which a thread created by `thread_spawn` or
`thread_fork_to_user` always satisfies, but the main thread, whose stack comes
from `thrasm.s`, need not.
-/

namespace OsKernel.Threads

/-- Bytes of memory, by address. -/
abbrev Bytes := Addr → BitVec 8

/-- Store the 64-bit word `v` at `a`, least significant byte first. -/
def storeWord (m : Bytes) (a : Addr) (v : BitVec 64) : Bytes :=
  fun x => if x - a < 8 then v.extractLsb' (8 * (x - a).toNat) 8 else m x

/-- `memcpy (dst, src, n)`, for regions that do not overlap. -/
def memcpy (m : Bytes) (dst src n : Addr) : Bytes :=
  fun x => if x - dst < n then m (src + (x - dst)) else m x

/-- Sizes from `trap.h`, which is not among the sources. -/
structure TrapFrameLayout where
  /-- `sizeof (struct trap_frame)`. -/
  size : Nat
  /-- The offset of the 8-byte slot `x[TFR_A0]`. -/
  a0 : Nat
  a0_fits : a0 + 8 ≤ size
  size_le_page : size ≤ 4096

/-- A trap frame of the 32 registers, `sstatus` and `sepc`, with `a0` in
`x[10]`. -/
def rv64Frame : TrapFrameLayout where
  size := 272
  a0 := 80
  a0_fits := by decide
  size_le_page := by decide

/-- The stores of `thread_fork_to_user` up to `_thread_finish_fork`: the anchor
at the top of `block` (its `thread` and `reserved` members), then the copy of
the parent's stack from `sp` up to its `stack_base` to the same distance below
the child's `stack_base`.  The value is the memory and `child_kernel_sp`. -/
def forkCopy (L : Layout) (m : Bytes) (block : Addr) (child : Ptr) (parentBase sp : Addr) :
    Bytes × Addr :=
  let base := block + PAGE_SIZE
  let anchor := base - BitVec.ofNat 64 L.anchorSize
  let m := storeWord m anchor (BitVec.ofNat 64 child)
  let m := storeWord m (anchor + 8) 0
  let childBase := base - BitVec.ofNat 64 L.anchorSize
  let used := parentBase - sp
  let childSp := childBase - used
  (memcpy m childSp sp used, childSp)

/-- The child's path after `_thread_finish_fork`: zero the `a0` slot of the trap
frame just below its `stack_base`. -/
def forkChildA0 (F : TrapFrameLayout) (m : Bytes) (childBase : Addr) : Bytes :=
  storeWord m (childBase - BitVec.ofNat 64 F.size + BitVec.ofNat 64 F.a0) 0

/-! ## Copies and stores -/

section Bytes

variable (m : Bytes) {x : Addr}

theorem memcpy_inside {dst src n : Addr} (h : x - dst < n) :
    memcpy m dst src n x = m (src + (x - dst)) := if_pos h

theorem memcpy_outside {dst src n : Addr} (h : n ≤ x - dst) : memcpy m dst src n x = m x :=
  if_neg (by bv_omega)

theorem storeWord_outside {a : Addr} (v : BitVec 64) (h : 8 ≤ x - a) : storeWord m a v x = m x :=
  if_neg (by bv_omega)

theorem storeWord_zero_inside {a : Addr} (h : x - a < 8) : storeWord m a 0 x = 0 := by
  unfold storeWord
  rw [if_pos h]
  simp [BitVec.extractLsb']

end Bytes

/-- `memcpy` to the `n` bytes below `e` puts there the `n` bytes below `src + n`. -/
theorem memcpy_below (m : Bytes) (e src n d : Addr) (pos : 0 < d) (within : d ≤ n) :
    memcpy m (e - n) src n (e - d) = m (src + n - d) := by
  rw [memcpy_inside _ (by rw [show e - d - (e - n) = n - d by ring]; bv_omega)]
  congr 1
  ring

/-- Neither word of the anchor at the top of `block` lies a page or more above
`block`. -/
theorem anchor_words_outside (L : Layout) (block x : Addr) (h : PAGE_SIZE ≤ x - block) :
    8 ≤ x - (block + PAGE_SIZE - BitVec.ofNat 64 L.anchorSize) ∧
      8 ≤ x - (block + PAGE_SIZE - BitVec.ofNat 64 L.anchorSize + 8) := by
  have := L.anchorSize_words
  have := L.anchorSize_le_page
  rw [show x - (block + PAGE_SIZE - BitVec.ofNat 64 L.anchorSize) =
      (x - block) - (PAGE_SIZE - BitVec.ofNat 64 L.anchorSize) by ring,
    show x - (block + PAGE_SIZE - BitVec.ofNat 64 L.anchorSize + 8) =
      (x - block) - (PAGE_SIZE - BitVec.ofNat 64 L.anchorSize) - 8 by ring]
  generalize x - block = y at *
  simp only [PAGE_SIZE] at *
  bv_omega

/-! ## The copy -/

section

variable (L : Layout) (m : Bytes) (block : Addr) (child : Ptr) (parentBase sp : Addr)

theorem forkCopy_eq : (forkCopy L m block child parentBase sp).1 =
    memcpy (storeWord (storeWord m (block + PAGE_SIZE - BitVec.ofNat 64 L.anchorSize)
        (BitVec.ofNat 64 child)) (block + PAGE_SIZE - BitVec.ofNat 64 L.anchorSize + 8) 0)
      (block + PAGE_SIZE - BitVec.ofNat 64 L.anchorSize - (parentBase - sp)) sp
      (parentBase - sp) := rfl

theorem forkCopy_sp : (forkCopy L m block child parentBase sp).2 =
    block + PAGE_SIZE - BitVec.ofNat 64 L.anchorSize - (parentBase - sp) := rfl

/-- The copy puts the parent's byte at distance `d` below its `stack_base` at
the same distance below the child's. -/
theorem forkCopy_copies (separate : ∀ x, x - sp < parentBase - sp → PAGE_SIZE ≤ x - block)
    (d : Addr) (pos : 0 < d) (within : d ≤ parentBase - sp) :
    (forkCopy L m block child parentBase sp).1
      (block + PAGE_SIZE - BitVec.ofNat 64 L.anchorSize - d) = m (parentBase - d) := by
  obtain ⟨low, high⟩ := anchor_words_outside L block _ (separate (parentBase - d)
    (by rw [show parentBase - d - sp = (parentBase - sp) - d by ring]; bv_omega))
  rw [forkCopy_eq, memcpy_below _ _ _ _ _ pos within,
    show sp + (parentBase - sp) - d = parentBase - d by ring, storeWord_outside _ _ high,
    storeWord_outside _ _ low]

/-- The copied range lies in the block when the parent's in-use stack fits
under the anchor. -/
theorem forkCopy_in_block (fits : (parentBase - sp).toNat + L.anchorSize ≤ 4096) (x : Addr)
    (copied : x - (forkCopy L m block child parentBase sp).2 < parentBase - sp) :
    x - block < PAGE_SIZE := by
  have := L.anchorSize_le_page
  rw [forkCopy_sp, show x - (block + PAGE_SIZE - BitVec.ofNat 64 L.anchorSize - (parentBase - sp)) =
    (x - block) - (PAGE_SIZE - BitVec.ofNat 64 L.anchorSize - (parentBase - sp)) by ring] at copied
  generalize x - block = y at *
  generalize parentBase - sp = u at *
  simp only [PAGE_SIZE] at *
  bv_omega

/-- Outside the block, `forkCopy` changes no byte. -/
theorem forkCopy_frame (fits : (parentBase - sp).toNat + L.anchorSize ≤ 4096) (x : Addr)
    (outside : PAGE_SIZE ≤ x - block) : (forkCopy L m block child parentBase sp).1 x = m x := by
  obtain ⟨low, high⟩ := anchor_words_outside L block x outside
  have notCopied : parentBase - sp ≤ x - (forkCopy L m block child parentBase sp).2 :=
    BitVec.not_lt.mp fun copied =>
      BitVec.not_lt.mpr outside (forkCopy_in_block L m block child parentBase sp fits x copied)
  rw [forkCopy_sp] at notCopied
  rw [forkCopy_eq, memcpy_outside _ notCopied, storeWord_outside _ _ high,
    storeWord_outside _ _ low]

end

/-! ## The child's trap frame -/

/-- The child's trap frame after the `a0` store: the slot is zero and every
other byte is as before. -/
theorem forkChildA0_frame (F : TrapFrameLayout) (m : Bytes) (Bc : Addr) (j : Nat)
    (hj : j < F.size) :
    forkChildA0 F m Bc (Bc - BitVec.ofNat 64 F.size + BitVec.ofNat 64 j) =
      if F.a0 ≤ j ∧ j < F.a0 + 8 then 0 else m (Bc - BitVec.ofNat 64 F.size + BitVec.ofNat 64 j) := by
  have := F.size_le_page
  have := F.a0_fits
  have offset : Bc - BitVec.ofNat 64 F.size + BitVec.ofNat 64 j -
      (Bc - BitVec.ofNat 64 F.size + BitVec.ofNat 64 F.a0) = BitVec.ofNat 64 j - BitVec.ofNat 64 F.a0 := by
    ring
  have window : BitVec.ofNat 64 j - BitVec.ofNat 64 F.a0 < 8 ↔ F.a0 ≤ j ∧ j < F.a0 + 8 := by bv_omega
  unfold forkChildA0
  split
  · exact storeWord_zero_inside _ (offset ▸ window.mpr ‹_›)
  · exact storeWord_outside _ _ (offset ▸ BitVec.not_lt.mp (mt window.mp ‹_›))

/-- When the trap frame fits under the anchor, the `a0` store of the child lies
in the block, so it leaves alone every address a page or more above it. -/
theorem forkChildA0_outside (L : Layout) (F : TrapFrameLayout) (m : Bytes) (block x : Addr)
    (fits : F.size + L.anchorSize ≤ 4096) (outside : PAGE_SIZE ≤ x - block) :
    forkChildA0 F m (block + PAGE_SIZE - BitVec.ofNat 64 L.anchorSize) x = m x := by
  have := F.size_le_page
  have := F.a0_fits
  have := L.anchorSize_words
  have := L.anchorSize_le_page
  unfold forkChildA0
  refine storeWord_outside _ _ ?_
  rw [show x - (block + PAGE_SIZE - BitVec.ofNat 64 L.anchorSize - BitVec.ofNat 64 F.size +
    BitVec.ofNat 64 F.a0) = (x - block) - (PAGE_SIZE - BitVec.ofNat 64 L.anchorSize -
      BitVec.ofNat 64 F.size + BitVec.ofNat 64 F.a0) by ring]
  generalize x - block = y at *
  simp only [PAGE_SIZE] at *
  bv_omega

/-! ## The fork -/

namespace Kernel

variable {k k' : Kernel} {L : Layout} {child_proc : Nat} {block : Addr} {child : Ptr}
  {blk : Thread} {tid : Nat}

/-- The parent resumes by returning the child's `tid` from `_thread_finish_fork`. -/
theorem thread_fork_to_user_parent
    (h : k.thread_fork_to_user L child_proc block child blk = some (k', tid)) :
    (k'.mem k.tp).context = .finishFork tid := by
  simp only [thread_fork_to_user, Option.bind_eq_bind, Option.bind_eq_some, pure,
    Option.some.injEq, Prod.mk.injEq] at h
  obtain ⟨i, -, k₁, -, rfl, rfl⟩ := h
  simp

/-- While the main thread holds slot `0`, a forked thread gets a `tid` of at
least `1`. -/
theorem thread_fork_to_user_tid_pos {t : Ptr} (main : k.thrtab MAIN_TID = some t)
    (h : k.thread_fork_to_user L child_proc block child blk = some (k', tid)) : 1 ≤ tid := by
  obtain ⟨i, rfl, empty, -⟩ := thread_fork_to_user_thrtab h
  have : i ≠ MAIN_TID := fun same => by simp_all
  exact Nat.one_le_iff_ne_zero.mpr fun zero => this (Fin.ext zero)

end Kernel

/-- Byte `j` of a trap frame of `T` bytes lies `T - j` bytes below the frame's
top, within an in-use stack of `u ≥ T` bytes. -/
theorem frame_byte_depth {T j : Nat} {u : Addr} (hj : j < T) (hT : T ≤ 4096)
    (holds : T ≤ u.toNat) :
    0 < BitVec.ofNat 64 T - BitVec.ofNat 64 j ∧ BitVec.ofNat 64 T - BitVec.ofNat 64 j ≤ u := by
  constructor <;> bv_omega

theorem sub_lt_of_pos_le {u e : Addr} (pos : 0 < e) (le : e ≤ u) : u - e < u := by
  bv_omega

/-- `thread_fork_to_user` from a state whose slot `0` holds the main thread (as
in every reachable state, `Reachable.main_slot`), with the parent's stack
pointer at `sp`: when the parent's in-use stack holds its trap frame, fits
under the child's anchor and lies outside the child's block, the copy mirrors
it below the child's `stack_base` inside the block, the child's trap frame is
the parent's with `a0` zeroed, the parent's trap frame is untouched, and the
parent will return the child's `tid`, which is at least `1`. -/
theorem thread_fork_to_user_mirrors_stack (F : TrapFrameLayout) {L : Layout} {k k' : Kernel}
    {child_proc : Nat} {block : Addr} {child : Ptr} {blk : Thread} {tid : Nat}
    (main : k.thrtab MAIN_TID = some main_thread)
    (forked : k.thread_fork_to_user L child_proc block child blk = some (k', tid))
    (m : Bytes) (sp : Addr)
    (holds_frame : F.size ≤ ((k.mem k.tp).stack_base - sp).toNat)
    (fits : ((k.mem k.tp).stack_base - sp).toNat + L.anchorSize ≤ 4096)
    (separate : ∀ x, x - sp < (k.mem k.tp).stack_base - sp → PAGE_SIZE ≤ x - block) :
    let Bp := (k.mem k.tp).stack_base
    let Bc := (k'.mem child).stack_base
    let copied := forkCopy L m block child Bp sp
    let T := BitVec.ofNat 64 F.size
    (∀ d, 0 < d → d ≤ Bp - sp → copied.1 (Bc - d) = m (Bp - d)) ∧
    (∀ x, x - copied.2 < Bp - sp → x - block < PAGE_SIZE) ∧
    (∀ j < F.size, forkChildA0 F copied.1 Bc (Bc - T + BitVec.ofNat 64 j) =
      if F.a0 ≤ j ∧ j < F.a0 + 8 then 0 else m (Bp - T + BitVec.ofNat 64 j)) ∧
    (∀ j < F.size, forkChildA0 F copied.1 Bc (Bp - T + BitVec.ofNat 64 j) =
      m (Bp - T + BitVec.ofNat 64 j)) ∧
    (k'.mem k.tp).context = .finishFork tid ∧ 1 ≤ tid := by
  intro Bp Bc copied T
  have Bc_eq : Bc = block + PAGE_SIZE - BitVec.ofNat 64 L.anchorSize :=
    (Kernel.thread_fork_to_user_stack forked).1
  refine ⟨fun d pos within => by rw [Bc_eq]; exact forkCopy_copies L m block child Bp sp separate d pos within,
    forkCopy_in_block L m block child Bp sp fits, fun j hj => ?_, fun j hj => ?_,
    Kernel.thread_fork_to_user_parent forked,
    Kernel.thread_fork_to_user_tid_pos main forked⟩
  all_goals obtain ⟨pos, within⟩ := frame_byte_depth hj F.size_le_page holds_frame
  · rw [forkChildA0_frame F _ _ j hj]
    split
    · rfl
    · rw [show Bc - T + BitVec.ofNat 64 j = Bc - (T - BitVec.ofNat 64 j) by ring, Bc_eq,
        forkCopy_copies L m block child Bp sp separate _ pos within]
      congr 1
      ring
  · have outside := separate (Bp - T + BitVec.ofNat 64 j) (by
      rw [show Bp - T + BitVec.ofNat 64 j - sp = (Bp - sp) - (T - BitVec.ofNat 64 j) by ring]
      exact sub_lt_of_pos_le pos within)
    rw [Bc_eq, forkChildA0_outside L F _ block _ (by omega) outside,
      forkCopy_frame L m block child Bp sp fits _ outside]

theorem thread_fork_to_user_mirrors_stack_from_main : ∃ k' tid,
    (thread_init bootLayout fun _ => blank).thread_fork_to_user bootLayout 1 0x90000000 10 blank =
      some (k', tid) ∧ 1 ≤ tid := by
  obtain ⟨⟨k', tid⟩, forked⟩ := Option.isSome_iff_exists.mp (show
    ((thread_init bootLayout fun _ => blank).thread_fork_to_user bootLayout 1 0x90000000 10
      blank).isSome by decide)
  have base : ((thread_init bootLayout fun _ => blank).mem
      (thread_init bootLayout fun _ => blank).tp).stack_base = 0x80011000 := rfl
  refine ⟨k', tid, forked, (thread_fork_to_user_mirrors_stack rv64Frame rfl forked
    (fun _ => 0) (0x80011000 - 512) (by rw [base]; decide) (by rw [base]; decide)
    fun x inUse => ?_).2.2.2.2.2⟩
  rw [base] at inUse
  simp only [PAGE_SIZE]
  bv_omega

/-- The main thread forks with its stack in use down to its lowest byte, as
`stack_base - stack_size ≤ sp` allows: the copy starts 16 bytes below the
child's block. -/
theorem full_main_stack_overflows_block :
    let k := thread_init bootLayout fun _ => blank
    let Bp := (k.mem k.tp).stack_base
    let sp := Bp - (k.mem k.tp).stack_size
    (∃ k' tid, k.thread_fork_to_user bootLayout 1 0x90000000 10 blank = some (k', tid)) ∧
      Bp - (k.mem k.tp).stack_size ≤ sp ∧ sp ≤ Bp ∧
      ¬ ∀ x, x - (forkCopy bootLayout (fun _ => 0) 0x90000000 10 Bp sp).2 < Bp - sp →
        x - 0x90000000 < PAGE_SIZE := by
  intro k Bp sp
  refine ⟨?_, by decide, by decide, fun inside => ?_⟩
  · obtain ⟨⟨k', tid⟩, h⟩ := Option.isSome_iff_exists.mp (show
      (k.thread_fork_to_user bootLayout 1 0x90000000 10 blank).isSome by decide)
    exact ⟨k', tid, h⟩
  · exact absurd (inside (forkCopy bootLayout (fun _ => 0) 0x90000000 10 Bp sp).2 (by decide))
      (by decide)

end OsKernel.Threads
