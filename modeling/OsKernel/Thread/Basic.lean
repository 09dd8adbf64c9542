import Mathlib.Data.Fin.Basic
import OsKernel.Store

/-! # The thread manager's data model

`thread.c` keeps a fixed table `thrtab` of `struct thread` pointers, a ready
list and, per condition variable, a wait list; the two lists are singly linked
through each thread's `list_next` member and delimited by a `struct
thread_list` header holding `head` and `tail`.  This module fixes the shapes of
these objects.

Pointers to `struct thread` are addresses (`Ptr`), and memory maps every address
to the record stored there, so a pointer read out of uninitialised memory can
point anywhere and reading through it yields whatever is there.  The kernel
stack addresses are 64-bit values (`Addr`), since the stack arithmetic of
`thread_spawn`, `thread_fork_to_user` and `suspend_self` wraps.

The running thread's position in its code is kept in `Kernel.ctl`; a thread
that is switched out keeps in its saved `context` where it will resume.
-/

namespace OsKernel.Threads

/-- `NTHR`, the number of slots of `thrtab`. -/
def NTHR : Nat := 16

/-- `MAIN_TID`. -/
def MAIN_TID : Fin NTHR := ⟨0, by decide⟩

/-- `IDLE_TID`, that is `NTHR-1`. -/
def IDLE_TID : Fin NTHR := ⟨NTHR - 1, by decide⟩

/-- The slots of `thrtab`, in the order the loops of `thread.c` scan them. -/
def slots : List (Fin NTHR) :=
  (List.range NTHR).pmap Fin.mk fun _ h => List.mem_range.mp h

theorem mem_slots (i : Fin NTHR) : i ∈ slots := by
  simp only [slots, List.mem_pmap, List.mem_range]
  exact ⟨i.val, i.isLt, rfl⟩

/-- A 64-bit address. -/
abbrev Addr := BitVec 64

/-- Modelled from the spec: `PAGE_SIZE` comes from `memory.h`, which is not
among the sources; the spec's pages are 4 KiB. -/
def PAGE_SIZE : Addr := 4096

/-- The address of a `struct thread`. -/
abbrev Ptr := Nat

/-- `enum thread_state`. -/
inductive ThreadState
  | uninitialized
  | stopped
  | waiting
  | running
  | ready
  | exited
  deriving DecidableEq, Repr

/-- `struct thread_list`: the first and last thread of a list linked through
`list_next`. -/
structure ThreadList where
  head : Option Ptr
  tail : Option Ptr
  deriving DecidableEq, Repr

/-- The empty list, as `tlclear` leaves it. -/
def ThreadList.empty : ThreadList := ⟨none, none⟩

/-- A `struct condition *`: the `child_exit` member of the thread at `t`, or one
of the kernel's other condition variables (in drivers and pipes, outside
`thread.c`). -/
inductive Cond
  | childExit (t : Ptr)
  | other (c : Nat)
  deriving DecidableEq, Repr

/-- Where the running thread is in its code: back in its caller, free to call
the thread API (`user`); in `thread_join`'s loop on `child` in slot `tid`; in
`thread_join_any` after its wait; in `thread_exit` after `suspend_self`; or at
address `0`, where `_thread_swtch` returns into a context no kernel routine
wrote, and the machine faults (`fault`). -/
inductive Ctl
  | user
  | join (tid : Nat) (child : Ptr)
  | joinAny
  | exited
  | fault
  deriving DecidableEq, Repr

/-- The saved `struct thread_context`, read as the point where a thread resumes
when it is switched to: its start function (`_thread_setup`), the parent's
return from `_thread_finish_fork` with the child's `tid`, or the return of
`_thread_swtch` inside `suspend_self`, followed by `ctl`.  A record that none of
these wrote holds `zero`: `ra` and `sp` are `NULL`, as in an all-zero
`struct thread`. -/
inductive Context
  | setup
  | finishFork (tid : Nat)
  | suspended (ctl : Ctl)
  | zero
  deriving DecidableEq, Repr

/-- `struct thread`, without `name`, which nothing modelled reads. -/
structure Thread where
  context : Context
  stack_base : Addr
  stack_size : Addr
  state : ThreadState
  id : Nat
  proc : Option Nat
  parent : Option Ptr
  list_next : Option Ptr
  wait_cond : Option Cond
  /-- The wait list of the `child_exit` condition. -/
  child_exit : ThreadList
  deriving DecidableEq, Repr

/-- Sizes and symbols the thread manager takes from a header (`thread.h`) and
from assembly (`thrasm.s`) that are not among the sources. -/
structure Layout where
  /-- `sizeof (struct thread_stack_anchor)`: the anchor holds the 8-byte members
  `thread` and `reserved`, and the creators place it at the top of a one-page
  stack. -/
  anchorSize : Nat
  anchorSize_words : 16 ≤ anchorSize
  anchorSize_le_page : anchorSize ≤ 4096
  mainStackAnchor : Addr
  mainStackLowest : Addr
  idleStackAnchor : Addr
  idleStackLowest : Addr

/-- The whole state of the thread manager. -/
structure Kernel where
  /-- The record at every address. -/
  mem : Ptr → Thread
  thrtab : Fin NTHR → Option Ptr
  ready_list : ThreadList
  /-- The wait lists of the conditions outside `thread.c`. -/
  conds : Nat → ThreadList
  /-- `tp`, the running thread (`CURTHR`). -/
  tp : Ptr
  ctl : Ctl
  /-- Kernel stacks handed out by `memory_alloc_page` (`thread_spawn`) and
  `kmalloc (PAGE_SIZE)` (`thread_fork_to_user`), with their thread. -/
  stackBlocks : List (Ptr × Addr)
  /-- The addresses passed to `memory_free_page`, latest first. -/
  freed : List Addr

/-- The address of the static `main_thread`. -/
def main_thread : Ptr := 0

/-- The address of the static `idle_thread`. -/
def idle_thread : Ptr := 1

namespace Kernel

/-- Store `f` of the record at `t`. -/
def modify (k : Kernel) (t : Ptr) (f : Thread → Thread) : Kernel :=
  { k with mem := store k.mem t (f (k.mem t)) }

@[simp] theorem modify_mem_self (k : Kernel) (t : Ptr) (f : Thread → Thread) :
    (k.modify t f).mem t = f (k.mem t) :=
  store_same _ _ _

@[simp] theorem modify_mem_of_ne (k : Kernel) {t u : Ptr} (f : Thread → Thread) (h : u ≠ t) :
    (k.modify t f).mem u = k.mem u :=
  store_of_ne _ _ _ h

theorem modify_mem (k : Kernel) (t u : Ptr) (f : Thread → Thread) :
    (k.modify t f).mem u = if u = t then f (k.mem t) else k.mem u :=
  rfl

@[simp] theorem modify_thrtab (k : Kernel) (t : Ptr) (f : Thread → Thread) :
    (k.modify t f).thrtab = k.thrtab := rfl

@[simp] theorem modify_ready_list (k : Kernel) (t : Ptr) (f : Thread → Thread) :
    (k.modify t f).ready_list = k.ready_list := rfl

@[simp] theorem modify_conds (k : Kernel) (t : Ptr) (f : Thread → Thread) :
    (k.modify t f).conds = k.conds := rfl

@[simp] theorem modify_tp (k : Kernel) (t : Ptr) (f : Thread → Thread) :
    (k.modify t f).tp = k.tp := rfl

@[simp] theorem modify_ctl (k : Kernel) (t : Ptr) (f : Thread → Thread) :
    (k.modify t f).ctl = k.ctl := rfl

@[simp] theorem modify_stackBlocks (k : Kernel) (t : Ptr) (f : Thread → Thread) :
    (k.modify t f).stackBlocks = k.stackBlocks := rfl

@[simp] theorem modify_freed (k : Kernel) (t : Ptr) (f : Thread → Thread) :
    (k.modify t f).freed = k.freed := rfl

/-- `set_thread_state (t, s)`. -/
def setState (k : Kernel) (t : Ptr) (s : ThreadState) : Kernel :=
  k.modify t fun r => { r with state := s }

/-- `t->list_next = n`. -/
def setNext (k : Kernel) (t : Ptr) (n : Option Ptr) : Kernel :=
  k.modify t fun r => { r with list_next := n }

/-- The `list_next` member of every address. -/
def next (k : Kernel) (t : Ptr) : Option Ptr := (k.mem t).list_next

/-- The thread in slot `i` of `thrtab`, if any. -/
def slot (k : Kernel) (i : Fin NTHR) : Option Ptr := k.thrtab i

/-- `t` is in `thrtab`. -/
def Live (k : Kernel) (t : Ptr) : Prop := ∃ i, k.thrtab i = some t

end Kernel

/-- The static initialiser of `main_thread`, with the stack that
`init_main_thread` gives it. -/
def mainRecord (L : Layout) : Thread where
  context := .suspended .user
  stack_base := L.mainStackAnchor
  stack_size := L.mainStackAnchor - L.mainStackLowest
  state := .running
  id := MAIN_TID
  proc := none
  parent := none
  list_next := none
  wait_cond := none
  child_exit := .empty

/-- The static initialiser of `idle_thread`, with the stack and context that
`init_idle_thread` gives it; `tlinsert` clears its `list_next`. -/
def idleRecord (L : Layout) : Thread where
  context := .setup
  stack_base := L.idleStackAnchor
  stack_size := L.idleStackAnchor - L.idleStackLowest
  state := .ready
  id := IDLE_TID
  proc := none
  parent := some main_thread
  list_next := none
  wait_cond := none
  child_exit := .empty

/-- `thread_init`: `thrtab` holds the main and idle threads, the idle thread is
the only one on the ready list (inserted by `init_idle_thread`), and `tp`
points at the main thread.  Every other address holds whatever `mem0` has. -/
def thread_init (L : Layout) (mem0 : Ptr → Thread) : Kernel where
  mem := store (store mem0 main_thread (mainRecord L)) idle_thread (idleRecord L)
  thrtab := fun i =>
    if i = MAIN_TID then some main_thread else if i = IDLE_TID then some idle_thread else none
  ready_list := ⟨some idle_thread, some idle_thread⟩
  conds := fun _ => .empty
  tp := main_thread
  ctl := .user
  stackBlocks := []
  freed := []

end OsKernel.Threads
