import OsKernel.Thread.Sched

/-! # The scheduler invariant

`SchedInv` is the invariant the scheduler is meant to keep in every reachable
state: exactly one thread runs and it is `tp`; the ready list, read from its
head, holds exactly the ready threads; every waiting thread is on the wait list
of its `wait_cond` and on no other list, and every thread on a wait list waits
on that condition; exited threads are on no list; the idle thread is ready or
running; `thrtab` holds the main thread in slot `0`, the idle thread in slot
`NTHR-1`, and every thread in the slot of its `id`.

`thread_spawn` and `thread_fork_to_user` never initialise the `child_exit`
condition of the `struct thread` they take from `kmalloc`, so its wait list is
whatever the block held.  One spawn from `thread_init` with a block whose
`child_exit` list points at the main thread breaks the invariant.
-/

namespace OsKernel.Threads

namespace Kernel

/-- The list `L`, read from its head through `list_next`, is `l`. -/
def Reads (k : Kernel) (L : ListRef) (l : List Ptr) : Prop :=
  Lseg k.next (k.list L).head l none

/-- The conditions that exist: those outside `thread.c`, and the `child_exit`
condition of every thread in `thrtab`. -/
def CondExists (k : Kernel) : Cond → Prop
  | .other _ => True
  | .childExit t => k.Live t

/-- The lists that exist: the ready list and the wait lists of existing
conditions. -/
def ListExists (k : Kernel) : ListRef → Prop
  | .ready => True
  | .cond c => k.CondExists c

end Kernel

/-- The scheduler invariant. -/
structure SchedInv (k : Kernel) : Prop where
  tp_live : k.Live k.tp
  tp_running : (k.mem k.tp).state = .running
  one_running : ∀ t, k.Live t → (k.mem t).state = .running → t = k.tp
  ready : ∃ l, k.Reads .ready l ∧ l.Nodup ∧ ∀ t, t ∈ l ↔ k.Live t ∧ (k.mem t).state = .ready
  waiters : ∀ c, k.CondExists c → ∃ l, k.Reads (.cond c) l ∧
    ∀ t ∈ l, (k.mem t).state = .waiting ∧ (k.mem t).wait_cond = some c
  waiting : ∀ t, k.Live t → (k.mem t).state = .waiting → ∃ c, (k.mem t).wait_cond = some c ∧
    k.CondExists c ∧ (∀ l, k.Reads (.cond c) l → t ∈ l) ∧
    ∀ L, L ≠ .cond c → k.ListExists L → ∀ l, k.Reads L l → t ∉ l
  exited : ∀ t, k.Live t → (k.mem t).state = .exited → ∀ L, k.ListExists L →
    ∀ l, k.Reads L l → t ∉ l
  idle : (k.mem idle_thread).state = .ready ∨ (k.mem idle_thread).state = .running
  main_slot : k.thrtab MAIN_TID = some main_thread
  idle_slot : k.thrtab IDLE_TID = some idle_thread
  ids : ∀ i t, k.thrtab i = some t → (k.mem t).id = i

/-! ## A boot configuration

The runs below start from `thread_init` with this layout and with memory that
holds `blank` records everywhere else. -/

/-- A stack anchor of two 8-byte words, and main and idle stacks of one page. -/
def bootLayout : Layout where
  anchorSize := 16
  anchorSize_words := by decide
  anchorSize_le_page := by decide
  mainStackAnchor := 0x80011000
  mainStackLowest := 0x80010000
  idleStackAnchor := 0x80013000
  idleStackLowest := 0x80012000

/-- An all-zero `struct thread`. -/
def blank : Thread where
  context := .zero
  stack_base := 0
  stack_size := 0
  state := .uninitialized
  id := 0
  proc := none
  parent := none
  list_next := none
  wait_cond := none
  child_exit := .empty

/-- A `kmalloc` block whose `child_exit` wait list holds the main thread. -/
def staleChildExit : Thread :=
  { blank with child_exit := ⟨some main_thread, some main_thread⟩ }

/-- The main thread spawns a thread at address `2` from `staleChildExit`: the
new thread's `child_exit` list holds the running main thread, so the
invariant fails right after the spawn. -/
theorem spawn_breaks_sched_inv : ∃ k, Reachable bootLayout k ∧ ¬ SchedInv k := by
  obtain ⟨k, ran⟩ : ∃ k, (thread_init bootLayout fun _ => blank).run bootLayout 0
      [.spawn 2 staleChildExit 0x80100000] = some k := Option.isSome_iff_exists.mp (by decide)
  have facts := Kernel.run_observe (fun k =>
    (k.thrtab ⟨1, by decide⟩, (k.list (.cond (.childExit 2))).head, k.next main_thread,
      (k.mem main_thread).state)) ran (v := (some 2, some main_thread, none, .running))
    (by decide)
  simp only [Prod.mk.injEq] at facts
  obtain ⟨slot, head, last, running⟩ := facts
  refine ⟨k, (Reachable.init _ fun _ => rfl).run ran, fun inv => ?_⟩
  obtain ⟨l, reads, waiting⟩ := inv.waiters (.childExit 2) ⟨_, slot⟩
  have main_first : l = [main_thread] := by
    unfold Kernel.Reads at reads
    rw [head] at reads
    exact reads.unique (.cons _ _ _ (last ▸ .nil _))
  have := (waiting main_thread (by simp [main_first])).1
  rw [running] at this
  cases this

end OsKernel.Threads
