import OsKernel.Thread.List

/-! # The scheduler

The functions of `thread.c` that change the scheduler state, each as the code
computes it: `suspend_self`, `condition_wait`, `condition_broadcast`,
`thread_spawn`, `thread_fork_to_user`, `thread_exit`, `thread_yield`,
`thread_join`, `thread_join_any` and `recycle_thread`.

`suspend_self` ends with `_thread_swtch` (in assembly): the suspended thread's
context is saved as the point it will resume at, and the next thread resumes at
its own saved context.  Only a thread that resumes inside `suspend_self` runs
the code after `_thread_swtch`, which frees the stack of an exited predecessor.

What `kmalloc` returns for a new `struct thread` is a record with unspecified
contents (`blk`); the creators overwrite some members and keep the others.
`condition_broadcast` walks a linked list, which need not end, so it takes
fuel; a run of the kernel is any sequence of `step`s, each with enough fuel
for its walk.
-/

namespace OsKernel.Threads

namespace Kernel

/-- `memory_free_page (a)`, recorded. -/
def memory_free_page (k : Kernel) (a : Addr) : Kernel :=
  { k with freed := a :: k.freed }

/-- The part of `suspend_self` before `_thread_swtch`: take the head of the
ready list and mark it running, and put the caller back on the ready list if it
is still running.  The value is the thread to switch to. -/
def dispatch (k : Kernel) : Option (Ptr × Kernel) := do
  check (k.tlempty .ready = false)
  let susp := k.tp
  let (next?, k) := k.tlremove .ready
  let next ← next?
  check ((k.mem next).state = .ready)
  let k := k.setState next .running
  let k ← if (k.mem susp).state = .running then (k.setState susp .ready).tlinsert .ready susp
    else pure k
  pure (next, k)

/-- `_thread_swtch (next)` from `susp`, which will go on with `resume`, and the
rest of `suspend_self` when `next` returns from its own `_thread_swtch`.  Into a
`zero` context `_thread_swtch` returns to address `0`: the machine faults. -/
def thread_swtch (k : Kernel) (susp next : Ptr) (resume : Ctl) : Kernel :=
  let k := k.modify susp fun r => { r with context := .suspended resume }
  let k := { k with tp := next }
  match (k.mem next).context with
  | .setup => { k with ctl := .user }
  | .finishFork _ => { k with ctl := .user }
  | .suspended c =>
    let k := if (k.mem susp).state = .exited then
        (k.memory_free_page ((k.mem susp).stack_base - PAGE_SIZE)).modify susp
          fun r => { r with stack_base := 0, stack_size := 0 }
      else k
    { k with ctl := c }
  | .zero => { k with ctl := .fault }

/-- `suspend_self`, called by the running thread, which will go on with
`resume` once it is switched back to. -/
def suspend_self (k : Kernel) (resume : Ctl) : Option Kernel := do
  let (next, k') ← k.dispatch
  pure (k'.thread_swtch k.tp next resume)

/-- `condition_wait (c)` by the running thread, which goes on with `resume`
once woken and switched back to. -/
def condition_wait (k : Kernel) (c : Cond) (resume : Ctl) : Option Kernel := do
  let cur := k.tp
  check ((k.mem cur).state = .running)
  let k := k.setState cur .waiting
  let k := k.modify cur fun r => { r with wait_cond := some c }
  let k := k.setNext cur none
  let k ← k.tlinsert (.cond c) cur
  k.suspend_self resume

/-- The loop of `condition_broadcast` from `thr` on: each thread must be waiting
on `c`; it becomes ready and its `wait_cond` is cleared. -/
def wakeAll (c : Cond) : Nat → Kernel → Option Ptr → Option Kernel
  | _, k, none => some k
  | 0, _, some _ => none
  | fuel + 1, k, some t => do
    check ((k.mem t).state = .waiting)
    check ((k.mem t).wait_cond = some c)
    let k := (k.setState t .ready).modify t fun r => { r with wait_cond := none }
    wakeAll c fuel k (k.next t)

/-- `condition_broadcast (c)`. -/
def condition_broadcast (fuel : Nat) (k : Kernel) (c : Cond) : Option Kernel :=
  if k.tlempty (.cond c) then some k
  else do
    let k ← wakeAll c fuel k (k.list (.cond c)).head
    let k ← k.tlappend .ready (.cond c)
    pure (k.tlclear (.cond c))

/-- The first empty slot of `thrtab` at index `start` or above. -/
def freeSlot (k : Kernel) (start : Nat) : Option (Fin NTHR) :=
  slots.find? fun i => start ≤ i.val ∧ k.thrtab i = none

/-- `thread_spawn`: `kmalloc` returns `child`, holding `blk`, and
`memory_alloc_page` returns `page`; the result is the new thread's `tid`. -/
def thread_spawn (L : Layout) (k : Kernel) (child : Ptr) (blk : Thread) (page : Addr) :
    Option (Kernel × Nat) := do
  let parent := k.tp
  let tid ← k.freeSlot 1
  let anchor := page + PAGE_SIZE - BitVec.ofNat 64 L.anchorSize
  let k := { k with mem := store k.mem child blk, stackBlocks := (child, page) :: k.stackBlocks }
  let k := { k with thrtab := store k.thrtab tid (some child) }
  let k := k.modify child fun r =>
    { r with id := tid, parent := some parent, stack_base := anchor, stack_size := anchor - page }
  let k := k.modify child fun r => { r with proc := (k.mem parent).proc }
  let k := k.setState child .ready
  let k ← k.tlinsert .ready child
  pure (k.modify child fun r => { r with context := .setup }, tid)

/-- `thread_fork_to_user (child_proc, parent_tfr)`: `kmalloc (PAGE_SIZE)`
returns the stack `block` and `kmalloc (sizeof (struct thread))` returns
`child`, holding `blk`.  The child runs at once and the parent, on the ready
list, will resume by returning the child's `tid` from `_thread_finish_fork`. -/
def thread_fork_to_user (L : Layout) (k : Kernel) (child_proc : Nat) (block : Addr)
    (child : Ptr) (blk : Thread) : Option (Kernel × Nat) := do
  let parent := k.tp
  let tid ← k.freeSlot 0
  let base := block + PAGE_SIZE - BitVec.ofNat 64 L.anchorSize
  let k := { k with mem := store k.mem child blk, stackBlocks := (child, block) :: k.stackBlocks }
  let k := { k with thrtab := store k.thrtab tid (some child) }
  let k := k.modify child fun r =>
    { r with id := tid, parent := some parent, proc := some child_proc, stack_base := base,
             stack_size := base - block }
  let k := k.setState child .running
  let k := k.setState parent .ready
  let k ← k.tlinsert .ready parent
  let k := k.modify parent fun r => { r with context := .finishFork tid }
  pure ({ k with tp := child, ctl := .user }, tid)

/-- `thread_exit`; the main thread halts the machine instead. -/
def thread_exit (fuel : Nat) (k : Kernel) : Option Kernel := do
  let cur := k.tp
  check (cur ≠ main_thread)
  let k := k.setState cur .exited
  let parent ← (k.mem cur).parent
  let k ← k.condition_broadcast fuel (.childExit parent)
  k.suspend_self .exited

/-- `thread_yield`. -/
def thread_yield (k : Kernel) : Option Kernel := do
  check ((k.mem k.tp).state = .running)
  k.suspend_self .user

/-- One iteration of `recycle_thread`'s loop over `thrtab`: a thread whose parent
is `thr` gets `thr`'s parent. -/
def reparentSlot (thr : Ptr) (k : Kernel) (i : Fin NTHR) : Kernel :=
  match k.thrtab i with
  | some t =>
    if 1 ≤ i.val ∧ (k.mem t).parent = some thr then
      k.modify t fun r => { r with parent := (k.mem thr).parent }
    else k
  | none => k

/-- `recycle_thread (tid)`; the `kfree` of the record is not recorded. -/
def recycle_thread (k : Kernel) (tid : Nat) : Option Kernel :=
  if h : 0 < tid ∧ tid < NTHR then do
    let thr ← k.thrtab ⟨tid, h.2⟩
    check ((k.mem thr).state = .exited)
    let k := slots.foldl (reparentSlot thr) k
    pure { k with thrtab := store k.thrtab ⟨tid, h.2⟩ none }
  else none

/-- `thread_join`'s loop on `child`, in slot `tid`: if it has exited, recycle it
and return `tid`; otherwise wait on `child_exit` and test again once woken.  The
value is `some` result when the call returns. -/
def joinLoop (k : Kernel) (tid : Nat) (child : Ptr) : Option (Kernel × Option Int) :=
  if (k.mem child).state = .exited then
    (k.recycle_thread tid).map fun k => (k, some tid)
  else
    (k.condition_wait (.childExit k.tp) (.join tid child)).map fun k => (k, none)

/-- `thread_join (tid)`: it reads `thrtab[tid]` before it tests `tid`, and a
read outside `[0, NTHR)` is a fault. -/
def thread_join (k : Kernel) (tid : Int) : Option (Kernel × Option Int) :=
  if h : 0 ≤ tid ∧ tid < NTHR then
    let child := k.thrtab ⟨tid.toNat, by omega⟩
    if tid ≤ 0 ∨ NTHR ≤ tid then some (k, some (-1))
    else
      match child with
      | none => some (k, some (-1))
      | some child =>
        if (k.mem child).parent ≠ some k.tp then some (k, some (-1))
        else k.joinLoop tid.toNat child
  else none

/-- The slot scanned by both loops of `thread_join_any`: a child of the running
thread that has exited, lowest `tid` first. -/
def exitedChild (k : Kernel) : Option (Fin NTHR) :=
  slots.find? fun i =>
    1 ≤ i.val ∧ ∃ t, k.thrtab i = some t ∧ (k.mem t).parent = some k.tp ∧
      (k.mem t).state = .exited

/-- Whether the running thread has a child in `thrtab[1..NTHR-1]` (the count
`childcnt` of the first loop is positive). -/
def hasChild (k : Kernel) : Bool :=
  slots.any fun i =>
    1 ≤ i.val ∧ ∃ t, k.thrtab i = some t ∧ (k.mem t).parent = some k.tp

/-- `thread_join_any` up to its wait: reap an exited child through
`thread_join`, panic when there is no child, otherwise wait on `child_exit`. -/
def thread_join_any (k : Kernel) : Option (Kernel × Option Int) :=
  match k.exitedChild with
  | some i => k.thread_join i.val
  | none =>
    if k.hasChild then (k.condition_wait (.childExit k.tp) .joinAny).map fun k => (k, none)
    else none

/-- The rest of `thread_join_any` once woken: reap the first exited child, or
panic with "spurious child_exit signal". -/
def joinAnyWake (k : Kernel) : Option (Kernel × Option Int) := do
  let i ← k.exitedChild
  let k ← k.recycle_thread i.val
  pure (k, some i.val)

end Kernel

/-- What the running thread does next.  `spawn`, `fork`, `join` and `joinAny`
carry what the allocators return; `wait` and `broadcast` act on the
conditions outside `thread.c` (drivers call `condition_broadcast` from interrupt
handlers, so any thread may be the one running it); `resume` runs the rest of a
`thread_join` or `thread_join_any` the thread was woken in. -/
inductive Act
  | spawn (child : Ptr) (blk : Thread) (page : Addr)
  | fork (child_proc : Nat) (block : Addr) (child : Ptr) (blk : Thread)
  | yield
  | exit
  | join (tid : Int)
  | joinAny
  | wait (c : Nat)
  | broadcast (c : Nat)
  | resume

/-- The idle thread runs `idle_thread_func`: it yields while the ready list is
not empty and otherwise sleeps until an interrupt. -/
def Act.idleMay (k : Kernel) : Act → Bool
  | .yield => !k.tlempty .ready
  | .broadcast _ => true
  | _ => false

/-- The block `kmalloc` returns is not a thread in use. -/
def Kernel.Fresh (k : Kernel) (child : Ptr) : Prop := ∀ i, k.thrtab i ≠ some child

instance (k : Kernel) (child : Ptr) : Decidable (k.Fresh child) :=
  inferInstanceAs (Decidable (∀ _, _))

namespace Kernel

/-- The state once a `thread_join` or `thread_join_any` that returned its value
is back in its caller; one that waits again has already switched away. -/
def returned (r : Kernel × Option Int) : Kernel :=
  match r.2 with
  | some _ => { r.1 with ctl := .user }
  | none => r.1

theorem returned_eq (r : Kernel × Option Int) : returned r = { r.1 with ctl := (returned r).ctl } := by
  unfold returned; split <;> rfl

@[simp] theorem thrtab_returned (r : Kernel × Option Int) : (returned r).thrtab = r.1.thrtab := by
  rw [returned_eq]

/-- What the running thread's next action does; `none` when the action is not
possible at this point, the kernel panics or faults, or `condition_broadcast`
has not ended within `fuel` threads.  A resumed `thread_join` or
`thread_join_any` that returns its value goes back to its caller. -/
def step (L : Layout) (fuel : Nat) (k : Kernel) (a : Act) : Option Kernel :=
  if k.tp = idle_thread ∧ a.idleMay k = false then none else
  match k.ctl, a with
  | .user, .spawn child blk page =>
    if k.Fresh child then (k.thread_spawn L child blk page).map Prod.fst else none
  | .user, .fork child_proc block child blk =>
    if k.Fresh child then (k.thread_fork_to_user L child_proc block child blk).map Prod.fst
    else none
  | .user, .yield => k.thread_yield
  | .user, .exit => k.thread_exit fuel
  | .user, .join tid => (k.thread_join tid).map Prod.fst
  | .user, .joinAny => k.thread_join_any.map Prod.fst
  | .user, .wait c => k.condition_wait (.other c) .user
  | .user, .broadcast c => k.condition_broadcast fuel (.other c)
  | .join tid child, .resume => (k.joinLoop tid child).map returned
  | .joinAny, .resume => k.joinAnyWake.map returned
  | _, _ => none

end Kernel

/-- The states reachable from `thread_init`, whatever memory held at boot, save
that no record in it holds a context: before `thread_init`, no kernel routine
has set up or switched out a thread. -/
inductive Reachable (L : Layout) : Kernel → Prop
  | init (mem0 : Ptr → Thread) (unwritten : ∀ t, (mem0 t).context = .zero) :
      Reachable L (thread_init L mem0)
  | step {k k' : Kernel} (fuel : Nat) (a : Act) :
      Reachable L k → k.step L fuel a = some k' → Reachable L k'

/-- A sequence of actions, each with the same fuel. -/
def Kernel.run (L : Layout) (fuel : Nat) (k : Kernel) : List Act → Option Kernel
  | [] => some k
  | a :: as => (k.step L fuel a).bind fun k => k.run L fuel as

theorem Reachable.run {L : Layout} {fuel : Nat} {k k' : Kernel} {as : List Act}
    (reach : Reachable L k) (ran : k.run L fuel as = some k') : Reachable L k' := by
  induction as generalizing k with
  | nil => cases ran; exact reach
  | cons a as ih =>
    simp only [Kernel.run, Option.bind_eq_some] at ran
    obtain ⟨k₁, stepped, rest⟩ := ran
    exact ih (reach.step fuel a stepped) rest

/-- What a run computes, read off the state it ends in. -/
theorem Kernel.run_observe {α : Type} {L : Layout} {fuel : Nat} {k k' : Kernel} {as : List Act}
    (f : Kernel → α) {v : α} (ran : k.run L fuel as = some k')
    (computed : (k.run L fuel as).map f = some v) : f k' = v := by
  rw [ran] at computed
  exact Option.some.inj computed

end OsKernel.Threads
