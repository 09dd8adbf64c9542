import OsKernel.Thread.Queue
import OsKernel.Thread.Family

/-! # The scheduler's view of a kernel state

The scheduler reads, of each `struct thread`, its `state`, `id`, `parent`,
`list_next`, `wait_cond` and `child_exit` members; the rest (`context`, the
stack, `proc`) only matters to `_thread_swtch` and to the process layer.  A
`View` keeps `thrtab`, `tp`, the list headers outside the records, and those
members of every record: switching threads, setting up a context or a stack, and
recording a freed page leave it alone.

`Good` is the scheduler invariant read off a view.  Its list part says that
every existing list represents the sequence of exactly the threads that belong
on it: the live ready threads on the ready list, the live threads waiting on a
condition on that condition's wait list.  It adds to `SchedInv` what keeping
`SchedInv` needs (the list tails, every list member live, a thread waits on no
`child_exit` but its own) and the parent tree, which `thread_exit` relies on to
broadcast on a condition that exists.  `Core` is `Good` without the running
thread being running: what holds while `suspend_self` picks the next thread.
-/

namespace OsKernel.Threads

/-- The members of a `struct thread` that the scheduler reads. -/
structure SchedRec where
  state : ThreadState
  id : Nat
  parent : Option Ptr
  list_next : Option Ptr
  wait_cond : Option Cond
  child_exit : ThreadList

/-- The scheduler's members of a record. -/
def Thread.sched (r : Thread) : SchedRec :=
  ⟨r.state, r.id, r.parent, r.list_next, r.wait_cond, r.child_exit⟩

/-- A kernel state as the scheduler reads it. -/
structure View where
  thrtab : Fin NTHR → Option Ptr
  tp : Ptr
  ready_list : ThreadList
  conds : Nat → ThreadList
  thread : Ptr → SchedRec

namespace View

variable (v : View)

/-- The `list_next` member of every address. -/
def next (t : Ptr) : Option Ptr := (v.thread t).list_next

/-- The header of a list. -/
def list : ListRef → ThreadList
  | .ready => v.ready_list
  | .cond (.childExit t) => (v.thread t).child_exit
  | .cond (.other c) => v.conds c

/-- `t` is in `thrtab`. -/
def Live (t : Ptr) : Prop := ∃ i, v.thrtab i = some t

/-- The conditions that exist: those outside `thread.c`, and the `child_exit`
condition of every thread in `thrtab`. -/
def CondExists : Cond → Prop
  | .other _ => True
  | .childExit t => v.Live t

/-- The lists that exist. -/
def ListExists : ListRef → Prop
  | .ready => True
  | .cond c => v.CondExists c

/-- The threads that belong on a list: the live ready threads on the ready list,
the live threads waiting on `c` on the wait list of `c`. -/
def OnList : ListRef → Ptr → Prop
  | .ready, t => v.Live t ∧ (v.thread t).state = .ready
  | .cond c, t => v.Live t ∧ (v.thread t).state = .waiting ∧ (v.thread t).wait_cond = some c

/-- Following parent links from `t` reaches the main thread within `n` links,
through threads in `thrtab`. -/
def ReachesMain : Nat → Ptr → Prop
  | 0, t => t = main_thread
  | n + 1, t => t = main_thread ∨ ∃ p, (v.thread t).parent = some p ∧ v.Live p ∧ ReachesMain n p

/-- Every existing list represents the sequence of the threads that belong on
it. -/
def Lists : Prop :=
  ∀ L, v.ListExists L → ∃ l, Represents v.next (v.list L) l ∧ ∀ t, t ∈ l ↔ v.OnList L t

end View

/-- The slots of `thrtab` and the parent tree: what the scheduler's state
changes leave alone, and only `thread_spawn`, `thread_fork_to_user` and
`recycle_thread` change. -/
structure Tree (v : View) : Prop where
  main_slot : v.thrtab MAIN_TID = some main_thread
  idle_slot : v.thrtab IDLE_TID = some idle_thread
  ids : ∀ i t, v.thrtab i = some t → (v.thread t).id = i
  main_root : (v.thread main_thread).parent = none
  parent_live : ∀ i t, i ≠ MAIN_TID → v.thrtab i = some t → ∃ p, (v.thread t).parent = some p ∧ v.Live p
  reaches_main : ∀ t, v.Live t → ∃ n, v.ReachesMain n t

/-- The scheduler invariant with the running thread in any state. -/
structure Core (v : View) extends Tree v : Prop where
  lists : v.Lists
  waiting : ∀ t, v.Live t → (v.thread t).state = .waiting →
    ∃ c, (v.thread t).wait_cond = some c ∧ v.CondExists c
  own_child_exit : ∀ t u, v.Live t → (v.thread t).state = .waiting →
    (v.thread t).wait_cond = some (.childExit u) → u = t
  tp_live : v.Live v.tp
  one_running : ∀ t, v.Live t → (v.thread t).state = .running → t = v.tp
  idle : (v.thread idle_thread).state = .ready ∨ (v.thread idle_thread).state = .running

/-- The scheduler invariant: `Core`, with the running thread running. -/
structure Good (v : View) extends Core v : Prop where
  tp_running : (v.thread v.tp).state = .running

namespace Kernel

variable (k : Kernel)

/-- What the scheduler reads of `k`. -/
def view : View := ⟨k.thrtab, k.tp, k.ready_list, k.conds, fun t => (k.mem t).sched⟩

@[simp] theorem view_thrtab : k.view.thrtab = k.thrtab := rfl

@[simp] theorem view_tp : k.view.tp = k.tp := rfl

@[simp] theorem view_thread (t : Ptr) : k.view.thread t = (k.mem t).sched := rfl

theorem view_next : k.view.next = k.next := rfl

theorem view_list (L : ListRef) : k.view.list L = k.list L := by
  rcases L with _ | ⟨t | c⟩ <;> rfl

/-- A join back in its caller changes only `ctl`, which the scheduler does not read. -/
@[simp] theorem view_returned (r : Kernel × Option Int) : (returned r).view = r.1.view := by
  rw [returned_eq]; rfl

end Kernel

@[simp] theorem Thread.sched_state (r : Thread) : r.sched.state = r.state := rfl

@[simp] theorem Thread.sched_id (r : Thread) : r.sched.id = r.id := rfl

@[simp] theorem Thread.sched_parent (r : Thread) : r.sched.parent = r.parent := rfl

@[simp] theorem Thread.sched_list_next (r : Thread) : r.sched.list_next = r.list_next := rfl

@[simp] theorem Thread.sched_wait_cond (r : Thread) : r.sched.wait_cond = r.wait_cond := rfl

@[simp] theorem Thread.sched_child_exit (r : Thread) : r.sched.child_exit = r.child_exit := rfl

/-! ## From the view back to the kernel -/

section Bridge

variable {k : Kernel}

theorem reachesMain_view (n : Nat) (t : Ptr) : k.view.ReachesMain n t ↔ k.ReachesMain n t := by
  induction n generalizing t with
  | zero => rfl
  | succ n ih => simp only [View.ReachesMain, Kernel.ReachesMain, ih]; rfl

/-- The wait list of the condition a live waiting thread waits on is the one
list it is on. -/
theorem Core.waiting_lists (core : Core k.view) {t : Ptr} (live : k.Live t)
    (waits : (k.mem t).state = .waiting) :
    ∃ c, (k.mem t).wait_cond = some c ∧ k.CondExists c ∧ (∀ l, k.Reads (.cond c) l → t ∈ l) ∧
      ∀ L, L ≠ .cond c → k.ListExists L → ∀ l, k.Reads L l → t ∉ l := by
  obtain ⟨c, on_c, exists_c⟩ := core.waiting t live waits
  refine ⟨c, on_c, exists_c, fun l reads => ?_, fun L ne exists_L l reads mem => ?_⟩
  · obtain ⟨l', rep, members⟩ := core.lists (.cond c) exists_c
    rw [Kernel.view_next, Kernel.view_list] at rep
    exact (rep.seg.unique reads) ▸ (members t).mpr ⟨live, waits, on_c⟩
  · obtain ⟨l', rep, members⟩ := core.lists L exists_L
    rw [Kernel.view_list] at rep
    have on_L := (members t).mp ((rep.seg.unique reads) ▸ mem)
    rcases L with _ | c'
    · exact absurd waits (by simp [View.OnList] at on_L; simp [on_L.2])
    · exact ne (congrArg ListRef.cond (Option.some.inj (on_L.2.2.symm.trans on_c)))

/-- `Good` gives the scheduler invariant. -/
theorem Good.schedInv (good : Good k.view) : SchedInv k := by
  obtain ⟨core, running⟩ := good
  refine ⟨core.tp_live, running, core.one_running, ?_, fun c exists_c => ?_,
    fun t live waits => core.waiting_lists live waits, fun t live exited L exists_L l reads mem => ?_,
    core.idle, core.main_slot, core.idle_slot, core.ids⟩
  · obtain ⟨l, rep, members⟩ := core.lists .ready trivial
    exact ⟨l, rep.seg, rep.nodup, members⟩
  · obtain ⟨l, rep, members⟩ := core.lists (.cond c) exists_c
    exact ⟨l, rep.seg, fun t mem => ((members t).mp mem).2⟩
  · obtain ⟨l', rep, members⟩ := core.lists L exists_L
    rw [Kernel.view_list] at rep
    have on_L := (members t).mp ((rep.seg.unique reads) ▸ mem)
    rcases L with _ | c <;> simp [View.OnList, exited] at on_L

/-- The view's tree is the parent tree. -/
theorem Tree.parentTree (tree : Tree k.view) : ParentTree k :=
  ⟨tree.main_root, tree.parent_live, fun t live =>
    let ⟨n, reaches⟩ := tree.reaches_main t live
    ⟨n, (reachesMain_view n t).mp reaches⟩⟩

end Bridge

/-! ## At boot -/

section Boot

variable (L : Layout) (mem0 : Ptr → Thread)

theorem init_live (t : Ptr) : (thread_init L mem0).view.Live t ↔ t = main_thread ∨ t = idle_thread := by
  constructor
  · rintro ⟨i, slot⟩
    simp only [Kernel.view_thrtab, thread_init] at slot
    split_ifs at slot <;> simp_all
  · rintro (rfl | rfl)
    · exact ⟨MAIN_TID, rfl⟩
    · exact ⟨IDLE_TID, rfl⟩

theorem init_main : (thread_init L mem0).mem main_thread = mainRecord L := rfl

theorem init_idle : (thread_init L mem0).mem idle_thread = idleRecord L := rfl

/-- A live thread at boot is the main or the idle thread, neither waiting. -/
theorem init_not_waiting (t : Ptr) (live : (thread_init L mem0).view.Live t) :
    ((thread_init L mem0).mem t).state ≠ .waiting := by
  rcases (init_live L mem0 t).mp live with rfl | rfl <;> simp [init_main, init_idle, mainRecord, idleRecord]

/-- `thread_init` establishes the invariant. -/
theorem Good.init : Good (thread_init L mem0).view := by
  have live := init_live L mem0
  have waiting := init_not_waiting L mem0
  refine ⟨⟨⟨rfl, rfl, fun i t slot => ?_, rfl, fun i t ne slot => ?_, fun t l => ?_⟩, fun Lr exists_L => ?_,
    fun t l w => absurd w (waiting t l), fun t u l w => absurd w (waiting t l), (live _).mpr (.inl rfl),
    fun t l running => ?_, .inl rfl⟩, rfl⟩
  · simp only [Kernel.view_thrtab, thread_init] at slot
    split_ifs at slot with main idle <;> cases slot
    · exact main ▸ rfl
    · exact idle ▸ rfl
  · simp only [Kernel.view_thrtab, thread_init, if_neg ne] at slot
    split_ifs at slot
    cases slot
    exact ⟨main_thread, rfl, (live _).mpr (.inl rfl)⟩
  · rcases (live _).mp l with rfl | rfl
    · exact ⟨0, rfl⟩
    · exact ⟨1, .inr ⟨main_thread, rfl, (live _).mpr (.inl rfl), rfl⟩⟩
  · rcases Lr with _ | c
    · refine ⟨[idle_thread], ⟨.cons _ _ _ (.nil _), rfl, by decide⟩, fun t => ?_⟩
      simp only [List.mem_singleton, View.OnList, live, Kernel.view_thread, Thread.sched_state]
      constructor
      · rintro rfl; exact ⟨.inr rfl, rfl⟩
      · rintro ⟨rfl | rfl, ready⟩
        · cases ready
        · rfl
    · have empty : (thread_init L mem0).view.list (.cond c) = .empty := by
        rcases c with u | c
        · rcases (live _).mp exists_L with rfl | rfl <;> rfl
        · rfl
      refine ⟨[], ⟨empty ▸ .nil none, by rw [empty]; rfl, List.nodup_nil⟩, fun t => ?_⟩
      simp only [List.not_mem_nil, false_iff, View.OnList, Kernel.view_thread, Thread.sched_state]
      exact fun ⟨l, w, _⟩ => waiting t l w
  · rcases (live _).mp l with rfl | rfl
    · rfl
    · cases running

end Boot

end OsKernel.Threads
