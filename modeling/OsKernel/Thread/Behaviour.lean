import OsKernel.Thread.Safety

/-! # What the scheduler does from every reachable state

With `Good` at hand (every clean run keeps it, `Thread/Safety`), the scheduler
functions can be read as the queue and tree operations they are meant to be.
The ready list and the wait lists are queues: `condition_wait` puts the caller
at the back of the wait list and runs the head of the ready list, and
`condition_broadcast` appends the waiters of a condition, in the order they
waited, to the ready list.  `recycle_thread` frees the slot of an exited
thread and hands its children to its parent.  Each of these calls returns when
its asserts hold, which `Good` ensures.
-/

namespace OsKernel.Threads

open View Kernel

variable {k k' : Kernel}

namespace Kernel

theorem run_append (L : Layout) (fuel : Nat) (k : Kernel) (as bs : List Act) :
    k.run L fuel (as ++ bs) = (k.run L fuel as).bind fun k => k.run L fuel bs := by
  induction as generalizing k with
  | nil => rfl
  | cons a as ih =>
    rw [List.cons_append]
    simp only [Kernel.run, ih, Option.bind_assoc]

/-- A yield from the running thread's own code is a call of `thread_yield`,
unless the idle thread has no thread to yield to. -/
theorem step_yield_eq {L : Layout} {fuel : Nat} (user : k.ctl = .user)
    (may : k.tp ≠ idle_thread ∨ k.tlempty .ready = false) : k.step L fuel .yield = k.thread_yield := by
  unfold Kernel.step
  rw [if_neg fun ⟨idle, refused⟩ => by
    rcases may with not_idle | nonempty
    · exact not_idle idle
    · simp [Act.idleMay, nonempty] at refused]
  simp only [user]

end Kernel

/-! ## The calls return

From a state satisfying the invariant, each call's asserts hold, so it returns
where the C code does; `condition_broadcast`, whose loop walks a linked list,
needs fuel for each waiter. -/

/-- On a ready list that is not empty, `dispatch`'s asserts hold. -/
theorem Core.dispatch_some (core : Core k.view) (nonempty : k.tlempty .ready = false) :
    ∃ next k', k.dispatch = some (next, k') := by
  obtain ⟨lr, rep, members⟩ := core.lists .ready trivial
  obtain ⟨next, l, rfl⟩ : ∃ next l, lr = next :: l := by
    cases lr with
    | nil => simp [tlempty, show (k.list .ready).head = none from rep.seg.nil_inv] at nonempty
    | cons next l => exact ⟨next, l, rfl⟩
  obtain ⟨k₁, removed, rep₁, -⟩ :=
    tlremove_represents (show Represents k.next (k.list .ready) (next :: l) from rep)
  have ready₁ : (k₁.mem next).state = .ready := by
    have state₁ := (tlremove_relinked k .ready).state next
    rw [removed] at state₁
    exact state₁.trans ((members next).mp (List.mem_cons_self _ _)).2
  have rep₂ : Represents ((k₁.setState next .running).setState k.tp .ready).next
      (((k₁.setState next .running).setState k.tp .ready).list .ready) l := by simpa using rep₁
  obtain ⟨k₃, inserted⟩ := tlinsert_some rep₂ k.tp
  refine ⟨next, ?_⟩
  simp only [Kernel.dispatch, Option.bind_eq_bind, nonempty, removed, check_bind_eq_some, true_and, Option.some_bind,
    ready₁]
  split
  · exact ⟨k₃, by rw [inserted]; rfl⟩
  · exact ⟨_, rfl⟩

/-- While the idle thread does not run, it is ready, so the ready list is not
empty. -/
theorem Core.ready_nonempty (core : Core k.view) (not_idle : k.tp ≠ idle_thread) : k.tlempty .ready = false := by
  obtain ⟨lr, rep, members⟩ := core.lists .ready trivial
  have idle_ready : (k.mem idle_thread).state = .ready := by
    rcases core.idle with ready | is_running
    · exact ready
    · exact absurd (core.one_running idle_thread ⟨IDLE_TID, core.idle_slot⟩ is_running) (Ne.symm not_idle)
  have on_idle : idle_thread ∈ lr := (members idle_thread).mpr ⟨⟨IDLE_TID, core.idle_slot⟩, idle_ready⟩
  cases lr with
  | nil => exact absurd on_idle (List.not_mem_nil _)
  | cons t l => simp [tlempty, show (k.list .ready).head = some t from rep.seg.cons_inv.1]

/-- In a state satisfying the invariant, `thread_yield`'s asserts hold for
every running thread but the idle thread, and for the idle thread while the
ready list is not empty. -/
theorem Good.thread_yield_some (good : Good k.view) (may : k.tp ≠ idle_thread ∨ k.tlempty .ready = false) :
    ∃ k', k.thread_yield = some k' := by
  have running : (k.mem k.tp).state = .running := good.tp_running
  obtain ⟨next, k₁, dispatched⟩ := good.dispatch_some (may.elim good.ready_nonempty id)
  refine ⟨k₁.thread_swtch k.tp next .user, ?_⟩
  simp only [Kernel.thread_yield, Option.bind_eq_bind, check_bind_eq_some, running, true_and,
    Kernel.suspend_self, dispatched, Option.some_bind]
  rfl

/-- In a state satisfying the invariant, `condition_wait`'s asserts hold for a
running thread other than the idle thread, on a condition that exists and is
not another thread's `child_exit`. -/
theorem Good.condition_wait_some {c : Cond} (resume : Ctl) (good : Good k.view) (not_idle : k.tp ≠ idle_thread)
    (exists_c : k.CondExists c) (own : ∀ u, c = .childExit u → u = k.tp) :
    ∃ k', k.condition_wait c resume = some k' := by
  obtain ⟨k₄, -, called, core₄, -, -, -, -, ready₄, -⟩ := good.condition_wait_spec resume not_idle exists_c own
  have nonempty : k₄.tlempty .ready = false := by
    rw [tlempty, ready₄]
    exact good.ready_nonempty not_idle
  obtain ⟨next, k₅, dispatched⟩ := core₄.dispatch_some nonempty
  refine ⟨k₅.thread_swtch k₄.tp next resume, ?_⟩
  rw [called]
  simp only [Kernel.suspend_self, Option.bind_eq_bind, dispatched, Option.some_bind]
  rfl

/-- `recycle_thread`'s asserts hold on a slot from 1 on that holds an exited
thread. -/
theorem recycle_thread_some {i : Fin NTHR} {t : Ptr} (one_le : 1 ≤ i.val) (slot : k.thrtab i = some t)
    (exited : (k.mem t).state = .exited) : ∃ k', k.recycle_thread i.val = some k' := by
  unfold Kernel.recycle_thread
  rw [dif_pos ⟨one_le, i.isLt⟩]
  simp [slot, exited, check]

/-- In a state satisfying the invariant, `thread_join` by a thread other than
the idle thread never panics on a `tid` in `[0, NTHR)`. -/
theorem Good.thread_join_some (good : Good k.view) (not_idle : k.tp ≠ idle_thread) {tid : Int}
    (inside : 0 ≤ tid ∧ tid < NTHR) : ∃ r, k.thread_join tid = some r := by
  unfold Kernel.thread_join
  rw [dif_pos inside]
  dsimp only
  split
  · exact ⟨_, rfl⟩
  rename_i range
  split
  · exact ⟨_, rfl⟩
  rename_i child slot
  split
  · exact ⟨_, rfl⟩
  unfold Kernel.joinLoop
  split
  · rename_i exited
    obtain ⟨k', recycled⟩ := recycle_thread_some (i := ⟨tid.toNat, by omega⟩) (by simp; omega) slot exited
    exact ⟨_, by rw [show tid.toNat = (⟨tid.toNat, by omega⟩ : Fin NTHR).val from rfl, recycled]; rfl⟩
  · obtain ⟨k', waited⟩ := good.condition_wait_some (.join tid.toNat child) not_idle
      (show k.CondExists (.childExit k.tp) from good.tp_live) fun _ same => (Cond.childExit.inj same).symm
    exact ⟨_, by rw [waited]; rfl⟩

/-- In a state satisfying the invariant, `thread_exit` by a thread other than
the idle thread, which has a parent, returns, given fuel for each thread waiting
on the parent's `child_exit`. -/
theorem Good.thread_exit_some {fuel : Nat} {p : Ptr} (good : Good k.view) (not_idle : k.tp ≠ idle_thread)
    (parent : (k.mem k.tp).parent = some p) (enough : ∃ lc, k.Reads (.cond (.childExit p)) lc ∧ lc.length ≤ fuel) :
    ∃ k', k.thread_exit fuel = some k' := by
  have not_main : k.tp ≠ main_thread := fun same => by
    have root : (k.mem main_thread).parent = none := good.main_root
    rw [← same, parent] at root
    cases root
  have core₁ := good.setState_exited not_idle
  have parent₁ : ((k.setState k.tp .exited).mem k.tp).parent = some p :=
    ((setState_restated k k.tp .exited).parent k.tp).trans parent
  obtain ⟨q, parent_q, live_q⟩ := core₁.parent_of_live core₁.tp_live not_main
  obtain rfl : q = p := Option.some.inj (parent_q.symm.trans parent₁)
  have exists_q : (k.setState k.tp .exited).CondExists (.childExit q) := live_q
  obtain ⟨lc, reads, short⟩ := enough
  obtain ⟨k₂, broadcast⟩ := core₁.condition_broadcast_some exists_q
    ⟨lc, by simpa only [Kernel.Reads, next_setState, list_setState] using reads, short⟩
  obtain ⟨core₂, tp₂, -⟩ := core₁.condition_broadcast exists_q broadcast
  obtain ⟨next, k₃, dispatched⟩ :=
    core₂.dispatch_some (core₂.ready_nonempty (by rw [tp₂, setState_tp]; exact not_idle))
  refine ⟨k₃.thread_swtch k₂.tp next .exited, ?_⟩
  simp only [Kernel.thread_exit, Option.bind_eq_bind, check_bind_eq_some, parent₁, Option.some_bind, broadcast,
    Kernel.suspend_self, dispatched]
  exact ⟨not_main, rfl⟩

/-! ## Waking in order -/

/-- `condition_broadcast` on a condition that exists, with fuel for each of its
waiters, returns: it wakes the threads waiting on the condition and moves them,
in the order they waited, to the back of the ready list. -/
theorem condition_broadcast_fifo {fuel : Nat} {c : Cond} (core : Core k.view) (exists_c : k.CondExists c)
    (enough : ∃ lc, k.Reads (.cond c) lc ∧ lc.length ≤ fuel) :
    ∃ k', k.condition_broadcast fuel c = some k' ∧ ∃ lr lc, k.Reads .ready lr ∧ k.Reads (.cond c) lc ∧
      k'.Reads .ready (lr ++ lc) ∧ k'.Reads (.cond c) [] ∧
      ∀ t ∈ lc, (k'.mem t).state = .ready ∧ (k'.mem t).wait_cond = none := by
  obtain ⟨k', h⟩ := core.condition_broadcast_some exists_c enough
  obtain ⟨lr, lc, -, -, repr, rep, rep', empty', -, -, -, -, state', wait'⟩ :=
    condition_broadcast_spec core exists_c h
  refine ⟨k', h, lr, lc, repr.seg, rep.seg, rep'.seg, ?_,
    fun t mem => ⟨by rw [state', if_pos mem], by rw [wait', if_pos mem]⟩⟩
  unfold Kernel.Reads
  rw [empty']
  exact .nil none

/-- The main thread spawns a thread at `10` and waits on condition `0`; the idle
thread yields to `10`, which broadcasts the condition with fuel `1` for the one
waiter: the main thread follows the idle thread on the ready list. -/
theorem broadcast_wakes_main_in_order : ∃ k, (thread_init bootLayout fun _ => blank).run bootLayout 1
    [.spawn 10 blank 0x90000000, .wait 0, .yield] = some k ∧
    ∃ k', k.condition_broadcast 1 (.other 0) = some k' ∧
    ∃ lr lc, k.Reads .ready lr ∧ k.Reads (.cond (.other 0)) lc ∧ k'.Reads .ready (lr ++ lc) ∧
      k'.Reads (.cond (.other 0)) [] ∧ ∀ t ∈ lc, (k'.mem t).state = .ready ∧ (k'.mem t).wait_cond = none := by
  obtain ⟨k, ran⟩ : ∃ k, (thread_init bootLayout fun _ => blank).run bootLayout 1
      [.spawn 10 blank 0x90000000, .wait 0, .yield] = some k := Option.isSome_iff_exists.mp (by decide)
  have facts := Kernel.run_observe (fun k => ((k.conds 0).head, k.next main_thread)) ran
    (v := (some main_thread, none)) (by decide)
  simp only [Prod.mk.injEq] at facts
  obtain ⟨head, last⟩ := facts
  have reads : k.Reads (.cond (.other 0)) [main_thread] := by
    unfold Kernel.Reads
    rw [show k.list (.cond (.other 0)) = k.conds 0 from rfl, head]
    exact .cons _ _ _ (last ▸ .nil _)
  exact ⟨k, ran, condition_broadcast_fifo ((Good.init _ _).run (by decide) ran).toCore trivial
    ⟨_, reads, by decide⟩⟩

/-- `condition_wait` by a running thread other than the idle thread returns: it
puts the caller at the back of the condition's wait list and runs the head of
the ready list, which loses it. -/
theorem condition_wait_fifo {c : Cond} {resume : Ctl} (good : Good k.view) (not_idle : k.tp ≠ idle_thread)
    (exists_c : k.CondExists c) (own : ∀ u, c = .childExit u → u = k.tp) :
    ∃ k', k.condition_wait c resume = some k' ∧ ∃ lc next lr, k.Reads (.cond c) lc ∧ k.Reads .ready (next :: lr) ∧
      k'.Reads (.cond c) (lc ++ [k.tp]) ∧ k'.Reads .ready lr ∧ k'.tp = next := by
  obtain ⟨k', h⟩ := good.condition_wait_some resume not_idle exists_c own
  refine ⟨k', h, ?_⟩
  obtain ⟨k₄, lc, called, core₄, tp₄, waiting, rep, rep₄, ready₄, links₄, -⟩ :=
    good.condition_wait_spec resume not_idle exists_c own
  have suspended : k₄.suspend_self resume = some k' := called ▸ h
  simp only [Kernel.suspend_self, Option.bind_eq_bind, Option.bind_eq_some] at suspended
  obtain ⟨⟨next, k₅⟩, dispatched, resumed⟩ := suspended
  cases resumed
  obtain ⟨lr₄, repr₄, members₄⟩ := core₄.lists .ready trivial
  have not_running : (k₄.mem k₄.tp).state ≠ .running := by rw [tp₄, waiting k.tp (by simp)]; decide
  obtain ⟨l, rfl, rep₅, links₅, headers₅, -, -⟩ :=
    dispatch_spec repr₄ (by rw [tp₄, waiting k.tp (by simp)]; decide) (fun u mem => ((members₄ u).mp mem).2) dispatched
  rw [if_neg not_running] at rep₅
  obtain ⟨lr, repr, membersr⟩ := good.lists .ready trivial
  have ready_eq : lr = next :: l := by
    refine Lseg.unique ?_ repr₄.seg
    rw [view_list, view_next, ready₄]
    exact repr.seg.frame fun u mem => links₄ u ((membersr u).mp mem)
  have cond₅ : Lseg k₅.next (k₅.list (.cond c)).head (lc ++ [k.tp]) none := by
    rw [headers₅ _ ListRef.noConfusion]
    refine rep₄.seg.frame fun u mem => links₅ u (fun on_r => ?_) fun _ => not_running
    have ready_u : (k₄.view.thread u).state = .ready := ((members₄ u).mp on_r).2
    simp only [view_thread, Thread.sched_state, waiting u mem] at ready_u
    cases ready_u
  refine ⟨lc, next, l, rep.seg, ready_eq ▸ repr.seg, ?_, ?_, thread_swtch_tp _ _ _ _⟩
  · unfold Kernel.Reads
    rw [thread_swtch_next, thread_swtch_list]
    exact cond₅
  · unfold Kernel.Reads
    rw [thread_swtch_next, thread_swtch_list]
    exact rep₅.seg

/-- The main thread spawns a thread at `10` and waits on condition `0`: it
becomes the one waiter, and the idle thread, at the head of the ready list,
runs. -/
theorem main_waits_idle_runs : ∃ k, (thread_init bootLayout fun _ => blank).run bootLayout 0
    [.spawn 10 blank 0x90000000] = some k ∧ ∃ k', k.condition_wait (.other 0) .user = some k' ∧
    ∃ lc next lr, k.Reads (.cond (.other 0)) lc ∧ k.Reads .ready (next :: lr) ∧
      k'.Reads (.cond (.other 0)) (lc ++ [k.tp]) ∧ k'.Reads .ready lr ∧ k'.tp = next := by
  obtain ⟨k, ran⟩ : ∃ k, (thread_init bootLayout fun _ => blank).run bootLayout 0
      [.spawn 10 blank 0x90000000] = some k := Option.isSome_iff_exists.mp (by decide)
  have good := (Good.init _ _).run (by decide) ran
  have tp_main : k.tp = main_thread := Kernel.run_observe (fun k => k.tp) ran (by decide)
  exact ⟨k, ran, condition_wait_fifo good (by rw [tp_main]; decide) trivial
    (fun _ same => Cond.noConfusion same)⟩

/-- From every state of a clean run in which the running thread is in its own
code, it can yield, unless it is the idle thread and the ready list is empty:
the yield action is never refused and never panics. -/
theorem clean_runs_can_yield {L : Layout} {fuel : Nat} (reach : CleanReachable L k) (user : k.ctl = .user)
    (may : k.tp ≠ idle_thread ∨ k.tlempty .ready = false) : ∃ k', k.step L fuel .yield = some k' := by
  obtain ⟨k', yielded⟩ := reach.good.thread_yield_some may
  exact ⟨k', (step_yield_eq user may).trans yielded⟩

/-- From every state of a clean run in which the running thread, other than
the idle thread, is in its own code, a wait on a driver's condition and a join
of any `tid` in `[0, NTHR)` are accepted and never panic. -/
theorem clean_runs_can_wait_and_join {L : Layout} {fuel : Nat} (reach : CleanReachable L k) (user : k.ctl = .user)
    (not_idle : k.tp ≠ idle_thread) :
    (∀ c, ∃ k', k.step L fuel (.wait c) = some k') ∧
      ∀ tid : Int, 0 ≤ tid → tid < NTHR → ∃ k', k.step L fuel (.join tid) = some k' := by
  have good := reach.good
  have accepted (a : Act) : ¬ (k.tp = idle_thread ∧ a.idleMay k = false) := fun ⟨idle, _⟩ => not_idle idle
  refine ⟨fun c => ?_, fun tid nonneg lt => ?_⟩
  · obtain ⟨k', waited⟩ := good.condition_wait_some .user not_idle (show k.CondExists (.other c) from trivial)
      fun _ same => Cond.noConfusion same
    exact ⟨k', by unfold Kernel.step; rw [if_neg (accepted _)]; simp only [user]; exact waited⟩
  · obtain ⟨⟨k', v⟩, joined⟩ := good.thread_join_some not_idle ⟨nonneg, lt⟩
    exact ⟨k', by unfold Kernel.step; rw [if_neg (accepted _)]; simp only [user, joined]; rfl⟩

/-- At boot, the main thread can wait on any condition and join any `tid` in
`[0, NTHR)`. -/
theorem boot_can_wait_and_join : (∀ c, ∃ k', (thread_init bootLayout fun _ => blank).step bootLayout 0 (.wait c) =
    some k') ∧ ∀ tid : Int, 0 ≤ tid → tid < NTHR →
      ∃ k', (thread_init bootLayout fun _ => blank).step bootLayout 0 (.join tid) = some k' :=
  clean_runs_can_wait_and_join (.init _) rfl (by decide)

/-- At boot, the main thread can yield. -/
theorem boot_can_yield : ∃ k', (thread_init bootLayout fun _ => blank).step bootLayout 0 .yield = some k' :=
  clean_runs_can_yield (.init _) rfl (.inl (by decide))

/-! ## Exiting wakes a joining parent -/

/-- `thread_exit` by a thread other than the idle thread, with fuel for each
waiter on its parent's `child_exit`, returns, and wakes the parent when the
parent waits in a join, on its own `child_exit`: afterwards the parent is
ready, or already running. -/
theorem thread_exit_wakes_parent {fuel : Nat} {p : Ptr} (good : Good k.view) (not_idle : k.tp ≠ idle_thread)
    (parent : (k.mem k.tp).parent = some p) (enough : ∃ lc, k.Reads (.cond (.childExit p)) lc ∧ lc.length ≤ fuel)
    (waits : (k.mem p).state = .waiting) (on_exit : (k.mem p).wait_cond = some (.childExit p)) :
    ∃ k', k.thread_exit fuel = some k' ∧ ((k'.mem p).state = .ready ∨ (k'.mem p).state = .running) := by
  obtain ⟨k', h⟩ := good.thread_exit_some not_idle parent enough
  refine ⟨k', h, ?_⟩
  simp only [Kernel.thread_exit, Option.bind_eq_bind, Option.bind_eq_some] at h
  obtain ⟨⟨⟩, not_main, p', parent', k₂, broadcast, suspended⟩ := h
  rw [check_eq_some] at not_main
  have same_parent : ((k.setState k.tp .exited).mem k.tp).parent = (k.mem k.tp).parent :=
    (setState_restated k k.tp .exited).parent k.tp
  obtain rfl : p' = p := Option.some.inj (parent'.symm.trans (same_parent.trans parent))
  have core₁ := good.setState_exited not_idle
  have running : (k.mem k.tp).state = .running := good.tp_running
  have p_ne : p' ≠ k.tp := fun same => by rw [same, running] at waits; cases waits
  obtain ⟨q, parent_q, live_q⟩ := core₁.parent_of_live core₁.tp_live not_main
  obtain rfl : p' = q := Option.some.inj ((same_parent.trans parent).symm.trans parent_q)
  have exists_p : (k.setState k.tp .exited).CondExists (.childExit p') := live_q
  obtain ⟨-, lc, -, members, -, -, -, -, -, -, -, -, state₂, -⟩ := condition_broadcast_spec core₁ exists_p broadcast
  obtain ⟨core₂, tp₂, -⟩ := core₁.condition_broadcast exists_p broadcast
  have p_lc : p' ∈ lc := (members p').mpr ⟨live_q, by simp [waits, p_ne], by simp [on_exit]⟩
  have ready₂ : (k₂.mem p').state = .ready := by rw [state₂, if_pos p_lc]
  have exited₂ : (k₂.mem k₂.tp).state = .exited := by
    have tp_lc : k.tp ∉ lc := fun mem => by
      have := ((members _).mp mem).2.1
      simp at this
    rw [state₂, tp₂, setState_tp, if_neg tp_lc, setState_state, if_pos rfl]
  simp only [Kernel.suspend_self, Option.bind_eq_bind, Option.bind_eq_some] at suspended
  obtain ⟨⟨next, k₃⟩, dispatched, resumed⟩ := suspended
  cases resumed
  obtain ⟨lr, rep, members₂⟩ := core₂.lists .ready trivial
  obtain ⟨l, -, -, -, -, -, states⟩ := dispatch_spec rep (by rw [exited₂]; decide)
    (fun u mem => ((members₂ u).mp mem).2) dispatched
  rw [thread_swtch_state, states]
  split_ifs with is_next is_tp
  · exact .inr rfl
  · exact absurd is_tp.2 (by rw [exited₂]; decide)
  · exact .inl ready₂

/-- The main thread spawns a thread at `10` and joins it; once the idle thread
has yielded, `10` runs and exits, and the main thread is woken. -/
theorem exit_wakes_joining_main : ∃ k, (thread_init bootLayout fun _ => blank).run bootLayout 1
    [.spawn 10 blank 0x90000000, .join 1, .yield] = some k ∧ ∃ k', k.thread_exit 1 = some k' ∧
    ((k'.mem main_thread).state = .ready ∨ (k'.mem main_thread).state = .running) := by
  obtain ⟨k, ran⟩ : ∃ k, (thread_init bootLayout fun _ => blank).run bootLayout 1
      [.spawn 10 blank 0x90000000, .join 1, .yield] = some k := Option.isSome_iff_exists.mp (by decide)
  have facts := Kernel.run_observe (fun k => (k.tp, (k.mem 10).parent, (k.mem main_thread).state,
    (k.mem main_thread).wait_cond)) ran (v := (10, some main_thread, .waiting, some (.childExit main_thread)))
    (by decide)
  have list := Kernel.run_observe (fun k => ((k.mem main_thread).child_exit.head, k.next main_thread)) ran
    (v := (some main_thread, none)) (by decide)
  simp only [Prod.mk.injEq] at facts list
  obtain ⟨tp, parent, waits, on_exit⟩ := facts
  obtain ⟨head, last⟩ := list
  have reads : k.Reads (.cond (.childExit main_thread)) [main_thread] := by
    unfold Kernel.Reads
    rw [show k.list (.cond (.childExit main_thread)) = (k.mem main_thread).child_exit from rfl, head]
    exact .cons _ _ _ (last ▸ .nil _)
  exact ⟨k, ran, thread_exit_wakes_parent ((Good.init _ _).run (by decide) ran) (by rw [tp]; decide)
    (by rw [tp, parent]) ⟨_, reads, by decide⟩ waits on_exit⟩

/-! ## Recycling -/

/-- `recycle_thread` frees the slot of an exited thread and hands the thread's
children to its parent, which stays live. -/
theorem recycle_thread_adopts_children {tid : Nat} (good : Good k.view) (h : k.recycle_thread tid = some k') :
    ∃ i thr q, i.val = tid ∧ k.thrtab i = some thr ∧ (k.mem thr).state = .exited ∧
      (k.mem thr).parent = some q ∧ k'.thrtab = store k.thrtab i none ∧ k'.Live q ∧
      ∀ u, k.Live u → (k'.mem u).parent = if (k.mem u).parent = some thr then some q else (k.mem u).parent := by
  obtain ⟨i, thr, q, tid_eq, slot, exited, -, parent_thr, live_q, q_ne, thrtab', -, -, -, live', parent'⟩ :=
    good.recycle_thread_spec h
  exact ⟨i, thr, q, tid_eq, slot, exited, parent_thr, thrtab', (live' q).mpr ⟨live_q, q_ne⟩, parent'⟩

/-- The main thread spawns a thread at `10`, which, once the main and the idle
thread have yielded, spawns a thread at `11` and exits.  Recycling slot `1`,
which holds `10`, makes the main thread the parent of `11`. -/
theorem recycle_hands_child_to_main : ∃ k k', (thread_init bootLayout fun _ => blank).run bootLayout 1
    [.spawn 10 blank 0x90000000, .yield, .yield, .spawn 11 blank 0x90001000, .exit] = some k ∧
    k.recycle_thread 1 = some k' ∧
    ∃ i thr q, i.val = 1 ∧ k.thrtab i = some thr ∧ (k.mem thr).state = .exited ∧ (k.mem thr).parent = some q ∧
      k'.thrtab = store k.thrtab i none ∧ k'.Live q ∧
      ∀ u, k.Live u → (k'.mem u).parent = if (k.mem u).parent = some thr then some q else (k.mem u).parent := by
  obtain ⟨k', ran⟩ : ∃ k', ((thread_init bootLayout fun _ => blank).run bootLayout 1
      [.spawn 10 blank 0x90000000, .yield, .yield, .spawn 11 blank 0x90001000, .exit]).bind
      (·.recycle_thread 1) = some k' := Option.isSome_iff_exists.mp (by decide)
  obtain ⟨k, ran, h⟩ := Option.bind_eq_some.mp ran
  exact ⟨k, k', ran, h, recycle_thread_adopts_children ((Good.init _ _).run (by decide) ran) h⟩

end OsKernel.Threads
