import OsKernel.Thread.Resume

/-! # The joins never panic

`thread_join (tid)` waits on its own `child_exit` until `child`, the thread it
read from slot `tid`, has exited, and then recycles slot `tid`; the wait loop
never reads `thrtab` again.  `thread_join_any` waits once and then expects an
exited child, or panics with "spurious child_exit signal".  Both rely on the
rest of the kernel: nothing but the joining thread recycles its children, and
the only broadcasts on a thread's `child_exit` come from its exiting children.

`JoinSafe` says that every live thread can go on where it resumes
(`View.ResumeOk`): a thread in `thread_join`'s loop still has `child` as a child
in slot `tid`, a thread in `thread_join_any` waits on its own `child_exit` and,
once woken, has an exited child, and only exited threads resume in
`thread_exit`.  Each scheduler function keeps it (`suspend_self_joinSafe`,
`condition_wait_joinSafe`, `condition_broadcast_resumeOk`, ...), so every state
of a clean run satisfies it, and there the `resume` action never fails and no
thread resumes into a fault (`clean_joins_resume`).
-/

namespace OsKernel.Threads

open View Kernel

namespace View

variable (v : View)

/-- `child`, in slot `tid` from 1 on, is a child of `t`: what `thread_join`
checks before it waits. -/
def Joins (t : Ptr) (tid : Nat) (child : Ptr) : Prop :=
  ∃ i : Fin NTHR, i.val = tid ∧ 1 ≤ tid ∧ v.thrtab i = some child ∧ (v.thread child).parent = some t

/-- `t` has an exited child in `thrtab[1..NTHR-1]`: what the second loop of
`thread_join_any` looks for. -/
def ExitedChild (t : Ptr) : Prop :=
  ∃ (i : Fin NTHR) (u : Ptr), 1 ≤ i.val ∧ v.thrtab i = some u ∧ (v.thread u).parent = some t ∧
    (v.thread u).state = .exited

/-- What `t` needs of the state to go on at `r`: in its own code, not to have
exited; in `thread_join`'s loop, still to have `child` in slot `tid`; in
`thread_join_any`, to wait on its own `child_exit` and, once woken, to have an
exited child; after `thread_exit`'s `suspend_self`, to have exited; and never
to resume into a fault.  No thread in a join is the idle thread. -/
def ResumeOk (t : Ptr) : Ctl → Prop
  | .user => (v.thread t).state ≠ .exited
  | .join tid child => t ≠ idle_thread ∧ (v.thread t).state ≠ .exited ∧ v.Joins t tid child
  | .joinAny => t ≠ idle_thread ∧ (v.thread t).state ≠ .exited ∧
      ((v.thread t).state = .waiting → (v.thread t).wait_cond = some (.childExit t)) ∧
      ((v.thread t).state ≠ .waiting → v.ExitedChild t)
  | .exited => (v.thread t).state = .exited
  | .fault => False

/-- What the running thread `t` needs before it waits on `c` to go on at `r`
once woken. -/
def WaitOk (t : Ptr) (c : Cond) : Ctl → Prop
  | .user => True
  | .join tid child => t ≠ idle_thread ∧ v.Joins t tid child
  | .joinAny => t ≠ idle_thread ∧ c = .childExit t
  | .exited => False
  | .fault => False

/-- Every child of `t` in a slot of `v` is in the same slot of `v'`, still a
child of `t`, and still exited if it had exited. -/
def KeepsChildren (v' : View) (t : Ptr) : Prop :=
  ∀ i u, v.thrtab i = some u → (v.thread u).parent = some t →
    v'.thrtab i = some u ∧ (v'.thread u).parent = some t ∧
      ((v.thread u).state = .exited → (v'.thread u).state = .exited)

variable {v} {v' : View} {t : Ptr}

theorem keepsChildren_of_slots (slots : ∀ i u, v.thrtab i = some u → v'.thrtab i = some u)
    (parent : ∀ i u, v.thrtab i = some u → (v'.thread u).parent = (v.thread u).parent)
    (exited : ∀ i u, v.thrtab i = some u → (v.thread u).state = .exited → (v'.thread u).state = .exited)
    (t : Ptr) : v.KeepsChildren v' t :=
  fun i u slot is_child => ⟨slots i u slot, (parent i u slot).trans is_child, exited i u slot⟩

theorem SameTree.keepsChildren (same : SameTree v v')
    (exited : ∀ u, (v.thread u).state = .exited → (v'.thread u).state = .exited) (t : Ptr) :
    v.KeepsChildren v' t :=
  keepsChildren_of_slots (fun _ _ slot => by rw [same.thrtab]; exact slot) (fun _ u _ => same.parent u)
    (fun _ u _ => exited u) t

theorem Joins.transfer {tid : Nat} {child : Ptr} (joins : v.Joins t tid child) (keeps : v.KeepsChildren v' t) :
    v'.Joins t tid child := by
  obtain ⟨i, rfl, one_le, slot, parent⟩ := joins
  obtain ⟨slot', parent', -⟩ := keeps i child slot parent
  exact ⟨i, rfl, one_le, slot', parent'⟩

theorem ExitedChild.transfer (exited_child : v.ExitedChild t) (keeps : v.KeepsChildren v' t) :
    v'.ExitedChild t := by
  obtain ⟨i, u, one_le, slot, parent, exited⟩ := exited_child
  obtain ⟨slot', parent', exited'⟩ := keeps i u slot parent
  exact ⟨i, u, one_le, slot', parent', exited' exited⟩

/-- A thread that keeps its children, whether it is waiting or exited, and its
`wait_cond` can still go on where it resumes. -/
theorem ResumeOk.transfer {r : Ctl} (ok : v.ResumeOk t r) (keeps : v.KeepsChildren v' t)
    (exited : (v'.thread t).state = .exited ↔ (v.thread t).state = .exited)
    (waiting : (v'.thread t).state = .waiting ↔ (v.thread t).state = .waiting)
    (wait_cond : (v'.thread t).wait_cond = (v.thread t).wait_cond) : v'.ResumeOk t r := by
  cases r with
  | user => exact fun exited' => ok (exited.mp exited')
  | join tid child => exact ⟨ok.1, fun exited' => ok.2.1 (exited.mp exited'), ok.2.2.transfer keeps⟩
  | joinAny =>
    refine ⟨ok.1, fun exited' => ok.2.1 (exited.mp exited'), fun waits => ?_, fun not_waiting => ?_⟩
    · rw [wait_cond]; exact ok.2.2.1 (waiting.mp waits)
    · exact (ok.2.2.2 fun waits => not_waiting (waiting.mpr waits)).transfer keeps
  | exited => exact exited.mpr ok
  | fault => exact ok

/-- A waiting thread that is woken can go on where it resumes, provided it has
an exited child if it resumes in `thread_join_any`. -/
theorem ResumeOk.wake {r : Ctl} (ok : v.ResumeOk t r) (waits : (v.thread t).state = .waiting)
    (ready : (v'.thread t).state = .ready) (keeps : v.KeepsChildren v' t) (reaps : r = .joinAny → v'.ExitedChild t) :
    v'.ResumeOk t r := by
  have not_exited : (v'.thread t).state ≠ .exited := by rw [ready]; decide
  cases r with
  | user => exact not_exited
  | join tid child => exact ⟨ok.1, not_exited, ok.2.2.transfer keeps⟩
  | joinAny => exact ⟨ok.1, not_exited, fun waits' => absurd (ready.symm.trans waits') (by decide), fun _ => reaps rfl⟩
  | exited => exact absurd (waits.symm.trans ok) (by decide)
  | fault => exact ok

/-- A thread that waits on `c` can go on where `WaitOk` allows. -/
theorem WaitOk.resumeOk {c : Cond} {r : Ctl} (ok : v.WaitOk t c r) (keeps : v.KeepsChildren v' t)
    (waits : (v'.thread t).state = .waiting) (on_c : (v'.thread t).wait_cond = some c) : v'.ResumeOk t r := by
  have not_exited : (v'.thread t).state ≠ .exited := by rw [waits]; decide
  cases r with
  | user => exact not_exited
  | join tid child => exact ⟨ok.1, not_exited, ok.2.transfer keeps⟩
  | joinAny => exact ⟨ok.1, not_exited, fun _ => ok.2 ▸ on_c, fun not_waiting => absurd waits not_waiting⟩
  | exited => exact ok.elim
  | fault => exact ok.elim

end View

/-- The joins' invariant: every live thread can go on where it resumes. -/
def JoinSafe (k : Kernel) : Prop := ∀ t, k.Live t → k.view.ResumeOk t (k.resumeAt t)

variable {k k' : Kernel}

/-! ## Switching and waiting -/

/-- `suspend_self` keeps the invariant when every thread can go on where it
resumes afterwards: the caller at `r`, every other where it did. -/
theorem suspend_self_joinSafe {r : Ctl} (core : Core k.view) (not_ready : (k.mem k.tp).state ≠ .ready)
    (safe : ∀ t, k.Live t → k.view.ResumeOk t (if t = k.tp then r else k.resumeAt t))
    (h : k.suspend_self r = some k') : JoinSafe k' := by
  simp only [Kernel.suspend_self, Option.bind_eq_bind, Option.bind_eq_some] at h
  obtain ⟨⟨next, k₁⟩, dispatched, ⟨⟩⟩ := h
  obtain ⟨lr, rep, members⟩ := core.lists .ready trivial
  obtain ⟨l, rfl, -, -, -, restated, states⟩ :=
    dispatch_spec rep not_ready (fun u mem => ((members u).mp mem).2) dispatched
  have next_ready : (k.mem next).state = .ready := ((members next).mp (List.mem_cons_self _ _)).2
  have ne : next ≠ k.tp := fun same => not_ready (same ▸ next_ready)
  have kept (u : Ptr) (s : ThreadState) (kind : s = .waiting ∨ s = .exited) :
      (k₁.mem u).state = s ↔ (k.mem u).state = s := by
    rw [states u]
    split_ifs with is_next is_tp
    · subst is_next; rw [next_ready]; rcases kind with rfl | rfl <;> decide
    · rw [is_tp.1, is_tp.2]; rcases kind with rfl | rfl <;> decide
    · rfl
  intro t live
  rw [suspend_self_resumeAt dispatched ne, view_thread_swtch]
  have live₀ : k.Live t := by
    obtain ⟨i, slot⟩ := live
    have thrtab₁ : k₁.thrtab = k.thrtab := restated.thrtab
    exact ⟨i, by rw [← thrtab₁]; simpa using slot⟩
  exact (safe t live₀).transfer (restated.keepsChildren (fun u => (kept u .exited (.inr rfl)).mpr) t)
    (kept t .exited (.inr rfl)) (kept t .waiting (.inl rfl)) (restated.wait_cond t)

/-- `condition_wait` keeps the invariant when the caller may go on at `r` once
woken. -/
theorem condition_wait_joinSafe {c : Cond} {r : Ctl} (good : Good k.view) (safe : JoinSafe k)
    (not_idle : k.tp ≠ idle_thread) (exists_c : k.CondExists c) (own : ∀ u, c = .childExit u → u = k.tp)
    (wait_ok : k.view.WaitOk k.tp c r) (h : k.condition_wait c r = some k') : JoinSafe k' := by
  obtain ⟨k₄, -, called, core₄, tp₄, -, -, -, -, -, state₄, wait₄, tree₄, ctl₄, context₄⟩ :=
    good.condition_wait_spec r not_idle exists_c own
  have running : (k.mem k.tp).state = .running := good.tp_running
  have exited (u : Ptr) (exited : (k.mem u).state = .exited) : (k₄.mem u).state = .exited := by
    rw [state₄, if_neg fun same => by rw [same, running] at exited; cases exited]; exact exited
  refine suspend_self_joinSafe core₄ (by rw [tp₄, state₄, if_pos rfl]; decide) (fun t live => ?_) (called ▸ h)
  rw [tp₄, resumeAt_eq tp₄ ctl₄ context₄]
  have keeps := tree₄.keepsChildren exited t
  split_ifs with is_tp
  · subst is_tp
    exact wait_ok.resumeOk keeps (by simp [state₄]) (by simp [wait₄])
  · exact (safe t ((tree₄.live t).mp live)).transfer keeps (by simp [state₄, is_tp]) (by simp [state₄, is_tp])
      (by simp [wait₄, is_tp])

/-- `thread_yield` keeps the invariant. -/
theorem thread_yield_joinSafe (good : Good k.view) (safe : JoinSafe k) (h : k.thread_yield = some k') :
    JoinSafe k' := by
  simp only [Kernel.thread_yield, Option.bind_eq_bind, check_bind_eq_some] at h
  refine suspend_self_joinSafe good.toCore (by rw [h.1]; decide) (fun t live => ?_) h.2
  split_ifs with is_tp
  · subst is_tp
    show (k.mem k.tp).state ≠ .exited
    rw [h.1]; decide
  · exact safe t live

/-! ## Broadcasts and exits -/

/-- `condition_broadcast` keeps what every thread needs to go on at `ρ`,
provided each thread it wakes that goes on in `thread_join_any` has an exited
child. -/
theorem condition_broadcast_resumeOk {fuel : Nat} {c : Cond} {ρ : Ptr → Ctl} (core : Core k.view)
    (exists_c : k.CondExists c) (h : k.condition_broadcast fuel c = some k')
    (safe : ∀ t, k.Live t → k.view.ResumeOk t (ρ t))
    (reaps : ∀ t, k.view.OnList (.cond c) t → ρ t = .joinAny → k.view.ExitedChild t) :
    ∀ t, k'.Live t → k'.view.ResumeOk t (ρ t) := by
  obtain ⟨-, lc, -, members, -, -, -, -, -, -, tree', -, state', wait'⟩ := condition_broadcast_spec core exists_c h
  have exited (u : Ptr) (exited : (k.mem u).state = .exited) : (k'.mem u).state = .exited := by
    have not_lc : u ∉ lc := fun mem => by
      have waiting : (k.mem u).state = .waiting := ((members u).mp mem).2.1
      rw [exited] at waiting; cases waiting
    rw [state', if_neg not_lc, exited]
  have keeps := tree'.keepsChildren exited
  intro t live'
  have live := (tree'.live t).mp live'
  by_cases mem : t ∈ lc
  · have on_c := (members t).mp mem
    exact (safe t live).wake on_c.2.1 (by simp [state', mem]) (keeps t)
      fun joinAny => (reaps t on_c joinAny).transfer (keeps t)
  · exact (safe t live).transfer (keeps t) (by simp [state', mem]) (by simp [state', mem]) (by simp [wait', mem])

/-- A broadcast on a driver's condition keeps the invariant: a thread in
`thread_join_any` waits on its own `child_exit`, never on such a condition. -/
theorem condition_broadcast_joinSafe {fuel c : Nat} (good : Good k.view) (safe : JoinSafe k)
    (h : k.condition_broadcast fuel (.other c) = some k') : JoinSafe k' := by
  intro t live
  rw [condition_broadcast_resumeAt h]
  refine condition_broadcast_resumeOk good.toCore (show k.CondExists (.other c) from trivial) h safe
    (fun u on_c joinAny => ?_) t live
  have ok := safe u on_c.1
  rw [joinAny] at ok
  exact absurd (on_c.2.2.symm.trans (ok.2.2.1 on_c.2.1)) (by simp)

/-- `thread_exit` keeps the invariant: the caller resumes in `thread_exit`
having exited, and the parent it wakes, if it waits in `thread_join_any`, has
the caller as an exited child. -/
theorem thread_exit_joinSafe {fuel : Nat} (good : Good k.view) (safe : JoinSafe k) (not_idle : k.tp ≠ idle_thread)
    (h : k.thread_exit fuel = some k') : JoinSafe k' := by
  simp only [Kernel.thread_exit, Option.bind_eq_bind, Option.bind_eq_some] at h
  obtain ⟨⟨⟩, not_main, p, parent, k₂, broadcast, suspended⟩ := h
  rw [check_eq_some] at not_main
  have core₁ := good.setState_exited not_idle
  obtain ⟨p', parent', live_p⟩ := core₁.parent_of_live core₁.tp_live not_main
  obtain rfl : p' = p := Option.some.inj (parent'.symm.trans parent)
  have exists_p : (k.setState k.tp .exited).CondExists (.childExit p') := live_p
  obtain ⟨core₂, tp₂, keeps₂⟩ := core₁.condition_broadcast exists_p broadcast
  have exited₁ : ((k.setState k.tp .exited).mem k.tp).state = .exited := by simp
  have exited₂ : (k₂.mem k.tp).state = .exited := by rw [keeps₂ _ (by rw [exited₁]; decide), exited₁]
  have running : (k.mem k.tp).state = .running := good.tp_running
  have restated := setState_restated k k.tp .exited
  have safe₁ (t : Ptr) (live : (k.setState k.tp .exited).Live t) :
      (k.setState k.tp .exited).view.ResumeOk t (if t = k.tp then .exited else k.resumeAt t) := by
    split_ifs with is_tp
    · subst is_tp; exact exited₁
    · refine (safe t live).transfer (restated.keepsChildren (fun u exited => ?_) t) (by simp [is_tp])
        (by simp [is_tp]) (restated.wait_cond t)
      have ne : u ≠ k.tp := fun same => by rw [same] at exited; exact absurd (running.symm.trans exited) (by decide)
      simpa [ne] using exited
  have reaps (t : Ptr) (on_c : (k.setState k.tp .exited).view.OnList (.cond (.childExit p')) t) :
      (k.setState k.tp .exited).view.ExitedChild t := by
    obtain rfl := core₁.own_child_exit t p' on_c.1 on_c.2.1 on_c.2.2
    obtain ⟨i, slot⟩ := core₁.tp_live
    exact ⟨i, k.tp, core₁.one_le_of_parent slot parent', slot, parent', exited₁⟩
  refine suspend_self_joinSafe core₂ (by rw [tp₂, setState_tp, exited₂]; decide) (fun t live => ?_) suspended
  rw [tp₂, setState_tp, condition_broadcast_resumeAt broadcast,
    resumeAt_eq (setState_tp _ _ _) rfl fun u => setState_context k k.tp u .exited]
  exact condition_broadcast_resumeOk core₁ exists_p broadcast safe₁ (fun t on_c _ => reaps t on_c) t live

/-! ## Creating threads -/

section Add

variable {k₁ k₂ : Kernel} {child x : Ptr} {i : Fin NTHR}

/-- Adding `child` in the free slot `i` and putting `x`, the new thread or the
running one, on the ready list keeps what every thread already in `thrtab`
needs to resume where it did. -/
theorem add_thread_resumeOk (safe : JoinSafe k) (fresh : k.Fresh child) (free : k.thrtab i = none)
    (thrtab₁ : k₁.thrtab = store k.thrtab i (some child))
    (others₁ : ∀ u, u ≠ child → (k₁.mem u).sched =
      if u = x then { (k.mem u).sched with state := .ready } else (k.mem u).sched)
    (inserted : k₁.tlinsert .ready x = some k₂) (x_running : x ≠ child → (k.mem x).state = .running)
    {t : Ptr} (live : k.Live t) : k₂.view.ResumeOk t (k.resumeAt t) := by
  have rel₂ := tlinsert_relinked inserted
  have field (u : Ptr) (ne : u ≠ child) :
      (k₂.mem u).state = (if u = x then .ready else (k.mem u).state) ∧ (k₂.mem u).parent = (k.mem u).parent ∧
        (k₂.mem u).wait_cond = (k.mem u).wait_cond := by
    refine ⟨(rel₂.state u).trans ?_, (rel₂.parent u).trans ?_, (rel₂.wait_cond u).trans ?_⟩ <;>
      rw [view_thread, others₁ u ne] <;> split <;> rfl
  have ne_child {u : Ptr} (live : k.Live u) : u ≠ child := fresh.ne_of_live live
  have slots (j : Fin NTHR) (u : Ptr) (slot : k.thrtab j = some u) : k₂.thrtab j = some u := by
    have thrtab₂ : k₂.thrtab = k₁.thrtab := rel₂.thrtab
    rw [thrtab₂, thrtab₁, store_of_ne _ _ _ fun same => by rw [same, free] at slot; cases slot]
    exact slot
  have kept (u : Ptr) (ne : u ≠ child) (s : ThreadState) (kind : s = .waiting ∨ s = .exited) :
      (k₂.mem u).state = s ↔ (k.mem u).state = s := by
    rw [(field u ne).1]
    split_ifs with is_x
    · subst is_x; rw [x_running ne]; rcases kind with rfl | rfl <;> decide
    · rfl
  have t_ne := ne_child live
  exact (safe t live).transfer (keepsChildren_of_slots slots (fun j u slot => (field u (ne_child ⟨j, slot⟩)).2.1)
      (fun j u slot => (kept u (ne_child ⟨j, slot⟩) .exited (.inr rfl)).mpr) t)
    (kept t t_ne .exited (.inr rfl)) (kept t t_ne .waiting (.inl rfl)) (field t t_ne).2.2

end Add

/-- `thread_spawn` of a block that is not a thread in use keeps the invariant:
the new thread starts in its own code. -/
theorem thread_spawn_joinSafe {L : Layout} {child : Ptr} {blk : Thread} {page : Addr} {tid : Nat}
    (good : Good k.view) (safe : JoinSafe k) (fresh : k.Fresh child)
    (h : k.thread_spawn L child blk page = some (k', tid)) : JoinSafe k' := by
  obtain ⟨i, k₁, k₂, free, inserted, view', thrtab₁, -, -, -, others₁, child₁⟩ := thread_spawn_spec h
  have others (u : Ptr) (ne : u ≠ child) :
      (k₁.mem u).sched = if u = child then { (k.mem u).sched with state := .ready } else (k.mem u).sched := by
    rw [if_neg ne, others₁ u ne]
  have free_i := (freeSlot_spec free).2
  have thrtab' : k'.thrtab = k₂.thrtab := congrArg View.thrtab view'
  intro t ⟨j, slot⟩
  rw [thread_spawn_resumeAt (fresh.ne_of_live good.tp_live).symm h, view']
  split_ifs with is_child
  · subst is_child
    show (k₂.mem t).state ≠ .exited
    rw [add_thread_state others child₁ inserted, if_pos rfl]
    decide
  · have live : k.Live t :=
      ((add_thread_live inserted free_i thrtab₁ t).mp ⟨j, thrtab' ▸ slot⟩).resolve_right is_child
    exact add_thread_resumeOk safe fresh free_i thrtab₁ others inserted (fun ne => absurd rfl ne) live

/-- `thread_fork_to_user` of a block that is not a thread in use keeps the
invariant: the new thread runs in its own code, and the caller will return into
its own. -/
theorem thread_fork_to_user_joinSafe {L : Layout} {child_proc : Nat} {block : Addr} {child : Ptr} {blk : Thread}
    {tid : Nat} (good : Good k.view) (safe : JoinSafe k) (fresh : k.Fresh child)
    (h : k.thread_fork_to_user L child_proc block child blk = some (k', tid)) : JoinSafe k' := by
  have tp_ne : child ≠ k.tp := (fresh.ne_of_live good.tp_live).symm
  obtain ⟨i, k₁, k₂, free, inserted, view', thrtab₁, -, -, others₁, child₁⟩ :=
    thread_fork_to_user_spec tp_ne h
  have free_i := (freeSlot_spec free).2
  have thrtab' : k'.thrtab = k₂.thrtab := congrArg View.thrtab view'
  have state₂ := add_thread_state others₁ child₁ inserted
  intro t ⟨j, slot⟩
  rw [thread_fork_to_user_resumeAt h, view']
  split_ifs with is_new
  · show (k₂.mem t).state ≠ .exited
    rcases is_new with rfl | rfl
    · rw [state₂, if_pos rfl]; decide
    · rw [state₂, if_neg tp_ne.symm, if_pos rfl]; decide
  · have live : k.Live t :=
      ((add_thread_live inserted free_i thrtab₁ t).mp ⟨j, thrtab' ▸ slot⟩).resolve_right (not_or.mp is_new).1
    exact add_thread_resumeOk safe fresh free_i thrtab₁ others₁ inserted (fun _ => good.tp_running) live

/-! ## Recycling and the joins -/

/-- Recycling a child of the running thread keeps what every other thread needs
to resume where it did; back in its own code, the running thread can go on. -/
theorem recycle_thread_joinSafe {tid : Nat} (good : Good k.view) (safe : JoinSafe k)
    (own : ∀ i t, i.val = tid → k.thrtab i = some t → (k.mem t).parent = some k.tp)
    (h : k.recycle_thread tid = some k') : JoinSafe { k' with ctl := .user } ∧ k'.ctl = k.ctl := by
  obtain ⟨i₀, thr, q, rfl, slot, -, -, parent_thr, -, -, thrtab', tp', -, sched', live', parent'⟩ :=
    good.recycle_thread_spec h
  obtain rfl : q = k.tp := Option.some.inj (parent_thr.symm.trans (own i₀ thr rfl slot))
  have resumeAt' := recycle_thread_resumeAt h
  have running' : (k'.mem k'.tp).state = .running := (good.recycle_thread h).tp_running
  have state' (u : Ptr) : (k'.mem u).state = (k.mem u).state := congrArg SchedRec.state (sched' u)
  have wait' (u : Ptr) : (k'.mem u).wait_cond = (k.mem u).wait_cond := congrArg SchedRec.wait_cond (sched' u)
  refine ⟨fun t live => ?_, by rw [← resumeAt_tp, tp', resumeAt', resumeAt_tp]⟩
  show k'.view.ResumeOk t (if t = k'.tp then .user else (k'.mem t).context.resumes)
  split_ifs with is_tp
  · show (k'.mem t).state ≠ .exited
    rw [is_tp, running']
    decide
  rw [← resumeAt_of_ne is_tp, resumeAt']
  rw [tp'] at is_tp
  obtain ⟨live₀, t_ne⟩ := (live' t).mp live
  refine (safe t live₀).transfer (fun j u slot_j parent_u => ?_) (by simp [state']) (by simp [state'])
    (wait' t)
  have j_ne : j ≠ i₀ := fun same => by
    subst same
    obtain rfl := Option.some.inj (slot.symm.trans slot_j)
    exact is_tp (Option.some.inj (parent_u.symm.trans parent_thr))
  refine ⟨show k'.thrtab j = some u by rw [thrtab', store_of_ne _ _ _ j_ne]; exact slot_j, ?_,
    fun exited => (state' u).trans exited⟩
  rw [show (k'.view.thread u).parent = _ from parent' u ⟨j, slot_j⟩,
    if_neg fun same => t_ne (Option.some.inj ((show (k.mem u).parent = some t from parent_u).symm.trans same))]
  exact parent_u

/-- The running thread's join on `child` in slot `tid` keeps the invariant, once
back in its caller: it recycles `child`, or waits again on its own
`child_exit`. -/
theorem joinLoop_joinSafe {tid : Nat} {child : Ptr} {v : Option Int} (good : Good k.view) (safe : JoinSafe k)
    (not_idle : k.tp ≠ idle_thread) (joins : k.view.Joins k.tp tid child)
    (h : k.joinLoop tid child = some (k', v)) : JoinSafe (returned (k', v)) ∧ (v.isSome → k'.ctl = k.ctl) := by
  unfold Kernel.joinLoop at h
  split at h
  · obtain ⟨k'', recycled, same⟩ := Option.map_eq_some'.mp h
    cases same
    obtain ⟨i, rfl, -, slot, parent⟩ := joins
    obtain ⟨safe', ctl'⟩ := recycle_thread_joinSafe good safe (fun j u same slot_j => by
      obtain rfl := Fin.ext same
      obtain rfl := Option.some.inj (slot.symm.trans slot_j)
      exact parent) recycled
    exact ⟨safe', fun _ => ctl'⟩
  · obtain ⟨k'', waited, same⟩ := Option.map_eq_some'.mp h
    cases same
    exact ⟨condition_wait_joinSafe good safe not_idle (show k.CondExists (.childExit k.tp) from good.tp_live)
      (fun _ same => (Cond.childExit.inj same).symm) (by exact ⟨not_idle, joins⟩) waited,
      fun returned => by cases returned⟩

/-- `thread_join` called from the running thread's own code keeps the
invariant. -/
theorem thread_join_joinSafe {tid : Int} {v : Option Int} (good : Good k.view) (safe : JoinSafe k)
    (user : k.ctl = .user) (not_idle : k.tp ≠ idle_thread) (h : k.thread_join tid = some (k', v)) : JoinSafe k' := by
  rcases thread_join_cases h with ⟨rfl, -⟩ | ⟨i, child, -, one_le, slot, parent, h⟩
  · exact safe
  obtain ⟨safe', ctl'⟩ := joinLoop_joinSafe good safe not_idle ⟨i, rfl, one_le, slot, parent⟩ h
  cases v with
  | none => exact safe'
  | some w => rwa [returned_of_user (by rw [ctl' rfl, user])] at safe'

/-- `thread_join_any` called from the running thread's own code keeps the
invariant: it reaps through `thread_join`, or waits on its own `child_exit`. -/
theorem thread_join_any_joinSafe {v : Option Int} (good : Good k.view) (safe : JoinSafe k) (user : k.ctl = .user)
    (not_idle : k.tp ≠ idle_thread) (h : k.thread_join_any = some (k', v)) : JoinSafe k' := by
  unfold Kernel.thread_join_any at h
  split at h
  · exact thread_join_joinSafe good safe user not_idle h
  · split at h
    · obtain ⟨k'', waited, same⟩ := Option.map_eq_some'.mp h
      cases same
      exact condition_wait_joinSafe good safe not_idle (show k.CondExists (.childExit k.tp) from good.tp_live)
        (fun _ same => (Cond.childExit.inj same).symm) (by exact ⟨not_idle, rfl⟩) waited
    · cases h

theorem exitedChild_spec {i : Fin NTHR} (found : k.exitedChild = some i) :
    1 ≤ i.val ∧ ∃ t, k.thrtab i = some t ∧ (k.mem t).parent = some k.tp ∧ (k.mem t).state = .exited := by
  simpa using List.find?_some found

/-- The rest of `thread_join_any`, once woken, keeps the invariant once back in
its caller. -/
theorem joinAnyWake_joinSafe {v : Option Int} (good : Good k.view) (safe : JoinSafe k)
    (h : k.joinAnyWake = some (k', v)) : JoinSafe (returned (k', v)) := by
  simp only [Kernel.joinAnyWake, Option.bind_eq_bind, Option.bind_eq_some] at h
  obtain ⟨i, found, k'', recycled, done⟩ := h
  cases done
  obtain ⟨-, t, slot, parent, -⟩ := exitedChild_spec found
  exact (recycle_thread_joinSafe good safe (fun j u same slot_j => by
    obtain rfl := Fin.ext same
    obtain rfl := Option.some.inj (slot.symm.trans slot_j)
    exact parent) recycled).1

/-! ## Every run -/

/-- Every action keeps the invariant: a resumed join goes on where the invariant
says it can, and returns to its caller. -/
theorem JoinSafe.step {L : Layout} {fuel : Nat} {a : Act} (good : Good k.view) (safe : JoinSafe k)
    (h : k.step L fuel a = some k') : JoinSafe k' := by
  unfold Kernel.step at h
  split at h
  · cases h
  rename_i allowed
  have not_idle (refused : a.idleMay k = false) : k.tp ≠ idle_thread := fun idle => allowed ⟨idle, refused⟩
  split at h
  · split at h
    · obtain ⟨⟨k'', tid⟩, done, rfl⟩ := Option.map_eq_some'.mp h
      exact thread_spawn_joinSafe good safe ‹_› done
    · cases h
  · split at h
    · obtain ⟨⟨k'', tid⟩, done, rfl⟩ := Option.map_eq_some'.mp h
      exact thread_fork_to_user_joinSafe good safe ‹_› done
    · cases h
  · exact thread_yield_joinSafe good safe h
  · exact thread_exit_joinSafe good safe (not_idle rfl) h
  · obtain ⟨⟨k'', v⟩, done, rfl⟩ := Option.map_eq_some'.mp h
    exact thread_join_joinSafe good safe ‹_› (not_idle rfl) done
  · obtain ⟨⟨k'', v⟩, done, rfl⟩ := Option.map_eq_some'.mp h
    exact thread_join_any_joinSafe good safe ‹_› (not_idle rfl) done
  · exact condition_wait_joinSafe good safe (not_idle rfl) (show k.CondExists (.other _) from trivial)
      (fun _ same => Cond.noConfusion same) (by exact trivial) h
  · exact condition_broadcast_joinSafe good safe h
  · rename_i tid child ctl
    obtain ⟨⟨k'', v⟩, done, rfl⟩ := Option.map_eq_some'.mp h
    have ok := safe k.tp good.tp_live
    rw [resumeAt_tp, ctl] at ok
    exact (joinLoop_joinSafe good safe (not_idle rfl) ok.2.2 done).1
  · obtain ⟨⟨k'', v⟩, done, rfl⟩ := Option.map_eq_some'.mp h
    exact joinAnyWake_joinSafe good safe done
  · cases h

/-- At boot the main thread runs in its own code and the idle thread will start
in its own. -/
theorem JoinSafe.init (L : Layout) (mem0 : Ptr → Thread) : JoinSafe (thread_init L mem0) := by
  intro t live
  rcases (init_live L mem0 t).mp live with rfl | rfl
  · show ((thread_init L mem0).mem main_thread).state ≠ .exited
    rw [init_main]; exact show ThreadState.running ≠ .exited by decide
  · show ((thread_init L mem0).mem idle_thread).state ≠ .exited
    rw [init_idle]; exact show ThreadState.ready ≠ .exited by decide

end OsKernel.Threads
