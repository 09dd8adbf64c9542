import OsKernel.Thread.Resume

/-! # The parent tree on every run

A `kmalloc` block whose `child_exit` list is stale links into the ready list
threads that are not ready and records that are not in `thrtab`
(`Thread/Queue`), so on such runs the scheduler invariant `Good` fails.  The
parent tree does not rest on it.  A record that is not in `thrtab` holds the
context it was switched out with in `thread_exit`, or the all-zero context it
had at boot, so switching to it faults or lands after the last switch of an
exited thread, and from there no action runs: no such record ever spawns,
forks, joins or exits.

`Sound` is what every reachable state satisfies: the parent tree, the idle
thread has not exited, and every thread that is not in `thrtab`, or has exited,
resumes at a halt.  `Settled` says of the scheduler functions that keep
`thrtab` that they keep the parents and who has exited; the creators and
`recycle_thread` change the tree as `Tree.add_thread` and `Tree.recycle_thread`
say, and `Sound.step` puts them together.

**Main result**: `reachable_parent_tree`, the parent tree in every reachable
state, kept by `recycle_thread`, which changes only the slot it frees and the
parents of the reaped thread's children.
-/

namespace OsKernel.Threads

/-- A point from which a thread runs no more code: the machine has faulted, or
the thread is in `thread_exit` after its last switch. -/
def Ctl.Halted : Ctl → Prop
  | .fault => True
  | .exited => True
  | _ => False

namespace View

variable {v v' v'' : View}

/-- `v'` has the slots, ids and parents of `v`, and the same threads exited. -/
structure Settled (v v' : View) extends SameTree v v' : Prop where
  exited : ∀ u, (v'.thread u).state = .exited ↔ (v.thread u).state = .exited

theorem Settled.trans (r : Settled v v') (r' : Settled v' v'') : Settled v v'' :=
  ⟨r.toSameTree.trans r'.toSameTree, fun u => (r'.exited u).trans (r.exited u)⟩

theorem Relinked.settled (r : Relinked v v') : Settled v v' :=
  ⟨r.toSameTree, fun u => by rw [r.state]⟩

end View

open View

namespace Kernel

variable {k k' : Kernel}

/-! ## The functions that keep `thrtab` -/

theorem setState_settled (k : Kernel) (t : Ptr) {s : ThreadState} (stays : s ≠ .exited)
    (was : (k.mem t).state ≠ .exited) : Settled k.view (k.setState t s).view :=
  ⟨(setState_restated k t s).toSameTree, fun u => by
    simp only [view_thread, Thread.sched_state, setState_state]
    split <;> simp_all⟩

theorem modify_settled (k : Kernel) (t : Ptr) {f : Thread → Thread} (keeps_id : (f (k.mem t)).id = (k.mem t).id)
    (keeps_parent : (f (k.mem t)).parent = (k.mem t).parent) (keeps_state : (f (k.mem t)).state = (k.mem t).state) :
    Settled k.view (k.modify t f).view :=
  ⟨sameTree_modify k t keeps_id keeps_parent, fun u => by
    simp only [view_thread, Thread.sched_state, modify_mem]
    split <;> simp_all⟩

theorem thread_swtch_settled (k : Kernel) (susp next : Ptr) (r : Ctl) :
    Settled k.view (k.thread_swtch susp next r).view := by
  rw [view_thread_swtch]
  exact ⟨⟨rfl, fun _ => rfl, fun _ => rfl⟩, fun _ => Iff.rfl⟩

/-- `dispatch` makes the next thread running and the caller, if running, ready. -/
theorem dispatch_settled {next : Ptr} (h : k.dispatch = some (next, k')) : Settled k.view k'.view := by
  simp only [dispatch, Option.bind_eq_bind, Option.bind_eq_some] at h
  obtain ⟨_, -, n, -, _, ready, h⟩ := h
  rw [check_eq_some] at ready
  have running := (tlremove_relinked k .ready).settled.trans
    ((k.tlremove .ready).2.setState_settled n (s := .running) (by decide) (by rw [ready]; decide))
  split at h
  · rename_i was_running
    obtain ⟨k₁, inserted, h⟩ := Option.bind_eq_some.mp h
    obtain ⟨-, rfl⟩ := Prod.mk.inj (Option.some.inj h)
    exact running.trans (setState_settled _ _ (by decide) (by rw [was_running]; decide)) |>.trans
      (tlinsert_relinked inserted).settled
  · obtain ⟨-, rfl⟩ := Prod.mk.inj (Option.some.inj h)
    exact running

theorem suspend_self_settled {r : Ctl} (h : k.suspend_self r = some k') : Settled k.view k'.view := by
  simp only [suspend_self, Option.bind_eq_bind, Option.bind_eq_some, pure, Option.some.injEq] at h
  obtain ⟨⟨next, k₁⟩, dispatched, rfl⟩ := h
  exact (dispatch_settled dispatched).trans (thread_swtch_settled _ _ _ _)

theorem thread_yield_settled (h : k.thread_yield = some k') : Settled k.view k'.view := by
  simp only [thread_yield, Option.bind_eq_bind, Option.bind_eq_some] at h
  obtain ⟨-, -, h⟩ := h
  exact suspend_self_settled h

/-- `condition_wait` makes its running caller wait. -/
theorem condition_wait_settled {c : Cond} {r : Ctl} (h : k.condition_wait c r = some k') :
    Settled k.view k'.view := by
  simp only [condition_wait, Option.bind_eq_bind, Option.bind_eq_some] at h
  obtain ⟨_, running, k₁, inserted, h⟩ := h
  rw [check_eq_some] at running
  exact (k.setState_settled k.tp (s := .waiting) (by decide) (by rw [running]; decide)).trans
    (modify_settled _ _ rfl rfl rfl) |>.trans (setNext_relinked _ _ _).settled |>.trans
    (tlinsert_relinked inserted).settled |>.trans (suspend_self_settled h)

/-- The loop of `condition_broadcast` makes waiting threads ready. -/
theorem wakeAll_settled {c : Cond} {fuel : Nat} {t : Option Ptr} (h : wakeAll c fuel k t = some k') :
    Settled k.view k'.view := by
  induction fuel generalizing k t with
  | zero =>
    cases t <;> simp only [wakeAll, Option.some.injEq, reduceCtorEq] at h
    exact h ▸ (Relinked.refl _).settled
  | succ fuel ih =>
    cases t with
    | none => simp only [wakeAll, Option.some.injEq] at h; exact h ▸ (Relinked.refl _).settled
    | some t =>
      simp only [wakeAll, Option.bind_eq_bind, Option.bind_eq_some] at h
      obtain ⟨_, waiting, _, -, h⟩ := h
      rw [check_eq_some] at waiting
      exact (k.setState_settled t (s := .ready) (by decide) (by rw [waiting]; decide)).trans
        (modify_settled _ _ rfl rfl rfl) |>.trans (ih h)

theorem condition_broadcast_settled {fuel : Nat} {c : Cond} (h : k.condition_broadcast fuel c = some k') :
    Settled k.view k'.view := by
  unfold condition_broadcast at h
  split at h
  · cases h; exact (Relinked.refl _).settled
  · simp only [Option.bind_eq_bind, Option.bind_eq_some, pure, Option.some.injEq] at h
    obtain ⟨k₁, woken, k₂, appended, rfl⟩ := h
    exact (wakeAll_settled woken).trans (tlappend_relinked appended).settled |>.trans
      (setList_relinked _ _ _).settled

/-- `thread_exit` keeps the slots and the parents; its caller is the one thread
it makes exited. -/
theorem thread_exit_settled {fuel : Nat} (h : k.thread_exit fuel = some k') :
    SameTree k.view k'.view ∧ ∀ u, (k'.mem u).state = .exited ↔ (k.mem u).state = .exited ∨ u = k.tp := by
  simp only [thread_exit, Option.bind_eq_bind, Option.bind_eq_some] at h
  obtain ⟨-, -, parent, -, k₁, broadcast, h⟩ := h
  have settled := (condition_broadcast_settled broadcast).trans (suspend_self_settled h)
  refine ⟨(setState_restated k k.tp .exited).toSameTree.trans settled.toSameTree, fun u => ?_⟩
  rw [← Thread.sched_state, ← view_thread, settled.exited u]
  simp only [view_thread, Thread.sched_state, setState_state]
  split <;> simp_all

/-! ## Where the waiting and the exiting thread resume -/

/-- `condition_wait` leaves its caller to resume at `r` and keeps where every
other thread resumes. -/
theorem condition_wait_resumeAt {c : Cond} {r : Ctl} (h : k.condition_wait c r = some k') (u : Ptr) :
    k'.resumeAt u = if u = k.tp then r else k.resumeAt u := by
  simp only [condition_wait, Option.bind_eq_bind, Option.bind_eq_some] at h
  obtain ⟨-, -, k₁, inserted, h⟩ := h
  simp only [suspend_self, Option.bind_eq_bind, Option.bind_eq_some, pure, Option.some.injEq] at h
  obtain ⟨⟨next, k₂⟩, dispatched, rfl⟩ := h
  have memOnly := tlinsert_memOnly inserted
  have tp₁ : k₁.tp = k.tp := memOnly.tp
  have same : k₁.resumeAt = k.resumeAt := resumeAt_eq memOnly.tp memOnly.ctl fun w => by
    rw [tlinsert_context inserted, setNext_context, modify_mem]
    split <;> simp_all
  have waiting : (k₁.mem k.tp).state = .waiting := by
    rw [show (k₁.mem k.tp).state = _ from (tlinsert_relinked inserted).state k.tp]
    simp
  have ne : next ≠ k₁.tp := fun is_tp => by
    have ready := dispatch_next_ready dispatched
    rw [is_tp, tp₁, waiting] at ready
    cases ready
  rw [suspend_self_resumeAt dispatched ne u, same, tp₁]

/-- `thread_exit` leaves its caller to resume after its last switch and keeps
where every other thread resumes. -/
theorem thread_exit_resumeAt {fuel : Nat} (h : k.thread_exit fuel = some k') (u : Ptr) :
    k'.resumeAt u = if u = k.tp then .exited else k.resumeAt u := by
  simp only [thread_exit, Option.bind_eq_bind, Option.bind_eq_some] at h
  obtain ⟨-, -, parent, -, k₁, broadcast, h⟩ := h
  simp only [suspend_self, Option.bind_eq_bind, Option.bind_eq_some, pure, Option.some.injEq] at h
  obtain ⟨⟨next, k₂⟩, dispatched, rfl⟩ := h
  have tp₁ : k₁.tp = k.tp := (condition_broadcast_memOnly broadcast).tp
  have same : k₁.resumeAt = k.resumeAt := (condition_broadcast_resumeAt broadcast).trans
    (resumeAt_eq rfl rfl fun w => setState_context k k.tp w .exited)
  have exited : (k₁.mem k.tp).state = .exited :=
    ((condition_broadcast_settled broadcast).exited k.tp).mpr (by simp)
  have ne : next ≠ k₁.tp := fun is_tp => by
    have ready := dispatch_next_ready dispatched
    rw [is_tp, tp₁, exited] at ready
    cases ready
  rw [suspend_self_resumeAt dispatched ne u, same, tp₁]

theorem recycle_thread_ctl {tid : Nat} (tree : Tree k.view) (h : k.recycle_thread tid = some k') :
    k'.ctl = k.ctl := by
  obtain ⟨-, -, -, -, -, -, -, rfl⟩ := tree.recycle_thread_eq h
  rfl

end Kernel

/-! ## The invariant of every run -/

/-- What every reachable state satisfies, whatever `kmalloc` returns: the parent
tree, the idle thread has not exited, and every thread that is not in `thrtab`,
or has exited, resumes at a halt. -/
structure Sound (k : Kernel) : Prop where
  tree : Tree k.view
  idle : (k.mem idle_thread).state ≠ .exited
  halted : ∀ t, ¬ k.Live t ∨ (k.mem t).state = .exited → (k.resumeAt t).Halted

open Kernel

variable {k k' : Kernel}

/-- The running thread, when it is not halted, is live and has not exited. -/
theorem Sound.running (sound : Sound k) (going : ¬ k.ctl.Halted) : k.Live k.tp ∧ (k.mem k.tp).state ≠ .exited := by
  by_contra stopped
  exact going (resumeAt_tp k ▸ sound.halted k.tp ((not_and_or.mp stopped).imp_right not_not.mp))

/-- A function that keeps the slots and the parents, and changes whether a
thread has exited and where it resumes only for its live caller, keeps `Sound`
when the caller, if it exits, is not the idle thread and halts. -/
theorem Sound.keep (sound : Sound k) (tree : SameTree k.view k'.view) (live : k.Live k.tp)
    (others : ∀ u, u ≠ k.tp →
      k'.resumeAt u = k.resumeAt u ∧ ((k'.mem u).state = .exited → (k.mem u).state = .exited))
    (own : (k'.mem k.tp).state = .exited → k.tp ≠ idle_thread ∧ (k'.resumeAt k.tp).Halted) : Sound k' := by
  refine ⟨sound.tree.congr tree, fun exited => ?_, fun t stopped => ?_⟩
  · by_cases is_tp : idle_thread = k.tp
    · exact (own (is_tp ▸ exited)).1 is_tp.symm
    · exact sound.idle ((others _ is_tp).2 exited)
  · by_cases is_tp : t = k.tp
    · subst is_tp
      exact (own (stopped.resolve_left fun dead => dead ((tree.live _).mpr live))).2
    · rw [(others t is_tp).1]
      exact sound.halted t (stopped.imp (fun dead live_t => dead ((tree.live t).mpr live_t)) (others t is_tp).2)

/-- A function that keeps the slots, the parents and who has exited, and
changes where a thread resumes only for its caller, keeps `Sound`. -/
theorem Sound.settled (sound : Sound k) (going : ¬ k.ctl.Halted) (settled : Settled k.view k'.view)
    (resumes : ∀ u, u ≠ k.tp → k'.resumeAt u = k.resumeAt u) : Sound k' :=
  have running := sound.running going
  sound.keep settled.toSameTree running.1 (fun u ne => ⟨resumes u ne, (settled.exited u).mp⟩)
    fun exited => absurd ((settled.exited _).mp exited) running.2

theorem Sound.thread_yield (sound : Sound k) (going : ¬ k.ctl.Halted) (h : k.thread_yield = some k') : Sound k' :=
  sound.settled going (thread_yield_settled h) fun u ne => (thread_yield_resumeAt h u).trans (if_neg ne)

theorem Sound.condition_wait {c : Cond} {r : Ctl} (sound : Sound k) (going : ¬ k.ctl.Halted)
    (h : k.condition_wait c r = some k') : Sound k' :=
  sound.settled going (condition_wait_settled h) fun u ne => (condition_wait_resumeAt h u).trans (if_neg ne)

theorem Sound.condition_broadcast {fuel : Nat} {c : Cond} (sound : Sound k) (going : ¬ k.ctl.Halted)
    (h : k.condition_broadcast fuel c = some k') : Sound k' :=
  sound.settled going (condition_broadcast_settled h) fun u _ => congrFun (condition_broadcast_resumeAt h) u

theorem Sound.thread_exit {fuel : Nat} (sound : Sound k) (going : ¬ k.ctl.Halted) (not_idle : k.tp ≠ idle_thread)
    (h : k.thread_exit fuel = some k') : Sound k' :=
  have ⟨same, exited⟩ := thread_exit_settled h
  sound.keep same (sound.running going).1
    (fun u ne => ⟨(thread_exit_resumeAt h u).trans (if_neg ne), fun ex => ((exited u).mp ex).resolve_right ne⟩)
    fun _ => ⟨not_idle, by rw [thread_exit_resumeAt h, if_pos rfl]; trivial⟩

/-- `recycle_thread` keeps `Sound`: the thread it takes out of `thrtab` has
exited. -/
theorem Sound.recycle_thread {tid : Nat} (sound : Sound k) (h : k.recycle_thread tid = some k') : Sound k' := by
  obtain ⟨-, thr, -, -, -, exited, -, -, -, -, -, -, -, sched', live', -⟩ := sound.tree.recycle_thread_spec h
  have state' (u : Ptr) : (k'.mem u).state = (k.mem u).state := congrArg SchedRec.state (sched' u)
  refine ⟨sound.tree.recycle_thread sound.idle h, (state' _).trans_ne sound.idle, fun t stopped => ?_⟩
  rw [recycle_thread_resumeAt h]
  rw [state'] at stopped
  by_cases is_thr : t = thr
  · exact sound.halted t (.inr (is_thr ▸ exited))
  · exact sound.halted t (stopped.imp_left fun dead live => dead ((live' t).mpr ⟨live, is_thr⟩))

/-- A join that returns its value goes back to its caller, which is live. -/
theorem Sound.returned {r : Kernel × Option Int} (sound : Sound r.1) (going : r.2.isSome → ¬ r.1.ctl.Halted) :
    Sound (returned r) := by
  obtain ⟨k, _ | w⟩ := r
  · exact sound
  · obtain ⟨live, not_exited⟩ := sound.running (going rfl)
    refine ⟨sound.tree, sound.idle, fun t stopped => ?_⟩
    by_cases is_tp : t = k.tp
    · subst is_tp
      exact absurd stopped (not_or.mpr ⟨not_not.mpr live, not_exited⟩)
    · have same : (Kernel.returned (k, some w)).resumeAt t = k.resumeAt t := by
        simp only [Kernel.returned, resumeAt, if_neg is_tp]
      rw [same]
      exact sound.halted t stopped

theorem Sound.joinLoop {tid : Nat} {child : Ptr} {v : Option Int} (sound : Sound k) (going : ¬ k.ctl.Halted)
    (h : k.joinLoop tid child = some (k', v)) : Sound k' ∧ (v.isSome → k'.ctl = k.ctl) := by
  unfold Kernel.joinLoop at h
  split at h <;> obtain ⟨k'', done, same⟩ := Option.map_eq_some'.mp h <;> cases same
  · exact ⟨sound.recycle_thread done, fun _ => recycle_thread_ctl sound.tree done⟩
  · exact ⟨sound.condition_wait going done, nofun⟩

theorem Sound.joinAnyWake {v : Option Int} (sound : Sound k) (h : k.joinAnyWake = some (k', v)) :
    Sound k' ∧ k'.ctl = k.ctl := by
  simp only [Kernel.joinAnyWake, Option.bind_eq_bind, Option.bind_eq_some] at h
  obtain ⟨i, -, k'', recycled, done⟩ := h
  cases done
  exact ⟨sound.recycle_thread recycled, recycle_thread_ctl sound.tree recycled⟩

theorem Sound.thread_join {tid : Int} {v : Option Int} (sound : Sound k) (going : ¬ k.ctl.Halted)
    (h : k.thread_join tid = some (k', v)) : Sound k' := by
  rcases thread_join_cases h with ⟨rfl, -⟩ | ⟨i, child, -, -, -, -, h⟩
  · exact sound
  · exact (sound.joinLoop going h).1

theorem Sound.thread_join_any {v : Option Int} (sound : Sound k) (going : ¬ k.ctl.Halted)
    (h : k.thread_join_any = some (k', v)) : Sound k' := by
  unfold Kernel.thread_join_any at h
  split at h
  · exact sound.thread_join going h
  · split at h
    · obtain ⟨k'', waited, same⟩ := Option.map_eq_some'.mp h
      cases same
      exact sound.condition_wait going waited
    · cases h

/-- A creator keeps `Sound` when the tree it leaves holds, the new thread and
the caller are live and have not exited, and every other thread keeps its state
and where it resumes. -/
theorem Sound.add_thread (sound : Sound k) {child : Ptr} (tree : Tree k'.view)
    (live' : ∀ u, k'.Live u ↔ k.Live u ∨ u = child)
    (runs : ∀ u, u = child ∨ u = k.tp → k'.Live u ∧ (k'.mem u).state ≠ .exited)
    (others : ∀ u, ¬ (u = child ∨ u = k.tp) → (k'.mem u).state = (k.mem u).state ∧ k'.resumeAt u = k.resumeAt u) :
    Sound k' := by
  refine ⟨tree, ?_, fun t stopped => ?_⟩
  · by_cases new : idle_thread = child ∨ idle_thread = k.tp
    · exact (runs _ new).2
    · rw [(others _ new).1]
      exact sound.idle
  · by_cases new : t = child ∨ t = k.tp
    · exact absurd stopped (not_or.mpr ⟨not_not.mpr (runs t new).1, (runs t new).2⟩)
    · rw [(others t new).2]
      rw [(others t new).1] at stopped
      exact sound.halted t (stopped.imp_left fun dead live_t => dead ((live' t).mpr (.inl live_t)))

/-- `thread_spawn` keeps `Sound`: its thread is live and starts ready. -/
theorem Sound.thread_spawn {L : Layout} {child : Ptr} {blk : Thread} {page : Addr} {tid : Nat} (sound : Sound k)
    (going : ¬ k.ctl.Halted) (fresh : k.Fresh child) (h : k.thread_spawn L child blk page = some (k', tid)) :
    Sound k' := by
  obtain ⟨live, running⟩ := sound.running going
  obtain ⟨i, k₁, k₂, free, inserted, view', thrtab₁, -, -, -, others₁, child₁⟩ := thread_spawn_spec h
  obtain ⟨one_le, free_i⟩ := freeSlot_spec free
  have others (u : Ptr) (ne : u ≠ child) :
      (k₁.mem u).sched = if u = child then { (k.mem u).sched with state := .ready } else (k.mem u).sched := by
    rw [if_neg ne, others₁ u ne]
  have state' (u : Ptr) : (k'.mem u).state = if u = child then .ready else (k.mem u).state := by
    rw [show (k'.mem u).state = (k₂.mem u).state from congrArg (fun v : View => (v.thread u).state) view',
      add_thread_state others child₁ inserted u]
    by_cases is_child : u = child <;> simp [is_child]
  have live' (u : Ptr) : k'.Live u ↔ k.Live u ∨ u = child := by
    rw [← add_thread_live inserted free_i thrtab₁ u]
    simp only [Kernel.Live, show k'.thrtab = k₂.thrtab from congrArg View.thrtab view']
  refine sound.add_thread (view' ▸ sound.tree.add_thread others child₁ inserted fresh free_i one_le thrtab₁ live)
    live' (fun u new => ?_) fun u new => ?_
  · rcases new with rfl | rfl
    · exact ⟨(live' _).mpr (.inr rfl), by rw [state', if_pos rfl]; decide⟩
    · exact ⟨(live' _).mpr (.inl live), by rw [state', if_neg (fresh.ne_of_live live)]; exact running⟩
  · have not_child := (not_or.mp new).1
    exact ⟨by rw [state', if_neg not_child],
      by rw [thread_spawn_resumeAt (fresh.ne_of_live live).symm h, if_neg not_child]⟩

/-- `thread_fork_to_user` keeps `Sound`: its thread is live and runs, and the
caller is ready. -/
theorem Sound.thread_fork_to_user {L : Layout} {child_proc : Nat} {block : Addr} {child : Ptr} {blk : Thread}
    {tid : Nat} (sound : Sound k) (going : ¬ k.ctl.Halted) (fresh : k.Fresh child)
    (h : k.thread_fork_to_user L child_proc block child blk = some (k', tid)) : Sound k' := by
  obtain ⟨live, -⟩ := sound.running going
  have tp_ne : child ≠ k.tp := (fresh.ne_of_live live).symm
  obtain ⟨i, k₁, k₂, free, inserted, view', thrtab₁, -, -, others₁, child₁⟩ := thread_fork_to_user_spec tp_ne h
  obtain ⟨-, free_i⟩ := freeSlot_spec free
  have one_le : 1 ≤ i.val := Nat.one_le_iff_ne_zero.mpr fun zero => by
    rw [show i = MAIN_TID from Fin.ext zero, show k.thrtab MAIN_TID = _ from sound.tree.main_slot] at free_i
    cases free_i
  have state' (u : Ptr) :
      (k'.mem u).state = if u = child then .running else if u = k.tp then .ready else (k.mem u).state := by
    rw [show (k'.mem u).state = (k₂.mem u).state from congrArg (fun v : View => (v.thread u).state) view']
    exact add_thread_state others₁ child₁ inserted u
  have live' (u : Ptr) : k'.Live u ↔ k.Live u ∨ u = child := by
    rw [← add_thread_live inserted free_i thrtab₁ u]
    simp only [Kernel.Live, show k'.thrtab = k₂.thrtab from congrArg View.thrtab view']
  refine sound.add_thread (view' ▸ sound.tree.add_thread others₁ child₁ inserted fresh free_i one_le thrtab₁ live)
    live' (fun u new => ?_) fun u new => ?_
  · rcases new with rfl | rfl
    · exact ⟨(live' _).mpr (.inr rfl), by rw [state', if_pos rfl]; decide⟩
    · exact ⟨(live' _).mpr (.inl live), by rw [state', if_neg tp_ne.symm, if_pos rfl]; decide⟩
  · obtain ⟨not_child, not_tp⟩ := not_or.mp new
    exact ⟨by rw [state', if_neg not_child, if_neg not_tp],
      by rw [thread_fork_to_user_resumeAt h, if_neg new]⟩

/-- Every action keeps `Sound`. -/
theorem Sound.step {L : Layout} {fuel : Nat} {a : Act} (sound : Sound k) (h : k.step L fuel a = some k') :
    Sound k' := by
  unfold Kernel.step at h
  split at h
  · cases h
  rename_i allowed
  have not_idle (refused : a.idleMay k = false) : k.tp ≠ idle_thread := fun idle => allowed ⟨idle, refused⟩
  have going {c : Ctl} (ctl : k.ctl = c) (moves : ¬ c.Halted) : ¬ k.ctl.Halted := ctl ▸ moves
  split at h
  · split at h
    · obtain ⟨⟨k'', tid⟩, done, rfl⟩ := Option.map_eq_some'.mp h
      exact sound.thread_spawn (going ‹_› id) ‹_› done
    · cases h
  · split at h
    · obtain ⟨⟨k'', tid⟩, done, rfl⟩ := Option.map_eq_some'.mp h
      exact sound.thread_fork_to_user (going ‹_› id) ‹_› done
    · cases h
  · exact sound.thread_yield (going ‹_› id) h
  · exact sound.thread_exit (going ‹_› id) (not_idle rfl) h
  · obtain ⟨⟨k'', v⟩, done, rfl⟩ := Option.map_eq_some'.mp h
    exact sound.thread_join (going ‹_› id) done
  · obtain ⟨⟨k'', v⟩, done, rfl⟩ := Option.map_eq_some'.mp h
    exact sound.thread_join_any (going ‹_› id) done
  · exact sound.condition_wait (going ‹_› id) h
  · exact sound.condition_broadcast (going ‹_› id) h
  · obtain ⟨⟨k'', v⟩, done, rfl⟩ := Option.map_eq_some'.mp h
    have loop := sound.joinLoop (going ‹_› id) done
    exact loop.1.returned fun returns => loop.2 returns ▸ going ‹_› id
  · obtain ⟨⟨k'', v⟩, done, rfl⟩ := Option.map_eq_some'.mp h
    have woken := sound.joinAnyWake done
    exact woken.1.returned fun _ => woken.2 ▸ going ‹_› id
  · cases h

/-- At boot every record but the main and the idle thread's holds the all-zero
context, and so resumes at a fault. -/
theorem init_halted {L : Layout} {mem0 : Ptr → Thread} (unwritten : ∀ t, (mem0 t).context = .zero) {t : Ptr}
    (not_main : t ≠ main_thread) (not_idle : t ≠ idle_thread) : ((thread_init L mem0).resumeAt t).Halted := by
  rw [resumeAt_of_ne not_main]
  show ((store (store mem0 main_thread (mainRecord L)) idle_thread (idleRecord L)) t).context.resumes.Halted
  rw [store_of_ne _ _ _ not_idle, store_of_ne _ _ _ not_main, unwritten]
  trivial

/-- At boot only the main and the idle thread are in `thrtab`, and every other
record holds the all-zero context. -/
theorem Sound.init (L : Layout) (mem0 : Ptr → Thread) (unwritten : ∀ t, (mem0 t).context = .zero) :
    Sound (thread_init L mem0) := by
  refine ⟨(Good.init L mem0).toTree, by simp [init_idle, idleRecord], fun t stopped => ?_⟩
  by_cases boot : t = main_thread ∨ t = idle_thread
  · rcases stopped with dead | exited
    · exact absurd ((init_live L mem0 t).mpr boot) dead
    · rcases boot with rfl | rfl
      · rw [init_main] at exited; cases exited
      · rw [init_idle] at exited; cases exited
  · obtain ⟨not_main, not_idle⟩ := not_or.mp boot
    exact init_halted unwritten not_main not_idle

theorem Reachable.sound {L : Layout} (reach : Reachable L k) : Sound k := by
  induction reach with
  | init mem0 unwritten => exact Sound.init L mem0 unwritten
  | step fuel a _ stepped sound => exact sound.step stepped

/-- In every reachable state, whatever blocks `kmalloc` returned, the parent
links of the threads in `thrtab` form a tree rooted at the main thread, and
`recycle_thread (tid)` keeps it while changing only `thrtab[tid]`, to `NULL`,
and the parent of every thread in `thrtab` whose parent was `thrtab[tid]`, to
`thrtab[tid]->parent`. -/
theorem reachable_parent_tree {L : Layout} (reach : Reachable L k) :
    ParentTree k ∧ ∀ tid k', k.recycle_thread tid = some k' → ∃ (i : Fin NTHR) (thr : Ptr), i.val = tid ∧
      k.thrtab i = some thr ∧ k'.thrtab = store k.thrtab i none ∧
      (∀ u, k.Live u → (k.mem u).parent = some thr → k'.mem u = { k.mem u with parent := (k.mem thr).parent }) ∧
      (∀ u, ¬ (k.Live u ∧ (k.mem u).parent = some thr) → k'.mem u = k.mem u) ∧
      k'.ready_list = k.ready_list ∧ k'.conds = k.conds ∧ k'.tp = k.tp ∧ k'.ctl = k.ctl ∧
      k'.stackBlocks = k.stackBlocks ∧ k'.freed = k.freed ∧ ParentTree k' := by
  have sound := reach.sound
  refine ⟨sound.tree.parentTree, fun tid k' h => ?_⟩
  have tree' := (sound.recycle_thread h).tree.parentTree
  obtain ⟨i, thr, rfl, slot, -, -, -, rfl⟩ := sound.tree.recycle_thread_eq h
  refine ⟨i, thr, rfl, slot, rfl, fun u ⟨j, slot_u⟩ parent => ?_, fun u not_adopted => ?_, rfl, rfl, rfl, rfl, rfl,
    rfl, tree'⟩
  · exact if_pos ⟨⟨j, mem_slots j, sound.tree.one_le_of_parent slot_u parent, slot_u⟩, parent⟩
  · exact if_neg fun ⟨⟨j, _, _, slot_u⟩, parent⟩ => not_adopted ⟨⟨j, slot_u⟩, parent⟩

/-- After the run of `stale_tail_loses_ready_thread`, whose `kmalloc` block has a
stale `child_exit` list, the parent tree holds. -/
theorem stale_run_keeps_parent_tree : ∃ k, (thread_init bootLayout fun _ => blank).run bootLayout 1
    [.spawn 10 staleToIdle 0x90000000, .yield, .yield, .spawn 11 blank 0x90001000, .joinAny] = some k ∧
    Reachable bootLayout k ∧ ParentTree k := by
  obtain ⟨k, ran⟩ : ∃ k, (thread_init bootLayout fun _ => blank).run bootLayout 1
      [.spawn 10 staleToIdle 0x90000000, .yield, .yield, .spawn 11 blank 0x90001000, .joinAny] = some k :=
    Option.isSome_iff_exists.mp (by decide)
  have reach := (Reachable.init _ fun _ => rfl).run ran
  exact ⟨k, ran, reach, (reachable_parent_tree reach).1⟩

end OsKernel.Threads
