import OsKernel.Thread.Relink

/-! # Each scheduler function keeps the invariant

One lemma per function of `thread.c`: from `Good` (or `Core`, for the functions
called while the running thread is leaving the processor) before the call, the
invariant after it.  Each proof reads the function's effect off a spec lemma
(`dispatch_spec`, `wakeAll_foldl_of_some`, ...) and checks the parts of `Core`
against it; the lists it does not touch carry over through `Lists.transfer`.

`suspend_self` needs its caller off the ready list: a caller still marked ready
would be taken from the list and put back on it, and the processor handed to a
thread marked ready.
-/

namespace OsKernel.Threads

open View

namespace Kernel

variable {k k' : Kernel}

/-! ## Reading the view of a kernel state -/

@[simp] theorem view_live (t : Ptr) : k.view.Live t ↔ k.Live t := Iff.rfl

@[simp] theorem setState_state (k : Kernel) (t u : Ptr) (s : ThreadState) :
    ((k.setState t s).mem u).state = if u = t then s else (k.mem u).state := by
  simp only [setState, modify_mem]; split <;> simp_all

@[simp] theorem setState_tp (k : Kernel) (t : Ptr) (s : ThreadState) : (k.setState t s).tp = k.tp := rfl

@[simp] theorem live_setState (k : Kernel) (t u : Ptr) (s : ThreadState) : (k.setState t s).Live u ↔ k.Live u :=
  Iff.rfl

theorem setState_restated (k : Kernel) (t : Ptr) (s : ThreadState) :
    Restated k.view (k.setState t s).view := by
  refine ⟨⟨rfl, fun u => ?_, fun u => ?_⟩, rfl, fun u => ?_⟩ <;>
    simp only [view_thread, setState, modify_mem] <;> split <;> simp_all

@[simp] theorem setState_wait_cond (k : Kernel) (t u : Ptr) (s : ThreadState) :
    ((k.setState t s).mem u).wait_cond = (k.mem u).wait_cond := by
  simp only [setState, modify_mem]; split <;> simp_all

theorem list_modify (k : Kernel) (t : Ptr) {f : Thread → Thread}
    (keeps : (f (k.mem t)).child_exit = (k.mem t).child_exit) (L : ListRef) : (k.modify t f).list L = k.list L := by
  rcases L with _ | ⟨u | c⟩ <;> simp only [list, modify_ready_list, modify_conds, modify_mem]
  split <;> simp_all

theorem next_modify (k : Kernel) (t : Ptr) {f : Thread → Thread}
    (keeps : (f (k.mem t)).list_next = (k.mem t).list_next) : (k.modify t f).next = k.next := by
  funext u; simp only [next, modify_mem]; split <;> simp_all

theorem sameTree_modify (k : Kernel) (t : Ptr) {f : Thread → Thread} (keeps_id : (f (k.mem t)).id = (k.mem t).id)
    (keeps_parent : (f (k.mem t)).parent = (k.mem t).parent) : SameTree k.view (k.modify t f).view :=
  ⟨rfl, fun u => by simp only [view_thread, modify_mem]; split <;> simp_all,
    fun u => by simp only [view_thread, modify_mem]; split <;> simp_all⟩

/-- A store into a record that leaves the scheduler's members alone leaves the
view alone. -/
theorem view_modify (k : Kernel) (t : Ptr) {f : Thread → Thread} (keeps : (f (k.mem t)).sched = (k.mem t).sched) :
    (k.modify t f).view = k.view := by
  simp only [view, modify, View.mk.injEq, true_and]
  funext u
  simp only [store_apply]
  split <;> simp_all

/-- `_thread_swtch` changes only the running thread, as far as the scheduler
reads. -/
theorem view_thread_swtch (k : Kernel) (susp next : Ptr) (resume : Ctl) :
    (k.thread_swtch susp next resume).view = { k.view with tp := next } := by
  unfold thread_swtch
  dsimp only
  split <;> (try split) <;> simp only [view, modify, memory_free_page, View.mk.injEq, true_and] <;>
    funext u <;> simp only [store_apply] <;> split_ifs <;> simp_all [Thread.sched]

theorem thread_swtch_next (k : Kernel) (susp next : Ptr) (resume : Ctl) :
    (k.thread_swtch susp next resume).next = k.next :=
  congrArg View.next (view_thread_swtch k susp next resume)

theorem thread_swtch_list (k : Kernel) (susp next : Ptr) (resume : Ctl) (L : ListRef) :
    (k.thread_swtch susp next resume).list L = k.list L := by
  rw [← view_list, view_thread_swtch, ← view_list]
  rcases L with _ | ⟨u | c⟩ <;> rfl

theorem thread_swtch_state (k : Kernel) (susp next : Ptr) (resume : Ctl) (u : Ptr) :
    ((k.thread_swtch susp next resume).mem u).state = (k.mem u).state :=
  congrArg (fun v : View => (v.thread u).state) (view_thread_swtch k susp next resume)

theorem thread_swtch_tp (k : Kernel) (susp next : Ptr) (resume : Ctl) :
    (k.thread_swtch susp next resume).tp = next :=
  congrArg View.tp (view_thread_swtch k susp next resume)

/-! ## `suspend_self` -/

/-- `dispatch` runs a thread that was ready. -/
theorem dispatch_next_ready {next : Ptr} (h : k.dispatch = some (next, k')) : (k.mem next).state = .ready := by
  simp only [dispatch, Option.bind_eq_bind, Option.bind_eq_some] at h
  obtain ⟨_, -, n, -, _, ready, h⟩ := h
  have state : ((k.tlremove .ready).2.mem n).state = (k.mem n).state := (tlremove_relinked k .ready).state n
  rw [check_eq_some, state] at ready
  have same : n = next := by
    split at h
    · obtain ⟨_, -, h⟩ := Option.bind_eq_some.mp h
      exact (Prod.mk.inj (Option.some.inj h)).1
    · exact (Prod.mk.inj (Option.some.inj h)).1
  exact same ▸ ready

/-- What `dispatch` does when the caller is not on the ready list: the head
`next` of the ready list runs, and the caller, if it was running, goes to the
back of the list.  Only the ready list's header and the links of threads on the
ready list change. -/
theorem dispatch_spec {next : Ptr} {lr : List Ptr} (rep : Represents k.next (k.list .ready) lr)
    (not_ready : (k.mem k.tp).state ≠ .ready) (ready : ∀ u ∈ lr, (k.mem u).state = .ready)
    (h : k.dispatch = some (next, k')) :
    ∃ l, lr = next :: l ∧
      Represents k'.next (k'.list .ready) (if (k.mem k.tp).state = .running then l ++ [k.tp] else l) ∧
      (∀ u, u ∉ next :: l → (u = k.tp → (k.mem k.tp).state ≠ .running) → k'.next u = k.next u) ∧
      (∀ L, L ≠ .ready → k'.list L = k.list L) ∧ Restated k.view k'.view ∧
      ∀ u, (k'.mem u).state =
        if u = next then .running else if u = k.tp ∧ (k.mem k.tp).state = .running then .ready
        else (k.mem u).state := by
  obtain ⟨t0, l, rfl⟩ : ∃ t0 l, lr = t0 :: l := by
    cases lr with
    | nil =>
      have empty : (k.list .ready).head = none := rep.seg.nil_inv
      simp [dispatch, tlempty, empty] at h
    | cons t0 l => exact ⟨t0, l, rfl⟩
  obtain ⟨k₁, removed, rep₁, -⟩ := tlremove_represents rep
  have t0_ready := ready t0 (List.mem_cons_self t0 l)
  have t0_ne : t0 ≠ k.tp := fun same => not_ready (same ▸ t0_ready)
  have rel₁ := tlremove_relinked k .ready
  have frame₁ := tlremove_frame k .ready rep.seg.cons_inv.1
  rw [removed] at rel₁ frame₁
  have state₁ : ∀ u, (k₁.mem u).state = (k.mem u).state := rel₁.state
  simp only [dispatch, tlempty, removed, rep.seg.cons_inv.1, Option.isNone_some, check_bind_eq_some,
    Option.bind_eq_bind, Option.some_bind, state₁, t0_ready, setState_state, if_neg t0_ne.symm, true_and] at h
  have restated₂ := rel₁.toRestated.trans (setState_restated k₁ t0 .running)
  split at h
  · rename_i running
    obtain ⟨k₃, inserted, same⟩ := Option.bind_eq_some.mp h
    obtain ⟨rfl, rfl⟩ := Prod.mk.inj (Option.some.inj same).symm
    have tp_l : k.tp ∉ l := fun mem => not_ready (ready _ (List.mem_cons_of_mem _ mem))
    have rep₂ : Represents (((k₁.setState next .running).setState k.tp .ready).next)
        (((k₁.setState next .running).setState k.tp .ready).list .ready) l := by simpa using rep₁
    have frame₃ := tlinsert_frame rep₂ inserted
    have rel₃ := tlinsert_relinked inserted
    refine ⟨l, rfl, by simpa [running] using tlinsert_represents rep₂ tp_l inserted, fun u out keep => ?_,
      fun L ne => ?_, (restated₂.trans (setState_restated _ _ _)).trans rel₃.toRestated, fun u => ?_⟩
    · have tp_ne : u ≠ k.tp := fun same => keep same running
      rw [frame₃.1 u tp_ne (fun mem => out (List.mem_cons_of_mem _ mem))]
      simpa using frame₁.1 u (fun same => out (same ▸ List.mem_cons_self _ _))
    · rw [frame₃.2 L ne]; simpa using frame₁.2 L ne
    · have state₃ := rel₃.state u
      simp only [view_thread, Thread.sched_state, setState_state, state₁] at state₃
      simp only [state₃, running, and_true]
      split_ifs <;> simp_all
  · rename_i running
    obtain ⟨rfl, rfl⟩ := Prod.mk.inj (Option.some.inj h).symm
    refine ⟨l, rfl, by simpa [running] using rep₁, fun u out _ => ?_, fun L ne => ?_, restated₂, fun u => ?_⟩
    · simpa using frame₁.1 u (fun same => out (same ▸ List.mem_cons_self _ _))
    · simpa using frame₁.2 L ne
    · simp only [setState_state, state₁, running, and_false, if_false]

end Kernel

open Kernel

variable {k k' : Kernel}

/-- From `Core`, with the caller off the ready list, `dispatch` leaves `Good`
once the thread it picks runs. -/
theorem Core.dispatch {next : Ptr} (core : Core k.view) (not_ready : (k.mem k.tp).state ≠ .ready)
    (h : k.dispatch = some (next, k')) : Good { k'.view with tp := next } := by
  obtain ⟨lr, rep, members⟩ := core.lists .ready trivial
  obtain ⟨l, rfl, rep', links, headers, restated, states⟩ :=
    dispatch_spec rep not_ready (fun u mem => ((members u).mp mem).2) h
  have next_on : k.Live next ∧ (k.mem next).state = .ready := (members next).mp (List.mem_cons_self _ _)
  have next_ne : next ≠ k.tp := fun same => not_ready (same ▸ next_on.2)
  have next_l : next ∉ l := (List.nodup_cons.mp rep.nodup).1
  have mem_l (u : Ptr) : u ∈ l ↔ u ≠ next ∧ k.Live u ∧ (k.mem u).state = .ready := by
    have belongs := members u
    simp only [List.mem_cons, View.OnList, view_live, view_thread, Thread.sched_state] at belongs
    exact ⟨fun mem => ⟨fun same => next_l (same ▸ mem), belongs.mp (.inr mem)⟩,
      fun ⟨ne, ready⟩ => (belongs.mpr ready).resolve_left ne⟩
  have same : SameTree k.view { k'.view with tp := next } := ⟨restated.thrtab, restated.id, restated.parent⟩
  have waits (u : Ptr) : (k'.mem u).state = .waiting ↔ (k.mem u).state = .waiting := by
    rw [states u]; split_ifs <;> simp_all
  refine ⟨⟨core.toTree.congr same, ?_, fun u live waiting => ?_, fun u c live waiting on_c => ?_,
      (same.live next).mpr next_on.1,
    fun u live running => ?_, ?_⟩, by simp [states]⟩
  · rintro (_ | c) exists'
    · refine ⟨_, rep', fun u => ?_⟩
      rw [show ({ k'.view with tp := next } : View).OnList .ready u ↔ k.Live u ∧ (k'.mem u).state = .ready
        from and_congr_left' (same.live u), states u]
      by_cases running : (k.mem k.tp).state = .running
      · simp only [running, if_true, List.mem_append, List.mem_singleton, mem_l, and_true]
        split_ifs with is_next is_tp
        · subst is_next; simp [next_ne]
        · subst is_tp; simpa using core.tp_live
        · simp [is_next, is_tp]
      · simp only [running, if_false, mem_l, and_false]
        split_ifs with is_next <;> simp [is_next]
    · refine core.lists.transfer ((same.listExists _).mp exists')
        ((view_list k' _).trans ((headers _ ListRef.noConfusion).trans (view_list k _).symm))
        (fun u waiter => links u ?_ fun same running => ?_) (same.onList_cond restated.wait_cond waits c)
      · exact fun mem => absurd (((members u).mp mem).2.symm.trans waiter.2.1) (by decide)
      · subst same; exact absurd (waiter.2.1.symm.trans running) (by decide)
  · obtain ⟨c, on_c, exists_c⟩ := core.waiting u (same.live u |>.mp live) ((waits u).mp waiting)
    exact ⟨c, (restated.wait_cond u).trans on_c, (same.condExists c).mpr exists_c⟩
  · exact core.own_child_exit u c ((same.live u).mp live) ((waits u).mp waiting)
      ((restated.wait_cond u).symm.trans on_c)
  · have running' : (k'.mem u).state = .running := running
    rw [states u] at running'
    split_ifs at running' with is_next is_tp
    · exact is_next
    · have tp := core.one_running u ((same.live u).mp live) running'
      subst tp; exact absurd ⟨rfl, running'⟩ is_tp
  · show (k'.mem idle_thread).state = .ready ∨ (k'.mem idle_thread).state = .running
    rw [states]
    split_ifs
    · exact .inr rfl
    · exact .inl rfl
    · exact core.idle


/-- `suspend_self` from `Core`, with the caller off the ready list, leaves `Good`. -/
theorem Core.suspend_self {resume : Ctl} (core : Core k.view) (not_ready : (k.mem k.tp).state ≠ .ready)
    (h : k.suspend_self resume = some k') : Good k'.view := by
  simp only [Kernel.suspend_self, Option.bind_eq_bind, Option.bind_eq_some] at h
  obtain ⟨⟨next, k₁⟩, dispatched, resumed⟩ := h
  cases resumed
  rw [view_thread_swtch]
  exact core.dispatch not_ready dispatched

/-- `thread_yield` keeps `Good`. -/
theorem Good.thread_yield (good : Good k.view) (h : k.thread_yield = some k') : Good k'.view := by
  simp only [Kernel.thread_yield, Option.bind_eq_bind, check_bind_eq_some] at h
  exact good.toCore.suspend_self (fun ready => by cases h.1.symm.trans ready) h.2

/-- `thread_yield` runs the thread at the head of the ready list and puts the
caller at the back of the list. -/
theorem thread_yield_spec (good : Good k.view) (h : k.thread_yield = some k') :
    ∃ next l, k.Reads .ready (next :: l) ∧ k'.Reads .ready (l ++ [k.tp]) ∧ k'.tp = next ∧
      (k'.mem next).state = .running ∧ (k'.mem k.tp).state = .ready := by
  simp only [Kernel.thread_yield, Option.bind_eq_bind, check_bind_eq_some] at h
  obtain ⟨running, h⟩ := h
  simp only [Kernel.suspend_self, Option.bind_eq_bind, Option.bind_eq_some] at h
  obtain ⟨⟨next, k₁⟩, dispatched, resumed⟩ := h
  cases resumed
  obtain ⟨lr, rep, members⟩ := good.lists .ready trivial
  obtain ⟨l, rfl, rep', -, -, -, states⟩ :=
    dispatch_spec rep (by rw [running]; decide) (fun u mem => ((members u).mp mem).2) dispatched
  have next_ne : next ≠ k.tp := fun same => by
    have := ((members next).mp (List.mem_cons_self _ _)).2
    simp only [view_thread, Thread.sched_state, same, running] at this
    cases this
  rw [if_pos running] at rep'
  refine ⟨next, l, rep.seg, ?_, thread_swtch_tp _ _ _ _, ?_, ?_⟩
  · unfold Kernel.Reads
    rw [thread_swtch_next, thread_swtch_list]
    exact rep'.seg
  · rw [thread_swtch_state, states, if_pos rfl]
  · rw [thread_swtch_state, states, if_neg next_ne.symm, if_pos ⟨rfl, running⟩]

/-- The running thread is on no list. -/
theorem Good.tp_off (good : Good k.view) (L : ListRef) : ¬ k.view.OnList L k.tp := by
  have running : (k.mem k.tp).state = .running := good.tp_running
  rcases L with _ | c <;> simp [View.OnList, running]

/-! ## Waiting and waking -/

namespace Kernel

/-- `condition_broadcast`'s loop, when it ends, has woken exactly the threads it
walked. -/
theorem wakeAll_eq_foldl {c : Cond} {fuel : Nat} {x : Option Ptr} {l : List Ptr} (seg : Lseg k.next x l none)
    (h : wakeAll c fuel k x = some k') : k' = l.foldl wakeOne k := by
  induction l generalizing fuel k x with
  | nil => obtain rfl := seg.nil_inv; cases fuel <;> exact (Option.some.inj h).symm
  | cons t l ih =>
    obtain ⟨rfl, rest⟩ := seg.cons_inv
    cases fuel with
    | zero => cases h
    | succ fuel =>
      simp only [wakeAll, Option.bind_eq_bind, check_bind_eq_some] at h
      have woken : wakeAll c fuel (k.wakeOne t) ((k.wakeOne t).next t) = some k' := h.2.2
      rw [next_wakeOne] at woken
      exact ih (by rwa [next_wakeOne]) woken

/-- The woken threads, in closed form. -/
theorem foldl_wakeOne (l : List Ptr) (k : Kernel) :
    l.foldl wakeOne k =
      { k with mem := fun u => if u ∈ l then { k.mem u with state := .ready, wait_cond := none } else k.mem u } := by
  induction l generalizing k with
  | nil => simp
  | cons t l ih =>
    rw [List.foldl_cons, ih]
    simp only [wakeOne, setState, modify, List.mem_cons]
    congr 1
    funext u
    by_cases is_t : u = t <;> by_cases mem : u ∈ l <;> simp [is_t, mem, store_apply]

theorem mem_foldl_wakeOne (l : List Ptr) (k : Kernel) (u : Ptr) :
    (l.foldl wakeOne k).mem u = if u ∈ l then { k.mem u with state := .ready, wait_cond := none } else k.mem u := by
  rw [foldl_wakeOne]

@[simp] theorem next_foldl_wakeOne (l : List Ptr) (k : Kernel) : (l.foldl wakeOne k).next = k.next := by
  funext u; simp only [Kernel.next, mem_foldl_wakeOne]; split <;> rfl

@[simp] theorem list_foldl_wakeOne (l : List Ptr) (k : Kernel) (L : ListRef) :
    (l.foldl wakeOne k).list L = k.list L := by
  rcases L with _ | ⟨u | c'⟩
  · simp only [Kernel.list, foldl_wakeOne]
  · simp only [Kernel.list, mem_foldl_wakeOne]; split <;> rfl
  · simp only [Kernel.list, foldl_wakeOne]

end Kernel

/-- What `condition_broadcast` does on a condition that exists: the threads
`lc` on its wait list become ready, with no `wait_cond`, and follow the threads
`lr` of the ready list; the wait list is emptied.  No other link, header, slot,
`id` or parent changes. -/
theorem condition_broadcast_spec {fuel : Nat} {c : Cond} (core : Core k.view) (exists_c : k.CondExists c)
    (h : k.condition_broadcast fuel c = some k') :
    ∃ lr lc, (∀ u, u ∈ lr ↔ k.view.OnList .ready u) ∧ (∀ u, u ∈ lc ↔ k.view.OnList (.cond c) u) ∧
      Represents k.next (k.list .ready) lr ∧ Represents k.next (k.list (.cond c)) lc ∧
      Represents k'.next (k'.list .ready) (lr ++ lc) ∧ k'.list (.cond c) = .empty ∧
      (∀ u, u ∉ lr → k'.next u = k.next u) ∧
      (∀ L, L ≠ .ready → L ≠ .cond c → k'.list L = k.list L) ∧
      SameTree k.view k'.view ∧ k'.tp = k.tp ∧
      (∀ u, (k'.mem u).state = if u ∈ lc then .ready else (k.mem u).state) ∧
      (∀ u, (k'.mem u).wait_cond = if u ∈ lc then none else (k.mem u).wait_cond) := by
  obtain ⟨lc, rep, members⟩ := core.lists (.cond c) exists_c
  obtain ⟨lr, repr, membersr⟩ := core.lists .ready trivial
  refine ⟨lr, lc, membersr, members, repr, rep, ?_⟩
  unfold Kernel.condition_broadcast at h
  split at h
  · rename_i empty
    cases h
    have head : (k.list (.cond c)).head = none := Option.isNone_iff_eq_none.mp empty
    obtain rfl : lc = [] := (head ▸ rep.seg).head_eq_none
    refine ⟨by simpa using repr, ?_, fun _ _ => rfl, fun _ _ _ => rfl, ⟨rfl, fun _ => rfl, fun _ => rfl⟩, rfl,
      fun u => by simp, fun u => by simp⟩
    exact congrArg₂ ThreadList.mk head rep.tail
  simp only [Option.bind_eq_bind, Option.bind_eq_some] at h
  obtain ⟨k₁, woken, k₂, appended, cleared⟩ := h
  obtain rfl := wakeAll_eq_foldl rep.seg woken
  obtain rfl : k₂.tlclear (.cond c) = k' := Option.some.inj cleared
  have mem₁ := mem_foldl_wakeOne lc k
  have next₁ := next_foldl_wakeOne lc k
  have list₁ := list_foldl_wakeOne lc k
  set k₁ := lc.foldl wakeOne k with k₁_def
  have tree₁ : SameTree k.view k₁.view :=
    ⟨by simp only [view_thrtab, k₁_def, foldl_wakeOne], fun u => by simp only [view_thread, mem₁]; split <;> rfl,
      fun u => by simp only [view_thread, mem₁]; split <;> rfl⟩
  have disjoint : lr.Disjoint lc := fun u mr mc =>
    absurd (((membersr u).mp mr).2.symm.trans ((members u).mp mc).2.1) (by decide)
  have repr₁ : Represents k₁.next (k₁.list .ready) lr := by rw [next₁, list₁]; exact repr
  have rep₁ : Represents k₁.next (k₁.list (.cond c)) lc := by rw [next₁, list₁]; exact rep
  obtain ⟨k₂', appended', rep₂, -⟩ := tlappend_represents ListRef.noConfusion repr₁ rep₁ disjoint
  obtain rfl : k₂ = k₂' := Option.some.inj (appended.symm.trans appended')
  have rel₂ := tlappend_relinked appended
  have frame₂ := tlappend_frame repr₁ appended
  have rel₃ : Relinked k₂.view (k₂.tlclear (.cond c)).view := setList_relinked k₂ (.cond c) .empty
  refine ⟨by simpa [tlclear] using rep₂, by simp [tlclear], fun u out => ?_, fun L ne_ready ne_c => ?_,
    (tree₁.trans rel₂.toSameTree).trans rel₃.toSameTree, rel₃.tp.trans (rel₂.tp.trans (by simp [k₁_def,
        foldl_wakeOne])),
    fun u => ?_, fun u => ?_⟩
  · rw [show (k₂.tlclear (.cond c)).next = k₂.next from next_setList _ _ _, frame₂.1 u out, next₁]
  · rw [show (k₂.tlclear (.cond c)).list L = k₂.list L by simp [tlclear, ne_c], frame₂.2 L ne_ready ne_c,
      list₁]
  · rw [show ((k₂.tlclear (.cond c)).mem u).state = (k₁.mem u).state from
      (rel₃.state u).trans (rel₂.state u), mem₁]
    split <;> rfl
  · rw [show ((k₂.tlclear (.cond c)).mem u).wait_cond = (k₁.mem u).wait_cond from
      (rel₃.wait_cond u).trans (rel₂.wait_cond u), mem₁]
    split <;> rfl

/-- On a condition that exists, `condition_broadcast`'s asserts hold, and with
fuel for each of its waiters it returns. -/
theorem Core.condition_broadcast_some {fuel : Nat} {c : Cond} (core : Core k.view) (exists_c : k.CondExists c)
    (enough : ∃ lc, k.Reads (.cond c) lc ∧ lc.length ≤ fuel) : ∃ k', k.condition_broadcast fuel c = some k' := by
  obtain ⟨lc, rep, members⟩ := core.lists (.cond c) exists_c
  obtain ⟨lr, repr, membersr⟩ := core.lists .ready trivial
  obtain ⟨lc', reads, short⟩ := enough
  obtain rfl := Lseg.unique rep.seg reads
  unfold Kernel.condition_broadcast
  split
  · exact ⟨k, rfl⟩
  have woken := wakeAll_foldl c lc fuel k rep.seg rep.nodup (fun t mem => ((members t).mp mem).2) short
  rw [view_list] at woken
  have disjoint : lr.Disjoint lc := fun u mr mc =>
    absurd (((membersr u).mp mr).2.symm.trans ((members u).mp mc).2.1) (by decide)
  obtain ⟨k₂, appended, -, -⟩ := tlappend_represents ListRef.noConfusion
    (show Represents (lc.foldl wakeOne k).next ((lc.foldl wakeOne k).list .ready) lr by simpa using repr)
    (show Represents (lc.foldl wakeOne k).next ((lc.foldl wakeOne k).list (.cond c)) lc by simpa using rep) disjoint
  exact ⟨_, by simp only [Option.bind_eq_bind, woken, Option.some_bind, appended]; rfl⟩

/-- `condition_broadcast` on a condition that exists keeps `Core`, and the state
of every thread that was not waiting. -/
theorem Core.condition_broadcast {fuel : Nat} {c : Cond} (core : Core k.view) (exists_c : k.CondExists c)
    (h : k.condition_broadcast fuel c = some k') :
    Core k'.view ∧ k'.tp = k.tp ∧ ∀ u, (k.mem u).state ≠ .waiting → (k'.mem u).state = (k.mem u).state := by
  obtain ⟨lr, lc, membersr, members, -, -, rep', empty', links, headers, tree', tp', state', wait'⟩ :=
    condition_broadcast_spec core exists_c h
  have waiting_lc (u : Ptr) (mem : u ∈ lc) :
      k.Live u ∧ (k.mem u).state = .waiting ∧ (k.mem u).wait_cond = some c :=
    (members u).mp mem
  have on' (L : ListRef) (u : Ptr) : k'.view.OnList L u ↔ if u ∈ lc then L = .ready else k.view.OnList L u := by
    have live := tree'.live u
    by_cases mem : u ∈ lc
    · have := (waiting_lc u mem).1
      rcases L with _ | c' <;> simp [View.OnList, live, state', wait', mem, this]
    · rcases L with _ | c' <;> simp [View.OnList, live, state', wait', mem]
  refine ⟨⟨core.toTree.congr tree', fun L exists' => ?_, fun u live waiting => ?_, fun u w live waiting on_w => ?_,
    ?_, fun u live is_running => ?_, ?_⟩, tp', fun u not_waiting => ?_⟩
  · by_cases is_ready : L = .ready
    · subst is_ready
      refine ⟨lr ++ lc, rep', fun u => ?_⟩
      rw [on', List.mem_append, membersr]; split_ifs with mem <;> simp [mem]
    by_cases is_c : L = .cond c
    · subst is_c
      refine ⟨[], ?_, fun u => ?_⟩
      · rw [view_list, empty']; exact ⟨.nil none, rfl, List.nodup_nil⟩
      · rw [on']
        split_ifs with mem
        · simp
        · exact iff_of_false (List.not_mem_nil u) fun on_c => mem ((members u).mpr on_c)
    · refine core.lists.transfer ((tree'.listExists L).mp exists') ?_ (fun u on_L => ?_) (fun u => ?_)
      · rw [view_list, view_list, headers L is_ready is_c]
      · exact links u fun mem => is_ready (on_L.unique ((membersr u).mp mem))
      · rw [on']
        split_ifs with mem
        · exact iff_of_false is_ready fun on_L => is_c (on_L.unique ((members u).mp mem))
        · rfl
  · have waiting' : (k'.mem u).state = .waiting := waiting
    rw [state'] at waiting'
    split_ifs at waiting' with mem
    obtain ⟨c', on_c', exists_c'⟩ := core.waiting u ((tree'.live u).mp live) waiting'
    refine ⟨c', ?_, (tree'.condExists c').mpr exists_c'⟩
    rw [show (k'.view.thread u).wait_cond = _ from wait' u, if_neg mem]
    exact on_c'
  · have waiting' : (k'.mem u).state = .waiting := waiting
    have on_w' : (k'.mem u).wait_cond = some (.childExit w) := on_w
    rw [state'] at waiting'
    rw [wait'] at on_w'
    split_ifs at waiting' on_w'
    exact core.own_child_exit u w ((tree'.live u).mp live) waiting' on_w'
  · show k'.view.Live k'.tp
    rw [tp']; exact (tree'.live _).mpr core.tp_live
  · have running' : (k'.mem u).state = .running := is_running
    rw [state'] at running'
    split_ifs at running'
    exact (core.one_running u ((tree'.live u).mp live) running').trans tp'.symm
  · show (k'.mem idle_thread).state = .ready ∨ (k'.mem idle_thread).state = .running
    rw [state']
    split_ifs
    · exact .inl rfl
    · exact core.idle
  · rw [state']
    split_ifs with mem
    · exact absurd (waiting_lc u mem).2.1 not_waiting
    · rfl

/-- What `condition_wait` does before it switches away, when the running
thread is not the idle thread and waits on a condition that exists and is not
another thread's `child_exit`: the thread, now waiting, goes to the back of the
wait list `lc`, the ready list stays as it was, and the state `k₄` handed to
`suspend_self` satisfies `Core`. -/
theorem Good.condition_wait_spec {c : Cond} (resume : Ctl) (good : Good k.view) (not_idle : k.tp ≠ idle_thread)
    (exists_c : k.CondExists c) (own : ∀ u, c = .childExit u → u = k.tp) :
    ∃ (k₄ : Kernel) (lc : List Ptr), k.condition_wait c resume = k₄.suspend_self resume ∧ Core k₄.view ∧
      k₄.tp = k.tp ∧ (∀ u ∈ lc ++ [k.tp], (k₄.mem u).state = .waiting) ∧
      Represents k.next (k.list (.cond c)) lc ∧ Represents k₄.next (k₄.list (.cond c)) (lc ++ [k.tp]) ∧
      k₄.list .ready = k.list .ready ∧ (∀ u, k.view.OnList .ready u → k₄.next u = k.next u) ∧
      (∀ u, (k₄.mem u).state = if u = k.tp then .waiting else (k.mem u).state) ∧
      (∀ u, (k₄.mem u).wait_cond = if u = k.tp then some c else (k.mem u).wait_cond) ∧
      SameTree k.view k₄.view ∧ k₄.ctl = k.ctl ∧ ∀ u, (k₄.mem u).context = (k.mem u).context := by
  set k₃ := ((k.setState k.tp .waiting).modify k.tp fun r => { r with wait_cond := some c }).setNext k.tp none
    with k₃_def
  have state₃ (u : Ptr) : (k₃.mem u).state = if u = k.tp then .waiting else (k.mem u).state := by
    simp only [k₃_def, setNext_state, modify_mem]; split <;> simp_all
  have wait₃ (u : Ptr) : (k₃.mem u).wait_cond = if u = k.tp then some c else (k.mem u).wait_cond := by
    simp only [k₃_def, setNext, modify_mem]; split <;> simp_all
  have list₃ (L : ListRef) : k₃.list L = k.list L := by
    simp only [k₃_def, list_setNext, list_modify, list_setState]
  have next₃ : k₃.next = store k.next k.tp none := by
    simp only [k₃_def, next_setNext, next_modify, next_setState]
  have tree₃ : SameTree k.view k₃.view :=
    ((setState_restated _ _ _).toSameTree.trans (sameTree_modify _ _ rfl rfl)).trans
      (setNext_relinked _ _ _).toSameTree
  have running : (k.mem k.tp).state = .running := good.tp_running
  have tp_live : k.Live k.tp := good.tp_live
  have tp_off := good.tp_off
  obtain ⟨lc, rep, members⟩ := good.lists (.cond c) exists_c
  have tp_lc : k.tp ∉ lc := fun mem => tp_off _ ((members _).mp mem)
  have rep₃ : Represents k₃.next (k₃.list (.cond c)) lc := by
    rw [list₃, next₃]
    exact ⟨rep.seg.frame fun u mem => store_of_ne _ _ _ fun same => tp_lc (same ▸ mem), rep.tail, rep.nodup⟩
  obtain ⟨k₄, inserted⟩ := tlinsert_some rep₃ k.tp
  have called : k.condition_wait c resume = k₄.suspend_self resume := by
    simp only [Kernel.condition_wait, Option.bind_eq_bind, running, check, if_true, Option.some_bind, ← k₃_def,
      inserted]
  have rel₄ := tlinsert_relinked inserted
  have tree₄ := tree₃.trans rel₄.toSameTree
  have state₄ (u : Ptr) : (k₄.mem u).state = if u = k.tp then .waiting else (k.mem u).state :=
    (rel₄.state u).trans (state₃ u)
  have wait₄ (u : Ptr) : (k₄.mem u).wait_cond = if u = k.tp then some c else (k.mem u).wait_cond :=
    (rel₄.wait_cond u).trans (wait₃ u)
  have tp₄ : k₄.tp = k.tp := rel₄.tp
  have frame₄ := tlinsert_frame rep₃ inserted
  have on₄ (L : ListRef) (u : Ptr) :
      k₄.view.OnList L u ↔ if u = k.tp then L = .cond c else k.view.OnList L u := by
    have live := tree₄.live u
    rcases L with _ | c' <;>
      simp only [View.OnList, live, view_thread, Thread.sched_state, Thread.sched_wait_cond, state₄, wait₄] <;>
      split_ifs with is_tp <;> simp [is_tp, tp_live, @eq_comm _ c]
  refine ⟨k₄, lc, called, ⟨good.toTree.congr tree₄, fun L exists' => ?_, fun u live waiting => ?_,
    fun u w live waiting on_w => ?_, ?_, fun u live is_running => ?_, ?_⟩, tp₄, fun u mem => ?_, rep,
    tlinsert_represents rep₃ tp_lc inserted, by rw [frame₄.2 .ready ListRef.noConfusion, list₃],
    fun u on_r => ?_, state₄, wait₄, tree₄, (tlinsert_memOnly inserted).ctl, fun u => ?_⟩
  · by_cases is_c : L = .cond c
    · subst is_c
      refine ⟨lc ++ [k.tp], tlinsert_represents rep₃ tp_lc inserted, fun u => ?_⟩
      rw [on₄, List.mem_append, List.mem_singleton, members]
      split_ifs with is_tp <;> simp [is_tp]
    · refine good.lists.transfer ((tree₄.listExists L).mp exists') ?_ (fun u on_L => ?_) (fun u => ?_)
      · rw [view_list, view_list, frame₄.2 L is_c, list₃]
      · have ne_tp : u ≠ k.tp := fun same => tp_off L (same ▸ on_L)
        have not_lc : u ∉ lc := fun mem => is_c (on_L.unique ((members u).mp mem))
        rw [view_next, view_next, frame₄.1 u ne_tp not_lc, next₃, store_of_ne _ _ _ ne_tp]
      · rw [on₄]
        split_ifs with is_tp
        · exact iff_of_false is_c (is_tp ▸ tp_off L)
        · rfl
  · have waiting' : (k₄.mem u).state = .waiting := waiting
    rw [state₄] at waiting'
    by_cases is_tp : u = k.tp
    · exact ⟨c, by simp [wait₄, is_tp], (tree₄.condExists c).mpr exists_c⟩
    · rw [if_neg is_tp] at waiting'
      obtain ⟨c', on_c', exists_c'⟩ := good.waiting u ((tree₄.live u).mp live) waiting'
      refine ⟨c', ?_, (tree₄.condExists c').mpr exists_c'⟩
      rw [show (k₄.view.thread u).wait_cond = _ from wait₄ u, if_neg is_tp]
      exact on_c'
  · have waiting' : (k₄.mem u).state = .waiting := waiting
    have on_w' : (k₄.mem u).wait_cond = some (.childExit w) := on_w
    rw [state₄] at waiting'
    rw [wait₄] at on_w'
    split_ifs at waiting' on_w' with is_tp
    · subst is_tp; exact own w (Option.some.inj on_w')
    · exact good.own_child_exit u w ((tree₄.live u).mp live) waiting' on_w'
  · show k₄.view.Live k₄.tp
    rw [tp₄]; exact (tree₄.live _).mpr tp_live
  · have running' : (k₄.mem u).state = .running := is_running
    rw [state₄] at running'
    split_ifs at running'
    exact (good.one_running u ((tree₄.live u).mp live) running').trans tp₄.symm
  · show (k₄.mem idle_thread).state = .ready ∨ (k₄.mem idle_thread).state = .running
    rw [state₄, if_neg (Ne.symm not_idle)]
    exact good.idle
  · rw [state₄]
    split_ifs with is_tp
    · rfl
    · exact ((members u).mp ((List.mem_append.mp mem).resolve_right (by simpa using is_tp))).2.1
  · have ne_tp : u ≠ k.tp := fun same => tp_off .ready (same ▸ on_r)
    have not_lc : u ∉ lc := fun mem => ListRef.noConfusion (on_r.unique ((members u).mp mem))
    rw [frame₄.1 u ne_tp not_lc, next₃, store_of_ne _ _ _ ne_tp]
  · rw [tlinsert_context inserted, k₃_def, setNext_context, modify_mem]
    split <;> simp_all

/-- `condition_wait` keeps `Good` when the running thread is not the idle
thread and waits on a condition that exists and is not another thread's
`child_exit`. -/
theorem Good.condition_wait {c : Cond} {resume : Ctl} (good : Good k.view) (not_idle : k.tp ≠ idle_thread)
    (exists_c : k.CondExists c) (own : ∀ u, c = .childExit u → u = k.tp)
    (h : k.condition_wait c resume = some k') : Good k'.view := by
  obtain ⟨k₄, _, called, core₄, tp₄, waiting, -⟩ := good.condition_wait_spec resume not_idle exists_c own
  exact core₄.suspend_self (by rw [tp₄, waiting k.tp (by simp)]; decide) (called ▸ h)

/-- `condition_broadcast` on a condition that exists keeps `Good`. -/
theorem Good.condition_broadcast {fuel : Nat} {c : Cond} (good : Good k.view) (exists_c : k.CondExists c)
    (h : k.condition_broadcast fuel c = some k') : Good k'.view := by
  obtain ⟨core, tp', keeps⟩ := good.toCore.condition_broadcast exists_c h
  have running : (k.mem k.tp).state = .running := good.tp_running
  refine ⟨core, ?_⟩
  show (k'.mem k'.tp).state = .running
  rw [tp', keeps _ (by rw [running]; decide), running]

/-! ## Exiting -/

/-- Marking the running thread exited, off every list, keeps `Core`. -/
theorem Good.setState_exited (good : Good k.view) (not_idle : k.tp ≠ idle_thread) :
    Core (k.setState k.tp .exited).view := by
  have running : (k.mem k.tp).state = .running := good.tp_running
  have restated := setState_restated k k.tp .exited
  have on' (L : ListRef) (u : Ptr) : (k.setState k.tp .exited).view.OnList L u ↔ k.view.OnList L u := by
    by_cases is_tp : u = k.tp
    · subst is_tp; rcases L with _ | c <;> simp [View.OnList, running]
    · rcases L with _ | c <;> simp [View.OnList, is_tp]
  refine ⟨good.toTree.congr restated.toSameTree, fun L exists' => ?_, fun u live waiting => ?_,
    fun u w live waiting on_w => ?_, good.tp_live, fun u live is_running => ?_, ?_⟩
  · exact good.lists.transfer ((restated.listExists L).mp exists') (by simp [view_list]) (fun u _ => by
      simp [view_next]) (on' L)
  · have waiting' : ((k.setState k.tp .exited).mem u).state = .waiting := waiting
    rw [setState_state] at waiting'
    split_ifs at waiting'
    obtain ⟨c, on_c, exists_c⟩ := good.waiting u ((restated.live u).mp live) waiting'
    exact ⟨c, (restated.wait_cond u).trans on_c, (restated.condExists c).mpr exists_c⟩
  · have waiting' : ((k.setState k.tp .exited).mem u).state = .waiting := waiting
    rw [setState_state] at waiting'
    split_ifs at waiting'
    exact good.own_child_exit u w ((restated.live u).mp live) waiting' ((restated.wait_cond u).symm.trans on_w)
  · have running' : ((k.setState k.tp .exited).mem u).state = .running := is_running
    rw [setState_state] at running'
    split_ifs at running'
    exact good.one_running u ((restated.live u).mp live) running'
  · show ((k.setState k.tp .exited).mem idle_thread).state = .ready ∨
      ((k.setState k.tp .exited).mem idle_thread).state = .running
    rw [setState_state, if_neg (Ne.symm not_idle)]
    exact good.idle

/-- The parent of a live thread other than the main thread is live. -/
theorem Tree.parent_of_live {v : View} (tree : Tree v) {t : Ptr} (live : v.Live t) (not_main : t ≠ main_thread) :
    ∃ p, (v.thread t).parent = some p ∧ v.Live p := by
  obtain ⟨i, slot⟩ := live
  refine tree.parent_live i t (fun is_main => not_main ?_) slot
  subst is_main
  exact Option.some.inj (slot.symm.trans tree.main_slot)

/-- `thread_exit` by a thread other than the idle thread keeps `Good`. -/
theorem Good.thread_exit {fuel : Nat} (good : Good k.view) (not_idle : k.tp ≠ idle_thread)
    (h : k.thread_exit fuel = some k') : Good k'.view := by
  simp only [Kernel.thread_exit, Option.bind_eq_bind, Option.bind_eq_some] at h
  obtain ⟨⟨⟩, not_main, p, parent, k₂, broadcast, suspended⟩ := h
  rw [check_eq_some] at not_main
  have core₁ := good.setState_exited not_idle
  obtain ⟨p', parent', live_p⟩ := core₁.parent_of_live core₁.tp_live not_main
  obtain rfl : p' = p := Option.some.inj (parent'.symm.trans parent)
  have exists_p : (k.setState k.tp .exited).CondExists (.childExit p') := live_p
  obtain ⟨core₂, tp₂, keeps⟩ := core₁.condition_broadcast exists_p broadcast
  have exited : ((k.setState k.tp .exited).mem k.tp).state = .exited := by simp
  refine core₂.suspend_self ?_ suspended
  rw [tp₂, setState_tp, keeps _ (by rw [exited]; decide), exited]
  decide

end OsKernel.Threads
