import OsKernel.Thread.Preserve

/-! # Creating threads keeps the invariant

`thread_spawn` and `thread_fork_to_user` take a block from `kmalloc`, put it in
a free slot with the caller as parent, and put one thread at the back of the
ready list: the new thread for `thread_spawn`, the caller for
`thread_fork_to_user`, which hands the processor to the new thread.  Both keep
the invariant when the block is not a thread in use and its `child_exit` list is
empty; the code never clears that list, which is what the boot runs of
`Thread/Invariant` exploit.
-/

namespace OsKernel.Threads

open View Kernel

variable {k k' : Kernel}

namespace View

variable {v v' : View}

/-- Parent paths through threads whose parent links and slots stay carry over. -/
theorem ReachesMain.frame {n : Nat} {t : Ptr} (keeps : ∀ u,
    v.Live u → v'.Live u ∧ (v'.thread u).parent = (v.thread u).parent)
    (live : v.Live t) (reaches : v.ReachesMain n t) : v'.ReachesMain n t := by
  induction n generalizing t with
  | zero => exact reaches
  | succ n ih =>
    rcases reaches with main | ⟨p, parent, live_p, reaches⟩
    · exact .inl main
    · exact .inr ⟨p, ((keeps t live).2).trans parent, (keeps p live_p).1, ih live_p reaches⟩

end View

/-- Adding a thread in a free slot other than the main thread's, with a live
parent, keeps the slots and the parent tree. -/
theorem Tree.add_child {v v' : View} (tree : Tree v) {i : Fin NTHR} {child p : Ptr} (free : v.thrtab i = none)
    (not_main : 1 ≤ i.val) (fresh : ∀ j, v.thrtab j ≠ some child) (thrtab' : v'.thrtab = store v.thrtab i (some child))
    (id_child : (v'.thread child).id = i) (parent_child : (v'.thread child).parent = some p) (live_p : v.Live p)
    (others : ∀ u, u ≠ child → (v'.thread u).id = (v.thread u).id ∧ (v'.thread u).parent = (v.thread u).parent) :
    Tree v' := by
  have main_ne : MAIN_TID ≠ i := fun same => by simp [← same, MAIN_TID] at not_main
  have idle_ne : IDLE_TID ≠ i := fun same => by simp [← same, tree.idle_slot] at free
  have live' (u : Ptr) : v'.Live u ↔ v.Live u ∨ u = child := by
    simp only [View.Live, thrtab', store_apply]
    constructor
    · rintro ⟨j, slot⟩
      split_ifs at slot
      · exact .inr (Option.some.inj slot).symm
      · exact .inl ⟨j, slot⟩
    · rintro (⟨j, slot⟩ | rfl)
      · exact ⟨j, by rw [if_neg fun same => by simp [same, free] at slot]; exact slot⟩
      · exact ⟨i, if_pos rfl⟩
  have ne_child {u : Ptr} (live : v.Live u) : u ≠ child := fun same => by
    obtain ⟨j, slot⟩ := live; exact fresh j (same ▸ slot)
  have keeps (u : Ptr) (live : v.Live u) : v'.Live u ∧ (v'.thread u).parent = (v.thread u).parent :=
    ⟨(live' u).mpr (.inl live), (others u (ne_child live)).2⟩
  refine ⟨by rw [thrtab', store_of_ne _ _ _ main_ne, tree.main_slot],
    by rw [thrtab', store_of_ne _ _ _ idle_ne, tree.idle_slot], fun j t slot => ?_, ?_,
    fun j t ne slot => ?_, fun t live => ?_⟩
  · rw [thrtab', store_apply] at slot
    split_ifs at slot with is_i
    · cases slot; exact is_i ▸ id_child
    · rw [(others t (ne_child ⟨j, slot⟩)).1]; exact tree.ids j t slot
  · rw [(others _ (ne_child ⟨MAIN_TID, tree.main_slot⟩)).2]; exact tree.main_root
  · rw [thrtab', store_apply] at slot
    split_ifs at slot with is_i
    · cases slot; exact ⟨p, parent_child, (live' p).mpr (.inl live_p)⟩
    · obtain ⟨q, parent, live_q⟩ := tree.parent_live j t ne slot
      exact ⟨q, (others t (ne_child ⟨j, slot⟩)).2.trans parent, (live' q).mpr (.inl live_q)⟩
  · rcases (live' t).mp live with live | rfl
    · obtain ⟨n, reaches⟩ := tree.reaches_main t live
      exact ⟨n, reaches.frame keeps live⟩
    · obtain ⟨n, reaches⟩ := tree.reaches_main p live_p
      exact ⟨n + 1, .inr ⟨p, parent_child, (live' p).mpr (.inl live_p), reaches.frame keeps live_p⟩⟩

namespace Kernel

theorem Fresh.ne_of_live {child u : Ptr} (fresh : k.Fresh child) (live : k.Live u) : u ≠ child := fun same => by
  obtain ⟨j, slot⟩ := live; exact fresh j (same ▸ slot)

/-- What `thread_spawn` does: `child` takes a free slot `i` with `id` `i`, the
caller as parent and state ready, keeps the rest of `blk`, and goes to the back
of the ready list. -/
theorem thread_spawn_spec {L : Layout} {child : Ptr} {blk : Thread} {page : Addr} {tid : Nat}
    (h : k.thread_spawn L child blk page = some (k', tid)) :
    ∃ (i : Fin NTHR) (k₁ k₂ : Kernel), k.freeSlot 1 = some i ∧ k₁.tlinsert .ready child = some k₂ ∧
      k'.view = k₂.view ∧
      k₁.thrtab = store k.thrtab i (some child) ∧ k₁.tp = k.tp ∧ k₁.ready_list = k.ready_list ∧
      k₁.conds = k.conds ∧ (∀ u, u ≠ child → k₁.mem u = k.mem u) ∧
      (k₁.mem child).sched = { blk.sched with state := .ready, id := i, parent := some k.tp } := by
  simp only [thread_spawn, Option.bind_eq_bind, Option.bind_eq_some] at h
  obtain ⟨i, free, k₂, inserted, done⟩ := h
  obtain ⟨rfl, -⟩ := Prod.mk.inj (Option.some.inj done).symm
  refine ⟨i, _, k₂, free, inserted, view_modify _ _ rfl, rfl, rfl, rfl, rfl, fun u ne => ?_, ?_⟩
  · simp [setState, modify_mem, ne, store_apply]
  · simp [setState, Thread.sched]

/-- What `thread_fork_to_user` does: `child` takes a free slot `i` with `id`
`i`, the caller as parent and state running, keeps the rest of `blk`; the caller
becomes ready and goes to the back of the ready list, and `child` runs. -/
theorem thread_fork_to_user_spec {L : Layout} {child_proc : Nat} {block : Addr} {child : Ptr} {blk : Thread}
    {tid : Nat} (ne : child ≠ k.tp) (h : k.thread_fork_to_user L child_proc block child blk = some (k', tid)) :
    ∃ (i : Fin NTHR) (k₁ k₂ : Kernel), k.freeSlot 0 = some i ∧ k₁.tlinsert .ready k.tp = some k₂ ∧
      k'.view = { k₂.view with tp := child } ∧
      k₁.thrtab = store k.thrtab i (some child) ∧ k₁.ready_list = k.ready_list ∧ k₁.conds = k.conds ∧
      (∀ u, u ≠ child → (k₁.mem u).sched =
        if u = k.tp then { (k.mem u).sched with state := .ready } else (k.mem u).sched) ∧
      (k₁.mem child).sched = { blk.sched with state := .running, id := i, parent := some k.tp } := by
  simp only [thread_fork_to_user, Option.bind_eq_bind, Option.bind_eq_some] at h
  obtain ⟨i, free, k₂, inserted, done⟩ := h
  obtain ⟨rfl, -⟩ := Prod.mk.inj (Option.some.inj done).symm
  refine ⟨i, _, k₂, free, inserted, ?_, rfl, rfl, rfl, fun u ne' => ?_, ?_⟩
  · rw [← view_modify k₂ k.tp (f := fun r => { r with context := .finishFork i }) rfl]; rfl
  · by_cases is_tp : u = k.tp
    · subst is_tp; simp [setState, modify_mem, ne'.symm, ne', Thread.sched]
    · simp [setState, modify_mem, ne', is_tp, store_apply]
  · simp [setState, modify_mem, ne, Thread.sched]

end Kernel

section Add

variable {k₁ k₂ : Kernel} {child x : Ptr} {blk : Thread} {s : ThreadState} {i : Fin NTHR}
  (others₁ : ∀ u, u ≠ child → (k₁.mem u).sched = if u = x then { (k.mem u).sched with state :=
      .ready } else (k.mem u).sched)
  (child₁ : (k₁.mem child).sched = { blk.sched with state := s, id := i, parent := some k.tp })
  (inserted : k₁.tlinsert .ready x = some k₂)

include others₁ child₁ inserted in
/-- The states after a thread creation: the new thread's, the inserted
thread's ready, the rest unchanged. -/
theorem add_thread_state (u : Ptr) :
    (k₂.mem u).state = if u = child then s else if u = x then .ready else (k.mem u).state := by
  rw [show (k₂.mem u).state = (k₁.mem u).state from (tlinsert_relinked inserted).state u]
  split_ifs with is_child is_x
  · subst is_child; exact congrArg SchedRec.state child₁
  · rw [← Thread.sched_state, others₁ u is_child, if_pos is_x]
  · rw [← Thread.sched_state, others₁ u is_child, if_neg is_x]; rfl

include inserted in
/-- The live threads after a thread creation: those before, and the new one. -/
theorem add_thread_live (free : k.thrtab i = none) (thrtab₁ : k₁.thrtab = store k.thrtab i (some child))
    (u : Ptr) : k₂.Live u ↔ k.Live u ∨ u = child := by
  simp only [Kernel.Live, show k₂.thrtab = k₁.thrtab from (tlinsert_relinked inserted).thrtab, thrtab₁, store_apply]
  constructor
  · rintro ⟨j, slot⟩
    split_ifs at slot
    · exact .inr (Option.some.inj slot).symm
    · exact .inl ⟨j, slot⟩
  · rintro (⟨j, slot⟩ | rfl)
    · exact ⟨j, by rw [if_neg fun same => by simp [same, free] at slot]; exact slot⟩
    · exact ⟨i, if_pos rfl⟩

include others₁ child₁ inserted in
/-- Adding `child` in the free slot `i` with the caller, which is live, as parent
keeps the slots and the parent tree, whichever thread runs next. -/
theorem Tree.add_thread {t' : Ptr} (tree : Tree k.view) (fresh : k.Fresh child) (free : k.thrtab i = none)
    (one_le : 1 ≤ i.val) (thrtab₁ : k₁.thrtab = store k.thrtab i (some child)) (tp_live : k.Live k.tp) :
    Tree { k₂.view with tp := t' } :=
  have rel₂ := tlinsert_relinked inserted
  tree.add_child free one_le fresh
    (by rw [view_thrtab, show k₂.thrtab = k₁.thrtab from rel₂.thrtab, thrtab₁]; rfl)
    ((rel₂.id child).trans (congrArg SchedRec.id child₁)) ((rel₂.parent child).trans (congrArg SchedRec.parent child₁))
    tp_live fun u ne => by
      refine ⟨(rel₂.id u).trans ?_, (rel₂.parent u).trans ?_⟩ <;>
        simp only [view_thread, others₁ u ne] <;> split <;> rfl

include others₁ child₁ inserted in
/-- Adding `child` in the free slot `i`, with the caller as parent, an empty
`child_exit` list and a state `s` other than waiting, and putting a thread `x`
that is on no list (the new thread, or the caller) at the back of the ready
list, keeps `Core` for whichever thread `t'` is the only one running. -/
theorem Core.add_thread {t' : Ptr} (core : Core k.view) (fresh : k.Fresh child) (free : k.thrtab i = none)
    (one_le : 1 ≤ i.val) (thrtab₁ : k₁.thrtab = store k.thrtab i (some child))
    (ready₁ : k₁.ready_list = k.ready_list) (conds₁ : k₁.conds = k.conds) (clean : blk.child_exit = .empty)
    (s_waiting : s ≠ .waiting) (s_ready : s = .ready ↔ x = child) (x_off : ∀ L, ¬ k.view.OnList L x)
    (x_live : k.Live x ∨ x = child) (tp_live : k₂.Live t')
    (one_running : ∀ u, k₂.Live u → (k₂.mem u).state = .running → u = t') :
    Core { k₂.view with tp := t' } := by
  have state₂ := add_thread_state others₁ child₁ inserted
  have rel₂ := tlinsert_relinked inserted
  have ne_child {u : Ptr} (live : k.Live u) : u ≠ child := fresh.ne_of_live live
  have wait₂ (u : Ptr) (ne : u ≠ child) : (k₂.mem u).wait_cond = (k.mem u).wait_cond := by
    rw [show (k₂.mem u).wait_cond = (k₁.mem u).wait_cond from rel₂.wait_cond u, ← Thread.sched_wait_cond,
      others₁ u ne]
    split <;> rfl
  have live₂ := add_thread_live inserted free thrtab₁
  have sched₁ (u : Ptr) (ne : u ≠ child) (ne_x : u ≠ x) : (k₁.mem u).sched = (k.mem u).sched := by
    rw [others₁ u ne, if_neg ne_x]
  have tree₂ : Tree { k₂.view with tp := t' } :=
    core.toTree.add_thread others₁ child₁ inserted fresh free one_le thrtab₁ core.tp_live
  obtain ⟨lr, rep, members⟩ := core.lists .ready trivial
  have x_lr : x ∉ lr := fun mem => x_off _ ((members x).mp mem)
  have rep₁ : Represents k₁.next (k₁.list .ready) lr := by
    rw [show k₁.list .ready = k.list .ready from ready₁]
    refine ⟨rep.seg.frame fun u mem => ?_, rep.tail, rep.nodup⟩
    exact congrArg SchedRec.list_next (sched₁ u (ne_child ((members u).mp mem).1) fun same => x_lr (same ▸ mem))
  have frame₂ := tlinsert_frame rep₁ inserted
  have on₂ (L : ListRef) (u : Ptr) (ne : u ≠ child) (ne_x : u ≠ x) : k₂.view.OnList L u ↔ k.view.OnList L u := by
    have live : k₂.Live u ↔ k.Live u := by rw [live₂]; exact or_iff_left ne
    rcases L with _ | c <;>
      simp only [View.OnList, view_live, live, view_thread, Thread.sched_state, Thread.sched_wait_cond, state₂,
        wait₂ u ne, if_neg ne, if_neg ne_x]
  have x_on (L : ListRef) (ne : x ≠ child) : k₂.view.OnList L x ↔ L = .ready := by
    have live : k₂.Live x := (live₂ x).mpr x_live
    rcases L with _ | c <;> simp [View.OnList, live, state₂, ne]
  have child_on (L : ListRef) : k₂.view.OnList L child ↔ L = .ready ∧ x = child := by
    rcases L with _ | c
    · by_cases same : x = child
      · simp [View.OnList, live₂, state₂, same, s_ready.mpr same]
      · simp [View.OnList, state₂, same, mt s_ready.mp same]
    · simp [View.OnList, state₂, s_waiting]
  have lists₂ : k₂.view.Lists := by
    intro L exists'
    by_cases is_ready : L = .ready
    · subst is_ready
      refine ⟨lr ++ [x], tlinsert_represents rep₁ x_lr inserted, fun u => ?_⟩
      by_cases is_x : u = x
      · rw [is_x, List.mem_append, List.mem_singleton, iff_true_intro (Or.inr rfl), true_iff]
        by_cases same : x = child
        · exact same ▸ (child_on .ready).mpr ⟨rfl, same⟩
        · exact (x_on .ready same).mpr rfl
      by_cases is_child : u = child
      · rw [is_child]
        refine iff_of_false (fun mem => ?_) fun on_r => is_x (is_child.trans ((child_on _).mp on_r).2.symm)
        rcases List.mem_append.mp mem with mem | mem
        · exact ne_child ((members _).mp mem).1 rfl
        · exact is_x (is_child.trans (List.mem_singleton.mp mem))
      · rw [on₂ _ _ is_child is_x, ← members, List.mem_append, List.mem_singleton, or_iff_left is_x]
    by_cases is_child_exit : L = .cond (.childExit child)
    · subst is_child_exit
      refine ⟨[], ?_, fun u => iff_of_false (List.not_mem_nil u) fun on_c => ?_⟩
      · rw [view_next, view_list, frame₂.2 _ ListRef.noConfusion]
        show Represents _ (k₁.mem child).child_exit []
        rw [← Thread.sched_child_exit, child₁]
        show Represents _ blk.child_exit []
        rw [clean]
        exact ⟨.nil none, rfl, List.nodup_nil⟩
      · by_cases is_child : u = child
        · exact absurd ((child_on _).mp (is_child ▸ on_c)).1 ListRef.noConfusion
        by_cases is_x : u = x
        · exact absurd ((x_on _ (is_x ▸ is_child)).mp (is_x ▸ on_c)) ListRef.noConfusion
        · have on_c' := (on₂ _ u is_child is_x).mp on_c
          exact is_child (core.own_child_exit u child on_c'.1 on_c'.2.1 on_c'.2.2).symm
    have exists_L : k.view.ListExists L := by
      rcases L with _ | ⟨w | c⟩
      · trivial
      · exact ((live₂ w).mp exists').resolve_right fun same => is_child_exit (same ▸ rfl)
      · trivial
    refine core.lists.transfer exists_L ?_ (fun u on_L => ?_) (fun u => ?_)
    · rw [view_list, view_list, frame₂.2 L is_ready]
      rcases L with _ | ⟨w | c⟩
      · exact absurd rfl is_ready
      · rw [Kernel.list, Kernel.list, ← Thread.sched_child_exit, others₁ w (ne_child exists_L)]
        split <;> rfl
      · exact congrFun conds₁ c
    · have ne_x : u ≠ x := fun same => x_off L (same ▸ on_L)
      rw [view_next, view_next, frame₂.1 u ne_x fun mem => is_ready (on_L.unique ((members u).mp mem))]
      exact congrArg SchedRec.list_next (sched₁ u (ne_child on_L.live) ne_x)
    · by_cases is_child : u = child
      · rw [is_child]
        exact iff_of_false (fun on_L => is_ready ((child_on L).mp on_L).1) fun on_L => ne_child on_L.live rfl
      by_cases is_x : u = x
      · rw [is_x]
        exact iff_of_false (fun on_L => is_ready ((x_on L (is_x ▸ is_child)).mp on_L)) (x_off L)
      · exact on₂ L u is_child is_x
  refine ⟨tree₂, lists₂, fun u live waiting => ?_, fun u w live waiting on_w => ?_, tp_live, one_running, ?_⟩
  · have waiting' : (k₂.mem u).state = .waiting := waiting
    rw [state₂] at waiting'
    split_ifs at waiting' with is_child
    · exact absurd waiting' s_waiting
    · obtain ⟨c, on_c, exists_c⟩ := core.waiting u (((live₂ u).mp live).resolve_right is_child) waiting'
      refine ⟨c, (wait₂ u is_child).trans on_c, ?_⟩
      rcases c with w | c
      · exact (live₂ w).mpr (.inl exists_c)
      · trivial
  · have waiting' : (k₂.mem u).state = .waiting := waiting
    rw [state₂] at waiting'
    split_ifs at waiting' with is_child
    · exact absurd waiting' s_waiting
    · exact core.own_child_exit u w (((live₂ u).mp live).resolve_right is_child) waiting'
        ((wait₂ u is_child).symm.trans on_w)
  · show (k₂.mem idle_thread).state = .ready ∨ (k₂.mem idle_thread).state = .running
    rw [state₂, if_neg (ne_child ⟨_, core.idle_slot⟩)]
    split_ifs
    · exact .inl rfl
    · exact core.idle

end Add

/-- `thread_spawn` of a block that is not a thread in use, with an empty
`child_exit` list, keeps `Good`. -/
theorem Good.thread_spawn {L : Layout} {child : Ptr} {blk : Thread} {page : Addr} {tid : Nat}
    (good : Good k.view) (fresh : k.Fresh child) (clean : blk.child_exit = .empty)
    (h : k.thread_spawn L child blk page = some (k', tid)) : Good k'.view := by
  obtain ⟨i, k₁, k₂, free, inserted, view', thrtab₁, tp₁, ready₁, conds₁, others₁, child₁⟩ :=
    thread_spawn_spec h
  obtain ⟨one_le, free_i⟩ := freeSlot_spec free
  have others (u : Ptr) (ne : u ≠ child) :
      (k₁.mem u).sched = if u = child then { (k.mem u).sched with state := .ready } else (k.mem u).sched := by
    rw [if_neg ne, others₁ u ne]
  have state₂ := add_thread_state others child₁ inserted
  have live₂ := add_thread_live inserted free_i thrtab₁
  have tp₂ : k₂.tp = k.tp := (tlinsert_relinked inserted).tp.trans tp₁
  have running : (k.mem k.tp).state = .running := good.tp_running
  have tp_ne : k.tp ≠ child := fresh.ne_of_live good.tp_live
  have core := good.toCore.add_thread others child₁ inserted fresh free_i one_le thrtab₁ ready₁ conds₁ clean
    (by decide) (iff_of_true rfl rfl) (fun L on_L => fresh.ne_of_live on_L.live rfl) (.inr rfl)
    ((live₂ _).mpr (.inl good.tp_live)) fun u live is_running => by
      rw [state₂] at is_running
      split_ifs at is_running with is_child
      exact good.one_running u (((live₂ u).mp live).resolve_right is_child) is_running
  rw [view', show k₂.view = { k₂.view with tp := k.tp } by rw [← tp₂]; rfl]
  refine ⟨core, ?_⟩
  show (k₂.mem k.tp).state = .running
  rw [state₂, if_neg tp_ne, if_neg tp_ne, running]

/-- `thread_fork_to_user` of a block that is not a thread in use, with an empty
`child_exit` list, keeps `Good`. -/
theorem Good.thread_fork_to_user {L : Layout} {child_proc : Nat} {block : Addr} {child : Ptr} {blk : Thread}
    {tid : Nat} (good : Good k.view) (fresh : k.Fresh child) (clean : blk.child_exit = .empty)
    (h : k.thread_fork_to_user L child_proc block child blk = some (k', tid)) : Good k'.view := by
  have tp_ne : child ≠ k.tp := (fresh.ne_of_live good.tp_live).symm
  obtain ⟨i, k₁, k₂, free, inserted, view', thrtab₁, ready₁, conds₁, others₁, child₁⟩ :=
    thread_fork_to_user_spec tp_ne h
  obtain ⟨-, free_i⟩ := freeSlot_spec free
  have one_le : 1 ≤ i.val := Nat.one_le_iff_ne_zero.mpr fun zero => by
    rw [show i = MAIN_TID from Fin.ext zero, show k.thrtab MAIN_TID = _ from good.main_slot] at free_i
    cases free_i
  have state₂ := add_thread_state others₁ child₁ inserted
  have live₂ := add_thread_live inserted free_i thrtab₁
  rw [view']
  refine ⟨good.toCore.add_thread others₁ child₁ inserted fresh free_i one_le thrtab₁ ready₁ conds₁ clean
    (by decide) (iff_of_false (by decide) tp_ne.symm) good.tp_off (.inl good.tp_live) ((live₂ _).mpr (.inr rfl))
    fun u live is_running => ?_, ?_⟩
  · rw [state₂] at is_running
    split_ifs at is_running with is_child is_tp
    · exact is_child
    · exact absurd (good.one_running u (((live₂ u).mp live).resolve_right is_child) is_running) is_tp
  · show (k₂.mem child).state = .running
    rw [state₂, if_pos rfl]

end OsKernel.Threads
