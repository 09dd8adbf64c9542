import OsKernel.Thread.Preserve

/-! # `recycle_thread` and the joins keep the invariant

`recycle_thread` is the one function that takes a thread out of `thrtab`: the
threads whose parent it was get its parent.  That keeps the parent tree because
parent links that reach the main thread make no thread its own parent, so the
loop never rewrites the parent it copies.  The joins either refuse, recycle an
exited child, or wait on the caller's own `child_exit`.
-/

namespace OsKernel.Threads

open View Kernel

variable {k k' : Kernel}

/-! ## Recycling -/

namespace Kernel

theorem with_mem_self (k : Kernel) {M : Ptr → Thread} (same : ∀ u, M u = k.mem u) : { k with mem := M } = k := by
  obtain rfl : M = k.mem := funext same
  rfl

/-- One pass of `recycle_thread`'s loop, in closed form. -/
theorem reparentSlot_eq (thr : Ptr) (k : Kernel) (i : Fin NTHR) :
    reparentSlot thr k i =
      { k with mem := fun u =>
          if (1 ≤ i.val ∧ k.thrtab i = some u) ∧ (k.mem u).parent = some thr then
            { k.mem u with parent := (k.mem thr).parent } else k.mem u } := by
  unfold reparentSlot
  split
  · rename_i t slot
    split_ifs with adopt
    · simp only [modify, Kernel.mk.injEq, and_true]
      funext u
      by_cases is_t : u = t
      · subst is_t; simp [slot, adopt]
      · simp [store_apply, is_t, slot, Ne.symm is_t]
    · refine (with_mem_self k fun u => if_neg ?_).symm
      rintro ⟨⟨one, same⟩, parent⟩
      rw [slot, Option.some.injEq] at same
      subst same
      exact adopt ⟨one, parent⟩
  · rename_i slot
    refine (with_mem_self k fun u => if_neg ?_).symm
    rintro ⟨⟨-, same⟩, -⟩
    rw [slot] at same
    cases same

/-- `recycle_thread`'s loop, in closed form, when `thr` is not its own parent:
every thread in a slot other than the main thread's whose parent is `thr` gets
`thr`'s parent. -/
theorem foldl_reparentSlot (thr : Ptr) (is : List (Fin NTHR)) (k : Kernel)
    (no_loop : (k.mem thr).parent ≠ some thr) :
    is.foldl (reparentSlot thr) k =
      { k with mem := fun u =>
          if (∃ i ∈ is, 1 ≤ i.val ∧ k.thrtab i = some u) ∧ (k.mem u).parent = some thr then
            { k.mem u with parent := (k.mem thr).parent } else k.mem u } := by
  induction is generalizing k with
  | nil => simp
  | cons i is ih =>
    have thr_same : (reparentSlot thr k i).mem thr = k.mem thr := by
      rw [reparentSlot_eq]; simp [no_loop]
    rw [List.foldl_cons, ih _ (by rwa [thr_same]), thr_same, reparentSlot_thrtab]
    rw [reparentSlot_eq]
    congr 1; funext u
    by_cases adopt : (1 ≤ i.val ∧ k.thrtab i = some u) ∧ (k.mem u).parent = some thr
    · simp [adopt, no_loop]
    · simp only [adopt, if_false, List.mem_cons, exists_eq_or_imp]
      by_cases parent : (k.mem u).parent = some thr
      · have not_i : ¬(1 ≤ i.val ∧ k.thrtab i = some u) := fun slot => adopt ⟨slot, parent⟩
        simp only [parent, and_true, not_i, false_or]
      · simp [parent]

end Kernel

namespace View

variable {v : View}

theorem ReachesMain.mono {m n : Nat} {t : Ptr} (reaches : v.ReachesMain m t) (le : m ≤ n) : v.ReachesMain n t := by
  induction m generalizing n t with
  | zero => cases n with
    | zero => exact reaches
    | succ n => exact .inl reaches
  | succ m ih =>
    obtain ⟨n, rfl⟩ : ∃ n', n = n' + 1 := ⟨n - 1, by omega⟩
    rcases reaches with main | ⟨p, parent, live, reaches⟩
    · exact .inl main
    · exact .inr ⟨p, parent, live, ih reaches (by omega)⟩

/-- Parent links that reach the main thread make no thread but the main thread
its own parent. -/
theorem ReachesMain.parent_ne_self {n : Nat} {t : Ptr} (reaches : v.ReachesMain n t) (not_main : t ≠ main_thread) :
    (v.thread t).parent ≠ some t := by
  induction n with
  | zero => exact absurd reaches not_main
  | succ n ih =>
    rcases reaches with main | ⟨p, parent, -, reaches⟩
    · exact absurd main not_main
    · intro self
      obtain rfl : p = t := Option.some.inj (parent.symm.trans self)
      exact ih reaches self

end View

/-- Two slots hold different threads. -/
theorem Tree.slot_unique {v : View} (tree : Tree v) {i j : Fin NTHR} {t : Ptr} (slot_i : v.thrtab i = some t)
    (slot_j : v.thrtab j = some t) : i = j :=
  Fin.ext ((tree.ids i t slot_i).symm.trans (tree.ids j t slot_j))

/-- A thread with a parent is not in the main thread's slot. -/
theorem Tree.one_le_of_parent {v : View} (tree : Tree v) {j : Fin NTHR} {t p : Ptr} (slot : v.thrtab j = some t)
    (parent : (v.thread t).parent = some p) : 1 ≤ j.val := by
  refine Nat.one_le_iff_ne_zero.mpr fun zero => ?_
  obtain rfl : j = MAIN_TID := Fin.ext zero
  obtain rfl : t = main_thread := Option.some.inj (slot.symm.trans tree.main_slot)
  exact absurd (parent.symm.trans tree.main_root) (by simp)

/-- What `recycle_thread` computes over the parent tree: slot `tid` held an
exited thread `thr`, not the main thread and not its own parent; the slot is
freed, every thread in a slot other than the main thread's whose parent was
`thr` gets `thr`'s parent, and nothing else changes. -/
theorem Tree.recycle_thread_eq {tid : Nat} (tree : Tree k.view) (h : k.recycle_thread tid = some k') :
    ∃ (i : Fin NTHR) (thr : Ptr), i.val = tid ∧ k.thrtab i = some thr ∧ (k.mem thr).state = .exited ∧
      thr ≠ main_thread ∧ (k.mem thr).parent ≠ some thr ∧
      k' = { k with thrtab := store k.thrtab i none, mem := fun u =>
        if (∃ j ∈ slots, 1 ≤ j.val ∧ k.thrtab j = some u) ∧ (k.mem u).parent = some thr then
          { k.mem u with parent := (k.mem thr).parent } else k.mem u } := by
  unfold Kernel.recycle_thread at h
  split at h
  swap
  · cases h
  rename_i range
  simp only [Option.bind_eq_bind, Option.bind_eq_some] at h
  obtain ⟨thr, slot, ⟨⟩, exited, done⟩ := h
  rw [check_eq_some] at exited
  have thr_ne_main : thr ≠ main_thread := by
    rintro rfl
    exact absurd (congrArg Fin.val (tree.slot_unique slot tree.main_slot)) (Nat.ne_of_gt range.1)
  obtain ⟨n, reaches⟩ := tree.reaches_main thr ⟨⟨tid, range.2⟩, slot⟩
  have no_loop : (k.mem thr).parent ≠ some thr := reaches.parent_ne_self thr_ne_main
  refine ⟨⟨tid, range.2⟩, thr, rfl, slot, exited, thr_ne_main, no_loop, ?_⟩
  rw [← Option.some.inj done, foldl_reparentSlot thr slots k no_loop]

/-- What `recycle_thread` does over the parent tree: slot `tid` held an exited
thread `thr`, not the main thread, whose parent `q` is live; the slot is freed,
and every live thread whose parent was `thr` gets `q` as its parent.  The lists
and the other fields of the scheduler's records do not change. -/
theorem Tree.recycle_thread_spec {tid : Nat} (tree : Tree k.view) (h : k.recycle_thread tid = some k') :
    ∃ i₀ thr q, i₀.val = tid ∧ k.thrtab i₀ = some thr ∧ (k.mem thr).state = .exited ∧
      thr ≠ main_thread ∧ (k.mem thr).parent = some q ∧ k.Live q ∧ q ≠ thr ∧
      k'.thrtab = store k.thrtab i₀ none ∧ k'.tp = k.tp ∧ (∀ L, k'.list L = k.list L) ∧
      (∀ u, (k'.mem u).sched = { (k.mem u).sched with parent := (k'.mem u).parent }) ∧
      (∀ u, k'.Live u ↔ k.Live u ∧ u ≠ thr) ∧
      ∀ u, k.Live u → (k'.mem u).parent = if (k.mem u).parent = some thr then some q else (k.mem u).parent := by
  obtain ⟨i₀, thr, rfl, slot, exited, thr_ne_main, no_loop, rfl⟩ := tree.recycle_thread_eq h
  obtain ⟨q, parent_thr, live_q⟩ := tree.parent_of_live ⟨i₀, slot⟩ thr_ne_main
  refine ⟨i₀, thr, q, rfl, slot, exited, thr_ne_main, parent_thr, live_q, fun same => no_loop (same ▸ parent_thr),
    rfl, rfl, fun L => ?_, fun u => by dsimp only; split <;> rfl, fun u => ?_, fun u ⟨j, slot_j⟩ => ?_⟩
  · rcases L with _ | ⟨u | c⟩
    · rfl
    · show (if _ then _ else _ : Thread).child_exit = _; split <;> rfl
    · rfl
  · simp only [Kernel.Live]
    constructor
    · rintro ⟨j, slot_j⟩
      have ne : j ≠ i₀ := fun same => by simp [same] at slot_j
      rw [store_of_ne _ _ _ ne] at slot_j
      exact ⟨⟨j, slot_j⟩, fun same => ne (tree.slot_unique slot_j (same ▸ slot))⟩
    · rintro ⟨⟨j, slot_j⟩, ne⟩
      refine ⟨j, ?_⟩
      rw [store_of_ne _ _ _ fun same => ne (Option.some.inj ((same ▸ slot_j).symm.trans slot))]
      exact slot_j
  · dsimp only
    split_ifs with adopt parent_u parent_u
    · exact parent_thr
    · exact absurd adopt.2 parent_u
    · exact absurd ⟨⟨j, mem_slots j, tree.one_le_of_parent slot_j parent_u, slot_j⟩, parent_u⟩ adopt
    · rfl

/-- `recycle_thread` keeps the slots and the parent tree when the idle thread
has not exited: the threads whose parent was the reaped one reach the main
thread through its parent. -/
theorem Tree.recycle_thread {tid : Nat} (tree : Tree k.view) (idle : (k.mem idle_thread).state ≠ .exited)
    (h : k.recycle_thread tid = some k') : Tree k'.view := by
  obtain ⟨i₀, thr, q, -, slot, exited, thr_ne_main, parent_thr, live_q, q_ne, thrtab', -, -, sched', live',
    parent'⟩ := tree.recycle_thread_spec h
  have reaches' (n : Nat) : ∀ t, k.Live t → t ≠ thr → k.view.ReachesMain n t → k'.view.ReachesMain n t := by
    induction n with
    | zero => exact fun t _ _ reaches => reaches
    | succ n ih =>
      rintro t live ne (main | ⟨p, parent_t, live_p, reaches⟩)
      · exact .inl main
      by_cases is_thr : p = thr
      · subst is_thr
        cases n with
        | zero => exact absurd reaches thr_ne_main
        | succ m =>
          rcases reaches with main | ⟨q', parent_q', -, reaches⟩
          · exact absurd main thr_ne_main
          obtain rfl : q' = q := Option.some.inj (parent_q'.symm.trans parent_thr)
          exact .inr ⟨q', (parent' t live).trans (if_pos parent_t),
            (live' q').mpr ⟨live_q, q_ne⟩, ih q' live_q q_ne (reaches.mono (by omega))⟩
      · have kept : (k'.mem t).parent = (k.mem t).parent :=
          (parent' t live).trans (if_neg fun same => is_thr (Option.some.inj (parent_t.symm.trans same)))
        exact .inr ⟨p, kept.trans parent_t, (live' p).mpr ⟨live_p, is_thr⟩, ih p live_p is_thr reaches⟩
  have main_ne : MAIN_TID ≠ i₀ := fun same =>
    thr_ne_main (Option.some.inj ((same ▸ tree.main_slot : k.thrtab i₀ = _).symm.trans slot)).symm
  have idle_ne : IDLE_TID ≠ i₀ := fun same => by
    have : thr = idle_thread := Option.some.inj (slot.symm.trans (same ▸ tree.idle_slot))
    subst this
    exact idle exited
  have slot_of {j : Fin NTHR} {t : Ptr} (slot_t : k'.thrtab j = some t) : k.thrtab j = some t := by
    have ne : j ≠ i₀ := fun same => by simp [thrtab', same] at slot_t
    simpa [thrtab', store_of_ne _ _ _ ne] using slot_t
  refine ⟨?_, ?_, fun j t slot_t => ?_, ?_, fun j t not_main slot_t => ?_, fun t live => ?_⟩
  · show k'.thrtab MAIN_TID = _; rw [thrtab', store_of_ne _ _ _ main_ne]; exact tree.main_slot
  · show k'.thrtab IDLE_TID = _; rw [thrtab', store_of_ne _ _ _ idle_ne]; exact tree.idle_slot
  · exact (congrArg SchedRec.id (sched' t)).trans (tree.ids j t (slot_of slot_t))
  · show (k'.mem main_thread).parent = none
    have main_root : (k.mem main_thread).parent = none := tree.main_root
    rw [parent' _ ⟨MAIN_TID, tree.main_slot⟩, main_root, if_neg (by simp)]
  · have live_t : k.Live t := ⟨j, slot_of slot_t⟩
    by_cases parent_t : (k.mem t).parent = some thr
    · exact ⟨q, (parent' t live_t).trans (if_pos parent_t), (live' q).mpr ⟨live_q, q_ne⟩⟩
    · obtain ⟨p, parent_p, live_p⟩ := tree.parent_live j t not_main (slot_of slot_t)
      exact ⟨p, ((parent' t live_t).trans (if_neg parent_t)).trans parent_p,
        (live' p).mpr ⟨live_p, fun same => parent_t (same ▸ parent_p)⟩⟩
  · obtain ⟨live_t, ne⟩ := (live' t).mp live
    obtain ⟨n, reaches⟩ := tree.reaches_main t live_t
    exact ⟨n, reaches' n t live_t ne reaches⟩

/-- `recycle_thread` keeps `Good`. -/
theorem Good.recycle_thread {tid : Nat} (good : Good k.view) (h : k.recycle_thread tid = some k') :
    Good k'.view := by
  obtain ⟨-, thr, -, -, -, exited, -, -, -, -, -, tp', list', sched', live', -⟩ := good.recycle_thread_spec h
  have running : (k.mem k.tp).state = .running := good.tp_running
  have state' (u : Ptr) : (k'.mem u).state = (k.mem u).state := congrArg SchedRec.state (sched' u)
  have wait' (u : Ptr) : (k'.mem u).wait_cond = (k.mem u).wait_cond := congrArg SchedRec.wait_cond (sched' u)
  have next' : k'.next = k.next := funext fun u => congrArg SchedRec.list_next (sched' u)
  have off (L : ListRef) : ¬ k.view.OnList L thr := by
    rcases L with _ | c <;> simp [View.OnList, exited]
  have tp_ne : k.tp ≠ thr := fun same => by simp_all
  have tree' := good.toTree.recycle_thread (by rcases good.idle with ready | running <;> simp_all) h
  refine ⟨⟨tree', fun L exists' => ?_, fun u live waiting => ?_, fun u w live waiting on_w => ?_, ?_,
    fun u live is_running => ?_, ?_⟩, ?_⟩
  · have exists_L : k.view.ListExists L := by
      rcases L with _ | ⟨u | c⟩
      · trivial
      · exact ((live' u).mp exists').1
      · trivial
    refine good.lists.transfer exists_L (by rw [view_list, view_list, list']) (fun u _ => by
      rw [view_next, view_next, next']) (fun u => ?_)
    by_cases is_thr : u = thr
    · subst is_thr
      refine iff_of_false (fun on_L => ?_) (off L)
      rcases L with _ | c <;> exact ((live' _).mp on_L.1).2 rfl
    · rcases L with _ | c <;> simp only [View.OnList, view_live, live', view_thread, Thread.sched_state,
        Thread.sched_wait_cond, state', wait', is_thr, ne_eq, not_false_eq_true, and_true]
  · obtain ⟨live_u, -⟩ := (live' u).mp live
    obtain ⟨c, on_c, exists_c⟩ := good.waiting u live_u ((state' u).symm.trans waiting)
    refine ⟨c, (wait' u).trans on_c, ?_⟩
    rcases c with w | c
    · obtain rfl := good.own_child_exit u w live_u ((state' u).symm.trans waiting) on_c
      exact live
    · trivial
  · exact good.own_child_exit u w ((live' u).mp live).1 ((state' u).symm.trans waiting)
      ((wait' u).symm.trans on_w)
  · show k'.Live k'.tp
    rw [tp', live']; exact ⟨good.tp_live, tp_ne⟩
  · exact (good.one_running u ((live' u).mp live).1 ((state' u).symm.trans is_running)).trans tp'.symm
  · show (k'.mem idle_thread).state = .ready ∨ (k'.mem idle_thread).state = .running
    rw [state']; exact good.idle
  · show (k'.mem k'.tp).state = .running
    rw [tp', state']; exact running

/-! ## The joins -/

/-- Waiting on the caller's own `child_exit` keeps `Good`. -/
theorem Good.wait_child_exit {resume : Ctl} (good : Good k.view) (not_idle : k.tp ≠ idle_thread)
    (h : k.condition_wait (.childExit k.tp) resume = some k') : Good k'.view :=
  good.condition_wait not_idle (show k.CondExists (.childExit k.tp) from good.tp_live)
    (fun _ same => (Cond.childExit.inj same).symm) h

theorem Good.joinLoop {tid : Nat} {child : Ptr} {v : Option Int} (good : Good k.view)
    (not_idle : k.tp ≠ idle_thread) (h : k.joinLoop tid child = some (k', v)) : Good k'.view := by
  unfold Kernel.joinLoop at h
  split at h <;> obtain ⟨k'', done, same⟩ := Option.map_eq_some'.mp h <;> cases same
  · exact good.recycle_thread done
  · exact good.wait_child_exit not_idle done

theorem Good.thread_join {tid : Int} {v : Option Int} (good : Good k.view) (not_idle : k.tp ≠ idle_thread)
    (h : k.thread_join tid = some (k', v)) : Good k'.view := by
  rcases thread_join_cases h with ⟨rfl, -⟩ | ⟨i, child, -, -, -, -, h⟩
  · exact good
  · exact good.joinLoop not_idle h

theorem Good.thread_join_any {v : Option Int} (good : Good k.view) (not_idle : k.tp ≠ idle_thread)
    (h : k.thread_join_any = some (k', v)) : Good k'.view := by
  unfold Kernel.thread_join_any at h
  split at h
  · exact good.thread_join not_idle h
  · split at h
    · obtain ⟨k'', done, same⟩ := Option.map_eq_some'.mp h
      cases same
      exact good.wait_child_exit not_idle done
    · cases h

theorem Good.joinAnyWake {v : Option Int} (good : Good k.view) (h : k.joinAnyWake = some (k', v)) :
    Good k'.view := by
  simp only [Kernel.joinAnyWake, Option.bind_eq_bind, Option.bind_eq_some] at h
  obtain ⟨i, -, k'', recycled, done⟩ := h
  cases done
  exact good.recycle_thread recycled

end OsKernel.Threads
