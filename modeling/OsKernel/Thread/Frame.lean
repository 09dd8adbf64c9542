import OsKernel.Thread.Sched

/-! # What each operation leaves alone

Every operation of the scheduler is a sequence of list operations and stores
into thread records; only the creators and `recycle_thread` touch `thrtab`.
This module states that once per function, so that the invariants below never
unfold an operation to see which fields it can change.

`MemOnly k k'` (from `OsKernel.Thread.List`) says that `k'` differs from `k`
in memory and list headers only.  `SlotChange k k'` says how `thrtab` can
change in one action: not at all, by filling an empty slot, or by emptying a
slot other than `MAIN_TID`.  From it, the main thread stays in slot `0` in every
reachable state.
-/

namespace OsKernel.Threads

namespace Kernel

variable {k k' : Kernel}

/-! ## Dispatch, waits and broadcasts -/

theorem dispatch_memOnly {next : Ptr} (h : k.dispatch = some (next, k')) : MemOnly k k' := by
  simp only [dispatch, Option.bind_eq_bind, Option.bind_eq_some] at h
  obtain ⟨-, -, n, -, -, -, h⟩ := h
  have removed := tlremove_memOnly k .ready
  split at h
  · obtain ⟨k₁, h₁, h⟩ := Option.bind_eq_some.mp h
    cases h
    exact removed.trans (.modify _ _ _) |>.trans (.modify _ _ _) |>.trans (tlinsert_memOnly h₁)
  · cases h
    exact removed.trans (.modify _ _ _)

@[simp] theorem thread_swtch_thrtab (k : Kernel) (susp next : Ptr) (r : Ctl) :
    (k.thread_swtch susp next r).thrtab = k.thrtab := by
  dsimp only [thread_swtch]; split <;> try rfl
  split <;> rfl

theorem suspend_self_thrtab {r : Ctl} (h : k.suspend_self r = some k') : k'.thrtab = k.thrtab := by
  simp only [suspend_self, Option.bind_eq_bind, Option.bind_eq_some, pure, Option.some.injEq] at h
  obtain ⟨⟨next, k₁⟩, h₁, rfl⟩ := h
  rw [thread_swtch_thrtab, (dispatch_memOnly h₁).thrtab]

theorem condition_wait_thrtab {c : Cond} {r : Ctl} (h : k.condition_wait c r = some k') :
    k'.thrtab = k.thrtab := by
  simp only [condition_wait, Option.bind_eq_bind, Option.bind_eq_some] at h
  obtain ⟨-, -, k₁, h₁, h⟩ := h
  rw [suspend_self_thrtab h, (tlinsert_memOnly h₁).thrtab]
  rfl

theorem wakeAll_memOnly {c : Cond} {fuel : Nat} {t : Option Ptr} (h : wakeAll c fuel k t = some k') :
    MemOnly k k' := by
  induction fuel generalizing k t with
  | zero => cases t <;> simp only [wakeAll, Option.some.injEq, reduceCtorEq] at h; exact h ▸ .refl k
  | succ fuel ih =>
    cases t with
    | none => simp only [wakeAll, Option.some.injEq] at h; exact h ▸ .refl k
    | some t =>
      simp only [wakeAll, Option.bind_eq_bind, Option.bind_eq_some] at h
      obtain ⟨-, -, -, -, h⟩ := h
      exact (MemOnly.modify _ _ _).trans (.modify _ _ _) |>.trans (ih h)

theorem condition_broadcast_memOnly {fuel : Nat} {c : Cond}
    (h : k.condition_broadcast fuel c = some k') : MemOnly k k' := by
  unfold condition_broadcast at h
  split at h
  · cases h; exact .refl k
  · simp only [Option.bind_eq_bind, Option.bind_eq_some, pure, Option.some.injEq] at h
    obtain ⟨k₁, h₁, k₂, h₂, rfl⟩ := h
    exact (wakeAll_memOnly h₁).trans (tlappend_memOnly h₂) |>.trans (.setList _ _ _)

/-! ## Exit, creation and recycling -/

theorem thread_exit_thrtab {fuel : Nat} (h : k.thread_exit fuel = some k') :
    k'.thrtab = k.thrtab := by
  simp only [thread_exit, Option.bind_eq_bind, Option.bind_eq_some] at h
  obtain ⟨-, -, parent, -, k₁, h₁, h⟩ := h
  rw [suspend_self_thrtab h, (condition_broadcast_memOnly h₁).thrtab]
  rfl

theorem thread_yield_thrtab (h : k.thread_yield = some k') : k'.thrtab = k.thrtab := by
  simp only [thread_yield, Option.bind_eq_bind, Option.bind_eq_some] at h
  obtain ⟨-, -, h⟩ := h
  exact suspend_self_thrtab h

theorem freeSlot_spec {start : Nat} {i : Fin NTHR} (h : k.freeSlot start = some i) :
    start ≤ i.val ∧ k.thrtab i = none := by
  simpa using List.find?_some h

@[simp] theorem reparentSlot_thrtab (thr : Ptr) (k : Kernel) (i : Fin NTHR) :
    (reparentSlot thr k i).thrtab = k.thrtab := by
  unfold reparentSlot; split
  · split <;> rfl
  · rfl

theorem foldl_reparentSlot_thrtab (thr : Ptr) (is : List (Fin NTHR)) (k : Kernel) :
    (is.foldl (reparentSlot thr) k).thrtab = k.thrtab := by
  induction is generalizing k with
  | nil => rfl
  | cons i is ih => rw [List.foldl_cons, ih, reparentSlot_thrtab]

theorem recycle_thread_thrtab {tid : Nat} (h : k.recycle_thread tid = some k') :
    ∃ i : Fin NTHR, 0 < i.val ∧ i.val = tid ∧ k'.thrtab = store k.thrtab i none := by
  unfold recycle_thread at h
  split at h
  · rename_i range
    simp only [Option.bind_eq_bind, Option.bind_eq_some, pure, Option.some.injEq] at h
    obtain ⟨-, -, -, -, rfl⟩ := h
    exact ⟨⟨tid, range.2⟩, range.1, rfl, by rw [foldl_reparentSlot_thrtab]⟩
  · cases h

theorem thread_spawn_thrtab {L : Layout} {child : Ptr} {blk : Thread} {page : Addr} {tid : Nat}
    (h : k.thread_spawn L child blk page = some (k', tid)) :
    ∃ i : Fin NTHR, 1 ≤ i.val ∧ k.thrtab i = none ∧ k'.thrtab = store k.thrtab i (some child) := by
  simp only [thread_spawn, Option.bind_eq_bind, Option.bind_eq_some, pure, Option.some.injEq,
    Prod.mk.injEq] at h
  obtain ⟨i, hi, k₁, h₁, rfl, -⟩ := h
  exact ⟨i, (freeSlot_spec hi).1, (freeSlot_spec hi).2, (tlinsert_memOnly h₁).thrtab⟩

theorem thread_fork_to_user_thrtab {L : Layout} {child_proc : Nat} {block : Addr} {child : Ptr}
    {blk : Thread} {tid : Nat}
    (h : k.thread_fork_to_user L child_proc block child blk = some (k', tid)) :
    ∃ i : Fin NTHR, i.val = tid ∧ k.thrtab i = none ∧
      k'.thrtab = store k.thrtab i (some child) := by
  simp only [thread_fork_to_user, Option.bind_eq_bind, Option.bind_eq_some, pure, Option.some.injEq,
    Prod.mk.injEq] at h
  obtain ⟨i, hi, k₁, h₁, rfl, rfl⟩ := h
  exact ⟨i, rfl, (freeSlot_spec hi).2, (tlinsert_memOnly h₁).thrtab⟩

/-! ## One action -/

/-- How an action can change `thrtab`: not at all, by filling an empty slot, or
by emptying a slot other than `MAIN_TID`. -/
inductive SlotChange (k k' : Kernel) : Prop
  | same : k'.thrtab = k.thrtab → SlotChange k k'
  | fill (i : Fin NTHR) (t : Ptr) : k.thrtab i = none →
      k'.thrtab = store k.thrtab i (some t) → SlotChange k k'
  | clear (i : Fin NTHR) : 0 < i.val → k'.thrtab = store k.thrtab i none →
      SlotChange k k'

theorem SlotChange.of_thrtab {k₁ : Kernel} (change : SlotChange k k₁) (same : k'.thrtab = k₁.thrtab) :
    SlotChange k k' := by
  cases change with
  | same eq => exact .same (same.trans eq)
  | fill i t empty eq => exact .fill i t empty (same.trans eq)
  | clear i pos eq => exact .clear i pos (same.trans eq)

theorem recycle_thread_slotChange {tid : Nat} (h : k.recycle_thread tid = some k') :
    SlotChange k k' :=
  let ⟨i, pos, _, eq⟩ := recycle_thread_thrtab h
  .clear i pos eq

theorem joinLoop_slotChange {tid : Nat} {child : Ptr} {v : Option Int}
    (h : k.joinLoop tid child = some (k', v)) : SlotChange k k' := by
  unfold joinLoop at h
  split at h <;> obtain ⟨k₁, h₁, eq⟩ := Option.map_eq_some'.mp h <;> cases eq
  · exact recycle_thread_slotChange h₁
  · exact .same (condition_wait_thrtab h₁)

/-- A call of `thread_join` that does not fault either refuses, changing
nothing, or goes into its loop on a child of the caller in a slot from `1` on. -/
theorem thread_join_cases {tid : Int} {v : Option Int} (h : k.thread_join tid = some (k', v)) :
    k' = k ∧ v = some (-1) ∨ ∃ (i : Fin NTHR) (child : Ptr), tid = i.val ∧ 1 ≤ i.val ∧
      k.thrtab i = some child ∧ (k.mem child).parent = some k.tp ∧ k.joinLoop i.val child = some (k', v) := by
  unfold thread_join at h
  split at h
  · rename_i range
    dsimp only at h
    split at h
    · cases h; exact .inl ⟨rfl, rfl⟩
    split at h
    · cases h; exact .inl ⟨rfl, rfl⟩
    rename_i child slot
    split at h
    · cases h; exact .inl ⟨rfl, rfl⟩
    exact .inr ⟨⟨tid.toNat, by omega⟩, child, by simp only; omega, by simp only; omega, slot, not_not.mp ‹_›, h⟩
  · cases h

theorem thread_join_slotChange {tid : Int} {v : Option Int}
    (h : k.thread_join tid = some (k', v)) : SlotChange k k' := by
  rcases thread_join_cases h with ⟨rfl, -⟩ | ⟨i, child, -, -, -, -, h⟩
  · exact .same rfl
  · exact joinLoop_slotChange h

theorem thread_join_any_slotChange {v : Option Int} (h : k.thread_join_any = some (k', v)) :
    SlotChange k k' := by
  unfold thread_join_any at h
  split at h
  · exact thread_join_slotChange h
  · split at h
    · obtain ⟨k₁, h₁, eq⟩ := Option.map_eq_some'.mp h
      cases eq
      exact .same (condition_wait_thrtab h₁)
    · cases h

theorem joinAnyWake_slotChange {v : Option Int} (h : k.joinAnyWake = some (k', v)) :
    SlotChange k k' := by
  simp only [joinAnyWake, Option.bind_eq_bind, Option.bind_eq_some, pure, Option.some.injEq,
    Prod.mk.injEq] at h
  obtain ⟨i, -, k₁, h₁, rfl, -⟩ := h
  exact recycle_thread_slotChange h₁

theorem step_slotChange {L : Layout} {fuel : Nat} {a : Act} (h : k.step L fuel a = some k') :
    SlotChange k k' := by
  unfold step at h
  split at h
  · cases h
  split at h
  case h_1 =>
    split at h
    · obtain ⟨⟨k₁, tid⟩, h₁, rfl⟩ := Option.map_eq_some'.mp h
      obtain ⟨i, -, empty, eq⟩ := thread_spawn_thrtab h₁
      exact .fill i _ empty eq
    · cases h
  case h_2 =>
    split at h
    · obtain ⟨⟨k₁, tid⟩, h₁, rfl⟩ := Option.map_eq_some'.mp h
      obtain ⟨i, -, empty, eq⟩ := thread_fork_to_user_thrtab h₁
      exact .fill i _ empty eq
    · cases h
  case h_3 => exact .same (thread_yield_thrtab h)
  case h_4 => exact .same (thread_exit_thrtab h)
  case h_5 =>
    obtain ⟨⟨k₁, v⟩, h₁, rfl⟩ := Option.map_eq_some'.mp h
    exact thread_join_slotChange h₁
  case h_6 =>
    obtain ⟨⟨k₁, v⟩, h₁, rfl⟩ := Option.map_eq_some'.mp h
    exact thread_join_any_slotChange h₁
  case h_7 => exact .same (condition_wait_thrtab h)
  case h_8 => exact .same (condition_broadcast_memOnly h).thrtab
  case h_9 =>
    obtain ⟨⟨k₁, v⟩, h₁, rfl⟩ := Option.map_eq_some'.mp h
    exact (joinLoop_slotChange h₁).of_thrtab (thrtab_returned _)
  case h_10 =>
    obtain ⟨⟨k₁, v⟩, h₁, rfl⟩ := Option.map_eq_some'.mp h
    exact (joinAnyWake_slotChange h₁).of_thrtab (thrtab_returned _)
  case h_11 => cases h

theorem SlotChange.main_slot {t : Ptr} (change : SlotChange k k') (h : k.thrtab MAIN_TID = some t) :
    k'.thrtab MAIN_TID = some t := by
  cases change with
  | same eq => rwa [eq]
  | fill i u empty eq =>
    have : MAIN_TID ≠ i := fun same => by simp_all
    rwa [eq, store_of_ne _ _ _ this]
  | clear i pos eq =>
    have : MAIN_TID ≠ i := fun same => by subst same; exact absurd pos (by decide)
    rwa [eq, store_of_ne _ _ _ this]

end Kernel

/-- The main thread stays in slot `MAIN_TID` in every reachable state. -/
theorem Reachable.main_slot {L : Layout} {k : Kernel} (reach : Reachable L k) :
    k.thrtab MAIN_TID = some main_thread := by
  induction reach with
  | init mem0 _ => rfl
  | step fuel a _ stepped ih => exact (Kernel.step_slotChange stepped).main_slot ih

end OsKernel.Threads
