import OsKernel.Thread.Frame
import OsKernel.Thread.Invariant

/-! # Kernel stacks

`thread_spawn` takes a page from `memory_alloc_page` and `thread_fork_to_user`
a page-sized block from `kmalloc`; both put the stack anchor at the top and set
`stack_base` to the anchor's address, `sizeof (struct thread_stack_anchor)`
bytes below the end of the page.  `suspend_self` releases
`stack_base - PAGE_SIZE` of the thread it switched away from, and only in the
thread that resumes inside `suspend_self`.

So the release misses the page by the size of the anchor, and a thread that
exits while the next thread on the ready list is a fresh one (entering through
`_thread_setup`) or a forking parent (returning through `_thread_finish_fork`)
keeps its stack forever.
-/

namespace OsKernel.Threads

namespace Kernel

variable {k k' : Kernel}

/-! ## Stack bases -/

@[simp] theorem setNext_stack_base (t u : Ptr) (n : Option Ptr) :
    ((k.setNext t n).mem u).stack_base = (k.mem u).stack_base := by
  simp only [setNext, modify_mem]; split <;> simp_all

@[simp] theorem setState_stack_base (t u : Ptr) (s : ThreadState) :
    ((k.setState t s).mem u).stack_base = (k.mem u).stack_base := by
  simp only [setState, modify_mem]; split <;> simp_all

@[simp] theorem setList_stack_base (L : ListRef) (h : ThreadList) (u : Ptr) :
    ((k.setList L h).mem u).stack_base = (k.mem u).stack_base := by
  rcases L with _ | ⟨t | c⟩ <;> simp only [setList, modify_mem]
  split <;> simp_all

theorem tlinsert_stack_base {L : ListRef} {t : Ptr} (h : k.tlinsert L t = some k') (u : Ptr) :
    (k'.mem u).stack_base = (k.mem u).stack_base := by
  dsimp only [tlinsert] at h
  split at h <;> simp only [Option.bind_eq_bind, check_bind_eq_some, pure, Option.some.injEq] at h
    <;> obtain ⟨-, rfl⟩ := h <;> simp

/-- `thread_spawn` puts the new thread's stack anchor at the top of the page
and records the page as the new thread's stack; no other stack moves and
nothing is released. -/
theorem thread_spawn_stack {L : Layout} {child : Ptr} {blk : Thread} {page : Addr} {tid : Nat}
    (h : k.thread_spawn L child blk page = some (k', tid)) :
    (k'.mem child).stack_base = page + PAGE_SIZE - BitVec.ofNat 64 L.anchorSize ∧
      k'.stackBlocks = (child, page) :: k.stackBlocks ∧
      (∀ u, u ≠ child → (k'.mem u).stack_base = (k.mem u).stack_base) ∧ k'.freed = k.freed := by
  simp only [thread_spawn, Option.bind_eq_bind, Option.bind_eq_some, pure, Option.some.injEq,
    Prod.mk.injEq] at h
  obtain ⟨i, -, k₁, h₁, rfl, -⟩ := h
  refine ⟨?_, (tlinsert_memOnly h₁).stackBlocks, fun u ne => ?_, (tlinsert_memOnly h₁).freed⟩
  · simp [tlinsert_stack_base h₁]
  · rw [modify_mem_of_ne _ _ ne, tlinsert_stack_base h₁]
    simp [setState, modify_mem, ne, store_apply]

/-- `thread_fork_to_user` puts the new thread's stack base under the anchor at
the top of the block and records the block as the new thread's stack; no other
stack moves and nothing is released. -/
theorem thread_fork_to_user_stack {L : Layout} {child_proc : Nat} {block : Addr} {child : Ptr}
    {blk : Thread} {tid : Nat}
    (h : k.thread_fork_to_user L child_proc block child blk = some (k', tid)) :
    (k'.mem child).stack_base = block + PAGE_SIZE - BitVec.ofNat 64 L.anchorSize ∧
      k'.stackBlocks = (child, block) :: k.stackBlocks ∧
      (∀ u, u ≠ child → (k'.mem u).stack_base = (k.mem u).stack_base) ∧ k'.freed = k.freed := by
  simp only [thread_fork_to_user, Option.bind_eq_bind, Option.bind_eq_some, pure,
    Option.some.injEq, Prod.mk.injEq] at h
  obtain ⟨i, -, k₁, h₁, rfl, -⟩ := h
  refine ⟨?_, (tlinsert_memOnly h₁).stackBlocks, fun u ne => ?_, (tlinsert_memOnly h₁).freed⟩
  · rw [modify_mem]
    split <;> simp [tlinsert_stack_base h₁, *]
  · rw [modify_mem]
    split
    · subst u
      simp [tlinsert_stack_base h₁, setState, modify_mem, ne, store_apply]
    · simp [tlinsert_stack_base h₁, setState, modify_mem, ne, store_apply, *]

/-! ## Functions that move no stack -/

/-- `k'` has the stack bases, the stack blocks and the releases of `k`. -/
structure StackSame (k k' : Kernel) : Prop where
  stack_base : ∀ u, (k'.mem u).stack_base = (k.mem u).stack_base
  stackBlocks : k'.stackBlocks = k.stackBlocks
  freed : k'.freed = k.freed

theorem StackSame.refl (k : Kernel) : StackSame k k := ⟨fun _ => rfl, rfl, rfl⟩

theorem StackSame.trans {k'' : Kernel} (h : StackSame k k') (h' : StackSame k' k'') : StackSame k k'' :=
  ⟨fun u => (h'.stack_base u).trans (h.stack_base u), h'.stackBlocks.trans h.stackBlocks, h'.freed.trans h.freed⟩

theorem StackSame.modify (k : Kernel) (t : Ptr) {f : Thread → Thread}
    (keeps : (f (k.mem t)).stack_base = (k.mem t).stack_base) : StackSame k (k.modify t f) :=
  ⟨fun u => by rw [modify_mem]; split <;> simp_all, rfl, rfl⟩

theorem StackSame.setNext (k : Kernel) (t : Ptr) (n : Option Ptr) : StackSame k (k.setNext t n) :=
  .modify k t rfl

theorem StackSame.setState (k : Kernel) (t : Ptr) (s : ThreadState) : StackSame k (k.setState t s) :=
  .modify k t rfl

theorem StackSame.setList (k : Kernel) (L : ListRef) (h : ThreadList) : StackSame k (k.setList L h) :=
  ⟨setList_stack_base L h, (MemOnly.setList k L h).stackBlocks, (MemOnly.setList k L h).freed⟩

theorem tlinsert_stackSame {L : ListRef} {t : Ptr} (h : k.tlinsert L t = some k') : StackSame k k' :=
  ⟨tlinsert_stack_base h, (tlinsert_memOnly h).stackBlocks, (tlinsert_memOnly h).freed⟩

theorem tlremove_stackSame (k : Kernel) (L : ListRef) : StackSame k (k.tlremove L).2 := by
  unfold tlremove; split
  · exact .refl k
  · dsimp only
    split
    · exact (StackSame.setList _ _ _).trans (.setNext _ _ _) |>.trans (.setNext _ _ _)
    · exact (StackSame.setList _ _ _).trans (.setList _ _ _) |>.trans (.setNext _ _ _)

theorem tlappend_stackSame {L0 L1 : ListRef} (h : k.tlappend L0 L1 = some k') : StackSame k k' := by
  unfold tlappend at h
  have clear (k₁ : Kernel) (h₁ : StackSame k k₁) : StackSame k
      ((k₁.setList L1 { k₁.list L1 with head := none }).setList L1
        { (k₁.setList L1 { k₁.list L1 with head := none }).list L1 with tail := none }) :=
    h₁.trans ((StackSame.setList _ _ _).trans (.setList _ _ _))
  split at h <;> (try split at h) <;> simp only [Option.bind_eq_bind, Option.none_bind,
    Option.some_bind, pure, Option.some.injEq, reduceCtorEq] at h <;> subst h
  · exact clear _ ((StackSame.setNext _ _ _).trans (.setList _ _ _))
  · exact clear _ (.refl _)
  · exact clear _ ((StackSame.setList _ _ _).trans (.setList _ _ _))

theorem dispatch_stackSame {next : Ptr} (h : k.dispatch = some (next, k')) : StackSame k k' := by
  simp only [dispatch, Option.bind_eq_bind, Option.bind_eq_some] at h
  obtain ⟨-, -, n, -, -, -, h⟩ := h
  have running := (tlremove_stackSame k .ready).trans (.setState _ n .running)
  split at h
  · obtain ⟨k₁, h₁, h⟩ := Option.bind_eq_some.mp h
    cases h
    exact running.trans (.setState _ _ _) |>.trans (tlinsert_stackSame h₁)
  · cases h
    exact running

theorem wakeAll_stackSame {c : Cond} {fuel : Nat} {t : Option Ptr} (h : wakeAll c fuel k t = some k') :
    StackSame k k' := by
  induction fuel generalizing k t with
  | zero => cases t <;> simp only [wakeAll, Option.some.injEq, reduceCtorEq] at h; exact h ▸ .refl k
  | succ fuel ih =>
    cases t with
    | none => simp only [wakeAll, Option.some.injEq] at h; exact h ▸ .refl k
    | some t =>
      simp only [wakeAll, Option.bind_eq_bind, Option.bind_eq_some] at h
      obtain ⟨-, -, -, -, h⟩ := h
      exact (StackSame.setState _ _ _).trans (.modify _ _ rfl) |>.trans (ih h)

theorem condition_broadcast_stackSame {fuel : Nat} {c : Cond} (h : k.condition_broadcast fuel c = some k') :
    StackSame k k' := by
  unfold condition_broadcast at h
  split at h
  · cases h; exact .refl k
  · simp only [Option.bind_eq_bind, Option.bind_eq_some, pure, Option.some.injEq] at h
    obtain ⟨k₁, h₁, k₂, h₂, rfl⟩ := h
    exact (wakeAll_stackSame h₁).trans (tlappend_stackSame h₂) |>.trans (.setList _ _ _)

theorem recycle_thread_stackSame {tid : Nat} (h : k.recycle_thread tid = some k') : StackSame k k' := by
  have loop (is : List (Fin NTHR)) (k : Kernel) (thr : Ptr) : StackSame k (is.foldl (reparentSlot thr) k) := by
    induction is generalizing k with
    | nil => exact .refl k
    | cons i is ih =>
      refine .trans ?_ (ih _)
      unfold reparentSlot; split
      · split
        · exact .modify _ _ rfl
        · exact .refl k
      · exact .refl k
  unfold recycle_thread at h
  split at h
  · simp only [Option.bind_eq_bind, Option.bind_eq_some, pure, Option.some.injEq] at h
    obtain ⟨thr, -, -, -, rfl⟩ := h
    exact (loop _ _ _).trans ⟨fun _ => rfl, rfl, rfl⟩
  · cases h

/-! ## Releases -/

/-- `_thread_swtch` keeps the stack blocks and moves no stack base but that of
the thread it switches away from, once that thread has exited; the only page it
can release is the one under that stack base. -/
theorem thread_swtch_stack (k : Kernel) (susp next : Ptr) (r : Ctl) :
    (k.thread_swtch susp next r).stackBlocks = k.stackBlocks ∧
      (∀ u, u ≠ susp ∨ (k.mem susp).state ≠ .exited →
        ((k.thread_swtch susp next r).mem u).stack_base = (k.mem u).stack_base) ∧
      ((k.thread_swtch susp next r).freed = k.freed ∨ (k.mem susp).state = .exited ∧
        (k.thread_swtch susp next r).freed = ((k.mem susp).stack_base - PAGE_SIZE) :: k.freed) := by
  have saved := StackSame.modify k susp (f := fun r' => { r' with context := .suspended r }) rfl
  unfold thread_swtch
  dsimp only
  split
  · exact ⟨rfl, fun u _ => saved.stack_base u, .inl rfl⟩
  · exact ⟨rfl, fun u _ => saved.stack_base u, .inl rfl⟩
  · split
    · rename_i exited
      simp only [modify_mem_self] at exited
      refine ⟨rfl, fun u kept => ?_, .inr ⟨exited, by simp [memory_free_page]⟩⟩
      rw [modify_mem_of_ne _ _ (kept.resolve_right (not_not.mpr exited))]
      exact saved.stack_base u
    · exact ⟨rfl, fun u _ => saved.stack_base u, .inl rfl⟩
  · exact ⟨rfl, fun u _ => saved.stack_base u, .inl rfl⟩

end Kernel

/-! ## Two runs -/

/-- The main thread spawns threads at `10` and `11`; once the main and the idle
thread have yielded, the thread at `10` exits and the fresh thread at `11`
runs next, so nothing is released.  The main thread then reaps the thread at
`10`: its page is still allocated, and no thread will ever switch away from it
again. -/
theorem fresh_successor_leaks_stack : ∃ k, Reachable bootLayout k ∧ ∃ t page, (t, page) ∈ k.stackBlocks ∧
    (k.mem t).state = .exited ∧ ¬ k.Live t ∧ k.freed = [] := by
  obtain ⟨k, ran⟩ : ∃ k, (thread_init bootLayout fun _ => blank).run bootLayout 1
      [.spawn 10 blank 0x90000000, .spawn 11 blank 0x90001000, .yield, .yield, .exit, .yield,
        .join 1] = some k := Option.isSome_iff_exists.mp (by decide)
  have facts := Kernel.run_observe (fun k => (decide ((10, 0x90000000) ∈ k.stackBlocks),
    (k.mem 10).state, decide (∀ i, k.thrtab i ≠ some 10), k.freed)) ran
    (v := (true, .exited, true, [])) (by decide)
  simp only [Prod.mk.injEq, decide_eq_true_eq] at facts
  obtain ⟨stack, exited, gone, freed⟩ := facts
  exact ⟨k, (Reachable.init _ fun _ => rfl).run ran, 10, _, stack, exited, fun ⟨i, hi⟩ => gone i hi, freed⟩

/-- The main thread spawns a thread at `10` on the page at `0x90000000`; once the
main and the idle thread have yielded, it exits and the main thread resumes
inside `suspend_self`, which releases `0x8FFFFFF0`, the page minus the 16 bytes
of the anchor. -/
theorem exit_frees_below_page : ∃ k, Reachable bootLayout k ∧ (10, 0x90000000) ∈ k.stackBlocks ∧
    k.freed = [0x8FFFFFF0] := by
  obtain ⟨k, ran⟩ : ∃ k, (thread_init bootLayout fun _ => blank).run bootLayout 1
      [.spawn 10 blank 0x90000000, .yield, .yield, .exit] = some k :=
    Option.isSome_iff_exists.mp (by decide)
  have facts := Kernel.run_observe (fun k => (decide ((10, 0x90000000) ∈ k.stackBlocks), k.freed)) ran
    (v := (true, [0x8FFFFFF0])) (by decide)
  simp only [Prod.mk.injEq, decide_eq_true_eq] at facts
  exact ⟨k, (Reachable.init _ fun _ => rfl).run ran, facts⟩

end OsKernel.Threads
