import OsKernel.Thread.AnyRun
import OsKernel.Thread.Stack
import Mathlib.Data.BitVec

/-! # Where every released stack lies

`thread_spawn` and `thread_fork_to_user` set a new thread's `stack_base` to the
anchor under the top of the block they hand out, and `suspend_self` releases
`stack_base - PAGE_SIZE` of an exited predecessor.  Nothing else moves a stack
base, and a thread releases its stack only on its way out of `thread_exit`,
while its stack base is still the one its creator set: the main thread does not
exit, and the idle thread never calls `thread_exit`.

`Released` is this bookkeeping as an invariant of every run, whatever
`kmalloc` and `memory_alloc_page` return: every thread but the main and the idle
thread that can still be resumed has its stack base at the anchor of a block
handed out to it, and every released address lies the anchor's size below a
handed-out block.  `KeepsStacks` says of the scheduler functions other than the
creators and `thread_exit` that they move no stack and change where a thread
resumes only for their caller.

**Main result**: `reachable_releases_miss_block`, the run-level form of
`exit_frees_below_page`: no release on any run is of the block it was meant to
give back.
-/

namespace OsKernel.Threads

namespace Kernel

variable {k k' : Kernel}

/-! ## Stacks across one scheduler function -/

/-- `suspend_self` keeps the stack blocks and moves no stack but its caller's,
whose page it releases only once the caller has exited. -/
theorem suspend_self_stack {r : Ctl} (h : k.suspend_self r = some k') :
    k'.stackBlocks = k.stackBlocks ∧
      (∀ u, u ≠ k.tp ∨ (k.mem k.tp).state ≠ .exited → (k'.mem u).stack_base = (k.mem u).stack_base) ∧
      (k'.freed = k.freed ∨ (k.mem k.tp).state = .exited ∧
        k'.freed = ((k.mem k.tp).stack_base - PAGE_SIZE) :: k.freed) := by
  simp only [suspend_self, Option.bind_eq_bind, Option.bind_eq_some, pure, Option.some.injEq] at h
  obtain ⟨⟨next, k₁⟩, dispatched, rfl⟩ := h
  have same := dispatch_stackSame dispatched
  have exited := (dispatch_settled dispatched).exited k.tp
  obtain ⟨blocks, bases, freed⟩ := k₁.thread_swtch_stack k.tp next r
  refine ⟨blocks.trans same.stackBlocks, fun u kept => ?_, ?_⟩
  · exact (bases u (kept.imp_right (mt exited.mp))).trans (same.stack_base u)
  · rw [same.freed, same.stack_base] at freed
    exact freed.imp_right fun ⟨ex, released⟩ => ⟨exited.mp ex, released⟩

theorem suspend_self_stackSame {r : Ctl} (h : k.suspend_self r = some k')
    (alive : (k.mem k.tp).state ≠ .exited) : StackSame k k' :=
  have ⟨blocks, bases, freed⟩ := suspend_self_stack h
  ⟨fun u => bases u (.inr alive), blocks, freed.resolve_right fun ⟨ex, _⟩ => alive ex⟩

theorem thread_yield_stackSame (h : k.thread_yield = some k') : StackSame k k' := by
  simp only [thread_yield, Option.bind_eq_bind, Option.bind_eq_some] at h
  obtain ⟨_, running, h⟩ := h
  rw [check_eq_some] at running
  exact suspend_self_stackSame h (by rw [running]; decide)

theorem condition_wait_stackSame {c : Cond} {r : Ctl} (h : k.condition_wait c r = some k') : StackSame k k' := by
  simp only [condition_wait, Option.bind_eq_bind, Option.bind_eq_some] at h
  obtain ⟨-, -, k₁, inserted, h⟩ := h
  have tp₁ : k₁.tp = k.tp := (tlinsert_memOnly inserted).tp
  have waiting : (k₁.mem k₁.tp).state = .waiting := by
    rw [tp₁, show (k₁.mem k.tp).state = _ from (tlinsert_relinked inserted).state k.tp]
    simp
  exact (StackSame.setState _ _ _).trans (.modify _ _ rfl) |>.trans (.setNext _ _ _) |>.trans
    (tlinsert_stackSame inserted) |>.trans (suspend_self_stackSame h (by rw [waiting]; decide))

/-- `thread_exit` keeps the stack blocks and every stack but its caller's, and
releases at most the page under its caller's stack base. -/
theorem thread_exit_stack {fuel : Nat} (h : k.thread_exit fuel = some k') :
    k.tp ≠ main_thread ∧ k'.stackBlocks = k.stackBlocks ∧
      (∀ u, u ≠ k.tp → (k'.mem u).stack_base = (k.mem u).stack_base) ∧
      (k'.freed = k.freed ∨ k'.freed = ((k.mem k.tp).stack_base - PAGE_SIZE) :: k.freed) := by
  simp only [thread_exit, Option.bind_eq_bind, Option.bind_eq_some] at h
  obtain ⟨_, not_main, parent, -, k₁, broadcast, h⟩ := h
  rw [check_eq_some] at not_main
  have same := (StackSame.setState k k.tp .exited).trans (condition_broadcast_stackSame broadcast)
  have tp₁ : k₁.tp = k.tp := (condition_broadcast_memOnly broadcast).tp
  obtain ⟨blocks, bases, freed⟩ := suspend_self_stack h
  refine ⟨not_main, blocks.trans same.stackBlocks,
    fun u ne => (bases u (.inl (tp₁ ▸ ne))).trans (same.stack_base u), ?_⟩
  rw [same.freed, tp₁, same.stack_base] at freed
  exact freed.imp_right And.right

/-- `k'` has the stacks of `k`, and every thread but the one running in `k`
resumes where it did. -/
structure KeepsStacks (k k' : Kernel) extends StackSame k k' : Prop where
  resumes : ∀ u, u ≠ k.tp → k'.resumeAt u = k.resumeAt u

theorem KeepsStacks.refl (k : Kernel) : KeepsStacks k k := ⟨.refl k, fun _ _ => rfl⟩

theorem KeepsStacks.of_caller (same : StackSame k k') {r : Ctl}
    (resumes : ∀ u, k'.resumeAt u = if u = k.tp then r else k.resumeAt u) : KeepsStacks k k' :=
  ⟨same, fun u ne => (resumes u).trans (if_neg ne)⟩

theorem KeepsStacks.of_resumeAt (same : StackSame k k') (resumes : k'.resumeAt = k.resumeAt) :
    KeepsStacks k k' :=
  ⟨same, fun u _ => congrFun resumes u⟩

theorem thread_yield_keepsStacks (h : k.thread_yield = some k') : KeepsStacks k k' :=
  .of_caller (thread_yield_stackSame h) (thread_yield_resumeAt h)

theorem condition_wait_keepsStacks {c : Cond} {r : Ctl} (h : k.condition_wait c r = some k') :
    KeepsStacks k k' :=
  .of_caller (condition_wait_stackSame h) (condition_wait_resumeAt h)

theorem condition_broadcast_keepsStacks {fuel : Nat} {c : Cond} (h : k.condition_broadcast fuel c = some k') :
    KeepsStacks k k' :=
  .of_resumeAt (condition_broadcast_stackSame h) (condition_broadcast_resumeAt h)

theorem recycle_thread_keepsStacks {tid : Nat} (h : k.recycle_thread tid = some k') : KeepsStacks k k' :=
  .of_resumeAt (recycle_thread_stackSame h) (recycle_thread_resumeAt h)

theorem joinLoop_keepsStacks {tid : Nat} {child : Ptr} {v : Option Int}
    (h : k.joinLoop tid child = some (k', v)) : KeepsStacks k k' := by
  unfold joinLoop at h
  split at h <;> obtain ⟨k₁, h₁, eq⟩ := Option.map_eq_some'.mp h <;> cases eq
  · exact recycle_thread_keepsStacks h₁
  · exact condition_wait_keepsStacks h₁

theorem thread_join_keepsStacks {tid : Int} {v : Option Int} (h : k.thread_join tid = some (k', v)) :
    KeepsStacks k k' := by
  rcases thread_join_cases h with ⟨rfl, -⟩ | ⟨i, child, -, -, -, -, h⟩
  · exact .refl _
  · exact joinLoop_keepsStacks h

theorem thread_join_any_keepsStacks {v : Option Int} (h : k.thread_join_any = some (k', v)) :
    KeepsStacks k k' := by
  unfold thread_join_any at h
  split at h
  · exact thread_join_keepsStacks h
  · split at h
    · obtain ⟨k₁, h₁, eq⟩ := Option.map_eq_some'.mp h
      cases eq
      exact condition_wait_keepsStacks h₁
    · cases h

theorem joinAnyWake_keepsStacks {v : Option Int} (h : k.joinAnyWake = some (k', v)) : KeepsStacks k k' := by
  simp only [joinAnyWake, Option.bind_eq_bind, Option.bind_eq_some, pure, Option.some.injEq,
    Prod.mk.injEq] at h
  obtain ⟨i, -, k₁, h₁, rfl, -⟩ := h
  exact recycle_thread_keepsStacks h₁

/-- A join that returns its value goes back to its caller, and moves nothing. -/
theorem returned_keepsStacks (r : Kernel × Option Int) : KeepsStacks r.1 (returned r) := by
  obtain ⟨k, _ | w⟩ := r
  · exact .refl _
  · exact ⟨⟨fun _ => rfl, rfl, rfl⟩, fun u ne => by simp only [returned, resumeAt, if_neg ne]⟩

end Kernel

/-! ## The invariant of every run -/

/-- The stack bookkeeping of every run: each thread but the main and the idle
thread that can still be resumed has its stack base at the anchor under the top
of a block handed out to it, and every released address lies the anchor's size
below a handed-out block. -/
structure Released (L : Layout) (k : Kernel) : Prop where
  bases : ∀ t, t ≠ main_thread → t ≠ idle_thread → ¬ (k.resumeAt t).Halted →
    ∃ page, (t, page) ∈ k.stackBlocks ∧ (k.mem t).stack_base = page + PAGE_SIZE - BitVec.ofNat 64 L.anchorSize
  freed : ∀ a ∈ k.freed, ∃ t page, (t, page) ∈ k.stackBlocks ∧ a = page - BitVec.ofNat 64 L.anchorSize

open Kernel

variable {L : Layout} {k k' : Kernel}

/-- A function that moves no stack and changes where a thread resumes only for
its caller keeps `Released`, when the machine had not halted. -/
theorem Released.keep (rel : Released L k) (going : ¬ k.ctl.Halted) (keeps : KeepsStacks k k') :
    Released L k' := by
  refine ⟨fun t main idle after => ?_, fun a mem => ?_⟩
  · have before : ¬ (k.resumeAt t).Halted := by
      by_cases is_tp : t = k.tp
      · rwa [is_tp, resumeAt_tp]
      · rwa [← keeps.resumes t is_tp]
    rw [keeps.stackBlocks, keeps.stack_base]
    exact rel.bases t main idle before
  · rw [keeps.stackBlocks]
    exact rel.freed a (keeps.freed ▸ mem)

theorem Released.returned {r : Kernel × Option Int} (rel : Released L r.1)
    (going : r.2.isSome → ¬ r.1.ctl.Halted) : Released L (returned r) := by
  obtain ⟨k, _ | w⟩ := r
  · exact rel
  · exact rel.keep (going rfl) (returned_keepsStacks _)

/-- A creator that hands out the block `page` to `child`, with its stack base at
the anchor, keeps `Released` when it moves no other stack, releases nothing and
makes no other thread resumable. -/
theorem Released.add_block (rel : Released L k) {child : Ptr} {page : Addr}
    (base : (k'.mem child).stack_base = page + PAGE_SIZE - BitVec.ofNat 64 L.anchorSize)
    (blocks : k'.stackBlocks = (child, page) :: k.stackBlocks)
    (bases : ∀ u, u ≠ child → (k'.mem u).stack_base = (k.mem u).stack_base) (freed : k'.freed = k.freed)
    (before : ∀ t, t ≠ child → ¬ (k'.resumeAt t).Halted → ¬ (k.resumeAt t).Halted) : Released L k' := by
  refine ⟨fun t main idle after => ?_, fun a mem => ?_⟩
  · rw [blocks]
    by_cases is_child : t = child
    · exact ⟨page, is_child ▸ List.mem_cons_self _ _, is_child ▸ base⟩
    · obtain ⟨page', block, base'⟩ := rel.bases t main idle (before t is_child after)
      exact ⟨page', List.mem_cons_of_mem _ block, (bases t is_child).trans base'⟩
  · obtain ⟨t, page', block, eq⟩ := rel.freed a (freed ▸ mem)
    exact ⟨t, page', blocks ▸ List.mem_cons_of_mem _ block, eq⟩

theorem Released.thread_spawn {child : Ptr} {blk : Thread} {page : Addr} {tid : Nat} (rel : Released L k)
    (fresh : k.Fresh child) (live : k.Live k.tp) (h : k.thread_spawn L child blk page = some (k', tid)) :
    Released L k' :=
  have ⟨base, blocks, bases, freed⟩ := thread_spawn_stack h
  rel.add_block base blocks bases freed fun t is_child after => by
    rwa [thread_spawn_resumeAt (fresh.ne_of_live live).symm h, if_neg is_child] at after

theorem Released.thread_fork_to_user {child_proc : Nat} {block : Addr} {child : Ptr} {blk : Thread} {tid : Nat}
    (rel : Released L k) (going : ¬ k.ctl.Halted)
    (h : k.thread_fork_to_user L child_proc block child blk = some (k', tid)) : Released L k' :=
  have ⟨base, blocks, bases, freed⟩ := thread_fork_to_user_stack h
  rel.add_block base blocks bases freed fun t is_child after => by
    by_cases is_tp : t = k.tp
    · rwa [is_tp, resumeAt_tp]
    · rwa [thread_fork_to_user_resumeAt h, if_neg (not_or.mpr ⟨is_child, is_tp⟩)] at after

/-- `thread_exit` keeps `Released`: the page it may release is under the stack
base its caller's creator set, and its caller never resumes again. -/
theorem Released.thread_exit {fuel : Nat} (rel : Released L k) (going : ¬ k.ctl.Halted)
    (not_idle : k.tp ≠ idle_thread) (h : k.thread_exit fuel = some k') : Released L k' := by
  obtain ⟨not_main, blocks, bases, freed⟩ := thread_exit_stack h
  have resumes := thread_exit_resumeAt h
  refine ⟨fun t main idle after => ?_, fun a mem => ?_⟩
  · have ne : t ≠ k.tp := fun is_tp => after (by rw [resumes, if_pos is_tp]; trivial)
    rw [blocks, bases t ne]
    exact rel.bases t main idle (by rwa [resumes, if_neg ne] at after)
  · rw [blocks]
    rcases freed with same | released
    · exact rel.freed a (same ▸ mem)
    · rcases List.mem_cons.mp (released ▸ mem) with rfl | old
      · obtain ⟨page, block, base⟩ := rel.bases k.tp not_main not_idle (by rwa [resumeAt_tp])
        exact ⟨k.tp, page, block, by rw [base, add_sub_right_comm, add_sub_cancel_right]⟩
      · exact rel.freed a old

/-- Every action keeps `Released`. -/
theorem Released.step {fuel : Nat} {a : Act} (rel : Released L k) (sound : Sound k)
    (h : k.step L fuel a = some k') : Released L k' := by
  unfold Kernel.step at h
  split at h
  · cases h
  rename_i allowed
  have not_idle (refused : a.idleMay k = false) : k.tp ≠ idle_thread := fun idle => allowed ⟨idle, refused⟩
  have going {c : Ctl} (ctl : k.ctl = c) (moves : ¬ c.Halted) : ¬ k.ctl.Halted := ctl ▸ moves
  split at h
  · split at h
    · obtain ⟨⟨k'', tid⟩, done, rfl⟩ := Option.map_eq_some'.mp h
      exact rel.thread_spawn ‹_› (sound.running (going ‹_› id)).1 done
    · cases h
  · split at h
    · obtain ⟨⟨k'', tid⟩, done, rfl⟩ := Option.map_eq_some'.mp h
      exact rel.thread_fork_to_user (going ‹_› id) done
    · cases h
  · exact rel.keep (going ‹_› id) (thread_yield_keepsStacks h)
  · exact rel.thread_exit (going ‹_› id) (not_idle rfl) h
  · obtain ⟨⟨k'', v⟩, done, rfl⟩ := Option.map_eq_some'.mp h
    exact rel.keep (going ‹_› id) (thread_join_keepsStacks done)
  · obtain ⟨⟨k'', v⟩, done, rfl⟩ := Option.map_eq_some'.mp h
    exact rel.keep (going ‹_› id) (thread_join_any_keepsStacks done)
  · exact rel.keep (going ‹_› id) (condition_wait_keepsStacks h)
  · exact rel.keep (going ‹_› id) (condition_broadcast_keepsStacks h)
  · obtain ⟨⟨k'', v⟩, done, rfl⟩ := Option.map_eq_some'.mp h
    have loop := sound.joinLoop (going ‹_› id) done
    exact (rel.keep (going ‹_› id) (joinLoop_keepsStacks done)).returned fun returns =>
      loop.2 returns ▸ going ‹_› id
  · obtain ⟨⟨k'', v⟩, done, rfl⟩ := Option.map_eq_some'.mp h
    have woken := sound.joinAnyWake done
    exact (rel.keep (going ‹_› id) (joinAnyWake_keepsStacks done)).returned fun _ => woken.2 ▸ going ‹_› id
  · cases h

theorem Released.init (L : Layout) (mem0 : Ptr → Thread) (unwritten : ∀ t, (mem0 t).context = .zero) :
    Released L (thread_init L mem0) :=
  ⟨fun _ main idle after => absurd (init_halted unwritten main idle) after, nofun⟩

theorem Reachable.released (reach : Reachable L k) : Released L k := by
  induction reach with
  | init mem0 unwritten => exact Released.init L mem0 unwritten
  | step fuel a reach stepped rel => exact rel.step reach.sound stepped

/-- On every run, whatever `kmalloc` and `memory_alloc_page` return, every
address `suspend_self` has passed to `memory_free_page` lies
`sizeof (struct thread_stack_anchor)` bytes below the start of a block handed out
as a thread's stack, and so is not that block. -/
theorem reachable_releases_miss_block (reach : Reachable L k) :
    ∀ a ∈ k.freed, ∃ t page, (t, page) ∈ k.stackBlocks ∧ a = page - BitVec.ofNat 64 L.anchorSize ∧ a ≠ page := by
  intro a mem
  obtain ⟨t, page, block, rfl⟩ := reach.released.freed a mem
  have := L.anchorSize_words
  have := L.anchorSize_le_page
  exact ⟨t, page, block, rfl, by bv_omega⟩

/-- The run of `exit_frees_below_page` releases one address, below the page of
the thread at `10`. -/
theorem exit_run_misses_block : ∃ k, (thread_init bootLayout fun _ => blank).run bootLayout 1
    [.spawn 10 blank 0x90000000, .yield, .yield, .exit] = some k ∧ k.freed = [0x8FFFFFF0] ∧
    ∀ a ∈ k.freed, ∃ t page, (t, page) ∈ k.stackBlocks ∧ a = page - BitVec.ofNat 64 bootLayout.anchorSize ∧
      a ≠ page := by
  obtain ⟨k, ran⟩ : ∃ k, (thread_init bootLayout fun _ => blank).run bootLayout 1
      [.spawn 10 blank 0x90000000, .yield, .yield, .exit] = some k :=
    Option.isSome_iff_exists.mp (by decide)
  exact ⟨k, ran, Kernel.run_observe Kernel.freed ran (by decide),
    reachable_releases_miss_block ((Reachable.init _ fun _ => rfl).run ran)⟩

end OsKernel.Threads
