import OsKernel.Thread.Create
import OsKernel.Thread.Recycle

/-! # The scheduler invariant over every run

`thread_spawn` and `thread_fork_to_user` use the `child_exit` list of the block
`kmalloc` returns as it is (see `Thread/Invariant`).  Over the runs in which
each such block comes with an empty `child_exit` list, every step keeps `Good`,
so every state reached from `thread_init` satisfies the scheduler invariant
`SchedInv` and has its parent links form a tree rooted at the main thread.
-/

namespace OsKernel.Threads

/-- The block `kmalloc` returns for a new `struct thread` has an empty
`child_exit` list. -/
def Act.Clean : Act → Prop
  | .spawn _ blk _ => blk.child_exit = .empty
  | .fork _ _ _ blk => blk.child_exit = .empty
  | _ => True

instance (a : Act) : Decidable a.Clean := by
  cases a <;> unfold Act.Clean <;> infer_instance

/-- The states reachable from `thread_init` by actions whose `kmalloc` blocks
have an empty `child_exit` list. -/
inductive CleanReachable (L : Layout) : Kernel → Prop
  | init (mem0 : Ptr → Thread) : CleanReachable L (thread_init L mem0)
  | step {k k' : Kernel} (fuel : Nat) (a : Act) :
      CleanReachable L k → a.Clean → k.step L fuel a = some k' → CleanReachable L k'

variable {k k' : Kernel}

/-- Every step with a clean block keeps `Good`. -/
theorem Good.step {L : Layout} {fuel : Nat} {a : Act} (good : Good k.view) (clean : a.Clean)
    (h : k.step L fuel a = some k') : Good k'.view := by
  unfold Kernel.step at h
  split at h
  · cases h
  rename_i allowed
  have not_idle (refused : a.idleMay k = false) : k.tp ≠ idle_thread := fun idle => allowed ⟨idle, refused⟩
  split at h
  · split at h
    · obtain ⟨⟨k'', tid⟩, done, rfl⟩ := Option.map_eq_some'.mp h
      exact good.thread_spawn ‹_› clean done
    · cases h
  · split at h
    · obtain ⟨⟨k'', tid⟩, done, rfl⟩ := Option.map_eq_some'.mp h
      exact good.thread_fork_to_user ‹_› clean done
    · cases h
  · exact good.thread_yield h
  · exact good.thread_exit (not_idle rfl) h
  · obtain ⟨⟨k'', v⟩, done, rfl⟩ := Option.map_eq_some'.mp h
    exact good.thread_join (not_idle rfl) done
  · obtain ⟨⟨k'', v⟩, done, rfl⟩ := Option.map_eq_some'.mp h
    exact good.thread_join_any (not_idle rfl) done
  · exact good.condition_wait (not_idle rfl) (show k.CondExists (.other _) from trivial)
      (fun _ same => Cond.noConfusion same) h
  · exact good.condition_broadcast (show k.CondExists (.other _) from trivial) h
  · obtain ⟨⟨k'', v⟩, done, rfl⟩ := Option.map_eq_some'.mp h
    rw [Kernel.view_returned]
    exact good.joinLoop (not_idle rfl) done
  · obtain ⟨⟨k'', v⟩, done, rfl⟩ := Option.map_eq_some'.mp h
    rw [Kernel.view_returned]
    exact good.joinAnyWake done
  · cases h

/-- Every run of clean actions keeps `Good`. -/
theorem Good.run {L : Layout} {fuel : Nat} {as : List Act} (good : Good k.view) (clean : ∀ a ∈ as, a.Clean)
    (ran : k.run L fuel as = some k') : Good k'.view := by
  induction as generalizing k with
  | nil => cases ran; exact good
  | cons a as ih =>
    simp only [Kernel.run, Option.bind_eq_some] at ran
    obtain ⟨k₁, stepped, rest⟩ := ran
    exact ih (good.step (clean a (List.mem_cons_self _ _)) stepped)
      (fun b mem => clean b (List.mem_cons_of_mem _ mem)) rest

theorem CleanReachable.good {L : Layout} (reach : CleanReachable L k) : Good k.view := by
  induction reach with
  | init mem0 => exact Good.init L mem0
  | step fuel a _ clean stepped good => exact good.step clean stepped

theorem CleanReachable.run {L : Layout} {fuel : Nat} {as : List Act} (reach : CleanReachable L k)
    (clean : ∀ a ∈ as, a.Clean) (ran : k.run L fuel as = some k') : CleanReachable L k' := by
  induction as generalizing k with
  | nil => cases ran; exact reach
  | cons a as ih =>
    simp only [Kernel.run, Option.bind_eq_some] at ran
    obtain ⟨k₁, stepped, rest⟩ := ran
    exact ih (reach.step fuel a (clean a (List.mem_cons_self _ _)) stepped)
      (fun b mem => clean b (List.mem_cons_of_mem _ mem)) rest

/-- Every state reached from `thread_init` by actions whose `kmalloc` blocks
have an empty `child_exit` list satisfies the scheduler invariant, its parent
links form a tree rooted at the main thread, and every list is a well-formed
queue of exactly the threads that belong on it (`Good`). -/
theorem clean_runs_keep_sched_inv {L : Layout} (reach : CleanReachable L k) :
    SchedInv k ∧ ParentTree k ∧ Good k.view :=
  ⟨reach.good.schedInv, reach.good.parentTree, reach.good⟩

/-- The main thread spawns a thread from an all-zero block: the state reached
satisfies the invariant. -/
theorem clean_spawn_keeps_sched_inv : ∃ k, (thread_init bootLayout fun _ => blank).step bootLayout 0
    (.spawn 2 blank 0x80100000) = some k ∧ SchedInv k ∧ ParentTree k ∧ Good k.view := by
  obtain ⟨k, stepped⟩ : ∃ k, (thread_init bootLayout fun _ => blank).step bootLayout 0
      (.spawn 2 blank 0x80100000) = some k := Option.isSome_iff_exists.mp (by decide)
  exact ⟨k, stepped, clean_runs_keep_sched_inv
      (.step 0 _ (.init _) (show Act.Clean (.spawn 2 blank 0x80100000) from rfl) stepped)⟩

end OsKernel.Threads
