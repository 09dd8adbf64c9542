import OsKernel.Thread.Invariant
import OsKernel.Thread.Frame

/-! # Parents, joins and reaping

Every thread but the main one records its creator in `parent`;
`recycle_thread` hands the children of a reaped thread to its parent, and
`thread_join` and `thread_join_any` reap exited children.  `ParentTree` is the
shape this is meant to keep: the parent links form a tree rooted at the main
thread, through threads that are all in `thrtab`.

`thread_join` opens with `struct thread * const child = thrtab[tid]`, before it
tests `tid`: for a `tid` outside `[0, NTHR)` the call reads out of bounds, from
every state, where it is meant to return `-1`.
-/

namespace OsKernel.Threads

namespace Kernel

/-- Following parent links from `t` reaches the main thread within `n` links,
through threads in `thrtab`.  Parent links are a function, so a path that
reaches the main thread repeats no thread on the way. -/
def ReachesMain (k : Kernel) : Nat → Ptr → Prop
  | 0, t => t = main_thread
  | n + 1, t => t = main_thread ∨ ∃ p, (k.mem t).parent = some p ∧ k.Live p ∧ k.ReachesMain n p

end Kernel

/-- The parent links form a tree rooted at the main thread, with no link to a
thread that has left `thrtab`. -/
structure ParentTree (k : Kernel) : Prop where
  main_root : (k.mem main_thread).parent = none
  parent_live : ∀ i t, i ≠ MAIN_TID → k.thrtab i = some t →
    ∃ p, (k.mem t).parent = some p ∧ k.Live p
  reaches_main : ∀ t, k.Live t → ∃ n, k.ReachesMain n t

/-! ## `thread_join` out of range -/

/-- For every `tid` outside `[0, NTHR)`, `thread_join` faults on its read of
`thrtab[tid]` instead of returning `-1`, and a `join` action with that `tid`
has no successor, from every state. -/
theorem thread_join_faults_out_of_range {L : Layout} {fuel : Nat} (k : Kernel) (tid : Int)
    (outside : tid < 0 ∨ NTHR ≤ tid) : k.thread_join tid = none ∧ k.step L fuel (.join tid) = none := by
  have faults : k.thread_join tid = none := dif_neg (by omega)
  refine ⟨faults, ?_⟩
  unfold Kernel.step
  split
  · rfl
  · split <;> simp_all

/-- At boot, `thread_join (-1)` (a `wait` system call with `tid = -1`) faults. -/
theorem thread_join_minus_one_at_boot : ((-1 : Int) < 0 ∨ NTHR ≤ (-1 : Int)) ∧
    (thread_init bootLayout fun _ => blank).thread_join (-1) = none ∧
      (thread_init bootLayout fun _ => blank).step bootLayout 0 (.join (-1)) = none :=
  have outside : (-1 : Int) < 0 ∨ NTHR ≤ (-1 : Int) := .inl (by decide)
  ⟨outside, thread_join_faults_out_of_range _ (-1) outside⟩

end OsKernel.Threads
