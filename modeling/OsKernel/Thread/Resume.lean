import OsKernel.Thread.Behaviour

/-! # Where threads resume

Where a thread goes on is `resumeAt`: for the running thread its `ctl`, for any
other the point its saved context leads to, or a fault for a context no kernel
routine wrote.  This module says how each scheduler function changes it:
`suspend_self` gives its caller the point it passes and keeps every other
thread's, the list functions, `condition_broadcast` and `recycle_thread` keep
every one, and the creators add a new thread that starts in its own code.

With it, the round robin of `thread_yield`: from a state in which every ready
thread will resume in its own code, every thread can yield in turn, and the
running thread and the ready list rotate through one cycle.
-/

namespace OsKernel.Threads

variable {k k' : Kernel}

/-! ## Where a thread resumes -/

/-- The point a thread that is switched to goes on at, read off its saved
context: `_thread_setup` and `_thread_finish_fork` lead into the thread's own
code, and a `zero` context to address `0`. -/
def Context.resumes : Context → Ctl
  | .suspended c => c
  | .zero => .fault
  | _ => .user

namespace Kernel

/-- Where a thread goes on: the running thread at `ctl`, any other where its
saved context leads. -/
def resumeAt (k : Kernel) (t : Ptr) : Ctl :=
  if t = k.tp then k.ctl else (k.mem t).context.resumes

theorem resumeAt_tp (k : Kernel) : k.resumeAt k.tp = k.ctl := if_pos rfl

theorem resumeAt_of_ne {t : Ptr} (ne : t ≠ k.tp) : k.resumeAt t = (k.mem t).context.resumes := if_neg ne

theorem resumeAt_eq (tp : k'.tp = k.tp) (ctl : k'.ctl = k.ctl)
    (context : ∀ u, (k'.mem u).context = (k.mem u).context) : k'.resumeAt = k.resumeAt := by
  funext u
  simp only [resumeAt, tp, ctl, context]

theorem returned_of_user {r : Kernel × Option Int} (user : r.1.ctl = .user) : returned r = r.1 := by
  unfold returned; split
  · rw [← user]
  · rfl

/-! ## Switching threads -/

theorem thread_swtch_context (k : Kernel) (susp next : Ptr) (r : Ctl) (u : Ptr) :
    ((k.thread_swtch susp next r).mem u).context = if u = susp then .suspended r else (k.mem u).context := by
  unfold thread_swtch
  dsimp only
  split <;> (try split) <;> simp only [modify_mem, memory_free_page] <;> split_ifs <;> simp_all

theorem thread_swtch_ctl (k : Kernel) {susp next : Ptr} (r : Ctl) (ne : next ≠ susp) :
    (k.thread_swtch susp next r).ctl = (k.mem next).context.resumes := by
  unfold thread_swtch
  dsimp only
  rw [modify_mem_of_ne _ _ ne]
  split <;> (try split) <;> simp_all [Context.resumes]

theorem dispatch_context {next : Ptr} (h : k.dispatch = some (next, k')) (u : Ptr) :
    (k'.mem u).context = (k.mem u).context := by
  simp only [dispatch, Option.bind_eq_bind, Option.bind_eq_some] at h
  obtain ⟨-, -, n, -, -, -, h⟩ := h
  split at h
  · obtain ⟨k₁, h₁, h⟩ := Option.bind_eq_some.mp h
    cases h
    rw [tlinsert_context h₁]
    simp [tlremove_context]
  · cases h
    simp [tlremove_context]

/-- `suspend_self` gives its caller the point it passes and keeps where every
other thread resumes; the thread it switches to goes on where its context
leads. -/
theorem suspend_self_resumeAt {r : Ctl} {next : Ptr} {k₁ : Kernel} (dispatched : k.dispatch = some (next, k₁))
    (ne : next ≠ k.tp) (u : Ptr) :
    (k₁.thread_swtch k.tp next r).resumeAt u = if u = k.tp then r else k.resumeAt u := by
  have context := dispatch_context dispatched
  by_cases is_next : u = next
  · subst is_next
    rw [resumeAt, thread_swtch_tp, if_pos rfl, thread_swtch_ctl _ _ ne, context, if_neg ne, resumeAt_of_ne ne]
  · rw [resumeAt, thread_swtch_tp, if_neg is_next, thread_swtch_context, context]
    split_ifs with is_tp
    · rfl
    · rw [resumeAt_of_ne is_tp]

/-! ## Broadcasts and recycling -/

theorem wakeAll_context {c : Cond} {fuel : Nat} {t : Option Ptr} (h : wakeAll c fuel k t = some k') (u : Ptr) :
    (k'.mem u).context = (k.mem u).context := by
  induction fuel generalizing k t with
  | zero => cases t <;> simp only [wakeAll, Option.some.injEq, reduceCtorEq] at h; exact h ▸ rfl
  | succ fuel ih =>
    cases t with
    | none => simp only [wakeAll, Option.some.injEq] at h; exact h ▸ rfl
    | some t =>
      simp only [wakeAll, Option.bind_eq_bind, Option.bind_eq_some] at h
      obtain ⟨-, -, -, -, h⟩ := h
      rw [ih h, modify_mem]
      split <;> simp_all

theorem condition_broadcast_resumeAt {fuel : Nat} {c : Cond} (h : k.condition_broadcast fuel c = some k') :
    k'.resumeAt = k.resumeAt := by
  have memOnly := condition_broadcast_memOnly h
  refine resumeAt_eq memOnly.tp memOnly.ctl fun u => ?_
  unfold condition_broadcast at h
  split at h
  · cases h; rfl
  · simp only [Option.bind_eq_bind, Option.bind_eq_some, pure, Option.some.injEq] at h
    obtain ⟨k₁, h₁, k₂, h₂, rfl⟩ := h
    rw [tlclear, setList_context, tlappend_context h₂, wakeAll_context h₁]

theorem reparentSlot_resumeAt (thr : Ptr) (k : Kernel) (i : Fin NTHR) :
    (reparentSlot thr k i).resumeAt = k.resumeAt := by
  rw [reparentSlot_eq]
  exact resumeAt_eq rfl rfl fun u => by dsimp only; split <;> rfl

theorem recycle_thread_resumeAt {tid : Nat} (h : k.recycle_thread tid = some k') : k'.resumeAt = k.resumeAt := by
  have loop (is : List (Fin NTHR)) (k : Kernel) (thr : Ptr) : (is.foldl (reparentSlot thr) k).resumeAt = k.resumeAt := by
    induction is generalizing k with
    | nil => rfl
    | cons i is ih => rw [List.foldl_cons, ih, reparentSlot_resumeAt]
  unfold recycle_thread at h
  split at h
  · simp only [Option.bind_eq_bind, Option.bind_eq_some, pure, Option.some.injEq] at h
    obtain ⟨thr, -, -, -, rfl⟩ := h
    exact (resumeAt_eq rfl rfl fun _ => rfl).trans (loop _ _ _)
  · cases h

/-! ## Creating threads -/

/-- A spawned thread starts in its own code (`_thread_setup`); every other
thread resumes where it did. -/
theorem thread_spawn_resumeAt {L : Layout} {child : Ptr} {blk : Thread} {page : Addr} {tid : Nat}
    (not_tp : child ≠ k.tp) (h : k.thread_spawn L child blk page = some (k', tid)) (u : Ptr) :
    k'.resumeAt u = if u = child then .user else k.resumeAt u := by
  simp only [thread_spawn, Option.bind_eq_bind, Option.bind_eq_some, pure, Option.some.injEq,
    Prod.mk.injEq] at h
  obtain ⟨i, -, k₁, h₁, rfl, -⟩ := h
  have memOnly := tlinsert_memOnly h₁
  simp only [resumeAt, modify_tp, modify_ctl, memOnly.tp, memOnly.ctl]
  by_cases is_child : u = child
  · subst is_child
    simp [not_tp, Context.resumes]
  · rw [if_neg is_child, modify_mem_of_ne _ _ is_child, tlinsert_context h₁]
    simp [setState, modify_mem, is_child, store_apply]

/-- A forked thread runs at once in its own code, and the caller will return
from `_thread_finish_fork` into its own; every other thread resumes where it
did. -/
theorem thread_fork_to_user_resumeAt {L : Layout} {child_proc : Nat} {block : Addr} {child : Ptr}
    {blk : Thread} {tid : Nat} (h : k.thread_fork_to_user L child_proc block child blk = some (k', tid))
    (u : Ptr) : k'.resumeAt u = if u = child ∨ u = k.tp then .user else k.resumeAt u := by
  simp only [thread_fork_to_user, Option.bind_eq_bind, Option.bind_eq_some, pure, Option.some.injEq,
    Prod.mk.injEq] at h
  obtain ⟨i, -, k₁, h₁, rfl, -⟩ := h
  simp only [resumeAt]
  by_cases is_child : u = child
  · simp [is_child]
  by_cases is_tp : u = k.tp
  · subst is_tp
    simp only [if_neg is_child, modify_mem_self, or_true, if_true]
    rfl
  · rw [if_neg is_child, if_neg (not_or.mpr ⟨is_child, is_tp⟩), if_neg is_tp, modify_mem_of_ne _ _ is_tp,
      tlinsert_context h₁]
    simp [setState, modify_mem, is_child, is_tp, store_apply]

/-! ## Round robin -/

/-- `thread_yield` leaves its caller to resume in its own code and keeps where
every other thread resumes; the thread it runs goes on where its context leads. -/
theorem thread_yield_resumeAt (h : k.thread_yield = some k') (u : Ptr) :
    k'.resumeAt u = if u = k.tp then .user else k.resumeAt u := by
  simp only [thread_yield, Option.bind_eq_bind, check_bind_eq_some, suspend_self] at h
  obtain ⟨running, h⟩ := h
  obtain ⟨⟨next, k₁⟩, dispatched, same⟩ := Option.bind_eq_some.mp h
  cases same
  refine suspend_self_resumeAt dispatched (fun is_tp => ?_) u
  have ready := dispatch_next_ready dispatched
  rw [is_tp, running] at ready
  cases ready

end Kernel

open Kernel

/-- Round robin: from a state whose ready list reads `l`, with the running
thread and every ready thread in their own code, every thread can yield in
turn: the `m`-th yield runs the `m`-th thread of `l`, and the threads that ran
before it, the caller first, follow the rest of `l` on the ready list. -/
theorem yields_rotate_ready {L : Layout} {fuel : Nat} (good : Good k.view) (user : k.ctl = .user)
    (ready_user : ∀ t, k.view.OnList .ready t → k.resumeAt t = .user) :
    ∃ l, k.Reads .ready l ∧ ∀ m ≤ l.length, ∃ k', k.run L fuel (List.replicate m .yield) = some k' ∧
      (k.tp :: l)[m]? = some k'.tp ∧ k'.Reads .ready (l.drop m ++ (k.tp :: l).take m) := by
  obtain ⟨l, rep, members⟩ := good.lists .ready trivial
  suffices rotated : ∀ m ≤ l.length, ∃ k', k.run L fuel (List.replicate m .yield) = some k' ∧
      (k.tp :: l)[m]? = some k'.tp ∧ k'.Reads .ready (l.drop m ++ (k.tp :: l).take m) ∧ k'.ctl = .user ∧
      ∀ t ∈ l.drop m ++ (k.tp :: l).take m, k'.resumeAt t = .user from
    ⟨l, rep.seg, fun m le => let ⟨k', ran, tp', reads', _⟩ := rotated m le; ⟨k', ran, tp', reads'⟩⟩
  intro m
  induction m with
  | zero =>
    intro _
    exact ⟨k, rfl, List.getElem?_cons_zero, by simpa using rep.seg, user,
      fun t mem => ready_user t ((members t).mp (by simpa using mem))⟩
  | succ m ih =>
    intro le
    obtain ⟨k₁, ran₁, tp₁, reads₁, user₁, ready₁⟩ := ih (by omega)
    have good₁ := good.run (by simp [Act.Clean]) ran₁
    have lt : m < l.length := by omega
    rw [List.drop_eq_getElem_cons lt] at reads₁ ready₁
    have may : k₁.tp ≠ idle_thread ∨ k₁.tlempty .ready = false :=
      .inr (by simp [tlempty, show (k₁.list .ready).head = some l[m] from reads₁.cons_inv.1])
    obtain ⟨k₂, yielded⟩ := good₁.thread_yield_some may
    obtain ⟨next, l₁, reads, reads', tp₂, running₂, ready₂⟩ := thread_yield_spec good₁ yielded
    obtain ⟨rfl, rfl⟩ := List.cons.inj (reads.unique reads₁)
    have next_ne : l[m] ≠ k₁.tp := fun same => by
      rw [← same, running₂] at ready₂
      cases ready₂
    have take : (k.tp :: l).take (m + 1) = (k.tp :: l).take m ++ [k₁.tp] := by
      rw [List.take_succ, tp₁]; rfl
    refine ⟨k₂, ?_, by rw [tp₂, List.getElem?_cons_succ, List.getElem?_eq_getElem lt], ?_, ?_, fun t mem => ?_⟩
    · rw [List.replicate_succ', run_append, ran₁, Option.some_bind]
      simp only [Kernel.run, step_yield_eq user₁ may, yielded, Option.some_bind]
    · rw [take]; simpa using reads'
    · rw [← resumeAt_tp, thread_yield_resumeAt yielded, tp₂, if_neg next_ne]
      exact ready₁ _ (List.mem_cons_self _ _)
    · rw [thread_yield_resumeAt yielded]
      split_ifs with is_tp
      · rfl
      · rw [take] at mem
        simp only [List.mem_append, List.mem_singleton, is_tp, or_false] at mem
        exact ready₁ t (List.mem_cons_of_mem _ (List.mem_append.mpr mem))

/-- The main thread spawns threads at `10` and `11`: the ready list then reads
idle thread, `10`, `11`, every thread starts in its own code, and yields run
them in that order. -/
theorem spawned_threads_rotate : ∃ k, (thread_init bootLayout fun _ => blank).run bootLayout 0
    [.spawn 10 blank 0x90000000, .spawn 11 blank 0x90001000] = some k ∧
    ∃ l, k.Reads .ready l ∧ ∀ m ≤ l.length, ∃ k', k.run bootLayout 0 (List.replicate m .yield) = some k' ∧
      (k.tp :: l)[m]? = some k'.tp ∧ k'.Reads .ready (l.drop m ++ (k.tp :: l).take m) := by
  obtain ⟨k, ran⟩ : ∃ k, (thread_init bootLayout fun _ => blank).run bootLayout 0
      [.spawn 10 blank 0x90000000, .spawn 11 blank 0x90001000] = some k :=
    Option.isSome_iff_exists.mp (by decide)
  have facts := Kernel.run_observe (fun k => (k.ctl,
    decide (∀ i : Fin NTHR, (k.thrtab i).all fun t => k.resumeAt t = .user))) ran (v := (.user, true)) (by decide)
  simp only [Prod.mk.injEq, decide_eq_true_eq] at facts
  obtain ⟨user, all_user⟩ := facts
  exact ⟨k, ran, yields_rotate_ready ((Good.init _ _).run (by decide) ran) user
    fun t ⟨⟨i, slot⟩, _⟩ => by simpa [show k.thrtab i = some t from slot] using all_user i⟩

end OsKernel.Threads
