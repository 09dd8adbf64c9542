import OsKernel.Thread.Invariant
import Mathlib.Data.List.Nodup

/-! # Thread lists as queues

Read through `Represents`, the list functions are queue operations: `tlinsert`
appends a thread that is on no list, `tlremove` takes the head, and `tlappend`
moves the threads of one list after those of another and empties the first.
Each lemma assumes only that the headers it touches represent sequences, which
is what the scheduler invariant provides for every list.

The representation matters: `tlinsert` trusts the header's `tail`.  A
`child_exit` header taken from `kmalloc` whose `tail` names a thread on the
ready list makes `condition_wait` link the waiter into the ready list, cutting
off every thread behind it.
-/

namespace OsKernel.Threads

namespace Kernel

variable {k k' : Kernel} {L : ListRef} {l : List Ptr} {t : Ptr}

/-- `tlinsert` appends a thread that is not on the list. -/
theorem tlinsert_represents (rep : Represents k.next (k.list L) l) (fresh : t ∉ l)
    (h : k.tlinsert L t = some k') : Represents k'.next (k'.list L) (l ++ [t]) := by
  have nodup : (l ++ [t]).Nodup := rep.nodup.append (List.nodup_singleton t)
    (List.disjoint_singleton.mpr fresh)
  dsimp only [tlinsert] at h
  simp only [list_setNext] at h
  split at h
  · rename_i z last
    simp only [Option.bind_eq_bind, check_bind_eq_some, pure, Option.some.injEq] at h
    obtain ⟨-, rfl⟩ := h
    obtain ⟨l0, rfl⟩ := List.getLast?_eq_some_iff.mp (rep.tail ▸ last)
    obtain ⟨before, -⟩ := rep.seg.split_last
    have z_t : t ≠ z := fun same => fresh (same ▸ List.mem_concat_self l0 z)
    refine ⟨?_, by simp, nodup⟩
    simp only [next_setList, list_setList, list_setNext, if_true]
    refine (before.frame fun u hu => ?_).snoc (by simp) |>.append
      (.cons t [] none (by simp [z_t]; exact .nil none))
    have : u ≠ z := fun same => (List.nodup_append.mp rep.nodup).2.2 (same ▸ hu) (List.mem_singleton_self z)
    have : u ≠ t := fun same => fresh (same ▸ List.mem_append_left [z] hu)
    simp [*]
  · rename_i last
    simp only [Option.bind_eq_bind, check_bind_eq_some, pure, Option.some.injEq] at h
    obtain ⟨empty, rfl⟩ := h
    obtain rfl : l = [] := List.getLast?_eq_none_iff.mp (rep.tail ▸ last)
    refine ⟨?_, by simp, nodup⟩
    simp only [next_setList, list_setList, list_setNext, if_true]
    exact .cons t [] none (by simp; exact .nil none)

/-- `tlremove` unlinks the head and returns it. -/
theorem tlremove_represents (rep : Represents k.next (k.list L) (t :: l)) :
    ∃ k', k.tlremove L = (some t, k') ∧ Represents k'.next (k'.list L) l ∧ k'.next t = none := by
  obtain ⟨head, rest⟩ := rep.seg.cons_inv
  have t_l : t ∉ l := (List.nodup_cons.mp rep.nodup).1
  have frame : Lseg (store k.next t none) (k.next t) l none :=
    rest.frame fun u hu => store_of_ne _ _ _ fun same => t_l (same ▸ hu)
  unfold tlremove
  rw [head]
  dsimp only
  split
  · rename_i more
    refine ⟨_, rfl, ⟨?_, ?_, (List.nodup_cons.mp rep.nodup).2⟩, by simp⟩
    · simpa using frame
    · cases l with
      | nil => exact absurd rest.nil_inv (by simpa using more)
      | cons u l => simpa [List.getLast?_cons_cons] using rep.tail
  · rename_i last
    simp only [list_setList, if_true, ne_eq, not_not] at last
    obtain rfl := (last ▸ rest).head_eq_none
    exact ⟨_, rfl, ⟨by simpa [last] using Lseg.nil none, by simp, List.nodup_nil⟩, by simp⟩

/-- `tlappend` concatenates two distinct lists with no common thread and
empties the second. -/
theorem tlappend_represents {L0 L1 : ListRef} {l0 l1 : List Ptr} (ne : L0 ≠ L1)
    (rep0 : Represents k.next (k.list L0) l0) (rep1 : Represents k.next (k.list L1) l1)
    (disjoint : l0.Disjoint l1) :
    ∃ k', k.tlappend L0 L1 = some k' ∧ Represents k'.next (k'.list L0) (l0 ++ l1) ∧
      k'.list L1 = .empty := by
  have nodup : (l0 ++ l1).Nodup := rep0.nodup.append rep1.nodup disjoint
  unfold tlappend
  rcases List.eq_nil_or_concat l0 with rfl | ⟨l0, z, rfl⟩
  · have head0 : (k.list L0).head = none := rep0.seg.nil_inv
    have tail0 : (k.list L0).tail = none := rep0.tail
    simp only [head0, tail0]
    refine ⟨_, rfl, ?_, by simp [ThreadList.empty]⟩
    simpa [list_setList, ne, Ne.symm ne] using rep1
  · rw [List.concat_eq_append] at rep0 disjoint nodup ⊢
    obtain ⟨before, -⟩ := rep0.seg.split_last
    obtain ⟨h0, head0⟩ : ∃ h0, (k.list L0).head = some h0 := by
      cases l0 <;> exact ⟨_, (rep0.seg.cons_inv).1⟩
    have tail0 : (k.list L0).tail = some z := by simpa using rep0.tail
    simp only [head0, tail0]
    cases l1 with
    | nil =>
      have head1 : (k.list L1).head = none := rep1.seg.nil_inv
      simp only [head1]
      refine ⟨_, rfl, ?_, by simp [ThreadList.empty]⟩
      simpa [list_setList, ne] using rep0
    | cons h1 l1 =>
      obtain ⟨head1, rest1⟩ := rep1.seg.cons_inv
      obtain ⟨z1, tail1⟩ : ∃ z1, (k.list L1).tail = some z1 := ⟨_, rep1.tail.trans List.getLast?_cons⟩
      simp only [head1, tail1]
      refine ⟨_, rfl, ⟨?_, ?_, nodup⟩, by simp [ThreadList.empty]⟩
      · simp only [next_setList, list_setList, list_setNext, ne, Ne.symm ne, if_true, if_false]
        have z_l0 : z ∉ l0 := fun hz =>
          (List.nodup_append.mp rep0.nodup).2.2 hz (List.mem_singleton_self z)
        have z_l1 : z ∉ h1 :: l1 := disjoint (List.mem_append_right l0 (List.mem_singleton_self z))
        have h1_z : h1 ≠ z := fun same => z_l1 (same ▸ List.mem_cons_self h1 l1)
        refine (before.frame fun u hu => ?_).snoc (by simp) |>.append
          (.cons h1 l1 none ?_)
        · rw [next_setNext]
          exact store_of_ne _ _ _ fun (same : u = z) => z_l0 (same ▸ hu)
        · rw [next_setNext, store_of_ne _ _ _ h1_z]
          exact rest1.frame fun u hu =>
            store_of_ne _ _ _ fun (same : u = z) => z_l1 (same ▸ List.mem_cons_of_mem h1 hu)
      · simp [list_setList, ne, rep1.tail, List.getLast?_cons]

/-- On a list it represents, `tlinsert`'s asserts hold. -/
theorem tlinsert_some (rep : Represents k.next (k.list L) l) (t : Ptr) : ∃ k', k.tlinsert L t = some k' := by
  dsimp only [tlinsert]
  simp only [list_setNext]
  split
  · rename_i z last
    obtain ⟨u, l', rfl⟩ : ∃ u l', l = u :: l' :=
      List.exists_cons_of_ne_nil fun empty => by simp [empty, rep.tail] at last
    simp [rep.seg.cons_inv.1]
  · rename_i last
    obtain rfl : l = [] := List.getLast?_eq_none_iff.mp (rep.tail ▸ last)
    simp [rep.seg.nil_inv]

/-- `tlclear` leaves the empty list. -/
theorem tlclear_represents (L : ListRef) : Represents (k.tlclear L).next ((k.tlclear L).list L) [] := by
  simp only [tlclear, list_setList, if_true]
  exact ⟨.nil none, rfl, List.nodup_nil⟩

/-! ## The traversal of `condition_broadcast` -/

/-- The body of `condition_broadcast`'s loop on `t`: `set_thread_state (thr,
THREAD_READY)` and `thr->wait_cond = NULL`. -/
def wakeOne (k : Kernel) (t : Ptr) : Kernel :=
  (k.setState t .ready).modify t fun r => { r with wait_cond := none }

@[simp] theorem next_wakeOne (t : Ptr) : (k.wakeOne t).next = k.next := by
  funext u; simp only [wakeOne, next, modify_mem, setState]; split <;> simp_all

theorem wakeOne_mem_of_ne {t u : Ptr} (h : u ≠ t) : (k.wakeOne t).mem u = k.mem u := by
  simp [wakeOne, setState, h]

/-- The loop of `condition_broadcast`, from a thread whose `list_next` chain
reads `l` up to `NULL`, with every thread of `l` waiting on `c`: given as many
passes as `l` has threads, it applies its body once to each, in order. -/
theorem wakeAll_foldl (c : Cond) (l : List Ptr) (fuel : Nat) (k : Kernel) {x : Option Ptr}
    (seg : Lseg k.next x l none) (nodup : l.Nodup)
    (waiting : ∀ t ∈ l, (k.mem t).state = .waiting ∧ (k.mem t).wait_cond = some c) (enough : l.length ≤ fuel) :
    wakeAll c fuel k x = some (l.foldl wakeOne k) := by
  induction l generalizing fuel k x with
  | nil => obtain rfl := seg.nil_inv; cases fuel <;> rfl
  | cons t l ih =>
    obtain ⟨rfl, rest⟩ := seg.cons_inv
    obtain ⟨fresh, nodup⟩ := List.nodup_cons.mp nodup
    obtain ⟨fuel, rfl⟩ : ∃ f, fuel = f + 1 := ⟨fuel - 1, by simp at enough; omega⟩
    obtain ⟨is_waiting, on_c⟩ := waiting t (List.mem_cons_self t l)
    have step := ih fuel (k.wakeOne t) (by rwa [next_wakeOne]) nodup
      (fun u mem => by
        rw [wakeOne_mem_of_ne fun (same : u = t) => fresh (same ▸ mem)]
        exact waiting u (List.mem_cons_of_mem t mem)) (by simpa using enough)
    simp only [wakeAll, check, is_waiting, on_c, if_true, Option.bind_eq_bind, Option.some_bind]
    change wakeAll c fuel (k.wakeOne t) ((k.wakeOne t).next t) = _
    rw [next_wakeOne, step, List.foldl_cons]

end Kernel

/-- A `struct thread_list` header that represents a sequence (`head` reaches
`NULL` through the threads of the sequence, `tail` is its last thread, and no
thread repeats) is a queue of threads: `tlinsert` of a thread on no list
appends it, `tlremove` takes the first thread, `tlappend` of two disjoint lists
concatenates them and empties the second, `tlclear` empties a list, and the
loop of `condition_broadcast` over a wait list ends after visiting each waiter
once, in order. -/
theorem thread_lists_are_queues (k : Kernel) :
    (∀ L l t, Represents k.next (k.list L) l → t ∉ l →
      ∃ k', k.tlinsert L t = some k' ∧ Represents k'.next (k'.list L) (l ++ [t])) ∧
    (∀ L t l, Represents k.next (k.list L) (t :: l) →
      ∃ k', k.tlremove L = (some t, k') ∧ Represents k'.next (k'.list L) l) ∧
    (∀ L0 L1 l0 l1, L0 ≠ L1 → Represents k.next (k.list L0) l0 → Represents k.next (k.list L1) l1 →
      l0.Disjoint l1 → ∃ k', k.tlappend L0 L1 = some k' ∧ Represents k'.next (k'.list L0) (l0 ++ l1) ∧
        Represents k'.next (k'.list L1) []) ∧
    (∀ L, Represents (k.tlclear L).next ((k.tlclear L).list L) []) ∧
    (∀ c l, Represents k.next (k.list (.cond c)) l →
      (∀ t ∈ l, (k.mem t).state = .waiting ∧ (k.mem t).wait_cond = some c) →
      ∀ fuel, l.length ≤ fuel → Kernel.wakeAll c fuel k (k.list (.cond c)).head = some (l.foldl Kernel.wakeOne k)) := by
  refine ⟨fun L l t rep fresh => ?_, fun L t l rep => ?_, fun L0 L1 l0 l1 ne rep0 rep1 disjoint => ?_,
    Kernel.tlclear_represents, fun c l rep waiting fuel enough => ?_⟩
  · obtain ⟨k', inserted⟩ := Kernel.tlinsert_some rep t
    exact ⟨k', inserted, Kernel.tlinsert_represents rep fresh inserted⟩
  · obtain ⟨k', removed, rest, -⟩ := Kernel.tlremove_represents rep
    exact ⟨k', removed, rest⟩
  · obtain ⟨k', appended, joined, cleared⟩ := Kernel.tlappend_represents ne rep0 rep1 disjoint
    exact ⟨k', appended, joined, cleared ▸ ⟨.nil none, rfl, List.nodup_nil⟩⟩
  · exact Kernel.wakeAll_foldl c l fuel k rep.seg rep.nodup waiting enough

/-- The main thread spawns a thread at `10` and waits on a driver's condition,
so that the ready list holds the thread at `10` and the wait list the main
thread: inserting a fresh thread at `5`, removing the thread at `10`, appending
the wait list to the ready list and waking the one waiter. -/
theorem thread_lists_are_queues_after_wait : ∃ k, (thread_init bootLayout fun _ => blank).run bootLayout 1
    [.spawn 10 blank 0x90000000, .wait 0] = some k ∧
    (Represents k.next (k.list .ready) [10] ∧ (5 : Ptr) ∉ [10] ∧ ListRef.ready ≠ .cond (.other 0) ∧
        Represents k.next (k.list (.cond (.other 0))) [main_thread] ∧ [10].Disjoint [main_thread] ∧
        (∀ t ∈ [main_thread], (k.mem t).state = .waiting ∧ (k.mem t).wait_cond = some (.other 0)) ∧
        [main_thread].length ≤ 1) ∧
      (∃ k', k.tlinsert .ready 5 = some k' ∧ Represents k'.next (k'.list .ready) [10, 5]) ∧
      (∃ k', k.tlremove .ready = (some 10, k') ∧ Represents k'.next (k'.list .ready) []) ∧
      (∃ k', k.tlappend .ready (.cond (.other 0)) = some k' ∧
        Represents k'.next (k'.list .ready) [10, main_thread] ∧ Represents k'.next (k'.list (.cond (.other 0))) []) ∧
      Kernel.wakeAll (.other 0) 1 k (k.list (.cond (.other 0))).head = some ([main_thread].foldl Kernel.wakeOne k) := by
  obtain ⟨k, ran⟩ : ∃ k, (thread_init bootLayout fun _ => blank).run bootLayout 1
      [.spawn 10 blank 0x90000000, .wait 0] = some k := Option.isSome_iff_exists.mp (by decide)
  have lists := Kernel.run_observe (fun k => (k.ready_list, k.next 10, k.conds 0, k.next main_thread)) ran
    (v := (⟨some 10, some 10⟩, none, ⟨some main_thread, some main_thread⟩, none)) (by decide)
  have main := Kernel.run_observe (fun k => ((k.mem main_thread).state, (k.mem main_thread).wait_cond)) ran
    (v := (.waiting, some (.other 0))) (by decide)
  simp only [Prod.mk.injEq] at lists main
  obtain ⟨ready, last, cond, main_last⟩ := lists
  obtain ⟨waiting, on_c⟩ := main
  have rep : Represents k.next (k.list .ready) [10] :=
    ⟨show Lseg k.next k.ready_list.head [10] none by rw [ready]; exact .cons _ _ _ (last ▸ .nil _),
      show k.ready_list.tail = _ by rw [ready]; rfl, by decide⟩
  have waiters : Represents k.next (k.list (.cond (.other 0))) [main_thread] :=
    ⟨show Lseg k.next (k.conds 0).head [main_thread] none by rw [cond]; exact .cons _ _ _ (main_last ▸ .nil _),
      show (k.conds 0).tail = _ by rw [cond]; rfl, by decide⟩
  have disjoint : [10].Disjoint [main_thread] := List.disjoint_singleton.mpr (by decide)
  have all_wait : ∀ t ∈ [main_thread], (k.mem t).state = .waiting ∧ (k.mem t).wait_cond = some (.other 0) := by
    simpa using ⟨waiting, on_c⟩
  have queues := thread_lists_are_queues k
  exact ⟨k, ran, ⟨rep, by decide, by decide, waiters, disjoint, all_wait, Nat.le_refl 1⟩,
    queues.1 .ready [10] 5 rep (by decide), queues.2.1 .ready 10 [] rep,
    queues.2.2.1 .ready (.cond (.other 0)) [10] [main_thread] (by decide) rep waiters disjoint,
    queues.2.2.2.2 (.other 0) [main_thread] waiters all_wait 1 (Nat.le_refl 1)⟩

/-! ## A stale tail -/

/-- A `kmalloc` block whose `child_exit` wait list ends at the idle thread. -/
def staleToIdle : Thread :=
  { blank with child_exit := ⟨some idle_thread, some idle_thread⟩ }

/-- The main thread spawns a thread at `10` from `staleToIdle`; after the main
and the idle thread yield, the thread at `10` spawns a thread at `11` and
calls `thread_join_any`.  Its `condition_wait` links it after the idle thread,
which is on the ready list: the ready list now reads idle thread, thread `10`,
although thread `10` waits and thread `11`, which is ready, is no longer on it. -/
theorem stale_tail_loses_ready_thread : ∃ k, Reachable bootLayout k ∧ ∃ l, k.Reads .ready l ∧
    (∃ y, k.Live y ∧ (k.mem y).state = .ready ∧ y ∉ l) ∧ ∃ w ∈ l, (k.mem w).state = .waiting := by
  obtain ⟨k, ran⟩ : ∃ k, (thread_init bootLayout fun _ => blank).run bootLayout 1
      [.spawn 10 staleToIdle 0x90000000, .yield, .yield, .spawn 11 blank 0x90001000,
        .joinAny] = some k := Option.isSome_iff_exists.mp (by decide)
  have facts := Kernel.run_observe (fun k => (k.ready_list.head, k.next idle_thread, k.next 10,
    k.thrtab ⟨2, by decide⟩, (k.mem 11).state, (k.mem 10).state)) ran
    (v := (some idle_thread, some 10, none, some 11, .ready, .waiting)) (by decide)
  simp only [Prod.mk.injEq] at facts
  obtain ⟨head, idle_next, last, slot, ready, waiting⟩ := facts
  refine ⟨k, (Reachable.init _ fun _ => rfl).run ran, [idle_thread, 10], ?_, ⟨11, ⟨_, slot⟩, ready, by decide⟩,
    10, by simp, waiting⟩
  unfold Kernel.Reads
  rw [show k.list .ready = k.ready_list from rfl, head]
  exact .cons _ _ _ (idle_next ▸ .cons _ _ _ (last ▸ .nil _))

end OsKernel.Threads
