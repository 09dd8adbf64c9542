import OsKernel.Thread.View

/-! # What the list functions and record stores change in the view

The list functions change only `list_next` links and list headers: the view
after them is `Relinked` to the view before, which keeps every part of `Core`
but the lists.  For the lists, `Lists.transfer` carries a list over from one
view to the next when its header, its members' links and the threads that belong
on it are unchanged; the lemmas `tlinsert_frame`, `tlremove_frame` and
`tlappend_frame` say which links and headers each list function rewrites.

The record stores `setState`, the `wait_cond` store of `condition_wait` and the
body `wakeOne` of `condition_broadcast`'s loop change one record's `state` or
`wait_cond`; their simp lemmas say so.
-/

namespace OsKernel.Threads

namespace View

variable {v v' v'' : View}

/-- `v'` keeps the slots, ids and parent links of `v`. -/
structure SameTree (v v' : View) : Prop where
  thrtab : v'.thrtab = v.thrtab
  id : ∀ u, (v'.thread u).id = (v.thread u).id
  parent : ∀ u, (v'.thread u).parent = (v.thread u).parent

/-- `v'` is `v` up to the states of threads, the `list_next` links and the
list headers. -/
structure Restated (v v' : View) extends SameTree v v' : Prop where
  tp : v'.tp = v.tp
  wait_cond : ∀ u, (v'.thread u).wait_cond = (v.thread u).wait_cond

/-- `v'` is `v` up to the `list_next` links and the list headers. -/
structure Relinked (v v' : View) extends Restated v v' : Prop where
  state : ∀ u, (v'.thread u).state = (v.thread u).state

theorem SameTree.trans (r : SameTree v v') (r' : SameTree v' v'') : SameTree v v'' :=
  ⟨r'.thrtab.trans r.thrtab, fun u => (r'.id u).trans (r.id u), fun u => (r'.parent u).trans (r.parent u)⟩

theorem Restated.trans (r : Restated v v') (r' : Restated v' v'') : Restated v v'' :=
  ⟨r.toSameTree.trans r'.toSameTree, r'.tp.trans r.tp, fun u => (r'.wait_cond u).trans (r.wait_cond u)⟩

theorem Relinked.refl (v : View) : Relinked v v := ⟨⟨⟨rfl, fun _ => rfl, fun _ => rfl⟩, rfl, fun _ => rfl⟩,
    fun _ => rfl⟩

theorem Relinked.trans (r : Relinked v v') (r' : Relinked v' v'') : Relinked v v'' :=
  ⟨r.toRestated.trans r'.toRestated, fun u => (r'.state u).trans (r.state u)⟩

theorem SameTree.live (r : SameTree v v') (u : Ptr) : v'.Live u ↔ v.Live u := by
  simp only [Live, r.thrtab]

theorem SameTree.reachesMain (r : SameTree v v') (n : Nat) (u : Ptr) :
    v'.ReachesMain n u ↔ v.ReachesMain n u := by
  induction n generalizing u with
  | zero => exact Iff.rfl
  | succ n ih => simp only [ReachesMain, r.parent, r.live, ih]

theorem SameTree.condExists (r : SameTree v v') (c : Cond) : v'.CondExists c ↔ v.CondExists c := by
  rcases c with u | c
  · exact r.live u
  · exact Iff.rfl

theorem SameTree.listExists (r : SameTree v v') (L : ListRef) : v'.ListExists L ↔ v.ListExists L := by
  rcases L with _ | c
  · exact Iff.rfl
  · exact r.condExists c

/-- Who belongs on a wait list depends only on who is live, waiting, and on
what. -/
theorem SameTree.onList_cond (r : SameTree v v') (wait_cond : ∀ u, (v'.thread u).wait_cond = (v.thread u).wait_cond)
    (waits : ∀ u, (v'.thread u).state = .waiting ↔ (v.thread u).state = .waiting) (c : Cond) (u : Ptr) :
    v'.OnList (.cond c) u ↔ v.OnList (.cond c) u := by
  simp only [OnList, r.live, waits, wait_cond]

theorem OnList.live {L : ListRef} {u : Ptr} (on_L : v.OnList L u) : v.Live u := by
  rcases L with _ | c <;> exact on_L.1

/-- A thread belongs on one list at most. -/
theorem OnList.unique {L L' : ListRef} {u : Ptr} (on_L : v.OnList L u) (on_L' : v.OnList L' u) : L = L' := by
  rcases L with _ | c <;> rcases L' with _ | c'
  · rfl
  · exact absurd (on_L.2.symm.trans on_L'.2.1) (by decide)
  · exact absurd (on_L.2.1.symm.trans on_L'.2) (by decide)
  · exact congrArg ListRef.cond (Option.some.inj (on_L.2.2.symm.trans on_L'.2.2))

/-- The lists of `v` carry over to `v'` for a list whose header is unchanged,
whose members keep their links, and on which the same threads belong. -/
theorem Lists.transfer (lists : v.Lists) {L : ListRef} (exists_L : v.ListExists L)
    (header : v'.list L = v.list L) (links : ∀ u, v.OnList L u → v'.next u = v.next u)
    (belongs : ∀ u, v'.OnList L u ↔ v.OnList L u) :
    ∃ l, Represents v'.next (v'.list L) l ∧ ∀ u, u ∈ l ↔ v'.OnList L u := by
  obtain ⟨l, rep, members⟩ := lists L exists_L
  refine ⟨l, header ▸ ⟨rep.seg.frame fun u mem => links u ((members u).mp mem), rep.tail, rep.nodup⟩,
    fun u => (members u).trans (belongs u).symm⟩

end View

open View

theorem Tree.congr {v v' : View} (tree : Tree v) (r : SameTree v v') : Tree v' := by
  obtain ⟨main, idle, ids, root, parent_live, reaches⟩ := tree
  refine ⟨?_, ?_, ?_, ?_, ?_, ?_⟩ <;> simp only [r.thrtab, r.id, r.parent, r.live, r.reachesMain] <;>
    assumption

theorem Core.relinked {v v' : View} (core : Core v) (r : Relinked v v') (lists : v'.Lists) : Core v' := by
  obtain ⟨tree, -, waiting, own, tp_live, one, idle⟩ := core
  refine ⟨tree.congr r.toSameTree, lists, ?_, ?_, ?_, ?_, ?_⟩ <;>
    simp only [r.state, r.wait_cond, r.tp, r.live, r.condExists] <;> assumption

theorem Good.relinked {v v' : View} (good : Good v) (r : Relinked v v') (lists : v'.Lists) : Good v' :=
  ⟨good.toCore.relinked r lists, by rw [r.tp, r.state]; exact good.tp_running⟩

namespace Kernel

variable {k k' : Kernel}

/-! ## The list functions relink -/

theorem setNext_relinked (k : Kernel) (t : Ptr) (n : Option Ptr) : Relinked k.view (k.setNext t n).view := by
  refine ⟨⟨⟨rfl, fun u => ?_, fun u => ?_⟩, rfl, fun u => ?_⟩, fun u => ?_⟩ <;>
    simp only [view_thread, setNext, modify_mem] <;> split <;> simp_all

theorem setList_relinked (k : Kernel) (L : ListRef) (h : ThreadList) : Relinked k.view (k.setList L h).view := by
  rcases L with _ | ⟨t | c⟩
  · exact ⟨⟨⟨rfl, fun _ => rfl, fun _ => rfl⟩, rfl, fun _ => rfl⟩, fun _ => rfl⟩
  · refine ⟨⟨⟨rfl, fun u => ?_, fun u => ?_⟩, rfl, fun u => ?_⟩, fun u => ?_⟩ <;>
      simp only [view_thread, setList, modify_mem] <;> split <;> simp_all
  · exact ⟨⟨⟨rfl, fun _ => rfl, fun _ => rfl⟩, rfl, fun _ => rfl⟩, fun _ => rfl⟩

theorem tlinsert_relinked {L : ListRef} {t : Ptr} (h : k.tlinsert L t = some k') : Relinked k.view k'.view := by
  dsimp only [tlinsert] at h
  split at h <;> simp only [Option.bind_eq_bind, check_bind_eq_some, pure, Option.some.injEq] at h
    <;> obtain ⟨-, rfl⟩ := h
  · exact (setNext_relinked _ _ _).trans (setNext_relinked _ _ _) |>.trans (setList_relinked _ _ _)
  · exact (setNext_relinked _ _ _).trans (setList_relinked _ _ _) |>.trans (setList_relinked _ _ _)

theorem tlremove_relinked (k : Kernel) (L : ListRef) : Relinked k.view (k.tlremove L).2.view := by
  unfold tlremove; split
  · exact .refl _
  · dsimp only
    split
    · exact (setList_relinked _ _ _).trans (setNext_relinked _ _ _) |>.trans (setNext_relinked _ _ _)
    · exact (setList_relinked _ _ _).trans (setList_relinked _ _ _) |>.trans (setNext_relinked _ _ _)

theorem tlappend_relinked {L0 L1 : ListRef} (h : k.tlappend L0 L1 = some k') : Relinked k.view k'.view := by
  unfold tlappend at h
  have clear (k₁ : Kernel) (h₁ : Relinked k.view k₁.view) : Relinked k.view
      ((k₁.setList L1 { k₁.list L1 with head := none }).setList L1
        { (k₁.setList L1 { k₁.list L1 with head := none }).list L1 with tail := none }).view :=
    h₁.trans ((setList_relinked _ _ _).trans (setList_relinked _ _ _))
  split at h <;> (try split at h) <;> simp only [Option.bind_eq_bind, Option.none_bind,
    Option.some_bind, pure, Option.some.injEq, reduceCtorEq] at h <;> subst h
  · exact clear _ ((setNext_relinked _ _ _).trans (setList_relinked _ _ _))
  · exact clear _ (.refl _)
  · exact clear _ ((setList_relinked _ _ _).trans (setList_relinked _ _ _))

/-! ## The links and headers each list function rewrites -/

variable {L : ListRef} {l : List Ptr} {t : Ptr}

/-- `tlinsert` of `t` rewrites the links of `t` and of the list's last thread,
and only the list's own header. -/
theorem tlinsert_frame (rep : Represents k.next (k.list L) l) (h : k.tlinsert L t = some k') :
    (∀ u, u ≠ t → u ∉ l → k'.next u = k.next u) ∧ ∀ L', L' ≠ L → k'.list L' = k.list L' := by
  dsimp only [tlinsert] at h
  simp only [list_setNext] at h
  split at h <;> simp only [Option.bind_eq_bind, check_bind_eq_some, pure, Option.some.injEq] at h
    <;> obtain ⟨-, rfl⟩ := h
  · refine ⟨fun u ne out => ?_, fun L' ne => by simp [ne]⟩
    simp only [next_setList, next_setNext, store_apply, if_neg ne]
    split
    · rename_i same; subst same
      exact absurd (List.mem_of_getLast?_eq_some (rep.tail.symm.trans ‹_›)) out
    · rfl
  · exact ⟨fun u ne _ => by simp [ne], fun L' ne => by simp [ne]⟩

/-- `tlremove` of the head `t` rewrites only the link of `t` and the list's own
header. -/
theorem tlremove_frame (k : Kernel) (L : ListRef) {t : Ptr} (head : (k.list L).head = some t) :
    (∀ u, u ≠ t → (k.tlremove L).2.next u = k.next u) ∧
      ∀ L', L' ≠ L → (k.tlremove L).2.list L' = k.list L' := by
  unfold tlremove
  rw [head]
  dsimp only
  split <;> exact ⟨fun u ne => by simp [ne], fun L' ne => by simp [ne]⟩

/-- `tlappend` rewrites only the link of the last thread of `L0` and the headers
of `L0` and `L1`. -/
theorem tlappend_frame {L0 L1 : ListRef} {l0 : List Ptr} (rep0 : Represents k.next (k.list L0) l0)
    (h : k.tlappend L0 L1 = some k') :
    (∀ u, u ∉ l0 → k'.next u = k.next u) ∧ ∀ L', L' ≠ L0 → L' ≠ L1 → k'.list L' = k.list L' := by
  unfold tlappend at h
  split at h <;> (try split at h) <;> simp only [Option.bind_eq_bind, Option.none_bind,
    Option.some_bind, pure, Option.some.injEq, reduceCtorEq] at h <;> subst h
  · refine ⟨fun u out => ?_, fun L' ne0 ne1 => by simp [ne0, ne1]⟩
    simp only [next_setList, next_setNext, store_apply]
    split
    · rename_i same; subst same
      exact absurd (List.mem_of_getLast?_eq_some (rep0.tail.symm.trans ‹_›)) out
    · rfl
  · exact ⟨fun u _ => by simp, fun L' ne0 ne1 => by simp [ne0, ne1]⟩
  · exact ⟨fun u _ => by simp, fun L' ne0 ne1 => by simp [ne0, ne1]⟩

end Kernel

end OsKernel.Threads
