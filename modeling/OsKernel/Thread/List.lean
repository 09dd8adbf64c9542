import OsKernel.Thread.Basic

/-! # Thread lists

`tlclear`, `tlempty`, `tlinsert`, `tlremove` and `tlappend` on the headers the
scheduler uses: the ready list and the wait list of every condition.  Each
function is written statement by statement, reading memory afresh after every
store, so that a header living inside a thread record (the `child_exit` wait
lists) behaves as in C when the same record is also a list element.  The
`assert`s of the C code make the functions partial: a failed assertion is
`none`.

`Lseg next x l y` says that following `next` from `x` visits the threads of
`l` in order and arrives at `y`; a header `h` represents the sequence `l` when
`h.head` reaches `NULL` through `l`, `h.tail` is the last thread of `l`, and no
thread repeats.  The frame lemmas say which stores leave `list_next` and the
headers alone.
-/

namespace OsKernel.Threads

/-- An `assert`: `none` when it fails. -/
def check (p : Prop) [Decidable p] : Option Unit :=
  if p then some () else none

@[simp] theorem check_eq_some (p : Prop) [Decidable p] : check p = some () ↔ p := by
  unfold check; split <;> simp_all

@[simp] theorem check_bind_eq_some {α : Type} (p : Prop) [Decidable p] (f : Unit → Option α)
    (x : α) : (check p).bind f = some x ↔ p ∧ f () = some x := by
  unfold check; split <;> simp_all

/-- The `struct thread_list` objects of `thread.c`: the ready list and the wait
list of each condition. -/
inductive ListRef
  | ready
  | cond (c : Cond)
  deriving DecidableEq, Repr

namespace Kernel

/-- The header of a list. -/
def list (k : Kernel) : ListRef → ThreadList
  | .ready => k.ready_list
  | .cond (.childExit t) => (k.mem t).child_exit
  | .cond (.other c) => k.conds c

/-- Store the header of a list. -/
def setList (k : Kernel) : ListRef → ThreadList → Kernel
  | .ready, h => { k with ready_list := h }
  | .cond (.childExit t), h => k.modify t fun r => { r with child_exit := h }
  | .cond (.other c), h => { k with conds := store k.conds c h }

/-! ## Frame lemmas -/

@[simp] theorem next_setNext (k : Kernel) (t : Ptr) (n : Option Ptr) :
    (k.setNext t n).next = store k.next t n := by
  funext u; simp only [next, setNext, modify_mem, store_apply]; split <;> rfl

@[simp] theorem list_setNext (k : Kernel) (t : Ptr) (n : Option Ptr) (L : ListRef) :
    (k.setNext t n).list L = k.list L := by
  rcases L with _ | ⟨u | c⟩ <;> simp only [list, setNext, modify_ready_list, modify_conds,
    modify_mem]
  split <;> simp_all

@[simp] theorem next_setList (k : Kernel) (L : ListRef) (h : ThreadList) :
    (k.setList L h).next = k.next := by
  funext u
  rcases L with _ | ⟨t | c⟩ <;> simp only [next, setList, modify_mem]
  split <;> simp_all

@[simp] theorem list_setList (k : Kernel) (L L' : ListRef) (h : ThreadList) :
    (k.setList L h).list L' = if L' = L then h else k.list L' := by
  rcases L with _ | ⟨t | c⟩ <;> rcases L' with _ | ⟨u | d⟩ <;>
    simp [list, setList, modify_mem, store_apply]; split <;> simp_all

@[simp] theorem next_setState (k : Kernel) (t : Ptr) (s : ThreadState) :
    (k.setState t s).next = k.next := by
  funext u; simp only [next, setState, modify_mem]; split <;> simp_all

@[simp] theorem list_setState (k : Kernel) (t : Ptr) (s : ThreadState) (L : ListRef) :
    (k.setState t s).list L = k.list L := by
  rcases L with _ | ⟨u | c⟩ <;> simp only [list, setState, modify_ready_list, modify_conds,
    modify_mem]
  split <;> simp_all

@[simp] theorem setNext_thrtab (k : Kernel) (t : Ptr) (n : Option Ptr) :
    (k.setNext t n).thrtab = k.thrtab := rfl

@[simp] theorem setNext_tp (k : Kernel) (t : Ptr) (n : Option Ptr) :
    (k.setNext t n).tp = k.tp := rfl

@[simp] theorem setNext_state (k : Kernel) (t u : Ptr) (n : Option Ptr) :
    ((k.setNext t n).mem u).state = (k.mem u).state := by
  simp only [setNext, modify_mem]; split <;> simp_all

@[simp] theorem setList_thrtab (k : Kernel) (L : ListRef) (h : ThreadList) :
    (k.setList L h).thrtab = k.thrtab := by
  rcases L with _ | ⟨t | c⟩ <;> rfl

@[simp] theorem setList_tp (k : Kernel) (L : ListRef) (h : ThreadList) :
    (k.setList L h).tp = k.tp := by
  rcases L with _ | ⟨t | c⟩ <;> rfl

@[simp] theorem setList_state (k : Kernel) (L : ListRef) (h : ThreadList) (u : Ptr) :
    ((k.setList L h).mem u).state = (k.mem u).state := by
  rcases L with _ | ⟨t | c⟩ <;> simp only [setList, modify_mem]
  split <;> simp_all

/-- `k'` differs from `k` at most in memory and in the list headers. -/
structure MemOnly (k k' : Kernel) : Prop where
  thrtab : k'.thrtab = k.thrtab
  tp : k'.tp = k.tp
  ctl : k'.ctl = k.ctl
  stackBlocks : k'.stackBlocks = k.stackBlocks
  freed : k'.freed = k.freed

theorem MemOnly.refl (k : Kernel) : MemOnly k k := ⟨rfl, rfl, rfl, rfl, rfl⟩

theorem MemOnly.trans {k k' k'' : Kernel} (h : MemOnly k k') (h' : MemOnly k' k'') :
    MemOnly k k'' :=
  ⟨h'.1.trans h.1, h'.2.trans h.2, h'.3.trans h.3, h'.4.trans h.4, h'.5.trans h.5⟩

theorem MemOnly.modify (k : Kernel) (t : Ptr) (f : Thread → Thread) : MemOnly k (k.modify t f) :=
  ⟨rfl, rfl, rfl, rfl, rfl⟩

theorem MemOnly.setList (k : Kernel) (L : ListRef) (h : ThreadList) : MemOnly k (k.setList L h) := by
  rcases L with _ | ⟨t | c⟩ <;> exact ⟨rfl, rfl, rfl, rfl, rfl⟩

/-! ## The list functions -/

/-- `tlclear`. -/
def tlclear (k : Kernel) (L : ListRef) : Kernel :=
  k.setList L .empty

/-- `tlempty`. -/
def tlempty (k : Kernel) (L : ListRef) : Bool :=
  (k.list L).head.isNone

/-- `tlinsert`: clear `t`'s `list_next`, link `t` after the tail (or make it the
head of an empty list) and make it the tail. -/
def tlinsert (k : Kernel) (L : ListRef) (t : Ptr) : Option Kernel := do
  let k := k.setNext t none
  match (k.list L).tail with
  | some z =>
    check ((k.list L).head ≠ none)
    let k := k.setNext z (some t)
    pure (k.setList L { k.list L with tail := some t })
  | none =>
    check ((k.list L).head = none)
    let k := k.setList L { k.list L with head := some t }
    pure (k.setList L { k.list L with tail := some t })

/-- `tlremove`: unlink and return the head, or `NULL` for an empty list. -/
def tlremove (k : Kernel) (L : ListRef) : Option Ptr × Kernel :=
  match (k.list L).head with
  | none => (none, k)
  | some t =>
    let k := k.setList L { k.list L with head := k.next t }
    let k := if (k.list L).head ≠ none then k.setNext t none
      else k.setList L { k.list L with tail := none }
    (some t, k.setNext t none)

/-- `tlappend`: link the threads of `L1` after those of `L0`, then clear `L1`. -/
def tlappend (k : Kernel) (L0 L1 : ListRef) : Option Kernel := do
  let k ← match (k.list L0).head, (k.list L0).tail with
    | some _, none => none
    | some _, some z =>
      match (k.list L1).head, (k.list L1).tail with
      | some _, none => none
      | some h1, some _ =>
        let k := k.setNext z (some h1)
        pure (k.setList L0 { k.list L0 with tail := (k.list L1).tail })
      | none, _ => pure k
    | none, some _ => none
    | none, none =>
      let k := k.setList L0 { k.list L0 with head := (k.list L1).head }
      pure (k.setList L0 { k.list L0 with tail := (k.list L1).tail })
  let k := k.setList L1 { k.list L1 with head := none }
  pure (k.setList L1 { k.list L1 with tail := none })

/-! ## What the list functions leave alone -/

theorem tlremove_memOnly (k : Kernel) (L : ListRef) : MemOnly k (k.tlremove L).2 := by
  unfold tlremove; split
  · exact .refl k
  · dsimp only
    split
    · exact (MemOnly.setList _ _ _).trans (.modify _ _ _) |>.trans (.modify _ _ _)
    · exact (MemOnly.setList _ _ _).trans (.setList _ _ _) |>.trans (.modify _ _ _)

theorem tlinsert_memOnly {k k' : Kernel} {L : ListRef} {t : Ptr} (h : k.tlinsert L t = some k') :
    MemOnly k k' := by
  dsimp only [tlinsert] at h
  split at h <;> simp only [Option.bind_eq_bind, check_bind_eq_some, pure, Option.some.injEq] at h
    <;> obtain ⟨-, rfl⟩ := h
  · exact (MemOnly.modify _ _ _).trans (.modify _ _ _) |>.trans (.setList _ _ _)
  · exact (MemOnly.modify _ _ _).trans (.setList _ _ _) |>.trans (.setList _ _ _)

theorem tlappend_memOnly {k k' : Kernel} {L0 L1 : ListRef} (h : k.tlappend L0 L1 = some k') :
    MemOnly k k' := by
  unfold tlappend at h
  have clear (k₁ : Kernel) (h₁ : MemOnly k k₁) : MemOnly k
      ((k₁.setList L1 { k₁.list L1 with head := none }).setList L1
        { (k₁.setList L1 { k₁.list L1 with head := none }).list L1 with tail := none }) :=
    h₁.trans ((MemOnly.setList _ _ _).trans (.setList _ _ _))
  split at h <;> (try split at h) <;> simp only [Option.bind_eq_bind, Option.none_bind,
    Option.some_bind, pure, Option.some.injEq, reduceCtorEq] at h <;> subst h
  · exact clear _ ((MemOnly.modify _ _ _).trans (.setList _ _ _))
  · exact clear _ (.refl _)
  · exact clear _ ((MemOnly.setList _ _ _).trans (.setList _ _ _))

/-! ## Saved contexts

Only `_thread_swtch` and the creators store a thread's `context`; the list
functions and the stores of `state` and `list_next` keep every one. -/

@[simp] theorem setNext_context (k : Kernel) (t u : Ptr) (n : Option Ptr) :
    ((k.setNext t n).mem u).context = (k.mem u).context := by
  simp only [setNext, modify_mem]; split <;> simp_all

@[simp] theorem setState_context (k : Kernel) (t u : Ptr) (s : ThreadState) :
    ((k.setState t s).mem u).context = (k.mem u).context := by
  simp only [setState, modify_mem]; split <;> simp_all

@[simp] theorem setList_context (k : Kernel) (L : ListRef) (h : ThreadList) (u : Ptr) :
    ((k.setList L h).mem u).context = (k.mem u).context := by
  rcases L with _ | ⟨t | c⟩ <;> simp only [setList, modify_mem]
  split <;> simp_all

theorem tlinsert_context {k k' : Kernel} {L : ListRef} {t : Ptr} (h : k.tlinsert L t = some k') (u : Ptr) :
    (k'.mem u).context = (k.mem u).context := by
  dsimp only [tlinsert] at h
  split at h <;> simp only [Option.bind_eq_bind, check_bind_eq_some, pure, Option.some.injEq] at h
    <;> obtain ⟨-, rfl⟩ := h <;> simp

theorem tlremove_context (k : Kernel) (L : ListRef) (u : Ptr) :
    ((k.tlremove L).2.mem u).context = (k.mem u).context := by
  unfold tlremove; split
  · rfl
  · dsimp only; split <;> simp

theorem tlappend_context {k k' : Kernel} {L0 L1 : ListRef} (h : k.tlappend L0 L1 = some k') (u : Ptr) :
    (k'.mem u).context = (k.mem u).context := by
  unfold tlappend at h
  split at h <;> (try split at h) <;> simp only [Option.bind_eq_bind, Option.none_bind,
    Option.some_bind, pure, Option.some.injEq, reduceCtorEq] at h <;> subst h <;> simp

end Kernel

/-! ## List segments -/

/-- Following `next` from `x` visits the threads of `l` in order and then
arrives at `y`. -/
inductive Lseg (next : Ptr → Option Ptr) : Option Ptr → List Ptr → Option Ptr → Prop
  | nil (x : Option Ptr) : Lseg next x [] x
  | cons (t : Ptr) (l : List Ptr) (y : Option Ptr) :
      Lseg next (next t) l y → Lseg next (some t) (t :: l) y

/-- The header `h` represents the sequence `l`: the list read from `head`
through `list_next` is `l`, ending in `NULL`, `tail` is its last thread, and no
thread occurs twice. -/
structure Represents (next : Ptr → Option Ptr) (h : ThreadList) (l : List Ptr) : Prop where
  seg : Lseg next h.head l none
  tail : h.tail = l.getLast?
  nodup : l.Nodup

namespace Lseg

variable {next next' : Ptr → Option Ptr}

theorem frame {x y : Option Ptr} {l : List Ptr} (same : ∀ t ∈ l, next' t = next t)
    (seg : Lseg next x l y) : Lseg next' x l y := by
  induction seg with
  | nil x => exact .nil x
  | cons t l y _ ih =>
    refine .cons t l y ?_
    rw [same t (List.mem_cons_self t l)]
    exact ih fun u hu => same u (List.mem_cons_of_mem t hu)

theorem append {x y z : Option Ptr} {l₁ l₂ : List Ptr} (first : Lseg next x l₁ y)
    (second : Lseg next y l₂ z) : Lseg next x (l₁ ++ l₂) z := by
  induction first with
  | nil => exact second
  | cons t l _ _ ih => exact .cons t _ _ (ih second)

theorem snoc {x y : Option Ptr} {l : List Ptr} {t : Ptr} (seg : Lseg next x l (some t))
    (last : next t = y) : Lseg next x (l ++ [t]) y :=
  seg.append (.cons t [] y (last ▸ .nil _))

theorem nil_inv {x y : Option Ptr} (seg : Lseg next x [] y) : x = y := by
  cases seg; rfl

theorem cons_inv {x y : Option Ptr} {t : Ptr} {l : List Ptr} (seg : Lseg next x (t :: l) y) :
    x = some t ∧ Lseg next (next t) l y := by
  cases seg with
  | cons _ _ _ rest => exact ⟨rfl, rest⟩

/-- The sequence read from `x` up to `NULL` is determined by `next`. -/
theorem unique {x : Option Ptr} {l l' : List Ptr} (seg : Lseg next x l none)
    (seg' : Lseg next x l' none) : l = l' := by
  induction l generalizing x l' with
  | nil => cases seg; cases seg' with | nil => rfl
  | cons t l ih =>
    cases seg with
    | cons _ _ _ rest => cases seg' with
      | cons _ l' _ rest' => rw [ih rest rest']

theorem head_eq_none {l : List Ptr} (seg : Lseg next none l none) : l = [] :=
  unique seg (.nil none)

/-- A segment ending in `NULL` with a last thread `t` runs through `t`. -/
theorem split_last {x : Option Ptr} {l : List Ptr} {t : Ptr} (seg : Lseg next x (l ++ [t]) none) :
    Lseg next x l (some t) ∧ next t = none := by
  induction l generalizing x with
  | nil =>
    cases seg with
    | cons _ _ _ rest => exact ⟨.nil _, rest.nil_inv⟩
  | cons u l ih =>
    cases seg with
    | cons _ _ _ rest =>
      obtain ⟨seg', last⟩ := ih rest
      exact ⟨.cons u l _ seg', last⟩

end Lseg

end OsKernel.Threads
