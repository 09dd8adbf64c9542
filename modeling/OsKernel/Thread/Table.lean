import OsKernel.Thread.Invariant

/-! # Reads of `thrtab`

`thrtab` is a C array of `NTHR` pointers, and `thread_join`, `thread_process`,
`thread_set_process` and `thread_name` index it with an `int` their caller
passes, for `thread_join` the argument of the `wait` system call.  Here each
of them is written statement by statement with its reads of the table, and a
read outside `[0, NTHR)` is a fault.

`thread_join` reads `thrtab[tid]` before it tests `tid`, and the accessors guard
their reads with `0 <= tid || tid < NTHR`, which every `int` passes, so all four
read out of bounds for every `tid` outside `[0, NTHR)`.  The scheduler's
`Kernel.thread_join` makes the same read, with the fault as `none`.
-/

namespace OsKernel.Threads

/-- How a call goes wrong: an `assert` fails, an array is read outside its
bounds, or a `NULL` pointer is followed. -/
inductive Fault
  | assertion
  | outOfBounds (i : Int)
  | nullDereference
  deriving DecidableEq, Repr

namespace Table

/-- `assert (p)`. -/
def assert (p : Prop) [Decidable p] : Except Fault Unit :=
  if p then pure () else throw .assertion

/-- `thrtab[i]`. -/
def thrtabAt (k : Kernel) (i : Int) : Except Fault (Option Ptr) :=
  if h : 0 ≤ i ∧ i < NTHR then pure (k.thrtab ⟨i.toNat, by omega⟩) else throw (.outOfBounds i)

theorem thrtabAt_of_not_mem (k : Kernel) {i : Int} (outside : i < 0 ∨ NTHR ≤ i) :
    thrtabAt k i = throw (.outOfBounds i) :=
  dif_neg (by omega)

/-- `thread_join (tid)`: the read of `thrtab[tid]` that opens it, then the call
as `Kernel.thread_join` models it. -/
def thread_join (k : Kernel) (tid : Int) : Except Fault (Option (Kernel × Option Int)) := do
  let child ← thrtabAt k tid
  if tid ≤ 0 ∨ NTHR ≤ tid then pure (some (k, some (-1)))
  else
    match child with
    | none => pure (some (k, some (-1)))
    | some c => if (k.mem c).parent ≠ some k.tp then pure (some (k, some (-1))) else pure (k.joinLoop tid.toNat c)

/-- The body shared by `thread_process`, `thread_set_process` and
`thread_name`: assert the guard and that `thrtab[tid]` is not `NULL`, then
`use` the thread `thrtab[tid]` points at. -/
def thrtabAccess {α : Type} (k : Kernel) (tid : Int) (use : Ptr → α) : Except Fault α := do
  assert (0 ≤ tid ∨ tid < NTHR)
  let t ← thrtabAt k tid
  assert (t ≠ none)
  match ← thrtabAt k tid with
  | some t => pure (use t)
  | none => throw .nullDereference

/-- `thread_process (tid)`. -/
def thread_process (k : Kernel) (tid : Int) : Except Fault (Option Nat) :=
  thrtabAccess k tid fun t => (k.mem t).proc

/-- `thread_set_process (tid, proc)`. -/
def thread_set_process (k : Kernel) (tid : Int) (proc : Option Nat) : Except Fault Kernel :=
  thrtabAccess k tid fun t => k.modify t fun r => { r with proc := proc }

/-- `thread_name (tid)`: the thread whose `name` it returns (names are not
modelled). -/
def thread_name (k : Kernel) (tid : Int) : Except Fault Ptr :=
  thrtabAccess k tid id

/-- The accessors' guard `0 <= tid || tid < NTHR` holds for every `tid`. -/
theorem accessor_guard (tid : Int) : 0 ≤ tid ∨ tid < NTHR := by
  omega

theorem thrtabAccess_of_not_mem {α : Type} (k : Kernel) {tid : Int} (use : Ptr → α)
    (outside : tid < 0 ∨ NTHR ≤ tid) : thrtabAccess k tid use = throw (.outOfBounds tid) := by
  simp only [thrtabAccess, assert, if_pos (accessor_guard tid), thrtabAt_of_not_mem k outside]
  rfl

end Table

/-- For every `tid` outside `[0, NTHR)`, `thread_join`, `thread_process`,
`thread_set_process` and `thread_name` all read `thrtab[tid]`, out of bounds,
before anything rejects `tid`. -/
theorem thrtab_read_out_of_range (k : Kernel) (tid : Int) (outside : tid < 0 ∨ NTHR ≤ tid)
    (proc : Option Nat) :
    Table.thread_join k tid = throw (.outOfBounds tid) ∧
      Table.thread_process k tid = throw (.outOfBounds tid) ∧
      Table.thread_set_process k tid proc = throw (.outOfBounds tid) ∧
      Table.thread_name k tid = throw (.outOfBounds tid) :=
  ⟨by simp only [Table.thread_join, Table.thrtabAt_of_not_mem k outside]; rfl,
    Table.thrtabAccess_of_not_mem k _ outside, Table.thrtabAccess_of_not_mem k _ outside,
    Table.thrtabAccess_of_not_mem k _ outside⟩

/-- `wait` with `tid = -1` or `tid = NTHR`, at boot. -/
theorem thrtab_read_out_of_range_at_boot :
    ((-1 : Int) < 0 ∨ NTHR ≤ (-1 : Int)) ∧ ((NTHR : Int) < 0 ∨ NTHR ≤ (NTHR : Int)) ∧
      (Table.thread_join (thread_init bootLayout fun _ => blank) (-1) = throw (.outOfBounds (-1)) ∧
        Table.thread_process (thread_init bootLayout fun _ => blank) (-1) = throw (.outOfBounds (-1)) ∧
        Table.thread_set_process (thread_init bootLayout fun _ => blank) (-1) none = throw (.outOfBounds (-1)) ∧
        Table.thread_name (thread_init bootLayout fun _ => blank) (-1) = throw (.outOfBounds (-1))) ∧
      (Table.thread_join (thread_init bootLayout fun _ => blank) NTHR = throw (.outOfBounds NTHR) ∧
        Table.thread_process (thread_init bootLayout fun _ => blank) NTHR = throw (.outOfBounds NTHR) ∧
        Table.thread_set_process (thread_init bootLayout fun _ => blank) NTHR none = throw (.outOfBounds NTHR) ∧
        Table.thread_name (thread_init bootLayout fun _ => blank) NTHR = throw (.outOfBounds NTHR)) :=
  have below : (-1 : Int) < 0 ∨ NTHR ≤ (-1 : Int) := .inl (by decide)
  have above : (NTHR : Int) < 0 ∨ NTHR ≤ (NTHR : Int) := .inr (Int.le_refl _)
  ⟨below, above, thrtab_read_out_of_range _ (-1) below none, thrtab_read_out_of_range _ NTHR above none⟩

end OsKernel.Threads
