import Mathlib.Data.List.Basic
import Mathlib.Data.List.GetD
import Mathlib.Algebra.Order.Ring.Nat
import OsKernel.Store

/-! # The I/O interface

A `struct io_intf` is used through the function pointers of its `struct
io_ops`.  Here a device is its state `σ` together with its `read` and `write`
operations; a missing operation (a `NULL` pointer) is `none`.  A call returns a
count or a negative error code, as a `long`.

`ioread_full` and `iowrite` call the operation until the whole buffer has been
transferred, an error occurs, or a call returns `0`.  Each call that goes on
transfers at least one byte, so a loop of `n` bytes makes at most `n` calls:
the loops take that bound as fuel.
-/

namespace OsKernel.Io

/-- A byte. -/
abbrev Byte := UInt8

/-- Error numbers from `error.h`, which is not among the sources; the functions
return them negated. -/
structure Errno where
  EINVAL : Nat
  ENOTSUP : Nat
  EINVAL_pos : 0 < EINVAL
  ENOTSUP_pos : 0 < ENOTSUP

/-- The operations of a `struct io_intf` used here, on device state `σ`. -/
structure IoIntf (σ : Type) where
  /-- `read (io, buf, n)`: a count or a negative error, and the bytes the call
  stored from `buf` on. -/
  read : Option (σ → Nat → Int × List Byte × σ)
  /-- `write (io, buf, n)` of the `n` bytes given: a count or a negative error. -/
  write : Option (σ → List Byte → Int × σ)

/-- A buffer: the byte at every offset. -/
abbrev Buffer := Nat → Byte

/-- Store `bytes` into `dst` from offset `o` on. -/
def storeBytes (dst : Buffer) (o : Nat) (bytes : List Byte) : Buffer :=
  fun i => if o ≤ i then bytes.getD (i - o) (dst i) else dst i

@[simp] theorem storeBytes_nil (dst : Buffer) (o : Nat) : storeBytes dst o [] = dst := by
  funext i
  simp [storeBytes]

theorem storeBytes_of_lt (b : Buffer) {o i : Nat} (bytes : List Byte) (h : i < o) :
    storeBytes b o bytes i = b i := by
  simp [storeBytes, Nat.not_le.mpr h]

theorem storeBytes_of_le (b : Buffer) {o i : Nat} (bytes : List Byte) (h : o + bytes.length ≤ i) :
    storeBytes b o bytes i = b i := by
  simp only [storeBytes, show o ≤ i by omega, if_true]
  exact List.getD_eq_default _ _ (by omega)

theorem storeBytes_singleton (b : Buffer) (o : Nat) (c : Byte) : storeBytes b o [c] = store b o c := by
  funext i
  rcases Nat.lt_or_ge i o with lt | ge
  · rw [storeBytes_of_lt b _ lt, store_of_ne _ _ _ (by omega)]
  · rcases Nat.eq_or_lt_of_le ge with rfl | gt
    · simp [storeBytes]
    · rw [storeBytes_of_le b _ (by simpa using gt), store_of_ne _ _ _ (by omega)]

/-- The `n` bytes of `b` from offset `o` on. -/
def slice (b : Buffer) (o : Nat) : Nat → List Byte
  | 0 => []
  | n + 1 => b o :: slice b (o + 1) n

section Slice

@[simp] theorem slice_zero (b : Buffer) (o : Nat) : slice b o 0 = [] := rfl

@[simp] theorem slice_one (b : Buffer) (o : Nat) : slice b o 1 = [b o] := rfl

@[simp] theorem slice_length (b : Buffer) (o n : Nat) : (slice b o n).length = n := by
  induction n generalizing o <;> simp_all [slice]

theorem slice_add (b : Buffer) (o m n : Nat) : slice b o (m + n) = slice b o m ++ slice b (o + m) n := by
  induction m generalizing o with
  | zero => simp
  | succ m ih =>
    rw [Nat.add_right_comm, slice, slice, ih, Nat.add_right_comm o 1 m, Nat.add_assoc]
    rfl

/-- Buffers that agree on `[o, o + n)` have the same slice there. -/
theorem slice_congr {b b' : Buffer} {o n : Nat} (agree : ∀ i, o ≤ i → i < o + n → b i = b' i) :
    slice b o n = slice b' o n := by
  induction n generalizing o with
  | zero => rfl
  | succ n ih =>
    rw [slice, slice, agree o (Nat.le_refl o) (by omega), ih fun i lo hi => agree i (by omega) (by omega)]

/-- Bytes stored at `o` read back. -/
theorem slice_storeBytes (b : Buffer) (o : Nat) (bytes : List Byte) :
    slice (storeBytes b o bytes) o bytes.length = bytes := by
  induction bytes generalizing o with
  | nil => rfl
  | cons x xs ih =>
    rw [List.length_cons, slice]
    congr 1
    · simp [storeBytes]
    · refine (slice_congr fun i lo _ => ?_).trans (ih (o + 1))
      simp only [storeBytes, show o ≤ i by omega, show o + 1 ≤ i by omega, if_true]
      rw [show i - o = (i - (o + 1)) + 1 by omega, List.getD_cons_succ]

theorem slice_getElem (b : Buffer) (o n i : Nat) (h : i < (slice b o n).length) :
    (slice b o n)[i] = b (o + i) := by
  induction n generalizing o i with
  | zero => simp at h
  | succ n ih =>
    cases i with
    | zero => rfl
    | succ i =>
      simp only [slice, List.getElem_cons_succ]
      rw [ih]
      congr 1
      omega

/-- A store past the end of a slice leaves it alone. -/
theorem slice_store_of_le (b : Buffer) {o m a : Nat} (c : Byte) (h : o + m ≤ a) :
    slice (store b a c) o m = slice b o m :=
  slice_congr fun _ _ hi => store_of_ne _ _ _ (by omega)

/-- A store just past the end of a slice extends it. -/
theorem slice_store_end (b : Buffer) (o a : Nat) (c : Byte) :
    slice (store b (o + a) c) o (a + 1) = slice b o a ++ [c] := by
  rw [slice_add, slice_store_of_le b c (Nat.le_refl _)]
  simp [slice]

/-- The slice one byte shorter drops the last byte. -/
theorem slice_pred (b : Buffer) (o a : Nat) : slice b o (a - 1) = (slice b o a).dropLast := by
  cases a with
  | zero => rfl
  | succ a => rw [Nat.add_sub_cancel, slice_add, slice, slice_zero, List.dropLast_concat]

end Slice

variable {σ : Type}

/-- The loop of `ioread_full` with `acc` bytes read: read into `buf + acc` the
`bufsz - acc` bytes still wanted. -/
def readLoop (read : σ → Nat → Int × List Byte × σ) (bufsz : Nat) :
    Nat → Nat → σ → Buffer → Int × Buffer × σ
  | 0, acc, s, buf => (acc, buf, s)
  | fuel + 1, acc, s, buf =>
    if acc < bufsz then
      let (cnt, bytes, s) := read s (bufsz - acc)
      let buf := storeBytes buf acc bytes
      if cnt < 0 then (cnt, buf, s)
      else if cnt = 0 then (acc, buf, s)
      else readLoop read bufsz fuel (acc + cnt.toNat) s buf
    else (acc, buf, s)

/-- `ioread_full (io, buf, bufsz)`. -/
def ioread_full (E : Errno) (io : IoIntf σ) (s : σ) (buf : Buffer) (bufsz : Nat) :
    Int × Buffer × σ :=
  match io.read with
  | none => (-E.ENOTSUP, buf, s)
  | some read => readLoop read bufsz bufsz 0 s buf

/-- The loop of `iowrite` with `acc` bytes written: write the bytes of `src`
from `acc` on. -/
def writeLoop (write : σ → List Byte → Int × σ) (src : List Byte) :
    Nat → Nat → σ → Int × σ
  | 0, acc, s => (acc, s)
  | fuel + 1, acc, s =>
    if acc < src.length then
      let (cnt, s) := write s (src.drop acc)
      if cnt < 0 then (cnt, s)
      else if cnt = 0 then (acc, s)
      else writeLoop write src fuel (acc + cnt.toNat) s
    else (acc, s)

/-- `iowrite (io, buf, n)` of the `n` bytes of `src`. -/
def iowrite (E : Errno) (io : IoIntf σ) (s : σ) (src : List Byte) : Int × σ :=
  match io.write with
  | none => (-E.ENOTSUP, s)
  | some write => writeLoop write src src.length 0 s

theorem writeLoop_done (write : σ → List Byte → Int × σ) (src : List Byte) (fuel acc : Nat)
    (s : σ) (done : src.length ≤ acc) : writeLoop write src fuel acc s = ((acc : Int), s) := by
  cases fuel <;> simp [writeLoop, Nat.not_lt.mpr done]

/-! ## A device that takes every byte -/

/-- A device whose `write` takes every byte it is given, appending it to what it
has received, and returns the count. -/
def acceptAll : IoIntf (List Byte) where
  read := none
  write := some fun out bytes => (bytes.length, out ++ bytes)

/-- `iowrite` to `acceptAll` writes everything in one call. -/
theorem iowrite_acceptAll (E : Errno) (out src : List Byte) :
    iowrite E acceptAll out src = ((src.length : Int), out ++ src) := by
  cases src with
  | nil => simp [iowrite, acceptAll, writeLoop]
  | cons b bs =>
    have sent : ((b :: bs).length : Int) ≠ 0 := by simp; omega
    simp only [iowrite, acceptAll, List.length_cons, writeLoop, Nat.zero_lt_succ, if_true,
      List.drop_zero]
    rw [if_neg (by omega), if_neg (by simpa using sent), writeLoop_done _ _ _ _ _ (by simp)]
    simp

end OsKernel.Io
