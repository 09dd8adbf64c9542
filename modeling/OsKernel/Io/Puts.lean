import OsKernel.Io.Intf

/-! # `ioputs` and `iovprintf`

`ioputs (io, s)` writes the string and then a newline with `iowrite`, and
returns the error of the first write that fails, or else `0`.  `iowrite`
returns the count of the bytes written when the device stops taking them, and
`ioputs` does not compare that count with the length: a short write is not
reported (`ioputs_hides_short_writes`).

`iovprintf` hands each character `vgprintf` produces to `iovprintf_putc`, which
writes it with `ioputc` while no call has failed and then writes nothing more;
the call returns the first error, or else the count `vgprintf` returns
(`iovprintf_first_error`).  Neither `vgprintf` nor `ioputc` is among the
sources: the characters and the count are given, and `ioputc` is taken as
given, as in `Io/TermWrite`.
-/

namespace OsKernel.Io

variable {σ : Type}

/-- `ioputs (io, s)`, for the characters `s` of `s` before its `NUL`. -/
def ioputs (E : Errno) (io : IoIntf σ) (st : σ) (s : List Byte) : Int × σ :=
  let (wlen, st) := iowrite E io st s
  if wlen < 0 then (wlen, st)
  else
    let (wlen, st) := iowrite E io st [10]
    if wlen < 0 then (wlen, st) else (0, st)

/-- `iovprintf_putc (c, aux)`, on the `err` field of the `iovprintf_state` and
the device. -/
def iovprintf_putc (ioputc : σ → Byte → Int × σ) (state : Int × σ) (c : Byte) : Int × σ :=
  if state.1 = 0 then
    let (result, io) := ioputc state.2 c
    if result < 0 then (result, io) else (state.1, io)
  else state

/-- `iovprintf (io, fmt, ap)`, where `vgprintf` passes the characters `out` to
`iovprintf_putc` and returns `nout`. -/
def iovprintf (ioputc : σ → Byte → Int × σ) (io : σ) (out : List Byte) (nout : Nat) : Int × σ :=
  let state := out.foldl (iovprintf_putc ioputc) (0, io)
  (if state.1 ≠ 0 then state.1 else nout, state.2)

/-! ## Short writes -/

/-- On a device whose `write` never fails, neither does `iowrite`'s loop. -/
theorem writeLoop_nonneg {write : σ → List Byte → Int × σ} (no_error : ∀ st bytes, 0 ≤ (write st bytes).1)
    (src : List Byte) (fuel acc : Nat) (st : σ) : 0 ≤ (writeLoop write src fuel acc st).1 := by
  induction fuel generalizing acc st with
  | zero => exact Int.natCast_nonneg acc
  | succ fuel ih =>
    rw [writeLoop]
    split
    · dsimp only
      split_ifs with neg
      · exact absurd (no_error st _) (Int.not_le.mpr neg)
      · exact Int.natCast_nonneg acc
      · exact ih _ _
    · exact Int.natCast_nonneg acc

/-- `ioputs` returns `0` on every device whose `write` never fails, whether or
not the device took the whole string and the newline. -/
theorem ioputs_hides_short_writes (E : Errno) (io : IoIntf σ) {write : σ → List Byte → Int × σ}
    (has_write : io.write = some write) (no_error : ∀ st bytes, 0 ≤ (write st bytes).1) (st : σ) (s : List Byte) :
    (ioputs E io st s).1 = 0 := by
  have sent (st : σ) (bytes : List Byte) : ¬ (iowrite E io st bytes).1 < 0 := by
    rw [iowrite, has_write]
    exact Int.not_lt.mpr (writeLoop_nonneg no_error _ _ _ _)
  simp only [ioputs, if_neg (sent _ _)]

/-- A device that takes no byte: `ioputs (io, "hi")` returns `0` and nothing
is written. -/
theorem ioputs_to_full_device :
    (ioputs ⟨1, 1, Nat.one_pos, Nat.one_pos⟩ ⟨none, some fun out _ => (0, out)⟩ ([] : List Byte) [104, 105]).1 = 0 ∧
      (ioputs ⟨1, 1, Nat.one_pos, Nat.one_pos⟩ ⟨none, some fun out _ => (0, out)⟩ ([] : List Byte) [104, 105]).2 = [] :=
  ⟨ioputs_hides_short_writes _ _ rfl (fun _ _ => le_refl 0) _ _, rfl⟩

/-! ## The first error of `iovprintf` -/

/-- Once `err` is set, `iovprintf_putc` writes nothing. -/
theorem foldl_putc_latched (ioputc : σ → Byte → Int × σ) {state : Int × σ} (set : state.1 ≠ 0)
    (cs : List Byte) :
    cs.foldl (iovprintf_putc ioputc) state = state := by
  induction cs with
  | nil => rfl
  | cons c cs ih => rw [List.foldl_cons, iovprintf_putc, if_neg set, ih]

/-- When the calls of `ioputc` for the characters `pre` succeed and the one for
`c` fails, `iovprintf` returns that call's error, and the device is left as
that call left it: no later character is written. -/
theorem iovprintf_first_error (ioputc : σ → Byte → Int × σ) (io : σ) (pre : List Byte) (c : Byte)
    (post : List Byte) (nout : Nat) (fine : (pre.foldl (iovprintf_putc ioputc) (0, io)).1 = 0)
    (fails : (ioputc (pre.foldl (iovprintf_putc ioputc) (0, io)).2 c).1 < 0) :
    iovprintf ioputc io (pre ++ c :: post) nout = ioputc (pre.foldl (iovprintf_putc ioputc) (0, io)).2 c := by
  set state := pre.foldl (iovprintf_putc ioputc) (0, io)
  have step : iovprintf_putc ioputc state c = ioputc state.2 c := by
    rw [iovprintf_putc, if_pos fine]
    exact if_pos fails
  rw [iovprintf, List.foldl_append, List.foldl_cons, step, foldl_putc_latched _ fails.ne, if_pos fails.ne]

/-- A device that takes one byte and then fails with `-5`: `iovprintf` of
`"hij"` writes `h` and returns `-5`. -/
theorem iovprintf_stops_after_h :
    iovprintf (fun out c => if out = [] then ((1 : Int), out ++ [c]) else (-5, out)) [] [104, 105, 106] 3 =
      (-5, [104]) :=
  iovprintf_first_error (fun out c => if out = [] then ((1 : Int), out ++ [c]) else (-5, out)) [] [104] 105 [106] 3
    (by decide) (by decide)

end OsKernel.Io
