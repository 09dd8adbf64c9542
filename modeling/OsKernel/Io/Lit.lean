import OsKernel.Io.Intf

/-! # I/O literals

An `io_lit` serves a block of memory as a file: `io_lit_read` and
`io_lit_write` copy from or to the block at `pos` and advance `pos`, clipping
the transfer at `size`.  `size_t` arithmetic wraps at `2^64`.

Both return `0` on success, as their comments say, while `ioread_full` and
`iowrite` read the value as the number of bytes transferred: a `0` ends their
loop, so they report `0` bytes for a transfer that moved some.  At the end of
the literal both return `-EINVAL` where an end of file is a count of `0`.

A request whose end `pos + n` wraps past `2^64` escapes the clip and stores
past the literal (`lit_transfer_wraps`); a run of calls whose requests cannot
wrap stores only inside it (`litRun_frame`).
-/

namespace OsKernel.Io

/-- `struct io_lit`, without the `io_intf` header and its `refcnt`, which
nothing modelled reads. -/
structure IoLit where
  /-- The block, by offset from `lit->buf`. -/
  buf : Buffer
  size : Nat
  pos : Nat

/-- `size_t` arithmetic. -/
def SIZE_MAX_SUCC : Nat := 2 ^ 64

/-- `iolit_init (lit, buf, size)`. -/
def iolit_init (buf : Buffer) (size : Nat) : IoLit where
  buf := buf
  size := size
  pos := 0

/-- The transfer size of `io_lit_read` and `io_lit_write`: `n`, clipped at
`size` when `pos + n` exceeds it. -/
def IoLit.clip (lit : IoLit) (n : Nat) : Nat :=
  if (lit.pos + n) % SIZE_MAX_SUCC > lit.size then lit.size - lit.pos else n

/-- `io_lit_read (io, buf, bufsz)`. -/
def io_lit_read (E : Errno) (lit : IoLit) (bufsz : Nat) : Int × List Byte × IoLit :=
  if lit.pos ≥ lit.size then (-E.EINVAL, [], lit)
  else
    let bytes_to_read := lit.clip bufsz
    (0, slice lit.buf lit.pos bytes_to_read, { lit with pos := (lit.pos + bytes_to_read) % SIZE_MAX_SUCC })

/-- `io_lit_write (io, buf, n)` of the bytes of `src`. -/
def io_lit_write (E : Errno) (lit : IoLit) (src : List Byte) : Int × IoLit :=
  if lit.pos ≥ lit.size then (-E.EINVAL, lit)
  else
    let bytes_to_write := lit.clip src.length
    (0, { lit with buf := storeBytes lit.buf lit.pos (src.take bytes_to_write),
                   pos := (lit.pos + bytes_to_write) % SIZE_MAX_SUCC })

/-- The `io_intf` that `iolit_init` returns. -/
def litIntf (E : Errno) : IoIntf IoLit where
  read := some (io_lit_read E)
  write := some (io_lit_write E)

/-- The commands of `io_lit_ioctl`, with the value `*arg` holds for
`IOCTL_SETPOS`.  Their codes are in `io.h`, which is not among the sources;
every other command, `IOCTL_GETREFCNT` among them, is `other`. -/
inductive IoctlCmd
  | getLen
  | setPos (pos : UInt64)
  | getPos
  | getBlkSz
  | other (cmd : Int)

/-- `io_lit_ioctl (io, cmd, arg)`: the code it returns, the value it stores at
`*arg`, and the literal after.  The `return -ENOTSUP` after the `switch` is
never reached: an unsupported command returns `-1`. -/
def io_lit_ioctl (lit : IoLit) : IoctlCmd → Int × Option Nat × IoLit
  | .getLen => (0, some lit.size, lit)
  | .setPos pos => (0, none, { lit with pos := pos.toNat })
  | .getPos => (0, some lit.pos, lit)
  | .getBlkSz => (0, some 4096, lit)
  | .other _ => (-1, none, lit)

section

variable (E : Errno) (lit : IoLit) {n : Nat}

/-- Without wrap-around, the clip is `min n (size - pos)`. -/
theorem IoLit.clip_eq (fits : lit.pos + n < SIZE_MAX_SUCC) :
    lit.clip n = min n (lit.size - lit.pos) := by
  unfold IoLit.clip
  rw [Nat.mod_eq_of_lt fits]
  split <;> omega

/-- When `pos + n` wraps past `2^64` to at most `size`, the clip keeps `n`. -/
theorem IoLit.clip_wrap (left : lit.pos < lit.size) (size_t : lit.size < SIZE_MAX_SUCC)
    (wraps : SIZE_MAX_SUCC ≤ lit.pos + n) (request : n < SIZE_MAX_SUCC) : lit.clip n = n := by
  have wrapped : (lit.pos + n) % SIZE_MAX_SUCC = lit.pos + n - SIZE_MAX_SUCC := by
    rw [Nat.mod_eq_sub_mod wraps, Nat.mod_eq_of_lt (by omega)]
  rw [IoLit.clip, wrapped, if_neg (by omega)]

/-- `ioread_full` on a literal with bytes left: it copies the clipped
transfer, advances `pos` past it, and returns `0`. -/
theorem ioread_full_lit (dst : Buffer) (left : lit.pos < lit.size)
    (wanted : 0 < n) (fits : lit.pos + n < SIZE_MAX_SUCC) :
    ioread_full E (litIntf E) lit dst n =
      (0, storeBytes dst 0 (slice lit.buf lit.pos (min n (lit.size - lit.pos))),
        { lit with pos := lit.pos + min n (lit.size - lit.pos) }) := by
  obtain ⟨m, rfl⟩ : ∃ m, n = m + 1 := ⟨n - 1, by omega⟩
  simp only [ioread_full, litIntf, readLoop, wanted, if_true, io_lit_read,
    show ¬ lit.pos ≥ lit.size by omega, if_false, Nat.sub_zero, lit.clip_eq fits]
  rw [if_neg (by decide), Nat.mod_eq_of_lt (by omega)]
  rfl

/-- `iowrite` to a literal with room left: it stores the clipped transfer at
`pos`, advances `pos` past it, and returns `0`. -/
theorem iowrite_lit (src : List Byte) (left : lit.pos < lit.size)
    (given : 0 < src.length)
    (fits : lit.pos + src.length < SIZE_MAX_SUCC) :
    iowrite E (litIntf E) lit src =
      (0, { lit with buf := storeBytes lit.buf lit.pos (src.take (min src.length (lit.size - lit.pos))),
                     pos := lit.pos + min src.length (lit.size - lit.pos) }) := by
  obtain ⟨m, hm⟩ : ∃ m, src.length = m + 1 := ⟨src.length - 1, by omega⟩
  simp only [iowrite, litIntf, hm, writeLoop, Nat.succ_pos, if_true, List.drop_zero,
    io_lit_write, show ¬ lit.pos ≥ lit.size by omega, if_false, lit.clip_eq (n := m + 1) (by omega)]
  rw [Nat.mod_eq_of_lt (by omega)]
  rfl

/-- At the end of the literal, `ioread_full` returns `-EINVAL` and changes nothing. -/
theorem ioread_full_lit_end (dst : Buffer) (done : lit.size ≤ lit.pos) (wanted : 0 < n) :
    ioread_full E (litIntf E) lit dst n = (-(E.EINVAL : Int), dst, lit) := by
  obtain ⟨m, rfl⟩ : ∃ m, n = m + 1 := ⟨n - 1, by omega⟩
  simp only [ioread_full, litIntf, readLoop, wanted, if_true, io_lit_read, ge_iff_le, done,
    storeBytes_nil]
  rw [if_pos (by have := E.EINVAL_pos; omega)]

/-- A request whose end `pos + n` wraps past `2^64` is not clipped:
`io_lit_read` copies all `n` bytes from `pos` on and `io_lit_write` stores all
`n` there, past the last byte `buf[size - 1]` of the literal, and `pos` wraps
to below where it was. -/
theorem lit_transfer_wraps (left : lit.pos < lit.size) (size_t : lit.size < SIZE_MAX_SUCC)
    (request : n < SIZE_MAX_SUCC) (wraps : SIZE_MAX_SUCC ≤ lit.pos + n) (src : List Byte)
    (given : src.length = n) :
    (io_lit_read E lit n).2.1 = slice lit.buf lit.pos n ∧
      (io_lit_write E lit src).2.buf = storeBytes lit.buf lit.pos src ∧
      lit.size - lit.pos < n ∧ (io_lit_read E lit n).2.2.pos = lit.pos + n - SIZE_MAX_SUCC := by
  have clip := lit.clip_wrap left size_t wraps request
  have wrapped : (lit.pos + n) % SIZE_MAX_SUCC = lit.pos + n - SIZE_MAX_SUCC := by
    rw [Nat.mod_eq_sub_mod wraps, Nat.mod_eq_of_lt (by omega)]
  have unread : ¬ lit.pos ≥ lit.size := by omega
  refine ⟨?_, ?_, by omega, ?_⟩ <;> simp only [io_lit_read, io_lit_write, unread, if_false, given,
    clip, wrapped, List.take_of_length_le (Nat.le_of_eq given)]

end

/-- A request of `2^64 - 1` bytes at position `1` of a four-byte literal. -/
theorem lit_transfer_wraps_at_one : (1 < 4 ∧ 4 < SIZE_MAX_SUCC ∧ 2 ^ 64 - 1 < SIZE_MAX_SUCC ∧
      SIZE_MAX_SUCC ≤ 1 + (2 ^ 64 - 1) ∧ (List.replicate (2 ^ 64 - 1) (0 : Byte)).length = 2 ^ 64 - 1) ∧
    (io_lit_read ⟨1, 1, Nat.one_pos, Nat.one_pos⟩ ⟨fun _ => 0, 4, 1⟩ (2 ^ 64 - 1)).2.1 =
        slice (fun _ => 0) 1 (2 ^ 64 - 1) ∧
      (io_lit_write ⟨1, 1, Nat.one_pos, Nat.one_pos⟩ ⟨fun _ => 0, 4, 1⟩ (List.replicate (2 ^ 64 - 1) 0)).2.buf =
        storeBytes (fun _ => 0) 1 (List.replicate (2 ^ 64 - 1) 0) ∧
      4 - 1 < 2 ^ 64 - 1 ∧
      (io_lit_read ⟨1, 1, Nat.one_pos, Nat.one_pos⟩ ⟨fun _ => 0, 4, 1⟩ (2 ^ 64 - 1)).2.2.pos =
        1 + (2 ^ 64 - 1) - SIZE_MAX_SUCC :=
  have hyps : 1 < 4 ∧ 4 < SIZE_MAX_SUCC ∧ 2 ^ 64 - 1 < SIZE_MAX_SUCC ∧ SIZE_MAX_SUCC ≤ 1 + (2 ^ 64 - 1) ∧
      (List.replicate (2 ^ 64 - 1) (0 : Byte)).length = 2 ^ 64 - 1 :=
    ⟨by decide, by decide, by decide, by decide, List.length_replicate _ _⟩
  ⟨hyps, lit_transfer_wraps ⟨1, 1, Nat.one_pos, Nat.one_pos⟩ ⟨fun _ => 0, 4, 1⟩ hyps.1 hyps.2.1 hyps.2.2.1
    hyps.2.2.2.1 _ hyps.2.2.2.2⟩

/-- Three bytes read in full from the start of a three-byte literal, three
written there, and three read at its end: both transfers move three bytes and
report `0`, and the read at the end reports `-EINVAL`. -/
theorem literal_transfers_report_zero (E : Errno) (buf dst : Buffer) :
    let lit := iolit_init buf 3
    (ioread_full E (litIntf E) lit dst 3).1 = 0 ∧ (ioread_full E (litIntf E) lit dst 3).2.2.pos = 3 ∧
    (iowrite E (litIntf E) lit [1, 2, 3]).1 = 0 ∧ (iowrite E (litIntf E) lit [1, 2, 3]).2.pos = 3 ∧
    (ioread_full E (litIntf E) { lit with pos := 3 } dst 3).1 = -E.EINVAL := by
  intro lit
  have room : lit.pos + 3 < SIZE_MAX_SUCC := by simp [lit, iolit_init, SIZE_MAX_SUCC]
  have left : lit.pos < lit.size := Nat.zero_lt_succ 2
  rw [ioread_full_lit E lit dst left (by decide) room, iowrite_lit E lit [1, 2, 3] left (by decide) room,
    ioread_full_lit_end E _ dst (Nat.le_refl 3) (by decide)]
  exact ⟨rfl, rfl, rfl, rfl, rfl⟩

/-! ## Runs of a literal

A run of `io_lit_read`, `io_lit_write` and `io_lit_ioctl` calls on one literal
stores only inside it, in `buf[0, size)`, as long as no request can carry
`pos + n` past `2^64`: a request of `n` bytes with `size + n ≤ 2^64` is clipped
at `size` from any `pos` below it.  `lit_transfer_wraps` is a request past
that bound storing past the end.
-/

/-- A call on an `io_lit` through its `io_intf`. -/
inductive LitOp
  | read (bufsz : Nat)
  | write (src : List Byte)
  | ioctl (cmd : IoctlCmd)

/-- The literal after a call. -/
def litStep (E : Errno) (lit : IoLit) : LitOp → IoLit
  | .read bufsz => (io_lit_read E lit bufsz).2.2
  | .write src => (io_lit_write E lit src).2
  | .ioctl cmd => (io_lit_ioctl lit cmd).2.2

/-- The literal after a run of calls. -/
def litRun (E : Errno) (lit : IoLit) (ops : List LitOp) : IoLit :=
  ops.foldl (litStep E) lit

/-- A request that cannot carry `pos + n` past `2^64` from a `pos` below `size`. -/
def LitOp.fits (size : Nat) : LitOp → Prop
  | .read bufsz => size + bufsz ≤ SIZE_MAX_SUCC
  | .write src => size + src.length ≤ SIZE_MAX_SUCC
  | .ioctl _ => True

instance (size : Nat) : DecidablePred (LitOp.fits size) := fun op => by
  cases op <;> unfold LitOp.fits <;> infer_instance

section Run

variable (E : Errno)

theorem litStep_size (lit : IoLit) (op : LitOp) : (litStep E lit op).size = lit.size := by
  rcases op with bufsz | src | cmd
  · simp only [litStep, io_lit_read]; split <;> rfl
  · simp only [litStep, io_lit_write]; split <;> rfl
  · cases cmd <;> rfl

/-- A call within the bound stores nothing from `size` on. -/
theorem litStep_frame (lit : IoLit) {op : LitOp} (fits : op.fits lit.size) {i : Nat} (past : lit.size ≤ i) :
    (litStep E lit op).buf i = lit.buf i := by
  rcases op with bufsz | src | cmd
  · simp only [litStep, io_lit_read]; split <;> rfl
  · simp only [litStep, io_lit_write]
    split
    · rfl
    · have clip := lit.clip_eq (n := src.length) (by simp only [LitOp.fits] at fits; omega)
      exact storeBytes_of_le _ _ (by rw [List.length_take, clip]; omega)
  · cases cmd <;> rfl

/-- A run of calls within the bound keeps `size` and stores nothing from `size`
on: the memory past the literal is what it was. -/
theorem litRun_frame (lit : IoLit) (ops : List LitOp) (fit : ∀ op ∈ ops, op.fits lit.size) {i : Nat}
    (past : lit.size ≤ i) : (litRun E lit ops).size = lit.size ∧ (litRun E lit ops).buf i = lit.buf i := by
  induction ops generalizing lit with
  | nil => exact ⟨rfl, rfl⟩
  | cons op ops ih =>
    have size := litStep_size E lit op
    obtain ⟨same, frame⟩ := ih (litStep E lit op) (fun o mem => size ▸ fit o (List.mem_cons_of_mem op mem))
      (size ▸ past)
    exact ⟨same.trans size, frame.trans (litStep_frame E lit (fit op (List.mem_cons_self op ops)) past)⟩

/-- A write of two bytes, a read of three, a seek back to the start and a write
of five on a four-byte literal: the literal keeps its size and the byte after
it is untouched, although the last write asked for more than fits. -/
theorem lit_run_stays_inside :
    ((∀ op ∈ [LitOp.write [1, 2], .read 3, .ioctl (.setPos 0), .write [5, 6, 7, 8, 9]], op.fits 4) ∧ 4 ≤ 4) ∧
      (litRun ⟨1, 1, Nat.one_pos, Nat.one_pos⟩ ⟨fun _ => 0, 4, 0⟩
          [.write [1, 2], .read 3, .ioctl (.setPos 0), .write [5, 6, 7, 8, 9]]).size = 4 ∧
      (litRun ⟨1, 1, Nat.one_pos, Nat.one_pos⟩ ⟨fun _ => 0, 4, 0⟩
          [.write [1, 2], .read 3, .ioctl (.setPos 0), .write [5, 6, 7, 8, 9]]).buf 4 = 0 :=
  have hyps : (∀ op ∈ [LitOp.write [1, 2], .read 3, .ioctl (.setPos 0), .write [5, 6, 7, 8, 9]], op.fits 4) ∧
      4 ≤ 4 := ⟨by decide, Nat.le_refl 4⟩
  ⟨hyps, litRun_frame _ ⟨fun _ => 0, 4, 0⟩ _ hyps.1 hyps.2⟩

end Run

end OsKernel.Io
