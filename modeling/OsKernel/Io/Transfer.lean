import OsKernel.Io.Intf

/-! # The transfer loops of `ioread_full` and `iowrite`

`ioread_full` and `iowrite` call a device's `read` or `write` on what is left
of the transfer until it is done, a call fails, or a call transfers nothing.
To see the calls, the device keeps a log of them (`loggedRead`,
`loggedWrite`); `ioread_full` and `iowrite` are unchanged and see only the
device.

On a device whose calls return a negative code, or a count no larger than the
request, the log and the result satisfy `Transfer`: every call but the last
transferred bytes, so there are at most `n + 1` calls; a negative count is
returned; otherwise the result is the total count, at most `n`, and it falls
short of `n` exactly when a call returned `0`.  Each call was asked for the
exact rest of the transfer, and the bytes transferred are the calls' chunks in
order (`ReadContract`, `WriteContract`).
-/

namespace OsKernel.Io

/-- A call of `read` as the device saw it: the length asked for, the count
returned, and the bytes stored. -/
structure ReadCall where
  want : Nat
  cnt : Int
  bytes : List Byte

/-- A call of `write` as the device saw it: the bytes given and the count
returned. -/
structure WriteCall where
  given : List Byte
  cnt : Int

/-- The bytes a read call delivered: as many as it counted. -/
def ReadCall.chunk (c : ReadCall) : List Byte := c.bytes.take c.cnt.toNat

/-- The bytes a write call took: as many as it counted. -/
def WriteCall.chunk (c : WriteCall) : List Byte := c.given.take c.cnt.toNat

variable {σ : Type}

/-- `read`, keeping a log of its calls. -/
def loggedRead (read : σ → Nat → Int × List Byte × σ) (s : σ × List ReadCall) (want : Nat) :
    Int × List Byte × (σ × List ReadCall) :=
  ((read s.1 want).1, (read s.1 want).2.1,
    ((read s.1 want).2.2, s.2 ++ [⟨want, (read s.1 want).1, (read s.1 want).2.1⟩]))

/-- `write`, keeping a log of its calls. -/
def loggedWrite (write : σ → List Byte → Int × σ) (s : σ × List WriteCall) (given : List Byte) :
    Int × (σ × List WriteCall) :=
  ((write s.1 given).1, ((write s.1 given).2, s.2 ++ [⟨given, (write s.1 given).1⟩]))

/-- A `read` that returns a negative code, or the number of bytes it stored, at
most the length asked for. -/
def ReadCounts (read : σ → Nat → Int × List Byte × σ) : Prop :=
  ∀ s want, (read s want).1 < 0 ∨
    ((read s want).1 = (read s want).2.1.length ∧ (read s want).2.1.length ≤ want)

/-- A `write` that returns a negative code, or a count at most the number of
bytes given. -/
def WriteCounts (write : σ → List Byte → Int × σ) : Prop :=
  ∀ s given, (write s given).1 < 0 ∨ (0 ≤ (write s given).1 ∧ (write s given).1 ≤ given.length)

/-- The bytes a list of calls transferred: the sum of their counts, a negative
count as `0`. -/
def transferred {α : Type} (cnt : α → Int) (calls : List α) : Nat :=
  (calls.map fun c => (cnt c).toNat).sum

@[simp] theorem transferred_nil {α : Type} (cnt : α → Int) : transferred cnt [] = 0 := rfl

@[simp] theorem transferred_cons {α : Type} (cnt : α → Int) (c : α) (calls : List α) :
    transferred cnt (c :: calls) = (cnt c).toNat + transferred cnt calls := rfl

/-- The contract of a transfer loop of `n` bytes from `acc` on, over the `calls`
it made and its `result`. -/
structure Transfer {α : Type} (cnt : α → Int) (n acc : Nat) (calls : List α) (result : Int) : Prop where
  /-- At most one call per byte left, and one more. -/
  bounded : calls.length ≤ n - acc + 1
  /-- Every call but the last transferred bytes. -/
  going_on : ∀ c ∈ calls.dropLast, 0 < cnt c
  /-- A negative count is returned. -/
  error : ∀ c ∈ calls, cnt c < 0 → result = cnt c
  /-- Otherwise the result is the total count, at most `n`. -/
  total : (∀ c ∈ calls, 0 ≤ cnt c) → result = acc + transferred cnt calls ∧ acc + transferred cnt calls ≤ n
  /-- And it falls short of `n` exactly when a call returned `0`. -/
  early : (∀ c ∈ calls, 0 ≤ cnt c) → (result < n ↔ ∃ c ∈ calls, cnt c = 0)

section Transfer

variable {α : Type} {cnt : α → Int} {n acc : Nat}

/-- A loop that finds nothing left makes no call. -/
theorem Transfer.done (h : n ≤ acc) (within : acc ≤ n) : Transfer cnt n acc [] acc :=
  ⟨by simp, by simp, by simp, by simp; omega, by simp; omega⟩

/-- A call that fails ends the loop with its code. -/
theorem Transfer.fail {c : α} (neg : cnt c < 0) : Transfer cnt n acc [c] (cnt c) :=
  ⟨by simp, by simp, by simp, by simp; omega, by simp; omega⟩

/-- A call that transfers nothing ends the loop with the count so far. -/
theorem Transfer.stop {c : α} (zero : cnt c = 0) (left : acc < n) : Transfer cnt n acc [c] acc :=
  ⟨by simp, by simp, by simp [zero], by simp [zero]; omega, by simp [zero]; omega⟩

/-- A call that transfers `cnt c` bytes, then the loop from there. -/
theorem Transfer.cons {c : α} {calls : List α} {result : Int} (pos : 0 < cnt c) (left : acc < n)
    (rest : Transfer cnt n (acc + (cnt c).toNat) calls result) : Transfer cnt n acc (c :: calls) result := by
  obtain ⟨bounded, going_on, error, total, early⟩ := rest
  have one : 1 ≤ (cnt c).toNat := by omega
  refine ⟨?_, fun d mem => ?_, fun d mem neg => ?_, fun nonneg => ?_,
    fun nonneg => ?_⟩
  · rw [List.length_cons]
    generalize (cnt c).toNat = m at bounded one
    omega
  · cases calls with
    | nil => simp at mem
    | cons e calls =>
      rcases List.mem_cons.mp (by simpa [List.dropLast_cons₂] using mem) with rfl | mem
      · exact pos
      · exact going_on d mem
  · rcases List.mem_cons.mp mem with rfl | mem
    · omega
    · exact error d mem neg
  · obtain ⟨eq, le⟩ := total fun d mem => nonneg d (List.mem_cons_of_mem c mem)
    simp only [transferred_cons]
    omega
  · rw [early fun d mem => nonneg d (List.mem_cons_of_mem c mem)]
    simp [exists_eq_or_imp, show cnt c ≠ 0 by omega]

end Transfer

/-! ## `ioread_full` -/

section Read

variable (read : σ → Nat → Int × List Byte × σ)

/-- The read loop from `acc`, on a device that keeps a log: the calls it adds
to the log satisfy `Transfer`, each asked for the rest of the transfer, and
their chunks land in order from `buf + acc`, leaving the bytes below alone. -/
theorem readLoop_logged (counts : ReadCounts read) (bufsz fuel acc : Nat) (s : σ) (log : List ReadCall)
    (buf : Buffer) (within : acc ≤ bufsz) (enough : bufsz - acc ≤ fuel) :
    ∃ calls, (readLoop (loggedRead read) bufsz fuel acc (s, log) buf).2.2.2 = log ++ calls ∧
      Transfer ReadCall.cnt bufsz acc calls (readLoop (loggedRead read) bufsz fuel acc (s, log) buf).1 ∧
      (∀ i (h : i < calls.length), calls[i].want = bufsz - (acc + transferred ReadCall.cnt (calls.take i))) ∧
      slice (readLoop (loggedRead read) bufsz fuel acc (s, log) buf).2.1 acc (transferred ReadCall.cnt calls) =
        (calls.map ReadCall.chunk).flatten ∧
      ∀ i < acc, (readLoop (loggedRead read) bufsz fuel acc (s, log) buf).2.1 i = buf i := by
  induction fuel generalizing acc s log buf with
  | zero =>
    refine ⟨[], by simp [readLoop], ?_, by simp, by simp, fun _ _ => rfl⟩
    simpa [readLoop] using @Transfer.done _ ReadCall.cnt _ _ (by omega) within
  | succ fuel ih =>
    by_cases left : acc < bufsz
    swap
    · refine ⟨[], by simp [readLoop, left], ?_, by simp, by simp, fun _ _ => by simp [readLoop, left]⟩
      simpa [readLoop, left] using @Transfer.done _ ReadCall.cnt _ _ (by omega) within
    have call := counts s (bufsz - acc)
    generalize hr : read s (bufsz - acc) = r at call
    obtain ⟨cnt, bytes, s'⟩ := r
    dsimp only at call
    have step : readLoop (loggedRead read) bufsz (fuel + 1) acc (s, log) buf =
        if cnt < 0 then (cnt, storeBytes buf acc bytes, (s', log ++ [⟨bufsz - acc, cnt, bytes⟩]))
        else if cnt = 0 then (acc, storeBytes buf acc bytes, (s', log ++ [⟨bufsz - acc, cnt, bytes⟩]))
        else readLoop (loggedRead read) bufsz fuel (acc + cnt.toNat) (s', log ++ [⟨bufsz - acc, cnt, bytes⟩])
          (storeBytes buf acc bytes) := by
      simp only [readLoop, left, if_true, loggedRead, hr]
    have below (i : Nat) (h : i < acc) : storeBytes buf acc bytes i = buf i := storeBytes_of_lt buf bytes h
    rw [step]
    split
    · rename_i neg
      exact ⟨[⟨bufsz - acc, cnt, bytes⟩], rfl, Transfer.fail neg, fun i h => by simp at h; subst h; simp,
        by simp [ReadCall.chunk, show cnt.toNat = 0 by omega], below⟩
    split
    · rename_i zero
      exact ⟨[⟨bufsz - acc, cnt, bytes⟩], rfl, Transfer.stop zero left, fun i h => by simp at h; subst h; simp,
        by simp [ReadCall.chunk, zero], below⟩
    rename_i nonneg zero
    obtain ⟨counted, fits⟩ := call.resolve_left nonneg
    obtain ⟨calls, logged, transfer, wants, stored, frame⟩ := ih (acc + cnt.toNat) s'
      (log ++ [⟨bufsz - acc, cnt, bytes⟩]) (storeBytes buf acc bytes) (by omega) (by omega)
    refine ⟨⟨bufsz - acc, cnt, bytes⟩ :: calls, by simpa using logged, Transfer.cons (show (0 : Int) < cnt by omega) left transfer,
      fun i h => ?_, ?_, fun i h => (frame i (by omega)).trans (below i h)⟩
    · cases i with
      | zero => simp
      | succ i => simpa [Nat.add_assoc] using wants i (by simpa using h)
    · have length : cnt.toNat = bytes.length := by omega
      rw [transferred_cons, slice_add, stored, List.map_cons, List.flatten_cons, ReadCall.chunk]
      rw [length] at frame ⊢
      rw [List.take_length]
      congr 1
      refine (slice_congr fun i _ hi => ?_).trans (slice_storeBytes buf acc bytes)
      exact frame i (by omega)

end Read

/-! ## `iowrite` -/

section Write

variable (write : σ → List Byte → Int × σ)

/-- The write loop from `acc`, on a device that keeps a log: the calls it adds
to the log satisfy `Transfer`, each was given the rest of the bytes, and their
chunks are, in order, the bytes the counts cover. -/
theorem writeLoop_logged (counts : WriteCounts write) (src : List Byte) (fuel acc : Nat) (s : σ)
    (log : List WriteCall) (within : acc ≤ src.length) (enough : src.length - acc ≤ fuel) :
    ∃ calls, (writeLoop (loggedWrite write) src fuel acc (s, log)).2.2 = log ++ calls ∧
      Transfer WriteCall.cnt src.length acc calls (writeLoop (loggedWrite write) src fuel acc (s, log)).1 ∧
      (∀ i (h : i < calls.length), calls[i].given = src.drop (acc + transferred WriteCall.cnt (calls.take i))) ∧
      (calls.map WriteCall.chunk).flatten = (src.drop acc).take (transferred WriteCall.cnt calls) := by
  induction fuel generalizing acc s log with
  | zero =>
    refine ⟨[], by simp [writeLoop], ?_, by simp, by simp⟩
    simpa [writeLoop] using @Transfer.done _ WriteCall.cnt _ _ (by omega) within
  | succ fuel ih =>
    by_cases left : acc < src.length
    swap
    · refine ⟨[], by simp [writeLoop, left], ?_, by simp, by simp⟩
      simpa [writeLoop, left] using @Transfer.done _ WriteCall.cnt _ _ (by omega) within
    have call := counts s (src.drop acc)
    generalize hr : write s (src.drop acc) = r at call
    obtain ⟨cnt, s'⟩ := r
    dsimp only at call
    have step : writeLoop (loggedWrite write) src (fuel + 1) acc (s, log) =
        if cnt < 0 then (cnt, (s', log ++ [⟨src.drop acc, cnt⟩]))
        else if cnt = 0 then (acc, (s', log ++ [⟨src.drop acc, cnt⟩]))
        else writeLoop (loggedWrite write) src fuel (acc + cnt.toNat) (s', log ++ [⟨src.drop acc, cnt⟩]) := by
      simp only [writeLoop, left, if_true, loggedWrite, hr]
    rw [step]
    split
    · rename_i neg
      exact ⟨[⟨src.drop acc, cnt⟩], rfl, Transfer.fail neg, fun i h => by simp at h; subst h; simp,
        by simp [WriteCall.chunk, show cnt.toNat = 0 by omega]⟩
    split
    · rename_i zero
      exact ⟨[⟨src.drop acc, cnt⟩], rfl, Transfer.stop zero left, fun i h => by simp at h; subst h; simp,
        by simp [WriteCall.chunk, zero]⟩
    rename_i nonneg zero
    obtain ⟨-, fits⟩ := call.resolve_left nonneg
    obtain ⟨calls, logged, transfer, given, chunks⟩ := ih (acc + cnt.toNat) s' (log ++ [⟨src.drop acc, cnt⟩])
      (by simp at fits; omega) (by omega)
    refine ⟨⟨src.drop acc, cnt⟩ :: calls, by simpa using logged,
      Transfer.cons (show (0 : Int) < cnt by omega) left transfer, fun i h => ?_, ?_⟩
    · cases i with
      | zero => simp
      | succ i => simpa [Nat.add_assoc] using given i (by simpa using h)
    · rw [List.map_cons, List.flatten_cons, chunks, transferred_cons, List.take_add, List.drop_drop]
      rfl

end Write

/-! ## The contract -/

/-- What `ioread_full (io, buf, n)` promises, over its `result` on a device that
keeps a log: the log and the count satisfy `Transfer`, each call was asked for
the rest of the buffer, and `buf[0, acc)` holds the calls' chunks in order. -/
def ReadContract (n : Nat) (result : Int × Buffer × (σ × List ReadCall)) : Prop :=
  Transfer ReadCall.cnt n 0 result.2.2.2 result.1 ∧
    (∀ i (h : i < result.2.2.2.length),
      result.2.2.2[i].want = n - transferred ReadCall.cnt (result.2.2.2.take i)) ∧
    slice result.2.1 0 (transferred ReadCall.cnt result.2.2.2) = (result.2.2.2.map ReadCall.chunk).flatten

/-- What `iowrite (io, src, n)` promises, over its `result` on a device that
keeps a log: the log and the count satisfy `Transfer`, each call was given the
rest of `src`, and the calls' chunks are, in order, the bytes counted. -/
def WriteContract (src : List Byte) (result : Int × (σ × List WriteCall)) : Prop :=
  Transfer WriteCall.cnt src.length 0 result.2.2 result.1 ∧
    (∀ i (h : i < result.2.2.length),
      result.2.2[i].given = src.drop (transferred WriteCall.cnt (result.2.2.take i))) ∧
    (result.2.2.map WriteCall.chunk).flatten = src.take (transferred WriteCall.cnt result.2.2)

/-- `ioread_full (io, buf, n)` on a device whose reads return a negative code
or the number of bytes they stored, at most the length asked for, and
`iowrite (io, src, n)` on a device whose writes return a negative code or at
most the number of bytes given: each makes at most `n + 1` calls, every one
but the last transferring bytes, each on the exact rest `(buf + acc, n - acc)`
of the transfer.  A negative count is returned; otherwise the result is the
total count, at most `n`, short of `n` exactly when a call returned `0`.  The
bytes transferred are the calls' chunks, in order, at `buf[0, acc)`. -/
theorem transfer_loops_contract (E : Errno) {τ : Type} (read : σ → Nat → Int × List Byte × σ)
    (reads : ReadCounts read) (s : σ) (buf : Buffer) (n : Nat) (write : τ → List Byte → Int × τ)
    (writes : WriteCounts write) (w : τ) (src : List Byte) :
    ReadContract n (ioread_full E ⟨some (loggedRead read), none⟩ (s, []) buf n) ∧
      WriteContract src (iowrite E ⟨none, some (loggedWrite write)⟩ (w, []) src) := by
  obtain ⟨rcalls, rlog, rtransfer, wants, stored, -⟩ :=
    readLoop_logged read reads n n 0 s [] buf (Nat.zero_le n) (by omega)
  obtain ⟨wcalls, wlog, wtransfer, given, chunks⟩ :=
    writeLoop_logged write writes src src.length 0 w [] (Nat.zero_le _) (by omega)
  simp only [List.nil_append] at rlog wlog
  simp only [ReadContract, WriteContract, ioread_full, iowrite, rlog, wlog]
  exact ⟨⟨rtransfer, fun i h => by simpa using wants i h, stored⟩,
    ⟨wtransfer, fun i h => by simpa using given i h, by simpa using chunks⟩⟩

/-- A device that reads one byte per call and one that writes one byte per
call, on three bytes. -/
theorem transfer_loops_contract_bytewise :
    let read : Unit → Nat → Int × List Byte × Unit := fun s want => if want = 0 then (0, [], s) else (1, [7], s)
    let write : Unit → List Byte → Int × Unit := fun s given => (min 1 given.length, s)
    ReadCounts read ∧ WriteCounts write ∧
      ReadContract 3 (ioread_full ⟨1, 1, Nat.one_pos, Nat.one_pos⟩ ⟨some (loggedRead read), none⟩ ((), [])
        (fun _ => 0) 3) ∧
      WriteContract [1, 2, 3] (iowrite ⟨1, 1, Nat.one_pos, Nat.one_pos⟩ ⟨none, some (loggedWrite write)⟩ ((), [])
        [1, 2, 3]) := by
  intro read write
  have reads : ReadCounts read := fun s want => .inr <| by
    dsimp only [read]
    split
    · exact ⟨rfl, Nat.zero_le want⟩
    · exact ⟨rfl, Nat.pos_of_ne_zero ‹_›⟩
  have writes : WriteCounts write := fun s given => .inr <| by
    dsimp only [write]
    omega
  exact ⟨reads, writes, transfer_loops_contract _ read reads () _ 3 write writes () [1, 2, 3]⟩

end OsKernel.Io
