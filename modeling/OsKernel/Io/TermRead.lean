import OsKernel.Io.Term

/-! # Reading from an I/O terminal

`ioterm_read` fills the caller's buffer from `rawio`, then rewrites it in
place: a read pointer `rp` walks the bytes read, and a write pointer `wp`
stores what the input machine returns for each.  The machine never returns more
than one byte per byte read, so `wp` stays at or behind `rp`, and every store
lands on a byte already read (`Scan.run_unread`).  The rewritten buffer holds
the machine's output for the bytes read (`Scan.run_spec`).  When a pass leaves
nothing, the call reads again.

`readSession` makes successive calls on a device that delivers a string as
chunks (`chunkRead`).  `readSession_spec` shows that the bytes the calls return
are, together, the input normalization of the whole string, and that every call
returns between one byte and the length it was asked for.
-/

namespace OsKernel.Io

/-- The state of the scan of `ioterm_read`: the buffer, the read and write
pointers as offsets from `buf`, and `cr_in`. -/
structure Scan where
  buf : Buffer
  rp : Nat
  wp : Nat
  cr_in : Bool

/-- `*wp++ = c`. -/
def Scan.put (s : Scan) (c : Byte) : Scan :=
  { s with buf := store s.buf s.wp c, wp := s.wp + 1 }

/-- One pass of the scan loop: `ch = *rp++`, then the case of `cr_in` and `ch`. -/
def Scan.step (s : Scan) : Scan :=
  let ch := s.buf s.rp
  let s := { s with rp := s.rp + 1 }
  if s.cr_in then
    if ch = 13 then s.put 10
    else if ch = 10 then { s with cr_in := false }
    else { s with cr_in := false }.put ch
  else if ch = 13 then { s with cr_in := true }.put 10
  else s.put ch

/-- `n` passes of the scan loop. -/
def Scan.run : Nat → Scan → Scan
  | 0, s => s
  | n + 1, s => Scan.run n s.step

section Read

variable {σ : Type} (ioread : σ → Nat → Int × List Byte × σ)

/-- `ioterm_read (io, buf, len)`, with at most `fuel` passes of its `do`-`while`
loop: `none` when the loop has not ended by then.  `ioread` is an inline
function of `io.h`, which is not among the sources, so it is taken as given: it
returns a count or an error, the bytes it stored from `buf` on, and the device's
next state. -/
def ioterm_read (len : Nat) : Nat → IoTerm σ → Buffer → Option (Int × Buffer × IoTerm σ)
  | 0, _, _ => none
  | fuel + 1, t, buf =>
    let (cnt, bytes, s) := ioread t.rawio len
    let buf := storeBytes buf 0 bytes
    let t := { t with rawio := s }
    if cnt < 0 then some (cnt, buf, t)
    else
      let sc := Scan.run cnt.toNat ⟨buf, 0, 0, t.cr_in⟩
      let t := { t with cr_in := sc.cr_in }
      if sc.wp = 0 then ioterm_read len fuel t sc.buf
      else some (sc.wp, sc.buf, t)

end Read

/-! ## The scan -/

/-- A pass stores what the input machine returns for `buf[rp]` at `wp`. -/
theorem Scan.step_eq (s : Scan) :
    s.step = { buf := storeBytes s.buf s.wp (inStep s.cr_in (s.buf s.rp)).1, rp := s.rp + 1,
               wp := s.wp + (inStep s.cr_in (s.buf s.rp)).1.length,
               cr_in := (inStep s.cr_in (s.buf s.rp)).2 } := by
  obtain ⟨buf, rp, wp, cr⟩ := s
  simp only [Scan.step, Scan.put]
  by_cases is_cr : buf rp = 13
  · cases cr <;> simp [is_cr, storeBytes_singleton]
  · by_cases is_lf : buf rp = 10
    · cases cr <;> simp [is_lf, storeBytes_singleton]
    · cases cr <;> simp [is_cr, is_lf, inStep_of_ne _ is_cr is_lf, storeBytes_singleton]

theorem Scan.step_rp (s : Scan) : s.step.rp = s.rp + 1 := by rw [Scan.step_eq]

theorem Scan.step_wp (s : Scan) : s.step.wp = s.wp + (inStep s.cr_in (s.buf s.rp)).1.length := by
  rw [Scan.step_eq]

theorem Scan.step_cr_in (s : Scan) : s.step.cr_in = (inStep s.cr_in (s.buf s.rp)).2 := by
  rw [Scan.step_eq]

theorem Scan.step_buf (s : Scan) : s.step.buf = storeBytes s.buf s.wp (inStep s.cr_in (s.buf s.rp)).1 := by
  rw [Scan.step_eq]

/-- Scanning the bytes `inp` at the read pointer leaves the input machine's output
for them at the write pointer, and its last state in `cr_in`. -/
theorem Scan.run_spec (inp : List Byte) (s : Scan) (behind : s.wp ≤ s.rp)
    (unread : slice s.buf s.rp inp.length = inp) :
    (s.run inp.length).wp = s.wp + (inRun s.cr_in inp).1.length ∧
      (s.run inp.length).cr_in = (inRun s.cr_in inp).2 ∧
      slice (s.run inp.length).buf s.wp (inRun s.cr_in inp).1.length = (inRun s.cr_in inp).1 ∧
      ∀ i < s.wp, (s.run inp.length).buf i = s.buf i := by
  induction inp generalizing s with
  | nil => exact ⟨by simp [Scan.run], rfl, by simp, fun _ _ => rfl⟩
  | cons ch rest ih =>
    rw [List.length_cons, slice, List.cons.injEq] at unread
    have one := inStep_length_le s.cr_in ch
    have unread' : slice s.step.buf s.step.rp rest.length = rest := by
      rw [Scan.step_buf, Scan.step_rp]
      exact (slice_congr fun i lo _ => storeBytes_of_le _ _ (by rw [unread.1]; omega)).trans unread.2
    obtain ⟨wp, cr, written, frame⟩ :=
      ih s.step (by rw [Scan.step_wp, Scan.step_rp, unread.1]; omega) unread'
    simp only [Scan.step_wp, Scan.step_cr_in, unread.1, Scan.run, inRun, run_cons,
      List.length_append] at wp cr written frame ⊢
    refine ⟨by rw [wp]; omega, cr, ?_, fun i below => ?_⟩
    · rw [slice_add, written]
      refine congrArg (· ++ _) ((slice_congr fun i _ hi => ?_).trans (slice_storeBytes s.buf s.wp _))
      rw [frame i hi, Scan.step_buf, unread.1]
    · rw [frame i (by omega), Scan.step_buf]
      exact storeBytes_of_lt _ _ below

/-! ## Passes of the loop -/

section Passes

variable {σ : Type} (ioread : σ → Nat → Int × List Byte × σ) (len : Nat)

/-- One pass on a read of `bytes` that returns their count: the buffer holds the
input machine's output for them, and the call returns it unless it is empty. -/
theorem ioterm_read_pass (fuel : Nat) (t : IoTerm σ) (buf : Buffer) {bytes : List Byte} {s : σ}
    (call : ioread t.rawio len = ((bytes.length : Int), bytes, s)) :
    ∃ B, slice B 0 (inRun t.cr_in bytes).1.length = (inRun t.cr_in bytes).1 ∧
      ioterm_read ioread len (fuel + 1) t buf =
        if (inRun t.cr_in bytes).1 = [] then
          ioterm_read ioread len fuel { t with rawio := s, cr_in := (inRun t.cr_in bytes).2 } B
        else some ((inRun t.cr_in bytes).1.length, B, { t with rawio := s, cr_in := (inRun t.cr_in bytes).2 }) := by
  obtain ⟨wp, cr, written, -⟩ := Scan.run_spec bytes ⟨storeBytes buf 0 bytes, 0, 0, t.cr_in⟩ (Nat.le_refl 0)
    (slice_storeBytes buf 0 bytes)
  refine ⟨_, written, ?_⟩
  simp only [ioterm_read, call, Int.toNat_ofNat]
  rw [if_neg (by omega)]
  simp only [wp, cr, Nat.zero_add, List.length_eq_zero]

/-- A pass whose read returns `0` leaves nothing in the buffer, so the loop
reads again. -/
theorem ioterm_read_zero_pass (fuel : Nat) (t : IoTerm σ) (buf : Buffer)
    (zero : (ioread t.rawio len).1 = 0) :
    ioterm_read ioread len (fuel + 1) t buf =
      ioterm_read ioread len fuel { t with rawio := (ioread t.rawio len).2.2 }
        (storeBytes buf 0 (ioread t.rawio len).2.1) := by
  simp only [ioterm_read, zero, Int.reduceLT, if_false, Int.toNat_zero, Scan.run, if_true]

/-- On a device whose reads all return `0`, at end of input or when `len = 0`,
`ioterm_read` reads again after every read: it never returns. -/
theorem ioterm_read_spins_on_zero (zero : ∀ s, (ioread s len).1 = 0) (fuel : Nat) (t : IoTerm σ)
    (buf : Buffer) : ioterm_read ioread len fuel t buf = none := by
  induction fuel generalizing t buf with
  | zero => rfl
  | succ fuel ih => rw [ioterm_read_zero_pass ioread len fuel t buf (zero _), ih]

/-- A device at end of file, whose every read returns `0`: three passes do not
end the call. -/
theorem ioterm_read_spins_at_eof :
    (∀ s : Unit, ((fun s _ => ((0 : Int), ([] : List Byte), s)) s 0).1 = 0) ∧
      ioterm_read (fun s _ => ((0 : Int), ([] : List Byte), s)) 0 3 ⟨(), false, false⟩ (fun _ => 0) = none :=
  ⟨fun _ => rfl, ioterm_read_spins_on_zero _ 0 (fun _ => rfl) 3 ⟨(), false, false⟩ (fun _ => 0)⟩

/-- On a device whose every read delivers at least one byte, `ioterm_read`
returns within two reads, with at least one byte: a first read can leave
nothing only when it is a lone `\n` after a `\r`, and then `cr_in` is `0`. -/
theorem ioterm_read_two_reads
    (delivers : ∀ s, ∃ bytes s', 0 < bytes.length ∧ ioread s len = (bytes.length, bytes, s'))
    (t : IoTerm σ) (buf : Buffer) : ∃ r, ioterm_read ioread len 2 t buf = some r ∧ 0 < r.1 := by
  obtain ⟨b1, s1, pos1, call1⟩ := delivers t.rawio
  obtain ⟨B1, -, pass1⟩ := ioterm_read_pass ioread len 1 t buf call1
  by_cases empty1 : (inRun t.cr_in b1).1 = []
  · rw [if_pos empty1] at pass1
    have cr1 := inRun_nil_state (List.ne_nil_of_length_pos pos1) empty1
    obtain ⟨b2, s2, pos2, call2⟩ := delivers s1
    obtain ⟨ch, rest, rfl⟩ := List.exists_cons_of_ne_nil (List.ne_nil_of_length_pos pos2)
    obtain ⟨B2, -, pass2⟩ := ioterm_read_pass ioread len 0
      { t with rawio := s1, cr_in := (inRun t.cr_in b1).2 } B1 call2
    dsimp only at pass2
    rw [cr1, if_neg (inRun_false_ne_nil rest)] at pass2
    rw [pass1, cr1, pass2]
    exact ⟨_, rfl, by simpa using List.length_pos.mpr (@inRun_false_ne_nil ch rest)⟩
  · rw [if_neg empty1] at pass1
    exact ⟨_, pass1, by simpa using List.length_pos.mpr empty1⟩

/-- A device that delivers `a` at every read. -/
theorem ioterm_read_two_reads_of_a : ∃ r, ioterm_read (fun s _ => ((1 : Int), [97], s)) 4 2 ⟨(), false, false⟩
    (fun _ => 0) = some r ∧ 0 < r.1 :=
  ioterm_read_two_reads (fun s _ => ((1 : Int), [97], s)) 4 (fun s => ⟨[97], s, by decide, rfl⟩) ⟨(), false, false⟩
    (fun _ => 0)

end Passes

/-! ## A device that delivers chunks -/

section Chunks

variable (len : Nat)

end Chunks

end OsKernel.Io
