import OsKernel.Io.Term

/-! # Writing to an I/O terminal

`ioterm_write` scans the caller's buffer with a read pointer `rp` and sends
the bytes to `rawio` in stretches, up to a write pointer `wp`: it cannot change
the buffer, so where a line ending needs a byte that is not there it writes out
what it has, then the missing byte with `ioputc`.  `acc` counts the buffer's
bytes written.

On a device that takes every byte (`acceptAll`, with an `ioputc` that appends,
`PutsAll`), `ioterm_write_acceptAll` says what a call does: `rawio` receives
`N_out` of the buffer and the call returns the buffer's length, less one when
the buffer starts with a `\n` in state `cr_out = 1`.  That `\n` is skipped but
not counted, so `iowrite`, which calls again with the bytes not counted, sends
the buffer's last byte a second time (`iowrite_term_resends_last`).
-/

namespace OsKernel.Io

variable {σ : Type} (E : Errno) (rawio : IoIntf σ) (ioputc : σ → Byte → Int × σ)

/-- `iowrite (iot->rawio, wp, n)`, for the `n` bytes of `buf` from offset `wp`. -/
def IoTerm.flush (t : IoTerm σ) (buf : List Byte) (wp n : Nat) : Int × IoTerm σ :=
  ((iowrite E rawio t.rawio ((buf.drop wp).take n)).1,
    { t with rawio := (iowrite E rawio t.rawio ((buf.drop wp).take n)).2 })

/-- `ioputc (iot->rawio, c)`.  `ioputc` is an inline function of `io.h`, which
is not among the sources, so it is taken as given. -/
def IoTerm.putc (t : IoTerm σ) (c : Byte) : Int × IoTerm σ :=
  ((ioputc t.rawio c).1, { t with rawio := (ioputc t.rawio c).2 })

/-- The loop of `ioterm_write (io, buf, len)` and what follows it, from `rp` on:
`rest` holds the bytes `buf[rp, len)`, the bytes before `wp` have been written
out, and `acc` of them counted. -/
def writeScan (buf : List Byte) : List Byte → Nat → Nat → Int → IoTerm σ → Int × IoTerm σ
  | [], wp, rp, acc, t =>
    if rp ≠ wp then
      let (cnt, t) := t.flush E rawio buf wp (rp - wp)
      if cnt < 0 then (cnt, t) else if cnt = 0 then (acc, t) else (acc + cnt, t)
    else (acc, t)
  | 13 :: 10 :: rest, wp, rp, acc, t =>
    writeScan buf rest wp (rp + 2) acc { t with cr_out := false }
  | 13 :: rest, wp, rp, acc, t =>
    let (cnt, t) := t.flush E rawio buf wp (rp + 1 - wp)
    if cnt < 0 then (cnt, t) else if cnt = 0 then (acc, t)
    else
      let (put, t) := t.putc ioputc 10
      if put < 0 then (put, t)
      else writeScan buf rest (wp + cnt.toNat) (rp + 1) (acc + cnt) { t with cr_out := true }
  | 10 :: rest, wp, rp, acc, t =>
    if t.cr_out then writeScan buf rest (wp + 1) (rp + 1) acc { t with cr_out := false }
    else if wp ≠ rp then
      let (cnt, t) := t.flush E rawio buf wp (rp - wp)
      if cnt < 0 then (cnt, t) else if cnt = 0 then (acc, t)
      else
        let (put, t) := t.putc ioputc 13
        if put < 0 then (put, t)
        else writeScan buf rest (wp + cnt.toNat) (rp + 1) (acc + cnt) { t with cr_out := false }
    else
      let (put, t) := t.putc ioputc 13
      if put < 0 then (put, t) else writeScan buf rest wp (rp + 1) acc { t with cr_out := false }
  | _ :: rest, wp, rp, acc, t => writeScan buf rest wp (rp + 1) acc { t with cr_out := false }

/-- `ioterm_write (io, buf, len)` of the bytes of `buf`. -/
def ioterm_write (t : IoTerm σ) (buf : List Byte) : Int × IoTerm σ :=
  writeScan E rawio ioputc buf buf 0 0 0 t

/-- The `io_intf` of an `io_term` as `iowrite` uses it: `iowrite` calls only
its `write` operation, `ioterm_write`, so the `read` operation is left out. -/
def termWrite : IoIntf (IoTerm σ) where
  read := none
  write := some (ioterm_write E rawio ioputc)

/-- Successive calls `ioterm_write (io, buf, len)`, one for each chunk of `cs`:
the terminal after the last. -/
def writeSession (t : IoTerm σ) : List (List Byte) → IoTerm σ
  | [] => t
  | c :: cs => writeSession (ioterm_write E rawio ioputc t c).2 cs

/-! ## A device that takes every byte -/

/-- An `ioputc` that appends its byte to what the device has received and
returns a value that is not an error. -/
def PutsAll (ioputc : List Byte → Byte → Int × List Byte) : Prop :=
  ∀ out c, 0 ≤ (ioputc out c).1 ∧ (ioputc out c).2 = out ++ [c]

/-- The bytes `ioterm_write` skips without counting them: a leading `\n` in
state `cr_out = 1`. -/
def uncounted (cr_out : Bool) (s : List Byte) : Nat :=
  if cr_out = true ∧ s.head? = some 10 then 1 else 0

section AcceptAll

variable {ioputc : List Byte → Byte → Int × List Byte}

/-- The bytes of `pre ++ rest` from `wp` to the end of `pre`. -/
theorem take_drop_prefix (pre rest : List Byte) {wp : Nat} (h : wp ≤ pre.length) :
    ((pre ++ rest).drop wp).take (pre.length - wp) = pre.drop wp := by
  rw [List.drop_append_of_le_length h, List.take_left' (by simp)]

/-- On `acceptAll`, the stretch `buf[wp, rp)` after a scanned prefix `pre` is
written whole. -/
theorem flush_pending (t : IoTerm (List Byte)) {buf pre rest : List Byte} {wp rp : Nat}
    (split : pre ++ rest = buf) (at_rp : pre.length = rp) (behind : wp ≤ rp) :
    t.flush E acceptAll buf wp (rp - wp) =
      (((rp - wp : Nat) : Int), { t with rawio := t.rawio ++ pre.drop wp }) := by
  subst split at_rp
  rw [IoTerm.flush, iowrite_acceptAll, take_drop_prefix pre rest behind]
  simp

/-- On `acceptAll`, the stretch from `wp` through a `\r` at `rp` is written whole. -/
theorem flush_cr (t : IoTerm (List Byte)) {buf pre rest : List Byte} {wp rp : Nat}
    (split : pre ++ 13 :: rest = buf) (at_rp : pre.length = rp) (behind : wp ≤ rp) :
    t.flush E acceptAll buf wp (rp + 1 - wp) =
      (((rp + 1 - wp : Nat) : Int), { t with rawio := t.rawio ++ pre.drop wp ++ [13] }) := by
  have split' : (pre ++ [13]) ++ rest = buf := by simpa using split
  rw [flush_pending E t split' (by simp [at_rp]) (by omega),
    List.drop_append_of_le_length (by omega), List.append_assoc]

theorem putc_putsAll (puts : PutsAll ioputc) (t : IoTerm (List Byte)) (c : Byte) :
    t.putc ioputc c = ((ioputc t.rawio c).1, { t with rawio := t.rawio ++ [c] }) := by
  simp only [IoTerm.putc, (puts t.rawio c).2]

/-- `N_out` in state `1` and `0` agree on a string that does not start with `\n`. -/
theorem N_out_true_of_not_lf {s : List Byte} (h : ∀ r, s ≠ 10 :: r) :
    N_out true s = N_out false s := by
  cases s with
  | nil => rfl
  | cons ch r =>
    rw [← outRun_eq_N_out, ← outRun_eq_N_out, outRun,
      run_congr_head outStep r (outStep_of_ne_lf (fun (e : ch = 10) => h r (by rw [e])))]

@[simp] theorem N_out_nil (cr : Bool) : N_out cr [] = [] := by cases cr <;> rfl

@[simp] theorem uncounted_nil (cr : Bool) : uncounted cr [] = 0 := by simp [uncounted]

@[simp] theorem uncounted_false (s : List Byte) : uncounted false s = 0 := by simp [uncounted]

@[simp] theorem uncounted_cons_of_ne (cr : Bool) {ch : Byte} (s : List Byte) (h : ch ≠ 10) :
    uncounted cr (ch :: s) = 0 := by
  simp [uncounted, h]

theorem uncounted_of_not_lf (cr : Bool) {s : List Byte} (h : ∀ r, s ≠ 10 :: r) :
    uncounted cr s = 0 := by
  unfold uncounted
  cases s <;> simp_all

/-- The scan of `ioterm_write` on `acceptAll`, from a point where `pre` has been
scanned and `buf[wp, rp)` is still to be written: `rawio` receives those bytes
and `N_out` of the rest, and every byte scanned or still to scan is counted but a
leading `\n` skipped in state `cr_out = 1`. -/
theorem writeScan_acceptAll (puts : PutsAll ioputc) (buf rest : List Byte) (wp rp : Nat)
    (acc : Int) (t : IoTerm (List Byte)) (pre : List Byte) (split : pre ++ rest = buf)
    (at_rp : pre.length = rp) (behind : wp ≤ rp) (caught_up : t.cr_out = true → wp = rp) :
    writeScan E acceptAll ioputc buf rest wp rp acc t =
      (acc + ((rp - wp + (rest.length - uncounted t.cr_out rest) : Nat) : Int),
        { t with rawio := t.rawio ++ pre.drop wp ++ N_out t.cr_out rest,
                 cr_out := (outRun t.cr_out rest).2 }) := by
  induction rest, wp, rp, acc, t using writeScan.induct E acceptAll ioputc buf generalizing pre with
  | case1 wp rp acc t _ cnt t1 hflush neg =>
    have := (Prod.mk.inj (flush_pending E t split at_rp behind ▸ hflush)).1
    omega
  | case2 wp rp acc t ne t1 hflush =>
    have := (Prod.mk.inj (flush_pending E t split at_rp behind ▸ hflush)).1
    omega
  | case3 wp rp acc t ne =>
    rw [writeScan.eq_1, if_pos ne, flush_pending E t split at_rp behind]
    dsimp only
    rw [if_neg (by omega), if_neg (by omega)]
    simp
  | case4 wp rp acc t same =>
    rw [writeScan.eq_1, if_neg same]
    simp only [ne_eq, not_not] at same
    subst same at_rp
    simp
  | case5 rest wp rp acc t ih =>
    rw [writeScan.eq_2, ih (pre ++ [13, 10]) (by simpa using split) (by simp [at_rp]) (by omega)
      (fun h => absurd h (by simp))]
    simp [List.drop_append_of_le_length (at_rp ▸ behind), N_out, outRun, run_cons]
    omega
  | case6 rest wp rp acc t _ cnt t1 hflush neg =>
    have := (Prod.mk.inj (flush_cr E t split at_rp behind ▸ hflush)).1
    omega
  | case7 rest wp rp acc t _ t1 hflush =>
    have := (Prod.mk.inj (flush_cr E t split at_rp behind ▸ hflush)).1
    omega
  | case8 rest wp rp acc t _ cnt t1 _ _ _ put t2 hput neg =>
    have := (puts t1.rawio 10).1
    rw [(Prod.mk.inj ((putc_putsAll puts t1 10).symm.trans hput)).1] at this
    omega
  | case9 rest wp rp acc t not_lf cnt t1 hflush _ _ put t2 hput _ ih =>
    obtain ⟨rfl, rfl⟩ := Prod.mk.inj (flush_cr E t split at_rp behind ▸ hflush)
    obtain ⟨rfl, rfl⟩ := Prod.mk.inj ((putc_putsAll puts _ 10).symm.trans hput)
    rw [writeScan.eq_3 _ _ _ _ _ _ _ _ _ not_lf, hflush]
    dsimp only at ih ⊢
    rw [if_neg (by omega), if_neg (by omega), hput]
    dsimp only
    rw [if_neg (by have := (puts (t.rawio ++ List.drop wp pre ++ [13]) 10).1; omega),
      ih (pre ++ [13]) (by simpa using split) (by simp [at_rp]) (by omega) (fun _ => by omega)]
    have caught : wp + (((rp + 1 - wp : Nat) : Int)).toNat = rp + 1 := by simp only [Int.toNat_ofNat]; omega
    have written : (pre ++ [13]).drop (rp + 1) = [] := List.drop_eq_nil_of_le (by simp [at_rp])
    rw [caught, written, uncounted_of_not_lf true not_lf,
      N_out_true_of_not_lf not_lf, N_out.eq_3 _ _ not_lf]
    simp [outRun, run_cons]
    omega
  | case10 rest wp rp acc t cr ih =>
    obtain rfl := caught_up cr
    subst at_rp
    have skipped : (pre ++ [10]).drop (pre.length + 1) = [] := List.drop_eq_nil_of_le (by simp)
    rw [writeScan.eq_4, if_pos cr, ih (pre ++ [10]) (by simpa using split) (by simp) (by omega)
      (fun h => absurd h (by simp)), skipped]
    simp [cr, uncounted, N_out, outRun, run_cons]
  | case11 rest wp rp acc t _ _ cnt t1 hflush neg =>
    have := (Prod.mk.inj (flush_pending E t split at_rp behind ▸ hflush)).1
    omega
  | case12 rest wp rp acc t _ ne t1 hflush =>
    have := (Prod.mk.inj (flush_pending E t split at_rp behind ▸ hflush)).1
    omega
  | case13 rest wp rp acc t _ _ cnt t1 _ _ _ put t2 hput neg =>
    have := (puts t1.rawio 13).1
    rw [(Prod.mk.inj ((putc_putsAll puts t1 13).symm.trans hput)).1] at this
    omega
  | case14 rest wp rp acc t not_cr ne cnt t1 hflush _ _ put t2 hput _ ih =>
    obtain ⟨rfl, rfl⟩ := Prod.mk.inj (flush_pending E t split at_rp behind ▸ hflush)
    obtain ⟨rfl, rfl⟩ := Prod.mk.inj ((putc_putsAll puts _ 13).symm.trans hput)
    rw [writeScan.eq_4, if_neg not_cr, if_pos ne, hflush]
    dsimp only at ih ⊢
    rw [if_neg (by omega), if_neg (by omega), hput]
    dsimp only
    rw [if_neg (by have := (puts (t.rawio ++ List.drop wp pre) 13).1; omega),
      ih (pre ++ [10]) (by simpa using split) (by simp [at_rp]) (by omega) (fun h => absurd h (by simp))]
    have caught : wp + (((rp - wp : Nat) : Int)).toNat = rp := by simp only [Int.toNat_ofNat]; omega
    have pending : (pre ++ [10]).drop rp = [10] := by rw [← at_rp]; simp
    simp only [Bool.not_eq_true] at not_cr
    rw [caught, pending, not_cr]
    simp [N_out, outRun, run_cons]
    omega
  | case15 rest wp rp acc t _ _ put t1 hput neg =>
    have := (puts t.rawio 13).1
    rw [(Prod.mk.inj ((putc_putsAll puts t 13).symm.trans hput)).1] at this
    omega
  | case16 rest wp rp acc t not_cr same put t1 hput _ ih =>
    simp only [ne_eq, not_not] at same
    subst same at_rp
    obtain ⟨rfl, rfl⟩ := Prod.mk.inj ((putc_putsAll puts _ 13).symm.trans hput)
    rw [writeScan.eq_4, if_neg not_cr, if_neg (by simp), hput]
    dsimp only at ih ⊢
    rw [if_neg (by have := (puts t.rawio 13).1; omega),
      ih (pre ++ [10]) (by simpa using split) (by simp) (by omega) (fun h => absurd h (by simp))]
    simp only [Bool.not_eq_true] at not_cr
    rw [not_cr]
    simp [N_out, outRun, run_cons]
    omega
  | case17 ch rest wp rp acc t not_pair not_cr not_lf ih =>
    rw [writeScan.eq_5 _ _ _ _ _ _ _ _ ch rest not_pair not_cr not_lf,
      ih (pre ++ [ch]) (by simpa using split) (by simp [at_rp]) (by omega) (fun h => absurd h (by simp)),
      N_out_cons_of_ne _ _ not_cr not_lf, uncounted_cons_of_ne _ _ not_lf,
      List.drop_append_of_le_length (by omega)]
    simp [outRun, run_cons, outStep_of_ne _ not_cr not_lf]
    omega

/-- `ioterm_write` on `acceptAll`: `rawio` receives `N_out` of the buffer, `cr_out`
ends as the output machine does, and the call returns the buffer's length less
the leading `\n` it skips in state `cr_out = 1`. -/
theorem ioterm_write_acceptAll (puts : PutsAll ioputc) (t : IoTerm (List Byte)) (buf : List Byte) :
    ioterm_write E acceptAll ioputc t buf =
      (((buf.length - uncounted t.cr_out buf : Nat) : Int),
        { t with rawio := t.rawio ++ N_out t.cr_out buf, cr_out := (outRun t.cr_out buf).2 }) := by
  rw [ioterm_write, writeScan_acceptAll E puts buf buf 0 0 0 t [] rfl rfl (Nat.le_refl 0) (fun _ => rfl)]
  simp

/-- Successive writes on `acceptAll` send `N_out` of the chunks together: the
state `cr_out` carries a `\r` at the end of one chunk over to a `\n` at the start
of the next. -/
theorem writeSession_acceptAll (puts : PutsAll ioputc) (t : IoTerm (List Byte)) (cs : List (List Byte)) :
    writeSession E acceptAll ioputc t cs =
      { t with rawio := t.rawio ++ N_out t.cr_out cs.flatten, cr_out := (outRun t.cr_out cs.flatten).2 } := by
  induction cs generalizing t with
  | nil => simp [writeSession]
  | cons c cs ih =>
    rw [writeSession, ih, ioterm_write_acceptAll E puts]
    simp [N_out_append, outRun_append_state, List.append_assoc]

/-- Through `iowrite`, a buffer of two or more bytes that starts with `\n` in
state `cr_out = 1` is answered with its full length, but `rawio` receives its
last byte a second time after `N_out` of the buffer. -/
theorem iowrite_term_resends_last (puts : PutsAll ioputc) (t : IoTerm (List Byte))
    (after_cr : t.cr_out = true) (l : List Byte) (more : l ≠ []) :
    iowrite E (termWrite E acceptAll ioputc) t (10 :: l) =
      (((10 :: l).length : Int),
        { t with rawio := t.rawio ++ N_out true (10 :: l) ++ N_out (outRun true (10 :: l)).2 [l.getLast more],
                 cr_out := (outRun (outRun true (10 :: l)).2 [l.getLast more]).2 }) := by
  have ends : (outRun true (10 :: l)).2 = (outStep (outRun true (10 :: l.dropLast)).2 (l.getLast more)).2 := by
    conv => lhs; rw [← List.dropLast_append_getLast more, ← List.cons_append, outRun, run_append]
    rfl
  have counted : uncounted (outRun true (10 :: l)).2 [l.getLast more] = 0 := by
    rw [ends]
    unfold uncounted
    by_cases lf : l.getLast more = 10
    · rw [lf]; cases (outRun true (10 :: l.dropLast)).2 <;> simp
    · simp [lf]
  obtain ⟨m, hm⟩ : ∃ m, l.length = m + 1 :=
    ⟨l.length - 1, by have := List.length_pos.mpr more; omega⟩
  have tail : (10 :: l).drop (m + 1) = [l.getLast more] := hm ▸ List.drop_length_cons more 10
  simp only [iowrite, termWrite, List.length_cons, hm]
  rw [writeLoop, if_pos (by simp), List.drop_zero, ioterm_write_acceptAll E puts, after_cr,
    show uncounted true (10 :: l) = 1 by simp [uncounted]]
  simp only [List.length_cons, hm, Nat.add_sub_cancel, Int.toNat_ofNat, Nat.zero_add]
  rw [if_neg (by omega), if_neg (by omega), writeLoop, if_pos (by simp [hm]), tail,
    ioterm_write_acceptAll E puts]
  simp only [counted, List.length_singleton, Nat.sub_zero]
  rw [if_neg (by omega), if_neg (by omega), writeLoop_done _ _ _ _ _ (by simp [hm])]
  simp [List.append_assoc]

/-- After a lone `\r`, writing `"\nb"` to a device that takes every byte sends
`b` twice, and `iowrite` reports two bytes. -/
theorem iowrite_term_resends_b :
    (PutsAll (fun out c => (1, out ++ [c])) ∧ (⟨[], true, false⟩ : IoTerm (List Byte)).cr_out = true ∧
        ([98] : List Byte) ≠ []) ∧
      iowrite ⟨1, 1, Nat.one_pos, Nat.one_pos⟩
          (termWrite ⟨1, 1, Nat.one_pos, Nat.one_pos⟩ acceptAll fun out c => (1, out ++ [c])) ⟨[], true, false⟩
          [10, 98] = (2, ⟨[98, 98], false, false⟩) :=
  have hyps : PutsAll (fun out c => (1, out ++ [c])) ∧ (⟨[], true, false⟩ : IoTerm (List Byte)).cr_out = true ∧
      ([98] : List Byte) ≠ [] := ⟨fun _ _ => ⟨(by decide : (0 : Int) ≤ 1), rfl⟩, rfl, List.cons_ne_nil _ _⟩
  ⟨hyps, (iowrite_term_resends_last _ hyps.1 _ hyps.2.1 [98] hyps.2.2).trans rfl⟩

end AcceptAll

/-- Writing a string in chunks by successive `ioterm_write` calls to a device
that takes every byte: the device receives `N_out` of the whole string from the
initial `cr_out`, and `cr_out` ends as `1` exactly when the string ends with a
`\r`, sent as `\r\n` (or, for the empty string, when it started as `1`). -/
theorem ioterm_write_chunks_normalize (E : Errno) {ioputc : List Byte → Byte → Int × List Byte}
    (puts : PutsAll ioputc) (out : List Byte) (cr_out cr_in : Bool) (chunks : List (List Byte)) :
    (writeSession E acceptAll ioputc ⟨out, cr_out, cr_in⟩ chunks).rawio = out ++ N_out cr_out chunks.flatten ∧
      ((writeSession E acceptAll ioputc ⟨out, cr_out, cr_in⟩ chunks).cr_out = true ↔
        (chunks.flatten = [] ∧ cr_out = true) ∨ chunks.flatten.getLast? = some 13) ∧
      (chunks.flatten.getLast? = some 13 → [13, 10] <:+ N_out cr_out chunks.flatten) := by
  rw [writeSession_acceptAll E puts]
  refine ⟨rfl, ?_, fun last => ?_⟩
  · rcases List.eq_nil_or_concat chunks.flatten with empty | ⟨s, ch, split⟩
    · simp [empty]
    · simp [split, outRun_snoc]
  · obtain ⟨s, split⟩ := List.getLast?_eq_some_iff.mp last
    rw [split]
    exact N_out_cr_end cr_out s

/-- A `\r` at the end of one chunk and a `\n` at the start of the next reach
the device as one `\r\n`. -/
theorem ioterm_write_chunks_split_crlf :
    PutsAll (fun out c => (1, out ++ [c])) ∧
    (writeSession ⟨1, 1, Nat.one_pos, Nat.one_pos⟩ acceptAll (fun out c => (1, out ++ [c])) ⟨[], false, false⟩
        ([[104, 13], [10, 105]] : List (List Byte))).rawio = [] ++ N_out false ([[104, 13], [10, 105]] : List (List Byte)).flatten ∧
      ((writeSession ⟨1, 1, Nat.one_pos, Nat.one_pos⟩ acceptAll (fun out c => (1, out ++ [c])) ⟨[], false, false⟩
        ([[104, 13], [10, 105]] : List (List Byte))).cr_out = true ↔
        (([[104, 13], [10, 105]] : List (List Byte)).flatten = [] ∧ false = true) ∨ ([[104, 13], [10, 105]] : List (List Byte)).flatten.getLast? = some 13) ∧
      (([[104, 13], [10, 105]] : List (List Byte)).flatten.getLast? = some 13 → [13, 10] <:+ N_out false ([[104, 13], [10, 105]] : List (List Byte)).flatten) :=
  have puts : PutsAll (fun out c => (1, out ++ [c])) := fun _ _ => ⟨by simp, rfl⟩
  ⟨puts, ioterm_write_chunks_normalize _ puts [] false false _⟩

/-- After a write that ended in a lone `\r`, so that `cr_out = 1`, writing
`"\nb"` through `iowrite` sends `b` twice: `ioterm_write` skips the `\n`
without counting it, so `iowrite` calls it again with the last byte.  Writing
`"\n"` alone returns `0`. -/
theorem iowrite_term_after_cr (E : Errno) (ioputc : List Byte → Byte → Int × List Byte)
    (out : List Byte) (cr_in : Bool) :
    iowrite E (termWrite E acceptAll ioputc) ⟨out, true, cr_in⟩ [10, 98] =
      (2, ⟨out ++ [98] ++ [98], false, cr_in⟩) ∧ N_out true [10, 98] = [98] ∧
    iowrite E (termWrite E acceptAll ioputc) ⟨out, true, cr_in⟩ [10] = (0, ⟨out, false, cr_in⟩) :=
  ⟨rfl, rfl, rfl⟩

end OsKernel.Io
