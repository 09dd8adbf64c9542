import OsKernel.Io.TermWrite

/-! # Line editing on an I/O terminal

`ioterm_getsn (iot, buf, n)` reads keys with `iogetc` until a `\r` or `\n`,
echoes them to `rawio` with `ioputc`, and keeps the line in `buf`: a backspace
or delete removes the last character, another key is appended while there is
room for it and the terminating `NUL`, and a beep answers a key that does not
fit or a backspace on an empty line.  The pointer `p` and the room `n` move
together, so `p - buf + n` stays the capacity and every store lands in
`buf[0, n)`.

`iogetc` is an inline function of `io.h`, which is not among the sources; the
keys it returns are taken as given.  What the loop keeps is `edit` of the keys
(`getsnLoop_spec`), with the key labelled "escape" ignored.  That key is
`'\133'`, which is `[`: a `[` is dropped, while the escape key `'\033'` is kept
like any other.
-/

namespace OsKernel.Io

/-- How `ioterm_getsn` ends on the keys given: it returns `buf` once a line is
complete, returns `NULL` after an `ioputc` fails, or is still waiting for a key
when the keys run out. -/
inductive Getsn (σ : Type)
  | line (buf : Buffer) (t : IoTerm σ)
  | null (buf : Buffer) (t : IoTerm σ)
  | waiting (p n : Nat) (buf : Buffer) (t : IoTerm σ)

variable {σ : Type} (ioputc : σ → Byte → Int × σ)

/-- The `for` loop of `ioterm_getsn`, with `p` at offset `p` of `buf` and `n`
bytes of room left, on the keys `iogetc` returns. -/
def getsnLoop : List Byte → Nat → Nat → Buffer → IoTerm σ → Getsn σ
  | [], p, n, buf, t => .waiting p n buf t
  | c :: keys, p, n, buf, t =>
    if c = 91 then getsnLoop keys p n buf { t with cr_in := false }
    else if c = 13 ∨ c = 10 then
      let (result, t) := t.putc ioputc 13
      if result < 0 then .null buf t
      else
        let (result, t) := t.putc ioputc 10
        if result < 0 then .null buf t else .line (store buf p 0) t
    else if c = 8 ∨ c = 127 then
      if p ≠ 0 then
        let (result, t) := t.putc ioputc 8
        if result < 0 then .null buf t
        else
          let (result, t) := t.putc ioputc 32
          if result < 0 then .null buf t
          else
            let (result, t) := t.putc ioputc 8
            if result < 0 then .null buf t else getsnLoop keys (p - 1) (n + 1) buf t
      else
        let (result, t) := t.putc ioputc 7
        if result < 0 then .null buf t else getsnLoop keys p n buf t
    else if n > 1 then
      let (result, t) := t.putc ioputc c
      let buf := store buf p c
      if result < 0 then .null buf t else getsnLoop keys (p + 1) (n - 1) buf t
    else
      let (result, t) := t.putc ioputc 7
      if result < 0 then .null buf t else getsnLoop keys p n buf t

/-- `ioterm_getsn (iot, buf, n)` on the keys `iogetc` returns. -/
def ioterm_getsn (t : IoTerm σ) (buf : Buffer) (n : Nat) (keys : List Byte) : Getsn σ :=
  getsnLoop ioputc keys 0 n buf t

/-- Line editing as the specification describes it, with `held` the characters
kept so far and `n` the capacity: keys are taken up to the first `\r` or `\n`;
a backspace or delete drops the last character, the key `escape` is ignored,
and any other key is appended while fewer than `n - 1` characters are held.
The specification ignores the escape key `27`; the code ignores `91`. -/
def edit (escape : Byte) (n : Nat) (held : List Byte) : List Byte → List Byte
  | [] => held
  | c :: keys =>
    if c = 13 ∨ c = 10 then held
    else if c = 8 ∨ c = 127 then edit escape n held.dropLast keys
    else if c = escape then edit escape n held keys
    else if held.length < n - 1 then edit escape n (held ++ [c]) keys
    else edit escape n held keys

section Spec

variable {ioputc}

/-- With an `ioputc` that never fails, the loop keeps `edit` of the keys up to
the first line end: it returns `buf` holding that line and a `NUL`, having
stored nothing at or past the capacity `cap`. -/
theorem getsnLoop_spec (ok : ∀ s c, 0 ≤ (ioputc s c).1) (keys : List Byte)
    (ends : ∃ c ∈ keys, c = 13 ∨ c = 10) (cap p n : Nat) (buf : Buffer) (t : IoTerm σ)
    (held : List Byte) (at_p : held.length = p) (room : p + n = cap) (pos : 1 ≤ n)
    (holds : slice buf 0 p = held) :
    ∃ B t', getsnLoop ioputc keys p n buf t = .line B t' ∧
      slice B 0 (edit 91 cap held keys).length = edit 91 cap held keys ∧
      B (edit 91 cap held keys).length = 0 ∧ ∀ i, cap ≤ i → B i = buf i := by
  have never : ∀ s c, ¬ (ioputc s c).1 < 0 := fun s c => Int.not_lt.mpr (ok s c)
  induction keys generalizing p n buf t held with
  | nil => simp at ends
  | cons c keys ih =>
    have rest (line_end : ¬ (c = 13 ∨ c = 10)) : ∃ c ∈ keys, c = 13 ∨ c = 10 := by
      obtain ⟨d, mem, is_end⟩ := ends
      rcases List.mem_cons.mp mem with rfl | mem
      · exact absurd is_end line_end
      · exact ⟨d, mem, is_end⟩
    by_cases bracket : c = 91
    · subst bracket
      rw [getsnLoop, if_pos rfl, edit, if_neg (by decide), if_neg (by decide), if_pos rfl]
      exact ih (rest (by decide)) p n buf _ held at_p room pos holds
    by_cases line_end : c = 13 ∨ c = 10
    · refine ⟨_, _, by simp only [getsnLoop, bracket, line_end, IoTerm.putc, never]; rfl, ?_⟩
      simp only [edit, line_end, if_true, at_p, store_same]
      exact ⟨(slice_store_of_le buf 0 (by omega)).trans holds, trivial,
        fun i above => store_of_ne _ _ _ (by omega)⟩
    by_cases delete : c = 8 ∨ c = 127
    · rw [edit, if_neg line_end, if_pos delete]
      by_cases empty : p = 0
      · subst empty
        obtain rfl := List.eq_nil_of_length_eq_zero at_p
        simpa [getsnLoop, bracket, line_end, delete, IoTerm.putc, never] using
          ih (rest line_end) 0 n buf _ [] rfl room pos holds
      · simpa [getsnLoop, bracket, line_end, delete, empty, IoTerm.putc, never] using
          ih (rest line_end) (p - 1) (n + 1) buf _ held.dropLast (by simp [at_p]) (by omega) (by omega)
            ((slice_pred buf 0 p).trans (congrArg List.dropLast holds))
    rw [edit, if_neg line_end, if_neg delete, if_neg bracket]
    by_cases fits : n > 1
    · rw [if_pos (by omega)]
      obtain ⟨B, t', run, line, nul, frame⟩ := ih (rest line_end) (p + 1) (n - 1) (store buf p c) _
        (held ++ [c]) (by simp [at_p]) (by omega) (by omega)
        (by simpa [holds] using slice_store_end buf 0 p c)
      refine ⟨B, t', ?_, line, nul, fun i above => (frame i above).trans (store_of_ne _ _ _ (by omega))⟩
      simpa [getsnLoop, bracket, line_end, delete, fits, IoTerm.putc, never] using run
    · rw [if_neg (by omega)]
      simpa [getsnLoop, bracket, line_end, delete, fits, IoTerm.putc, never] using
        ih (rest line_end) p n buf _ held at_p room pos holds

/-- `ioterm_getsn` with an `ioputc` that never fails and a capacity `n ≥ 1`, on
keys that contain a line end: it returns `buf` holding the `NUL`-terminated
line `edit 91`, with `[` ignored, and stores nothing outside `buf[0, n)`. -/
theorem ioterm_getsn_spec (ok : ∀ s c, 0 ≤ (ioputc s c).1) (t : IoTerm σ) (buf : Buffer) (n : Nat)
    (pos : 1 ≤ n) (keys : List Byte) (ends : ∃ c ∈ keys, c = 13 ∨ c = 10) :
    ∃ B t', ioterm_getsn ioputc t buf n keys = .line B t' ∧
      slice B 0 (edit 91 n [] keys).length = edit 91 n [] keys ∧
      B (edit 91 n [] keys).length = 0 ∧ ∀ i, n ≤ i → B i = buf i :=
  getsnLoop_spec ok keys ends n 0 n buf t [] rfl (Nat.zero_add n) pos rfl

/-- On the keys `a`, `\r`, with room for four bytes: the line `a`. -/
theorem ioterm_getsn_reads_a : ∃ B t', ioterm_getsn (fun s _ => ((0 : Int), s)) ⟨(), false, false⟩ (fun _ => 1) 4
    [97, 13] = .line B t' ∧ slice B 0 (edit 91 4 [] [97, 13]).length = edit 91 4 [] [97, 13] ∧
    B (edit 91 4 [] [97, 13]).length = 0 ∧ ∀ i, 4 ≤ i → B i = 1 :=
  ioterm_getsn_spec (fun _ _ => Int.le_refl 0) ⟨(), false, false⟩ (fun _ => 1) 4 (by decide) [97, 13]
    ⟨13, by decide, .inl rfl⟩

end Spec

/-- With room for a character, the key `[` is dropped where the specification
keeps it, and the escape key is kept where the specification drops it: on the
keys `"[\r"` the line is empty, on `"\033\r"` it holds the escape key. -/
theorem ioterm_getsn_drops_bracket {ioputc : σ → Byte → Int × σ} (ok : ∀ s c, 0 ≤ (ioputc s c).1)
    (t : IoTerm σ) (buf : Buffer) (n : Nat) (room : 2 ≤ n) :
    (∃ B t', ioterm_getsn ioputc t buf n [91, 13] = .line B t' ∧ B 0 = 0) ∧ edit 27 n [] [91, 13] = [91] ∧
      (∃ B t', ioterm_getsn ioputc t buf n [27, 13] = .line B t' ∧ B 0 = 27 ∧ B 1 = 0) ∧
      edit 27 n [] [27, 13] = [] := by
  have bracket : edit 91 n [] [91, 13] = [] := by simp [edit]
  have escape : edit 91 n [] [27, 13] = [27] := by simp [edit]; omega
  obtain ⟨B, t', run, -, nul, -⟩ := getsnLoop_spec ok [91, 13] ⟨13, by simp⟩ n 0 n buf t [] rfl
    (Nat.zero_add n) (by omega) rfl
  obtain ⟨B', t'', run', line', nul', -⟩ := getsnLoop_spec ok [27, 13] ⟨13, by simp⟩ n 0 n buf t [] rfl
    (Nat.zero_add n) (by omega) rfl
  rw [bracket] at nul
  rw [escape] at line' nul'
  exact ⟨⟨B, t', run, nul⟩, by simp [edit]; omega, ⟨B', t'', run', by simpa [slice] using line', nul'⟩,
    by simp [edit]⟩

/-- A device whose `ioputc` always succeeds, and a buffer of two bytes. -/
theorem ioterm_getsn_drops_bracket_two :
    (∀ (s : Unit) (c : Byte), 0 ≤ ((fun s _ => ((0 : Int), s)) s c).1) ∧ 2 ≤ 2 ∧
    (∃ B t', ioterm_getsn (fun s _ => ((0 : Int), s)) ⟨(), false, false⟩ (fun _ => 1) 2 [91, 13] = .line B t' ∧
        B 0 = 0) ∧ edit 27 2 [] [91, 13] = [91] ∧
      (∃ B t', ioterm_getsn (fun s _ => ((0 : Int), s)) ⟨(), false, false⟩ (fun _ => 1) 2 [27, 13] = .line B t' ∧
        B 0 = 27 ∧ B 1 = 0) ∧ edit 27 2 [] [27, 13] = [] :=
  ⟨fun _ _ => Int.le_refl 0, Nat.le_refl 2,
    ioterm_getsn_drops_bracket (fun _ _ => Int.le_refl 0) ⟨(), false, false⟩ (fun _ => 1) 2 (Nat.le_refl 2)⟩

end OsKernel.Io
