import OsKernel.Io.Intf

/-! # `strtok` in `stdlib.c`

`strtok (str, delim)` keeps its place in the `static char *ptr`: a call with a
string starts there, a call with `NULL` goes on from `ptr`, and returns `NULL`
only while `ptr` is still `NULL`.  From `start = ptr` the loops look for a
character of `delim`: at the first one the function stores a `NUL` over it,
moves `ptr` past it and returns `start`; at the string's `NUL` it returns
`start` and leaves `ptr` on that `NUL`.

The test `start == ptr` just after `ptr++` never holds, since `start ≤ ptr`
throughout, so `start` never moves and a call returns the place it starts from
(`strtok_returns_start`): delimiters at the start of the string are not
skipped.  The calls return the pieces of the string
between delimiters, empty ones included, as `List.splitOnP` cuts them; once the
pieces are used up, every call returns the empty string at the end, never
`NULL` (`strtok_returns_pieces`).
-/

namespace OsKernel.Stdlib

open OsKernel.Io (Byte Buffer slice slice_add slice_congr)

/-- The loops of `strtok (str, delim)`, where `delim` is the list of the
characters of `delim` before its `NUL`.  `none` stands at the test
`*ptr != '\0'` of the outer loop, `some ds` at the test `*d != '\0'` of the
inner one, `ds` the characters from `d` on.  The result is the buffer, `start`
and `ptr` when the function returns, or `none` when it has not returned after
`fuel` tests. -/
def strtokLoop (delim : List Byte) :
    Nat → Buffer → Nat → Nat → Option (List Byte) → Option (Buffer × Nat × Nat)
  | 0, _, _, _, _ => none
  | fuel + 1, buf, start, ptr, none =>
    if buf ptr ≠ 0 then strtokLoop delim fuel buf start ptr (some delim) else some (buf, start, ptr)
  | fuel + 1, buf, start, ptr, some [] => strtokLoop delim fuel buf start (ptr + 1) none
  | fuel + 1, buf, start, ptr, some (d :: ds) =>
    if buf ptr = d then
      if start = ptr + 1 then strtokLoop delim fuel (store buf ptr 0) (start + 1) (ptr + 1) (some (d :: ds))
      else some (store buf ptr 0, start, ptr + 1)
    else strtokLoop delim fuel buf start ptr (some ds)

/-- `strtok (str, delim)`, with the `static char *ptr` as `ptr` and `NULL` as
`none`: the pointer returned, the buffer, and `ptr` after the call. -/
def strtok (delim : List Byte) (fuel : Nat) (buf : Buffer) (ptr str : Option Nat) :
    Option (Option Nat × Buffer × Option Nat) :=
  match str <|> ptr with
  | none => some (none, buf, none)
  | some ptr => (strtokLoop delim fuel buf ptr ptr none).map fun (buf, start, ptr) => (some start, buf, some ptr)

/-- A call `strtok (str, delim)` and `n` calls `strtok (NULL, delim)` after it,
each given `fuel`: what the last one returns. -/
def strtokCalls (delim : List Byte) (fuel : Nat) (buf : Buffer) (ptr : Option Nat) (str : Nat) :
    Nat → Option (Option Nat × Buffer × Option Nat)
  | 0 => strtok delim fuel buf ptr (some str)
  | n + 1 => (strtokCalls delim fuel buf ptr str n).bind fun (_, buf, ptr) => strtok delim fuel buf ptr none

/-! ## One call on a string -/

/-- The string at `q` is `s`: its characters, none of them `NUL`, then a `NUL`. -/
def StringAt (buf : Buffer) (q : Nat) (s : List Byte) : Prop :=
  0 ∉ s ∧ slice buf q s.length = s ∧ buf (q + s.length) = 0

/-- The inner loop on a character that is none of `ds`. -/
theorem strtokLoop_miss (delim : List Byte) (fuel : Nat) (buf : Buffer) (start ptr : Nat) {ds : List Byte}
    (miss : buf ptr ∉ ds) :
    strtokLoop delim (fuel + ds.length
        + 1) buf start ptr (some ds) = strtokLoop delim fuel buf start (ptr + 1) none := by
  induction ds with
  | nil => rfl
  | cons d ds ih =>
    rw [List.length_cons, show fuel + (ds.length + 1) + 1 = fuel + ds.length + 1 + 1 by omega, strtokLoop,
      if_neg fun (same : buf ptr = d) => miss (same ▸ List.mem_cons_self _ _),
          ih fun mem => miss (List.mem_cons_of_mem _ mem)]

/-- The inner loop on a character of `ds`: a `NUL` over it, and a return. -/
theorem strtokLoop_hit (delim : List Byte) (fuel : Nat) (buf : Buffer) {start ptr : Nat} {ds : List Byte}
    (le : start ≤ ptr) (hit : buf ptr ∈ ds) :
    strtokLoop delim (fuel + ds.length + 1) buf start ptr (some ds) = some (store buf ptr 0, start, ptr + 1) := by
  induction ds with
  | nil => exact absurd hit (List.not_mem_nil _)
  | cons d ds ih =>
    rw [List.length_cons, show fuel + (ds.length + 1) + 1 = fuel + ds.length + 1 + 1 by omega, strtokLoop]
    by_cases same : buf ptr = d
    · rw [if_pos same, if_neg (by omega)]
    · rw [if_neg same, ih ((List.mem_cons.mp hit).resolve_left same)]

/-- The loops pass over characters that are neither `NUL` nor delimiters, each
in `delim.length + 2` tests. -/
theorem strtokLoop_scan (delim : List Byte) (fuel : Nat) (buf : Buffer) (start : Nat) {tok : List Byte}
    (plain : ∀ c ∈ tok, c ≠ 0 ∧ c ∉ delim) {ptr : Nat} (stored : slice buf ptr tok.length = tok) :
    strtokLoop delim (fuel + tok.length * (delim.length + 2)) buf start ptr none =
      strtokLoop delim fuel buf start (ptr + tok.length) none := by
  induction tok generalizing ptr with
  | nil => simp only [List.length_nil, Nat.zero_mul, Nat.add_zero]
  | cons c tok ih =>
    obtain ⟨first, rest⟩ := List.cons.inj stored
    obtain ⟨not_nul, miss⟩ := plain c (List.mem_cons_self _ _)
    rw [List.length_cons, show fuel + (tok.length + 1) * (delim.length + 2) =
      fuel + tok.length * (delim.length + 2) + delim.length + 1 + 1 by rw [Nat.succ_mul]; omega, strtokLoop,
          if_pos (first ▸ not_nul),
      strtokLoop_miss _ _ _ _ _ (first ▸ miss), ih (fun c mem => plain c (List.mem_cons_of_mem _ mem)) rest]
    rw [Nat.add_assoc, Nat.add_comm 1]

/-- A string either has no delimiter, or is cut at its first one. -/
theorem split_first (delim r : List Byte) :
    (∀ c ∈ r, c ∉ delim) ∨
      ∃ tok d r', r = tok ++ d :: r' ∧ (∀ c ∈ tok, c ∉ delim) ∧ d ∈ delim := by
  induction r with
  | nil => exact .inl fun c mem => absurd mem (List.not_mem_nil c)
  | cons c r ih =>
    by_cases cut : c ∈ delim
    · exact .inr ⟨[], c, r, rfl, fun _ mem => absurd mem (List.not_mem_nil _), cut⟩
    rcases ih with none_in | ⟨tok, d, r', rfl, plain, cut'⟩
    · exact .inl fun e mem => (List.mem_cons.mp mem).elim (· ▸ cut) (none_in e)
    · exact .inr ⟨c :: tok, d, r', rfl, fun e mem => (List.mem_cons.mp mem).elim (· ▸ cut) (plain e), cut'⟩

theorem slice_append {buf : Buffer} {q : Nat} {a b : List Byte} (stored : slice buf q (a ++ b).length = a ++ b) :
    slice buf q a.length = a ∧ slice buf (q + a.length) b.length = b := by
  rw [List.length_append, slice_add] at stored
  exact List.append_inj stored (OsKernel.Io.slice_length _ _ _)

/-- One call from a string `r` at `q`, with enough fuel: it returns `q`, where
the first piece of `r` now stands, and leaves `ptr` on a string `r'` whose
pieces are the rest of `r`'s. -/
theorem strtok_next {delim : List Byte} {fuel : Nat} {buf : Buffer} {q : Nat} {r : List Byte}
    (at_q : StringAt buf q r) (enough : (r.length + 1) * (delim.length + 2) ≤ fuel) :
    ∃ buf' q' r', strtok delim fuel buf (some q) none = some (some q, buf', some q') ∧
      StringAt buf' q ((r.splitOnP (· ∈ delim)).getD 0 []) ∧ StringAt buf' q' r' ∧ r'.length ≤ r.length ∧
      ∀ n, (r.splitOnP (· ∈ delim)).getD (n + 1) [] = (r'.splitOnP (· ∈ delim)).getD n [] := by
  obtain ⟨no_nul, stored, nul⟩ := at_q
  rcases split_first delim r with none_in | ⟨tok, d, r', rfl, plain, cut⟩
  · have loop : strtokLoop delim fuel buf q q none = some (buf, q, q + r.length) := by
      obtain ⟨extra, rfl⟩ : ∃ extra, fuel = extra + 1 + r.length * (delim.length + 2) :=
        ⟨fuel - 1 - r.length * (delim.length + 2), by rw [Nat.add_mul] at enough; omega⟩
      rw [strtokLoop_scan delim _ buf q (fun c mem => ⟨fun zero => no_nul (zero ▸ mem), none_in c mem⟩) stored,
        strtokLoop, if_neg (not_not.mpr nul)]
    refine ⟨buf, q + r.length, [], by simp [strtok, loop], ?_, ⟨List.not_mem_nil 0, rfl, nul⟩, Nat.zero_le _,
      fun n => ?_⟩
    · rw [List.splitOnP_eq_single _ _ fun c mem => by simpa using none_in c mem]
      exact ⟨no_nul, stored, nul⟩
    · rw [List.splitOnP_eq_single _ _ fun c mem => by simpa using none_in c mem, List.splitOnP_nil]
      cases n <;> simp
  · obtain ⟨stored_tok, stored_rest⟩ := slice_append stored
    obtain ⟨at_d, stored_r'⟩ := List.cons.inj stored_rest
    have d_ne : d ≠ 0 := fun zero => no_nul (List.mem_append_right _ (zero ▸ List.mem_cons_self _ _))
    set p := q + tok.length
    have loop : strtokLoop delim fuel buf q q none = some (store buf p 0, q, p + 1) := by
      obtain ⟨extra, rfl⟩ : ∃ extra, fuel = extra + delim.length + 1 + 1 + tok.length * (delim.length + 2) :=
        ⟨fuel - delim.length - 2 - tok.length * (delim.length + 2), by
          simp only [List.length_append, List.length_cons, Nat.add_mul] at enough; omega⟩
      rw [strtokLoop_scan delim _ buf q (fun c mem => ⟨fun zero => no_nul (List.mem_append_left _ (zero ▸ mem)),
        plain c mem⟩) stored_tok, strtokLoop, if_pos (at_d ▸ d_ne), strtokLoop_hit _ _ _ (by omega) (at_d ▸ cut)]
    have plain_bool : ∀ c ∈ tok, ¬ decide (c ∈ delim) = true := fun c mem => by simpa using plain c mem
    rw [List.splitOnP_first _ _ plain_bool d (by simpa using cut), List.getD_cons_zero]
    have nul' : buf (p + 1 + r'.length) = 0 := by
      rw [← nul]; congr 1; simp only [p, List.length_append, List.length_cons]; omega
    refine ⟨store buf p 0, p + 1, r', by simp [strtok, loop], ⟨fun mem => no_nul (List.mem_append_left _ mem),
      ?_, store_same _ _ _⟩, ⟨fun mem => no_nul (List.mem_append_right _ (List.mem_cons_of_mem _ mem)), ?_, ?_⟩,
      by simp only [List.length_append, List.length_cons]; omega, fun n => rfl⟩
    · rw [OsKernel.Io.slice_store_of_le _ _ (show q + tok.length ≤ p from Nat.le_refl _)]; exact stored_tok
    · rw [slice_congr fun i lo _ => store_of_ne _ _ _ (by omega)]; exact stored_r'
    · rw [store_of_ne _ _ _ (by omega)]; exact nul'

/-- `strtok` on a string, from `str` or else the saved `ptr`, with enough fuel:
it returns the place it starts from, so it never skips the delimiters at the
start of a string. -/
theorem strtok_returns_start {delim s : List Byte} {fuel : Nat} {buf : Buffer} {ptr str : Option Nat} {q : Nat}
    (from_q : (str <|> ptr) = some q) (at_q : StringAt buf q s)
    (enough : (s.length + 1) * (delim.length + 2) ≤ fuel) :
    ∃ buf' ptr', strtok delim fuel buf ptr str = some (some q, buf', ptr') := by
  have same : strtok delim fuel buf ptr str = strtok delim fuel buf (some q) none := by
    unfold strtok; rw [from_q]; rfl
  obtain ⟨buf', q', -, call, -⟩ := strtok_next at_q enough
  exact ⟨buf', some q', same.trans call⟩

/-- `strtok (",a", ",")` returns the string itself, at the comma. -/
theorem strtok_starts_at_comma : ((some 0 <|> none) = some 0 ∧
    StringAt (fun i => ([44, 97] : List Byte).getD i 0) 0 [44, 97] ∧ (2 + 1) * (1 + 2) ≤ 20) ∧
    ∃ buf' ptr', strtok [44] 20 (fun i => ([44, 97] : List Byte).getD i 0) none (some 0) = some (some 0, buf', ptr') :=
  have hyps : (some 0 <|> none) = some 0 ∧ StringAt (fun i => ([44, 97] : List Byte).getD i 0) 0 [44, 97] ∧
      (2 + 1) * (1 + 2) ≤ 20 := ⟨rfl, ⟨by decide, by decide, by decide⟩, by decide⟩
  ⟨hyps, strtok_returns_start hyps.1 hyps.2.1 hyps.2.2⟩

/-! ## The pieces of a string -/

/-- `strtok (str, delim)` on a string `s` and `n` calls `strtok (NULL, delim)`
after it: the last call returns a pointer to the `n`-th piece of `s` between
delimiters, empty pieces included, and to an empty string once the pieces are
used up.  No call returns `NULL`. -/
theorem strtok_returns_pieces {delim s : List Byte} {buf : Buffer} {ptr : Option Nat} {p fuel : Nat}
    (at_p : StringAt buf p s) (enough : (s.length + 1) * (delim.length + 2) ≤ fuel) (n : Nat) :
    ∃ q buf' ptr', strtokCalls delim fuel buf ptr p n = some (some q, buf', ptr') ∧
      StringAt buf' q ((s.splitOnP (· ∈ delim)).getD n []) := by
  suffices run : ∃ q buf' q' r, strtokCalls delim fuel buf ptr p n = some (some q, buf', some q') ∧
      StringAt buf' q ((s.splitOnP (· ∈ delim)).getD n []) ∧ StringAt buf' q' r ∧ r.length ≤ s.length ∧
      ∀ m, (s.splitOnP (· ∈ delim)).getD (n + 1 + m) [] = (r.splitOnP (· ∈ delim)).getD m [] by
    obtain ⟨q, buf', q', -, calls, at_q, -⟩ := run
    exact ⟨q, buf', some q', calls, at_q⟩
  induction n with
  | zero =>
    obtain ⟨buf', q', r', call, first, at_q', shorter, rest⟩ := strtok_next at_p enough
    exact ⟨p, buf', q', r', call, first, at_q', shorter, fun m => by rw [show 0 + 1 + m = m + 1 by omega, rest]⟩
  | succ n ih =>
    obtain ⟨q, buf₁, q₁, r, calls, -, at_q₁, shorter, rest⟩ := ih
    obtain ⟨buf', q', r', call, first, at_q', shorter', rest'⟩ :=
      strtok_next at_q₁ (le_trans (Nat.mul_le_mul_right _ (Nat.succ_le_succ shorter)) enough)
    refine ⟨q₁, buf', q', r', by simp only [strtokCalls, calls, Option.some_bind, call], ?_, at_q',
      shorter'.trans shorter, fun m => ?_⟩
    · rw [show n + 1 = n + 1 + 0 from rfl, rest]; exact first
    · rw [show n + 1 + 1 + m = n + 1 + (m + 1) by omega, rest, rest']

/-- `strtok (",a,,b", ",")` returns an empty string first: the leading comma
cuts off an empty piece. -/
theorem strtok_leading_delimiter : ∃ q buf' ptr', strtokCalls [44] 20
    (fun i => ([44, 97, 44, 44, 98] : List Byte).getD i 0) none 0 0 = some (some q, buf', ptr') ∧
    StringAt buf' q [] := by
  obtain ⟨q, buf', ptr', calls, at_q⟩ := @strtok_returns_pieces [44] [44, 97, 44, 44, 98]
    (fun i => ([44, 97, 44, 44, 98] : List Byte).getD i 0) none 0 20 ⟨by decide, by decide, by decide⟩ (by decide) 0
  exact ⟨q, buf', ptr', calls, at_q⟩

end OsKernel.Stdlib
