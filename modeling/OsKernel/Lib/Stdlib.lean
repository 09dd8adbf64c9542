import Mathlib.Data.Nat.Digits
import OsKernel.Io.Intf

/-! # Number conversion in `stdlib.c`

`itoa (num, str, base)` stores the digits of `num` in `str` from the least
significant on, appends `-` for a negative `num` in base 10, and then reverses
the string in place; `atoi (str)` reads an optional `-` and decimal digits.
Both compute in `int`: here an `int` is an integer in `[INT_MIN, INT_MAX]`,
`/` and `%` truncate toward zero (`Int.tdiv`, `Int.tmod`), and a result that
overflows wraps (`wrap`), as the two's-complement machine does.  A string is
the `Buffer` it is stored in, and the argument of `atoi` is the list of its
characters before the `NUL`.

The specification describes the results by the numerals `numeral` and
`decimal`.  For every `num` but `INT_MIN`, `itoa` in base 10 writes `decimal num`
(`itoa_decimal`) and `atoi` reads it back (`atoi_decimal`), and in every base
from 2 to 36 a non-negative `num` is written as its numeral (`itoa_numeral`).
The negation `-num` of `INT_MIN` wraps to `INT_MIN`, and a negative `num` in
another base stays negative: its remainders are negative, and their characters
lie below `'0'`.
-/

namespace OsKernel.Stdlib

open OsKernel.Io (Byte Buffer slice storeBytes slice_getElem slice_length slice_one slice_store_of_le
  slice_storeBytes slice_add)

/-- `INT_MIN`. -/
def INT_MIN : Int := -2 ^ 31

/-- `INT_MAX`. -/
def INT_MAX : Int := 2 ^ 31 - 1

/-- An `int` result as the machine keeps it: the value in `[INT_MIN, INT_MAX]`
equal to `x` modulo `2^32`. -/
def wrap (x : Int) : Int := (x + 2 ^ 31) % 2 ^ 32 - 2 ^ 31

theorem wrap_of_mem {x : Int} (lo : INT_MIN ≤ x) (hi : x ≤ INT_MAX) : wrap x = x := by
  unfold wrap INT_MIN INT_MAX at *
  omega

/-- An `int` stored into a `char`. -/
def toChar (x : Int) : Byte := UInt8.ofNat (x % 256).toNat

/-- The character `itoa` stores for a remainder:
`(rem > 9) ? (rem - 10) + 'a' : rem + '0'`. -/
def digitChar (rem : Int) : Byte :=
  if rem > 9 then toChar (rem - 10 + 97) else toChar (rem + 48)

/-- The loop `while (num != 0)` of `itoa`: the characters it stores, in order,
or `none` when it has not ended after `fuel` passes. -/
def digitLoop (base : Int) : Nat → Int → Option (List Byte)
  | 0, num => if num = 0 then some [] else none
  | fuel + 1, num =>
    if num = 0 then some [] else (digitLoop base fuel (num.tdiv base)).map (digitChar (num.tmod base) :: ·)

/-- `temp = str[start]; str[start] = str[end]; str[end] = temp`. -/
def swap (str : Buffer) (start stop : Nat) : Buffer :=
  store (store str start (str stop)) stop (str start)

/-- The reversal loop of `itoa`, with `g = end - start`: swap `str[start]` and
`str[end]` and move both inward while `start < end`. -/
def reverseLoop (str : Buffer) (start : Nat) : Nat → Buffer
  | 0 => str
  | 1 => swap str start (start + 1)
  | g + 2 => reverseLoop (swap str start (start + g + 2)) (start + 1) g

/-- `itoa (num, str, base)`.  The digit loop is given `32` passes, enough for
every `int` in every base from `2` (`digitLoop_digits`). -/
def itoa (num base : Int) (str : Buffer) : Option Buffer :=
  if num = 0 then some (store (store str 0 48) 1 0)
  else
    let isNegative := decide (num < 0 ∧ base = 10)
    let num := if isNegative then wrap (-num) else num
    (digitLoop base 32 num).map fun digits =>
      let s := if isNegative then digits ++ [45] else digits
      reverseLoop (store (storeBytes str 0 s) s.length 0) 0 (s.length - 1)

/-- `atoi (str)`, for the characters `s` of `str` before its `NUL`. -/
def atoi (s : List Byte) : Int :=
  let (sign, digits) : Int × List Byte := match s with
    | 45 :: rest => (-1, rest)
    | _ => (1, s)
  wrap (sign * digits.foldl (fun res c => wrap (res * 10 + c.toNat - 48)) 0)

theorem atoi_minus (s : List Byte) :
    atoi (45 :: s) = wrap (-1 * s.foldl (fun res c => wrap (res * 10 + c.toNat - 48)) 0) := rfl

theorem atoi_of_not_minus {s : List Byte} (h : s.head? ≠ some 45) :
    atoi s = wrap (1 * s.foldl (fun res c => wrap (res * 10 + c.toNat - 48)) 0) := by
  simp only [atoi]
  split
  · simp_all
  · rfl

/-! ## The reversal -/

theorem swap_apply (str : Buffer) (a b i : Nat) :
    swap str a b i = if i = b then str a else if i = a then str b else str i := by
  simp only [swap, store_apply]

/-- The reversal loop mirrors `str[start, start + g]` and leaves the rest alone. -/
theorem reverseLoop_apply (str : Buffer) (start g i : Nat) :
    reverseLoop str start g i =
      if start ≤ i ∧ i ≤ start + g then str (2 * start + g - i) else str i := by
  induction str, start, g using reverseLoop.induct with
  | case1 str start =>
    rw [reverseLoop]
    split
    · congr 1; omega
    · rfl
  | case2 str start =>
    rw [reverseLoop, swap_apply]
    split_ifs <;> first | rfl | (congr 1; omega)
  | case3 str start g ih =>
    rw [reverseLoop, ih, swap_apply, swap_apply]
    split_ifs <;> first | rfl | (congr 1; omega)

theorem slice_reverseLoop (str : Buffer) (g : Nat) :
    slice (reverseLoop str 0 g) 0 (g + 1) = (slice str 0 (g + 1)).reverse := by
  refine List.ext_getElem (by simp) fun i h₁ h₂ => ?_
  rw [slice_getElem, List.getElem_reverse, slice_getElem, reverseLoop_apply]
  simp only [slice_length] at h₁ ⊢
  rw [if_pos (by omega)]
  congr 1
  omega

/-- The string `itoa` stores, `s` and a `NUL`, after the reversal: `s` reversed,
then the `NUL`. -/
theorem reversed_string (str : Buffer) {s : List Byte} (nonempty : s ≠ []) :
    slice (reverseLoop (store (storeBytes str 0 s) s.length 0) 0 (s.length - 1)) 0 (s.length + 1) =
      s.reverse ++ [0] := by
  obtain ⟨n, hn⟩ : ∃ n, s.length = n + 1 := ⟨s.length - 1, by have := List.length_pos.mpr nonempty; omega⟩
  have nul : reverseLoop (store (storeBytes str 0 s) s.length 0) 0 (s.length - 1) s.length = 0 := by
    rw [reverseLoop_apply, if_neg (by omega), store_same]
  rw [slice_add, Nat.zero_add, slice_one, nul, hn, Nat.add_sub_cancel, slice_reverseLoop,
    slice_store_of_le _ _ (by omega), ← hn, slice_storeBytes]

/-- The first character after the reversal is the last one stored. -/
theorem reversed_first (str : Buffer) {s : List Byte} (nonempty : s ≠ []) :
    reverseLoop (store (storeBytes str 0 s) s.length 0) 0 (s.length - 1) 0 = s.getLast nonempty := by
  have pos := List.length_pos.mpr nonempty
  rw [reverseLoop_apply, if_pos (by omega), store_of_ne _ _ _ (by omega), List.getLast_eq_getElem]
  simp [storeBytes, List.getElem?_eq_getElem (show s.length - 1 < s.length by omega)]

/-! ## The digits -/

section Digits

variable {s : Int} (sign : s = 1 ∨ s = -1) (b : Nat)

include sign in
theorem tdiv_sign (m : Nat) : (s * m).tdiv b = s * ((m / b : Nat) : Int) := by
  rcases sign with rfl | rfl
  · rw [one_mul, one_mul, Int.ofNat_tdiv]
  · rw [neg_one_mul, neg_one_mul, Int.neg_tdiv, Int.ofNat_tdiv]

include sign in
theorem tmod_sign (m : Nat) : (s * m).tmod b = s * ((m % b : Nat) : Int) := by
  rcases sign with rfl | rfl
  · rw [one_mul, one_mul, Int.ofNat_tmod]
  · rw [neg_one_mul, neg_one_mul]
    cases m <;> rfl

include sign in
/-- From `s * m`, with `m` below `2 ^ fuel`, the digit loop stores the
characters of `s` times the base-`b` digits of `m`, least significant first. -/
theorem digitLoop_digits (hb : 2 ≤ b) (fuel m : Nat) (fits : m < 2 ^ fuel) :
    digitLoop b fuel (s * m) = some ((Nat.digits b m).map fun d : Nat => digitChar (s * d)) := by
  have nonzero : ∀ m : Nat, m ≠ 0 → s * m ≠ 0 := by rcases sign with rfl | rfl <;> omega
  induction fuel generalizing m with
  | zero =>
    obtain rfl : m = 0 := by simpa using fits
    simp [digitLoop]
  | succ fuel ih =>
    rcases Nat.eq_zero_or_pos m with rfl | pos
    · simp [digitLoop]
    have halves : m / b ≤ m / 2 := Nat.div_le_div_left hb (by decide)
    rw [digitLoop, if_neg (nonzero m pos.ne'), tdiv_sign sign, tmod_sign sign,
      ih (m / b) (by rw [Nat.pow_succ] at fits; omega), Nat.digits_def' (by omega) pos]
    rfl

end Digits

/-- `itoa` of a nonzero `num` that is not negative in base 10: the digits of
`num`, reversed. -/
theorem itoa_of_not_negative {num base : Int} (str : Buffer) (nz : num ≠ 0) (keep : ¬ (num < 0 ∧ base = 10))
    {digits : List Byte} (loop : digitLoop base 32 num = some digits) :
    itoa num base str = some (reverseLoop (store (storeBytes str 0 digits) digits.length 0) 0 (digits.length - 1)) := by
  simp only [itoa, nz, keep, loop, if_false, decide_False, Bool.false_eq_true, Option.map_some']

/-- `itoa` of a negative `num` in base 10: the digits of `-num`, wrapped, then
`-`, reversed. -/
theorem itoa_of_negative {num : Int} (str : Buffer) (neg : num < 0) {digits : List Byte}
    (loop : digitLoop 10 32 (wrap (-num)) = some digits) :
    itoa num 10 str = some (reverseLoop (store (storeBytes str 0 (digits ++ [45])) (digits ++ [45]).length 0) 0
      ((digits ++ [45]).length - 1)) := by
  simp only [itoa, show num ≠ 0 by omega, neg, and_true, decide_True, if_true, if_false, loop, Option.map_some']

/-! ## The numerals of the specification -/

/-- The character of digit `d`: `'0'` to `'9'`, then `'a'` to `'z'`. -/
def numeralChar (d : Nat) : Byte :=
  UInt8.ofNat (if d < 10 then 48 + d else 97 + (d - 10))

/-- The base-`b` numeral of `m`, most significant digit first. -/
def numeral (b m : Nat) : List Byte :=
  if m = 0 then [48] else ((Nat.digits b m).map numeralChar).reverse

/-- The canonical signed decimal numeral of `num`. -/
def decimal (num : Int) : List Byte :=
  if num < 0 then 45 :: numeral 10 num.natAbs else numeral 10 num.natAbs

/-! ## Numerals that fit -/

theorem numeralChar_toNat {d : Nat} (small : d < 10) : (numeralChar d).toNat = 48 + d := by
  rw [numeralChar, if_pos small]
  show (48 + d) % 256 = 48 + d
  omega

/-- Below base 36, the character `itoa` stores for a digit is the numeral's. -/
theorem digitChar_of_lt {d : Nat} (small : d < 36) : digitChar (1 * d) = numeralChar d := by
  rw [one_mul, digitChar, numeralChar]
  split_ifs <;> first | omega | (unfold toChar; congr 1; omega)

/-- Every character of a numeral in a base up to 10 is a digit, from `'0'` on. -/
theorem numeral_digits {b m : Nat} (b2 : 2 ≤ b) (b10 : b ≤ 10) : ∀ c ∈ numeral b m, 48 ≤ c.toNat := by
  intro c mem
  unfold numeral at mem
  split at mem
  · obtain rfl := List.mem_singleton.mp mem
    decide
  · obtain ⟨d, digit, rfl⟩ := List.mem_map.mp (List.mem_reverse.mp mem)
    rw [numeralChar_toNat (by have := Nat.digits_lt_base (show 1 < b by omega) digit; omega)]
    omega

/-- The digit loop on a non-negative `int`, in a base from 2 to 36: the
numeral's characters, least significant first. -/
theorem digitLoop_numeral {b : Nat} (b2 : 2 ≤ b) (b36 : b ≤ 36) {m : Nat} (fits : m < 2 ^ 32) :
    digitLoop b 32 m = some ((Nat.digits b m).map numeralChar) := by
  rw [← one_mul (m : Int), digitLoop_digits (Or.inl rfl) b b2 32 m fits]
  exact congrArg some (List.map_congr_left fun d mem =>
    digitChar_of_lt (by have := Nat.digits_lt_base (show 1 < b by omega) mem; omega))

/-- In a base from 2 to 36, `itoa` writes a non-negative `num` as its numeral,
then a `NUL`. -/
theorem itoa_numeral (str : Buffer) {b : Nat} (b2 : 2 ≤ b) (b36 : b ≤ 36) {m : Nat} (fits : m ≤ INT_MAX) :
    ∃ str', itoa m b str = some str' ∧ slice str' 0 ((numeral b m).length + 1) = numeral b m ++ [0] := by
  rcases Nat.eq_zero_or_pos m with rfl | pos
  · exact ⟨_, rfl, rfl⟩
  have nonempty : (Nat.digits b m).map numeralChar ≠ [] :=
    fun h => Nat.digits_ne_nil_iff_ne_zero.mpr pos.ne' (List.map_eq_nil_iff.mp h)
  refine ⟨_, itoa_of_not_negative str (by omega) (fun h => by omega)
    (digitLoop_numeral b2 b36 (by unfold INT_MAX at fits; omega)), ?_⟩
  rw [numeral, if_neg pos.ne', List.length_reverse]
  exact reversed_string str nonempty

/-- In base 10, `itoa` writes every `num` but `INT_MIN` as `decimal num`, then a
`NUL`. -/
theorem itoa_decimal (str : Buffer) {num : Int} (lo : INT_MIN < num) (hi : num ≤ INT_MAX) :
    ∃ str', itoa num 10 str = some str' ∧ slice str' 0 ((decimal num).length + 1) = decimal num ++ [0] := by
  by_cases neg : num < 0
  · obtain ⟨m, rfl⟩ : ∃ m : Nat, num = -m := ⟨num.natAbs, by omega⟩
    have flip : wrap (-(-(m : Int))) = m := by
      rw [neg_neg, wrap_of_mem] <;> unfold INT_MIN INT_MAX at * <;> omega
    have loop := digitLoop_numeral (b := 10) (by decide) (by decide) (m := m) (by unfold INT_MIN at lo; omega)
    rw [← flip] at loop
    have digits : decimal (-(m : Int)) = ((Nat.digits 10 m).map numeralChar ++ [45]).reverse := by
      rw [decimal, if_pos neg, Int.natAbs_neg, Int.natAbs_ofNat, numeral, if_neg (by omega)]
      simp
    refine ⟨_, itoa_of_negative str neg loop, ?_⟩
    rw [digits, List.length_reverse]
    exact reversed_string str (by simp)
  · obtain ⟨m, rfl⟩ := Int.eq_ofNat_of_zero_le (Int.not_lt.mp neg)
    rw [decimal, if_neg neg, Int.natAbs_ofNat]
    exact itoa_numeral str (b := 10) (by decide) (by decide) hi

/-- `itoa (-42, str, 10)` writes `"-42"`. -/
theorem itoa_minus_forty_two : ∃ str', itoa (-42) 10 (fun _ => 0) = some str' ∧
    slice str' 0 ((decimal (-42)).length + 1) = decimal (-42) ++ [0] :=
  itoa_decimal _ (by decide) (by decide)

/-- `atoi`'s loop over a numeral's characters: each pass multiplies by ten and
adds the digit, and nothing wraps while the value fits in an `int`. -/
theorem atoi_fold_numeral (L : List Nat) (small : ∀ d ∈ L, d < 10) (fits : Nat.ofDigits 10 L < 2 ^ 31) :
    (L.map numeralChar).reverse.foldl (fun res c => wrap (res * 10 + c.toNat - 48)) 0 =
      (Nat.ofDigits 10 L : Nat) := by
  induction L with
  | nil => rfl
  | cons d L ih =>
    have digit := small d (List.mem_cons_self d L)
    have range : INT_MIN = -2 ^ 31 ∧ INT_MAX = 2 ^ 31 - 1 := ⟨rfl, rfl⟩
    rw [Nat.ofDigits_cons] at fits ⊢
    rw [List.map_cons, List.reverse_cons, List.foldl_append,
      ih (fun e mem => small e (List.mem_cons_of_mem d mem)) (by omega), List.foldl_cons, List.foldl_nil,
      numeralChar_toNat digit, wrap_of_mem] <;> omega

/-- `atoi` reads back `decimal num` for every `num` but `INT_MIN`. -/
theorem atoi_decimal {num : Int} (lo : INT_MIN < num) (hi : num ≤ INT_MAX) : atoi (decimal num) = num := by
  have range : INT_MIN = -2 ^ 31 ∧ INT_MAX = 2 ^ 31 - 1 := ⟨rfl, rfl⟩
  have value (m : Nat) (fits : m < 2 ^ 31) :
      (numeral 10 m).foldl (fun res c => wrap (res * 10 + c.toNat - 48)) 0 = m := by
    unfold numeral
    split
    · subst m; rfl
    · rw [atoi_fold_numeral _ (fun d mem => Nat.digits_lt_base (by omega) mem) (by rwa [Nat.ofDigits_digits]),
        Nat.ofDigits_digits]
  by_cases neg : num < 0
  · obtain ⟨m, rfl⟩ : ∃ m : Nat, num = -m := ⟨num.natAbs, by omega⟩
    rw [decimal, if_pos neg, Int.natAbs_neg, Int.natAbs_ofNat, atoi_minus, value m (by omega), wrap_of_mem] <;>
      omega
  · obtain ⟨m, rfl⟩ := Int.eq_ofNat_of_zero_le (Int.not_lt.mp neg)
    have leading : (numeral 10 m).head? ≠ some 45 := fun h =>
      absurd (numeral_digits (by decide) (by decide) _ (List.mem_of_mem_head? h)) (by decide)
    rw [decimal, if_neg neg, Int.natAbs_ofNat, atoi_of_not_minus leading, value m (by omega), wrap_of_mem] <;>
      omega

/-- `atoi ("-42")` is `-42`. -/
theorem atoi_minus_forty_two : atoi (decimal (-42)) = -42 :=
  atoi_decimal (by decide) (by decide)

/-! ## `INT_MIN` and negative numbers in other bases -/

/-- The character of a negative remainder `-d` lies below `'0'`. -/
theorem digitChar_neg {d : Nat} (pos : 0 < d) (small : d ≤ 48) : (digitChar (-1 * d)).toNat = 48 - d := by
  rw [digitChar, if_neg (by omega)]
  show (((-1 * (d : Int) + 48) % 256).toNat) % 256 = 48 - d
  omega

/-- `itoa (INT_MIN, str, 10)` does not write `"-2147483648"`: `-INT_MIN` wraps
to `INT_MIN`, whose remainders are negative.  And for every negative `num` in a
base from 2 to 36 other than 10, the first character `itoa` writes lies below
`'0'`, so it is no base-`b` numeral. -/
theorem itoa_int_min_negative_bases (str : Buffer) :
    (∃ str', itoa INT_MIN 10 str = some str' ∧ slice str' 0 12 = [45, 46, 47, 44, 41, 44, 40, 45, 42, 44, 40, 0]) ∧
      decimal INT_MIN = [45, 50, 49, 52, 55, 52, 56, 51, 54, 52, 56] ∧
      ∀ num base : Int, INT_MIN ≤ num → num < 0 → 2 ≤ base → base ≤ 36 → base ≠ 10 →
        ∃ str', itoa num base str = some str' ∧ (str' 0).toNat < 48 := by
  refine ⟨?_, by simp [decimal, numeral, INT_MIN]; decide, fun num base lo neg b2 b36 not_ten => ?_⟩
  · have loop : digitLoop 10 32 (wrap (-INT_MIN)) = some [40, 44, 42, 45, 40, 44, 41, 44, 47, 46] := by decide
    exact ⟨_, itoa_of_negative str (by decide) loop,
      reversed_string str (s := [40, 44, 42, 45, 40, 44, 41, 44, 47, 46] ++ [45]) (by simp)⟩
  · obtain ⟨b, rfl⟩ := Int.eq_ofNat_of_zero_le (by omega : (0 : Int) ≤ base)
    obtain ⟨m, rfl⟩ : ∃ m : Nat, num = -1 * m := ⟨num.natAbs, by omega⟩
    have m_pos : m ≠ 0 := by omega
    have loop := digitLoop_digits (Or.inr rfl) b (by omega) 32 m (by unfold INT_MIN at lo; omega)
    have nonempty : (Nat.digits b m).map (fun d : Nat => digitChar (-1 * d)) ≠ [] :=
      fun h => Nat.digits_ne_nil_iff_ne_zero.mpr m_pos (List.map_eq_nil_iff.mp h)
    refine ⟨_, itoa_of_not_negative str (by omega) (fun h => not_ten (by exact_mod_cast h.2)) loop, ?_⟩
    have digits_nonempty : Nat.digits b m ≠ [] := Nat.digits_ne_nil_iff_ne_zero.mpr m_pos
    have last_lt := Nat.digits_lt_base (by omega) (List.getLast_mem digits_nonempty)
    have last_pos := Nat.pos_of_ne_zero (Nat.getLast_digit_ne_zero b m_pos)
    rw [reversed_first str nonempty, List.getLast_map _ _ nonempty, digitChar_neg last_pos (by omega)]
    omega

/-- `itoa (-1, str, 16)` writes `"/"`, where the specification asks for
`"ffffffff"`. -/
theorem itoa_minus_one_hex :
    (INT_MIN ≤ -1 ∧ (-1 : Int) < 0 ∧ (2 : Int) ≤ 16 ∧ (16 : Int) ≤ 36 ∧ (16 : Int) ≠ 10) ∧
      ∃ str', itoa (-1) 16 (fun _ => 0) = some str' ∧ (str' 0).toNat < 48 :=
  have hyps : INT_MIN ≤ -1 ∧ (-1 : Int) < 0 ∧ (2 : Int) ≤ 16 ∧ (16 : Int) ≤ 36 ∧ (16 : Int) ≠ 10 :=
    ⟨by decide, by decide, by decide, by decide, by decide⟩
  ⟨hyps, (itoa_int_min_negative_bases fun _ => 0).2.2 (-1) 16 hyps.1 hyps.2.1 hyps.2.2.1 hyps.2.2.2.1 hyps.2.2.2.2⟩

end OsKernel.Stdlib
