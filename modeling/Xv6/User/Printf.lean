/-
The user library's formatted output, `printf.c`: what `printf` writes, one `putc` a character.

`printint` takes its argument as an `int`, so `%d` prints an unsigned word of 2^31 or more with a minus sign. The `char *`
arguments of `%s` are addresses; `str` is what the program's memory holds there, up to the first NUL.

Results:
- `printint_decimal`, `printint_minus`: `%d` prints the decimal numeral of a word below 2^31, and a minus sign in front of
  the numeral of its two's complement from there on.
- `printf_literal`, `printf_d`: the parts of a format.
-/
import Mathlib

namespace Xv6.Printf

/-! ## Model -/

/-- `static char digits[]` -/
def digits : List Char := "0123456789ABCDEF".toList

/-- the `do ... while ((x /= base) != 0)` loop: what it leaves in `buf`. A word has at most 32 digits in any base. -/
def digitLoop (base : ℕ) : ℕ → ℕ → List Char
  | 0, _ => []
  | fuel + 1, x =>
    digits.getD (x % base) '\x00' :: if x / base ≠ 0 then digitLoop base fuel (x / base) else []

/-- `printint`; `xx` is the 32-bit word, negative as an `int` from 2^31 on -/
def printint (xx base : ℕ) (sgn : Bool) : List Char :=
  if sgn ∧ 2 ^ 31 ≤ xx then
    -- neg: `x = -xx`, and the sign is put last, so printed first
    (digitLoop base 32 ((2 ^ 32 - xx) % 2 ^ 32) ++ ['-']).reverse
  else (digitLoop base 32 xx).reverse

/-- the loop of `printf` over the rest of the format; `pct` is `state == '%'`, `ap` the words above `fmt` on the stack -/
def printfLoop (str : ℕ → List Char) (ap : ℕ → ℕ) : Bool → ℕ → List Char → List Char
  | _, _, [] => []
  | false, k, c :: fmt => if c = '%' then printfLoop str ap true k fmt else c :: printfLoop str ap false k fmt
  | true, k, c :: fmt =>
    if c = 'd' then printint (ap k) 10 true ++ printfLoop str ap false (k + 1) fmt
    else if c = 'x' ∨ c = 'p' then printint (ap k) 16 false ++ printfLoop str ap false (k + 1) fmt
    else if c = 's' then
      (if ap k = 0 then "(null)".toList else str (ap k)) ++ printfLoop str ap false (k + 1) fmt
    else if c = 'c' then Char.ofNat (ap k % 256) :: printfLoop str ap false (k + 1) fmt
    else if c = '%' then c :: printfLoop str ap false k fmt
    else '%' :: c :: printfLoop str ap false k fmt

/-- what `printf(fd, fmt, ...)` writes -/
def printf (str : ℕ → List Char) (fmt : List Char) (ap : ℕ → ℕ) : List Char := printfLoop str ap false 0 fmt

/-! ## Numbers -/

theorem digit_eq {d : ℕ} (h : d < 10) : digits.getD d '\x00' = d.digitChar := by
  interval_cases d <;> decide

/-- the digits come out last first -/
theorem digitLoop_ten (fuel x : ℕ) (hx : x < 10 ^ (fuel + 1)) : (digitLoop 10 (fuel + 1) x).reverse = Nat.toDigits 10 x := by
  induction fuel generalizing x with
  | zero =>
    have hx : x < 10 := by simpa using hx
    rw [digitLoop, Nat.mod_eq_of_lt hx, Nat.div_eq_of_lt hx, digit_eq hx, Nat.toDigits_of_lt_base hx]
    rfl
  | succ fuel ih =>
    rw [digitLoop, Nat.toDigits_eq_if (by decide), digit_eq (Nat.mod_lt x (by decide)), List.reverse_cons]
    split_ifs with h0 hlt hlt
    · exact absurd (Nat.div_eq_of_lt hlt) h0
    · rw [ih (x / 10) (by rw [pow_succ] at hx; omega)]
    · rw [Nat.mod_eq_of_lt hlt]; rfl
    · omega

theorem digitLoop_word {x : ℕ} (hx : x < 2 ^ 32) : (digitLoop 10 32 x).reverse = Nat.toDigits 10 x :=
  digitLoop_ten 31 x (hx.trans (by norm_num))

theorem printint_decimal {x : ℕ} (hx : x < 2 ^ 31) : printint x 10 true = Nat.toDigits 10 x := by
  rw [printint, if_neg (by simp; omega), digitLoop_word (by omega)]

theorem printint_minus {x : ℕ} (h31 : 2 ^ 31 ≤ x) (hx : x < 2 ^ 32) : printint x 10 true = '-' :: Nat.toDigits 10 (2 ^ 32 - x) := by
  rw [printint, if_pos ⟨rfl, h31⟩, List.reverse_append, Nat.mod_eq_of_lt (by omega), digitLoop_word (by omega)]
  rfl

/-! ## Formats -/

variable {str : ℕ → List Char} {ap : ℕ → ℕ} {k : ℕ}

theorem printf_literal {lit : List Char} (h : '%' ∉ lit) (fmt : List Char) :
    printfLoop str ap false k (lit ++ fmt) = lit ++ printfLoop str ap false k fmt := by
  induction lit with
  | nil => rfl
  | cons c lit ih =>
    obtain ⟨hc, hlit⟩ := List.ne_and_not_mem_of_not_mem_cons h
    rw [List.cons_append, printfLoop, if_neg hc.symm, ih hlit, List.cons_append]

theorem printf_d (fmt : List Char) :
    printfLoop str ap false k ('%' :: 'd' :: fmt) = printint (ap k) 10 true ++ printfLoop str ap false (k + 1) fmt := by
  simp [printfLoop]

end Xv6.Printf
