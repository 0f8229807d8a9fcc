/-
The two `memmove`s: the kernel's (`string.c`) and the user library's (`ulib.c`).

Memory is bytes by address, below 2^32. While both ranges are in there, no pointer that is used wraps; `s + n` may, in the kernel's test.
The kernel's `n` is an `uint`, the library's an `int`: from 2^31 on it is negative and the loop makes no round.
-/
import Xv6.Core.Run

namespace Xv6.Memmove

open Xv6.Core

abbrev Bytes := ℕ → UInt8

/-! ## Model -/

/-- `while(n-- > 0) *d++ = *s++` -/
def copyUp (d s : ℕ) : ℕ → Bytes → Bytes
  | 0, m => m
  | n + 1, m => copyUp (d + 1) (s + 1) n (Function.update m d (m s))

/-- `while(n-- > 0) *--d = *--s` -/
def copyDown (d s : ℕ) : ℕ → Bytes → Bytes
  | 0, m => m
  | n + 1, m => copyDown (d - 1) (s - 1) n (Function.update m (d - 1) (m (s - 1)))

/-- `memmove` of the kernel -/
def memmove (dst src n : ℕ) (m : Bytes) : Bytes :=
  if src < dst ∧ dst < (src + n) % 2 ^ 32 then copyDown (dst + n) (src + n) n m else copyUp dst src n m

/-- `memmove` of the user library -/
def ulibMemmove (dst src n : ℕ) (m : Bytes) : Bytes := copyUp dst src (if n < 2 ^ 31 then n else 0) m

/-! ## What it is for -/

/-- `m'` is `m` with the bytes from `src` on at `dst` -/
def Moved (dst src n : ℕ) (m m' : Bytes) : Prop :=
  (∀ i < n, m' (dst + i) = m (src + i)) ∧ ∀ a, a < dst ∨ dst + n ≤ a → m' a = m a

/-- copying upwards moves the bytes: `dst` is not inside the range, or the bytes there repeat with the distance as period. A count that is
negative moves nothing, so that the bytes must be there already -/
def Harmless (dst src n : ℕ) (m : Bytes) : Prop :=
  if n < 2 ^ 31 then src < dst → dst < src + n → ∀ i < n, m (src + i) = m (src + i % (dst - src))
  else ∀ i < n, m (dst + i) = m (src + i)

variable {dst src n a i : ℕ} {m : Bytes}

/-! ## The loops -/

theorem copyUp_outside (h : a < dst ∨ dst + n ≤ a) : copyUp dst src n m a = m a := by
  induction n generalizing dst src m with
  | zero => rfl
  | succ n ih =>
    rw [copyUp, ih (by omega)]
    exact update_of_ne (by omega) ..

theorem succ_mod {p : ℕ} (hp : 0 < p) (i : ℕ) : (i + 1) % p = if i % p + 1 = p then 0 else i % p + 1 := by
  have hdiv := Nat.div_add_mod i p
  have hmod := Nat.mod_lt i hp
  split
  · rename_i hend
    rw [show i + 1 = p * (i / p) + p by omega, Nat.add_mod_right, Nat.mul_mod_right]
  · rw [show i + 1 = p * (i / p) + (i % p + 1) by omega, Nat.mul_add_mod, Nat.mod_eq_of_lt (by omega)]

/-- where the bytes come from -/
theorem copyUp_inside (hi : i < n) : copyUp dst src n m (dst + i) = m (src + if src < dst then i % (dst - src) else i) := by
  induction n generalizing dst src m i with
  | zero => exact absurd hi (Nat.not_lt_zero i)
  | succ n ih =>
    rw [copyUp]
    cases i with
    | zero =>
      rw [copyUp_outside (by omega), Nat.add_zero, update_self, Nat.zero_mod, ite_self]
      rfl
    | succ i =>
      rw [show dst + (i + 1) = dst + 1 + i by omega, ih (by omega)]
      by_cases hlt : src < dst
      · -- at the end of a period the byte that has just been stored is read
        rw [if_pos (by omega), if_pos hlt, show dst + 1 - (src + 1) = dst - src by omega, succ_mod (by omega)]
        have hmod := Nat.mod_lt i (show 0 < dst - src by omega)
        split
        · rw [show src + 1 + i % (dst - src) = dst by omega, update_self]
          rfl
        · rw [update_of_ne (by omega), Nat.add_right_comm src 1]
          rfl
      · rw [if_neg (by omega), if_neg hlt, update_of_ne (by omega)]
        congr 1
        omega

theorem copyDown_outside (h : a < dst ∨ dst + n ≤ a) : copyDown (dst + n) (src + n) n m a = m a := by
  induction n generalizing m with
  | zero => rfl
  | succ n ih =>
    rw [copyDown]
    exact (ih (by omega)).trans (update_of_ne (by omega) ..)

theorem copyDown_inside (hlt : src < dst) (hi : i < n) : copyDown (dst + n) (src + n) n m (dst + i) = m (src + i) := by
  induction n generalizing m with
  | zero => exact absurd hi (Nat.not_lt_zero i)
  | succ n ih =>
    rw [copyDown]
    change copyDown (dst + n) (src + n) n (update m (dst + n) (m (src + n))) (dst + i) = _
    by_cases hin : i < n
    · rw [ih hin]
      exact update_of_ne (by omega) ..
    · obtain rfl : i = n := by omega
      rw [copyDown_outside (.inr le_rfl), update_self]

/-! ## Both of them -/

/-- copying upwards moves the bytes just when they are those that it reads -/
theorem moved_copyUp : Moved dst src n m (copyUp dst src n m) ↔
    (src < dst → dst < src + n → ∀ i < n, m (src + i) = m (src + i % (dst - src))) := by
  constructor
  · intro h hlt _ i hi
    rw [← h.1 i hi, copyUp_inside hi, if_pos hlt]
  · intro h
    refine ⟨fun i hi => ?_, fun a ha => copyUp_outside ha⟩
    rw [copyUp_inside hi]
    split
    · rename_i hlt
      by_cases hin : dst < src + n
      · exact (h hlt hin i hi).symm
      · rw [Nat.mod_eq_of_lt (by omega)]
    · rfl

theorem moved_memmove (hdst : dst + n ≤ 2 ^ 32) : Moved dst src n m (memmove dst src n m) := by
  unfold memmove
  split
  · rename_i hdown
    exact ⟨fun i hi => copyDown_inside hdown.1 hi, fun a ha => copyDown_outside ha⟩
  · rename_i hup
    refine moved_copyUp.2 fun hlt hin => absurd ⟨hlt, ?_⟩ hup
    rw [Nat.mod_eq_of_lt (by omega)]
    exact hin

/-- **The two `memmove`s.** For all ranges inside the address space, the kernel's leaves the bytes of `src` at `dst` and everything else as
it was; the library's does so just when copying upwards is harmless. -/
theorem memmove_agree (dst src n : ℕ) (m : Bytes) (hdst : dst + n ≤ 2 ^ 32) (_hsrc : src + n ≤ 2 ^ 32) :
    Moved dst src n m (memmove dst src n m) ∧ (Moved dst src n m (ulibMemmove dst src n m) ↔ Harmless dst src n m) := by
  refine ⟨moved_memmove hdst, ?_⟩
  unfold ulibMemmove Harmless
  split
  · exact moved_copyUp
  · exact ⟨fun h => h.1, fun h => ⟨h, fun _ _ => rfl⟩⟩

/-- byte `a` is at address `a` -/
def counting : Bytes := UInt8.ofNat

/-- two bytes moved up by two -/
theorem memmove_agree_apart : Moved 2 0 2 counting (ulibMemmove 2 0 2 counting) :=
  (memmove_agree 2 0 2 counting (by decide) (by decide)).2.2 fun _ hin => absurd hin (by decide)

/-- two bytes moved up by one: the library's stores the first one twice -/
theorem memmove_overlap : 1 + 2 ≤ 2 ^ 32 ∧ 0 + 2 ≤ 2 ^ 32 ∧ memmove 1 0 2 counting 2 = 1 ∧ ulibMemmove 1 0 2 counting 2 = 0 ∧
    ¬ Moved 1 0 2 counting (ulibMemmove 1 0 2 counting) := by
  refine ⟨by decide, by decide, by decide, by decide, fun h => ?_⟩
  exact absurd (h.1 1 (by decide)) (by decide)

end Xv6.Memmove
