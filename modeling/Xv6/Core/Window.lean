/-
Ring buffers with free-running counters. A list grows at its end; of its elements those from `lo` on are in a buffer of `n`
cells, element `k` in cell `k % n`. The program has the two ends only as 32-bit counters, which wrap.
-/
import Xv6.Core.Run

namespace Xv6.Core

variable {α : Type*} {n lo : ℕ} {buf : ℕ → α} {xs : List α} {x : α}

/-! ## Counters -/

theorem uint_toNat (k : ℕ) : (UInt32.ofNat k).toNat = k % 2 ^ 32 := UInt32.toNat_ofNat'

variable {a b : ℕ}

/-- counters that are close are equal only if the numbers are -/
theorem uint_eq_iff (hab : a ≤ b) (hb : b ≤ a + n) (hn : n < 2 ^ 32) :
    UInt32.ofNat a = UInt32.ofNat b ↔ a = b := by
  refine ⟨fun heq => ?_, fun heq => by rw [heq]⟩
  have hmod := congrArg UInt32.toNat heq
  rw [uint_toNat, uint_toNat] at hmod
  omega

/-- the difference of counters that are close is that of the numbers -/
theorem uint_sub (hab : a ≤ b) (hb : b < a + 2 ^ 32) : (UInt32.ofNat b - UInt32.ofNat a).toNat = b - a := by
  rw [UInt32.toNat_sub, uint_toNat, uint_toNat]
  omega

/-- the cell of a counter, if the number of cells divides the range of the counters -/
theorem uint_mod (hn : n ∣ 2 ^ 32) (k : ℕ) : (UInt32.ofNat k).toNat % n = k % n := by
  rw [uint_toNat]
  exact Nat.mod_mod_of_dvd k hn

/-! ## The window -/

/-- the elements of the list from `lo` on are in the cells -/
structure Window (n : ℕ) (buf : ℕ → α) (xs : List α) (lo : ℕ) : Prop where
  lo_le : lo ≤ xs.length
  le_lo : xs.length ≤ lo + n
  cells : ∀ k (hk : k < xs.length), lo ≤ k → buf (k % n) = xs[k]

namespace Window

/-- two places of the window are in different cells -/
theorem mod_ne {k : ℕ} (hlo : lo ≤ k) (hk : k < xs.length) (hroom : xs.length < lo + n) : k % n ≠ xs.length % n := by
  intro heq
  have hdvd := (Nat.modEq_iff_dvd' hk.le).1 heq
  have hle := Nat.le_of_dvd (by omega) hdvd
  omega

/-- an element is stored behind the last one -/
theorem push (h : Window n buf xs lo) (hroom : xs.length < lo + n) (x : α) :
    Window n (Function.update buf (xs.length % n) x) (xs ++ [x]) lo := by
  have hlo := h.lo_le
  refine ⟨?_, ?_, fun k hk hlok => ?_⟩
  · rw [List.length_append, List.length_singleton]
    omega
  · rw [List.length_append, List.length_singleton]
    omega
  · rw [List.length_append, List.length_singleton] at hk
    by_cases heq : k = xs.length
    · subst heq
      rw [update_self, List.getElem_concat_length rfl]
    · have hlt : k < xs.length := by omega
      rw [update_of_ne (mod_ne hlok hlt hroom), h.cells k hlt hlok, List.getElem_append_left hlt]

/-- the first element is taken out -/
theorem pop (h : Window n buf xs lo) (hne : lo < xs.length) : Window n buf xs (lo + 1) :=
  ⟨hne, h.le_lo.trans (by omega), fun k hk hlok => h.cells k hk (by omega)⟩

/-- it was in its cell -/
theorem first (h : Window n buf xs lo) (hne : lo < xs.length) : buf (lo % n) = xs[lo] := h.cells lo hne le_rfl

/-- the last element is taken back -/
theorem unpush (h : Window n buf xs lo) (hne : lo < xs.length) : Window n buf xs.dropLast lo := by
  have hle := h.le_lo
  refine ⟨?_, ?_, fun k hk hlok => ?_⟩
  · rw [List.length_dropLast]
    omega
  · rw [List.length_dropLast]
    omega
  · rw [List.length_dropLast] at hk
    rw [List.getElem_dropLast]
    exact h.cells k (by omega) hlok

end Window

end Xv6.Core
