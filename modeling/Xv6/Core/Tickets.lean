/-
Tickets: a list of customers in the order in which they took a ticket, of which the first `d` have been served. Ticket
`n` is outstanding if it has been given out and not served. With at most one outstanding ticket per customer there are
no more outstanding tickets than customers (`length_le_of_unique`), so with that many slots no two of them share a slot
(`mod_inj_of_outstanding`).
-/
import Mathlib

namespace Xv6.Core

variable {α : Type*} {T : List α} {d n n' : ℕ} {a b : α}

/-- customer `a` holds the outstanding ticket `n` -/
def Outstanding (T : List α) (d n : ℕ) (a : α) : Prop := d ≤ n ∧ T[n]? = some a

theorem Outstanding.lt (h : Outstanding T d n a) : n < T.length := by
  obtain ⟨hn, -⟩ := List.getElem?_eq_some_iff.1 h.2
  exact hn

theorem Outstanding.inj (h : Outstanding T d n a) (h' : Outstanding T d n b) : a = b := by
  have := h.2.symm.trans h'.2
  simpa using this

theorem outstanding_append (hd : d ≤ T.length) : Outstanding (T ++ [b]) d n a ↔ Outstanding T d n a ∨ (n = T.length ∧ a = b) := by
  unfold Outstanding
  rcases lt_trichotomy n T.length with hn | rfl | hn
  · simp [List.getElem?_append_left hn, hn.ne]
  · simp [hd, eq_comm]
  · rw [List.getElem?_eq_none (by simp; omega), List.getElem?_eq_none (by omega)]
    simp [hn.ne']

theorem outstanding_succ : Outstanding T (d + 1) n a ↔ Outstanding T d n a ∧ n ≠ d := by
  unfold Outstanding
  constructor
  · rintro ⟨h, ha⟩; exact ⟨⟨by omega, ha⟩, by omega⟩
  · rintro ⟨⟨h, ha⟩, hne⟩; exact ⟨by omega, ha⟩

theorem length_le_of_unique [Fintype α]
    (hu : ∀ n n' a, Outstanding T d n a → Outstanding T d n' a → n = n') : T.length ≤ d + Fintype.card α := by
  classical
  have hinj : Function.Injective fun k : Fin (T.length - d) => T.get ⟨d + k.1, by omega⟩ := by
    intro k k' hk
    have h := hu (d + k.1) (d + k'.1) _ ⟨by omega, List.getElem?_eq_getElem (by omega)⟩
      ⟨by omega, by rw [List.getElem?_eq_getElem (by omega)]; exact congrArg some hk.symm⟩
    exact Fin.ext (by omega)
  have hcard := Fintype.card_le_of_injective _ hinj
  simp only [Fintype.card_fin] at hcard
  omega

theorem mod_inj_of_outstanding {size : ℕ} (hle : T.length ≤ d + size) (h : Outstanding T d n a)
    (h' : Outstanding T d n' b) (hmod : n % size = n' % size) : n = n' := by
  have hn := h.lt
  have hn' := h'.lt
  have hd := h.1
  have hd' := h'.1
  have hsub : ∀ x y : ℕ, x ≤ y → y < x + size → x % size = y % size → x = y := by
    intro x y hxy hlt hm
    obtain ⟨k, hk⟩ := (Nat.modEq_iff_dvd' hxy).1 hm
    have : k = 0 := by
      rcases Nat.eq_zero_or_pos k with h | h
      · exact h
      · have := Nat.mul_le_mul_left size h
        omega
    subst this
    omega
  rcases le_total n n' with hle' | hle'
  · exact hsub n n' hle' (by omega) hmod
  · exact (hsub n' n hle' (by omega) hmod.symm).symm

/-- the position after `n % size`, wrapping around -/
theorem succ_mod_eq_ite {size : ℕ} (hsize : 0 < size) (n : ℕ) : (n + 1) % size = if n % size + 1 = size then 0 else n % size + 1 := by
  have hlt := Nat.mod_lt n hsize
  rw [Nat.add_mod]
  split_ifs with h
  · rcases Nat.lt_or_ge 1 size with h1 | h1
    · rw [Nat.mod_eq_of_lt h1, h, Nat.mod_self]
    · obtain rfl : size = 1 := by omega
      simp [Nat.mod_one]
  · have h1 : 1 < size := by omega
    rw [Nat.mod_eq_of_lt h1, Nat.mod_eq_of_lt (by omega)]

end Xv6.Core
