/-
Tables of slots that hold keys with values, as a finite map kept in an array: an entry goes to any slot that is empty, and a slot is
emptied again. As long as no key is entered twice, the table is a map.
-/
import Xv6.Core.Run

namespace Xv6.Core.Slots

variable {K V : Type} {t : ℕ → Option (K × V)} {i : ℕ} {k k' : K} {v v' : V}

/-- some slot holds the key with the value -/
def Maps (t : ℕ → Option (K × V)) (k : K) (v : V) : Prop := ∃ i, t i = some (k, v)

/-- no key is twice in the table -/
def Distinct (t : ℕ → Option (K × V)) : Prop := ∀ i j k v w, t i = some (k, v) → t j = some (k, w) → i = j

theorem Distinct.set (h : Distinct t) (hnew : ∀ v, ¬ Maps t k v) : Distinct (update t i (some (k, v))) := by
  intro j j' k' w w' hj hj'
  by_cases hi : j = i
  · subst hi
    rw [update_self] at hj
    cases hj
    by_contra hne
    rw [update_of_ne (Ne.symm hne)] at hj'
    exact hnew w' ⟨j', hj'⟩
  · rw [update_of_ne hi] at hj
    by_cases hi' : j' = i
    · subst hi'
      rw [update_self] at hj'
      cases hj'
      exact absurd ⟨j, hj⟩ (hnew w)
    · rw [update_of_ne hi'] at hj'
      exact h j j' k' w w' hj hj'

theorem Distinct.clear (h : Distinct t) : Distinct (update t i none) := by
  have hback : ∀ {j p}, update t i none j = some p → t j = some p := by
    intro j p hj
    by_cases hi : j = i
    · subst hi
      rw [update_self] at hj
      cases hj
    · rwa [update_of_ne hi] at hj
  intro j j' k' w w' hj hj'
  exact h j j' k' w w' (hback hj) (hback hj')

/-- **An entry in an empty slot** is added, and nothing else changes. -/
theorem maps_set (hi : t i = none) : Maps (update t i (some (k, v))) k' v' ↔ (k' = k ∧ v' = v) ∨ Maps t k' v' := by
  constructor
  · rintro ⟨j, hj⟩
    by_cases hji : j = i
    · subst hji
      rw [update_self] at hj
      cases hj
      exact .inl ⟨rfl, rfl⟩
    · rw [update_of_ne hji] at hj
      exact .inr ⟨j, hj⟩
  · rintro (⟨rfl, rfl⟩ | ⟨j, hj⟩)
    · exact ⟨i, update_self ..⟩
    · have hji : j ≠ i := by
        rintro rfl
        rw [hi] at hj
        cases hj
      exact ⟨j, (update_of_ne hji ..).trans hj⟩

/-- **An entry that goes** takes its key with it, and nothing else changes. -/
theorem maps_clear (h : Distinct t) (hi : t i = some (k, v)) : Maps (update t i none) k' v' ↔ k' ≠ k ∧ Maps t k' v' := by
  constructor
  · rintro ⟨j, hj⟩
    have hji : j ≠ i := by
      rintro rfl
      rw [update_self] at hj
      cases hj
    rw [update_of_ne hji] at hj
    refine ⟨?_, j, hj⟩
    rintro rfl
    exact hji (h j i k' v' v hj hi)
  · rintro ⟨hne, j, hj⟩
    have hji : j ≠ i := by
      rintro rfl
      rw [hi] at hj
      cases hj
      exact hne rfl
    exact ⟨j, (update_of_ne hji ..).trans hj⟩

end Xv6.Core.Slots
