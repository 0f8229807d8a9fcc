/-
A pool of numbered blocks and the places that refer to them. `ref p` is the block at place `p`, 0 if it is empty; `used` is
the map of blocks in use. The blocks below `lo` are in use by themselves and no place refers to them.
-/
import Xv6.Core.Run

namespace Xv6.Core

variable {P : Type*} {lo hi : ℕ} {ref ref' : P → ℕ} {used : ℕ → Bool} {p : P} {b : ℕ}

structure Pool (lo hi : ℕ) (ref : P → ℕ) (used : ℕ → Bool) : Prop where
  pos : 0 < lo
  range : ∀ p, ref p ≠ 0 → lo ≤ ref p ∧ ref p < hi
  inj : ∀ p q, ref p ≠ 0 → ref p = ref q → p = q
  low : ∀ b < lo, used b = true
  mark : ∀ b, lo ≤ b → b < hi → (used b = true ↔ ∃ p, ref p = b)

/-- a block that a place refers to is marked -/
theorem Pool.used_of_ref (h : Pool lo hi ref used) (hp : ref p ≠ 0) : used (ref p) = true := by
  obtain ⟨hlo, hhi⟩ := h.range p hp
  exact (h.mark _ hlo hhi).2 ⟨p, rfl⟩

/-- a block that is not marked is nobody's -/
theorem Pool.fresh (h : Pool lo hi ref used) (hb : used b = false) (p : P) : ref p ≠ b ∨ b = 0 := by
  by_cases hp : ref p = 0
  · by_cases hb0 : b = 0
    · exact .inr hb0
    · exact .inl fun heq => hb0 (heq.symm.trans hp)
  · refine .inl fun heq => ?_
    have hused := h.used_of_ref hp
    rw [heq, hb] at hused
    cases hused

theorem Pool.lo_le (h : Pool lo hi ref used) (hb : used b = false) : lo ≤ b := by
  by_contra! hlt
  have hused := h.low b hlt
  rw [hb] at hused
  cases hused

theorem Pool.congr (h : Pool lo hi ref used) (heq : ∀ p, ref' p = ref p) : Pool lo hi ref' used := by
  rw [show ref' = ref from funext heq]
  exact h

variable [DecidableEq P]

/-- an unmarked block goes to an empty place -/
theorem Pool.alloc (h : Pool lo hi ref used) (hp : ref p = 0) (hb : used b = false) (hhi : b < hi) :
    Pool lo hi (update ref p b) (update used b true) := by
  have hlo := h.lo_le hb
  have hpos := h.pos
  have hfresh : ∀ q, ref q ≠ b := fun q => (h.fresh hb q).resolve_right (by omega)
  refine ⟨h.pos, fun q hq => ?_, fun q r hq heq => ?_, fun c hc => ?_, fun c hc hchi => ?_⟩
  · by_cases hqp : q = p
    · rw [hqp, update_self]
      exact ⟨hlo, hhi⟩
    · rw [update_of_ne hqp] at hq ⊢
      exact h.range q hq
  · by_cases hqp : q = p
    · by_cases hrp : r = p
      · rw [hqp, hrp]
      · rw [hqp, update_self, update_of_ne hrp] at heq
        exact absurd heq.symm (hfresh r)
    · rw [update_of_ne hqp] at hq heq
      by_cases hrp : r = p
      · rw [hrp, update_self] at heq
        exact absurd heq (hfresh q)
      · rw [update_of_ne hrp] at heq
        exact h.inj q r hq heq
  · rw [update_of_ne (by omega)]
    exact h.low c hc
  · by_cases hcb : c = b
    · rw [hcb, update_self]
      exact iff_of_true rfl ⟨p, update_self ..⟩
    · rw [update_of_ne hcb, h.mark c hc hchi]
      constructor
      · rintro ⟨q, hq⟩
        have hqp : q ≠ p := by
          rintro rfl
          omega
        exact ⟨q, (update_of_ne hqp ..).trans hq⟩
      · rintro ⟨q, hq⟩
        by_cases hqp : q = p
        · rw [hqp, update_self] at hq
          exact absurd hq.symm hcb
        · rw [update_of_ne hqp] at hq
          exact ⟨q, hq⟩

/-- a place is emptied and its block given back -/
theorem Pool.free (h : Pool lo hi ref used) (hp : ref p ≠ 0) : Pool lo hi (update ref p 0) (update used (ref p) false) := by
  obtain ⟨hlo, -⟩ := h.range p hp
  refine ⟨h.pos, fun q hq => ?_, fun q r hq heq => ?_, fun c hc => ?_, fun c hc hchi => ?_⟩
  · by_cases hqp : q = p
    · rw [hqp, update_self] at hq
      exact absurd rfl hq
    · rw [update_of_ne hqp] at hq ⊢
      exact h.range q hq
  · by_cases hqp : q = p
    · rw [hqp, update_self] at hq
      exact absurd rfl hq
    · rw [update_of_ne hqp] at hq heq
      by_cases hrp : r = p
      · rw [hrp, update_self] at heq
        exact absurd heq hq
      · rw [update_of_ne hrp] at heq
        exact h.inj q r hq heq
  · rw [update_of_ne (by omega)]
    exact h.low c hc
  · have hpos := h.pos
    by_cases hcb : c = ref p
    · rw [hcb, update_self]
      refine iff_of_false Bool.false_ne_true ?_
      rintro ⟨q, hq⟩
      by_cases hqp : q = p
      · rw [hqp, update_self] at hq
        exact hp hq.symm
      · rw [update_of_ne hqp] at hq
        exact hqp (h.inj q p (hq ▸ hp) hq)
    · rw [update_of_ne hcb, h.mark c hc hchi]
      constructor
      · rintro ⟨q, hq⟩
        have hqp : q ≠ p := by
          rintro rfl
          exact hcb hq.symm
        exact ⟨q, (update_of_ne hqp ..).trans hq⟩
      · rintro ⟨q, hq⟩
        by_cases hqp : q = p
        · rw [hqp, update_self] at hq
          omega
        · rw [update_of_ne hqp] at hq
          exact ⟨q, hq⟩

end Xv6.Core
