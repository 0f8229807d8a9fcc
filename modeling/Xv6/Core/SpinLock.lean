/-
Test-and-set spin locks: the word `m` is 1 while somebody is inside, `while (xchg(&m, 1) != 0)` enters and
`xchg(&m, 0)` leaves. Which control states are inside is a parameter, so every user of the idiom gets mutual exclusion
from the three rules `outside`, `take` and `inside`.
-/
import Mathlib

namespace Xv6.Core

variable {ι L : Type*}

/-- a free lock has nobody inside, and at most one thread is ever inside -/
structure SpinLock (In : L → Prop) (m : ℕ) (pc : ι → L) : Prop where
  free : m = 0 → ∀ i, ¬ In (pc i)
  unique : ∀ i j, In (pc i) → In (pc j) → i = j

namespace SpinLock

variable [DecidableEq ι] {In : L → Prop} {m m' : ℕ} {pc : ι → L} {i : ι} {l : L}

/-- a step outside -/
theorem outside (h : SpinLock In m pc) (hl : ¬ In l) : SpinLock In m (Function.update pc i l) := by
  have hupd : ∀ j, In (Function.update pc i l j) → In (pc j) := by
    intro j hj
    by_cases hji : j = i
    · subst hji; exact absurd (by simpa using hj) hl
    · simpa [hji] using hj
  exact ⟨fun h0 j hj => h.free h0 j (hupd j hj), fun j k hj hk => h.unique j k (hupd j hj) (hupd k hk)⟩

/-- whoever nobody else is inside with may step anywhere, and leaves by clearing the word -/
private theorem alone (hother : ∀ j, j ≠ i → ¬ In (pc j)) (hm : m' = 0 → ¬ In l) : SpinLock In m' (Function.update pc i l) := by
  have heq : ∀ j, In (Function.update pc i l j) → j = i := by
    intro j hj; by_contra hji; exact hother j hji (by simpa [hji] using hj)
  refine ⟨fun h0 j hj => ?_, fun j k hj hk => (heq j hj).trans (heq k hk).symm⟩
  obtain rfl := heq j hj
  exact hm h0 (by simpa using hj)

/-- the exchange: it enters if the word was 0 -/
theorem take (h : SpinLock In m pc) (hl : m = 0 ∨ ¬ In l) : SpinLock In 1 (Function.update pc i l) := by
  rcases hl with h0 | hl
  · exact alone (fun j _ => h.free h0 j) (by simp)
  · exact ⟨by simp, (h.outside hl).unique⟩

/-- a step of the thread inside; the word is kept, or the thread leaves -/
theorem inside (h : SpinLock In m pc) (hi : In (pc i)) (hm : m' = m ∨ ¬ In l) : SpinLock In m' (Function.update pc i l) := by
  refine alone (fun j hj hj' => hj (h.unique j i hj' hi)) fun h0 => ?_
  rcases hm with rfl | hl
  · exact absurd hi (h.free h0 i)
  · exact hl

end SpinLock

end Xv6.Core
