/-
Regions of a program. A region is a predicate on control states; what is said of it holds of every thread that stands in
it.
-/
import Xv6.Core.Run

namespace Xv6.Core

variable {ι L : Type*} {In : L → Prop} {lock lock' : Option ι} {n : ℕ} {pc pc' : ι → L} {i : ι} {l : L}

/-! ## Regions under a lock -/

/-- whoever is in the region has the lock -/
def Owned (In : L → Prop) (lock : Option ι) (pc : ι → L) : Prop := ∀ i, In (pc i) → lock = some i

theorem Owned.unique (h : Owned In lock pc) {j : ι} (hi : In (pc i)) (hj : In (pc j)) : i = j :=
  Option.some.inj ((h i hi).symm.trans (h j hj))

theorem Owned.free (h : Owned In none pc) (i : ι) : ¬ In (pc i) := fun hi => by simpa using h i hi

/-- one thread moves: the lock is kept and the region not entered, or the lock was free and is taken, or the region is
left -/
theorem Owned.step [DecidableEq ι] (h : Owned In lock pc)
    (hl : (lock' = lock ∧ (In l → In (pc i))) ∨ (lock = none ∧ lock' = some i) ∨ (In (pc i) ∧ ¬ In l)) :
    Owned In lock' (update pc i l) := by
  intro j hj
  by_cases hji : j = i
  · subst hji
    rw [update_self] at hj
    rcases hl with ⟨rfl, hin⟩ | ⟨-, rfl⟩ | ⟨-, hout⟩
    · exact h j (hin hj)
    · rfl
    · exact absurd hj hout
  · rw [update_of_ne hji] at hj
    rcases hl with ⟨rfl, -⟩ | ⟨rfl, -⟩ | ⟨hin, -⟩
    · exact h j hj
    · exact absurd hj (h.free j)
    · exact absurd (h.unique hj hin) hji

theorem Owned.congr (h : Owned In lock pc) (hpc : ∀ j, In (pc' j) → In (pc j)) : Owned In lock pc' :=
  fun j hj => h j (hpc j hj)

/-! ## Counted regions -/

/-- the counter is the number of threads in the region -/
def Counted (In : L → Prop) (n : ℕ) (pc : ι → L) : Prop := ∃ A : Finset ι, A.card = n ∧ ∀ i, i ∈ A ↔ In (pc i)

theorem Counted.exists_of_pos (h : Counted In n pc) (hn : 0 < n) : ∃ i, In (pc i) := by
  obtain ⟨A, rfl, hA⟩ := h
  obtain ⟨i, hi⟩ := Finset.card_pos.1 hn
  exact ⟨i, (hA i).1 hi⟩

theorem Counted.pos (h : Counted In n pc) (hi : In (pc i)) : 0 < n := by
  obtain ⟨A, rfl, hA⟩ := h
  exact Finset.card_pos.2 ⟨i, (hA i).2 hi⟩

theorem Counted.unique (h : Counted In n pc) (hn : n ≤ 1) {j : ι} (hi : In (pc i)) (hj : In (pc j)) : i = j := by
  obtain ⟨A, rfl, hA⟩ := h
  exact Finset.card_le_one.1 hn i ((hA i).2 hi) j ((hA j).2 hj)

theorem Counted.congr (h : Counted In n pc) (hpc : ∀ j, In (pc' j) ↔ In (pc j)) : Counted In n pc' := by
  obtain ⟨A, hn, hA⟩ := h
  exact ⟨A, hn, fun j => (hA j).trans (hpc j).symm⟩

variable [DecidableEq ι]

theorem Counted.stay (h : Counted In n pc) (hl : In l ↔ In (pc i)) : Counted In n (update pc i l) := by
  refine h.congr fun j => ?_
  by_cases hj : j = i
  · subst hj
    rwa [update_self]
  · rw [update_of_ne hj]

theorem Counted.enter (h : Counted In n pc) (hi : ¬ In (pc i)) (hl : In l) : Counted In (n + 1) (update pc i l) := by
  obtain ⟨A, rfl, hA⟩ := h
  refine ⟨insert i A, Finset.card_insert_of_notMem fun h => hi ((hA i).1 h), fun j => ?_⟩
  by_cases hj : j = i
  · subst hj
    simp [hl]
  · simp [hj, hA j]

theorem Counted.leave (h : Counted In n pc) (hi : In (pc i)) (hl : ¬ In l) : Counted In (n - 1) (update pc i l) := by
  obtain ⟨A, rfl, hA⟩ := h
  refine ⟨A.erase i, Finset.card_erase_of_mem ((hA i).2 hi), fun j => ?_⟩
  by_cases hj : j = i
  · subst hj
    simp [hl]
  · simp [hj, hA j]

/-! ## Reservations -/

/-- the threads in the region, with a share of `w i` each, have no more than `m` together -/
def Reserved (In : L → Prop) (w : ι → ℕ) (m : ℕ) (pc : ι → L) : Prop :=
  ∃ A : Finset ι, (∀ i, i ∈ A ↔ In (pc i)) ∧ ∑ i ∈ A, w i ≤ m

variable {w w' : ι → ℕ} {m : ℕ}

omit [DecidableEq ι] in
/-- a counted region with shares of at most `k` -/
theorem Counted.reserved (h : Counted In n pc) {k : ℕ} (hw : ∀ i, w i ≤ k) : Reserved In w (n * k) pc := by
  obtain ⟨A, rfl, hA⟩ := h
  exact ⟨A, hA, Finset.sum_le_card_nsmul A w k fun i _ => hw i⟩

omit [DecidableEq ι] in
/-- threads leave the region, shares get smaller -/
theorem Reserved.mono (h : Reserved In w m pc) (hpc : ∀ j, In (pc' j) → In (pc j))
    (hw : ∀ j, In (pc' j) → w' j ≤ w j) : Reserved In w' m pc' := by
  classical
  obtain ⟨A, hA, hm⟩ := h
  refine ⟨A.filter fun j => In (pc' j), fun j => ?_, ?_⟩
  · rw [Finset.mem_filter, hA]
    exact ⟨And.right, fun hj => ⟨hpc j hj, hj⟩⟩
  · calc ∑ j ∈ A with In (pc' j), w' j ≤ ∑ j ∈ A with In (pc' j), w j :=
          Finset.sum_le_sum fun j hj => hw j (Finset.mem_filter.1 hj).2
      _ ≤ ∑ j ∈ A, w j := Finset.sum_le_sum_of_subset (Finset.filter_subset _ _)
      _ ≤ m := hm

/-- one thread uses `k` of its share -/
theorem Reserved.spend (h : Reserved In w m pc) (hi : In (pc i)) {k : ℕ} (hk : w' i + k ≤ w i)
    (hw : ∀ j, w' j ≤ w j) : k ≤ m ∧ Reserved In w' (m - k) pc := by
  obtain ⟨A, hA, hm⟩ := h
  have hiA : i ∈ A := (hA i).2 hi
  have hsum : ∑ j ∈ A, w' j + k ≤ ∑ j ∈ A, w j := by
    calc ∑ j ∈ A, w' j + k = ∑ j ∈ A.erase i, w' j + (w' i + k) := by
          rw [← Finset.sum_erase_add A w' hiA, add_assoc]
      _ ≤ ∑ j ∈ A.erase i, w j + w i := Nat.add_le_add (Finset.sum_le_sum fun j _ => hw j) hk
      _ = ∑ j ∈ A, w j := Finset.sum_erase_add A w hiA
  refine ⟨by omega, A, hA, by omega⟩

end Xv6.Core
