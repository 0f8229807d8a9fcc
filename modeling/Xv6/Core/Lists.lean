/-
Lists as queues: neighbours in a list without repetitions. Lists as tables: sums over one in which one row changes.
-/
import Mathlib

namespace Xv6.Core

variable {α : Type*}

/-- whoever is not first has somebody right in front -/
theorem exists_pred {l : List α} {b : α} (h : b ∈ l.tail) : ∃ l1 a l2, l = l1 ++ a :: b :: l2 := by
  cases l with
  | nil => simp at h
  | cons c t =>
    obtain ⟨u, v, rfl⟩ := List.append_of_mem (by simpa using h : b ∈ t)
    induction u using List.reverseRecOn with
    | nil => exact ⟨[], c, v, rfl⟩
    | append_singleton u d => exact ⟨c :: u, d, v, by simp⟩

/-- at most one element stands right behind another -/
theorem succ_unique {l l1 l2 l1' l2' : List α} {a b c : α} (hl : l.Nodup) (h : l = l1 ++ a :: b :: l2)
    (h' : l = l1' ++ a :: c :: l2') : b = c := by
  rw [h, List.nodup_append, List.nodup_cons] at hl
  obtain ⟨-, ⟨ha2, -⟩, hdisj⟩ := hl
  have ha1 : a ∉ l1 := fun hm => hdisj a hm a (by simp) rfl
  rw [h, List.append_cons_inj_of_notMem ha1 ha2] at h'
  exact (List.cons.inj h'.2.2).1

/-- whoever has somebody right behind is not last -/
theorem getLast_ne_of_succ {l l1 l2 : List α} {a b : α} (hl : l.Nodup) (h : l = l1 ++ a :: b :: l2) : l.getLast? ≠ some a := by
  intro ha
  rw [h, List.getLast?_append, List.getLast?_cons_cons] at ha
  have hmem : a ∈ b :: l2 := List.mem_of_getLast? (by simpa [List.getLast?_cons] using ha)
  rw [h, List.nodup_append, List.nodup_cons] at hl
  exact hl.2.1.1 hmem

section Sums

variable {M : Type*} [AddCommMonoid M] (f : α → M) {l : List α} {k : ℕ} {x : α}

/-- a row is replaced -/
theorem sum_map_set (h : l[k]? = some x) (y : α) : ((l.set k y).map f).sum + f x = (l.map f).sum + f y := by
  induction l generalizing k with
  | nil => cases h
  | cons z l ih =>
    cases k with
    | zero =>
      cases h
      simp only [List.set_cons_zero, List.map_cons, List.sum_cons]
      abel
    | succ k =>
      have hrest := ih h
      simp only [List.set_cons_succ, List.map_cons, List.sum_cons, add_assoc, hrest]

/-- a row is deleted -/
theorem sum_map_eraseIdx (h : l[k]? = some x) : ((l.eraseIdx k).map f).sum + f x = (l.map f).sum := by
  induction l generalizing k with
  | nil => cases h
  | cons z l ih =>
    cases k with
    | zero =>
      cases h
      simp only [List.eraseIdx_cons_zero, List.map_cons, List.sum_cons]
      abel
    | succ k =>
      have hrest := ih h
      simp only [List.eraseIdx_cons_succ, List.map_cons, List.sum_cons, add_assoc, hrest]

end Sums

end Xv6.Core
