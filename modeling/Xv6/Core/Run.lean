/-
Runs of step machines. A machine is a total function `step : σ → α → σ`; an operation that is not enabled leaves the
state as it is. A run is a list of operations, so "every reachable state" is "every list of operations".

- `Guarded step G s ops`: each operation of the run meets the guard `G` in the state it is applied to.
- `stateAt step s ops t`: the state a run has reached after `t` operations.
-/
import Mathlib

namespace Xv6.Core

export Function (update update_self update_of_ne update_eq_self update_apply update_idem forall_update_iff)

instance three_neZero : NeZero 3 := ⟨nofun⟩

variable {σ α : Type*} {step : σ → α → σ}

/-- run a list of operations -/
def run (step : σ → α → σ) (s : σ) (ops : List α) : σ := ops.foldl step s

@[simp]
theorem run_nil (s : σ) : run step s [] = s := rfl

@[simp]
theorem run_cons (s : σ) (o : α) (ops : List α) : run step s (o :: ops) = run step (step s o) ops := rfl

theorem run_append (s : σ) (a b : List α) : run step s (a ++ b) = run step (run step s a) b := by
  simp [run, List.foldl_append]

theorem run_snoc (s : σ) (ops : List α) (o : α) : run step s (ops ++ [o]) = step (run step s ops) o := by
  simp [run, List.foldl_append]

/-- **Invariant rule.** -/
theorem run_inv {I : σ → Prop} (hstep : ∀ s o, I s → I (step s o)) (s : σ) (hs : I s) (ops : List α) : I (run step s ops) := by
  induction ops generalizing s with
  | nil => exact hs
  | cons o ops ih => exact ih _ (hstep s o hs)

/-- every operation of the run meets the guard in the state it is applied to -/
def Guarded (step : σ → α → σ) (G : σ → α → Prop) : σ → List α → Prop
  | _, [] => True
  | s, o :: ops => G s o ∧ Guarded step G (step s o) ops

instance Guarded.decidable {G : σ → α → Prop} [∀ s o, Decidable (G s o)] :
    ∀ (s : σ) (ops : List α), Decidable (Guarded step G s ops)
  | _, [] => inferInstanceAs (Decidable True)
  | s, o :: ops => @instDecidableAnd _ _ _ (Guarded.decidable (step s o) ops)

variable {G : σ → α → Prop}

theorem guarded_append (s : σ) (a b : List α) : Guarded step G s (a ++ b) ↔ Guarded step G s a ∧ Guarded step G (run step s a) b := by
  induction a generalizing s with
  | nil => simp [Guarded]
  | cons o a ih => simp [Guarded, ih, and_assoc]

variable {ops : List α}

/-- operations that meet the guard in every state -/
theorem guarded_of_forall (s : σ) (h : ∀ o ∈ ops, ∀ s, G s o) : Guarded step G s ops := by
  induction ops generalizing s with
  | nil => trivial
  | cons o ops ih => exact ⟨h o (by simp) s, ih _ fun o' ho' => h o' (by simp [ho'])⟩

/-- **Invariant rule for guarded runs.** -/
theorem guarded_inv {I : σ → Prop} (hstep : ∀ s o, G s o → I s → I (step s o)) (s : σ) (hs : I s)
    (ops : List α) (hg : Guarded step G s ops) : I (run step s ops) := by
  induction ops generalizing s with
  | nil => exact hs
  | cons o ops ih => exact ih _ (hstep s o hg.1 hs) hg.2

/-! ## The states a run passes through -/

/-- the state after the first `t` operations -/
def stateAt (step : σ → α → σ) (s : σ) (ops : List α) (t : ℕ) : σ := run step s (ops.take t)

theorem stateAt_length (s : σ) (ops : List α) : stateAt step s ops ops.length = run step s ops := by
  simp [stateAt]

variable {s : σ} {t : ℕ}

theorem stateAt_append {a : List α} (ht : t ≤ a.length) (b : List α) : stateAt step s (a ++ b) t = stateAt step s a t := by
  simp [stateAt, List.take_append_of_le_length ht]

theorem stateAt_succ {o : α} (h : ops[t]? = some o) : stateAt step s ops (t + 1) = step (stateAt step s ops t) o := by
  simp [stateAt, List.take_add_one, h, run_snoc]

theorem stateAt_succ_of_none (h : ops[t]? = none) : stateAt step s ops (t + 1) = stateAt step s ops t := by
  simp [stateAt, List.take_add_one, h]

/-- what no step decreases, no run decreases -/
theorem stateAt_mono {β : Type*} [Preorder β] {f : σ → β} (hstep : ∀ s o, f s ≤ f (step s o)) (s : σ) (ops : List α) :
    Monotone fun t => f (stateAt step s ops t) := by
  refine monotone_nat_of_le_succ fun t => ?_
  cases h : ops[t]? with
  | none => simp [stateAt_succ_of_none h]
  | some o => rw [stateAt_succ h]; exact hstep _ o

end Xv6.Core
