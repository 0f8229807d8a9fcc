/-
Shared-memory threads under interleaving. A program gives, for thread `i`, one atomic step on the shared memory and
the thread's own control state; the scheduler picks any thread at every step, so a run is a list of thread names.
The thread type is arbitrary: nothing bounds the number of threads.

`step_pc_self`, `step_pc_ne` and `step_mem` say everything one step can do; invariants are proved from them. `Solo` is one
thread running alone, for runs that have to be shown to exist.
-/
import Xv6.Core.Run

namespace Xv6.Core

/-- shared memory and one control state per thread -/
structure Threads (ι M L : Type*) where
  mem : M
  pc : ι → L

namespace Threads

variable {ι M L : Type*} [DecidableEq ι] {prog : ι → M → L → M × L}

/-- thread `i` makes its next atomic step -/
def step (prog : ι → M → L → M × L) (s : Threads ι M L) (i : ι) : Threads ι M L where
  mem := (prog i s.mem (s.pc i)).1
  pc := Function.update s.pc i (prog i s.mem (s.pc i)).2

theorem step_mem (s : Threads ι M L) (i : ι) : (step prog s i).mem = (prog i s.mem (s.pc i)).1 := rfl

theorem step_pc_self (s : Threads ι M L) (i : ι) : (step prog s i).pc i = (prog i s.mem (s.pc i)).2 := by
  simp [step]

variable {i : ι}

theorem step_pc_ne (s : Threads ι M L) {j : ι} (h : j ≠ i) : (step prog s i).pc j = s.pc j := by
  simp [step, h]

variable {s : Threads ι M L} {m : M} {l : L}

/-- one step, given what the program does in the thread's present control state -/
theorem step_eq (h : prog i s.mem (s.pc i) = (m, l)) : step prog s i = ⟨m, update s.pc i l⟩ := by
  simp [step, h]

theorem step_ite {c : Prop} [Decidable c] {m' : M} {l' : L} (h : prog i s.mem (s.pc i) = if c then (m, l) else (m', l')) :
    step prog s i = if c then ⟨m, update s.pc i l⟩ else ⟨m', update s.pc i l'⟩ := by
  split_ifs at h ⊢ <;> exact step_eq h

/-! ## One thread running alone -/

/-- thread `i`, running alone, gets from one memory and control state to another -/
def Solo (prog : ι → M → L → M × L) (i : ι) : M × L → M × L → Prop :=
  Relation.ReflTransGen fun x y => prog i x.1 x.2 = y

omit [DecidableEq ι] in
theorem Solo.step {i : ι} {m : M} {l : L} {x : M × L} (h : prog i m l = x) : Solo prog i (m, l) x :=
  Relation.ReflTransGen.single h

omit [DecidableEq ι] in
theorem Solo.trans {i : ι} {x y z : M × L} (h : Solo prog i x y) (h' : Solo prog i y z) : Solo prog i x z :=
  Relation.ReflTransGen.trans h h'

theorem Solo.run {x y : M × L} (h : Solo prog i x y) (pc : ι → L) :
    ∃ sched, Core.run (Threads.step prog) ⟨x.1, update pc i x.2⟩ sched = ⟨y.1, update pc i y.2⟩ := by
  induction h with
  | refl => exact ⟨[], rfl⟩
  | tail _ hstep ih =>
    obtain ⟨sched, hs⟩ := ih
    refine ⟨sched ++ [i], ?_⟩
    rw [run_snoc, hs, ← hstep]
    simp [Threads.step]

end Threads

end Xv6.Core
