/-
The MCS lock of `libthread.c` (`mcslock_init`, `mcslock_acquire`, `mcslock_release`).

Each thread owns one `qnode`, reused by every call, so a pointer to a `qnode` is the name of its thread and NULL is
`none`. One step is one xchg, one load or one store. Any thread may be scheduled at any time; a thread outside a call
starts an acquire, a thread that holds the lock starts its release.

`arrived` and `entered` are history: the threads in the order of their xchg on `lk->next`, and in the order in which
their acquires returned. The code does not read them.
-/
import Xv6.Core.Threads

namespace Xv6.McsLock

open Xv6.Core

variable {ι : Type*}

/-! ## Model -/

/-- the lock word pair, every thread's `qnode`, and the two histories -/
structure Mem (ι : Type*) where
  /-- `lk->next`, the tail of the queue -/
  next : Option ι
  /-- `lk->spin`, the side spinlock of release -/
  spin : ℕ
  /-- `qnode->next` -/
  qnext : ι → Option ι
  /-- `qnode->spin` -/
  qspin : ι → ℕ
  arrived : List ι
  entered : List ι

/-- where a thread stands: the next access it makes -/
inductive Pc (ι : Type*) where
  | out
  /-- acquire: `qnode->next = NULL` -/
  | acqNext
  /-- acquire: `qnode->spin = 0` -/
  | acqSpin
  /-- acquire: `tail = xchg(&lk->next, qnode)` -/
  | acqXchg
  /-- acquire: `tail->next = qnode` -/
  | acqLink (tail : ι)
  /-- acquire: `while (!qnode->spin)` -/
  | acqWait
  /-- acquire has returned, release has not started -/
  | held
  /-- release: `if (!qnode->next)` -/
  | relTest
  /-- release: `while (xchg(&lk->spin, 1) != 0)` -/
  | relLock
  /-- release: `t = lk->next` -/
  | relLoad
  /-- release, `t == qnode`: `lk->next = NULL` -/
  | relClear
  /-- release: `xchg(&lk->spin, 0)`, then return if `t == qnode` -/
  | relUnlock (t : Option ι)
  /-- release: `while (!qnode->next)` -/
  | relWait
  /-- release: the load of `qnode->next` in `qnode->next->spin = 1` -/
  | relNext
  /-- release: the store `n->spin = 1` -/
  | relPass (n : ι)
  /-- a write through NULL -/
  | fault
deriving DecidableEq, Repr

abbrev St (ι : Type*) := Threads ι (Mem ι) (Pc ι)

/-- one atomic step of thread `i` -/
def prog [DecidableEq ι] (i : ι) (m : Mem ι) : Pc ι → Mem ι × Pc ι
  | .out => (m, .acqNext)
  | .acqNext => ({ m with qnext := Function.update m.qnext i none }, .acqSpin)
  | .acqSpin => ({ m with qspin := Function.update m.qspin i 0 }, .acqXchg)
  | .acqXchg =>
    match m.next with
    | none => ({ m with next := some i, arrived := m.arrived ++ [i], entered := m.entered ++ [i] }, .held)
    | some tail => ({ m with next := some i, arrived := m.arrived ++ [i] }, .acqLink tail)
  | .acqLink tail => ({ m with qnext := Function.update m.qnext tail (some i) }, .acqWait)
  | .acqWait => if m.qspin i = 0 then (m, .acqWait) else ({ m with entered := m.entered ++ [i] }, .held)
  | .held => (m, .relTest)
  | .relTest => if m.qnext i = none then (m, .relLock) else (m, .relNext)
  | .relLock => if m.spin = 0 then ({ m with spin := 1 }, .relLoad) else ({ m with spin := 1 }, .relLock)
  | .relLoad => if m.next = some i then (m, .relClear) else (m, .relUnlock m.next)
  | .relClear => ({ m with next := none }, .relUnlock (some i))
  | .relUnlock t => if t = some i then ({ m with spin := 0 }, .out) else ({ m with spin := 0 }, .relWait)
  | .relWait => if m.qnext i = none then (m, .relWait) else (m, .relNext)
  | .relNext =>
    match m.qnext i with
    | none => (m, .fault)
    | some n => (m, .relPass n)
  | .relPass n => ({ m with qspin := Function.update m.qspin n 1 }, .out)
  | .fault => (m, .fault)

/-- `mcslock_init`; the contents of the `qnode`s are whatever the stacks hold -/
def init (qnext : ι → Option ι) (qspin : ι → ℕ) : St ι :=
  ⟨⟨none, 0, qnext, qspin, [], []⟩, fun _ => .out⟩

abbrev step [DecidableEq ι] (s : St ι) (i : ι) : St ι := Threads.step prog s i

/-- thread `i` is between the return of its acquire and the start of its release -/
def InCritical (s : St ι) (i : ι) : Prop := s.pc i = .held

/-! ## The token -/

/-- a thread with this control state and this `qnode->spin` has the lock: it is in the critical section or in a
release that has not yet given the lock away, or it waits and its `spin` has been set -/
def Pc.holds (i : ι) (spin : ℕ) : Pc ι → Prop
  | .held | .relTest | .relLock | .relLoad | .relClear | .relWait | .relNext | .relPass _ => True
  | .relUnlock t => t ≠ some i
  | .acqWait => spin ≠ 0
  | _ => False

/-- the present call has reset `qnode->next` and has not given the lock away, so it may still use the pointer -/
def Pc.live (i : ι) : Pc ι → Prop
  | .out | .acqNext | .fault => False
  | .relUnlock t => t ≠ some i
  | _ => True

def Holds (s : St ι) (i : ι) : Prop := (s.pc i).holds i (s.mem.qspin i)

/-- thread `i` can still set `j`'s `spin`: through its `qnode->next`, or through the pointer it has already loaded.
The two differ when a late `tail->next = qnode` overwrites a pointer after it was loaded. -/
def Points (s : St ι) (i j : ι) : Prop := ((s.pc i).live i ∧ s.mem.qnext i = some j) ∨ s.pc i = .relPass j

structure Inv (s : St ι) : Prop where
  hold_unique : ∀ i j, Holds s i → Holds s j → i = j
  free_not_held : s.mem.next = none → ∀ i, ¬ Holds s i
  fresh_spin : ∀ i, s.pc i = .acqXchg ∨ (∃ t, s.pc i = .acqLink t) → s.mem.qspin i = 0
  /-- whoever is pointed to waits, and nobody has set its `spin` yet -/
  points_wait : ∀ i j, Points s i j → s.pc j = .acqWait ∧ s.mem.qspin j = 0
  points_unique : ∀ i i' j, Points s i j → Points s i' j → i = i'
  next_some : ∀ i, s.pc i = .relNext → s.mem.qnext i ≠ none
  no_fault : ∀ i, s.pc i ≠ .fault

theorem inv_init (qnext : ι → Option ι) (qspin : ι → ℕ) : Inv (init qnext qspin) := by
  constructor <;> simp [init, Holds, Points, Pc.holds, Pc.live]

/-! ### Steps that move nothing, and the three that do -/

/-- a step after which no thread holds the lock or points at another that did not before -/
theorem inv_of_sub {s s' : St ι} (h : Inv s) (hold : ∀ k, Holds s' k → Holds s k)
    (free : s'.mem.next = none → ∀ k, ¬ Holds s' k) (points : ∀ a b, Points s' a b → Points s a b)
    (wait : ∀ a b, Points s' a b → s'.pc b = s.pc b ∧ s'.mem.qspin b = s.mem.qspin b)
    (fresh : ∀ k, s'.pc k = .acqXchg ∨ (∃ t, s'.pc k = .acqLink t) → s'.mem.qspin k = 0)
    (some : ∀ k, s'.pc k = .relNext → s'.mem.qnext k ≠ none) (fault : ∀ k, s'.pc k ≠ .fault) : Inv s' := by
  refine ⟨?_, free, fresh, ?_, ?_, some, fault⟩
  · intro a b ha hb; exact h.hold_unique a b (hold a ha) (hold b hb)
  · intro a b hab
    obtain ⟨hpc, hspin⟩ := wait a b hab
    rw [hpc, hspin]; exact h.points_wait a b (points a b hab)
  · intro a a' b hab hab'; exact h.points_unique a a' b (points a b hab) (points a' b hab')

variable [DecidableEq ι]

section Steps

variable {s : St ι} {i : ι}

/-- the xchg finds NULL and takes the lock -/
theorem inv_take (h : Inv s) (hp : s.pc i = .acqXchg) (hn : s.mem.next = none) (e : List ι) (a : List ι) :
    Inv ⟨{ s.mem with next := some i, arrived := a, entered := e }, update s.pc i .held⟩ := by
  have hnot := h.free_not_held hn
  have hold : ∀ k, Holds ⟨{ s.mem with next := some i, arrived := a, entered := e }, update s.pc i .held⟩ k →
      k = i := by
    intro k hk
    by_contra hki
    exact hnot k (by simpa [Holds, hki] using hk)
  have points : ∀ j k, Points ⟨{ s.mem with next := some i, arrived := a, entered := e },
      update s.pc i .held⟩ j k → Points s j k := by
    intro j k
    by_cases hj : j = i
    · subst hj; simp [Points, hp, Pc.live]
    · simp [Points, hj]
  refine ⟨fun j k hj hk => (hold j hj).trans (hold k hk).symm, by simp, ?_, ?_, ?_, ?_, ?_⟩
  · intro k hk
    by_cases hki : k = i
    · subst hki; simp at hk
    · exact h.fresh_spin k (by simpa [hki] using hk)
  · intro j k hjk
    obtain ⟨hk, hk0⟩ := h.points_wait j k (points j k hjk)
    have hki : k ≠ i := by rintro rfl; simp [hp] at hk
    exact ⟨by simpa [hki] using hk, hk0⟩
  · intro j j' k hjk hjk'; exact h.points_unique j j' k (points j k hjk) (points j' k hjk')
  · intro k hk
    by_cases hki : k = i
    · subst hki; simp at hk
    · exact h.next_some k (by simpa [hki] using hk)
  · intro k
    by_cases hki : k = i
    · subst hki; simp
    · simpa [hki] using h.no_fault k

/-- the late store `tail->next = qnode`: whatever `tail` pointed at before is forgotten, `i` is pointed at by `tail`
alone -/
theorem inv_link (h : Inv s) {tail : ι} (hp : s.pc i = .acqLink tail) :
    Inv ⟨{ s.mem with qnext := update s.mem.qnext tail (some i) }, update s.pc i .acqWait⟩ := by
  have hspin : s.mem.qspin i = 0 := h.fresh_spin i (Or.inr ⟨tail, hp⟩)
  have hi : ∀ j, ¬ Points s j i := by
    intro j hj; have := (h.points_wait j i hj).1; simp [hp] at this
  have hold : ∀ k, Holds ⟨{ s.mem with qnext := update s.mem.qnext tail (some i) },
      update s.pc i .acqWait⟩ k → Holds s k := by
    intro k
    by_cases hk : k = i
    · subst hk; simp [Holds, Pc.holds, hspin]
    · simp [Holds, hk]
  have points : ∀ j k, Points ⟨{ s.mem with qnext := update s.mem.qnext tail (some i) },
      update s.pc i .acqWait⟩ j k → (j = tail ∧ k = i) ∨ (k ≠ i ∧ Points s j k) := by
    intro j k hjk
    have hne : Points s j k → k ≠ i := by rintro hs rfl; exact hi j hs
    by_cases hji : j = i
    · subst hji
      simp only [Points, update_self, reduceCtorEq, or_false, Pc.live, true_and] at hjk
      by_cases ht : j = tail
      · subst ht; simp at hjk; exact Or.inl ⟨rfl, hjk.symm⟩
      · have : Points s j k := Or.inl ⟨by simp [hp, Pc.live], by simpa [ht] using hjk⟩
        exact Or.inr ⟨hne this, this⟩
    · simp only [Points, update_of_ne hji] at hjk
      rcases hjk with ⟨hl, hq⟩ | hq
      · by_cases ht : j = tail
        · subst ht; simp at hq; exact Or.inl ⟨rfl, hq.symm⟩
        · have : Points s j k := Or.inl ⟨hl, by simpa [ht] using hq⟩
          exact Or.inr ⟨hne this, this⟩
      · exact Or.inr ⟨hne (Or.inr hq), Or.inr hq⟩
  refine ⟨fun j k hj hk => h.hold_unique j k (hold j hj) (hold k hk),
    fun hn k hk => h.free_not_held hn k (hold k hk), ?_, ?_, ?_, ?_, ?_⟩
  · intro k hk
    by_cases hki : k = i
    · subst hki; simp at hk
    · exact h.fresh_spin k (by simpa [hki] using hk)
  · intro j k hjk
    rcases points j k hjk with ⟨-, rfl⟩ | ⟨hki, hjk⟩
    · exact ⟨by simp, hspin⟩
    · simpa [hki] using h.points_wait j k hjk
  · intro j j' k hjk hjk'
    rcases points j k hjk with ⟨rfl, rfl⟩ | ⟨hki, hjk⟩ <;> rcases points j' k hjk' with ⟨rfl, hk⟩ | ⟨hki', hjk'⟩
    · rfl
    · exact absurd rfl hki'
    · exact absurd hk hki
    · exact h.points_unique j j' k hjk hjk'
  · intro k hk
    by_cases hki : k = i
    · subst hki; simp at hk
    · have := h.next_some k (by simpa [hki] using hk)
      by_cases hkt : k = tail
      · subst hkt; simp
      · simpa [hkt] using this
  · intro k
    by_cases hki : k = i
    · subst hki; simp
    · simpa [hki] using h.no_fault k

/-- the store `n->spin = 1`: the lock passes from `i` to `n`, and nobody points at `n` any more -/
theorem inv_pass (h : Inv s) {n : ι} (hp : s.pc i = .relPass n) :
    Inv ⟨{ s.mem with qspin := update s.mem.qspin n 1 }, update s.pc i .out⟩ := by
  have hin : Points s i n := Or.inr hp
  obtain ⟨hn, -⟩ := h.points_wait i n hin
  have hni : n ≠ i := by rintro rfl; simp [hp] at hn
  have hholds : Holds s i := by simp [Holds, hp, Pc.holds]
  have hold : ∀ k, Holds ⟨{ s.mem with qspin := update s.mem.qspin n 1 }, update s.pc i .out⟩ k →
      k = n := by
    intro k hk
    by_contra hkn
    by_cases hki : k = i
    · subst hki; simp [Holds, Pc.holds] at hk
    · exact hki (h.hold_unique k i (by simpa [Holds, hki, hkn] using hk) hholds)
  have points : ∀ j k, Points ⟨{ s.mem with qspin := update s.mem.qspin n 1 },
      update s.pc i .out⟩ j k → j ≠ i ∧ Points s j k := by
    intro j k hjk
    by_cases hji : j = i
    · subst hji; simp [Points, Pc.live] at hjk
    · exact ⟨hji, by simpa [Points, hji] using hjk⟩
  refine ⟨fun j k hj hk => (hold j hj).trans (hold k hk).symm, ?_, ?_, ?_, ?_, ?_, ?_⟩
  · intro hnone k _; exact h.free_not_held hnone i hholds
  · intro k hk
    have hki : k ≠ i := by rintro rfl; simp at hk
    have hkn : k ≠ n := by rintro rfl; simp [hki, hn] at hk
    simpa [hkn] using h.fresh_spin k (by simpa [hki] using hk)
  · intro j k hjk
    obtain ⟨hji, hs⟩ := points j k hjk
    obtain ⟨hk, hk0⟩ := h.points_wait j k hs
    have hki : k ≠ i := by rintro rfl; simp [hp] at hk
    have hkn : k ≠ n := by rintro rfl; exact hji (h.points_unique j i k hs hin)
    exact ⟨by simpa [hki] using hk, by simpa [hkn] using hk0⟩
  · intro j j' k hjk hjk'; exact h.points_unique j j' k (points j k hjk).2 (points j' k hjk').2
  · intro k hk
    have hki : k ≠ i := by rintro rfl; simp at hk
    exact h.next_some k (by simpa [hki] using hk)
  · intro k
    by_cases hki : k = i
    · subst hki; simp
    · simpa [hki] using h.no_fault k

/-- a step of `i` that leaves `lk->next`, the `qnode` pointers and the `spin` flags of the other threads alone, after
which `i` holds the lock, or points at another thread, only if it did before -/
theorem inv_local (h : Inv s) {m : Mem ι} {l : Pc ι} (hnext : m.next = none → s.mem.next = none ∨ Holds s i ∧
      ¬ l.holds i (m.qspin i)) (hqn : ∀ k, k ≠ i → m.qnext k = s.mem.qnext k)
    (hqs : ∀ k, k ≠ i → m.qspin k = s.mem.qspin k) (hh : l.holds i (m.qspin i) → Holds s i)
    (hl : ∀ n, (l.live i ∧ m.qnext i = some n) ∨ l = .relPass n → Points s i n) (hw : (s.pc i = .acqWait →
      s.mem.qspin i ≠ 0 ∨ l = .acqWait ∧ m.qspin i = 0)) (hx : l = .acqXchg ∨ (∃ t, l = .acqLink t) → m.qspin i = 0)
    (hs : l = .relNext → m.qnext i ≠ none) (hf : l ≠ .fault) : Inv ⟨m, update s.pc i l⟩ := by
  have hold : ∀ k, Holds ⟨m, update s.pc i l⟩ k → Holds s k := by
    intro k
    by_cases hk : k = i
    · subst hk; simpa [Holds] using hh
    · simp [Holds, hk, hqs k hk]
  have points : ∀ j k, Points ⟨m, update s.pc i l⟩ j k → Points s j k := by
    intro j k
    by_cases hj : j = i
    · subst hj; simpa [Points] using hl k
    · simp [Points, hj, hqn j hj]
  refine inv_of_sub h hold ?_ points ?_ ?_ ?_ ?_
  · intro hn k hk
    rcases hnext hn with hn | ⟨hi, hni⟩
    · exact h.free_not_held hn k (hold k hk)
    · have hki : k = i := h.hold_unique k i (hold k hk) hi
      subst hki; exact hni (by simpa [Holds] using hk)
  · intro j k hjk
    obtain ⟨hk, hk0⟩ := h.points_wait j k (points j k hjk)
    by_cases hki : k = i
    · subst hki
      rcases hw hk with hne | ⟨rfl, hm⟩
      · exact absurd hk0 hne
      · exact ⟨by simp [hk], by rw [hm, hk0]⟩
    · exact ⟨by simp [hki], hqs k hki⟩
  · intro k hk
    by_cases hki : k = i
    · subst hki; exact hx (by simpa using hk)
    · show m.qspin k = 0
      rw [hqs k hki]; exact h.fresh_spin k (by simpa [hki] using hk)
  · intro k hk
    by_cases hki : k = i
    · subst hki; exact hs (by simpa using hk)
    · show m.qnext k ≠ none
      rw [hqn k hki]; exact h.next_some k (by simpa [hki] using hk)
  · intro k
    by_cases hki : k = i
    · subst hki; simpa using hf
    · simpa [hki] using h.no_fault k

end Steps

theorem step_inv (s : St ι) (i : ι) (h : Inv s) : Inv (step s i) := by
  have hi := h.points_wait i
  have hfault := h.no_fault i
  have hsome := h.next_some i
  have hspin := h.fresh_spin i
  cases hp : s.pc i with
  | acqXchg =>
    cases hn : s.mem.next with
    | none => rw [step, Threads.step_eq (by rw [hp, prog, hn])]; exact inv_take h hp hn _ _
    | some t =>
      rw [step, Threads.step_eq (by rw [hp, prog, hn])]
      refine inv_local h ?_ ?_ ?_ ?_ ?_ ?_ ?_ ?_ ?_ <;> simp_all [Holds, Points, Pc.holds, Pc.live]
  | acqLink t => rw [step, Threads.step_eq (by rw [hp, prog])]; exact inv_link h hp
  | relPass n => rw [step, Threads.step_eq (by rw [hp, prog])]; exact inv_pass h hp
  | fault => exact absurd hp hfault
  | acqWait | relTest | relLock | relLoad | relUnlock t | relWait =>
    rw [step, Threads.step_ite (by rw [hp, prog])]
    split_ifs with hc <;> refine inv_local h ?_ ?_ ?_ ?_ ?_ ?_ ?_ ?_ ?_ <;> simp_all [Holds, Points, Pc.holds, Pc.live]
  | relNext =>
    cases hq : s.mem.qnext i with
    | none => exact absurd hq (hsome hp)
    | some n =>
      rw [step, Threads.step_eq (by rw [hp, prog, hq])]
      refine inv_local h ?_ ?_ ?_ ?_ ?_ ?_ ?_ ?_ ?_ <;> simp_all [Holds, Points, Pc.holds, Pc.live]
  | out | acqNext | acqSpin | held | relClear =>
    rw [step, Threads.step_eq (by rw [hp, prog])]
    refine inv_local h ?_ ?_ ?_ ?_ ?_ ?_ ?_ ?_ ?_ <;> simp_all [Holds, Points, Pc.holds, Pc.live]

/-- the state after any interleaving -/
theorem run_inv (qnext : ι → Option ι) (qspin : ι → ℕ) (sched : List ι) : Inv (run step (init qnext qspin) sched) :=
  Core.run_inv step_inv _ (inv_init qnext qspin) sched

/-- **Mutual exclusion.** Whatever the `qnode`s hold at the start and however the threads are scheduled, at most one
thread is between the return of its acquire and the start of its release. -/
theorem mutual_exclusion (qnext : ι → Option ι) (qspin : ι → ℕ) (sched : List ι) :
    {i | InCritical (run step (init qnext qspin) sched) i}.Subsingleton := by
  intro i hi j hj
  have holds : ∀ k, InCritical (run step (init qnext qspin) sched) k → Holds (run step (init qnext qspin) sched) k := by
    intro k hk; rw [Holds, show _ = Pc.held from hk]; trivial
  exact (run_inv qnext qspin sched).hold_unique i j (holds i hi) (holds j hj)

/-- a release never writes through a NULL `qnode->next` -/
theorem never_null_deref (qnext : ι → Option ι) (qspin : ι → ℕ) (sched : List ι) (i : ι) :
    (run step (init qnext qspin) sched).pc i ≠ .fault :=
  (run_inv qnext qspin sched).no_fault i

end Xv6.McsLock
