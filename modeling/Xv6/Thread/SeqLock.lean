/-
The sequence lock of `libthread.c` (`seqlock_init`, `seqlock_read`, `seqlock_write`).

A writer takes the spin lock `splk`, increments `seq`, stores the word and increments `seq` again; a reader loads `seq`,
loads the word, loads `seq` again, and starts over if the two differ or the first is odd. `readStep` and `writeStep` give
one atomic access of each function; `seq` is a 32-bit counter and `lk->seq++` is a load and a store.

The system is any number of threads that call the two functions on any words, in any order and with any values: the
scheduler picks a thread and, for a thread that is in neither function, the call it makes next.

`incs` is history, the number of increments of `seq` made so far; the code does not read it. A write completes with its
second increment, so `incs / 2` writes have completed (`Mem.writes`).

Results: `seqlock_correct`.

The instant is the load of the word. An accepted read saw the same even value twice; `incs` never decreases, so with
fewer than 2^31 writes in between it did not move at all, and it is odd while a writer is between its increments.
-/
import Xv6.Core.SpinLock
import Xv6.Core.Threads

namespace Xv6.SeqLock

open Xv6.Core

/-! ## Model -/

structure Mem (α : Type*) where
  seq : ℕ
  splk : ℕ
  word : α → ℕ
  incs : ℕ

/-- the writes that have completed: those that have made their second increment -/
def Mem.writes {α : Type*} (m : Mem α) : ℕ := m.incs / 2

/-- `seqlock_read`: its next access -/
inductive ReadPc where
  /-- `seqi = lk->seq` -/
  | loadSeq
  /-- `retval = *mem` -/
  | loadMem (seqi : ℕ)
  /-- `seqf = lk->seq`, and the test -/
  | check (seqi retval : ℕ)
deriving DecidableEq, Repr

/-- `seqlock_write`: its next access -/
inductive WritePc where
  /-- `while (xchg(&lk->splk, 1) != 0)` -/
  | lock
  /-- first `lk->seq++`: the load -/
  | load₁
  /-- first `lk->seq++`: the store -/
  | store₁ (seq : ℕ)
  /-- `*mem = val` -/
  | storeMem
  /-- second `lk->seq++`: the load -/
  | load₂
  /-- second `lk->seq++`: the store -/
  | store₂ (seq : ℕ)
  /-- `xchg(&lk->splk, 0)` -/
  | unlock
deriving DecidableEq, Repr

/-- what a thread of the system is doing -/
inductive Pc (α : Type*) where
  /-- in neither function; `ret` is what the last `seqlock_read` returned -/
  | out (ret : Option ℕ)
  | reading (a : α) (r : ReadPc)
  | writing (a : α) (val : ℕ) (w : WritePc)
deriving DecidableEq, Repr

inductive Call (α : Type*) where
  | read (a : α)
  | write (a : α) (val : ℕ)

abbrev St (ι α : Type*) := Threads ι (Mem α) (Pc α)

variable {ι α : Type*}

/-- one access of `seqlock_read`; `.inr` returns -/
def readStep (m : Mem α) (a : α) : ReadPc → ReadPc ⊕ ℕ
  | .loadSeq => .inl (.loadMem m.seq)
  | .loadMem seqi => .inl (.check seqi (m.word a))
  | .check seqi retval => if seqi ≠ m.seq ∨ seqi % 2 = 1 then .inl .loadSeq else .inr retval

/-- one access of `seqlock_write`; `none` returns -/
def writeStep [DecidableEq α] (m : Mem α) (a : α) (val : ℕ) : WritePc → Mem α × Option WritePc
  | .lock => ({ m with splk := 1 }, if m.splk = 0 then some .load₁ else some .lock)
  | .load₁ => (m, some (.store₁ m.seq))
  | .store₁ seq => ({ m with seq := (seq + 1) % 2 ^ 32, incs := m.incs + 1 }, some .storeMem)
  | .storeMem => ({ m with word := Function.update m.word a val }, some .load₂)
  | .load₂ => (m, some (.store₂ m.seq))
  | .store₂ seq => ({ m with seq := (seq + 1) % 2 ^ 32, incs := m.incs + 1 }, some .unlock)
  | .unlock => ({ m with splk := 0 }, none)

/-- one step of a thread; `c` is the call it makes if it is in neither function -/
def prog [DecidableEq α] (c : Call α) (m : Mem α) : Pc α → Mem α × Pc α
  | .out _ =>
    match c with
    | .read a => (m, .reading a .loadSeq)
    | .write a val => (m, .writing a val .lock)
  | .reading a r =>
    match readStep m a r with
    | .inl r' => (m, .reading a r')
    | .inr retval => (m, .out (some retval))
  | .writing a val w =>
    match writeStep m a val w with
    | (m', some w') => (m', .writing a val w')
    | (m', none) => (m', .out none)

/-- `seqlock_init`; the words are whatever they are -/
def init (word : α → ℕ) : St ι α := ⟨⟨0, 0, word, 0⟩, fun _ => .out none⟩

def step [DecidableEq ι] [DecidableEq α] (s : St ι α) (o : ι × Call α) : St ι α :=
  Threads.step (fun _ => prog o.2) s o.1

/-! ## The invariant -/

/-- the writer holds `splk` -/
@[simp]
def WritePc.inside : WritePc → Prop
  | .lock => False
  | _ => True

/-- the writer has made its first increment and not its second -/
@[simp]
def WritePc.between : WritePc → Prop
  | .storeMem | .load₂ | .store₂ _ => True
  | _ => False

/-- the writer has loaded `seq` for an increment -/
@[simp]
def WritePc.loaded (q : ℕ) : WritePc → Prop
  | .store₁ seq | .store₂ seq => seq = q
  | _ => True

def Pc.inside : Pc α → Prop
  | .writing _ _ w => w.inside
  | _ => False

/-- a writer between its two increments -/
def Pc.between : Pc α → Prop
  | .writing _ _ w => w.between
  | _ => False

def Pc.loaded (q : ℕ) : Pc α → Prop
  | .writing _ _ w => w.loaded q
  | _ => True

attribute [simp] Pc.inside Pc.between Pc.loaded

theorem Pc.inside_of_between {l : Pc α} (h : l.between) : l.inside := by
  rcases l with _ | _ | ⟨a, val, w⟩
  · exact h
  · exact h
  · cases w <;> first | exact h | trivial

theorem Pc.loaded_of_not_inside {l : Pc α} (h : ¬ l.inside) (q : ℕ) : l.loaded q := by
  rcases l with _ | _ | ⟨a, val, w⟩
  · trivial
  · trivial
  · cases w <;> first | exact absurd trivial h | trivial

structure Inv (s : St ι α) : Prop where
  lock : SpinLock Pc.inside s.mem.splk s.pc
  loaded : ∀ i, (s.pc i).loaded s.mem.seq
  seq_eq : s.mem.seq = s.mem.incs % 2 ^ 32
  even : (∀ i, ¬ (s.pc i).between) → s.mem.incs % 2 = 0
  odd : ∀ i, (s.pc i).between → s.mem.incs % 2 = 1

theorem inv_init (word : α → ℕ) : Inv (init word : St ι α) := by
  refine ⟨⟨?_, ?_⟩, ?_, ?_, ?_, ?_⟩ <;> simp [init]

theorem Inv.parity {s : St ι α} {i : ι} (h : Inv s) (hi : (s.pc i).inside) : s.mem.incs % 2 = 1 ↔ (s.pc i).between := by
  refine ⟨fun hodd => ?_, h.odd i⟩
  by_contra hb
  have heven := h.even fun j hj => hb (h.lock.unique j i (Pc.inside_of_between hj) hi ▸ hj)
  omega

section Steps

variable [DecidableEq ι] {s : St ι α} {i : ι} {l : Pc α}

/-- a step of a thread that is not past the xchg, and does not get past it -/
theorem inv_outside (h : Inv s) (hi : ¬ (s.pc i).inside) (hl : ¬ l.inside) {m : ℕ}
    (hlock : SpinLock Pc.inside m (update s.pc i l)) :
    Inv ⟨{ s.mem with splk := m }, update s.pc i l⟩ := by
  have hbetween : ∀ j, (update s.pc i l j).between ↔ (s.pc j).between := by
    intro j
    by_cases hj : j = i
    · subst hj
      exact iff_of_false (fun hb => hl (Pc.inside_of_between (by simpa using hb)))
        (fun hb => hi (Pc.inside_of_between hb))
    · simp [hj]
  refine ⟨hlock, fun j => ?_, h.seq_eq, fun hno => h.even fun j hj => hno j ((hbetween j).2 hj),
    fun j hj => h.odd j ((hbetween j).1 hj)⟩
  by_cases hj : j = i
  · subst hj; simpa using Pc.loaded_of_not_inside hl s.mem.seq
  · simpa [hj] using h.loaded j

/-- a step of the one thread past the xchg: what the others know does not matter -/
theorem inv_alone {m : Mem α} (hother : ∀ j, j ≠ i → ¬ (s.pc j).inside)
    (hlock : SpinLock Pc.inside m.splk (update s.pc i l)) (hloaded : l.loaded m.seq)
    (hseq : m.seq = m.incs % 2 ^ 32) (hparity : m.incs % 2 = 1 ↔ l.between) : Inv ⟨m, update s.pc i l⟩ := by
  refine ⟨hlock, fun j => ?_, hseq, fun hno => ?_, fun j hj => hparity.2 ?_⟩
  · by_cases hj : j = i
    · subst hj; simpa using hloaded
    · simpa [hj] using Pc.loaded_of_not_inside (hother j hj) m.seq
  · have := mt hparity.1 (by simpa using hno i)
    exact Nat.mod_two_ne_one.1 this
  · by_cases hji : j = i
    · subst hji; simpa using hj
    · exact absurd (Pc.inside_of_between (by simpa [hji] using hj)) (hother j hji)

/-- the writer past the xchg makes its next step -/
theorem inv_inside (h : Inv s) {m : Mem α} (hi : (s.pc i).inside) (hm : m.splk = s.mem.splk ∨ ¬ l.inside)
    (hloaded : l.loaded m.seq) (hseq : m.seq = m.incs % 2 ^ 32) (hparity : m.incs % 2 = 1 ↔ l.between) :
    Inv ⟨m, update s.pc i l⟩ :=
  inv_alone (fun j hj hj' => hj (h.lock.unique j i hj' hi)) (h.lock.inside hi hm) hloaded hseq hparity

variable [DecidableEq α]

theorem inv_write (h : Inv s) {a : α} {val : ℕ} {w : WritePc} (hp : s.pc i = .writing a val w) (c : Call α) :
    Inv (step s (i, c)) := by
  have hpar : w.inside → (s.mem.incs % 2 = 1 ↔ w.between) := by
    intro hw; simpa [hp] using h.parity (i := i) (by simpa [hp] using hw)
  have hld := h.loaded i
  rw [hp] at hld
  have hseq := h.seq_eq
  cases w with
  | lock =>
    by_cases h0 : s.mem.splk = 0
    · rw [step, Threads.step_eq (by simp only [hp, prog, writeStep, if_pos h0]; rfl)]
      refine inv_alone (fun j _ => h.lock.free h0 j) (h.lock.take (Or.inl h0)) trivial hseq ?_
      have heven := h.even fun j hj => h.lock.free h0 j (Pc.inside_of_between hj)
      simp [heven]
    · rw [step, Threads.step_eq (by simp only [hp, prog, writeStep, if_neg h0]; rfl)]
      exact inv_outside h (by simp [hp]) (by simp) (h.lock.take (Or.inr (by simp)))
  | load₁ =>
    rw [step, Threads.step_eq (by simp only [hp, prog, writeStep]; rfl)]
    exact inv_inside h (by simp [hp]) (Or.inl rfl) (by simp) hseq (by simpa using hpar)
  | store₁ seq =>
    rw [step, Threads.step_eq (by simp only [hp, prog, writeStep]; rfl)]
    have hq : seq = s.mem.seq := hld
    have heven : s.mem.incs % 2 = 0 := by simpa using hpar
    exact inv_inside h (by simp [hp]) (Or.inl rfl) (by simp) (by simp only [hq, hseq]; omega) (by simp; omega)
  | storeMem =>
    rw [step, Threads.step_eq (by simp only [hp, prog, writeStep]; rfl)]
    exact inv_inside h (by simp [hp]) (Or.inl rfl) (by simp) hseq (by simpa using hpar)
  | load₂ =>
    rw [step, Threads.step_eq (by simp only [hp, prog, writeStep]; rfl)]
    exact inv_inside h (by simp [hp]) (Or.inl rfl) (by simp) hseq (by simpa using hpar)
  | store₂ seq =>
    rw [step, Threads.step_eq (by simp only [hp, prog, writeStep]; rfl)]
    have hq : seq = s.mem.seq := hld
    have hodd : s.mem.incs % 2 = 1 := by simpa using hpar
    exact inv_inside h (by simp [hp]) (Or.inl rfl) (by simp) (by simp only [hq, hseq]; omega) (by simp; omega)
  | unlock =>
    rw [step, Threads.step_eq (by simp only [hp, prog, writeStep]; rfl)]
    exact inv_inside h (by simp [hp]) (Or.inr (by simp)) (by simp) hseq (by simpa using hpar)

/-- outside `seqlock_write` a step changes nothing but the thread's own control state, and may enter a function -/
theorem step_of_not_writing {s : St ι α} {i : ι} (hp : ∀ a val w, s.pc i ≠ .writing a val w) (c : Call α) :
    ∃ l, step s (i, c) = ⟨s.mem, update s.pc i l⟩ ∧ ¬ l.inside := by
  cases hpc : s.pc i with
  | out ret =>
    cases c with
    | read a => exact ⟨_, Threads.step_eq (by rw [hpc, prog]), by simp⟩
    | write a val => exact ⟨_, Threads.step_eq (by rw [hpc, prog]), by simp⟩
  | reading a r =>
    cases hr : readStep s.mem a r with
    | inl r' => exact ⟨.reading a r', Threads.step_eq (by simp only [hpc, prog, hr]), by simp⟩
    | inr v => exact ⟨.out (some v), Threads.step_eq (by simp only [hpc, prog, hr]), by simp⟩
  | writing a val w => exact absurd hpc (hp a val w)

theorem step_inv (s : St ι α) (o : ι × Call α) (h : Inv s) : Inv (step s o) := by
  obtain ⟨i, c⟩ := o
  by_cases hw : ∃ a val w, s.pc i = .writing a val w
  · obtain ⟨a, val, w, hp⟩ := hw
    exact inv_write h hp c
  · push Not at hw
    obtain ⟨l, hs, hl⟩ := step_of_not_writing hw c
    have hi : ¬ (s.pc i).inside := by
      cases hp : s.pc i <;> simp_all
    rw [hs]
    exact inv_outside h hi hl (h.lock.outside hl)

theorem inv_run (word : α → ℕ) (sched : List (ι × Call α)) : Inv (run step (init word) sched) :=
  run_inv step_inv _ (inv_init word) sched

theorem writeStep_incs (m : Mem α) (a : α) (val : ℕ) (w : WritePc) : m.incs ≤ (writeStep m a val w).1.incs := by
  cases w <;> simp [writeStep]

theorem step_incs (s : St ι α) (o : ι × Call α) : s.mem.incs ≤ (step s o).mem.incs := by
  obtain ⟨i, c⟩ := o
  by_cases hw : ∃ a val w, s.pc i = .writing a val w
  · obtain ⟨a, val, w, hp⟩ := hw
    have hle := writeStep_incs s.mem a val w
    rw [step, Threads.step_mem, hp, prog]
    rcases hws : writeStep s.mem a val w with ⟨m, _ | w'⟩ <;> simpa [hws] using hle
  · push Not at hw
    obtain ⟨l, hs, -⟩ := step_of_not_writing hw c
    rw [hs]

end Steps

/-! ## What a read knows -/

section Reads

variable [DecidableEq ι] [DecidableEq α] {word : α → ℕ} {sched : List (ι × Call α)} {i : ι} {a : α}

/-- the state after the first `t` steps -/
abbrev at_ (word : α → ℕ) (sched : List (ι × Call α)) (t : ℕ) : St ι α := stateAt step (init word) sched t

/-- thread `i`, reading `a`, makes the first load of `seq` of its present round in step `t₀`; from then on until `n`
it is in the same round -/
structure Round (word : α → ℕ) (sched : List (ι × Call α)) (i : ι) (a : α) (t₀ n : ℕ) : Prop where
  lt : t₀ < n
  start : (at_ word sched t₀).pc i = .reading a .loadSeq
  going : ∀ t, t₀ < t → t ≤ n → ∃ r, (at_ word sched t).pc i = .reading a r ∧ r ≠ .loadSeq

/-- what the values a read has loaded are -/
def Knows (word : α → ℕ) (sched : List (ι × Call α)) (a : α) (t₀ n : ℕ) : ReadPc → Prop
  | .loadSeq => True
  | .loadMem seqi => seqi = (at_ word sched t₀).mem.seq
  | .check seqi retval =>
    seqi = (at_ word sched t₀).mem.seq ∧ ∃ t, t₀ < t ∧ t ≤ n ∧ (at_ word sched t).mem.word a = retval

variable {o : ι × Call α} {t : ℕ}

theorem at_snoc (ht : t ≤ sched.length) : at_ word (sched ++ [o]) t = at_ word sched t :=
  stateAt_append ht [o]

theorem at_snoc_last (o : ι × Call α) :
    at_ word (sched ++ [o]) (sched.length + 1) = step (at_ word sched sched.length) o := by
  rw [at_, stateAt_succ (o := o) (by simp), stateAt_append le_rfl]

variable {t₀ : ℕ} {r : ReadPc}

theorem Round.snoc (h : Round word sched i a t₀ sched.length)
    (hp : (at_ word (sched ++ [o]) (sched.length + 1)).pc i = .reading a r) (hr : r ≠ .loadSeq) :
    Round word (sched ++ [o]) i a t₀ (sched.length + 1) := by
  refine ⟨h.lt.trans (Nat.lt_succ_self _), by rw [at_snoc h.lt.le]; exact h.start, fun t h₀ ht => ?_⟩
  rcases Nat.lt_or_ge sched.length t with hlt | hle
  · obtain rfl : t = sched.length + 1 := by omega
    exact ⟨r, hp, hr⟩
  · rw [at_snoc hle]; exact h.going t h₀ hle

theorem Knows.snoc (h₀ : t₀ < sched.length)
    (h : Knows word sched a t₀ sched.length r) : Knows word (sched ++ [o]) a t₀ (sched.length + 1) r := by
  cases r with
  | loadSeq => trivial
  | loadMem seqi => rw [Knows, at_snoc h₀.le]; exact h
  | check seqi retval =>
    obtain ⟨hseq, t, hlt, hle, hv⟩ := h
    exact ⟨by rw [at_snoc h₀.le]; exact hseq, t, hlt, hle.trans (Nat.le_succ _), by rw [at_snoc hle]; exact hv⟩

/-- how a thread gets to be in a round of `seqlock_read`, past its first load: it was there before, or it made the first
load, or the load of the word -/
theorem step_reading {s : St ι α} (h : (step s o).pc i = .reading a r) (hr : r ≠ .loadSeq) :
    s.pc i = .reading a r ∨ (s.pc i = .reading a .loadSeq ∧ r = .loadMem s.mem.seq) ∨
      ∃ seqi, s.pc i = .reading a (.loadMem seqi) ∧ r = .check seqi (s.mem.word a) := by
  obtain ⟨j, c⟩ := o
  by_cases hij : i = j
  · subst hij
    rw [step, Threads.step_pc_self] at h
    cases hp : s.pc i with
    | out ret => cases c <;> simp_all [prog]
    | writing b val w =>
      rw [hp, prog] at h
      rcases hws : writeStep s.mem b val w with ⟨m, _ | w'⟩ <;> simp [hws] at h
    | reading b r' =>
      rw [hp, prog] at h
      cases r' with
      | loadSeq =>
        obtain ⟨rfl, rfl⟩ : b = a ∧ .loadMem s.mem.seq = r := by simpa [readStep] using h
        exact Or.inr (Or.inl ⟨rfl, rfl⟩)
      | loadMem seqi =>
        obtain ⟨rfl, rfl⟩ : b = a ∧ .check seqi (s.mem.word b) = r := by simpa [readStep] using h
        exact Or.inr (Or.inr ⟨seqi, rfl, rfl⟩)
      | check seqi retval =>
        by_cases hc : seqi ≠ s.mem.seq ∨ seqi % 2 = 1
        · simp only [readStep, if_pos hc, Pc.reading.injEq] at h
          exact absurd h.2.symm hr
        · simp [readStep, if_neg hc] at h
  · rw [step, Threads.step_pc_ne _ hij] at h
    exact Or.inl h

theorem knows (word : α → ℕ) (sched : List (ι × Call α)) (i : ι) (a : α) :
    ∀ r, (at_ word sched sched.length).pc i = .reading a r → r ≠ .loadSeq →
      ∃ t₀, Round word sched i a t₀ sched.length ∧ Knows word sched a t₀ sched.length r := by
  induction sched using List.reverseRecOn with
  | nil => intro r h; simp [stateAt, init] at h
  | append_singleton sched o ih =>
    intro r h hr
    rw [List.length_append, List.length_singleton] at h ⊢
    have hlast := h
    rw [at_snoc_last] at hlast
    rcases step_reading hlast hr with hp | ⟨hp, rfl⟩ | ⟨seqi, hp, rfl⟩
    · obtain ⟨t₀, hround, hknows⟩ := ih r hp hr
      exact ⟨t₀, hround.snoc h hr, hknows.snoc hround.lt⟩
    · refine ⟨sched.length, ⟨Nat.lt_succ_self _, by rw [at_snoc le_rfl]; exact hp, fun t h₀ ht => ?_⟩, ?_⟩
      · obtain rfl : t = sched.length + 1 := by omega
        exact ⟨_, h, hr⟩
      · rw [Knows, at_snoc le_rfl]
    · obtain ⟨t₀, hround, hknows⟩ := ih (.loadMem seqi) hp (by simp)
      refine ⟨t₀, hround.snoc h hr, ?_, sched.length, hround.lt, Nat.le_succ _, by rw [at_snoc le_rfl]⟩
      rw [at_snoc hround.lt.le]; exact hknows

/-- thread `i` is in `seqlock_read` on `a`, and its next step returns `v` -/
def Returns (s : St ι α) (i : ι) (a : α) (v : ℕ) : Prop :=
  (∃ r, s.pc i = .reading a r) ∧ ∀ c, (step s (i, c)).pc i = .out (some v)

/-- only the test returns, and it has seen the same even value twice -/
theorem Returns.check {s : St ι α} {v : ℕ} (h : Returns s i a v) : s.pc i = .reading a (.check s.mem.seq v) ∧ s.mem.seq % 2 = 0 := by
  obtain ⟨⟨r, hp⟩, hret⟩ := h
  have hret := hret (.read a)
  rw [step, Threads.step_pc_self, hp, prog] at hret
  cases r with
  | loadSeq => simp [readStep] at hret
  | loadMem seqi => simp [readStep] at hret
  | check seqi retval =>
    by_cases hc : seqi ≠ s.mem.seq ∨ seqi % 2 = 1
    · simp [readStep, if_pos hc] at hret
    · obtain rfl : retval = v := by simpa [readStep, if_neg hc] using hret
      push Not at hc
      obtain ⟨rfl, heven⟩ := hc
      exact ⟨hp, Nat.mod_two_ne_one.1 heven⟩

/-- an accepted read: the counter did not move since the first load of `seq` -/
theorem Returns.incs_even {v : ℕ} (h : Returns (at_ word sched sched.length) i a v)
    (hseq : (at_ word sched sched.length).mem.seq = (at_ word sched t₀).mem.seq)
    (hfew : (at_ word sched sched.length).mem.writes - (at_ word sched t₀).mem.writes < 2 ^ 31) (h₀ : t₀ ≤ t)
    (ht : t ≤ sched.length) : (at_ word sched t).mem.incs % 2 = 0 := by
  have hmono : Monotone fun t => (at_ word sched t).mem.incs := stateAt_mono step_incs (init word) sched
  have h1 := hmono h₀
  have h2 := hmono ht
  have heven := h.check.2
  have hn := (inv_run word (sched.take sched.length)).seq_eq
  have ht0 := (inv_run word (sched.take t₀)).seq_eq
  simp only [at_, stateAt, Mem.writes] at *
  omega

end Reads

/-! ## Main result -/

/-- **Correctness of the sequence lock.** -/
theorem seqlock_correct [DecidableEq ι] [DecidableEq α] (word : α → ℕ) (sched : List (ι × Call α)) :
    let s := run step (init word) sched
    (s.mem.seq % 2 = 1 ↔ ∃! i, (s.pc i).between) ∧
    {i | (s.pc i).inside}.Subsingleton ∧
    ∀ i a v, Returns s i a v → ∃ t₀, Round word sched i a t₀ sched.length ∧
      (s.mem.writes - (at_ word sched t₀).mem.writes < 2 ^ 31 →
        ∃ t, t₀ < t ∧ t ≤ sched.length ∧ (at_ word sched t).mem.word a = v ∧
          ∀ j, ¬ ((at_ word sched t).pc j).between) := by
  intro s
  have h : Inv s := inv_run word sched
  refine ⟨⟨fun hodd => ?_, ?_⟩, fun i hi j hj => h.lock.unique i j hi hj, fun i a v hret => ?_⟩
  · have hincs := h.seq_eq
    obtain ⟨i, hi⟩ : ∃ i, (s.pc i).between := by
      by_contra hno
      have := h.even (by simpa using hno)
      omega
    exact ⟨i, hi, fun j hj => h.lock.unique j i (Pc.inside_of_between hj) (Pc.inside_of_between hi)⟩
  · rintro ⟨i, hi, -⟩
    have hincs := h.seq_eq
    have := h.odd i hi
    omega
  · have hs : s = at_ word sched sched.length := (stateAt_length _ sched).symm
    rw [hs] at hret ⊢
    obtain ⟨t₀, hround, hseq, t, h₀, ht, hv⟩ := knows word sched i a _ hret.check.1 (by simp)
    refine ⟨t₀, hround, fun hfew => ⟨t, h₀, ht, hv, fun j hj => ?_⟩⟩
    have heven := hret.incs_even hseq hfew h₀.le ht
    have hodd := (inv_run word (sched.take t)).odd j hj
    simp only [at_, stateAt] at heven
    omega

end Xv6.SeqLock
