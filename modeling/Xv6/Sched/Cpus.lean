/-
What the CPUs execute.
-/
import Xv6.Sched.Ptable

namespace Xv6.Ptable

open Xv6.Core
open Xv6.Kernel (NPROC)

/-! ## The invariant -/

/-- the entry that is being made -/
def Code.making : Code → Option Slot
  | .user => none
  | .kstack np _ | .copyuvm np | .parent np | .ready np => some np

/-- the entry that is being made and has its stack -/
def Code.made : Code → Option Slot
  | .user | .kstack _ _ => none
  | .copyuvm np | .parent np | .ready np => some np

def Ctl.code : Ctl → Code
  | .run code | .leave _ code | .off _ code | .back _ code => code

def Ctl.holds : Ctl → Prop
  | .run _ | .off _ _ => False
  | .leave _ _ | .back _ _ => True

def Ctl.isOff : Ctl → Prop
  | .off _ _ => True
  | _ => False

def Sched.holds : Sched → Prop
  | .idle | .away _ => False
  | .scan _ | .pick _ | .back _ => True

/-- a process that gave up its CPU may be in that state -/
def Why.fits : Why → ProcState → Prop
  | .yield, st | .forkret, st => st = .runnable
  | .sleep, st | .wait, st => st = .sleeping ∨ st = .runnable
  | .exit, st => st = .zombie

/-- the state that a process has set before it calls `swtch` -/
def Why.sets : Why → ProcState → Prop
  | .yield, st => st = .runnable
  | .sleep, st | .wait, st => st = .sleeping
  | .exit, st => st = .zombie
  | .forkret, _ => False

/-- the control state of a process that a CPU executes -/
def Ctl.executes : Ctl → ProcState → Prop
  | .run _, st | .back _ _, st => st = .running
  | .leave why _, st => why.sets st
  | .off _ _, _ => False

/-- the control state of a process that was there and is not executed -/
def Ctl.waits : Ctl → ProcState → Prop
  | .off why code, st => why.fits st ∧ (why ≠ .yield → code = .user)
  | _, _ => False

/-- only a timer interrupt stops a process in the middle of `fork` or `clone` -/
def Ctl.Calls : Ctl → Prop
  | .run _ => True
  | .leave why code | .off why code | .back why code => why ≠ .yield → code = .user

namespace St

variable {C : Type} (s : St C)

def Holds (c : C) : Prop :=
  match s.stack c with
  | none => (s.sched c).holds
  | some p => (s.ctl p).holds

def CpuOk (c : C) : Prop :=
  match s.stack c with
  | none =>
    match s.sched c with
    | .idle | .scan _ => s.proc c = none
    | .pick p => s.proc c = some p ∧ (s.table p).state = .running ∧ (s.ctl p).isOff
    | .back p => s.proc c = some p ∧ (s.ctl p).waits (s.table p).state
    | .away _ => False
  | some p => s.sched c = .away p ∧ s.proc c = some p ∧ (s.ctl p).executes (s.table p).state

end St

/-- who executes what -/
structure Inv {C : Type} (s : St C) : Prop where
  lock : ∀ c, s.lock = some c ↔ s.Holds c
  cpu : ∀ c, s.CpuOk c
  inj : ∀ c c' p, s.proc c = some p → s.proc c' = some p → c = c'
  running : ∀ p, (s.table p).state = .running → ∃ c, s.proc c = some p
  waits : ∀ p, (∀ c, s.proc c ≠ some p) → (s.table p).state ≠ .unused → (s.table p).state ≠ .embryo →
    (s.ctl p).waits (s.table p).state
  unmade : ∀ p, (s.table p).state = .unused ∨ (s.table p).state = .embryo → (s.ctl p).isOff ∧ (s.ctl p).code = .user
  making : ∀ q np, (s.ctl q).code.making = some np → (s.table np).state = .embryo
  made : ∀ q np, (s.ctl q).code.made = some np → s.ctl np = .off .forkret .user
  maker : ∀ q q' np, (s.ctl q).code.making = some np → (s.ctl q').code.making = some np → q = q'
  calls : ∀ p, (s.ctl p).Calls

variable {C : Type} {s s' : St C} {c c' : C} {p q np : Slot} {k : Ctl}

/-! ## What the invariant says about one process -/

variable {st : ProcState}

theorem Ctl.waits.isOff (h : k.waits st) : k.isOff := by
  cases k with
  | off => trivial
  | _ => exact h

theorem Ctl.executes.live (h : k.executes st) : st ≠ .unused ∧ st ≠ .embryo := by
  cases k with
  | leave why code => cases why <;> simp_all [Ctl.executes, Why.sets]
  | _ => simp_all [Ctl.executes]

theorem Ctl.waits.live (h : k.waits st) : st ≠ .unused ∧ st ≠ .embryo ∧ st ≠ .running := by
  cases k with
  | off why code =>
    obtain ⟨hfits, -⟩ := h
    unfold Why.fits at hfits
    cases why <;> rcases hfits with rfl | rfl <;> decide
  | _ => exact absurd h id

theorem Why.fits_of_sets {why : Why} (h : why.sets st) : why.fits st := by
  cases why with
  | sleep => exact .inl h
  | wait => exact .inl h
  | forkret => exact absurd h id
  | _ => exact h

/-- a process that was asleep is RUNNABLE -/
theorem Ctl.waits.woken (h : k.waits .sleeping) : k.waits .runnable := by
  cases k with
  | off why code => cases why <;> simp_all [Ctl.waits, Why.fits]
  | _ => exact h

/-- an exited process has left for good -/
theorem Ctl.waits.exited (h : k.waits .zombie) : k.isOff ∧ k.code = .user := by
  cases k with
  | off why code =>
    refine ⟨trivial, h.2 fun heq => ?_⟩
    subst heq
    exact absurd h.1 (by unfold Why.fits; decide)
  | _ => exact absurd h id

namespace Inv

/-- what a CPU executes, or is about to or has just left, is there -/
theorem proc_live (h : Inv s) (hc : s.proc c = some p) : (s.table p).state ≠ .unused ∧ (s.table p).state ≠ .embryo := by
  have hcpu := h.cpu c
  unfold St.CpuOk at hcpu
  cases hst : s.stack c with
  | some q =>
    simp only [hst] at hcpu
    rw [hcpu.2.1] at hc
    cases hc
    exact hcpu.2.2.live
  | none =>
    simp only [hst] at hcpu
    cases hsch : s.sched c with
    | idle =>
      simp only [hsch] at hcpu
      rw [hcpu] at hc
      cases hc
    | scan n =>
      simp only [hsch] at hcpu
      rw [hcpu] at hc
      cases hc
    | pick q =>
      simp only [hsch] at hcpu
      rw [hcpu.1] at hc
      cases hc
      rw [hcpu.2.1]
      decide
    | away q =>
      simp only [hsch] at hcpu
    | back q =>
      simp only [hsch] at hcpu
      rw [hcpu.1] at hc
      cases hc
      exact ⟨hcpu.2.live.1, hcpu.2.live.2.1⟩

theorem executes (h : Inv s) (hc : s.stack c = some p) : s.sched c = .away p ∧ s.proc c = some p ∧ (s.ctl p).executes (s.table p).state := by
  have hcpu := h.cpu c
  unfold St.CpuOk at hcpu
  simp only [hc] at hcpu
  exact hcpu

/-- the CPU whose process holds the lock, or may take it, is the only one that is in a section -/
theorem others (h : Inv s) (hlock : s.lock = none ∨ s.lock = some c) (hne : c' ≠ c) : ¬ s.Holds c' := by
  intro hholds
  have hl := (h.lock c').2 hholds
  rcases hlock with hnone | hsome
  · rw [hnone] at hl
    cases hl
  · rw [hsome] at hl
    cases hl
    exact hne rfl

/-- a CPU outside of sections executes a process, or nothing -/
theorem outside (h : Inv s) (hnot : ¬ s.Holds c) :
    (∃ p code, s.stack c = some p ∧ s.ctl p = .run code ∧ s.proc c = some p ∧ (s.table p).state = .running) ∨
      (s.stack c = none ∧ s.sched c = .idle ∧ s.proc c = none) := by
  have hcpu := h.cpu c
  unfold St.CpuOk at hcpu
  unfold St.Holds at hnot
  cases hst : s.stack c with
  | some p =>
    simp only [hst] at hcpu hnot
    cases hk : s.ctl p with
    | run code =>
      rw [hk] at hcpu
      exact .inl ⟨p, code, rfl, hk, hcpu.2.1, hcpu.2.2⟩
    | leave =>
      rw [hk] at hnot
      exact absurd trivial hnot
    | off =>
      rw [hk] at hcpu
      exact absurd hcpu.2.2 id
    | back =>
      rw [hk] at hnot
      exact absurd trivial hnot
  | none =>
    simp only [hst] at hcpu hnot
    cases hsch : s.sched c with
    | idle =>
      simp only [hsch] at hcpu
      exact .inr ⟨rfl, rfl, hcpu⟩
    | scan n =>
      rw [hsch] at hnot
      exact absurd trivial hnot
    | pick q =>
      rw [hsch] at hnot
      exact absurd trivial hnot
    | away q => simp only [hsch] at hcpu
    | back q =>
      rw [hsch] at hnot
      exact absurd trivial hnot

/-- a CPU is as it was if nothing happens to it and to the process that it has in hand -/
theorem frame (h : Inv s) (hstack : s'.stack c = s.stack c) (hsched : s'.sched c = s.sched c) (hproc : s'.proc c = s.proc c)
    (hkeep : ∀ q, s.proc c = some q → s'.ctl q = s.ctl q ∧ (s'.table q).state = (s.table q).state) :
    (s'.Holds c ↔ s.Holds c) ∧ s'.CpuOk c := by
  have hcpu := h.cpu c
  unfold St.Holds
  unfold St.CpuOk at hcpu ⊢
  rw [hstack, hsched, hproc]
  cases hst : s.stack c with
  | some q =>
    simp only [hst] at hcpu ⊢
    rw [(hkeep q hcpu.2.1).1, (hkeep q hcpu.2.1).2]
    exact ⟨Iff.rfl, hcpu⟩
  | none =>
    simp only [hst] at hcpu ⊢
    refine ⟨trivial, ?_⟩
    cases hsch : s.sched c with
    | pick q =>
      simp only [hsch] at hcpu ⊢
      rw [(hkeep q hcpu.1).1, (hkeep q hcpu.1).2]
      exact hcpu
    | back q =>
      simp only [hsch] at hcpu ⊢
      rw [(hkeep q hcpu.1).1, (hkeep q hcpu.1).2]
      exact hcpu
    | idle => simpa only [hsch] using hcpu
    | scan n => simpa only [hsch] using hcpu
    | away q => simp only [hsch] at hcpu

/-- what a CPU has in hand when the lock is free, or when another CPU has it, is RUNNING -/
theorem running_of_proc (h : Inv s) (hnot : ¬ s.Holds c) (hproc : s.proc c = some p) : (s.table p).state = .running := by
  rcases h.outside hnot with ⟨q, code, -, -, hq, hrun⟩ | ⟨-, -, hq⟩
  · rw [hq] at hproc
    cases hproc
    exact hrun
  · rw [hq] at hproc
    cases hproc

end Inv

/-! ## A process moves -/

/-- what a process may do to the state of another entry -/
def Changes (s s' : St C) (p q : Slot) : Prop :=
  (s'.table q).state = (s.table q).state ∨
  ((s.table q).state = .sleeping ∧ (s'.table q).state = .runnable) ∨
  ((s.table q).state = .zombie ∧ (s'.table q).state = .unused) ∨
  ((s.table q).state = .unused ∧ (s'.table q).state = .embryo) ∨
  ((s.ctl p).code.making = some q ∧ (s'.table q).state = .unused) ∨
  ((s.ctl p).code.made = some q ∧ (s'.table q).state = .runnable)

/-- process `p`, which CPU `c` executes, goes on to `k` -/
structure Moves (s s' : St C) (c : C) (p : Slot) (k : Ctl) : Prop where
  stack : s.stack c = some p
  free : s.lock = none ∨ s.lock = some c
  proc : s'.proc = s.proc
  stack_eq : s'.stack = s.stack
  sched : s'.sched = s.sched
  lock : s'.lock = some c ∧ k.holds ∨ s'.lock = none ∧ ¬ k.holds
  ctl : s'.ctl p = k
  others : ∀ q, q ≠ p → s'.ctl q = s.ctl q ∨ ((s.ctl p).code.making = some q ∧ s'.ctl q = .off .forkret .user)
  changes : ∀ q, q ≠ p → Changes s s' p q
  executes : k.executes (s'.table p).state
  calls : k.Calls
  making : ∀ np, k.code.making = some np →
    (s'.table np).state = .embryo ∧ ((s.ctl p).code.making = some np ∨ (s.table np).state = .unused)
  made : ∀ np, k.code.made = some np → s'.ctl np = .off .forkret .user

theorem making_of_made {code : Code} (h : code.made = some np) : code.making = some np := by
  cases code with
  | user => cases h
  | kstack => cases h
  | _ => exact h

/-- **A process moves.** -/
theorem Moves.inv (h : Inv s) (hm : Moves s s' c p k) : Inv s' := by
  obtain ⟨hsched, hproc, hexec⟩ := h.executes hm.stack
  have hlive := hexec.live
  -- a process that another CPU has in hand is not touched
  have hkeep : ∀ c', c' ≠ c → ∀ q, s.proc c' = some q → s'.ctl q = s.ctl q ∧ (s'.table q).state = (s.table q).state := by
    intro c' hne q hq
    have hrun := h.running_of_proc (h.others hm.free hne) hq
    have hqp : q ≠ p := fun heq => hne (h.inj c' c p (heq ▸ hq) hproc)
    have hnot : (s.ctl p).code.making ≠ some q := fun hmk => by
      have hemb := h.making p q hmk
      rw [hrun] at hemb
      cases hemb
    refine ⟨(hm.others q hqp).resolve_right fun hmk => hnot hmk.1, ?_⟩
    rcases hm.changes q hqp with heq | ⟨hold, -⟩ | ⟨hold, -⟩ | ⟨hold, -⟩ | ⟨hmk, -⟩ | ⟨hmk, -⟩
    · exact heq
    · cases hrun.symm.trans hold
    · cases hrun.symm.trans hold
    · cases hrun.symm.trans hold
    · exact absurd hmk hnot
    · exact absurd (making_of_made hmk) hnot
  have hframe := fun c' (hne : c' ≠ c) => h.frame (congrFun hm.stack_eq c') (congrFun hm.sched c') (congrFun hm.proc c')
    (hkeep c' hne)
  -- the entry of a process is not EMBRYO, so nobody makes it
  have hpmade : ∀ q, (s.ctl q).code.making ≠ some p := fun q hmk => hlive.2 (h.making q p hmk)
  -- a process that is asleep or a zombie, and not `p`, waits
  have hwait : ∀ q, q ≠ p → ((s.table q).state = .sleeping ∨ (s.table q).state = .zombie) →
      (s.ctl q).waits (s.table q).state := by
    intro q hqp hstate
    refine h.waits q (fun c' hc' => ?_) ?_ ?_
    · by_cases hne : c' = c
      · rw [hne, hproc] at hc'
        exact hqp (Option.some.inj hc').symm
      · rw [h.running_of_proc (h.others hm.free hne) hc'] at hstate
        rcases hstate with hs | hs <;> cases hs
    all_goals
      rcases hstate with hs | hs
      · rw [hs]
        decide
      · rw [hs]
        decide
  -- who makes an entry made it before, or is `p`
  have hmaking : ∀ q, q ≠ p → s'.ctl q = s.ctl q ∨ s'.ctl q = .off .forkret .user := fun q hqp =>
    (hm.others q hqp).imp_right And.right
  have hold : ∀ q np, q ≠ p → (s'.ctl q).code.making = some np → (s.ctl q).code.making = some np := by
    intro q np hqp hmk
    rcases hmaking q hqp with hk | hk
    · exact hk ▸ hmk
    · rw [hk] at hmk
      cases hmk
  refine ⟨fun c' => ?_, fun c' => ?_, fun c1 c2 q h1 h2 => ?_, fun q hq => ?_, fun q hq hun hemb => ?_, fun q hq => ?_,
    fun q np hmk => ?_, fun q np hmk => ?_, fun q q' np hmk hmk' => ?_, fun q => ?_⟩
  · -- the lock
    by_cases hne : c' = c
    · unfold St.Holds
      rw [hm.stack_eq, hne]
      simp only [hm.stack, hm.ctl]
      rcases hm.lock with ⟨hl, hk⟩ | ⟨hl, hk⟩
      · exact iff_of_true hl hk
      · exact iff_of_false (by rw [hl]; simp) hk
    · refine iff_of_false (fun heq => ?_) fun hholds => h.others hm.free hne ((hframe c' hne).1.1 hholds)
      rcases hm.lock with ⟨hl, -⟩ | ⟨hl, -⟩
      · exact hne (Option.some.inj (heq.symm.trans hl))
      · cases heq.symm.trans hl
  · -- what the CPUs execute
    by_cases hne : c' = c
    · unfold St.CpuOk
      rw [hm.stack_eq, hm.sched, hm.proc, hne]
      simp only [hm.stack, hm.ctl]
      exact ⟨hsched, hproc, hm.executes⟩
    · exact (hframe c' hne).2
  · rw [hm.proc] at h1 h2
    exact h.inj c1 c2 q h1 h2
  · rw [hm.proc]
    by_cases hqp : q = p
    · exact ⟨c, hqp ▸ hproc⟩
    · rcases hm.changes q hqp with heq | ⟨-, hnew⟩ | ⟨-, hnew⟩ | ⟨-, hnew⟩ | ⟨-, hnew⟩ | ⟨-, hnew⟩
      · exact h.running q (heq ▸ hq)
      all_goals
        rw [hnew] at hq
        cases hq
  · rw [hm.proc] at hq
    have hqp : q ≠ p := fun heq => hq c (heq ▸ hproc)
    rcases hm.changes q hqp with heq | ⟨hold, hnew⟩ | ⟨-, hnew⟩ | ⟨-, hnew⟩ | ⟨-, hnew⟩ | ⟨hmk, hnew⟩
    · rw [heq] at hun hemb ⊢
      rcases hm.others q hqp with hk | ⟨hmk, -⟩
      · rw [hk]
        exact h.waits q hq hun hemb
      · exact absurd (h.making p q hmk) hemb
    · -- woken
      have hw := hwait q hqp (.inl hold)
      have hk : s'.ctl q = s.ctl q := by
        refine (hm.others q hqp).resolve_right fun hmk => ?_
        have hemb' := h.making p q hmk.1
        rw [hold] at hemb'
        cases hemb'
      rw [hk, hnew]
      rw [hold] at hw
      exact hw.woken
    · exact absurd hnew hun
    · exact absurd hnew hemb
    · exact absurd hnew hun
    · -- a new process
      have hk : s'.ctl q = .off .forkret .user := by
        rcases hm.others q hqp with hk | ⟨-, hk⟩
        · rw [hk]
          exact h.made p q hmk
        · exact hk
      rw [hk, hnew]
      exact ⟨rfl, fun _ => rfl⟩
  · have hqp : q ≠ p := fun heq => by
      rw [heq] at hq
      rcases hq with hq | hq
      · exact hm.executes.live.1 hq
      · exact hm.executes.live.2 hq
    -- it was not there before, or it was a zombie
    have hwas : (s.ctl q).isOff ∧ (s.ctl q).code = .user := by
      rcases hm.changes q hqp with heq | ⟨-, hnew⟩ | ⟨hold, -⟩ | ⟨hold, -⟩ | ⟨hmk, -⟩ | ⟨-, hnew⟩
      · exact h.unmade q (heq ▸ hq)
      · rw [hnew] at hq
        rcases hq with hq | hq <;> cases hq
      · have hw := hwait q hqp (.inr hold)
        rw [hold] at hw
        exact hw.exited
      · exact h.unmade q (.inl hold)
      · exact h.unmade q (.inr (h.making p q hmk))
      · rw [hnew] at hq
        rcases hq with hq | hq <;> cases hq
    rcases hm.others q hqp with hk | ⟨-, hk⟩
    · rw [hk]
      exact hwas
    · rw [hk]
      exact ⟨trivial, rfl⟩
  · by_cases hqp : q = p
    · rw [hqp, hm.ctl] at hmk
      exact (hm.making np hmk).1
    · have hmk' := hold q np hqp hmk
      have hemb := h.making q np hmk'
      have hnp : np ≠ p := fun heq => hpmade q (heq ▸ hmk')
      rcases hm.changes np hnp with heq | ⟨hold, -⟩ | ⟨hold, -⟩ | ⟨hold, -⟩ | ⟨hmk'', -⟩ | ⟨hmk'', -⟩
      · rw [heq]
        exact hemb
      · rw [hemb] at hold
        cases hold
      · rw [hemb] at hold
        cases hold
      · rw [hemb] at hold
        cases hold
      · exact absurd (h.maker q p np hmk' hmk'') hqp
      · exact absurd (h.maker q p np hmk' (making_of_made hmk'')) hqp
  · by_cases hqp : q = p
    · rw [hqp, hm.ctl] at hmk
      exact hm.made np hmk
    · have hmk' : (s.ctl q).code.made = some np := by
        rcases hm.others q hqp with hk | ⟨-, hk⟩
        · rw [hk] at hmk
          exact hmk
        · rw [hk] at hmk
          cases hmk
      have hnp : np ≠ p := fun heq => hpmade q (heq ▸ making_of_made hmk')
      rcases hm.others np hnp with hk | ⟨-, hk⟩
      · rw [hk]
        exact h.made q np hmk'
      · exact hk
  · -- one maker
    have hmine : ∀ q, q ≠ p → (s'.ctl q).code.making = some np → (s'.ctl p).code.making = some np → False := by
      intro q hqp hmk hmk'
      rw [hm.ctl] at hmk'
      have hq := hold q np hqp hmk
      rcases (hm.making np hmk').2 with hp | hun
      · exact hqp (h.maker q p np hq hp)
      · have hemb := h.making q np hq
        rw [hun] at hemb
        cases hemb
    by_cases hqp : q = p
    · by_cases hqp' : q' = p
      · rw [hqp, hqp']
      · exact absurd (hmine q' hqp' hmk' (hqp ▸ hmk)) id
    · by_cases hqp' : q' = p
      · exact absurd (hmine q hqp hmk (hqp' ▸ hmk')) id
      · exact h.maker q q' np (hold q np hqp hmk) (hold q' np hqp' hmk')
  · by_cases hqp : q = p
    · rw [hqp, hm.ctl]
      exact hm.calls
    · rcases hm.others q hqp with hk | ⟨-, hk⟩
      · rw [hk]
        exact h.calls q
      · rw [hk]
        exact fun _ => rfl

/-! ## A CPU turns to another process -/

/-- CPU `c` turns to process `p` or away from it -/
structure Turns (s s' : St C) (c : C) (p : Slot) : Prop where
  free : s.lock = none ∨ s.lock = some c
  lock : s'.lock = some c ∧ s'.Holds c
  cpus : ∀ c', c' ≠ c → s'.stack c' = s.stack c' ∧ s'.sched c' = s.sched c' ∧ s'.proc c' = s.proc c'
  cpu : s'.CpuOk c
  mine : ∀ q, s'.proc c = some q → q = p
  left : ∀ q, s.proc c = some q → q = p
  alone : ∀ c', c' ≠ c → s.proc c' ≠ some p
  others : ∀ q, q ≠ p → s'.ctl q = s.ctl q ∧ (s'.table q).state = (s.table q).state
  code : (s'.ctl p).code = (s.ctl p).code
  live : ((s.table p).state ≠ .unused ∧ (s.table p).state ≠ .embryo) ∧
    (s'.table p).state ≠ .unused ∧ (s'.table p).state ≠ .embryo
  running : (s'.table p).state = .running → s'.proc c = some p
  waits : s'.proc c ≠ some p → (s'.ctl p).waits (s'.table p).state
  calls : (s'.ctl p).Calls

/-- **A CPU turns to another process.** -/
theorem Turns.inv (h : Inv s) (ht : Turns s s' c p) : Inv s' := by
  -- nobody makes `p`
  have hnot : ∀ q np, (s.ctl q).code.making = some np → np ≠ p := fun q np hmk heq =>
    ht.live.1.2 (h.making q p (heq ▸ hmk))
  have hcode : ∀ q, (s'.ctl q).code = (s.ctl q).code := fun q => by
    by_cases hqp : q = p
    · rw [hqp]
      exact ht.code
    · rw [(ht.others q hqp).1]
  -- what another CPU executes is another process
  have hother : ∀ c' q, c' ≠ c → s.proc c' = some q → q ≠ p := fun c' q hne hq heq => ht.alone c' hne (heq ▸ hq)
  have hframe := fun c' (hne : c' ≠ c) => h.frame (ht.cpus c' hne).1 (ht.cpus c' hne).2.1 (ht.cpus c' hne).2.2 fun q hq =>
    ht.others q (hother c' q hne hq)
  refine ⟨fun c' => ?_, fun c' => ?_, fun c1 c2 q h1 h2 => ?_, fun q hq => ?_, fun q hq hun hemb => ?_, fun q hq => ?_,
    fun q np hmk => ?_, fun q np hmk => ?_, fun q q' np hmk hmk' => ?_, fun q => ?_⟩
  · by_cases hne : c' = c
    · rw [hne]
      exact iff_of_true ht.lock.1 ht.lock.2
    · refine iff_of_false (fun heq => ?_) fun hholds => h.others ht.free hne ((hframe c' hne).1.1 hholds)
      exact hne (Option.some.inj (heq.symm.trans ht.lock.1))
  · by_cases hne : c' = c
    · rw [hne]
      exact ht.cpu
    · exact (hframe c' hne).2
  · by_cases hne1 : c1 = c
    · by_cases hne2 : c2 = c
      · rw [hne1, hne2]
      · rw [hne1] at h1
        rw [(ht.cpus c2 hne2).2.2, ht.mine q h1] at h2
        exact absurd h2 (ht.alone c2 hne2)
    · by_cases hne2 : c2 = c
      · rw [hne2] at h2
        rw [(ht.cpus c1 hne1).2.2, ht.mine q h2] at h1
        exact absurd h1 (ht.alone c1 hne1)
      · rw [(ht.cpus c1 hne1).2.2] at h1
        rw [(ht.cpus c2 hne2).2.2] at h2
        exact h.inj c1 c2 q h1 h2
  · by_cases hqp : q = p
    · rw [hqp] at hq ⊢
      exact ⟨c, ht.running hq⟩
    · rw [(ht.others q hqp).2] at hq
      obtain ⟨c', hc'⟩ := h.running q hq
      have hne : c' ≠ c := fun heq => hqp (ht.left q (heq ▸ hc'))
      exact ⟨c', (ht.cpus c' hne).2.2.trans hc'⟩
  · by_cases hqp : q = p
    · rw [hqp] at hq ⊢
      exact ht.waits (hq c)
    · rw [(ht.others q hqp).1]
      rw [(ht.others q hqp).2] at hun hemb ⊢
      refine h.waits q (fun c' hc' => ?_) hun hemb
      by_cases hne : c' = c
      · rw [hne] at hc'
        exact hqp (ht.left q hc')
      · exact hq c' ((ht.cpus c' hne).2.2.trans hc')
  · have hqp : q ≠ p := fun heq => by
      rw [heq] at hq
      rcases hq with hq | hq
      · exact ht.live.2.1 hq
      · exact ht.live.2.2 hq
    rw [(ht.others q hqp).1]
    rw [(ht.others q hqp).2] at hq
    exact h.unmade q hq
  · rw [hcode] at hmk
    rw [(ht.others np (hnot q np hmk)).2]
    exact h.making q np hmk
  · rw [hcode] at hmk
    rw [(ht.others np (hnot q np (making_of_made hmk))).1]
    exact h.made q np hmk
  · rw [hcode] at hmk hmk'
    exact h.maker q q' np hmk hmk'
  · by_cases hqp : q = p
    · rw [hqp]
      exact ht.calls
    · rw [(ht.others q hqp).1]
      exact h.calls q

/-- a scheduler takes the lock, goes on to the next entry, or releases the lock -/
theorem Inv.spin [DecidableEq C] (h : Inv s) {l : Option C} {sch : Sched} (hst : s.stack c = none) (hproc : s.proc c = none)
    (hfree : s.lock = none ∨ s.lock = some c) (hsch : sch = .idle ∧ l = none ∨ (∃ n, sch = .scan n) ∧ l = some c) :
    Inv { s with lock := l, sched := update s.sched c sch } := by
  refine ⟨fun c' => ?_, fun c' => ?_, h.inj, h.running, h.waits, h.unmade, h.making, h.made, h.maker, h.calls⟩
  · unfold St.Holds
    by_cases hne : c' = c
    · subst hne
      simp only [hst, update_self]
      rcases hsch with ⟨rfl, rfl⟩ | ⟨⟨n, rfl⟩, rfl⟩
      · exact iff_of_false (by simp) id
      · exact iff_of_true rfl trivial
    · simp only [update_of_ne hne]
      have hnot := h.others hfree hne
      refine iff_of_false ?_ hnot
      rcases hsch with ⟨-, rfl⟩ | ⟨-, rfl⟩
      · simp
      · exact fun heq => hne (Option.some.inj heq).symm
  · unfold St.CpuOk
    by_cases hne : c' = c
    · subst hne
      simp only [hst, update_self]
      rcases hsch with ⟨rfl, -⟩ | ⟨⟨n, rfl⟩, -⟩ <;> exact hproc
    · simp only [update_of_ne hne]
      exact h.cpu c'

/-! ## A process makes another one, without the lock -/

/-- process `p` goes on with the entry `np` that it makes -/
structure Makes (s s' : St C) (c : C) (p np : Slot) (d e : Code) : Prop where
  stack : s.stack c = some p
  ctl : s.ctl p = .run d
  making : d.making = some np
  lock : s'.lock = s.lock
  proc : s'.proc = s.proc
  stack_eq : s'.stack = s.stack
  sched : s'.sched = s.sched
  ctl' : s'.ctl p = .run e
  others : ∀ q, q ≠ p → q ≠ np → s'.ctl q = s.ctl q
  new : s'.ctl np = s.ctl np ∨ s'.ctl np = .off .forkret .user
  state : ∀ q, q ≠ np → (s'.table q).state = (s.table q).state
  still : (s'.table np).state = .embryo ∧ e.making = some np ∨
    (s'.table np).state = .unused ∧ e.making = none
  made : ∀ q, e.made = some q → s'.ctl q = .off .forkret .user

/-- **A process makes another one.** -/
theorem Makes.inv {d e : Code} (h : Inv s) (hm : Makes s s' c p np d e) : Inv s' := by
  obtain ⟨-, hproc, hexec⟩ := h.executes hm.stack
  have hmk : (s.ctl p).code.making = some np := by
    rw [hm.ctl]
    exact hm.making
  have hemb := h.making p np hmk
  have hpnp : p ≠ np := fun heq => hexec.live.2 (heq ▸ hemb)
  -- no CPU has anything to do with `np`
  have hnobody : ∀ c' q, s.proc c' = some q → q ≠ np := fun c' q hq heq => (h.proc_live hq).2 (heq ▸ hemb)
  have hframe := fun c' (hne : c' ≠ c) => h.frame (congrFun hm.stack_eq c') (congrFun hm.sched c') (congrFun hm.proc c')
    fun q hq => ⟨hm.others q (fun heq => hne (h.inj c' c p (heq ▸ hq) hproc)) (hnobody c' q hq), hm.state q (hnobody c' q hq)⟩
  have hnew : (s'.ctl np).isOff ∧ (s'.ctl np).code = .user := by
    rcases hm.new with hk | hk
    · rw [hk]
      exact h.unmade np (.inr hemb)
    · rw [hk]
      exact ⟨trivial, rfl⟩
  have hmaking : ∀ q y, (s'.ctl q).code.making = some y → q = p ∧ y = np ∨
      (q ≠ p ∧ y ≠ np ∧ s'.ctl q = s.ctl q ∧ (s.ctl q).code.making = some y) := by
    intro q y hy
    by_cases hqp : q = p
    · rw [hqp, hm.ctl'] at hy
      rcases hm.still with ⟨-, hsome⟩ | ⟨-, hnone⟩
      · exact .inl ⟨hqp, Option.some.inj (hy.symm.trans hsome)⟩
      · exact absurd (hy.symm.trans hnone) (by simp)
    · by_cases hq : q = np
      · rw [hq, hnew.2] at hy
        cases hy
      · have hk := hm.others q hqp hq
        rw [hk] at hy
        exact .inr ⟨hqp, fun heq => hqp (h.maker q p np (heq ▸ hy) hmk), hk, hy⟩
  refine ⟨fun c' => ?_, fun c' => ?_, ?_, fun q hq => ?_, fun q hq hun hem => ?_, fun q hq => ?_,
    fun q y hy => ?_, fun q y hy => ?_, fun q q' y hy hy' => ?_, fun q => ?_⟩
  · rw [hm.lock]
    refine (h.lock c').trans ?_
    by_cases hne : c' = c
    · unfold St.Holds
      rw [hm.stack_eq, hne]
      simp only [hm.stack, hm.ctl, hm.ctl']
      exact Iff.rfl
    · exact (hframe c' hne).1.symm
  · by_cases hne : c' = c
    · have hcpu := h.cpu c
      unfold St.CpuOk at hcpu ⊢
      rw [hm.stack_eq, hm.sched, hm.proc, hne]
      simp only [hm.stack, hm.ctl, hm.ctl', hm.state p hpnp] at hcpu ⊢
      exact hcpu
    · exact (hframe c' hne).2
  · rw [hm.proc]
    exact h.inj
  · rw [hm.proc]
    by_cases hqnp : q = np
    · rw [hqnp] at hq
      rcases hm.still with ⟨hst, -⟩ | ⟨hst, -⟩
      all_goals
        rw [hst] at hq
        cases hq
    · exact h.running q ((hm.state q hqnp).symm.trans hq)
  · rw [hm.proc] at hq
    have hqnp : q ≠ np := fun heq => by
      rw [heq] at hun hem
      rcases hm.still with ⟨hst, -⟩ | ⟨hst, -⟩
      · exact hem hst
      · exact hun hst
    have hqp : q ≠ p := fun heq => hq c (heq ▸ hproc)
    rw [hm.state q hqnp] at hun hem ⊢
    rw [hm.others q hqp hqnp]
    exact h.waits q hq hun hem
  · by_cases hqnp : q = np
    · rw [hqnp]
      exact hnew
    · rw [hm.state q hqnp] at hq
      have hqp : q ≠ p := fun heq => by
        rw [heq] at hq
        exact hq.elim hexec.live.1 hexec.live.2
      rw [hm.others q hqp hqnp]
      exact h.unmade q hq
  · rcases hmaking q y hy with ⟨rfl, rfl⟩ | ⟨-, hne, -, hold⟩
    · rcases hm.still with ⟨hst, -⟩ | ⟨-, hnone⟩
      · exact hst
      · rw [hm.ctl'] at hy
        exact absurd (hy.symm.trans hnone) (by simp)
    · rw [hm.state y hne]
      exact h.making q y hold
  · rcases hmaking q y (making_of_made hy) with ⟨rfl, rfl⟩ | ⟨-, hne, hk, hold⟩
    · rw [hm.ctl'] at hy
      exact hm.made _ hy
    · rw [hk] at hy
      have hyp : y ≠ p := fun heq => hexec.live.2 (h.making q p (heq ▸ hold))
      rw [hm.others y hyp hne]
      exact h.made q y hy
  · rcases hmaking q y hy with ⟨rfl, rfl⟩ | ⟨hqp, hne, -, hold⟩
    · rcases hmaking q' y hy' with ⟨rfl, -⟩ | ⟨-, hne', -, -⟩
      · rfl
      · exact absurd rfl hne'
    · rcases hmaking q' y hy' with ⟨-, rfl⟩ | ⟨-, -, -, hold'⟩
      · exact absurd rfl hne
      · exact h.maker q q' y hold hold'
  · by_cases hqp : q = p
    · rw [hqp, hm.ctl']
      trivial
    · by_cases hqnp : q = np
      · rcases hm.new with hk | hk
        · rw [hqnp, hk]
          exact h.calls np
        · rw [hqnp, hk]
          exact fun _ => rfl
      · rw [hm.others q hqp hqnp]
        exact h.calls q

/-! ## Wakeups and traps -/

/-- entries stay as they are; some processes that were asleep may be RUNNABLE now if the lock is free -/
theorem Inv.wakes (h : Inv s) (hlock : s'.lock = s.lock) (hctl : s'.ctl = s.ctl) (hproc : s'.proc = s.proc)
    (hstack : s'.stack = s.stack) (hsched : s'.sched = s.sched) (hstate : ∀ q, (s'.table q).state = (s.table q).state ∨
      (s.lock = none ∧ (s.table q).state = .sleeping ∧ (s'.table q).state = .runnable)) : Inv s' := by
  -- what a CPU has in hand when the lock is free is RUNNING
  have hkeep : ∀ c q, s.proc c = some q → (s'.table q).state = (s.table q).state := by
    intro c q hq
    refine (hstate q).resolve_right fun hwoken => ?_
    have hnot : ¬ s.Holds c := fun hholds => by
      have hl := (h.lock c).2 hholds
      rw [hwoken.1] at hl
      cases hl
    rw [h.running_of_proc hnot hq] at hwoken
    cases hwoken.2.1
  have hframe := fun c => h.frame (congrFun hstack c) (congrFun hsched c) (congrFun hproc c) fun q hq =>
    ⟨congrFun hctl q, hkeep c q hq⟩
  have hother : ∀ q st, st ≠ .runnable → (s'.table q).state = st → (s.table q).state = st := by
    intro q st hne hst
    rcases hstate q with heq | ⟨-, -, hnew⟩
    · exact heq.symm.trans hst
    · exact absurd (hst.symm.trans hnew) hne
  refine ⟨fun c => ?_, fun c => ?_, ?_, fun q hq => ?_, fun q hq hun hemb => ?_, fun q hq => ?_, fun q np hmk => ?_, ?_, ?_, ?_⟩
  · rw [hlock]
    exact (h.lock c).trans (hframe c).1.symm
  · exact (hframe c).2
  · rw [hproc]
    exact h.inj
  · rw [hproc]
    exact h.running q (hother q _ (by decide) hq)
  · rw [hproc] at hq
    rw [hctl]
    rcases hstate q with heq | ⟨-, hold, hnew⟩
    · rw [heq] at hun hemb ⊢
      exact h.waits q hq hun hemb
    · have hw := h.waits q hq (by rw [hold]; decide) (by rw [hold]; decide)
      rw [hold] at hw
      rw [hnew]
      exact hw.woken
  · rw [hctl]
    rcases hq with hq | hq
    · exact h.unmade q (.inl (hother q _ (by decide) hq))
    · exact h.unmade q (.inr (hother q _ (by decide) hq))
  · rw [hctl] at hmk
    have hemb := h.making q np hmk
    rcases hstate np with heq | ⟨-, hold, -⟩
    · exact heq.trans hemb
    · rw [hemb] at hold
      cases hold
  · rw [hctl]
    exact h.made
  · rw [hctl]
    exact h.maker
  · rw [hctl]
    exact h.calls

/-! ## Every step -/

/-- a process moves, in the code that it was in or back to its own -/
theorem Inv.moves [DecidableEq C] (h : Inv s) (hst : s.stack c = some p) (hfree : s.lock = none ∨ s.lock = some c)
    (hproc : s'.proc = s.proc) (hstack : s'.stack = s.stack) (hsched : s'.sched = s.sched)
    (hlock : s'.lock = some c ∧ k.holds ∨ s'.lock = none ∧ ¬ k.holds) (hctl : s'.ctl = update s.ctl p k)
    (hchanges : ∀ q, q ≠ p → Changes s s' p q) (hexec : k.executes (s'.table p).state) (hcalls : k.Calls) (hcode : k.code = .user ∨
      (k.code = (s.ctl p).code ∧ ∀ q, q ≠ p → (s'.table q).state = (s.table q).state)) : Inv s' := by
  have hnp : ∀ np, (s.ctl p).code.making = some np → np ≠ p := fun np hmk heq =>
    (h.executes hst).2.2.live.2 (h.making p p (heq ▸ hmk))
  have hothers : ∀ q, q ≠ p → s'.ctl q = s.ctl q := fun q hq => by rw [hctl, update_of_ne hq]
  refine Moves.inv h (c := c) (p := p) (k := k) ⟨hst, hfree, hproc, hstack, hsched, hlock, ?_,
    fun q hq => .inl (hothers q hq), hchanges, hexec, hcalls, fun np hmk => ?_, fun np hmk => ?_⟩
  · rw [hctl, update_self]
  · rcases hcode with huser | ⟨hsame, hstate⟩
    · rw [huser] at hmk
      cases hmk
    · rw [hsame] at hmk
      exact ⟨(hstate np (hnp np hmk)).trans (h.making p np hmk), .inl hmk⟩
  · rcases hcode with huser | ⟨hsame, -⟩
    · rw [huser] at hmk
      cases hmk
    · rw [hsame] at hmk
      rw [hothers np (hnp np (making_of_made hmk))]
      exact h.made p np hmk

theorem Inv.holds_of_stack (h : Inv s) (hst : s.stack c = some p) (hk : (s.ctl p).holds) : s.lock = some c := by
  refine (h.lock c).2 ?_
  unfold St.Holds
  simp only [hst]
  exact hk

theorem Inv.holds_of_sched (h : Inv s) (hst : s.stack c = none) (hsch : (s.sched c).holds) : s.lock = some c := by
  refine (h.lock c).2 ?_
  unfold St.Holds
  simp only [hst]
  exact hsch

/-- what a scheduler has in hand -/
theorem Inv.cpu_of_sched (h : Inv s) (hst : s.stack c = none) :
    match s.sched c with
    | .idle | .scan _ => s.proc c = none
    | .pick p => s.proc c = some p ∧ (s.table p).state = .running ∧ (s.ctl p).isOff
    | .back p => s.proc c = some p ∧ (s.ctl p).waits (s.table p).state
    | .away _ => False := by
  have hcpu := h.cpu c
  unfold St.CpuOk at hcpu
  simp only [hst] at hcpu
  exact hcpu

section

variable {initproc : Slot} {t : Table} {why : Why} {code : Code}

/-- a scheduler takes the lock, goes on to the next entry, or releases the lock -/
theorem Inv.scan [DecidableEq C] (h : Inv s) {n : ℕ} {sch : Sched} {l : Option C} (hst : s.stack c = none) (hsch : s.sched c = .scan n)
    (hnew : sch = .idle ∧ l = none ∨ (∃ n, sch = .scan n) ∧ l = some c) :
    Inv { s with lock := l, sched := update s.sched c sch } := by
  have hcpu := h.cpu_of_sched hst
  simp only [hsch] at hcpu
  refine h.spin hst hcpu (.inr (h.holds_of_sched hst ?_)) hnew
  rw [hsch]
  trivial

/-- a RUNNABLE entry is nobody's while a scheduler scans the table -/
theorem Inv.pick [DecidableEq C] (h : Inv s) (hst : s.stack c = none) (hsch : s.sched c = .scan p.val)
    (hstate : (s.table p).state = .runnable) :
    Inv { s with
      proc := update s.proc c (some p)
      table := s.table.setState p .running
      sched := update s.sched c (.pick p) } := by
  have hlock : s.lock = some c := h.holds_of_sched hst (by rw [hsch]; trivial)
  have hmine := h.cpu_of_sched hst
  simp only [hsch] at hmine
  have hnobody : ∀ c', s.proc c' ≠ some p := by
    intro c' hc'
    by_cases hne : c' = c
    · rw [hne, hmine] at hc'
      cases hc'
    · rw [h.running_of_proc (h.others (.inr hlock) hne) hc'] at hstate
      cases hstate
  have hwaits := h.waits p hnobody (by rw [hstate]; decide) (by rw [hstate]; decide)
  have hself : (s.table.setState p .running p).state = .running := by
    unfold Table.setState
    rw [update_self]
  refine Turns.inv h (c := c) (p := p) ⟨.inr hlock, ⟨hlock, ?_⟩, fun c' hne => ?_, ?_, fun q hq => ?_, fun q hq => ?_,
    fun c' _ => hnobody c', fun q hq => ?_, rfl, ⟨?_, ?_⟩, fun _ => update_self .., fun hne => ?_, h.calls p⟩
  · unfold St.Holds
    simp only [hst, update_self]
    trivial
  · exact ⟨rfl, update_of_ne hne .., update_of_ne hne ..⟩
  · unfold St.CpuOk
    simp only [hst, update_self]
    exact ⟨trivial, hself, hwaits.isOff⟩
  · simp only [update_self] at hq
    exact (Option.some.inj hq).symm
  · rw [hmine] at hq
    cases hq
  · refine ⟨rfl, ?_⟩
    unfold Table.setState
    simp only [update_of_ne hq]
  · rw [hstate]
    decide
  · simp only [hself]
    decide
  · simp only [update_self] at hne
    exact absurd rfl hne

theorem Inv.swtch [DecidableEq C] (h : Inv s) (hst : s.stack c = none) (hsch : s.sched c = .pick p) (hctl : s.ctl p = .off why code) :
    Inv { s with
      stack := update s.stack c (some p)
      sched := update s.sched c (.away p)
      ctl := update s.ctl p (.back why code) } := by
  have hlock : s.lock = some c := h.holds_of_sched hst (by rw [hsch]; trivial)
  have hmine := h.cpu_of_sched hst
  simp only [hsch] at hmine
  obtain ⟨hproc, hrun, -⟩ := hmine
  have halone : ∀ c', c' ≠ c → s.proc c' ≠ some p := fun c' hne hc' => hne (h.inj c' c p hc' hproc)
  have hlive : (s.table p).state ≠ .unused ∧ (s.table p).state ≠ .embryo := h.proc_live hproc
  refine Turns.inv h (c := c) (p := p) ⟨.inr hlock, ⟨hlock, ?_⟩, fun c' hne => ?_, ?_, fun q hq => ?_, fun q hq => ?_,
    halone, fun q hq => ⟨update_of_ne hq .., rfl⟩, ?_, ⟨hlive, hlive⟩, fun _ => hproc,
    fun hne => absurd hproc hne, ?_⟩
  · unfold St.Holds
    simp only [update_self]
    trivial
  · exact ⟨update_of_ne hne .., update_of_ne hne .., rfl⟩
  · unfold St.CpuOk
    simp only [update_self]
    exact ⟨trivial, hproc, hrun⟩
  · exact Option.some.inj (hq.symm.trans hproc)
  · exact Option.some.inj (hq.symm.trans hproc)
  · simp only [update_self, hctl]
    rfl
  · have hcalls := h.calls p
    rw [hctl] at hcalls
    simp only [update_self]
    exact hcalls

theorem Inv.returned [DecidableEq C] (h : Inv s) (hst : s.stack c = none) (hsch : s.sched c = .back p) :
    Inv { s with proc := update s.proc c none, sched := update s.sched c (.scan (p.val + 1)) } := by
  have hlock : s.lock = some c := h.holds_of_sched hst (by rw [hsch]; trivial)
  have hmine := h.cpu_of_sched hst
  simp only [hsch] at hmine
  obtain ⟨hproc, hwaits⟩ := hmine
  have hlive := hwaits.live
  have halone : ∀ c', c' ≠ c → s.proc c' ≠ some p := fun c' hne hc' => hne (h.inj c' c p hc' hproc)
  refine Turns.inv h (c := c) (p := p) ⟨.inr hlock, ⟨hlock, ?_⟩, fun c' hne => ?_, ?_, fun q hq => ?_, fun q hq => ?_,
    halone, fun q hq => ⟨rfl, rfl⟩, rfl, ⟨⟨hlive.1, hlive.2.1⟩, hlive.1, hlive.2.1⟩, fun hrun => absurd hrun hlive.2.2,
    fun _ => hwaits, h.calls p⟩
  · unfold St.Holds
    simp only [hst, update_self]
    trivial
  · exact ⟨rfl, update_of_ne hne .., update_of_ne hne ..⟩
  · unfold St.CpuOk
    simp only [hst, update_self]
  · simp only [update_self] at hq
    cases hq
  · rw [hproc] at hq
    exact (Option.some.inj hq).symm

theorem Inv.leave [DecidableEq C] (h : Inv s) (hst : s.stack c = some p) (hctl : s.ctl p = .leave why code) :
    Inv { s with
      stack := update s.stack c none
      sched := update s.sched c (.back p)
      ctl := update s.ctl p (.off why code) } := by
  have hlock : s.lock = some c := h.holds_of_stack hst (by rw [hctl]; trivial)
  obtain ⟨-, hproc, hexec⟩ := h.executes hst
  have hlive := hexec.live
  have hcalls := h.calls p
  rw [hctl] at hexec hcalls
  have hwaits : (Ctl.off why code).waits (s.table p).state := ⟨Why.fits_of_sets hexec, hcalls⟩
  have halone : ∀ c', c' ≠ c → s.proc c' ≠ some p := fun c' hne hc' => hne (h.inj c' c p hc' hproc)
  refine Turns.inv h (c := c) (p := p) ⟨.inr hlock, ⟨hlock, ?_⟩, fun c' hne => ?_, ?_, fun q hq => ?_, fun q hq => ?_,
    halone, fun q hq => ⟨update_of_ne hq .., rfl⟩, ?_, ⟨hlive, hlive⟩, fun _ => hproc,
    fun hne => absurd hproc hne, ?_⟩
  · unfold St.Holds
    simp only [update_self]
    trivial
  · exact ⟨update_of_ne hne .., update_of_ne hne .., rfl⟩
  · unfold St.CpuOk
    simp only [update_self]
    exact ⟨hproc, hwaits⟩
  · exact Option.some.inj (hq.symm.trans hproc)
  · exact Option.some.inj (hq.symm.trans hproc)
  · simp only [update_self, hctl]
    rfl
  · simp only [update_self]
    exact hcalls

/-- the CPU of a process at the head of the loop of `wait` has the lock, or takes it -/
theorem Inv.atWait (h : Inv s) (hat : AtWait s c p t) : s.stack c = some p ∧ (s.lock = none ∨ s.lock = some c) ∧
    (s.table p).state = .running ∧ (s.ctl p).code = .user ∧ ∀ q, (t q).state = (s.table q).state := by
  obtain ⟨hst, hcase⟩ := hat
  obtain ⟨-, -, hexec⟩ := h.executes hst
  rcases hcase with ⟨hctl, hlock, rfl⟩ | ⟨code, hctl, rfl⟩
  · rw [hctl] at hexec
    exact ⟨hst, .inl hlock, hexec, congrArg Ctl.code hctl, fun q => rfl⟩
  · have hcalls := h.calls p
    rw [hctl] at hexec hcalls
    refine ⟨hst, .inr (h.holds_of_stack hst (by rw [hctl]; trivial)), hexec, ?_, fun q => ?_⟩
    · rw [hctl]
      exact hcalls (by decide)
    · by_cases hq : q = p
      · rw [hq, update_self]
      · rw [update_of_ne hq]

/-- nobody makes himself -/
theorem Inv.ne_of_making (h : Inv s) (hst : s.stack c = some p) (hmk : (s.ctl p).code.making = some np) : np ≠ p :=
  fun heq => (h.executes hst).2.2.live.2 (heq ▸ h.making p np hmk)

theorem Inv.kstack (h : Inv s) {thread : Bool} (hst : s.stack c = some p) (hctl : s.ctl p = .run (.kstack np thread)) :
    Inv { s with
      table := update s.table np { s.table np with kstack := true }
      ctl := update (update s.ctl np (.off .forkret .user)) p
        (.run (if thread then .parent np else .copyuvm np)) } := by
  have hmk : (s.ctl p).code.making = some np := by rw [hctl]; rfl
  have hnp := h.ne_of_making hst hmk
  have hnew : update (update s.ctl np (.off .forkret .user)) p
      (.run (if thread then .parent np else .copyuvm np)) np = .off .forkret .user := by
    rw [update_of_ne hnp, update_self]
  have hcode : (if thread then Code.parent np else .copyuvm np).making = some np ∧
      (if thread then Code.parent np else .copyuvm np).made = some np := by
    split <;> exact ⟨rfl, rfl⟩
  refine Makes.inv h (p := p) ⟨hst, hctl, rfl, rfl, rfl, rfl, rfl, update_self .., fun q hq hqnp => ?_, .inr hnew,
    fun q hq => ?_, .inl ⟨?_, hcode.1⟩, fun q hq => ?_⟩
  · exact (update_of_ne hq ..).trans (update_of_ne hqnp ..)
  · simp only [update_of_ne hq]
  · simp only [update_self]
    exact h.making p np hmk
  · rw [hcode.2] at hq
    rw [← Option.some.inj hq]
    exact hnew

theorem Inv.fail (h : Inv s) (hst : s.stack c = some p) (hctl : s.ctl p = .run code)
    (hcode : code = .copyuvm np ∨ ∃ thread, code = .kstack np thread) : Inv (s.fail p np) := by
  have hmaking : code.making = some np := by
    rcases hcode with rfl | ⟨thread, rfl⟩ <;> rfl
  have hnp : np ≠ p := h.ne_of_making hst (by rw [hctl]; exact hmaking)
  unfold St.fail
  refine Makes.inv h (p := p) (e := .user) ⟨hst, hctl, hmaking, rfl, rfl, rfl, rfl, update_self ..,
    fun q hq _ => update_of_ne hq .., .inl (update_of_ne hnp ..), fun q hq => ?_, .inr ⟨?_, rfl⟩,
    fun q hq => ?_⟩
  · simp only [update_of_ne hq]
  · simp only [update_self]
  · cases hq

theorem Inv.found (h : Inv s) {thread : Bool} (hst : s.stack c = some p) (hctl : s.ctl p = .run .user)
    (hlock : s.lock = none) (hstate : (s.table np).state = .unused) : Inv { s with
      table := update s.table np { s.table np with state := .embryo, pid := s.nextpid }
      nextpid := int32 (s.nextpid + 1)
      ctl := update s.ctl p (.run (.kstack np thread))
      gen := update s.gen np (s.gen np + 1)
      asked := update s.asked np false } := by
  have hexec := (h.executes hst).2.2
  have hnp : p ≠ np := fun heq => hexec.live.1 (heq ▸ hstate)
  rw [hctl] at hexec
  refine Moves.inv h (c := c) (p := p) (k := .run (.kstack np thread)) ⟨hst, .inl hlock, rfl, rfl, rfl, .inr ⟨hlock, id⟩,
    update_self .., fun q hq => .inl (update_of_ne hq ..), fun q hq => ?_, ?_, trivial, fun y hy => ?_,
    fun y hy => ?_⟩
  · by_cases hqnp : q = np
    · rw [hqnp]
      refine .inr (.inr (.inr (.inl ⟨hstate, ?_⟩)))
      simp only [update_self]
    · refine .inl ?_
      simp only [update_of_ne hqnp]
  · simp only [update_of_ne hnp]
    exact hexec
  · rw [← Option.some.inj hy]
    refine ⟨?_, .inr hstate⟩
    simp only [update_self]
  · cases hy

/-- **Every step keeps the invariant.** -/
theorem Does.inv [DecidableEq C] (h : Inv s) {op : Op C} (hd : Does initproc s op s') : Inv s' := by
  cases hd with
  | nothing => exact h
  | acquire c hst hsch hlock =>
    have hcpu := h.cpu_of_sched hst
    simp only [hsch] at hcpu
    exact h.spin hst hcpu (.inl hlock) (.inr ⟨⟨0, rfl⟩, rfl⟩)
  | next c n hst hsch =>
    have hlock : s.lock = some c := h.holds_of_sched hst (by rw [hsch]; trivial)
    have hinv := h.scan hst hsch (.inr ⟨⟨n + 1, rfl⟩, hlock⟩)
    exact hinv
  | release c n hst hsch => exact h.scan hst hsch (.inl ⟨rfl, rfl⟩)
  | pick c p hst hsch hstate => exact h.pick hst hsch hstate
  | swtch c p why code hst hsch hctl => exact h.swtch hst hsch hctl
  | returned c p hst hsch => exact h.returned hst hsch
  | leave c p why code hst hctl => exact h.leave hst hctl
  | resume c p why code hst hctl =>
    have hexec := (h.executes hst).2.2
    have hlock : s.lock = some c := h.holds_of_stack hst (by rw [hctl]; trivial)
    rw [hctl] at hexec
    exact h.moves hst (.inr hlock) rfl rfl rfl (.inr ⟨rfl, id⟩) rfl (fun q _ => .inl rfl) hexec trivial
      (.inr ⟨by rw [hctl]; rfl, fun q _ => rfl⟩)
  | awoken c p code hst hctl =>
    have hexec := (h.executes hst).2.2
    have hlock : s.lock = some c := h.holds_of_stack hst (by rw [hctl]; trivial)
    rw [hctl] at hexec
    have hsame : ∀ q, q ≠ p → (update s.table p { s.table p with chan := none } q).state = (s.table q).state :=
      fun q hq => by rw [update_of_ne hq]
    refine h.moves hst (.inr hlock) rfl rfl rfl (.inr ⟨rfl, id⟩) rfl (fun q hq => .inl (hsame q hq)) ?_ trivial
      (.inr ⟨by rw [hctl]; rfl, hsame⟩)
    simp only [update_self]
    exact hexec
  | kstack c p np thread hst hctl => exact h.kstack hst hctl
  | fail c p np code hst hctl hcode => exact h.fail hst hctl hcode
  | copied c p np hst hctl =>
    have hmk : (s.ctl p).code.made = some np := by rw [hctl]; rfl
    have hnp := h.ne_of_making hst (making_of_made hmk)
    unfold St.setCtl
    refine Makes.inv h (d := .copyuvm np) (p := p) ⟨hst, hctl, rfl, rfl, rfl, rfl, rfl, update_self ..,
      fun q hq _ => update_of_ne hq .., .inl (update_of_ne hnp ..), fun q _ => rfl,
      .inl ⟨h.making p np (making_of_made hmk), rfl⟩, fun q hq => ?_⟩
    rw [← Option.some.inj hq]
    exact (update_of_ne hnp ..).trans (h.made p np hmk)
  | parent c p np hst hctl =>
    have hmk : (s.ctl p).code.made = some np := by rw [hctl]; rfl
    have hnp := h.ne_of_making hst (making_of_made hmk)
    refine Makes.inv h (d := .parent np) (p := p) ⟨hst, hctl, rfl, rfl, rfl, rfl, rfl, update_self ..,
      fun q hq _ => update_of_ne hq .., .inl (update_of_ne hnp ..), fun q hq => ?_, .inl ⟨?_, rfl⟩,
      fun q hq => ?_⟩
    · simp only [update_of_ne hq]
    · simp only [update_self]
      exact h.making p np (making_of_made hmk)
    · rw [← Option.some.inj hq]
      exact (update_of_ne hnp ..).trans (h.made p np hmk)
  | ready c p np hst hctl hlock =>
    have hmk : (s.ctl p).code.made = some np := by rw [hctl]; rfl
    have hexec := (h.executes hst).2.2
    have hnp : p ≠ np := fun heq => hexec.live.2 (heq ▸ h.making p np (making_of_made hmk))
    rw [hctl] at hexec
    unfold Table.setState
    refine h.moves hst (.inl hlock) rfl rfl rfl (.inr ⟨hlock, id⟩) rfl (fun q hq => ?_) ?_ trivial (.inl rfl)
    · by_cases hqnp : q = np
      · rw [hqnp]
        refine .inr (.inr (.inr (.inr (.inr ⟨hmk, ?_⟩))))
        simp only [update_self]
      · refine .inl ?_
        simp only [update_of_ne hqnp]
    · simp only [update_of_ne hnp]
      exact hexec
  | reap c p q t hat hz =>
    obtain ⟨hst, hfree, hrun, -, hstate⟩ := h.atWait hat
    have hq := (Table.zombieChild_some hz).2
    have hqp : p ≠ q := fun heq => by
      rw [← heq, hstate, hrun] at hq
      cases hq
    unfold Table.reap
    refine h.moves hst hfree rfl rfl rfl (.inr ⟨rfl, id⟩) rfl (fun y hy => ?_) ?_ trivial (.inl rfl)
    · by_cases hyq : y = q
      · rw [hyq]
        refine .inr (.inr (.inl ⟨(hstate q).symm.trans hq, ?_⟩))
        simp only [update_self]
      · refine .inl ?_
        simp only [update_of_ne hyq, hstate]
    · simp only [update_of_ne hqp]
      exact (hstate p).trans hrun
  | noChild c p t hat =>
    obtain ⟨hst, hfree, hrun, -, hstate⟩ := h.atWait hat
    exact h.moves hst hfree rfl rfl rfl (.inr ⟨rfl, id⟩) rfl (fun y _ => .inl (hstate y)) ((hstate p).trans hrun) trivial
      (.inl rfl)
  | await c p t hat hz =>
    obtain ⟨hst, hfree, hrun, -, hstate⟩ := h.atWait hat
    refine h.moves (k := .leave .wait .user) hst hfree rfl rfl rfl (.inl ⟨rfl, trivial⟩) rfl (fun y hy => .inl ?_) ?_ (fun _ => rfl) (.inl rfl)
    · simp only [update_of_ne hy, hstate]
    · simp only [update_self]
      rfl
  | yield c p code hst hctl hlock =>
    have hsame : ∀ q, q ≠ p → (s.table.setState p .runnable q).state = (s.table q).state := fun q hq => by
      unfold Table.setState
      rw [update_of_ne hq]
    refine h.moves (k := .leave .yield code) hst (.inl hlock) rfl rfl rfl (.inl ⟨rfl, trivial⟩) rfl (fun q hq => .inl (hsame q hq)) ?_
      (fun hne => absurd rfl hne) (.inr ⟨by rw [hctl]; rfl, hsame⟩)
    unfold Table.setState
    simp only [update_self]
    rfl
  | sleep c p a hst hctl hlock =>
    refine h.moves (k := .leave .sleep .user) hst (.inl hlock) rfl rfl rfl (.inl ⟨rfl, trivial⟩) rfl (fun q hq => .inl ?_) ?_
      (fun _ => rfl) (.inl rfl)
    · simp only [update_of_ne hq]
    · simp only [update_self]
      rfl
  | kill c p pid hst hctl hlock =>
    refine h.wakes rfl rfl rfl rfl rfl fun q => ?_
    rcases Table.kill_state s.table pid q with heq | hwoken
    · exact .inl heq
    · exact .inr ⟨hlock, hwoken⟩
  | exit c p hst hctl hlock hne =>
    have hself : (s.table.exit initproc p p).state = .zombie := by rw [Table.exit_self]
    refine h.moves (k := .leave .exit .user) hst (.inl hlock) rfl rfl rfl (.inl ⟨rfl, trivial⟩) rfl (fun q hq => ?_) hself
      (fun _ => rfl) (.inl rfl)
    rcases Table.exit_other initproc p s.table q hq with heq | ⟨hsl, heq⟩
    · have hstate := congrArg Proc.state heq
      exact .inl hstate
    · have hstate := congrArg Proc.state heq
      exact .inr (.inl ⟨hsl, hstate⟩)
  | found c p np thread hst hctl hlock hstate => exact h.found hst hctl hlock hstate
  | trap c p hst hctl =>
    refine h.wakes rfl rfl rfl rfl rfl fun q => .inl ?_
    by_cases hq : q = p
    · rw [hq]
      simp only [update_self]
    · simp only [update_of_ne hq]
  | wakeup chan hlock =>
    refine h.wakes rfl rfl rfl rfl rfl fun q => ?_
    rcases Table.awake_wakeup1 s.table chan q with heq | ⟨hsl, heq⟩
    · exact .inl (congrArg Proc.state heq)
    · exact .inr ⟨hlock, hsl, congrArg Proc.state heq⟩

theorem step_inv [DecidableEq C] (h : Inv s) (op : Op C) : Inv (step initproc s op) := (step_does initproc s op).inv h

theorem start_inv (C : Type) (initproc : Slot) : Inv (start C initproc) := by
  refine ⟨fun c => iff_of_false nofun id, fun c => rfl, fun _ _ _ => nofun, fun p hp => ?_, fun p _ hun _ => ?_,
    fun p _ => ⟨trivial, rfl⟩, fun _ _ => nofun, fun _ _ => nofun, fun _ _ _ => nofun, fun p _ => rfl⟩
  · unfold start at hp
    dsimp only at hp
    split at hp <;> cases hp
  · unfold start at hun ⊢
    dsimp only at hun ⊢
    split at hun
    · rename_i hp
      rw [if_pos hp]
      exact ⟨rfl, fun _ => rfl⟩
    · exact absurd rfl hun

theorem run_inv_start [DecidableEq C] (initproc : Slot) (ops : List (Op C)) :
    Inv (run (step initproc) (start C initproc) ops) :=
  run_inv (I := Inv) (fun _ op h => step_inv h op) (start C initproc) (start_inv C initproc) ops

/-- what `wait` returns is a zombie that no CPU has in hand; its stack is freed -/
theorem Does.reaps [DecidableEq C] (h : Inv s) {op : Op C} (hd : Does initproc s op s') {r : Reap} (hr : s'.reaped = r :: s.reaped) :
    (s'.table r.child).kstack = false ∧ ∀ c, s.stack c ≠ some r.child := by
  have hself : ∀ l : List Reap, l ≠ r :: l := fun l heq => by
    have hlen := congrArg List.length heq
    simp at hlen
  cases hd with
  | reap c' p q t hat hz =>
    obtain ⟨hst, hfree, hrun, -, hstate⟩ := h.atWait hat
    have hq := (Table.zombieChild_some hz).2
    rw [hstate] at hq
    have hchild : r.child = q := congrArg Reap.child (List.cons.inj hr).1.symm
    rw [hchild]
    unfold Table.reap
    refine ⟨by simp only [update_self], fun c hc => ?_⟩
    have hqrun : (s.table q).state = .running := by
      by_cases hne : c = c'
      · rw [hne, hst] at hc
        rw [← Option.some.inj hc]
        exact hrun
      · exact h.running_of_proc (h.others hfree hne) (h.executes hc).2.1
    rw [hqrun] at hq
    cases hq
  | _ => exact absurd hr (hself _)

/-- **The scheduling invariant.** For any number of CPUs and any interleaving: while the lock is free each RUNNING entry is the
`c->proc` of exactly one CPU and each `c->proc` is RUNNING; a step in which `wait` returns a child, and frees its stack, is
made while no CPU executes on that stack. -/
theorem sched_invariant {C : Type} [DecidableEq C] (initproc : Slot) (ops : List (Op C)) :
    ((run (step initproc) (start C initproc) ops).lock = none →
      (∀ p, ((run (step initproc) (start C initproc) ops).table p).state = .running →
        ∃! c, (run (step initproc) (start C initproc) ops).proc c = some p) ∧
      ∀ c p, (run (step initproc) (start C initproc) ops).proc c = some p →
        ((run (step initproc) (start C initproc) ops).table p).state = .running) ∧
    ∀ op r, (run (step initproc) (start C initproc) (ops ++ [op])).reaped =
        r :: (run (step initproc) (start C initproc) ops).reaped →
      ((run (step initproc) (start C initproc) (ops ++ [op])).table r.child).kstack = false ∧
      ∀ c, (run (step initproc) (start C initproc) ops).stack c ≠ some r.child := by
  have hinv := run_inv_start initproc ops
  refine ⟨fun hlock => ?_, fun op r hr => ?_⟩
  · have hnot : ∀ c, ¬ (run (step initproc) (start C initproc) ops).Holds c := fun c hholds => by
      have hl := (hinv.lock c).2 hholds
      rw [hlock] at hl
      cases hl
    refine ⟨fun p hp => ?_, fun c p hp => hinv.running_of_proc (hnot c) hp⟩
    obtain ⟨c, hc⟩ := hinv.running p hp
    exact ⟨c, hc, fun c' hc' => hinv.inj c' c p hc' hc⟩
  · rw [run_snoc] at hr ⊢
    exact (step_does initproc _ op).reaps hinv hr

/-- **One CPU on a stack.** In every state, between the switches too, at most one CPU executes on a kernel stack and at most one is in
code that holds `ptable.lock`. -/
theorem stacks_apart {C : Type} [DecidableEq C] (initproc : Slot) (ops : List (Op C)) :
    (∀ p, {c | (run (step initproc) (start C initproc) ops).stack c = some p}.Subsingleton) ∧
    {c | (run (step initproc) (start C initproc) ops).Holds c}.Subsingleton := by
  have h := run_inv_start initproc ops
  refine ⟨fun p c hc c' hc' => h.inj c c' p (h.executes hc).2.1 (h.executes hc').2.1, fun c hc c' hc' => ?_⟩
  have hlock := (h.lock c).2 hc
  rw [(h.lock c').2 hc'] at hlock
  exact (Option.some.inj hlock).symm

/-- two CPUs: the first one runs init, which makes a child; the second one runs the child, which exits; init waits -/
def familyOps : List (Op Bool) :=
  [.go true true, .go true true, .go true true, .go true true,
    .call true (.fork (some 1)), .go true true, .go true true, .go true true, .go true true,
    .go false true, .go false true, .go false true, .go false true, .go false true,
    .call false .exit, .go false true, .go false true] ++ List.replicate 63 (.go false true)

/-- at its start init is executed by the first CPU, at its end `wait` frees a stack that nobody executes on -/
theorem sched_invariant_family :
    (∃! c, (run (step 0) (start Bool 0) (familyOps.take 4)).proc c = some 0) ∧
      ∀ c, (run (step 0) (start Bool 0) familyOps).stack c ≠ some 1 := by
  refine ⟨((sched_invariant 0 (familyOps.take 4)).1 (by decide +kernel)).1 0 (by decide +kernel), ?_⟩
  have hreap : (run (step 0) (start Bool 0) (familyOps ++ [.call true .wait])).reaped =
      ⟨0, 1, 1, some 0⟩ :: (run (step 0) (start Bool 0) familyOps).reaped := by decide +kernel
  exact ((sched_invariant 0 familyOps).2 _ _ hreap).2

end

end Xv6.Ptable
