/-
Sleep-locks (`sleeplock.c`). A process that finds the lock taken sleeps on it; `releasesleep` wakes everybody who does. Both
work under the spin-lock `lk->lk` of the sleep-lock, as a monitor with one channel.

Any number of processes call `acquiresleep` on one sleep-lock, and `releasesleep` when they have it.
-/
import Xv6.Core.Monitor

namespace Xv6.SleepLock

open Xv6.Core Xv6.Core.Monitor

/-! ## Model -/

/-- `struct sleeplock` without the spin-lock -/
structure Sleeplock where
  locked : Bool
  pid : ℤ

/-- where a process is -/
inductive Loc
  | idle
  /-- at the loop of `acquiresleep` -/
  | test
  /-- has set `locked` -/
  | taken
  /-- `acquiresleep` has returned -/
  | held
  /-- at the beginning of `releasesleep` -/
  | clear
  | wake
  | cleared
  deriving DecidableEq

inductive Call
  | acquiresleep
  | releasesleep

variable {ι : Type}

/-- the sections of `acquiresleep` and `releasesleep` -/
def sec (pid : ι → ℤ) (i : ι) (_ : Bool) (lk : Sleeplock) : Loc → Sleeplock × Act Unit Loc
  | .test => if lk.locked = true then (lk, .sleep () .test) else (⟨true, pid i⟩, .go .taken)
  | .taken => (lk, .release .held)
  | .clear => (⟨false, 0⟩, .go .wake)
  | .wake => (lk, .wakeup () .cleared)
  | .cleared => (lk, .release .idle)
  | l => (lk, .go l)

def call : Loc → Call → Option Loc
  | .idle, .acquiresleep => some .test
  | .held, .releasesleep => some .clear
  | _, _ => none

def prog (pid : ι → ℤ) : Prog ι Unit Sleeplock Loc Call Empty where
  sec := sec pid
  call _ := call
  env e := e.elim

/-- after `initsleeplock` -/
def init : St ι Unit Sleeplock Loc := Monitor.start ⟨false, 0⟩ fun _ => .idle

/-- `r` of `holdingsleep` -/
def holdingsleep (lk : Sleeplock) (pid : ℤ) : Bool := lk.locked && lk.pid == pid

/-! ## Who has the lock -/

/-- has the lock -/
def Loc.Has : Loc → Prop
  | .taken | .held | .clear => True
  | _ => False

/-- `locked` says whether somebody has the lock, and `pid` whose it is -/
structure Inv (pid : ι → ℤ) (lk : Sleeplock) (loc : ι → Loc) : Prop where
  count : Counted Loc.Has (if lk.locked = true then 1 else 0) loc
  pid : ∀ i, (loc i).Has → lk.pid = pid i

variable {pid : ι → ℤ} {lk : Sleeplock} {loc loc' : ι → Loc} {s : St ι Unit Sleeplock Loc} {i j : ι} {l : Loc}

theorem Inv.locked (h : Inv pid lk loc) (hi : (loc i).Has) : lk.locked = true := by
  have hpos := h.count.pos hi
  by_contra hnot
  rw [if_neg hnot] at hpos
  exact absurd hpos (lt_irrefl 0)

theorem Inv.unique (h : Inv pid lk loc) (hi : (loc i).Has) (hj : (loc j).Has) : i = j := by
  refine h.count.unique ?_ hi hj
  split
  · exact le_refl 1
  · exact zero_le_one

/-- a process moves and neither takes the lock nor gives it back -/
theorem Inv.stay [DecidableEq ι] (h : Inv pid lk loc) (hl : l.Has ↔ (loc i).Has) : Inv pid lk (update loc i l) := by
  refine ⟨h.count.stay hl, fun j hj => h.pid j ?_⟩
  by_cases hji : j = i
  · subst hji
    rw [update_self] at hj
    exact hl.1 hj
  · rw [update_of_ne hji] at hj
    exact hj

/-- a free lock is taken -/
theorem Inv.take [DecidableEq ι] (h : Inv pid lk loc) (hfree : ¬ lk.locked = true) (hi : ¬ (loc i).Has) :
    Inv pid ⟨true, pid i⟩ (update loc i .taken) := by
  have hcount := h.count
  rw [if_neg hfree] at hcount
  refine ⟨hcount.enter hi trivial, fun j hj => ?_⟩
  by_cases hji : j = i
  · rw [hji]
  · rw [update_of_ne hji] at hj
    exact absurd (h.locked hj) hfree

/-- whoever has the lock gives it back -/
theorem Inv.give [DecidableEq ι] (h : Inv pid lk loc) (hi : (loc i).Has) (hl : ¬ l.Has) : Inv pid ⟨false, 0⟩ (update loc i l) := by
  have hcount := h.count
  rw [if_pos (h.locked hi)] at hcount
  refine ⟨hcount.leave hi hl, fun j hj => ?_⟩
  by_cases hji : j = i
  · subst hji
    rw [update_self] at hj
    exact absurd hj hl
  · rw [update_of_ne hji] at hj
    exact absurd (h.unique hj hi) hji

theorem sec_inv [DecidableEq ι] (h : Inv pid lk loc) (k : Bool) (hl : loc i = l) :
    Inv pid (sec pid i k lk l).1 (update loc i (sec pid i k lk l).2.loc) := by
  cases l with
  | test =>
    have hnot : ¬ (loc i).Has := by
      rw [hl]
      exact id
    unfold sec
    dsimp only
    split
    · exact h.stay (iff_of_false id hnot)
    · rename_i hfree
      exact h.take hfree hnot
  | clear => exact h.give (by rw [hl]; trivial) id
  | taken => exact h.stay (by rw [hl]; exact iff_of_true trivial trivial)
  | wake => exact h.stay (by rw [hl]; exact Iff.rfl)
  | cleared => exact h.stay (by rw [hl]; exact Iff.rfl)
  | idle => exact h.stay (by rw [hl]; exact Iff.rfl)
  | held => exact h.stay (by rw [hl]; exact Iff.rfl)

theorem call_has {c : Call} {l' : Loc} (h : call l c = some l') : l'.Has ↔ l.Has := by
  cases l with
  | idle =>
    cases c with
    | acquiresleep =>
      cases h
      exact Iff.rfl
    | releasesleep => cases h
  | held =>
    cases c with
    | acquiresleep => cases h
    | releasesleep =>
      cases h
      exact Iff.rfl
  | _ => cases h

/-- the channel is worth waking when the lock is not taken -/
def Ready (_ : Unit) (lk : Sleeplock) : Prop := lk.locked = false

/-- between clearing `locked` and `wakeup` -/
def Owes (l : Loc) (_ : Unit) : Prop := l = .wake

theorem sec_pays (i : ι) (k : Bool) (lk : Sleeplock) (l : Loc) : Pays Ready Owes lk l (sec pid i k lk l).1 (sec pid i k lk l).2 := by
  cases l with
  | test =>
    unfold sec
    dsimp only
    split
    · rename_i htaken
      refine ⟨fun ch hready => .inl ⟨hready, nofun⟩, fun ch l' _ hready => ?_⟩
      exact absurd (htaken.symm.trans hready) (by decide)
    · refine ⟨fun ch hready => ?_, nofun⟩
      cases hready
  | clear => exact ⟨fun ch _ => .inr rfl, nofun⟩
  | wake => exact ⟨fun ch _ => .inr (.inl rfl), nofun⟩
  | taken => exact ⟨fun ch hready => .inl ⟨hready, nofun⟩, nofun⟩
  | cleared => exact ⟨fun ch hready => .inl ⟨hready, nofun⟩, nofun⟩
  | idle => exact ⟨fun ch hready => .inl ⟨hready, nofun⟩, nofun⟩
  | held => exact ⟨fun ch hready => .inl ⟨hready, nofun⟩, nofun⟩

/-- everything that holds in every reachable state -/
structure Good (pid : ι → ℤ) (s : St ι Unit Sleeplock Loc) : Prop where
  locks : Locks s
  inv : Inv pid s.mem s.loc
  owing : Owing Ready Owes s

variable [DecidableEq ι]

theorem step_good (h : Good pid s) (op : Op ι Unit Call Empty) : Good pid (step (prog pid) s op) := by
  have hview := step_view (prog pid) s op
  refine ⟨step_locks h.locks op, hview.keeps h.inv (fun i l _ hpc => ?_) (fun i x l l' _ hpc hcall => ?_) (fun e => e.elim),
    hview.owing h.locks h.owing (fun i l _ _ => sec_pays i (s.killed i) s.mem l) (fun e => e.elim)⟩
  · refine sec_inv h.inv (s.killed i) ?_
    unfold St.loc
    rw [hpc]
    rfl
  · refine h.inv.stay ((call_has hcall).trans ?_)
    unfold St.loc
    rw [hpc]
    rfl

theorem run_good (pid : ι → ℤ) (ops : List (Op ι Unit Call Empty)) : Good pid (run (step (prog pid)) init ops) := by
  refine run_inv (I := Good pid) (fun s op h => step_good h op) init ⟨start_locks _ _, ⟨⟨∅, rfl, fun i => ?_⟩, nofun⟩,
    start_owing⟩ ops
  exact iff_of_false (Finset.notMem_empty i) id

/-- **Sleep-locks.** In every state of any interleaving, at most one process has the sleep-lock, from before `acquiresleep` returns
until `releasesleep` clears it; and while the inner spin-lock is free and the sleep-lock is not taken nobody sleeps on it. -/
theorem sleeplock_correct {ι : Type} [DecidableEq ι] (pid : ι → ℤ) (ops : List (Op ι Unit Call Empty)) :
    (∀ i j, ((run (step (prog pid)) init ops).pc i).loc.Has → ((run (step (prog pid)) init ops).pc j).loc.Has → i = j) ∧
    ((run (step (prog pid)) init ops).lock = none → (run (step (prog pid)) init ops).mem.locked = false →
      ∀ i ch l, (run (step (prog pid)) init ops).pc i ≠ .sleeping ch l) := by
  have hgood := run_good pid ops
  exact ⟨fun i j hi hj => hgood.inv.unique hi hj, fun hlock hfree i ch l hpc => hgood.owing.awake hgood.locks hlock (by rw [hpc]; rfl) hfree⟩

/-- `holdingsleep` tells whether its caller has the lock, if no two processes have one pid -/
theorem holdingsleep_iff (hpid : Function.Injective pid) (ops : List (Op ι Unit Call Empty)) (i : ι) :
    holdingsleep (run (step (prog pid)) init ops).mem (pid i) = true ↔ ((run (step (prog pid)) init ops).pc i).loc.Has := by
  have hinv := (run_good pid ops).inv
  unfold holdingsleep
  rw [Bool.and_eq_true, beq_iff_eq]
  refine ⟨fun ⟨hlocked, heq⟩ => ?_, fun hi => ⟨hinv.locked hi, hinv.pid i hi⟩⟩
  have hcount := hinv.count
  rw [if_pos hlocked] at hcount
  obtain ⟨j, hj⟩ := hcount.exists_of_pos zero_lt_one
  rw [← hpid ((hinv.pid j hj).symm.trans heq)]
  exact hj

/-- process `true` takes the lock, process `false` finds it taken and goes to sleep -/
def contendOps : List (Op Bool Unit Call Empty) :=
  [.call true .acquiresleep, .next true, .next true, .next true,
    .call false .acquiresleep, .next false, .next false, .next false, .next false, .next false]

/-- while `true` has the lock `false` sleeps; when `true` has given it back, and the inner lock is free, nobody does -/
theorem sleeplock_correct_two :
    (run (step (prog fun i : Bool => if i then 1 else 2)) init contendOps).pc false = .sleeping () .test ∧
    (∀ ch l, (run (step (prog fun i : Bool => if i then 1 else 2)) init
      (contendOps ++ [.call true .releasesleep, .next true, .next true, .next true, .next true, .next true, .next true,
        .next true])).pc false ≠ .sleeping ch l) := by
  refine ⟨by decide +kernel, ?_⟩
  exact (sleeplock_correct (fun i : Bool => if i then 1 else 2) _).2 (by decide +kernel) (by decide +kernel) false

theorem holdingsleep_true : holdingsleep (run (step (prog fun i : Bool => if i then 1 else 2)) init contendOps).mem 1 = true ↔
    ((run (step (prog fun i : Bool => if i then 1 else 2)) init contendOps).pc true).loc.Has :=
  holdingsleep_iff (by decide : Function.Injective fun i : Bool => if i then (1 : ℤ) else 2) contendOps true

end Xv6.SleepLock
