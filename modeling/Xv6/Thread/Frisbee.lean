/-
The spin-lock frisbee game, `frisbee.c`, with the spin lock of `libthread.c`.

Each thread loops: it takes the lock; it gives it back and returns if the game is over; if it is its turn it moves
`cur_owner` on, prints the pass and counts it; it gives the lock back. Every load, store and exchange is a step, and so is
every `putc`. The four globals are `int`s; `numthreads` and `numpass` are set before the threads are created.

The lock owns the game while nobody is inside: `Idle` says that the lines of all earlier passes are out and whose turn it
is, and each place inside says how far the pass has got.
-/
import Xv6.Core.SpinLock
import Xv6.Thread.FrisbeeSeq

namespace Xv6.Frisbee

open Xv6.Core Xv6.FrisbeeSeq

/-! ## Model -/

/-- what the lock guards -/
structure Game where
  passes : ℤ
  curOwner : ℤ
  output : List Char

structure Mem where
  /-- `lk->lock` -/
  lock : ℕ
  game : Game

/-- an `int` -/
def int (x : ℤ) : ℤ := x.bmod (2 ^ 32)

/-- the word that holds an `int` -/
def word (x : ℤ) : ℕ := (x % 2 ^ 32).toNat

inductive Pc where
  /-- `while (xchg(&lk->lock, 1) != 0)` -/
  | acquire
  | loadPasses
  | loadOwner
  -- cur_owner++
  | incLoad
  | incStore (val : ℤ)
  -- if(cur_owner >= numthreads) cur_owner = 0
  | testOwner
  | resetOwner
  -- printf and its arguments
  | argOwner
  | argPasses (owner : ℤ)
  | print (rest : List Char)
  -- passes++
  | passLoad
  | passStore (val : ℤ)
  /-- `xchg(&lk->lock, 0)` at the end of the loop -/
  | release
  /-- `xchg(&lk->lock, 0)` before the break -/
  | releaseLast
  | returned
deriving DecidableEq, Repr

/-- the format of `frisbee_task`; it has no `%s` -/
def fmt : List Char := "Pass number: %d, Thread %d is passing the token to thread %d\n".toList

def line (passes tid owner : ℕ) : List Char := Printf.printf (fun _ => []) fmt fun k => [passes, tid, owner].getD k 0

/-- one step of thread `tid` inside the lock -/
def critical (numthreads : ℕ) (numpass : ℤ) (tid : ℕ) (m : Game) : Pc → Game × Pc
  | .loadPasses => (m, if numpass < m.passes then .releaseLast else .loadOwner)
  | .loadOwner => (m, if m.curOwner = tid then .incLoad else .release)
  | .incLoad => (m, .incStore (int (m.curOwner + 1)))
  | .incStore val => ({ m with curOwner := val }, .testOwner)
  | .testOwner => (m, if (numthreads : ℤ) ≤ m.curOwner then .resetOwner else .argOwner)
  | .resetOwner => ({ m with curOwner := 0 }, .argOwner)
  | .argOwner => (m, .argPasses m.curOwner)
  | .argPasses owner => (m, .print (line (word m.passes) tid (word owner)))
  | .print [] => (m, .passLoad)
  | .print (c :: rest) => ({ m with output := m.output ++ [c] }, .print rest)
  | .passLoad => (m, .passStore (int (m.passes + 1)))
  | .passStore val => ({ m with passes := val }, .release)
  | l => (m, l)

/-- one step of thread `tid` -/
def frisbeeTask (numthreads : ℕ) (numpass : ℤ) (tid : Fin numthreads) (m : Mem) : Pc → Mem × Pc
  | .acquire => ({ m with lock := 1 }, if m.lock = 0 then .loadPasses else .acquire)
  | .release => ({ m with lock := 0 }, .acquire)
  | .releaseLast => ({ m with lock := 0 }, .returned)
  | .returned => (m, .returned)
  | l => ({ m with game := (critical numthreads numpass tid m.game l).1 }, (critical numthreads numpass tid m.game l).2)

abbrev St (numthreads : ℕ) := Threads (Fin numthreads) Mem Pc

/-- `passes = 1`, `cur_owner = 0`, `lock_init`; every thread at the top of its loop -/
def init (numthreads : ℕ) : St numthreads := ⟨⟨0, ⟨1, 0, []⟩⟩, fun _ => .acquire⟩

abbrev step (numthreads : ℕ) (numpass : ℤ) (s : St numthreads) (i : Fin numthreads) : St numthreads :=
  Threads.step (frisbeeTask numthreads numpass) s i

/-! ## The invariant -/

/-- between `lock_acquire` and `lock_release` -/
def Pc.Inside : Pc → Prop
  | .acquire | .returned => False
  | _ => True

/-- the passes that are over -/
def Game.over (m : Game) : ℕ := (m.passes - 1).toNat

/-- nobody is passing: all earlier lines are out and the turn is right -/
structure Idle (n : ℕ) (numpass : ℤ) (m : Game) : Prop where
  pos : 1 ≤ m.passes
  le : m.passes ≤ numpass.toNat + 1
  owner : m.curOwner = (m.over % n : ℕ)
  output : m.output = lines line n m.over

/-- thread `tid` has the turn and has printed nothing; `owner` is in `cur_owner` -/
structure Turn (n : ℕ) (numpass : ℤ) (m : Game) (tid : ℕ) (owner : ℤ) : Prop where
  pos : 1 ≤ m.passes
  le : m.passes ≤ numpass
  tid : tid = m.over % n
  owner : m.curOwner = owner
  output : m.output = lines line n m.over

/-- the pass is being printed, with `rest` left -/
structure Passing (n : ℕ) (numpass : ℤ) (m : Game) (rest : List Char) : Prop where
  pos : 1 ≤ m.passes
  le : m.passes ≤ numpass
  owner : m.curOwner = ((m.over + 1) % n : ℕ)
  output : m.output ++ rest = lines line n (m.over + 1)

/-- what holds while thread `tid` is at this point -/
def Pc.Ok (n : ℕ) (numpass : ℤ) (tid : ℕ) (m : Game) : Pc → Prop
  | .loadPasses | .release => Idle n numpass m
  | .releaseLast => Idle n numpass m ∧ numpass < m.passes
  | .loadOwner => Idle n numpass m ∧ m.passes ≤ numpass
  | .incLoad => Turn n numpass m tid tid
  | .incStore val => Turn n numpass m tid tid ∧ val = tid + 1
  | .testOwner => Turn n numpass m tid (tid + 1)
  | .resetOwner => Turn n numpass m tid (tid + 1) ∧ (n : ℤ) ≤ m.curOwner
  | .argOwner => Turn n numpass m tid ((m.over + 1) % n : ℕ)
  | .argPasses owner => Turn n numpass m tid owner ∧ owner = ((m.over + 1) % n : ℕ)
  | .print rest => Passing n numpass m rest
  | .passLoad => Passing n numpass m []
  | .passStore val => Passing n numpass m [] ∧ val = m.passes + 1
  | .acquire | .returned => True

structure Inv (n : ℕ) (numpass : ℤ) (s : St n) : Prop where
  lock : SpinLock Pc.Inside s.mem.lock s.pc
  idle : (∀ i, ¬ (s.pc i).Inside) → Idle n numpass s.mem.game
  ok : ∀ i, (s.pc i).Ok n numpass i s.mem.game
  returned : ∀ i, s.pc i = .returned → numpass < s.mem.game.passes

theorem inv_init (n : ℕ) (numpass : ℤ) : Inv n numpass (init n) where
  lock := ⟨fun _ _ h => h, fun _ _ h => h.elim⟩
  idle _ := ⟨le_rfl, by simp [init], by simp [init, Game.over], by simp [init, Game.over, lines]⟩
  ok _ := trivial
  returned _ h := by cases h

section Steps

variable {n : ℕ} {numpass : ℤ} {s : St n} {i : Fin n} {m m' : Game} {tid : ℕ} {l : Pc}

theorem Pc.Ok.of_outside (h : ¬ l.Inside) (tid : ℕ) (m : Game) : l.Ok n numpass tid m := by
  cases l <;> first | trivial | exact (h trivial).elim

/-- a step of the thread inside; it leaves by clearing the lock, when the game is idle -/
theorem Inv.inside (h : Inv n numpass s) (hi : (s.pc i).Inside) {lock : ℕ} (hlock : lock = s.mem.lock ∨ ¬ l.Inside)
    (hok : l.Ok n numpass i m) (hidle : ¬ l.Inside → Idle n numpass m) (hmono : s.mem.game.passes ≤ m.passes)
    (hret : l = .returned → numpass < m.passes) : Inv n numpass ⟨⟨lock, m⟩, Function.update s.pc i l⟩ := by
  refine ⟨h.lock.inside hi hlock, fun hno => hidle (by simpa using hno i), fun j => ?_, fun j hj => ?_⟩
  · by_cases hji : j = i
    · subst hji
      simpa using hok
    · have hout : ¬ (s.pc j).Inside := fun hj => hji (h.lock.unique j i hj hi)
      simpa [hji] using Pc.Ok.of_outside hout j m
  · by_cases hji : j = i
    · subst hji
      exact hret (by simpa using hj)
    · exact (h.returned j (by simpa [hji] using hj)).trans_le hmono

/-- the exchange of `lock_acquire` -/
theorem Inv.acquire (h : Inv n numpass s) (hi : s.pc i = .acquire) :
    Inv n numpass ⟨⟨1, s.mem.game⟩, Function.update s.pc i (if s.mem.lock = 0 then .loadPasses else .acquire)⟩ := by
  by_cases hfree : s.mem.lock = 0
  · rw [if_pos hfree]
    have hno := h.lock.free hfree
    refine ⟨h.lock.take (.inl hfree), fun hno' => (hno' i (by simp [Pc.Inside])).elim, fun j => ?_, fun j hj => ?_⟩
    · by_cases hji : j = i
      · subst hji
        simp only [update_self]
        exact h.idle hno
      · simpa [hji] using h.ok j
    · by_cases hji : j = i
      · subst hji
        simp at hj
      · exact h.returned j (by simpa [hji] using hj)
  · rw [if_neg hfree, ← hi, update_eq_self]
    have hlock := h.lock.take (i := i) (l := s.pc i) (.inr (by rw [hi]; exact id))
    rw [update_eq_self] at hlock
    exact ⟨hlock, h.idle, h.ok, h.returned⟩

theorem int_eq {x : ℤ} (h : 0 ≤ x) (h' : x < 2 ^ 31) : int x = x := by
  unfold int
  rw [Int.bmod_eq_of_le] <;> omega

theorem word_eq {x : ℤ} {k : ℕ} (h : x = k) (hk : k < 2 ^ 31) : word x = k := by
  rw [word, h]
  omega

theorem passes_eq (h : 1 ≤ m.passes) : m.passes = m.over + 1 := by
  unfold Game.over
  omega

/-- the next owner: `cur_owner` is one more than the thread's number, or is reset -/
theorem Turn.next (h : Turn n numpass m tid (tid + 1)) (htid : tid < n) : (m.over + 1) % n = if n ≤ tid + 1 then 0 else tid + 1 := by
  rw [succ_mod_eq_ite (by omega), ← h.tid]
  split_ifs <;> omega

/-- **One step inside the lock.** -/
theorem critical_ok (hmax : numpass < 2 ^ 31 - 1) (htid : tid < n) (hl : l ≠ .release ∧ l ≠ .releaseLast)
    (hin : l.Inside) (h : l.Ok n numpass tid m) : (critical n numpass tid m l).2.Inside ∧
      (critical n numpass tid m l).2.Ok n numpass tid (critical n numpass tid m l).1 ∧ m.passes ≤ (critical n numpass tid m l).1.passes := by
  cases l with
  | acquire | returned => exact hin.elim
  | release => exact (hl.1 rfl).elim
  | releaseLast => exact (hl.2 rfl).elim
  | loadPasses =>
    simp only [critical]
    split
    · rename_i hover
      exact ⟨trivial, ⟨h, hover⟩, le_rfl⟩
    · rename_i hover
      exact ⟨trivial, ⟨h, not_lt.1 hover⟩, le_rfl⟩
  | loadOwner =>
    obtain ⟨hidle, hle⟩ := h
    simp only [critical]
    split
    · rename_i hturn
      refine ⟨trivial, ⟨hidle.pos, hle, ?_, hturn, hidle.output⟩, le_rfl⟩
      have := hidle.owner
      omega
    · exact ⟨trivial, hidle, le_rfl⟩
  | incLoad =>
    refine ⟨trivial, ⟨h, ?_⟩, le_rfl⟩
    have hpasses := passes_eq h.pos
    have hle := h.le
    have hmod := Nat.mod_le m.over n
    have htid := h.tid
    rw [h.owner, int_eq (by omega) (by omega)]
  | incStore val =>
    obtain ⟨hturn, rfl⟩ := h
    exact ⟨trivial, ⟨hturn.pos, hturn.le, hturn.tid, rfl, hturn.output⟩, le_rfl⟩
  | testOwner =>
    simp only [critical]
    split
    · rename_i hge
      exact ⟨trivial, ⟨h, hge⟩, le_rfl⟩
    · rename_i hlt
      refine ⟨trivial, ⟨h.pos, h.le, h.tid, ?_, h.output⟩, le_rfl⟩
      have howner := h.owner
      rw [h.next htid, if_neg (by omega), howner]
      push_cast
      rfl
  | resetOwner =>
    obtain ⟨hturn, hge⟩ := h
    refine ⟨trivial, ⟨hturn.pos, hturn.le, hturn.tid, ?_, hturn.output⟩, le_rfl⟩
    have howner := hturn.owner
    show (0 : ℤ) = ((m.over + 1) % n : ℕ)
    rw [hturn.next htid, if_pos (by omega)]
    rfl
  | argOwner => exact ⟨trivial, ⟨⟨h.pos, h.le, h.tid, rfl, h.output⟩, h.owner⟩, le_rfl⟩
  | argPasses owner =>
    obtain ⟨hturn, rfl⟩ := h
    refine ⟨trivial, ⟨hturn.pos, hturn.le, hturn.owner, ?_⟩, le_rfl⟩
    have hpasses := passes_eq hturn.pos
    have hle := hturn.le
    have hmod := Nat.mod_le (m.over + 1) n
    simp only [critical]
    rw [hturn.output, lines_succ, word_eq (k := m.over + 1) (by omega) (by omega), word_eq rfl (by omega), ← hturn.tid]
  | print rest =>
    cases rest with
    | nil => exact ⟨trivial, h, le_rfl⟩
    | cons c rest =>
      refine ⟨trivial, ⟨h.pos, h.le, h.owner, ?_⟩, le_rfl⟩
      show (m.output ++ [c]) ++ rest = lines line n (m.over + 1)
      rw [List.append_assoc]
      exact h.output
  | passLoad =>
    have hpos := h.pos
    have hle := h.le
    exact ⟨trivial, ⟨h, int_eq (by omega) (by omega)⟩, le_rfl⟩
  | passStore val =>
    obtain ⟨hpass, rfl⟩ := h
    have hpos := hpass.pos
    have hle := hpass.le
    have hover : Game.over { m with passes := m.passes + 1 } = m.over + 1 := by
      simp only [Game.over]
      omega
    simp only [critical]
    refine ⟨trivial, ⟨show 1 ≤ m.passes + 1 by omega, show m.passes + 1 ≤ numpass.toNat + 1 by omega, ?_, ?_⟩, by omega⟩
    · rw [hover]
      exact hpass.owner
    · rw [hover]
      have hout := hpass.output
      rwa [List.append_nil] at hout

/-- **The game, one step.** -/
theorem step_inv (hmax : numpass < 2 ^ 31 - 1) (s : St n) (i : Fin n) (h : Inv n numpass s) : Inv n numpass (step n numpass s i) := by
  have hok := h.ok i
  cases hp : s.pc i with
  | acquire =>
    rw [step, Threads.step_eq (by simp only [hp, frisbeeTask]; rfl)]
    exact h.acquire hp
  | release =>
    rw [step, Threads.step_eq (by simp only [hp, frisbeeTask]; rfl)]
    rw [hp] at hok
    exact h.inside (by rw [hp]; trivial) (.inr id) trivial (fun _ => hok) le_rfl nofun
  | releaseLast =>
    rw [step, Threads.step_eq (by simp only [hp, frisbeeTask]; rfl)]
    rw [hp] at hok
    exact h.inside (by rw [hp]; trivial) (.inr id) trivial (fun _ => hok.1) le_rfl fun _ => hok.2
  | returned =>
    rw [step, Threads.step_eq (by simp only [hp, frisbeeTask]; rfl), ← hp, update_eq_self]
    exact h
  | _ =>
    rw [step, Threads.step_eq (by simp only [hp, frisbeeTask]; rfl)]
    have hin : (s.pc i).Inside := by rw [hp]; trivial
    rw [hp] at hok
    obtain ⟨hin', hok', hmono⟩ := critical_ok hmax i.isLt (by simp) (hp ▸ hin) hok
    refine h.inside hin (.inl rfl) hok' (fun hout => (hout hin').elim) hmono fun hret => ?_
    rw [hret] at hin'
    exact hin'.elim

/-- the lines of the passes that are over, or some of the next line as well -/
theorem Inv.output (h : Inv n numpass s) : (Idle n numpass s.mem.game ∨ ∃ tid owner, Turn n numpass s.mem.game tid owner) ∨
      ∃ rest, Passing n numpass s.mem.game rest := by
  by_cases hno : ∀ i, ¬ (s.pc i).Inside
  · exact .inl (.inl (h.idle hno))
  · push Not at hno
    obtain ⟨i, hi⟩ := hno
    have hok := h.ok i
    cases hp : s.pc i with
    | acquire | returned =>
      rw [hp] at hi
      exact hi.elim
    | loadPasses | release =>
      rw [hp] at hok
      exact .inl (.inl hok)
    | releaseLast | loadOwner =>
      rw [hp] at hok
      exact .inl (.inl hok.1)
    | incLoad | testOwner | argOwner =>
      rw [hp] at hok
      exact .inl (.inr ⟨_, _, hok⟩)
    | incStore | resetOwner | argPasses =>
      rw [hp] at hok
      exact .inl (.inr ⟨_, _, hok.1⟩)
    | print rest | passLoad =>
      rw [hp] at hok
      exact .inr ⟨_, hok⟩
    | passStore val =>
      rw [hp] at hok
      exact .inr ⟨_, hok.1⟩

/-- all earlier lines are out and the game is not further than `numpass`, or a line of the game is being printed -/
theorem Inv.lines (h : Inv n numpass s) :
    (s.mem.game.output = lines line n s.mem.game.over ∧ 1 ≤ s.mem.game.passes ∧ s.mem.game.passes ≤ numpass.toNat + 1) ∨
      (s.mem.game.output <+: lines line n (s.mem.game.over + 1) ∧ 1 ≤ s.mem.game.passes ∧ s.mem.game.passes ≤ numpass) := by
  rcases h.output with (hidle | ⟨tid, owner, hturn⟩) | ⟨rest, hpass⟩
  · exact .inl ⟨hidle.output, hidle.pos, hidle.le⟩
  · have hle := hturn.le
    exact .inl ⟨hturn.output, hturn.pos, by omega⟩
  · exact .inr ⟨⟨rest, hpass.output⟩, hpass.pos, hpass.le⟩

end Steps

/-! ## The game -/

/-- **The frisbee game.** For any number of threads and every `numpass` below 2^31 - 1, in every interleaving. -/
theorem frisbee_passes (numthreads : ℕ) (numpass : ℤ) (hmax : numpass < 2 ^ 31 - 1) (sched : List (Fin numthreads)) :
    (∀ i j, ((run (step numthreads numpass) (init numthreads) sched).pc i).Inside →
      ((run (step numthreads numpass) (init numthreads) sched).pc j).Inside → i = j) ∧
    (run (step numthreads numpass) (init numthreads) sched).mem.game.output <+: lines said numthreads numpass.toNat ∧
    ((∃ i, (run (step numthreads numpass) (init numthreads) sched).pc i = .returned) →
      (run (step numthreads numpass) (init numthreads) sched).mem.game.output = lines said numthreads numpass.toNat) := by
  have h : Inv numthreads numpass (run (step numthreads numpass) (init numthreads) sched) :=
    run_inv (step_inv hmax) _ (inv_init numthreads numpass) sched
  generalize run (step numthreads numpass) (init numthreads) sched = s at h
  -- the format is that of the other game
  have hsaid : lines said numthreads numpass.toNat = lines line numthreads numpass.toNat :=
    (lines_eq_said numthreads (by omega)).symm
  rw [hsaid]
  have hover : s.mem.game.over = (s.mem.game.passes - 1).toNat := rfl
  refine ⟨h.lock.unique, ?_, ?_⟩
  · rcases h.lines with ⟨hout, hpos, hle⟩ | ⟨hout, hpos, hle⟩
    · rw [hout]
      exact lines_mono line numthreads (by omega)
    · exact hout.trans (lines_mono line numthreads (by omega))
  · intro ⟨i, hi⟩
    have hret := h.returned i hi
    rcases h.lines with ⟨hout, hpos, hle⟩ | ⟨hout, hpos, hle⟩
    · rw [hout]
      congr 1
      omega
    · omega

/-- two threads, one pass each, the first running alone until it waits for its next turn -/
theorem frisbee_passes_two :
    (run (step 2 2) (init 2) (List.replicate 200 0)).mem.game.output <+: lines said 2 2 :=
  (frisbee_passes 2 2 (by norm_num) (List.replicate 200 0)).2.1

end Xv6.Frisbee
