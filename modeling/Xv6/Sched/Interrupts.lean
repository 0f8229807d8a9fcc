/-
Interrupts and spin-locks (`spinlock.c`, and `scheduler`, `sched`, `yield`, `forkret`, `sleep`, `exit` of `proc.c`): any number of CPUs,
processes and locks.

A thread is a process in the kernel or the scheduler of a CPU. Its code is a list of instructions, of which it executes one at a time on
the CPU it is on; with no code left it is somewhere else in the kernel, where it may begin a call, or in user mode. An interrupt that
comes while interrupts are enabled starts a new frame, with interrupts disabled. `acquire` sets the lock and `lk->cpu` in one step, and
`release` clears them in one step: no other CPU can tell.

`own` is history: the interrupt flag before the thread's outermost `pushcli`.

The callers are the kernel's (`Callers`): a lock is not acquired twice, only a held one is released, `sleep` is called with its lock and no
other, and `yield`, `exit`, the end of an interrupt and the return to user mode come without locks. Process states other than one's own
are changed under `ptable.lock`.
-/
import Xv6.Core.Run

set_option linter.unusedSectionVars false

namespace Xv6.Interrupts

open Xv6.Core

/-! ## Model -/

inductive PState
  | unused
  | sleeping
  | runnable
  | running
  | zombie
  deriving DecidableEq

/-- a spin-lock; `none` is `ptable.lock` -/
abbrev Lock (Λ : Type) := Option Λ

inductive Panic
  /-- "acquire" -/
  | acquire
  /-- "release" -/
  | release
  /-- "popcli - interruptible" -/
  | popcliInterruptible
  /-- "popcli" -/
  | popcli
  /-- "mycpu called with interrupts enabled" -/
  | mycpu
  /-- "sched ptable.lock" -/
  | schedPtable
  /-- "sched locks" -/
  | schedLocks
  /-- "sched running" -/
  | schedRunning
  /-- "sched interruptible" -/
  | schedInterruptible
  /-- "zombie exit" -/
  | zombieExit
  /-- there is no process -/
  | fault
  deriving DecidableEq

inductive Ins (Λ : Type)
  /-- the first half of `pushcli`: `eflags = readeflags()` -/
  | readeflags
  /-- the second half -/
  | cli
  | popcli
  /-- what `holding` looks at; its caller panics with `e` unless it is `want` -/
  | holding (lk : Lock Λ) (want : Bool) (e : Panic)
  /-- `while(xchg(&lk->locked, 1) != 0)` -/
  | xchg (lk : Lock Λ)
  | unlock (lk : Lock Λ)
  /-- `p->state = st` for the process itself -/
  | setState (st : PState)
  -- the checks of `sched`
  | checkNcli
  | checkState
  | checkFlags
  /-- `intena = mycpu()->intena` -/
  | save
  | swtch
  /-- `mycpu()->intena = intena` -/
  | restore
  | sti
  /-- the scheduler's loop over the processes -/
  | scan
  /-- back to the head of the scheduler's loop -/
  | again
  | zombieExit

section Code

variable {Λ : Type} [DecidableEq Λ]

def pushcli : List (Ins Λ) := [.readeflags, .cli]

def myproc : List (Ins Λ) := pushcli ++ [.popcli]

def holding (lk : Lock Λ) (want : Bool) (e : Panic) : List (Ins Λ) := pushcli ++ [.holding lk want e, .popcli]

def acquire (lk : Lock Λ) : List (Ins Λ) := pushcli ++ holding lk false .acquire ++ [.xchg lk]

def release (lk : Lock Λ) : List (Ins Λ) := holding lk true .release ++ [.unlock lk, .popcli]

def sched : List (Ins Λ) :=
  myproc ++ holding none true .schedPtable ++ [.checkNcli, .checkState, .checkFlags, .save, .swtch, .restore]

def yield : List (Ins Λ) := acquire none ++ myproc ++ [.setState .runnable] ++ sched ++ release none

def sleep (lk : Lock Λ) : List (Ins Λ) :=
  if lk = none then myproc ++ [.setState .sleeping] ++ sched
  else myproc ++ acquire none ++ release lk ++ [.setState .sleeping] ++ sched ++ release none ++ acquire lk

/-- `exit` from where it acquires `ptable.lock` -/
def exit : List (Ins Λ) := acquire none ++ [.setState .zombie] ++ sched ++ [.zombieExit]

/-- a new process begins here, holding `ptable.lock` -/
def forkret : List (Ins Λ) := release none

def scheduler : List (Ins Λ) := .sti :: acquire none ++ [.scan] ++ release none ++ [.again]

inductive Call (Λ : Type)
  | acquire (lk : Lock Λ)
  | release (lk : Lock Λ)
  | sleep (lk : Lock Λ)
  | yield
  | exit

def Call.code : Call Λ → List (Ins Λ)
  | .acquire lk => Interrupts.acquire lk
  | .release lk => Interrupts.release lk
  | .sleep lk => Interrupts.sleep lk
  | .yield => Interrupts.yield
  | .exit => Interrupts.exit

end Code

/-- a frame of a kernel stack: the code that is left, and the locals of `pushcli` and `sched` -/
structure Frame (Λ : Type) where
  code : List (Ins Λ)
  eflags : Bool
  intena : Bool

structure Thread (Λ : Type) where
  top : Frame Λ
  /-- the frames that have been interrupted -/
  below : List (Frame Λ)
  own : Option Bool

/-- what belongs to a CPU: `flag` is its interrupt flag -/
structure Regs where
  ncli : ℕ
  intena : Bool
  flag : Bool

/-- `cur` is the process that is on the CPU; otherwise its scheduler is -/
structure Cpu (π Λ : Type) where
  regs : Regs
  cur : Option π
  sched : Thread Λ

structure Proc (Λ : Type) where
  state : PState
  thread : Thread Λ

structure St (ι π Λ : Type) where
  cpu : ι → Cpu π Λ
  holder : Lock Λ → Option ι
  proc : π → Proc Λ
  panic : Option Panic

inductive Op (ι π Λ : Type)
  /-- the thread on CPU `c` goes on -/
  | next (c : ι)
  | call (c : ι) (x : Call Λ)
  /-- an interrupt -/
  | irq (c : ι)
  | iret (c : ι)
  /-- return to user mode -/
  | user (c : ι)
  /-- the scheduler of CPU `c` has found process `p` -/
  | pick (c : ι) (p : π)
  -- what the thread on CPU `c` does to other processes
  | wake (c : ι) (q : π)
  | fork (c : ι) (q : π)
  | reap (c : ι) (q : π)

section Step

variable {ι π Λ : Type} [DecidableEq ι] [DecidableEq π] [DecidableEq Λ]

/-- the thread on CPU `c` -/
def St.thread (s : St ι π Λ) (c : ι) : Thread Λ :=
  match (s.cpu c).cur with
  | some p => (s.proc p).thread
  | none => (s.cpu c).sched

/-- the state of the process on CPU `c` -/
def St.state (s : St ι π Λ) (c : ι) : Option PState := (s.cpu c).cur.map fun p => (s.proc p).state

/-- CPU `c` and the thread on it change, and the locks -/
def St.put (s : St ι π Λ) (c : ι) (holder : Lock Λ → Option ι) (r : Regs) (t : Thread Λ) (f : PState → PState) : St ι π Λ :=
  match (s.cpu c).cur with
  | some p =>
    { s with
      cpu := Function.update s.cpu c { s.cpu c with regs := r }
      holder := holder
      proc := Function.update s.proc p ⟨f (s.proc p).state, t⟩ }
  | none => { s with cpu := Function.update s.cpu c { s.cpu c with regs := r, sched := t }, holder := holder }

def St.stop (s : St ι π Λ) (e : Panic) : St ι π Λ := { s with panic := some e }

/-- CPU `c` goes over to another thread -/
def St.switch (s : St ι π Λ) (c : ι) (cur : Option π) : St ι π Λ :=
  { s with cpu := Function.update s.cpu c { s.cpu c with cur := cur } }

def St.setState (s : St ι π Λ) (q : π) (st : PState) : St ι π Λ :=
  { s with proc := Function.update s.proc q { s.proc q with state := st } }

def Thread.goto (t : Thread Λ) (k : List (Ins Λ)) : Thread Λ := { t with top := { t.top with code := k } }

/-- an instruction that concerns the CPU and the thread only; `held` says which locks the CPU holds, `st` is the state of the process -/
def exec (r : Regs) (t : Thread Λ) (held : Lock Λ → Bool) (st : Option PState) : Ins Λ → Except Panic (Regs × Thread Λ)
  | .readeflags => .ok (r, { t with top := { t.top with eflags := r.flag } })
  | .cli =>
    if r.ncli = 0 then .ok (⟨1, t.top.eflags, false⟩, { t with own := some r.flag })
    else .ok (⟨r.ncli + 1, r.intena, false⟩, t)
  | .popcli =>
    if r.flag = true then .error .popcliInterruptible
    else if r.ncli = 0 then .error .popcli
    else .ok (⟨r.ncli - 1, r.intena, r.ncli == 1 && r.intena⟩, t)
  | .holding lk want e => if held lk = want then .ok (r, t) else .error e
  | .checkNcli => if r.flag = true then .error .mycpu else if r.ncli = 1 then .ok (r, t) else .error .schedLocks
  | .checkState => if st = some .running then .error .schedRunning else .ok (r, t)
  | .checkFlags => if r.flag = true then .error .schedInterruptible else .ok (r, t)
  | .save => if r.flag = true then .error .mycpu else .ok (r, { t with top := { t.top with intena := r.intena } })
  | .restore => if r.flag = true then .error .mycpu else .ok ({ r with intena := t.top.intena }, t)
  | .sti => .ok ({ r with flag := true }, t)
  | .again => .ok (r, t.goto scheduler)
  | .zombieExit => .error .zombieExit
  | _ => .ok (r, t)

/-- the thread on CPU `c` executes the instruction `i`, and `k` is left -/
def St.execute (s : St ι π Λ) (c : ι) (i : Ins Λ) (k : List (Ins Λ)) : St ι π Λ :=
  match i with
  | .xchg lk =>
    if s.holder lk = none then s.put c (Function.update s.holder lk (some c)) (s.cpu c).regs ((s.thread c).goto k) id else s
  | .unlock lk => s.put c (Function.update s.holder lk none) (s.cpu c).regs ((s.thread c).goto k) id
  | .setState st =>
    if (s.cpu c).cur = none then s.stop .fault else s.put c s.holder (s.cpu c).regs ((s.thread c).goto k) fun _ => st
  | .swtch =>
    if (s.cpu c).cur = none then s.stop .fault
    else (s.put c s.holder (s.cpu c).regs ((s.thread c).goto k) id).switch c none
  | i =>
    match exec (s.cpu c).regs ((s.thread c).goto k) (fun lk => s.holder lk = some c) (s.state c) i with
    | .ok (r, t) => s.put c s.holder r t id
    | .error e => s.stop e

/-- one step; nothing happens after a panic, and what the thread is not in a position to do changes nothing -/
def step (s : St ι π Λ) (op : Op ι π Λ) : St ι π Λ :=
  if s.panic ≠ none then s
  else
    match op with
    | .next c =>
      match (s.thread c).top.code with
      | [] => s
      | i :: k => s.execute c i k
    | .call c x =>
      if (s.thread c).top.code.isEmpty then s.put c s.holder (s.cpu c).regs ((s.thread c).goto x.code) id else s
    | .irq c =>
      if (s.cpu c).regs.flag = true then
        s.put c s.holder { (s.cpu c).regs with flag := false }
          { s.thread c with top := ⟨[], false, false⟩, below := (s.thread c).top :: (s.thread c).below } id
      else s
    | .iret c =>
      match (s.thread c).below with
      | [] => s
      | f :: fs =>
        if (s.thread c).top.code.isEmpty then
          s.put c s.holder { (s.cpu c).regs with flag := true } { s.thread c with top := f, below := fs } id
        else s
    | .user c =>
      if (s.thread c).top.code.isEmpty ∧ (s.thread c).below.isEmpty then
        s.put c s.holder { (s.cpu c).regs with flag := true } (s.thread c) id
      else s
    | .pick c p =>
      match (s.thread c).top.code with
      | .scan :: _ => if (s.cpu c).cur = none ∧ (s.proc p).state = .runnable then (s.setState p .running).switch c (some p) else s
      | _ => s
    | .wake c q =>
      if (s.thread c).top.code.isEmpty ∧ (s.proc q).state = .sleeping then s.setState q .runnable else s
    | .fork c q =>
      if (s.thread c).top.code.isEmpty ∧ (s.proc q).state = .unused then
        { s with proc := Function.update s.proc q ⟨.runnable, ⟨⟨forkret, false, false⟩, [], none⟩⟩ }
      else s
    | .reap c q =>
      if (s.thread c).top.code.isEmpty ∧ (s.proc q).state = .zombie then s.setState q .unused else s

/-- **The kernel's callers.** -/
def Callers (s : St ι π Λ) : Op ι π Λ → Prop
  | .call c (.acquire lk) => s.holder lk ≠ some c
  | .call c (.release lk) => s.holder lk = some c
  | .call c (.sleep lk) => (s.cpu c).cur.isSome = true ∧ ∀ l, s.holder l = some c ↔ l = lk
  | .call c .yield | .call c .exit => (s.cpu c).cur.isSome = true ∧ ∀ l, s.holder l ≠ some c
  | .iret c | .user c => ∀ l, s.holder l ≠ some c
  | .wake c _ | .fork c _ | .reap c _ => s.holder none = some c
  | _ => True

/-- every CPU is about to enter `scheduler`, and no process is on a CPU; which of them are RUNNABLE is left open -/
def init (runnable : π → Bool) : St ι π Λ where
  cpu _ := ⟨⟨0, false, false⟩, none, ⟨⟨scheduler, false, false⟩, [], none⟩⟩
  holder _ := none
  proc p := ⟨if runnable p = true then .runnable else .unused, ⟨⟨forkret, false, false⟩, [], none⟩⟩
  panic := none

end Step

/-! ## Code that fits -/

variable {ι π Λ : Type} [DecidableEq Λ]

/-- where a process is on its way through the scheduler -/
inductive Phase
  | plain
  /-- it has given itself the state `st` -/
  | left (st : PState)
  /-- it has saved `intena` as well -/
  | saved (st : PState)
  /-- it comes back, and has not restored `intena` -/
  | back

/-- the state of a process in this phase -/
def Phase.state : Phase → PState
  | .plain | .back => .running
  | .left st | .saved st => st

/-- the calls of `pushcli` that the thread with this code left is in: a `popcli` ends one, `xchg` makes it the lock's, and after `unlock`
the lock's is one again -/
def inProgress : List (Ins Λ) → ℤ
  | [] => 0
  | .cli :: k => inProgress k - 1
  | .popcli :: k => inProgress k + 1
  | .xchg _ :: k => inProgress k + 1
  | .unlock _ :: k => inProgress k - 1
  | .swtch :: _ => 0
  | _ :: k => inProgress k

/-- code for a CPU that holds the locks `H`, with `n` calls of `pushcli` in progress; `b` says that the thread is a process -/
inductive Typed : Bool → Finset (Lock Λ) → ℕ → Phase → List (Ins Λ) → Prop
  | nil {b H} : Typed b H 0 .plain []
  | pushcli {b H n w k} (hw : w ≠ .back) (h : Typed b H (n + 1) w k) : Typed b H n w (.readeflags :: .cli :: k)
  | popcli {b H n w k} (hw : w ≠ .back) (h : Typed b H n w k) : Typed b H (n + 1) w (.popcli :: k)
  | holding {b H n w k lk want e} (hw : w ≠ .back) (hlk : want = true ↔ lk ∈ H) (h : Typed b H (n + 1) w k) :
    Typed b H (n + 1) w (.holding lk want e :: k)
  | xchg {b H n k lk} (hlk : lk ∉ H) (h : Typed b (insert lk H) n .plain k) : Typed b H (n + 1) .plain (.xchg lk :: k)
  | unlock {b H n k lk} (hlk : lk ∈ H) (h : Typed b (H.erase lk) (n + 1) .plain k) : Typed b H n .plain (.unlock lk :: k)
  | setState {st k} (h : Typed true {none} 0 (.left st) k) : Typed true {none} 0 .plain (.setState st :: k)
  | checkNcli {st k} (h : Typed true {none} 0 (.left st) k) : Typed true {none} 0 (.left st) (.checkNcli :: k)
  | checkState {st k} (hst : st ≠ .running) (h : Typed true {none} 0 (.left st) k) :
    Typed true {none} 0 (.left st) (.checkState :: k)
  | checkFlags {st k} (h : Typed true {none} 0 (.left st) k) : Typed true {none} 0 (.left st) (.checkFlags :: k)
  | save {st k} (h : Typed true {none} 0 (.saved st) k) : Typed true {none} 0 (.left st) (.save :: k)
  | swtch {st k} (h : Typed true {none} 0 .back (.restore :: k)) : Typed true {none} 0 (.saved st) (.swtch :: .restore :: k)
  /-- a process that has exited does not come back -/
  | leave {k} : Typed true {none} 0 (.saved .zombie) (.swtch :: k)
  | restore {k} (h : Typed true {none} 0 .plain k) : Typed true {none} 0 .back (.restore :: k)
  | sti {k} (h : Typed false ∅ 0 .plain k) : Typed false ∅ 0 .plain (.sti :: k)
  | scan {k} (h : Typed false {none} 0 .plain k) : Typed false {none} 0 .plain (.scan :: k)
  | again : Typed false ∅ 0 .plain [.again]

variable {b : Bool} {H : Finset (Lock Λ)} {n : ℕ} {w : Phase} {st : PState} {k : List (Ins Λ)} {lk : Lock Λ}

/-- on its way through the scheduler a process holds `ptable.lock` -/
theorem Typed.window (h : Typed b H n w k) (hw : w ≠ .plain) : none ∈ H := by
  induction h with
  | pushcli _ _ ih => exact ih hw
  | popcli _ _ ih => exact ih hw
  | holding _ _ _ ih => exact ih hw
  | nil => exact absurd rfl hw
  | xchg => exact absurd rfl hw
  | unlock => exact absurd rfl hw
  | setState => exact absurd rfl hw
  | sti => exact absurd rfl hw
  | scan => exact absurd rfl hw
  | again => exact absurd rfl hw
  | _ => exact Finset.mem_singleton_self _

/-- the first thing that a process does when it comes back -/
theorem Typed.back (h : Typed b H n .back k) : n = 0 ∧ ∃ k', k = .restore :: k' := by
  cases h with
  | pushcli hw => exact absurd rfl hw
  | popcli hw => exact absurd rfl hw
  | holding hw => exact absurd rfl hw
  | restore => exact ⟨rfl, _, rfl⟩

/-- the calls of `pushcli` in progress can be read off the code: it has the `popcli` or takes the lock that they are for -/
theorem Typed.inProgress (h : Typed b H n w k) : (n : ℤ) = inProgress k := by
  induction h with
  | pushcli _ _ ih =>
    change _ = Interrupts.inProgress _ - 1
    omega
  | popcli _ _ ih =>
    change _ = Interrupts.inProgress _ + 1
    omega
  | xchg _ _ ih =>
    change _ = Interrupts.inProgress _ + 1
    omega
  | unlock _ _ ih =>
    change _ = Interrupts.inProgress _ - 1
    omega
  | holding _ _ _ ih => exact ih
  | setState _ ih => exact ih
  | checkNcli _ ih => exact ih
  | checkState _ _ ih => exact ih
  | checkFlags _ ih => exact ih
  | save _ ih => exact ih
  | restore _ ih => exact ih
  | sti _ ih => exact ih
  | scan _ ih => exact ih
  | _ => rfl

theorem typed_myproc (hw : w ≠ .back) (h : Typed b H n w k) : Typed b H n w (myproc ++ k) := .pushcli hw (.popcli hw h)

theorem typed_holding {want : Bool} {e : Panic} (hw : w ≠ .back) (hlk : want = true ↔ lk ∈ H) (h : Typed b H n w k) :
    Typed b H n w (holding lk want e ++ k) := .pushcli hw (.holding hw hlk (.popcli hw h))

theorem typed_acquire (hlk : lk ∉ H) (h : Typed b (insert lk H) n .plain k) : Typed b H n .plain (acquire lk ++ k) :=
  .pushcli nofun (typed_holding nofun ⟨nofun, fun hmem => absurd hmem hlk⟩ (.xchg hlk h))

theorem typed_release (hlk : lk ∈ H) (h : Typed b (H.erase lk) n .plain k) : Typed b H n .plain (release lk ++ k) :=
  typed_holding nofun ⟨fun _ => hlk, fun _ => rfl⟩ (.unlock hlk (.popcli nofun h))

/-- `sched` up to the switch -/
theorem typed_enter (hst : st ≠ .running) (h : Typed true {none} 0 (.saved st) (.swtch :: k)) :
    Typed true ({none} : Finset (Lock Λ)) 0 (.left st)
      (myproc ++ (holding none true .schedPtable ++ (.checkNcli :: .checkState :: .checkFlags :: .save :: .swtch :: k))) :=
  typed_myproc nofun (typed_holding nofun ⟨fun _ => Finset.mem_singleton_self _, fun _ => rfl⟩
    (.checkNcli (.checkState hst (.checkFlags (.save h)))))

theorem typed_sched (hst : st ≠ .running) (h : Typed true {none} 0 .plain k) :
    Typed true ({none} : Finset (Lock Λ)) 0 (.left st) (sched ++ k) := typed_enter hst (.swtch (.restore h))

theorem typed_forkret : Typed true ({none} : Finset (Lock Λ)) 0 .plain forkret :=
  typed_release (Finset.mem_singleton_self _) .nil

theorem typed_yield : Typed true (∅ : Finset (Lock Λ)) 0 .plain yield :=
  typed_acquire (Finset.notMem_empty _) (typed_myproc nofun (.setState (typed_sched nofun typed_forkret)))

theorem typed_exit : Typed true (∅ : Finset (Lock Λ)) 0 .plain exit :=
  typed_acquire (Finset.notMem_empty _) (.setState (typed_enter nofun .leave))

theorem typed_sleep (lk : Lock Λ) : Typed true {lk} 0 .plain (sleep lk) := by
  unfold sleep
  split
  · rename_i hlk
    subst hlk
    exact typed_myproc nofun (.setState (typed_sched nofun .nil))
  · rename_i hlk
    have hother : ((insert none {lk} : Finset (Lock Λ)).erase lk) = {none} := by
      rw [Finset.erase_insert_of_ne (fun heq => hlk heq.symm), Finset.erase_singleton]
      rfl
    refine typed_myproc nofun (typed_acquire (fun hmem => hlk (Finset.mem_singleton.1 hmem).symm) (typed_release ?_ ?_))
    · exact Finset.mem_insert_of_mem (Finset.mem_singleton_self lk)
    · rw [hother]
      refine .setState (typed_sched nofun (typed_release (Finset.mem_singleton_self _) ?_))
      exact typed_acquire (fun hmem => by simp at hmem) .nil

theorem typed_scheduler : Typed false (∅ : Finset (Lock Λ)) 0 .plain scheduler := by
  have hnone : (({none} : Finset (Lock Λ)).erase none) = ∅ := Finset.erase_singleton _
  refine .sti (typed_acquire (Finset.notMem_empty _) (.scan (typed_release (Finset.mem_singleton_self _) ?_)))
  rw [hnone]
  exact .again

/-! ## A CPU and its thread -/

/-- the code of a frame fits; in the middle of a `pushcli` its `eflags` are the flag of the thread -/
def Fits (b : Bool) (H : Finset (Lock Λ)) (n : ℕ) (w : Phase) (f : Frame Λ) (flag : Bool) : Prop :=
  Typed b H n w f.code ∨ ∃ k, f.code = .cli :: k ∧ f.eflags = flag ∧ Typed b H (n + 1) w k

/-- a frame that has been interrupted: no lock is held, and interrupts were enabled -/
def Parked (b : Bool) (f : Frame Λ) : Prop := Fits b ∅ 0 .plain f true

/-- a CPU that holds the locks `hold`, and the thread on it, which is a process in state `ps` if `b` says so -/
structure Nest (b : Bool) (hold : Lock Λ → Prop) (r : Regs) (t : Thread Λ) (ps : Option PState) (H : Finset (Lock Λ)) (n : ℕ) (w : Phase) :
    Prop where
  hold : ∀ lk, lk ∈ H ↔ hold lk
  ncli : r.ncli = H.card + n
  fits : Fits b H n w t.top r.flag
  state : b = true → ps = some w.state
  off : 0 < r.ncli → r.flag = false
  below : ∀ f ∈ t.below, Parked b f
  own : b = true → 0 < r.ncli → w ≠ .back → ∀ x ∈ t.own, r.intena = x
  saved : (w = .back ∨ ∃ st, w = .saved st) → ∀ x ∈ t.own, t.top.intena = x

/-- a thread that is on no CPU: it comes back with `ptable.lock` held -/
structure Away (b : Bool) (t : Thread Λ) (w : Phase) : Prop where
  typed : Typed b {none} 0 w t.top.code
  phase : w = .plain ∨ w = .back
  below : ∀ f ∈ t.below, Parked b f
  own : w ≠ .back → b = true → t.own = none
  saved : w = .back → ∀ x ∈ t.own, t.top.intena = x

/-- it comes back with the `intena` that it saved -/
theorem Away.intena {t : Thread Λ} (h : Away b t w) (hw : w = .back ∨ ∃ st, w = .saved st) : ∀ x ∈ t.own, t.top.intena = x := by
  rcases hw with hw | ⟨st, hw⟩
  · exact h.saved hw
  · rcases h.phase with hplain | hback
    · rw [hplain] at hw
      cases hw
    · rw [hback] at hw
      cases hw

variable {hold : Lock Λ → Prop} {r : Regs} {t : Thread Λ} {ps : Option PState}

theorem Fits.window {f : Frame Λ} {flag : Bool} (h : Fits b H n w f flag) (hw : w ≠ .plain) : none ∈ H := by
  rcases h with h | ⟨k, -, -, h⟩ <;> exact h.window hw

/-- interrupts are off when a lock is held or a `pushcli` is in progress -/
theorem Nest.flag_off (h : Nest b hold r t ps H n w) (hn : 0 < n ∨ none ∈ H) : 0 < r.ncli ∧ r.flag = false := by
  have hpos : 0 < r.ncli := by
    rw [h.ncli]
    rcases hn with hn | hn
    · omega
    · have hcard := Finset.card_pos.2 ⟨_, hn⟩
      omega
  exact ⟨hpos, h.off hpos⟩

/-- an instruction that changes nothing but the code -/
theorem Nest.goto (h : Nest b hold r t ps H n w) (hk : Typed b H n w k) : Nest b hold r (t.goto k) ps H n w :=
  ⟨h.hold, h.ncli, .inl hk, h.state, h.off, h.below, h.own, h.saved⟩

/-- the second half of `pushcli` -/
theorem Nest.cli (h : Nest b hold r t ps H n w) (hflags : t.top.eflags = r.flag) (hk : Typed b H (n + 1) w k) :
    ∃ r' t', (∀ held, exec r (t.goto k) held ps .cli = .ok (r', t')) ∧ Nest b hold r' t' ps H (n + 1) w := by
  by_cases hzero : r.ncli = 0
  · refine ⟨⟨1, t.top.eflags, false⟩, { t.goto k with own := some r.flag }, fun _ => if_pos hzero, h.hold, ?_, .inl hk, h.state,
      fun _ => rfl, h.below, fun _ _ _ x hx => ?_, fun hw => ?_⟩
    · have hncli := h.ncli
      dsimp only
      omega
    · cases hx
      exact hflags
    · -- on the way through the scheduler a lock is held
      have hplain : w ≠ .plain := by
        rcases hw with rfl | ⟨st, rfl⟩ <;> exact nofun
      have hpos := (h.flag_off (.inr (h.fits.window hplain))).1
      omega
  · refine ⟨⟨r.ncli + 1, r.intena, false⟩, t.goto k, fun _ => if_neg hzero, h.hold, ?_, .inl hk, h.state, fun _ => rfl, h.below,
      fun hb _ => h.own hb (Nat.pos_of_ne_zero hzero), h.saved⟩
    have hncli := h.ncli
    dsimp only
    omega

theorem Nest.popcli (h : Nest b hold r t ps H (n + 1) w) (hk : Typed b H n w k) :
    ∃ r' t', (∀ held, exec r (t.goto k) held ps .popcli = .ok (r', t')) ∧ Nest b hold r' t' ps H n w := by
  obtain ⟨hpos, hflag⟩ := h.flag_off (.inl (Nat.succ_pos n))
  have hncli := h.ncli
  refine ⟨⟨r.ncli - 1, r.intena, r.ncli == 1 && r.intena⟩, t.goto k, fun held => ?_, h.hold, ?_, .inl hk, h.state, fun hlt => ?_,
    h.below, fun hb hlt => h.own hb hpos, h.saved⟩
  · unfold exec
    dsimp only
    rw [if_neg (hflag.trans_ne Bool.false_ne_true), if_neg hpos.ne']
  · dsimp only
    omega
  · dsimp only at hlt
    have hne : (r.ncli == 1) = false := by
      rw [beq_eq_false_iff_ne]
      omega
    dsimp only
    rw [hne, Bool.false_and]

variable {i : Ins Λ}

/-- an instruction that concerns the CPU and the thread only does not panic, and the rest of the code fits -/
theorem Nest.exec (h : Nest b hold r t ps H n w) (hcode : t.top.code = i :: k) {held : Lock Λ → Bool}
    (hheld : ∀ lk, held lk = true ↔ hold lk) (hi : ∀ lk st, i ≠ .xchg lk ∧ i ≠ .unlock lk ∧ i ≠ .setState st ∧ i ≠ .swtch) :
    ∃ r' t' n' w', Interrupts.exec r (t.goto k) held ps i = .ok (r', t') ∧ Nest b hold r' t' ps H n' w' := by
  rcases h.fits with htyped | ⟨k', hcli, hflags, hk⟩
  · rw [hcode] at htyped
    cases htyped with
    | pushcli _ hk =>
      refine ⟨r, _, n, w, rfl, h.hold, h.ncli, .inr ⟨_, rfl, rfl, hk⟩, h.state, h.off, h.below, h.own, h.saved⟩
    | popcli _ hk =>
      obtain ⟨r', t', hexec, hnest⟩ := h.popcli hk
      exact ⟨r', t', _, w, hexec held, hnest⟩
    | holding _ hlk hk =>
      refine ⟨r, t.goto k, _, w, if_pos ?_, h.goto hk⟩
      rw [Bool.eq_iff_iff, hheld, hlk, h.hold]
    | xchg => exact absurd rfl (hi _ .running).1
    | unlock => exact absurd rfl (hi _ .running).2.1
    | setState => exact absurd rfl (hi none _).2.2.1
    | swtch => exact absurd rfl (hi none .running).2.2.2
    | leave => exact absurd rfl (hi none .running).2.2.2
    | checkNcli hk =>
      have hflag := (h.flag_off (.inr (Finset.mem_singleton_self _))).2
      refine ⟨r, t.goto k, 0, _, ?_, h.goto hk⟩
      have hncli : r.ncli = 1 := h.ncli
      unfold Interrupts.exec
      dsimp only
      rw [if_neg (hflag.trans_ne Bool.false_ne_true), if_pos hncli]
    | checkState hst hk =>
      refine ⟨r, t.goto k, 0, _, if_neg fun hrun => ?_, h.goto hk⟩
      rw [h.state rfl] at hrun
      exact hst (Option.some.inj hrun)
    | checkFlags hk =>
      have hflag := (h.flag_off (.inr (Finset.mem_singleton_self _))).2
      exact ⟨r, t.goto k, 0, _, if_neg (hflag.trans_ne Bool.false_ne_true), h.goto hk⟩
    | save hk =>
      obtain ⟨hpos, hflag⟩ := h.flag_off (.inr (Finset.mem_singleton_self _))
      refine ⟨r, _, 0, _, if_neg (hflag.trans_ne Bool.false_ne_true), h.hold, h.ncli, .inl hk, h.state, h.off, h.below,
        fun hb hlt _ => h.own hb hlt nofun, fun _ x hx => h.own rfl hpos nofun x hx⟩
    | restore hk =>
      obtain ⟨hpos, hflag⟩ := h.flag_off (.inr (Finset.mem_singleton_self _))
      refine ⟨_, t.goto k, 0, .plain, if_neg (hflag.trans_ne Bool.false_ne_true), h.hold, h.ncli, .inl hk, h.state, h.off,
        h.below, fun _ _ _ => h.saved (.inl rfl), ?_⟩
      rintro (hw | ⟨st, hw⟩) <;> cases hw
    | sti hk =>
      refine ⟨_, t.goto k, 0, _, rfl, h.hold, h.ncli, .inl hk, h.state, fun hlt => ?_, h.below, h.own, h.saved⟩
      have hncli : r.ncli = 0 := h.ncli
      exact absurd hncli hlt.ne'
    | scan hk => exact ⟨r, t.goto k, 0, _, rfl, h.goto hk⟩
    | again => exact ⟨r, _, 0, _, rfl, h.goto typed_scheduler⟩
  · rw [hcode] at hcli
    cases hcli
    obtain ⟨r', t', hexec, hnest⟩ := h.cli hflags hk
    exact ⟨r', t', _, w, hexec held, hnest⟩

theorem Nest.typed (h : Nest b hold r t ps H n w) (hcode : t.top.code = i :: k) (hi : i ≠ .cli) : Typed b H n w (i :: k) := by
  rcases h.fits with htyped | ⟨k', hcli, -, -⟩
  · rw [hcode] at htyped
    exact htyped
  · rw [hcode] at hcli
    exact absurd (List.cons.inj hcli).1 hi

/-- between calls nothing is in progress -/
theorem Nest.idle (h : Nest b hold r t ps H n w) (hcode : t.top.code = []) : n = 0 ∧ w = .plain := by
  rcases h.fits with htyped | ⟨k', hcli, -, -⟩
  · rw [hcode] at htyped
    cases htyped
    exact ⟨rfl, rfl⟩
  · rw [hcode] at hcli
    cases hcli

/-- with interrupts enabled, too, and no lock is held -/
theorem Nest.free (h : Nest b hold r t ps H n w) (hflag : r.flag = true) : H = ∅ ∧ n = 0 ∧ w = .plain := by
  have hncli : r.ncli = 0 := by
    by_contra hne
    rw [h.off (Nat.pos_of_ne_zero hne)] at hflag
    cases hflag
  have hsum := h.ncli
  have hempty : H = ∅ := Finset.card_eq_zero.1 (by omega)
  refine ⟨hempty, by omega, ?_⟩
  by_contra hw
  have hmem := h.fits.window hw
  rw [hempty] at hmem
  exact Finset.notMem_empty _ hmem

theorem Nest.irq (h : Nest b hold r t ps H n w) (hflag : r.flag = true) :
    Nest b hold { r with flag := false } { t with top := ⟨[], false, false⟩, below := t.top :: t.below } ps H n w := by
  obtain ⟨rfl, rfl, rfl⟩ := h.free hflag
  refine ⟨h.hold, h.ncli, .inl .nil, h.state, fun _ => rfl, ?_, h.own, ?_⟩
  · intro f hf
    rcases List.mem_cons.1 hf with rfl | hf
    · have hfits := h.fits
      rw [hflag] at hfits
      exact hfits
    · exact h.below f hf
  · rintro (hw | ⟨st, hw⟩) <;> cases hw

/-- back in a frame that has been interrupted, or in user mode: `f` is the frame there -/
theorem Nest.enable (h : Nest b hold r t ps H n w) (hcode : t.top.code = []) (hfree : ∀ lk, ¬ hold lk) {f : Frame Λ}
    {fs : List (Frame Λ)} (hf : Parked b f) (hfs : ∀ g ∈ fs, Parked b g) :
    Nest b hold { r with flag := true } { t with top := f, below := fs } ps ∅ 0 .plain := by
  obtain ⟨rfl, rfl⟩ := h.idle hcode
  have hempty : H = ∅ := Finset.eq_empty_of_forall_notMem fun lk hlk => hfree lk ((h.hold lk).1 hlk)
  subst hempty
  refine ⟨h.hold, h.ncli, hf, h.state, fun hlt => ?_, hfs, h.own, ?_⟩
  · have hncli : r.ncli = 0 := h.ncli
    exact absurd hncli hlt.ne'
  · rintro (hw | ⟨st, hw⟩) <;> cases hw

/-! ## The system -/

variable {ι π : Type} [DecidableEq ι] [DecidableEq π]

section Put

variable {s : St ι π Λ} {c : ι} {holder : Lock Λ → Option ι} {r : Regs} {t : Thread Λ} {f : PState → PState}

theorem put_panic : (s.put c holder r t f).panic = s.panic := by
  unfold St.put
  split <;> rfl

theorem put_holder : (s.put c holder r t f).holder = holder := by
  unfold St.put
  split <;> rfl

theorem put_cpu : (s.put c holder r t f).cpu =
    Function.update s.cpu c ⟨r, (s.cpu c).cur, if (s.cpu c).cur = none then t else (s.cpu c).sched⟩ := by
  unfold St.put
  split
  · rename_i p hcur
    rw [if_neg (by rw [hcur]; exact nofun)]
  · rename_i hcur
    rw [if_pos hcur]

theorem put_proc_self {p : π} (hcur : (s.cpu c).cur = some p) : (s.put c holder r t f).proc p = ⟨f (s.proc p).state, t⟩ := by
  unfold St.put
  rw [hcur]
  exact update_self ..

theorem put_proc_of_ne {q : π} (hcur : (s.cpu c).cur ≠ some q) : (s.put c holder r t f).proc q = s.proc q := by
  unfold St.put
  split
  · rename_i p hp
    have hne : q ≠ p := fun heq => hcur (heq ▸ hp)
    exact update_of_ne hne ..
  · rfl

theorem put_cpu_self : (s.put c holder r t f).cpu c = ⟨r, (s.cpu c).cur, if (s.cpu c).cur = none then t else (s.cpu c).sched⟩ := by
  rw [put_cpu, update_self]

theorem put_cpu_of_ne {c' : ι} (hc : c' ≠ c) : (s.put c holder r t f).cpu c' = s.cpu c' := by
  rw [put_cpu, update_of_ne hc]

theorem thread_put : (s.put c holder r t f).thread c = t := by
  unfold St.thread
  rw [put_cpu_self]
  cases hcur : (s.cpu c).cur with
  | none =>
    dsimp only
    rw [if_pos rfl]
  | some p =>
    dsimp only
    rw [put_proc_self hcur]

theorem state_put : (s.put c holder r t f).state c = (s.state c).map f := by
  unfold St.state
  rw [put_cpu_self]
  cases hcur : (s.cpu c).cur with
  | none => rfl
  | some p =>
    dsimp only [Option.map_some]
    rw [put_proc_self hcur]

end Put

theorem state_of_cur {s : St ι π Λ} {c : ι} {p : π} (hcur : (s.cpu c).cur = some p) : s.state c = some (s.proc p).state := by
  unfold St.state
  rw [hcur]
  rfl

/-- what a CPU and its thread keep -/
def St.Nested (s : St ι π Λ) (c : ι) : Prop :=
  ∃ H n w, Nest (s.cpu c).cur.isSome (fun lk => s.holder lk = some c) (s.cpu c).regs (s.thread c) (s.state c) H n w

/-- the process can be given to a CPU -/
def Ready (p : Proc Λ) : Prop := p.state = .runnable ∨ p.state = .sleeping → ∃ w, Away true p.thread w

structure Inv (s : St ι π Λ) : Prop where
  calm : s.panic = none
  nested : ∀ c, s.Nested c
  sched : ∀ c, (s.cpu c).cur ≠ none → ∃ w, Away false (s.cpu c).sched w
  ready : ∀ p, (∀ c, (s.cpu c).cur ≠ some p) → Ready (s.proc p)
  only : ∀ c c' p, (s.cpu c).cur = some p → (s.cpu c').cur = some p → c = c'

variable {s s' : St ι π Λ} {c : ι}

/-- a CPU that nothing happens to -/
theorem St.Nested.congr {c' : ι} (h : s.Nested c') (hcpu : s'.cpu c' = s.cpu c')
    (hproc : ∀ p, (s.cpu c').cur = some p → s'.proc p = s.proc p) (hhold : ∀ lk, s'.holder lk = some c' ↔ s.holder lk = some c') :
    s'.Nested c' := by
  have hthread : s'.thread c' = s.thread c' := by
    unfold St.thread
    rw [hcpu]
    cases hcur : (s.cpu c').cur with
    | none => rfl
    | some p =>
      dsimp only
      rw [hproc p hcur]
  have hstate : s'.state c' = s.state c' := by
    unfold St.state
    rw [hcpu]
    cases hcur : (s.cpu c').cur with
    | none => rfl
    | some p =>
      dsimp only [Option.map_some]
      rw [hproc p hcur]
  have hholder : (fun lk => s'.holder lk = some c') = fun lk => s.holder lk = some c' := funext fun lk => propext (hhold lk)
  unfold St.Nested
  rw [hthread, hstate, hcpu, hholder]
  exact h

/-- a step of CPU `c` -/
theorem Inv.at (h : Inv s) (hcalm : s'.panic = none) (hcpu : ∀ c' ≠ c, s'.cpu c' = s.cpu c')
    (hproc : ∀ c' ≠ c, ∀ p, (s.cpu c').cur = some p → s'.proc p = s.proc p)
    (hhold : ∀ c' ≠ c, ∀ lk, s'.holder lk = some c' ↔ s.holder lk = some c') (hnest : s'.Nested c)
    (hsched : (s'.cpu c).cur ≠ none → ∃ w, Away false (s'.cpu c).sched w) (hready : ∀ p, (∀ c, (s'.cpu c).cur ≠ some p) → Ready (s'.proc p))
    (honly : ∀ c' ≠ c, ∀ p, (s.cpu c').cur = some p → (s'.cpu c).cur ≠ some p) : Inv s' := by
  refine ⟨hcalm, fun c' => ?_, fun c' => ?_, hready, fun c₁ c₂ p h₁ h₂ => ?_⟩
  · by_cases hc : c' = c
    · subst hc
      exact hnest
    · exact (h.nested c').congr (hcpu c' hc) (hproc c' hc) (hhold c' hc)
  · by_cases hc : c' = c
    · subst hc
      exact hsched
    · rw [hcpu c' hc]
      exact h.sched c'
  · by_cases hc₁ : c₁ = c
    · by_cases hc₂ : c₂ = c
      · rw [hc₁, hc₂]
      · subst hc₁
        rw [hcpu c₂ hc₂] at h₂
        exact absurd h₁ (honly c₂ hc₂ p h₂)
    · by_cases hc₂ : c₂ = c
      · subst hc₂
        rw [hcpu c₁ hc₁] at h₁
        exact absurd h₂ (honly c₁ hc₁ p h₁)
      · rw [hcpu c₁ hc₁] at h₁
        rw [hcpu c₂ hc₂] at h₂
        exact h.only c₁ c₂ p h₁ h₂

/-- the thread on CPU `c` stays there -/
theorem Inv.put (h : Inv s) {holder : Lock Λ → Option ι} {r : Regs} {t : Thread Λ} {f : PState → PState}
    {H : Finset (Lock Λ)} {n : ℕ} {w : Phase} (hhold : ∀ c' ≠ c, ∀ lk, holder lk = some c' ↔ s.holder lk = some c')
    (hnest : Nest (s.cpu c).cur.isSome (fun lk => holder lk = some c) r t ((s.state c).map f) H n w) : Inv (s.put c holder r t f) := by
  have hcur : ∀ c', ((s.put c holder r t f).cpu c').cur = (s.cpu c').cur := by
    intro c'
    by_cases hc : c' = c
    · subst hc
      rw [put_cpu_self]
    · rw [put_cpu_of_ne hc]
  refine h.at (put_panic.trans h.calm) (fun c' hc => put_cpu_of_ne hc) (fun c' hc p hp => ?_) ?_ ?_ ?_ ?_ ?_
  · exact put_proc_of_ne fun heq => hc (h.only c' c p hp heq)
  · rw [put_holder]
    exact hhold
  · refine ⟨H, n, w, ?_⟩
    rw [put_cpu_self, put_holder, thread_put, state_put]
    exact hnest
  · rw [put_cpu_self]
    intro hne
    dsimp only at hne
    dsimp only
    rw [if_neg hne]
    exact h.sched c hne
  · intro p hp
    have hp' : ∀ c', (s.cpu c').cur ≠ some p := fun c' heq => hp c' ((hcur c').trans heq)
    rw [put_proc_of_ne (hp' c)]
    exact h.ready p hp'
  · intro c' hc p hp heq
    rw [hcur] at heq
    exact hc (h.only c' c p hp heq)

/-- `acquire` gets the lock, or goes on spinning -/
theorem Inv.xchg (h : Inv s) (hcode : (s.thread c).top.code = .xchg lk :: k) : Inv (s.execute c (.xchg lk) k) := by
  unfold St.execute
  dsimp only
  split
  · rename_i hfree
    obtain ⟨H, n, w, hnest⟩ := h.nested c
    have htyped := hnest.typed hcode nofun
    generalize hb : (s.cpu c).cur.isSome = b at htyped hnest
    cases htyped with
    | xchg hlk hk =>
      rename_i n
      refine h.put (H := insert lk H) (n := n) (w := .plain) ?_ ⟨?_, ?_, .inl (by rw [hb]; exact hk), ?_, hnest.off, by rw [hb]; exact hnest.below, by rw [hb]; exact hnest.own, hnest.saved⟩
      · intro c' hc l
        by_cases hl : l = lk
        · subst hl
          rw [update_self, hfree]
          exact ⟨fun heq => absurd (Option.some.inj heq).symm hc, nofun⟩
        · rw [update_of_ne hl]
      · intro l
        by_cases hl : l = lk
        · subst hl
          rw [update_self]
          exact ⟨fun _ => rfl, fun _ => Finset.mem_insert_self ..⟩
        · rw [update_of_ne hl, Finset.mem_insert, or_iff_right hl]
          exact hnest.hold l
      · have hncli := hnest.ncli
        rw [Finset.card_insert_of_notMem hlk]
        omega
      · rw [hb, Option.map_id]
        exact hnest.state
  · exact h

theorem Inv.unlock (h : Inv s) (hcode : (s.thread c).top.code = .unlock lk :: k) : Inv (s.execute c (.unlock lk) k) := by
  obtain ⟨H, n, w, hnest⟩ := h.nested c
  have htyped := hnest.typed hcode nofun
  generalize hb : (s.cpu c).cur.isSome = b at htyped hnest
  cases htyped with
  | unlock hlk hk =>
    have hheld : s.holder lk = some c := (hnest.hold lk).1 hlk
    refine h.put (H := H.erase lk) (n := n + 1) (w := .plain) ?_ ⟨?_, ?_, .inl (by rw [hb]; exact hk), ?_, hnest.off, by rw [hb]; exact hnest.below, by rw [hb]; exact hnest.own, hnest.saved⟩
    · intro c' hc l
      by_cases hl : l = lk
      · subst hl
        rw [update_self, hheld]
        exact ⟨nofun, fun heq => absurd (Option.some.inj heq).symm hc⟩
      · rw [update_of_ne hl]
    · intro l
      by_cases hl : l = lk
      · subst hl
        rw [update_self]
        exact ⟨fun hmem => absurd rfl (Finset.ne_of_mem_erase hmem), nofun⟩
      · rw [update_of_ne hl, Finset.mem_erase, and_iff_right hl]
        exact hnest.hold l
    · have hncli := hnest.ncli
      have hcard := Finset.card_erase_add_one hlk
      omega
    · rw [hb, Option.map_id]
      exact hnest.state

theorem Inv.setState (h : Inv s) (hcode : (s.thread c).top.code = .setState st :: k) : Inv (s.execute c (.setState st) k) := by
  obtain ⟨H, n, w, hnest⟩ := h.nested c
  have htyped := hnest.typed hcode nofun
  generalize hb : (s.cpu c).cur.isSome = b at htyped hnest
  cases htyped with
  | setState hk =>
    unfold St.execute
    dsimp only
    rw [if_neg (fun hnone => by rw [hnone] at hb; cases hb)]
    refine h.put (H := {none}) (n := 0) (w := .left st) (fun _ _ _ => Iff.rfl) ?_
    rw [hb]
    refine ⟨hnest.hold, hnest.ncli, .inl hk, fun _ => ?_, hnest.off, hnest.below, fun _ hlt _ => hnest.own rfl hlt nofun, ?_⟩
    · rw [hnest.state rfl]
      rfl
    · rintro (hw | ⟨st', hw⟩) <;> cases hw

/-- a process leaves its CPU, and the scheduler goes on there -/
theorem Inv.leave (h : Inv s) {p : π} (hp : (s.cpu c).cur = some p) {t : Thread Λ} (hready : Ready ⟨(s.proc p).state, t⟩)
    (hncli : (s.cpu c).regs.ncli = 1) (hoff : (s.cpu c).regs.flag = false) (hheld : ∀ lk, s.holder lk = some c ↔ lk = none) :
    Inv ((s.put c s.holder (s.cpu c).regs t id).switch c none) := by
  have hne : (s.cpu c).cur ≠ none := hp.trans_ne nofun
  have hother : ∀ c' ≠ c, ((s.put c s.holder (s.cpu c).regs t id).switch c none).cpu c' = s.cpu c' := by
    intro c' hc
    exact (update_of_ne hc ..).trans (put_cpu_of_ne hc)
  have hself : ((s.put c s.holder (s.cpu c).regs t id).switch c none).cpu c = { s.cpu c with cur := none } := by
    refine (update_self ..).trans ?_
    rw [put_cpu_self, if_neg hne]
  have hholder : ((s.put c s.holder (s.cpu c).regs t id).switch c none).holder = s.holder := put_holder
  obtain ⟨w, haway⟩ := h.sched c hne
  refine h.at (c := c) (put_panic.trans h.calm) hother (fun c' hc q hq => ?_) (fun c' _ lk => by rw [hholder]) ?_ ?_ ?_ ?_
  · exact put_proc_of_ne fun heq => hc (h.only c' c q hq heq)
  · have hthread : ((s.put c s.holder (s.cpu c).regs t id).switch c none).thread c = (s.cpu c).sched := by
      unfold St.thread
      rw [hself]
    refine ⟨{none}, 0, w, ?_⟩
    rw [hself, hholder, hthread]
    refine ⟨fun lk => ?_, hncli, .inl haway.typed, nofun, fun _ => hoff, haway.below, nofun, haway.intena⟩
    rw [hheld, Finset.mem_singleton]
  · rw [hself]
    intro hcur
    exact absurd rfl hcur
  · intro q hq
    by_cases hpq : q = p
    · subst hpq
      have hproc : ((s.put c s.holder (s.cpu c).regs t id).switch c none).proc q = ⟨(s.proc q).state, t⟩ :=
        put_proc_self hp
      rw [hproc]
      exact hready
    · have hcur : (s.cpu c).cur ≠ some q := by
        rw [hp]
        exact fun heq => hpq (Option.some.inj heq).symm
      have hproc : ((s.put c s.holder (s.cpu c).regs t id).switch c none).proc q = s.proc q := put_proc_of_ne hcur
      rw [hproc]
      refine h.ready q fun c' hc' => ?_
      by_cases hc : c' = c
      · subst hc
        exact hcur hc'
      · exact hq c' ((congrArg Cpu.cur (hother c' hc)).trans hc')
  · intro c' _ q _
    rw [hself]
    exact nofun

theorem Inv.swtch (h : Inv s) (hcode : (s.thread c).top.code = .swtch :: k) : Inv (s.execute c .swtch k) := by
  obtain ⟨H, n, w, hnest⟩ := h.nested c
  have htyped := hnest.typed hcode nofun
  have hH : (s.cpu c).cur.isSome = true ∧ H = {none} ∧ n = 0 := by
    generalize (s.cpu c).cur.isSome = b at htyped
    cases htyped with
    | swtch => exact ⟨rfl, rfl, rfl⟩
    | leave => exact ⟨rfl, rfl, rfl⟩
  obtain ⟨hb, rfl, rfl⟩ := hH
  obtain ⟨p, hp⟩ := Option.isSome_iff_exists.1 hb
  rw [hb] at hnest htyped
  have hoff := hnest.flag_off (.inr (Finset.mem_singleton_self _))
  have hstate : (s.proc p).state = w.state := Option.some.inj ((state_of_cur hp).symm.trans (hnest.state rfl))
  unfold St.execute
  dsimp only
  rw [if_neg (hp.trans_ne (Option.some_ne_none p))]
  refine h.leave hp ?_ hnest.ncli hoff.2 fun lk => (hnest.hold lk).symm.trans Finset.mem_singleton
  intro hst
  cases htyped with
  | swtch hk => exact ⟨.back, hk, .inr rfl, hnest.below, fun hw => absurd rfl hw, fun _ => hnest.saved (.inr ⟨_, rfl⟩)⟩
  | leave =>
    dsimp only at hst
    rw [hstate] at hst
    rcases hst with hst | hst <;> cases hst

/-- while CPU `c` holds `ptable.lock`, a process that is not RUNNING is on no other CPU -/
theorem Inv.nowhere (h : Inv s) (hlock : s.holder none = some c) {q : π} (hst : (s.proc q).state ≠ .running) {c' : ι}
    (hc : c' ≠ c) : (s.cpu c').cur ≠ some q := by
  intro hq
  obtain ⟨H, n, w, hnest⟩ := h.nested c'
  have hstate : (s.proc q).state = w.state :=
    Option.some.inj ((state_of_cur hq).symm.trans (hnest.state (by rw [hq]; rfl)))
  have hw : w ≠ .plain := by
    rintro rfl
    exact hst hstate
  have hheld := (hnest.hold none).1 (hnest.fits.window hw)
  rw [hlock] at hheld
  exact hc (Option.some.inj hheld).symm

/-- the scheduler gives its CPU to a process -/
theorem Inv.pick (h : Inv s) (hcode : (s.thread c).top.code = .scan :: k) {p : π} (hcur : (s.cpu c).cur = none)
    (hst : (s.proc p).state = .runnable) : Inv ((s.setState p .running).switch c (some p)) := by
  obtain ⟨H, n, w, hnest⟩ := h.nested c
  have htyped := hnest.typed hcode nofun
  have hthread : s.thread c = (s.cpu c).sched := by
    unfold St.thread
    rw [hcur]
  rw [hthread] at hnest hcode
  rw [hcur] at hnest htyped
  cases htyped with
  | scan hk =>
    have hlock : s.holder none = some c := (hnest.hold none).1 (Finset.mem_singleton_self _)
    have hnowhere : ∀ c', (s.cpu c').cur ≠ some p := by
      intro c'
      by_cases hc : c' = c
      · subst hc
        rw [hcur]
        exact nofun
      · exact h.nowhere hlock (hst.trans_ne nofun) hc
    obtain ⟨w, haway⟩ := h.ready p hnowhere (.inl hst)
    have hother : ∀ c' ≠ c, ((s.setState p .running).switch c (some p)).cpu c' = s.cpu c' := fun c' hc => update_of_ne hc ..
    have hself : ((s.setState p .running).switch c (some p)).cpu c = { s.cpu c with cur := some p } := update_self ..
    have hproc : ((s.setState p .running).switch c (some p)).proc p = ⟨.running, (s.proc p).thread⟩ := update_self ..
    have hprocs : ∀ q ≠ p, ((s.setState p .running).switch c (some p)).proc q = s.proc q := fun q hq => update_of_ne hq ..
    refine h.at (c := c) h.calm hother (fun c' hc q hq => ?_) (fun _ _ _ => Iff.rfl) ?_ ?_ ?_ ?_
    · exact hprocs q fun heq => hnowhere c' (heq ▸ hq)
    · have hthread' : ((s.setState p .running).switch c (some p)).thread c = (s.proc p).thread := by
        unfold St.thread
        rw [hself]
        dsimp only
        rw [hproc]
      have hstate' : ((s.setState p .running).switch c (some p)).state c = some .running := by
        unfold St.state
        rw [hself]
        dsimp only [Option.map_some]
        rw [hproc]
      refine ⟨{none}, 0, w, ?_⟩
      rw [hself, hthread', hstate']
      refine ⟨hnest.hold, hnest.ncli, .inl haway.typed, fun _ => ?_, hnest.off, haway.below, fun _ _ hw x hx => ?_, haway.intena⟩
      · rcases haway.phase with rfl | rfl <;> rfl
      · rw [haway.own hw rfl] at hx
        cases hx
    · rw [hself]
      intro _
      refine ⟨.plain, ?_, .inl rfl, hnest.below, nofun, nofun⟩
      rw [hcode]
      exact .scan hk
    · intro q hq
      have hqp : q ≠ p := by
        rintro rfl
        exact hq c (congrArg Cpu.cur hself)
      rw [hprocs q hqp]
      refine h.ready q fun c' hc' => ?_
      by_cases hc : c' = c
      · subst hc
        rw [hcur] at hc'
        cases hc'
      · exact hq c' ((congrArg Cpu.cur (hother c' hc)).trans hc')
    · intro c' hc q hq heq
      rw [hself] at heq
      cases heq
      exact hnowhere c' hq

/-- another process gets a new state, under `ptable.lock` -/
theorem Inv.other (h : Inv s) (hlock : s.holder none = some c) (hcode : (s.thread c).top.code = []) {q : π} {x : Proc Λ}
    (hst : (s.proc q).state ≠ .running) (hx : Ready (s.proc q) → Ready x) : Inv { s with proc := Function.update s.proc q x } := by
  have hnowhere : ∀ c', (s.cpu c').cur ≠ some q := by
    intro c' hq
    by_cases hc : c' = c
    · subst hc
      obtain ⟨H, n, w, hnest⟩ := h.nested c'
      obtain ⟨-, rfl⟩ := hnest.idle hcode
      exact hst (Option.some.inj ((state_of_cur hq).symm.trans (hnest.state (by rw [hq]; rfl))))
    · exact h.nowhere hlock hst hc hq
  refine ⟨h.calm, fun c' => (h.nested c').congr rfl (fun p hp => ?_) fun _ => Iff.rfl, h.sched, fun p hp => ?_, h.only⟩
  · have hpq : p ≠ q := fun heq => hnowhere c' (heq ▸ hp)
    exact update_of_ne hpq ..
  · by_cases hpq : p = q
    · subst hpq
      dsimp only
      rw [update_self]
      exact hx (h.ready p hnowhere)
    · dsimp only
      rw [update_of_ne hpq]
      exact h.ready p hp

/-- an instruction -/
theorem Inv.execute (h : Inv s) (hcode : (s.thread c).top.code = i :: k) : Inv (s.execute c i k) := by
  by_cases hi : ∀ lk st, i ≠ .xchg lk ∧ i ≠ .unlock lk ∧ i ≠ .setState st ∧ i ≠ .swtch
  · obtain ⟨H, n, w, hnest⟩ := h.nested c
    obtain ⟨r, t, n', w', hexec, hnest'⟩ := hnest.exec hcode (fun lk => decide_eq_true_iff (p := s.holder lk = some c)) hi
    have hs : s.execute c i k = s.put c s.holder r t id := by
      unfold St.execute
      split
      · exact absurd rfl (hi _ .running).1
      · exact absurd rfl (hi _ .running).2.1
      · exact absurd rfl (hi none _).2.2.1
      · exact absurd rfl (hi none .running).2.2.2
      · rw [hexec]
    rw [hs]
    refine h.put (fun _ _ _ => Iff.rfl) (H := H) (n := n') (w := w') ?_
    rw [Option.map_id]
    exact hnest'
  · cases i with
    | xchg lk => exact h.xchg hcode
    | unlock lk => exact h.unlock hcode
    | setState st => exact h.setState hcode
    | swtch => exact h.swtch hcode
    | _ => exact absurd (fun _ _ => ⟨nofun, nofun, nofun, nofun⟩) hi

/-- the kernel's calls fit -/
theorem typed_call {x : Call Λ} (hH : ∀ lk, lk ∈ H ↔ s.holder lk = some c) (hguard : Callers s (.call c x)) :
    Typed (s.cpu c).cur.isSome H 0 .plain x.code := by
  have hempty : (∀ lk, s.holder lk ≠ some c) → H = ∅ := fun hfree =>
    Finset.eq_empty_of_forall_notMem fun lk hlk => hfree lk ((hH lk).1 hlk)
  cases x with
  | acquire lk =>
    have htyped : Typed (s.cpu c).cur.isSome H 0 .plain (acquire lk ++ []) :=
      typed_acquire (fun hmem => hguard ((hH lk).1 hmem)) .nil
    rw [List.append_nil] at htyped
    exact htyped
  | release lk =>
    have htyped : Typed (s.cpu c).cur.isSome H 0 .plain (release lk ++ []) := typed_release ((hH lk).2 hguard) .nil
    rw [List.append_nil] at htyped
    exact htyped
  | sleep lk =>
    have hone : H = {lk} := Finset.ext fun l => (hH l).trans ((hguard.2 l).trans Finset.mem_singleton.symm)
    rw [hguard.1, hone]
    exact typed_sleep lk
  | yield =>
    rw [hguard.1, hempty hguard.2]
    exact typed_yield
  | exit =>
    rw [hguard.1, hempty hguard.2]
    exact typed_exit

/-- **One step.** -/
theorem Inv.step (h : Inv s) {op : Op ι π Λ} (hguard : Callers s op) : Inv (step s op) := by
  unfold Interrupts.step
  rw [if_neg (not_not.2 h.calm)]
  -- a step that changes the CPU and the thread on it only
  have hput : ∀ {c r t H n w}, Nest (s.cpu c).cur.isSome (fun lk => s.holder lk = some c) r t (s.state c) H n w →
      Inv (s.put c s.holder r t id) := by
    intro c r t H n w hnest
    refine h.put (fun _ _ _ => Iff.rfl) (H := H) (n := n) (w := w) ?_
    rw [Option.map_id]
    exact hnest
  cases op with
  | next c =>
    dsimp only
    split
    · exact h
    · rename_i i k hcode
      exact h.execute hcode
  | call c x =>
    dsimp only
    split
    · rename_i hcode
      obtain ⟨H, n, w, hnest⟩ := h.nested c
      obtain ⟨rfl, rfl⟩ := hnest.idle (List.isEmpty_iff.1 hcode)
      exact hput (hnest.goto (typed_call hnest.hold hguard))
    · exact h
  | irq c =>
    dsimp only
    split
    · rename_i hflag
      obtain ⟨H, n, w, hnest⟩ := h.nested c
      exact hput (hnest.irq hflag)
    · exact h
  | iret c =>
    dsimp only
    split
    · exact h
    · rename_i f fs hbelow
      split
      · rename_i hcode
        obtain ⟨H, n, w, hnest⟩ := h.nested c
        have hparked := hnest.below
        rw [hbelow] at hparked
        exact hput (hnest.enable (List.isEmpty_iff.1 hcode) hguard (hparked f List.mem_cons_self)
          fun g hg => hparked g (List.mem_cons_of_mem _ hg))
      · exact h
  | user c =>
    dsimp only
    split
    · rename_i hcode
      obtain ⟨H, n, w, hnest⟩ := h.nested c
      have hnil := List.isEmpty_iff.1 hcode.1
      have hparked : Parked (s.cpu c).cur.isSome (s.thread c).top := by
        refine .inl ?_
        rw [hnil]
        exact .nil
      exact hput (hnest.enable hnil hguard hparked hnest.below)
    · exact h
  | pick c p =>
    dsimp only
    split
    · rename_i k hcode
      split
      · rename_i hfound
        exact h.pick hcode hfound.1 hfound.2
      · exact h
    · exact h
  | wake c q =>
    dsimp only
    split
    · rename_i hq
      exact h.other hguard (List.isEmpty_iff.1 hq.1) (hq.2.trans_ne nofun) fun hready _ => hready (.inr hq.2)
    · exact h
  | fork c q =>
    dsimp only
    split
    · rename_i hq
      refine h.other hguard (List.isEmpty_iff.1 hq.1) (hq.2.trans_ne nofun) fun _ _ => ⟨.plain, typed_forkret, .inl rfl, nofun, fun _ _ => rfl, nofun⟩
    · exact h
  | reap c q =>
    dsimp only
    split
    · rename_i hq
      refine h.other hguard (List.isEmpty_iff.1 hq.1) (hq.2.trans_ne nofun) fun _ hst => ?_
      rcases hst with hst | hst <;> cases hst
    · exact h

theorem init_inv (runnable : π → Bool) : Inv (init runnable : St ι π Λ) := by
  refine ⟨rfl, fun c => ⟨∅, 0, .plain, ?_⟩, fun c hne => absurd rfl hne, fun p _ _ => ?_, nofun⟩
  · exact ⟨fun lk => ⟨fun hmem => absurd hmem (Finset.notMem_empty _), nofun⟩, rfl, .inl typed_scheduler, nofun, fun _ => rfl, nofun,
      nofun, fun _ => nofun⟩
  · exact ⟨.plain, typed_forkret, .inl rfl, nofun, fun _ _ => rfl, nofun⟩

/-! ## Nesting -/

/-- **Interrupts and locks are nested** on CPU `c`. -/
structure Nesting (s : St ι π Λ) (c : ι) : Prop where
  /-- `ncli` is the number of locks that the CPU holds and of calls of `pushcli` in progress -/
  ncli : ∃ H : Finset (Lock Λ), (∀ lk, lk ∈ H ↔ s.holder lk = some c) ∧
    ((s.cpu c).regs.ncli : ℤ) = H.card + inProgress (s.thread c).top.code
  off : 0 < (s.cpu c).regs.ncli → (s.cpu c).regs.flag = false
  /-- a process has its own `intena`, except where it is about to restore it -/
  own : ∀ p, (s.cpu c).cur = some p → 0 < (s.cpu c).regs.ncli → (∀ k, (s.proc p).thread.top.code ≠ .restore :: k) →
    ∀ x ∈ (s.proc p).thread.own, (s.cpu c).regs.intena = x

theorem St.Nested.nesting (h : s.Nested c) : Nesting s c := by
  obtain ⟨H, n, w, hnest⟩ := h
  refine ⟨⟨H, hnest.hold, ?_⟩, hnest.off, fun p hp hpos hcode => ?_⟩
  · have hncli := hnest.ncli
    have hn : (n : ℤ) = inProgress (s.thread c).top.code := by
      rcases hnest.fits with htyped | ⟨k, hcli, -, htyped⟩
      · exact htyped.inProgress
      · have hk := htyped.inProgress
        rw [hcli]
        change _ = inProgress k - 1
        omega
    omega
  · have hthread : s.thread c = (s.proc p).thread := by
      unfold St.thread
      rw [hp]
    rw [hthread] at hnest
    refine hnest.own (by rw [hp]; rfl) hpos ?_
    rintro rfl
    rcases hnest.fits with htyped | ⟨k, -, -, htyped⟩
    · obtain ⟨-, k', hk⟩ := htyped.back
      exact hcode k' hk
    · exact absurd htyped.back.1 (Nat.succ_ne_zero n)

/-- **Interrupt and lock nesting.** On any number of CPUs, in any interleaving of the kernel's calls, `ncli` counts the locks and the
`pushcli` calls of each CPU, interrupts are off while it is not zero, a process has its own `intena` on whatever CPU it resumes, and
nothing panics: neither `sched` nor `acquire`, `release` or `popcli`. -/
theorem interrupt_nesting (runnable : π → Bool) (ops : List (Op ι π Λ)) (hops : Guarded step Callers (init runnable) ops) :
    (run step (init runnable) ops).panic = none ∧ ∀ c, Nesting (run step (init runnable) ops) c := by
  have hinv := guarded_inv (I := fun s : St ι π Λ => Inv s) (fun s op hguard h => h.step hguard) _ (init_inv runnable) ops hops
  exact ⟨hinv.calm, fun c => (hinv.nested c).nesting⟩

instance Callers.decidable [Fintype Λ] (s : St ι π Λ) : ∀ op, Decidable (Callers s op)
  | .call c (.acquire lk) => inferInstanceAs (Decidable (s.holder lk ≠ some c))
  | .call c (.release lk) => inferInstanceAs (Decidable (s.holder lk = some c))
  | .call c (.sleep lk) => inferInstanceAs (Decidable ((s.cpu c).cur.isSome = true ∧ ∀ l, s.holder l = some c ↔ l = lk))
  | .call c .yield | .call c .exit => inferInstanceAs (Decidable ((s.cpu c).cur.isSome = true ∧ ∀ l, s.holder l ≠ some c))
  | .iret c | .user c => inferInstanceAs (Decidable (∀ l, s.holder l ≠ some c))
  | .wake c _ | .fork c _ | .reap c _ => inferInstanceAs (Decidable (s.holder none = some c))
  | .next _ | .irq _ | .pick _ _ => isTrue trivial

/-- a process that yields in an interrupt, with `intena` clear, and is given to the other CPU, whose `intena` is set -/
def moveOps : List (Op Bool Unit Unit) :=
  [List.replicate 8 (.next false), [.pick false ()], List.replicate 6 (.next false), [.user false, .irq false, .call false .yield],
    List.replicate 23 (.next false), List.replicate 7 (.next false), List.replicate 8 (.next true), [.pick true ()]].flatten

theorem interrupt_nesting_moves :
    ((run step (init fun _ => true) moveOps).cpu true).regs.intena = true ∧
      ((run step (init fun _ => true) moveOps).proc ()).thread.own = some false ∧
      ((run step (init fun _ => true) (moveOps ++ [.next true])).cpu true).regs.intena = false ∧
      Nesting (run step (init fun _ => true) (moveOps ++ [.next true])) true :=
  ⟨by decide +kernel, by decide +kernel, by decide +kernel,
    (interrupt_nesting (fun _ => true) (moveOps ++ [.next true]) (by decide +kernel)).2 true⟩

end Xv6.Interrupts
