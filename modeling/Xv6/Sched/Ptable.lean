/-
The process table and the CPUs (`proc.c`). Every CPU executes either its scheduler or a process; `swtch` changes which, and
`ptable.lock` goes with it from the one to the other.

What a process does under `ptable.lock`, up to the point where it releases the lock or has set its own state and calls
`sched`, is one step: the others change entries of the table without the lock only while an entry is EMBRYO, and only in the
entry that they are making. Those changes are steps of their own, and a process may give up its CPU between any two of them.
-/
import Xv6.Core.Run
import Xv6.Kernel.Basic

namespace Xv6.Ptable

open Xv6.Core
open Xv6.Kernel (NPROC)

/-! ## The table -/

/-- an entry of the process table -/
abbrev Slot := Fin NPROC

/-- `enum procstate` -/
inductive ProcState
  | unused
  | embryo
  | sleeping
  | runnable
  | running
  | zombie
  deriving DecidableEq

/-- what processes sleep on: the address of an entry of the table (in `wait`), or of something else -/
inductive Chan
  | proc (p : Slot)
  | other (a : ℕ)
  deriving DecidableEq

/-- the fields of `struct proc` that `proc.c` schedules and counts by; `kstack` says whether there is one -/
structure Proc where
  state : ProcState
  pid : ℤ
  parent : Option Slot
  chan : Option Chan
  killed : Bool
  kstack : Bool

abbrev Table := Slot → Proc

namespace Table

def setState (t : Table) (p : Slot) (st : ProcState) : Table := Function.update t p { t p with state := st }

/-- wake up all processes sleeping on `chan` -/
def wakeup1 (t : Table) (chan : Chan) : Table := fun p =>
  if (t p).state = .sleeping ∧ (t p).chan = some chan then { t p with state := .runnable } else t p

/-- one round of the loop of `exit`: an abandoned child goes to init -/
def giveChild (initproc curproc : Slot) (t : Table) (p : Slot) : Table :=
  if (t p).parent = some curproc then
    if (t p).state = .zombie then
      wakeup1 (Function.update t p { t p with parent := some initproc }) (.proc initproc)
    else Function.update t p { t p with parent := some initproc }
  else t

/-- pass abandoned children to init -/
def giveChildren (initproc curproc : Slot) (t : Table) : Table :=
  (List.finRange NPROC).foldl (giveChild initproc curproc) t

/-- `wakeup1(curproc->parent)`; nobody sleeps on 0 -/
def wakeParent (t : Table) (curproc : Slot) : Table :=
  match (t curproc).parent with
  | some p => t.wakeup1 (.proc p)
  | none => t

/-- `exit` under the lock -/
def exit (initproc curproc : Slot) (t : Table) : Table :=
  (giveChildren initproc curproc (t.wakeParent curproc)).setState curproc .zombie

/-- the first exited child in the scan of `wait` -/
def zombieChild (t : Table) (curproc : Slot) : Option Slot :=
  (List.finRange NPROC).find? fun p => (t p).parent = some curproc ∧ (t p).state = .zombie

def havekids (t : Table) (curproc : Slot) : Bool := (List.finRange NPROC).any fun p => (t p).parent = some curproc

/-- what `wait` leaves of the child -/
def reap (t : Table) (p : Slot) : Table :=
  Function.update t p { t p with kstack := false, pid := 0, parent := none, killed := false, state := .unused }

/-- `kill` under the lock, with its result -/
def kill (t : Table) (pid : ℤ) : Table × ℤ :=
  match (List.finRange NPROC).find? fun p => (t p).pid = pid with
  | some p =>
    (Function.update t p { t p with
      killed := true, state := if (t p).state = .sleeping then .runnable else (t p).state }, 0)
  | none => (t, -1)

end Table

/-! ## The machine -/

/-- where a process is in code that does not hold the lock: in `fork` and `clone`, with the entry it makes, or elsewhere -/
inductive Code
  | user
  /-- about to allocate the kernel stack (`allocproc`) -/
  | kstack (np : Slot) (thread : Bool)
  /-- about to copy the memory (`fork`) -/
  | copyuvm (np : Slot)
  /-- about to set the parent -/
  | parent (np : Slot)
  /-- about to make it RUNNABLE -/
  | ready (np : Slot)
  deriving DecidableEq

/-- where a process gave up its CPU; a new one starts in `forkret` -/
inductive Why
  | yield
  | sleep
  | wait
  | exit
  | forkret
  deriving DecidableEq

/-- the control state of a process; with `code` it goes on when it has released the lock -/
inductive Ctl
  | run (code : Code)
  /-- holds the lock, has set its state and is about to call `swtch` -/
  | leave (why : Why) (code : Code)
  /-- has called `swtch` -/
  | off (why : Why) (code : Code)
  /-- `swtch` has returned; it holds the lock -/
  | back (why : Why) (code : Code)
  deriving DecidableEq

/-- the control state of a scheduler -/
inductive Sched
  | idle
  /-- holds the lock and looks at entry `n` -/
  | scan (n : ℕ)
  /-- has chosen `p` and is about to call `swtch` -/
  | pick (p : Slot)
  /-- has called `swtch` -/
  | away (p : Slot)
  /-- `swtch` has returned; it holds the lock again -/
  | back (p : Slot)
  deriving DecidableEq

/-- a return from `wait`: who got which child, the how manieth in its entry, and whose child it was -/
structure Reap where
  by_ : Slot
  child : Slot
  gen : ℕ
  parent : Option Slot
  deriving DecidableEq

structure St (C : Type) where
  lock : Option C
  table : Table
  nextpid : ℤ
  ctl : Slot → Ctl
  /-- `c->proc` -/
  proc : C → Option Slot
  /-- on whose stack the CPU executes; `none` is the scheduler's -/
  stack : C → Option Slot
  sched : C → Sched
  /-- history: how many processes have been made in an entry -/
  gen : Slot → ℕ
  /-- history: `kill` has been called with its pid since it was made, or it took a fatal trap -/
  asked : Slot → Bool
  /-- history: the pids of the processes whose making failed -/
  failed : List ℤ
  /-- history: who has exited -/
  exited : List (Slot × ℕ)
  /-- history: whom `wait` has returned -/
  reaped : List Reap

/-- what a process does by itself; `fork` and `clone` get the entry that the scan of `allocproc` finds, if it finds one -/
inductive Call
  | yield
  | sleep (a : ℕ)
  | kill (pid : ℤ)
  | exit
  | wait
  | fork (np : Option Slot)
  | clone (np : Option Slot)

inductive Op (C : Type)
  /-- the CPU goes on with what it is at; `ok` says whether memory is found -/
  | go (c : C) (ok : Bool)
  | call (c : C) (k : Call)
  /-- the process takes a fatal trap -/
  | trap (c : C)
  /-- a process or an interrupt handler on any CPU -/
  | wakeup (chan : Chan)

/-- a value of type `int` -/
def int32 (n : ℤ) : ℤ := (n + 2 ^ 31) % 2 ^ 32 - 2 ^ 31

namespace St

variable {C : Type} [DecidableEq C] (initproc : Slot)

def setCtl (s : St C) (p : Slot) (k : Ctl) : St C := { s with ctl := Function.update s.ctl p k }

/-- the next step of a scheduler -/
def schedStep (s : St C) (c : C) : St C :=
  match s.sched c with
  | .idle => if s.lock.isNone then { s with lock := some c, sched := Function.update s.sched c (.scan 0) } else s
  | .scan n =>
    if h : n < NPROC then
      if (s.table ⟨n, h⟩).state = .runnable then
        { s with
          proc := Function.update s.proc c (some ⟨n, h⟩)
          table := s.table.setState ⟨n, h⟩ .running
          sched := Function.update s.sched c (.pick ⟨n, h⟩) }
      else { s with sched := Function.update s.sched c (.scan (n + 1)) }
    else { s with lock := none, sched := Function.update s.sched c .idle }
  | .pick p =>
    match s.ctl p with
    | .off why code =>
      { s with
        stack := Function.update s.stack c (some p)
        sched := Function.update s.sched c (.away p)
        ctl := Function.update s.ctl p (.back why code) }
    | _ => s
  | .away _ => s
  | .back p =>
    { s with proc := Function.update s.proc c none, sched := Function.update s.sched c (.scan (p.val + 1)) }

/-- the loop of `wait`, with the lock -/
def waitLoop (s : St C) (c : C) (p : Slot) : St C :=
  match s.table.zombieChild p with
  | some q =>
    { s with
      lock := none
      table := s.table.reap q
      ctl := Function.update s.ctl p (.run .user)
      reaped := ⟨p, q, s.gen q, (s.table q).parent⟩ :: s.reaped }
  | none =>
    if s.table.havekids p = false ∨ (s.table p).killed = true then
      { s with lock := none, ctl := Function.update s.ctl p (.run .user) }
    else
      { s with
        lock := some c
        table := Function.update s.table p { s.table p with chan := some (.proc p), state := .sleeping }
        ctl := Function.update s.ctl p (.leave .wait .user) }

/-- a process that is being made goes back to UNUSED; its pid stays -/
def fail (s : St C) (p np : Slot) : St C :=
  { s with
    table := Function.update s.table np { s.table np with kstack := false, state := .unused }
    ctl := Function.update s.ctl p (.run .user)
    failed := (s.table np).pid :: s.failed }

/-- the next step of a process -/
def procStep (s : St C) (c : C) (p : Slot) (ok : Bool) : St C :=
  match s.ctl p with
  | .run .user => s
  | .run (.kstack np thread) =>
    if ok then
      { s with
        table := Function.update s.table np { s.table np with kstack := true }
        ctl := Function.update (Function.update s.ctl np (.off .forkret .user)) p
          (.run (if thread then .parent np else .copyuvm np)) }
    else s.fail p np
  | .run (.copyuvm np) => if ok then s.setCtl p (.run (.parent np)) else s.fail p np
  | .run (.parent np) =>
    { s with
      table := Function.update s.table np { s.table np with parent := some p }
      ctl := Function.update s.ctl p (.run (.ready np)) }
  | .run (.ready np) =>
    if s.lock.isNone then
      { s with table := s.table.setState np .runnable, ctl := Function.update s.ctl p (.run .user) }
    else s
  | .leave why code =>
    { s with
      stack := Function.update s.stack c none
      sched := Function.update s.sched c (.back p)
      ctl := Function.update s.ctl p (.off why code) }
  | .off _ _ => s
  | .back .sleep code =>
    { s with
      lock := none
      table := Function.update s.table p { s.table p with chan := none }
      ctl := Function.update s.ctl p (.run code) }
  | .back .wait _ =>
    waitLoop { s with table := Function.update s.table p { s.table p with chan := none } } c p
  | .back .exit _ => s
  | .back .yield code | .back .forkret code => { s with lock := none, ctl := Function.update s.ctl p (.run code) }

/-- `allocproc` under the lock: the entry gets its state and its pid -/
def found (s : St C) (p np : Slot) (thread : Bool) : St C :=
  if (s.table np).state = .unused then
    { s with
      table := Function.update s.table np { s.table np with state := .embryo, pid := s.nextpid }
      nextpid := int32 (s.nextpid + 1)
      ctl := Function.update s.ctl p (.run (.kstack np thread))
      gen := Function.update s.gen np (s.gen np + 1)
      asked := Function.update s.asked np false }
  else s

/-- a process calls; only a timer interrupt makes it yield in the middle of `fork` or `clone` -/
def callStep (s : St C) (c : C) (p : Slot) (code : Code) : Call → St C
  | .yield => { s with lock := some c, table := s.table.setState p .runnable, ctl := Function.update s.ctl p (.leave .yield code) }
  | .sleep a =>
    if code = .user then
      { s with
        lock := some c
        table := Function.update s.table p { s.table p with chan := some (.other a), state := .sleeping }
        ctl := Function.update s.ctl p (.leave .sleep code) }
    else s
  | .kill pid =>
    if code = .user then
      { s with
        table := (s.table.kill pid).1
        asked := fun q => s.asked q || (s.table q).pid == pid }
    else s
  | .exit =>
    if code = .user ∧ p ≠ initproc then
      { s with
        lock := some c
        table := s.table.exit initproc p
        ctl := Function.update s.ctl p (.leave .exit code)
        exited := (p, s.gen p) :: s.exited }
    else s
  | .wait => if code = .user then waitLoop s c p else s
  | .fork np => if code = .user then np.elim s fun np => s.found p np false else s
  | .clone np => if code = .user then np.elim s fun np => s.found p np true else s

end St

/-- one step; an acquire of a lock that is held waits -/
def step {C : Type} [DecidableEq C] (initproc : Slot) (s : St C) : Op C → St C
  | .go c ok =>
    match s.stack c with
    | none => s.schedStep c
    | some p => s.procStep c p ok
  | .call c k =>
    match s.stack c with
    | none => s
    | some p =>
      match s.ctl p with
      | .run code => if s.lock.isNone then s.callStep initproc c p code k else s
      | _ => s
  | .trap c =>
    match s.stack c with
    | none => s
    | some p =>
      match s.ctl p with
      | .run .user =>
        { s with
          table := Function.update s.table p { s.table p with killed := true }
          asked := Function.update s.asked p true }
      | _ => s
  | .wakeup chan => if s.lock.isNone then { s with table := s.table.wakeup1 chan } else s

/-- after `userinit`: init is RUNNABLE, every CPU is at the beginning of `scheduler` -/
def start (C : Type) (initproc : Slot) : St C where
  lock := none
  table p := if p = initproc then ⟨.runnable, 1, none, none, false, true⟩ else ⟨.unused, 0, none, none, false, false⟩
  nextpid := 2
  ctl _ := .off .forkret .user
  proc _ := none
  stack _ := none
  sched _ := .idle
  gen p := if p = initproc then 1 else 0
  asked _ := false
  failed := []
  exited := []
  reaped := []

/-! ## What the sections do to the table -/

namespace Table

variable {t t' t'' : Table} {p q initproc curproc : Slot} {chan : Chan} {st : ProcState} {pid : ℤ}

/-- some processes that were asleep are RUNNABLE now -/
def Awake (t t' : Table) : Prop := ∀ p, t' p = t p ∨ ((t p).state = .sleeping ∧ t' p = { t p with state := .runnable })

theorem Awake.refl (t : Table) : Awake t t := fun _ => .inl rfl

theorem awake_wakeup1 (t : Table) (chan : Chan) : Awake t (t.wakeup1 chan) := by
  intro p
  unfold wakeup1
  split
  · rename_i hsl
    exact .inr ⟨hsl.1, rfl⟩
  · exact .inl rfl

/-- nobody sleeps on `chan` any more -/
theorem not_sleeping_wakeup1 (t : Table) (chan : Chan) (p : Slot) :
    ¬ ((t.wakeup1 chan p).state = .sleeping ∧ (t.wakeup1 chan p).chan = some chan) := by
  unfold wakeup1
  split
  · exact fun hsl => by cases hsl.1
  · rename_i hnot
    exact hnot

theorem awake_wakeParent (t : Table) (curproc : Slot) : Awake t (t.wakeParent curproc) := by
  unfold wakeParent
  split
  · exact awake_wakeup1 t _
  · exact .refl t

/-- the children of `curproc` in `l` are children of init, who has been woken if one of them is a zombie -/
structure Given (initproc curproc : Slot) (l : List Slot) (t t' : Table) : Prop where
  parent : ∀ p, (t' p).parent = if p ∈ l ∧ (t p).parent = some curproc then some initproc else (t p).parent
  awake : ∀ p, t' p = { t p with parent := (t' p).parent } ∨
    ((t p).state = .sleeping ∧ t' p = { t p with parent := (t' p).parent, state := .runnable })
  woken : ∀ p ∈ l, (t p).parent = some curproc → (t p).state = .zombie →
    ¬ ((t' initproc).state = .sleeping ∧ (t' initproc).chan = some (.proc initproc))

theorem Given.zombie {l : List Slot} (h : Given initproc curproc l t t') (p : Slot) : (t' p).state = .zombie ↔ (t p).state = .zombie := by
  rcases h.awake p with heq | ⟨hsl, heq⟩
  · rw [heq]
  · rw [heq, hsl]
    simp

/-- one round of the loop -/
theorem giveChild_spec (t : Table) (p : Slot) : Given initproc curproc [p] t (giveChild initproc curproc t p) := by
  unfold giveChild
  by_cases hpar : (t p).parent = some curproc
  · rw [if_pos hpar]
    have hset : ∀ q, (update t p { t p with parent := some initproc }) q =
        { t q with parent := if q ∈ [p] ∧ (t q).parent = some curproc then some initproc else (t q).parent } := by
      intro q
      by_cases hq : q = p
      · subst hq
        simp [hpar]
      · simp [hq]
    split
    · -- a zombie: init is woken
      have hawake := awake_wakeup1 (update t p { t p with parent := some initproc }) (.proc initproc)
      refine ⟨fun q => ?_, fun q => ?_, fun q _ _ _ => not_sleeping_wakeup1 _ _ _⟩
      · rcases hawake q with heq | ⟨-, heq⟩ <;> rw [heq, hset]
      · rcases hawake q with heq | ⟨hsl, heq⟩
        · rw [heq, hset]
          exact .inl rfl
        · rw [hset] at hsl
          rw [heq, hset]
          exact .inr ⟨hsl, rfl⟩
    · rename_i hnot
      refine ⟨fun q => ?_, fun q => ?_, fun q hq _ hz => ?_⟩
      · rw [hset]
      · rw [hset]
        exact .inl rfl
      · rw [List.mem_singleton.1 hq] at hz
        exact absurd hz hnot
  · rw [if_neg hpar]
    refine ⟨fun q => ?_, fun q => .inl rfl, fun q hq hpar' _ => ?_⟩
    · rw [if_neg fun hand => ?_]
      rw [List.mem_singleton.1 hand.1] at hand
      exact hpar hand.2
    · rw [List.mem_singleton.1 hq] at hpar'
      exact absurd hpar' hpar

theorem Given.trans {l l' : List Slot} (h : Given initproc curproc l t t') (h' : Given initproc curproc l' t' t'')
    (hdisj : ∀ p ∈ l, p ∉ l') : Given initproc curproc (l ++ l') t t'' := by
  refine ⟨fun p => ?_, fun p => ?_, fun p hp hpar hz => ?_⟩
  · rw [h'.parent, h.parent]
    by_cases hp : p ∈ l
    · simp [hp, hdisj p hp]
    · simp [hp]
  · rcases h.awake p with heq | ⟨hsl, heq⟩
    · rcases h'.awake p with heq' | ⟨hsl', heq'⟩
      · rw [heq', heq]
        exact .inl rfl
      · rw [heq] at hsl'
        rw [heq', heq]
        exact .inr ⟨hsl', rfl⟩
    · rcases h'.awake p with heq' | ⟨hsl', -⟩
      · rw [heq', heq]
        exact .inr ⟨hsl, rfl⟩
      · rw [heq] at hsl'
        cases hsl'
  · rcases List.mem_append.1 hp with hp | hp
    · -- woken before, and not put to sleep since
      have hold := h.woken p hp hpar hz
      rcases h'.awake initproc with heq | ⟨-, heq⟩
      · rw [heq]
        exact hold
      · rw [heq]
        exact fun hsl => by cases hsl.1
    · refine h'.woken p hp ?_ ((h.zombie p).2 hz)
      rw [h.parent, if_neg fun hand => hdisj p hand.1 hp]
      exact hpar

/-- **The loop of `exit`.** -/
theorem giveChildren_spec (initproc curproc : Slot) (t : Table) :
    Given initproc curproc (List.finRange NPROC) t (t.giveChildren initproc curproc) := by
  have hnil : Given initproc curproc [] t t := ⟨fun p => by simp, fun p => .inl rfl, nofun⟩
  have hloop : ∀ (l done : List Slot) (u : Table), Given initproc curproc done t u → (done ++ l).Nodup →
      Given initproc curproc (done ++ l) t (l.foldl (giveChild initproc curproc) u) := by
    intro l
    induction l with
    | nil =>
      intro done u hu _
      rw [List.append_nil]
      exact hu
    | cons p l ih =>
      intro done u hu hnodup
      rw [List.append_cons] at hnodup ⊢
      refine ih (done ++ [p]) _ (hu.trans (giveChild_spec u p) fun q hq hmem => ?_) hnodup
      have hdisj := List.disjoint_of_nodup_append (List.nodup_append.1 hnodup).1
      exact hdisj hq hmem
  exact hloop (List.finRange NPROC) [] t hnil (List.nodup_finRange NPROC)

/-- `exit` up to the point where it becomes a zombie -/
theorem exit_spec (initproc curproc : Slot) (t : Table) : ∃ u, Awake t u ∧
    (∀ p, (t curproc).parent = some p → ¬ ((u p).state = .sleeping ∧ (u p).chan = some (.proc p))) ∧
    ∃ v, Given initproc curproc (List.finRange NPROC) u v ∧ t.exit initproc curproc = v.setState curproc .zombie := by
  refine ⟨t.wakeParent curproc, awake_wakeParent t curproc, fun p hp => ?_, _, giveChildren_spec .., rfl⟩
  unfold wakeParent
  rw [hp]
  exact not_sleeping_wakeup1 t _ p

/-- what `exit` does to the other entries -/
theorem exit_other (initproc curproc : Slot) (t : Table) (p : Slot) (hp : p ≠ curproc) :
    t.exit initproc curproc p =
        { t p with parent := if (t p).parent = some curproc then some initproc else (t p).parent } ∨
      ((t p).state = .sleeping ∧ t.exit initproc curproc p =
        { t p with parent := if (t p).parent = some curproc then some initproc else (t p).parent, state := .runnable }) := by
  obtain ⟨u, hu, -, v, hv, heq⟩ := exit_spec initproc curproc t
  have hset : t.exit initproc curproc p = v p := by
    rw [heq]
    exact update_of_ne hp ..
  have hpar := hv.parent p
  simp only [List.mem_finRange, true_and] at hpar
  rw [hset]
  rcases hu p with hup | ⟨hsl, hup⟩
  · rw [hup] at hpar
    rcases hv.awake p with hvp | ⟨hsl, hvp⟩
    · rw [hvp, hpar, hup]
      exact .inl rfl
    · rw [hup] at hsl
      rw [hvp, hpar, hup]
      exact .inr ⟨hsl, rfl⟩
  · rw [hup] at hpar
    rcases hv.awake p with hvp | ⟨hsl', -⟩
    · rw [hvp, hpar, hup]
      exact .inr ⟨hsl, rfl⟩
    · rw [hup] at hsl'
      cases hsl'

theorem exit_self (initproc curproc : Slot) (t : Table) : t.exit initproc curproc curproc =
    { t curproc with
      parent := if (t curproc).parent = some curproc then some initproc else (t curproc).parent
      state := .zombie } := by
  obtain ⟨u, hu, -, v, hv, heq⟩ := exit_spec initproc curproc t
  have hset : t.exit initproc curproc curproc = { v curproc with state := .zombie } := by
    rw [heq]
    exact update_self ..
  have hpar := hv.parent curproc
  simp only [List.mem_finRange, true_and] at hpar
  rw [hset]
  rcases hu curproc with hup | ⟨-, hup⟩
  all_goals
    rw [hup] at hpar
    rcases hv.awake curproc with hvp | ⟨-, hvp⟩ <;> rw [hvp, hpar, hup]

/-- the parent is awake, and so is init if it gets an exited child -/
theorem exit_wakes (initproc curproc : Slot) (t : Table) (p : Slot) (hp : p ≠ curproc) (hwhy : (t curproc).parent = some p ∨
      (p = initproc ∧ ∃ q, q ≠ curproc ∧ (t q).parent = some curproc ∧ (t q).state = .zombie)) :
    ¬ ((t.exit initproc curproc p).state = .sleeping ∧ (t.exit initproc curproc p).chan = some (.proc p)) := by
  obtain ⟨u, hu, hparent, v, hv, heq⟩ := exit_spec initproc curproc t
  have hset : t.exit initproc curproc p = v p := by
    rw [heq]
    exact update_of_ne hp ..
  rw [hset]
  rcases hwhy with hpar | ⟨rfl, q, -, hq, hz⟩
  · have hnot := hparent p hpar
    rcases hv.awake p with hvp | ⟨-, hvp⟩
    · rw [hvp]
      exact hnot
    · rw [hvp]
      exact fun hsl => by cases hsl.1
  · have huq : u q = t q := by
      rcases hu q with huq | ⟨hsl, -⟩
      · exact huq
      · rw [hz] at hsl
        cases hsl
    refine hv.woken q (List.mem_finRange q) ?_ ?_
    · rw [huq]
      exact hq
    · rw [huq]
      exact hz

/-- `kill` finds an entry with the pid, or there is none -/
theorem kill_spec (t : Table) (pid : ℤ) : ((t.kill pid).2 = -1 ∧ (t.kill pid).1 = t ∧ ∀ p, (t p).pid ≠ pid) ∨
    ∃ p, (t.kill pid).2 = 0 ∧ (t p).pid = pid ∧ (t.kill pid).1 = update t p { t p with
      killed := true, state := if (t p).state = .sleeping then .runnable else (t p).state } := by
  unfold kill
  cases hfind : (List.finRange NPROC).find? fun p => (t p).pid = pid with
  | none =>
    refine .inl ⟨rfl, rfl, fun p hp => ?_⟩
    have hnot := List.find?_eq_none.1 hfind p (List.mem_finRange p)
    exact hnot (by simpa using hp)
  | some p => exact .inr ⟨p, rfl, by simpa using List.find?_some hfind, rfl⟩

theorem kill_state (t : Table) (pid : ℤ) (p : Slot) : ((t.kill pid).1 p).state = (t p).state ∨
    ((t p).state = .sleeping ∧ ((t.kill pid).1 p).state = .runnable) := by
  rcases kill_spec t pid with ⟨-, heq, -⟩ | ⟨q, -, -, heq⟩
  · rw [heq]
    exact .inl rfl
  · rw [heq]
    by_cases hp : p = q
    · subst hp
      rw [update_self]
      dsimp only
      split
      · rename_i hsl
        exact .inr ⟨hsl, rfl⟩
      · exact .inl rfl
    · rw [update_of_ne hp]
      exact .inl rfl

/-- the scan of `wait` -/
theorem zombieChild_some (h : t.zombieChild curproc = some p) : (t p).parent = some curproc ∧ (t p).state = .zombie := by
  simpa using List.find?_some h

theorem zombieChild_none (h : t.zombieChild curproc = none) (p : Slot) (hpar : (t p).parent = some curproc) : (t p).state ≠ .zombie := by
  intro hz
  have hnot := List.find?_eq_none.1 h p (List.mem_finRange p)
  exact hnot (by simp [hpar, hz])

end Table

/-! ## What a step does -/

/-- process `p`, on CPU `c`, is at the head of the loop of `wait`, with the lock, and the table is `t`: it has just taken the
lock, or it has just been switched to and has cleared its `chan` -/
def AtWait {C : Type} (s : St C) (c : C) (p : Slot) (t : Table) : Prop :=
  s.stack c = some p ∧ ((s.ctl p = .run .user ∧ s.lock = none ∧ t = s.table) ∨
    ∃ code, s.ctl p = .back .wait code ∧ t = Function.update s.table p { s.table p with chan := none })

/-- the effects of the steps, each with the conditions of its branch; the operation is named where the effect depends on it -/
inductive Does {C : Type} [DecidableEq C] (initproc : Slot) (s : St C) : Op C → St C → Prop
  | nothing {op : Op C} : Does initproc s op s
  /-- a scheduler takes the lock -/
  | acquire {op : Op C} (c : C) (hst : s.stack c = none) (hsch : s.sched c = .idle) (hlock : s.lock = none) :
      Does initproc s op { s with lock := some c, sched := Function.update s.sched c (.scan 0) }
  | next {op : Op C} (c : C) (n : ℕ) (hst : s.stack c = none) (hsch : s.sched c = .scan n) :
      Does initproc s op { s with sched := Function.update s.sched c (.scan (n + 1)) }
  | release {op : Op C} (c : C) (n : ℕ) (hst : s.stack c = none) (hsch : s.sched c = .scan n) :
      Does initproc s op { s with lock := none, sched := Function.update s.sched c .idle }
  | pick {op : Op C} (c : C) (p : Slot) (hst : s.stack c = none) (hsch : s.sched c = .scan p.val)
      (hstate : (s.table p).state = .runnable) :
      Does initproc s op { s with
        proc := Function.update s.proc c (some p)
        table := s.table.setState p .running
        sched := Function.update s.sched c (.pick p) }
  | swtch {op : Op C} (c : C) (p : Slot) (why : Why) (code : Code) (hst : s.stack c = none) (hsch : s.sched c = .pick p)
      (hctl : s.ctl p = .off why code) :
      Does initproc s op { s with
        stack := Function.update s.stack c (some p)
        sched := Function.update s.sched c (.away p)
        ctl := Function.update s.ctl p (.back why code) }
  | returned {op : Op C} (c : C) (p : Slot) (hst : s.stack c = none) (hsch : s.sched c = .back p) :
      Does initproc s op { s with proc := Function.update s.proc c none, sched := Function.update s.sched c (.scan (p.val + 1)) }
  /-- a process calls `swtch` -/
  | leave {op : Op C} (c : C) (p : Slot) (why : Why) (code : Code) (hst : s.stack c = some p) (hctl : s.ctl p = .leave why code) :
      Does initproc s op { s with
        stack := Function.update s.stack c none
        sched := Function.update s.sched c (.back p)
        ctl := Function.update s.ctl p (.off why code) }
  /-- it is back in `yield` or starts in `forkret`, and releases the lock -/
  | resume {op : Op C} (c : C) (p : Slot) (why : Why) (code : Code) (hst : s.stack c = some p) (hctl : s.ctl p = .back why code) :
      Does initproc s op { s with lock := none, ctl := Function.update s.ctl p (.run code) }
  | awoken {op : Op C} (c : C) (p : Slot) (code : Code) (hst : s.stack c = some p) (hctl : s.ctl p = .back .sleep code) :
      Does initproc s op { s with
        lock := none
        table := Function.update s.table p { s.table p with chan := none }
        ctl := Function.update s.ctl p (.run code) }
  | kstack {op : Op C} (c : C) (p np : Slot) (thread : Bool) (hst : s.stack c = some p) (hctl : s.ctl p = .run (.kstack np thread)) :
      Does initproc s op { s with
        table := Function.update s.table np { s.table np with kstack := true }
        ctl := Function.update (Function.update s.ctl np (.off .forkret .user)) p
          (.run (if thread then .parent np else .copyuvm np)) }
  | fail (c : C) (p np : Slot) (code : Code) (hst : s.stack c = some p) (hctl : s.ctl p = .run code)
      (hcode : code = .copyuvm np ∨ ∃ thread, code = .kstack np thread) : Does initproc s (.go c false) (s.fail p np)
  | copied {op : Op C} (c : C) (p np : Slot) (hst : s.stack c = some p) (hctl : s.ctl p = .run (.copyuvm np)) :
      Does initproc s op (s.setCtl p (.run (.parent np)))
  | parent {op : Op C} (c : C) (p np : Slot) (hst : s.stack c = some p) (hctl : s.ctl p = .run (.parent np)) :
      Does initproc s op { s with
        table := Function.update s.table np { s.table np with parent := some p }
        ctl := Function.update s.ctl p (.run (.ready np)) }
  | ready {op : Op C} (c : C) (p np : Slot) (hst : s.stack c = some p) (hctl : s.ctl p = .run (.ready np)) (hlock : s.lock = none) :
      Does initproc s op { s with table := s.table.setState np .runnable, ctl := Function.update s.ctl p (.run .user) }
  | reap {op : Op C} (c : C) (p q : Slot) (t : Table) (hat : AtWait s c p t) (hz : t.zombieChild p = some q) :
      Does initproc s op { s with
        lock := none
        table := t.reap q
        ctl := Function.update s.ctl p (.run .user)
        reaped := ⟨p, q, s.gen q, (t q).parent⟩ :: s.reaped }
  | noChild {op : Op C} (c : C) (p : Slot) (t : Table) (hat : AtWait s c p t) :
      Does initproc s op { s with lock := none, table := t, ctl := Function.update s.ctl p (.run .user) }
  | await {op : Op C} (c : C) (p : Slot) (t : Table) (hat : AtWait s c p t) (hz : t.zombieChild p = none) :
      Does initproc s op { s with
        lock := some c
        table := Function.update t p { t p with chan := some (.proc p), state := .sleeping }
        ctl := Function.update s.ctl p (.leave .wait .user) }
  | yield {op : Op C} (c : C) (p : Slot) (code : Code) (hst : s.stack c = some p) (hctl : s.ctl p = .run code) (hlock : s.lock = none) :
      Does initproc s op { s with
        lock := some c
        table := s.table.setState p .runnable
        ctl := Function.update s.ctl p (.leave .yield code) }
  | sleep {op : Op C} (c : C) (p : Slot) (a : ℕ) (hst : s.stack c = some p) (hctl : s.ctl p = .run .user) (hlock : s.lock = none) :
      Does initproc s op { s with
        lock := some c
        table := Function.update s.table p { s.table p with chan := some (.other a), state := .sleeping }
        ctl := Function.update s.ctl p (.leave .sleep .user) }
  | kill (c : C) (p : Slot) (pid : ℤ) (hst : s.stack c = some p) (hctl : s.ctl p = .run .user) (hlock : s.lock = none) :
      Does initproc s (.call c (.kill pid)) { s with
        table := (s.table.kill pid).1
        asked := fun q => s.asked q || (s.table q).pid == pid }
  | exit {op : Op C} (c : C) (p : Slot) (hst : s.stack c = some p) (hctl : s.ctl p = .run .user) (hlock : s.lock = none)
      (hne : p ≠ initproc) :
      Does initproc s op { s with
        lock := some c
        table := s.table.exit initproc p
        ctl := Function.update s.ctl p (.leave .exit .user)
        exited := (p, s.gen p) :: s.exited }
  | found {op : Op C} (c : C) (p np : Slot) (thread : Bool) (hst : s.stack c = some p) (hctl : s.ctl p = .run .user)
      (hlock : s.lock = none) (hstate : (s.table np).state = .unused) :
      Does initproc s op { s with
        table := Function.update s.table np { s.table np with state := .embryo, pid := s.nextpid }
        nextpid := int32 (s.nextpid + 1)
        ctl := Function.update s.ctl p (.run (.kstack np thread))
        gen := Function.update s.gen np (s.gen np + 1)
        asked := Function.update s.asked np false }
  | trap {op : Op C} (c : C) (p : Slot) (hst : s.stack c = some p) (hctl : s.ctl p = .run .user) :
      Does initproc s op { s with
        table := Function.update s.table p { s.table p with killed := true }
        asked := Function.update s.asked p true }
  | wakeup {op : Op C} (chan : Chan) (hlock : s.lock = none) : Does initproc s op { s with table := s.table.wakeup1 chan }

section

variable {C : Type} [DecidableEq C] {initproc : Slot} {s : St C} {c : C} {p : Slot} {op : Op C}

theorem schedStep_does (hst : s.stack c = none) : Does initproc s op (s.schedStep c) := by
  unfold St.schedStep
  cases hsch : s.sched c with
  | idle =>
    dsimp only
    split
    · rename_i hlock
      exact .acquire c hst hsch (Option.isNone_iff_eq_none.1 hlock)
    · exact .nothing
  | scan n =>
    dsimp only
    split
    · rename_i hn
      split
      · rename_i hstate
        exact .pick c ⟨n, hn⟩ hst hsch hstate
      · exact .next c n hst hsch
    · exact .release c n hst hsch
  | pick p =>
    dsimp only
    split
    · rename_i why code hctl
      exact .swtch c p why code hst hsch hctl
    · exact .nothing
  | away p => exact .nothing
  | back p => exact .returned c p hst hsch

theorem waitLoop_does {t : Table} (hat : AtWait s c p t) : Does initproc s op (St.waitLoop { s with table := t } c p) := by
  unfold St.waitLoop
  dsimp only
  split
  · rename_i q hz
    exact .reap c p q t hat hz
  · rename_i hz
    split
    · exact .noChild c p t hat
    · exact .await c p t hat hz

theorem procStep_does (hst : s.stack c = some p) (ok : Bool) : Does initproc s (.go c ok) (s.procStep c p ok) := by
  unfold St.procStep
  split
  · exact .nothing
  · rename_i np thread hctl
    cases ok with
    | true => exact .kstack c p np thread hst hctl
    | false => exact .fail c p np _ hst hctl (.inr ⟨thread, rfl⟩)
  · rename_i np hctl
    cases ok with
    | true => exact .copied c p np hst hctl
    | false => exact .fail c p np _ hst hctl (.inl rfl)
  · rename_i np hctl
    exact .parent c p np hst hctl
  · rename_i np hctl
    split
    · rename_i hlock
      exact .ready c p np hst hctl (Option.isNone_iff_eq_none.1 hlock)
    · exact .nothing
  · rename_i why code hctl
    exact .leave c p why code hst hctl
  · exact .nothing
  · rename_i code hctl
    exact .awoken c p code hst hctl
  · rename_i code hctl
    exact waitLoop_does ⟨hst, .inr ⟨code, hctl, rfl⟩⟩
  · exact .nothing
  · rename_i code hctl
    exact .resume c p .yield code hst hctl
  · rename_i code hctl
    exact .resume c p .forkret code hst hctl

theorem found_does {np : Slot} {thread : Bool} (hst : s.stack c = some p) (hctl : s.ctl p = .run .user)
    (hlock : s.lock = none) : Does initproc s op (s.found p np thread) := by
  unfold St.found
  split
  · rename_i hstate
    exact .found c p np thread hst hctl hlock hstate
  · exact .nothing

theorem callStep_does {code : Code} (hst : s.stack c = some p) (hctl : s.ctl p = .run code) (hlock : s.lock = none)
    (k : Call) : Does initproc s (.call c k) (s.callStep initproc c p code k) := by
  by_cases hcode : code = .user
  · subst hcode
    unfold St.callStep
    cases k with
    | yield => exact .yield c p .user hst hctl hlock
    | sleep a => exact .sleep c p a hst hctl hlock
    | kill pid => exact .kill c p pid hst hctl hlock
    | exit =>
      dsimp only
      split
      · rename_i hne
        exact .exit c p hst hctl hlock hne.2
      · exact .nothing
    | wait => exact waitLoop_does ⟨hst, .inl ⟨hctl, hlock, rfl⟩⟩
    | fork np =>
      cases np with
      | none => exact .nothing
      | some np => exact found_does hst hctl hlock
    | clone np =>
      cases np with
      | none => exact .nothing
      | some np => exact found_does hst hctl hlock
  · unfold St.callStep
    cases k with
    | yield => exact .yield c p code hst hctl hlock
    | exit =>
      dsimp only
      rw [if_neg fun hand => hcode hand.1]
      exact .nothing
    | _ =>
      dsimp only
      rw [if_neg hcode]
      exact .nothing

/-- **A step has one of the effects.** -/
theorem step_does (initproc : Slot) (s : St C) (op : Op C) : Does initproc s op (step initproc s op) := by
  unfold step
  cases op with
  | go c ok =>
    dsimp only
    split
    · rename_i hst
      exact schedStep_does hst
    · rename_i p hst
      exact procStep_does hst ok
  | call c k =>
    dsimp only
    split
    · exact .nothing
    · rename_i p hst
      split
      · rename_i code hctl
        split
        · rename_i hlock
          exact callStep_does hst hctl (Option.isNone_iff_eq_none.1 hlock) k
        · exact .nothing
      · exact .nothing
  | trap c =>
    dsimp only
    split
    · exact .nothing
    · rename_i p hst
      split
      · rename_i hctl
        exact .trap c p hst hctl
      · exact .nothing
  | wakeup chan =>
    dsimp only
    split
    · rename_i hlock
      exact .wakeup chan (Option.isNone_iff_eq_none.1 hlock)
    · exact .nothing

end

end Xv6.Ptable
