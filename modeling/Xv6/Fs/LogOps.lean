/-
Operations on the log under interleaving (`begin_op`, `log_write`, `end_op` and `commit` of `log.c`, with `sleep` and
`wakeup` of `proc.c`).

Any number of processes run; the scheduler picks who makes the next step, and a process that is not in an operation may
begin one, one that is in an operation may log any block or end it. Each acquire and release of a lock is a step, and so
is each piece of code between two of them; the test at the start of `log_write` is made without the lock. Every round of
the loops of `commit` is a step of its own, so that a crash between two disk writes is a state like any other. A process
that panics goes no further.

The change an operation makes to a block is taken together with the record of the block in the log: the operation has
the buffer locked from before the change until after `log_write`. What operations have logged so far is kept in `hist`,
with the operation and the transaction; the model does not read it.
-/
import Xv6.Core.Regions
import Xv6.Fs.Log

namespace Xv6.Fs

open Xv6.Core Bcache

namespace LogOps

/-! ## Model -/

inductive Panic
  /-- "too big a transaction" -/
  | tooBig
  /-- "log_write outside of trans" -/
  | outside
  /-- "log.committing" -/
  | committing
  deriving DecidableEq

/-- where a process stands -/
inductive Pc
  | out
  -- begin_op
  | beginAcquire
  | beginTest
  -- sleep(&log, &log.lock)
  | sleepAcquire
  | sleepRelease
  | sleepSched
  | sleeping
  | woken
  | beginRelease
  -- between begin_op and end_op
  | op
  -- log_write
  | writeCheck (b : ℕ) (f : Block → Block)
  | writeAcquire (b : ℕ) (f : Block → Block)
  | writeRecord (b : ℕ) (f : Block → Block)
  | writeRelease
  -- end_op
  | endAcquire
  | endDec
  -- wakeup(&log)
  | wakeAcquire
  | wakeAll
  | wakeRelease
  | endRelease
  | commitRelease
  -- commit
  | commit
  | writeLog (tail : ℕ)
  | writeHead
  | install (tail : ℕ)
  | clearLog
  | clearHead
  -- end_op after the commit
  | commitAcquire
  | commitDone
  | panic (why : Panic)

/-- one `log_write`: transaction, operation, block and change -/
structure Entry where
  txn : ℕ
  op : ℕ
  block : ℕ
  change : Block → Block

structure St (ι : Type) where
  /-- who has `log.lock` -/
  lock : Option ι
  /-- who has `ptable.lock` -/
  ptable : Option ι
  committing : Bool
  log : Log
  bc : Bcache
  pc : ι → Pc
  opid : ι → ℕ
  nextOp : ℕ
  /-- the number of headers written -/
  txn : ℕ
  hist : List Entry

variable {ι : Type} [DecidableEq ι]

namespace St

def goto (s : St ι) (i : ι) (l : Pc) : St ι := { s with pc := Function.update s.pc i l }

/-- `acquire(&log.lock)`: it spins while somebody has the lock -/
def acquire (s : St ι) (i : ι) (l : Pc) : St ι := if s.lock = none then { s.goto i l with lock := some i } else s

def release (s : St ι) (i : ι) (l : Pc) : St ι := { s.goto i l with lock := none }

/-- `acquire(&ptable.lock)` -/
def acquirePtable (s : St ι) (i : ι) (l : Pc) : St ι :=
  if s.ptable = none then { s.goto i l with ptable := some i } else s

def releasePtable (s : St ι) (i : ι) (l : Pc) : St ι := { s.goto i l with ptable := none }

end St

/-- `wakeup1(&log)` -/
def wakeup1 (pc : ι → Pc) : ι → Pc := fun j =>
  match pc j with
  | .sleeping => .woken
  | l => l

/-- the next step of process `i` -/
def next (s : St ι) (i : ι) : St ι :=
  match s.pc i with
  | .out | .op | .sleeping | .panic _ => s
  | .beginAcquire => s.acquire i .beginTest
  | .beginTest =>
    if s.committing = true then s.goto i .sleepAcquire
    else if LOGSIZE < s.log.n + (s.log.outstanding + 1) * MAXOPBLOCKS then s.goto i .sleepAcquire
    else { s.goto i .beginRelease with log := { s.log with outstanding := s.log.outstanding + 1 } }
  | .sleepAcquire => s.acquirePtable i .sleepRelease
  | .sleepRelease => s.release i .sleepSched
  -- sched: the scheduler gives back ptable.lock
  | .sleepSched => s.releasePtable i .sleeping
  | .woken => if s.ptable = none then s.goto i .beginAcquire else s
  | .beginRelease => s.release i .op
  | .writeCheck b f =>
    if LOGSIZE ≤ s.log.n ∨ s.log.size - 1 ≤ s.log.n then s.goto i (.panic .tooBig)
    else if s.log.outstanding < 1 then s.goto i (.panic .outside)
    else s.goto i (.writeAcquire b f)
  | .writeAcquire b f => s.acquire i (.writeRecord b f)
  | .writeRecord b f =>
    { s.goto i .writeRelease with
      log := s.log.record b
      bc := s.bc |> bread b |> modify b f |> pin b |> brelse b
      hist := s.hist ++ [⟨s.txn, s.opid i, b, f⟩] }
  | .writeRelease => s.release i .op
  | .endAcquire => s.acquire i .endDec
  | .endDec =>
    let s := { s with log := { s.log with outstanding := s.log.outstanding - 1 } }
    if s.committing = true then s.goto i (.panic .committing)
    else if s.log.outstanding = 0 then { s.goto i .commitRelease with committing := true }
    else s.goto i .wakeAcquire
  | .wakeAcquire => s.acquirePtable i .wakeAll
  | .wakeAll => { s with pc := Function.update (wakeup1 s.pc) i .wakeRelease }
  | .wakeRelease => s.releasePtable i .endRelease
  | .endRelease => s.release i .out
  | .commitRelease => s.release i .commit
  | .commit => if 0 < s.log.n then s.goto i (.writeLog 0) else s.goto i .commitAcquire
  | .writeLog tail =>
    if tail < s.log.n then { s.goto i (.writeLog (tail + 1)) with bc := s.log.writeLogRound s.bc tail }
    else s.goto i .writeHead
  | .writeHead => { s.goto i (.install 0) with bc := s.log.writeHead s.bc, txn := s.txn + 1 }
  | .install tail =>
    if tail < s.log.n then { s.goto i (.install (tail + 1)) with bc := s.log.installRound s.bc tail }
    else s.goto i .clearLog
  | .clearLog => { s.goto i .clearHead with log := { s.log with n := 0 } }
  | .clearHead => { s.goto i .commitAcquire with bc := s.log.writeHead s.bc }
  | .commitAcquire => s.acquire i .commitDone
  | .commitDone => { s.goto i .wakeAcquire with committing := false }

inductive Act (ι : Type)
  /-- process `i` goes on -/
  | next (i : ι)
  | beginOp (i : ι)
  | logWrite (i : ι) (b : ℕ) (f : Block → Block)
  | endOp (i : ι)
  /-- `kill` makes a sleeping process RUNNABLE -/
  | kill (i : ι)

/-- a call that the process is not in a position to make changes nothing -/
def step (s : St ι) : Act ι → St ι
  | .next i => next s i
  | .beginOp i =>
    match s.pc i with
    | .out => { s.goto i .beginAcquire with opid := Function.update s.opid i s.nextOp, nextOp := s.nextOp + 1 }
    | _ => s
  | .logWrite i b f =>
    match s.pc i with
    | .op => s.goto i (.writeCheck b f)
    | _ => s
  | .endOp i =>
    match s.pc i with
    | .op => s.goto i .endAcquire
    | _ => s
  | .kill i =>
    match s.pc i with
    | .sleeping => if s.ptable = none then s.goto i .woken else s
    | _ => s

/-- nobody is in the log, and nothing is in it -/
def start (g : Log) (bc : Bcache) : St ι :=
  { lock := none, ptable := none, committing := false, log := { g with outstanding := 0, n := 0 }, bc := bc
    pc := fun _ => .out, opid := fun _ => 0, nextOp := 0, txn := 0, hist := [] }

/-! ## Regions -/

/-- holds `log.lock` -/
def Pc.HasLock : Pc → Prop
  | .beginTest | .sleepAcquire | .sleepRelease | .beginRelease | .writeRecord _ _ | .writeRelease | .endDec
  | .wakeAcquire | .wakeAll | .wakeRelease | .endRelease | .commitRelease | .commitDone => True
  | _ => False

/-- holds `ptable.lock` -/
def Pc.HasPtable : Pc → Prop
  | .sleepRelease | .sleepSched | .wakeAll | .wakeRelease => True
  | _ => False

/-- counted in `outstanding` -/
def Pc.InOp : Pc → Prop
  | .beginRelease | .op | .writeCheck _ _ | .writeAcquire _ _ | .writeRecord _ _ | .writeRelease | .endAcquire
  | .endDec | .panic .tooBig | .panic .outside => True
  | _ => False

/-- has set `committing` -/
def Pc.InCommit : Pc → Prop
  | .commitRelease | .commit | .writeLog _ | .writeHead | .install _ | .clearLog | .clearHead | .commitAcquire
  | .commitDone => True
  | _ => False

/-- the commit is over -/
def Pc.Committed : Pc → Prop
  | .clearHead | .commitAcquire | .commitDone => True
  | _ => False

/-- the locks exclude, `outstanding` counts the operations, `committing` the commit; a commit runs without operations, and
without either the log is empty -/
structure Ctl (s : St ι) : Prop where
  lock : Owned Pc.HasLock s.lock s.pc
  ptable : Owned Pc.HasPtable s.ptable s.pc
  count : Counted Pc.InOp s.log.outstanding s.pc
  commit : Counted Pc.InCommit (if s.committing = true then 1 else 0) s.pc
  quiet : s.committing = true → s.log.outstanding = 0
  empty : s.committing = false → s.log.outstanding = 0 → s.log.n = 0
  committed : ∀ i, (s.pc i).Committed → s.log.n = 0
  noPanic : ∀ i, s.pc i ≠ .panic .committing

omit [DecidableEq ι] in
theorem start_ctl (g : Log) (bc : Bcache) : Ctl (start g bc : St ι) := by
  refine ⟨fun i h => h.elim, fun i h => h.elim, ⟨∅, rfl, fun i => ?_⟩, ⟨∅, rfl, fun i => ?_⟩, fun h => ?_, fun _ _ => rfl,
    fun _ _ => rfl, fun i h => ?_⟩
  · simp [start, Pc.InOp]
  · simp [start, Pc.InCommit]
  · cases h
  · cases h

variable {s s' : St ι} {i : ι} {l : Pc}

omit [DecidableEq ι] in
theorem Ctl.notCommitting (h : Ctl s) (hi : (s.pc i).InOp) : ¬ s.committing = true := fun hc => by
  have hop : 0 < s.log.outstanding := h.count.pos hi
  have := h.quiet hc
  omega

omit [DecidableEq ι] in
theorem Ctl.isCommitting (h : Ctl s) (hi : (s.pc i).InCommit) : s.committing = true := by
  by_contra hc
  have := h.commit.pos hi
  simp [hc] at this

omit [DecidableEq ι] in
/-- an operation and a commit do not meet -/
theorem Ctl.apart (h : Ctl s) {i j : ι} (hi : (s.pc i).InOp) (hj : (s.pc j).InCommit) : False :=
  h.notCommitting hi (h.isCommitting hj)

theorem Pc.Committed.inCommit {l : Pc} (h : l.Committed) : l.InCommit := by
  cases l <;> simp_all [Pc.Committed, Pc.InCommit]

/-- the two places are on the same side of every counter -/
structure Pc.Alike (a b : Pc) : Prop where
  inOp : b.InOp ↔ a.InOp
  inCommit : b.InCommit ↔ a.InCommit
  committed : b.Committed → a.Committed
  noPanic : b ≠ .panic .committing

/-- what holds of the place a process moves to and of all others -/
theorem forall_goto {P : Pc → Prop} {pc : ι → Pc} (hl : P l) (h : ∀ j, P (pc j)) (j : ι) : P (update pc i l j) := by
  by_cases hji : j = i
  · rw [hji, update_self]
    exact hl
  · rw [update_of_ne hji]
    exact h j

variable {a : Pc}

/-- **A move.** One process moves from `a` to `l` and the counters stay; the log changes only in an operation, or is
emptied. -/
theorem Ctl.move (h : Ctl s) (hi : s.pc i = a) (hpc : s'.pc = update s.pc i l)
    (hlock : (s'.lock = s.lock ∧ (l.HasLock → a.HasLock)) ∨ (s.lock = none ∧ s'.lock = some i) ∨ (a.HasLock ∧ ¬ l.HasLock))
    (hptable : (s'.ptable = s.ptable ∧ (l.HasPtable → a.HasPtable)) ∨ (s.ptable = none ∧ s'.ptable = some i) ∨
      (a.HasPtable ∧ ¬ l.HasPtable))
    (hout : s'.log.outstanding = s.log.outstanding) (hcom : s'.committing = s.committing) (hop : l.InOp ↔ a.InOp)
    (hic : l.InCommit ↔ a.InCommit) (hn : s'.log.n = s.log.n ∨ s'.log.n = 0 ∨ a.InOp)
    (hdone : l.Committed → a.Committed ∨ s'.log.n = 0) (hp : l ≠ .panic .committing) : Ctl s' := by
  subst hi
  have hkeep : ∀ j, (s.pc j).Committed → s'.log.n = 0 := by
    intro j hj
    rcases hn with hn | hn | hn
    · rw [hn]
      exact h.committed j hj
    · exact hn
    · exact (h.apart hn hj.inCommit).elim
  refine ⟨?_, ?_, ?_, ?_, ?_, fun hc ho => ?_, ?_, ?_⟩
  · rw [hpc]
    exact h.lock.step hlock
  · rw [hpc]
    exact h.ptable.step hptable
  · rw [hpc, hout]
    exact h.count.stay hop
  · rw [hpc, hcom]
    exact h.commit.stay hic
  · rw [hcom, hout]
    exact h.quiet
  · rw [hcom] at hc
    rw [hout] at ho
    rcases hn with hn | hn | hn
    · rw [hn]
      exact h.empty hc ho
    · exact hn
    · have := h.count.pos hn
      omega
  · rw [hpc]
    exact forall_goto (P := fun q => q.Committed → s'.log.n = 0) (fun hd => (hdone hd).elim (hkeep i) id) hkeep
  · rw [hpc]
    exact forall_goto (P := fun q => q ≠ .panic .committing) hp h.noPanic

theorem Ctl.goto (h : Ctl s) (hi : s.pc i = a) (ha : a.Alike l) (hl : l.HasLock → a.HasLock)
    (hp : l.HasPtable → a.HasPtable) : Ctl (s.goto i l) :=
  h.move hi rfl (.inl ⟨rfl, hl⟩) (.inl ⟨rfl, hp⟩) rfl rfl ha.inOp ha.inCommit (.inl rfl)
    (fun hc => .inl (ha.committed hc)) ha.noPanic

theorem Ctl.acquire (h : Ctl s) (hi : s.pc i = a) (ha : a.Alike l) (hp : l.HasPtable → a.HasPtable) :
    Ctl (s.acquire i l) := by
  unfold St.acquire
  split
  · rename_i hfree
    exact h.move hi rfl (.inr (.inl ⟨hfree, rfl⟩)) (.inl ⟨rfl, hp⟩) rfl rfl ha.inOp ha.inCommit (.inl rfl)
      (fun hc => .inl (ha.committed hc)) ha.noPanic
  · exact h

theorem Ctl.release (h : Ctl s) (hi : s.pc i = a) (ha : a.Alike l) (hal : a.HasLock) (hl : ¬ l.HasLock)
    (hp : l.HasPtable → a.HasPtable) : Ctl (s.release i l) :=
  h.move hi rfl (.inr (.inr ⟨hal, hl⟩)) (.inl ⟨rfl, hp⟩) rfl rfl ha.inOp ha.inCommit (.inl rfl)
    (fun hc => .inl (ha.committed hc)) ha.noPanic

theorem Ctl.acquirePtable (h : Ctl s) (hi : s.pc i = a) (ha : a.Alike l) (hl : l.HasLock → a.HasLock) :
    Ctl (s.acquirePtable i l) := by
  unfold St.acquirePtable
  split
  · rename_i hfree
    exact h.move hi rfl (.inl ⟨rfl, hl⟩) (.inr (.inl ⟨hfree, rfl⟩)) rfl rfl ha.inOp ha.inCommit (.inl rfl)
      (fun hc => .inl (ha.committed hc)) ha.noPanic
  · exact h

theorem Ctl.releasePtable (h : Ctl s) (hi : s.pc i = a) (ha : a.Alike l) (hl : l.HasLock → a.HasLock)
    (hap : a.HasPtable) (hp : ¬ l.HasPtable) : Ctl (s.releasePtable i l) :=
  h.move hi rfl (.inl ⟨rfl, hl⟩) (.inr (.inr ⟨hap, hp⟩)) rfl rfl ha.inOp ha.inCommit (.inl rfl)
    (fun hc => .inl (ha.committed hc)) ha.noPanic

/-- an operation is admitted -/
theorem Ctl.letIn (h : Ctl s) (hi : s.pc i = .beginTest) (hc : ¬ s.committing = true) :
    Ctl { s.goto i .beginRelease with log := { s.log with outstanding := s.log.outstanding + 1 } } where
  lock := h.lock.step (.inl ⟨rfl, fun _ => by rw [hi]; trivial⟩)
  ptable := h.ptable.step (.inl ⟨rfl, fun hp => hp.elim⟩)
  count := h.count.enter (by rw [hi]; exact id) trivial
  commit := h.commit.stay (by rw [hi]; exact Iff.rfl)
  quiet hc' := absurd hc' hc
  empty _ ho := by cases ho
  committed := forall_goto (P := fun q => q.Committed → s.log.n = 0) (fun hd => hd.elim) h.committed
  noPanic := forall_goto (P := fun q => q ≠ .panic .committing) (by simp) h.noPanic

/-- the last operation ends: it will commit -/
theorem Ctl.last (h : Ctl s) (hi : s.pc i = .endDec) (hc : ¬ s.committing = true) (ho : s.log.outstanding - 1 = 0) :
    Ctl { s.goto i .commitRelease with
      log := { s.log with outstanding := s.log.outstanding - 1 }, committing := true } where
  lock := h.lock.step (.inl ⟨rfl, fun _ => by rw [hi]; trivial⟩)
  ptable := h.ptable.step (.inl ⟨rfl, fun hp => hp.elim⟩)
  count := h.count.leave (by rw [hi]; trivial) id
  commit := by
    have hzero : Counted Pc.InCommit 0 s.pc := by simpa [hc] using h.commit
    exact hzero.enter (by rw [hi]; exact id) trivial
  quiet _ := ho
  empty hc' := by cases hc'
  committed := forall_goto (P := fun q => q.Committed → s.log.n = 0) (fun hd => hd.elim) h.committed
  noPanic := forall_goto (P := fun q => q ≠ .panic .committing) (by simp) h.noPanic

/-- another operation ends -/
theorem Ctl.notLast (h : Ctl s) (hi : s.pc i = .endDec) (hc : ¬ s.committing = true) (ho : ¬ s.log.outstanding - 1 = 0) :
    Ctl { s.goto i .wakeAcquire with log := { s.log with outstanding := s.log.outstanding - 1 } } where
  lock := h.lock.step (.inl ⟨rfl, fun _ => by rw [hi]; trivial⟩)
  ptable := h.ptable.step (.inl ⟨rfl, fun hp => hp.elim⟩)
  count := h.count.leave (by rw [hi]; trivial) id
  commit := h.commit.stay (by rw [hi]; exact Iff.rfl)
  quiet hc' := absurd hc' hc
  empty _ ho' := absurd ho' ho
  committed := forall_goto (P := fun q => q.Committed → s.log.n = 0) (fun hd => hd.elim) h.committed
  noPanic := forall_goto (P := fun q => q ≠ .panic .committing) (by simp) h.noPanic

/-- the commit is over -/
theorem Ctl.finish (h : Ctl s) (hi : s.pc i = .commitDone) :
    Ctl { s.goto i .wakeAcquire with committing := false } := by
  have hn : s.log.n = 0 := h.committed i (by rw [hi]; trivial)
  have hin : (s.pc i).InCommit := by rw [hi]; trivial
  refine ⟨h.lock.step (.inl ⟨rfl, fun _ => by rw [hi]; trivial⟩), h.ptable.step (.inl ⟨rfl, fun hp => hp.elim⟩),
    h.count.stay (by rw [hi]; exact Iff.rfl), ?_, nofun, fun _ _ => hn, fun _ _ => hn,
    forall_goto (P := fun q => q ≠ .panic .committing) (by simp) h.noPanic⟩
  have hc := h.isCommitting hin
  have hone : Counted Pc.InCommit 1 s.pc := by simpa [hc] using h.commit
  exact hone.leave hin id

omit [DecidableEq ι] in
/-- sleeping or woken makes no difference to a region that contains neither -/
theorem wakeup1_region {R : Pc → Prop} (hs : ¬ R .sleeping) (hw : ¬ R .woken) (pc : ι → Pc) (j : ι) : R (wakeup1 pc j) ↔ R (pc j) := by
  unfold wakeup1
  split
  · rename_i hj
    rw [hj]
    exact iff_of_false hw hs
  · exact Iff.rfl

omit [DecidableEq ι] in
theorem Ctl.wakeup1 (h : Ctl s) : Ctl { s with pc := wakeup1 s.pc } where
  lock := h.lock.congr fun j => (wakeup1_region (R := Pc.HasLock) id id s.pc j).1
  ptable := h.ptable.congr fun j => (wakeup1_region (R := Pc.HasPtable) id id s.pc j).1
  count := h.count.congr (wakeup1_region (R := Pc.InOp) id id s.pc)
  commit := h.commit.congr (wakeup1_region (R := Pc.InCommit) id id s.pc)
  quiet := h.quiet
  empty := h.empty
  committed j hj := h.committed j ((wakeup1_region (R := Pc.Committed) id id s.pc j).1 hj)
  noPanic j hj := h.noPanic j
    ((wakeup1_region (R := fun q => q = .panic .committing) (by simp) (by simp) s.pc j).1 hj)

omit [DecidableEq ι] in
theorem wakeup1_self {pc : ι → Pc} {i : ι} (h : pc i ≠ .sleeping) : LogOps.wakeup1 pc i = pc i := by
  unfold LogOps.wakeup1
  split
  · contradiction
  · rfl

/-- **The locks and counters, one step.** -/
theorem next_ctl (h : Ctl s) (i : ι) : Ctl (next s i) := by
  unfold next
  cases hi : s.pc i with
  | out | op | sleeping | panic why => exact h
  | beginAcquire =>
    exact h.acquire hi ⟨Iff.rfl, Iff.rfl, id, nofun⟩ id
  | beginTest =>
    dsimp only
    have hsleep : Ctl (s.goto i .sleepAcquire) :=
      h.goto hi ⟨Iff.rfl, Iff.rfl, id, nofun⟩ id id
    split
    · exact hsleep
    split
    · exact hsleep
    · rename_i hc _
      exact h.letIn hi hc
  | sleepAcquire =>
    exact h.acquirePtable hi ⟨Iff.rfl, Iff.rfl, id, nofun⟩ id
  | sleepRelease =>
    exact h.release hi ⟨Iff.rfl, Iff.rfl, id, nofun⟩ trivial id id
  | sleepSched =>
    exact h.releasePtable hi ⟨Iff.rfl, Iff.rfl, id, nofun⟩ id trivial id
  | woken =>
    dsimp only
    split
    · exact h.goto hi ⟨Iff.rfl, Iff.rfl, id, nofun⟩ id id
    · exact h
  | beginRelease =>
    exact h.release hi ⟨Iff.rfl, Iff.rfl, id, nofun⟩ trivial id id
  | writeCheck b f =>
    dsimp only
    split
    · exact h.goto hi ⟨Iff.rfl, Iff.rfl, id, nofun⟩ id id
    split
    all_goals exact h.goto hi ⟨Iff.rfl, Iff.rfl, id, nofun⟩ id id
  | writeAcquire b f =>
    exact h.acquire hi ⟨Iff.rfl, Iff.rfl, id, nofun⟩ id
  | writeRecord b f =>
    exact h.move hi rfl (.inl ⟨rfl, id⟩) (.inl ⟨rfl, id⟩) rfl rfl Iff.rfl Iff.rfl (.inr (.inr trivial)) .inl nofun
  | writeRelease =>
    exact h.release hi ⟨Iff.rfl, Iff.rfl, id, nofun⟩ trivial id id
  | endAcquire =>
    exact h.acquire hi ⟨Iff.rfl, Iff.rfl, id, nofun⟩ id
  | endDec =>
    dsimp only
    have hc := h.notCommitting (by rw [hi]; trivial)
    rw [if_neg hc]
    split
    · rename_i ho
      exact h.last hi hc ho
    · rename_i ho
      exact h.notLast hi hc ho
  | wakeAcquire =>
    exact h.acquirePtable hi ⟨Iff.rfl, Iff.rfl, id, nofun⟩ id
  | wakeAll =>
    dsimp only
    have hself : LogOps.wakeup1 s.pc i = .wakeAll := by rw [wakeup1_self (by rw [hi]; nofun), hi]
    exact h.wakeup1.goto hself ⟨Iff.rfl, Iff.rfl, id, nofun⟩ id id
  | wakeRelease =>
    exact h.releasePtable hi ⟨Iff.rfl, Iff.rfl, id, nofun⟩ id trivial id
  | endRelease =>
    exact h.release hi ⟨Iff.rfl, Iff.rfl, id, nofun⟩ trivial id id
  | commitRelease =>
    exact h.release hi ⟨Iff.rfl, Iff.rfl, id, nofun⟩ trivial id id
  | commit =>
    dsimp only
    split
    · exact h.goto hi ⟨Iff.rfl, Iff.rfl, id, nofun⟩ id id
    · rename_i hn
      exact h.move hi rfl (.inl ⟨rfl, id⟩) (.inl ⟨rfl, id⟩) rfl rfl Iff.rfl Iff.rfl (.inl rfl)
        (fun _ => .inr (Nat.eq_zero_of_not_pos hn)) nofun
  | writeLog tail =>
    dsimp only
    split
    · exact h.move hi rfl (.inl ⟨rfl, id⟩) (.inl ⟨rfl, id⟩) rfl rfl Iff.rfl Iff.rfl (.inl rfl) .inl nofun
    · exact h.goto hi ⟨Iff.rfl, Iff.rfl, id, nofun⟩ id id
  | writeHead =>
    exact h.move hi rfl (.inl ⟨rfl, id⟩) (.inl ⟨rfl, id⟩) rfl rfl Iff.rfl Iff.rfl (.inl rfl) .inl nofun
  | install tail =>
    dsimp only
    split
    · exact h.move hi rfl (.inl ⟨rfl, id⟩) (.inl ⟨rfl, id⟩) rfl rfl Iff.rfl Iff.rfl (.inl rfl) .inl nofun
    · exact h.goto hi ⟨Iff.rfl, Iff.rfl, id, nofun⟩ id id
  | clearLog =>
    exact h.move hi rfl (.inl ⟨rfl, id⟩) (.inl ⟨rfl, id⟩) rfl rfl Iff.rfl Iff.rfl (.inr (.inl rfl)) (fun _ => .inr rfl)
      nofun
  | clearHead =>
    exact h.move hi rfl (.inl ⟨rfl, id⟩) (.inl ⟨rfl, id⟩) rfl rfl Iff.rfl Iff.rfl (.inl rfl) .inl nofun
  | commitAcquire =>
    exact h.acquire hi ⟨Iff.rfl, Iff.rfl, id, nofun⟩ id
  | commitDone =>
    exact h.finish hi

/-! ## What a step can do -/

/-- the moves that leave the log, the cache and the counters alone, with the tests that the code makes on the way -/
inductive Edge (s : St ι) : Pc → Pc → Prop
  | beginAcquire : Edge s .beginAcquire .beginTest
  | committing (h : s.committing = true) : Edge s .beginTest .sleepAcquire
  | noSpace (h : LOGSIZE < s.log.n + (s.log.outstanding + 1) * MAXOPBLOCKS) : Edge s .beginTest .sleepAcquire
  | sleepAcquire : Edge s .sleepAcquire .sleepRelease
  | sleepRelease : Edge s .sleepRelease .sleepSched
  | sleepSched : Edge s .sleepSched .sleeping
  | kill : Edge s .sleeping .woken
  | woken : Edge s .woken .beginAcquire
  | beginRelease : Edge s .beginRelease .op
  | tooBig {b : ℕ} {f : Block → Block} (h : LOGSIZE ≤ s.log.n ∨ s.log.size - 1 ≤ s.log.n) :
      Edge s (.writeCheck b f) (.panic .tooBig)
  | outside {b : ℕ} {f : Block → Block} (h : s.log.outstanding < 1) : Edge s (.writeCheck b f) (.panic .outside)
  | writeCheck {b : ℕ} {f : Block → Block} (h : ¬ (LOGSIZE ≤ s.log.n ∨ s.log.size - 1 ≤ s.log.n)) :
      Edge s (.writeCheck b f) (.writeAcquire b f)
  | writeAcquire {b : ℕ} {f : Block → Block} : Edge s (.writeAcquire b f) (.writeRecord b f)
  | writeRelease : Edge s .writeRelease .op
  | endOp : Edge s .op .endAcquire
  | endAcquire : Edge s .endAcquire .endDec
  | wakeAcquire : Edge s .wakeAcquire .wakeAll
  | wakeRelease : Edge s .wakeRelease .endRelease
  | endRelease : Edge s .endRelease .out
  | commitRelease : Edge s .commitRelease .commit
  | commit (h : 0 < s.log.n) : Edge s .commit (.writeLog 0)
  | noCommit (h : s.log.n = 0) : Edge s .commit .commitAcquire
  | writeLogDone {tail : ℕ} (h : s.log.n ≤ tail) : Edge s (.writeLog tail) .writeHead
  | installDone {tail : ℕ} (h : s.log.n ≤ tail) : Edge s (.install tail) .clearLog
  | commitAcquire : Edge s .commitAcquire .commitDone

/-- process `i` moved to `l`; the locks may have changed hands -/
structure Moved (s s' : St ι) (i : ι) (l : Pc) : Prop where
  pc : s'.pc = Function.update s.pc i l
  committing : s'.committing = s.committing
  log : s'.log = s.log
  bc : s'.bc = s.bc
  opid : s'.opid = s.opid
  nextOp : s'.nextOp = s.nextOp
  txn : s'.txn = s.txn
  hist : s'.hist = s.hist

/-- what a step does -/
inductive Effect (s : St ι) : Act ι → St ι → Prop
  | stay {o : Act ι} : Effect s o s
  | move {o : Act ι} {s' : St ι} {i : ι} {a l : Pc} (hi : s.pc i = a) (he : Edge s a l) (hm : Moved s s' i l) :
      Effect s o s'
  | begins {o : Act ι} {i : ι} (hi : s.pc i = .out) :
      Effect s o { s.goto i .beginAcquire with opid := Function.update s.opid i s.nextOp, nextOp := s.nextOp + 1 }
  | letIn {o : Act ι} {i : ι} (hi : s.pc i = .beginTest) (hc : ¬ s.committing = true)
      (hn : ¬ LOGSIZE < s.log.n + (s.log.outstanding + 1) * MAXOPBLOCKS) :
      Effect s o { s.goto i .beginRelease with log := { s.log with outstanding := s.log.outstanding + 1 } }
  | call {i : ι} {b : ℕ} {f : Block → Block} (hi : s.pc i = .op) :
      Effect s (.logWrite i b f) (s.goto i (.writeCheck b f))
  | record {i : ι} {b : ℕ} {f : Block → Block} (hi : s.pc i = .writeRecord b f) :
      Effect s (.next i) { s.goto i .writeRelease with
        log := s.log.record b
        bc := s.bc |> bread b |> modify b f |> pin b |> brelse b
        hist := s.hist ++ [⟨s.txn, s.opid i, b, f⟩] }
  | last {o : Act ι} {i : ι} (hi : s.pc i = .endDec) (hc : ¬ s.committing = true) (ho : s.log.outstanding - 1 = 0) :
      Effect s o { s.goto i .commitRelease with
        log := { s.log with outstanding := s.log.outstanding - 1 }, committing := true }
  | notLast {o : Act ι} {i : ι} (hi : s.pc i = .endDec) (hc : ¬ s.committing = true)
      (ho : ¬ s.log.outstanding - 1 = 0) :
      Effect s o { s.goto i .wakeAcquire with log := { s.log with outstanding := s.log.outstanding - 1 } }
  | wakeAll {o : Act ι} {i : ι} (hi : s.pc i = .wakeAll) :
      Effect s o { s with pc := Function.update (LogOps.wakeup1 s.pc) i .wakeRelease }
  | writeLog {o : Act ι} {i : ι} {tail : ℕ} (hi : s.pc i = .writeLog tail) (ht : tail < s.log.n) :
      Effect s o { s.goto i (.writeLog (tail + 1)) with bc := s.log.writeLogRound s.bc tail }
  | writeHead {o : Act ι} {i : ι} (hi : s.pc i = .writeHead) :
      Effect s o { s.goto i (.install 0) with bc := s.log.writeHead s.bc, txn := s.txn + 1 }
  | install {o : Act ι} {i : ι} {tail : ℕ} (hi : s.pc i = .install tail) (ht : tail < s.log.n) :
      Effect s o { s.goto i (.install (tail + 1)) with bc := s.log.installRound s.bc tail }
  | clearLog {o : Act ι} {i : ι} (hi : s.pc i = .clearLog) :
      Effect s o { s.goto i .clearHead with log := { s.log with n := 0 } }
  | clearHead {o : Act ι} {i : ι} (hi : s.pc i = .clearHead) :
      Effect s o { s.goto i .commitAcquire with bc := s.log.writeHead s.bc }
  | commitDone {o : Act ι} {i : ι} (hi : s.pc i = .commitDone) :
      Effect s o { s.goto i .wakeAcquire with committing := false }

theorem moved_goto (s : St ι) (i : ι) (l : Pc) : Moved s (s.goto i l) i l := ⟨rfl, rfl, rfl, rfl, rfl, rfl, rfl, rfl⟩

theorem moved_release (s : St ι) (i : ι) (l : Pc) : Moved s (s.release i l) i l :=
  ⟨rfl, rfl, rfl, rfl, rfl, rfl, rfl, rfl⟩

theorem moved_releasePtable (s : St ι) (i : ι) (l : Pc) : Moved s (s.releasePtable i l) i l :=
  ⟨rfl, rfl, rfl, rfl, rfl, rfl, rfl, rfl⟩

theorem Edge.acquire (he : Edge s a l) (hi : s.pc i = a) (o : Act ι) : Effect s o (s.acquire i l) := by
  unfold St.acquire
  split
  · exact .move hi he ⟨rfl, rfl, rfl, rfl, rfl, rfl, rfl, rfl⟩
  · exact .stay

theorem Edge.acquirePtable (he : Edge s a l) (hi : s.pc i = a) (o : Act ι) : Effect s o (s.acquirePtable i l) := by
  unfold St.acquirePtable
  split
  · exact .move hi he ⟨rfl, rfl, rfl, rfl, rfl, rfl, rfl, rfl⟩
  · exact .stay

theorem next_effect (h : Ctl s) (i : ι) : Effect s (.next i) (next s i) := by
  unfold next
  cases hi : s.pc i with
  | out | op | sleeping | panic why =>
    exact .stay
  | beginAcquire =>
    exact Edge.beginAcquire.acquire hi _
  | beginTest =>
    dsimp only
    split
    · rename_i hc
      exact .move hi (.committing hc) (moved_goto s i _)
    split
    · rename_i hn
      exact .move hi (.noSpace hn) (moved_goto s i _)
    · rename_i hc hn
      exact .letIn hi hc hn
  | sleepAcquire =>
    exact Edge.sleepAcquire.acquirePtable hi _
  | sleepRelease =>
    exact .move hi .sleepRelease (moved_release s i _)
  | sleepSched =>
    exact .move hi .sleepSched (moved_releasePtable s i _)
  | woken =>
    dsimp only
    split
    · exact .move hi .woken (moved_goto s i _)
    · exact .stay
  | beginRelease =>
    exact .move hi .beginRelease (moved_release s i _)
  | writeCheck b f =>
    dsimp only
    split
    · rename_i hn
      exact .move hi (.tooBig hn) (moved_goto s i _)
    split
    · rename_i ho
      exact .move hi (.outside ho) (moved_goto s i _)
    · rename_i hn _
      exact .move hi (.writeCheck hn) (moved_goto s i _)
  | writeAcquire b f =>
    exact Edge.writeAcquire.acquire hi _
  | writeRecord b f =>
    exact .record hi
  | writeRelease =>
    exact .move hi .writeRelease (moved_release s i _)
  | endAcquire =>
    exact Edge.endAcquire.acquire hi _
  | endDec =>
    dsimp only
    have hc := h.notCommitting (by rw [hi]; trivial)
    rw [if_neg hc]
    split
    · rename_i ho
      exact .last hi hc ho
    · rename_i ho
      exact .notLast hi hc ho
  | wakeAcquire =>
    exact Edge.wakeAcquire.acquirePtable hi _
  | wakeAll =>
    exact .wakeAll hi
  | wakeRelease =>
    exact .move hi .wakeRelease (moved_releasePtable s i _)
  | endRelease =>
    exact .move hi .endRelease (moved_release s i _)
  | commitRelease =>
    exact .move hi .commitRelease (moved_release s i _)
  | commit =>
    dsimp only
    split
    · rename_i hn
      exact .move hi (.commit hn) (moved_goto s i _)
    · rename_i hn
      exact .move hi (.noCommit (Nat.eq_zero_of_not_pos hn)) (moved_goto s i _)
  | writeLog tail =>
    dsimp only
    split
    · rename_i ht
      exact .writeLog hi ht
    · rename_i ht
      exact .move hi (.writeLogDone (not_lt.1 ht)) (moved_goto s i _)
  | writeHead =>
    exact .writeHead hi
  | install tail =>
    dsimp only
    split
    · rename_i ht
      exact .install hi ht
    · rename_i ht
      exact .move hi (.installDone (not_lt.1 ht)) (moved_goto s i _)
  | clearLog =>
    exact .clearLog hi
  | clearHead =>
    exact .clearHead hi
  | commitAcquire =>
    exact Edge.commitAcquire.acquire hi _
  | commitDone =>
    exact .commitDone hi

/-- **What a step does**, given the locks and counters -/
theorem step_effect (h : Ctl s) (o : Act ι) : Effect s o (step s o) := by
  cases o with
  | next i => exact next_effect h i
  | beginOp i =>
    simp only [step]
    split
    · rename_i hi
      exact .begins hi
    · exact .stay
  | logWrite i b f =>
    simp only [step]
    split
    · rename_i hi
      exact .call hi
    · exact .stay
  | endOp i =>
    simp only [step]
    split
    · rename_i hi
      exact .move hi .endOp (moved_goto s i _)
    · exact .stay
  | kill i =>
    simp only [step]
    split
    · rename_i hi
      split
      · exact .move hi .kill (moved_goto s i _)
      · exact .stay
    · exact .stay

/-- **The locks and counters, one step of the machine.** -/
theorem step_ctl (h : Ctl s) (o : Act ι) : Ctl (step s o) := by
  cases o with
  | next i => exact next_ctl h i
  | beginOp i =>
    simp only [step]
    split
    · rename_i hi
      exact h.move hi rfl (.inl ⟨rfl, id⟩) (.inl ⟨rfl, id⟩) rfl rfl Iff.rfl Iff.rfl (.inl rfl) .inl nofun
    · exact h
  | logWrite i b f =>
    simp only [step]
    split
    · rename_i hi
      exact h.goto hi ⟨Iff.rfl, Iff.rfl, id, nofun⟩ id id
    · exact h
  | endOp i =>
    simp only [step]
    split
    · rename_i hi
      exact h.goto hi ⟨Iff.rfl, Iff.rfl, id, nofun⟩ id id
    · exact h
  | kill i =>
    simp only [step]
    split
    · rename_i hi
      split
      · exact h.goto hi ⟨Iff.rfl, Iff.rfl, id, nofun⟩ id id
      · exact h
    · exact h

/-- the state after a run -/
def after (g : Log) (bc : Bcache) (ops : List (Act ι)) : St ι := run step (start g bc) ops

theorem after_ctl (g : Log) (bc : Bcache) (ops : List (Act ι)) : Ctl (after g bc ops) :=
  run_inv (I := Ctl) (fun _ o h => step_ctl h o) _ (start_ctl g bc) ops

/-! ## Uninterrupted calls -/

/-- the state in which process `i` has begun an operation -/
def St.begun (s : St ι) (i : ι) : St ι :=
  { s.goto i .op with
    log := { s.log with outstanding := s.log.outstanding + 1 }
    opid := Function.update s.opid i s.nextOp
    nextOp := s.nextOp + 1 }

/-- `begin_op` -/
def beginOp (i : ι) : List (Act ι) := [.beginOp i, .next i, .next i, .next i]

theorem run_beginOp (hi : s.pc i = .out) (hl : s.lock = none) (hc : s.committing = false)
    (hn : s.log.n + (s.log.outstanding + 1) * MAXOPBLOCKS ≤ LOGSIZE) : run step s (beginOp i) = s.begun i := by
  have hn' : ¬ LOGSIZE < s.log.n + (s.log.outstanding + 1) * MAXOPBLOCKS := not_lt.2 hn
  simp [beginOp, step, next, St.acquire, St.release, St.goto, St.begun, hi, hl, hc, hn']

/-- the state in which process `i` has logged block `b` -/
def St.recorded (s : St ι) (i : ι) (b : ℕ) (f : Block → Block) : St ι :=
  { s with
    log := s.log.record b
    bc := s.bc |> bread b |> modify b f |> pin b |> brelse b
    hist := s.hist ++ [⟨s.txn, s.opid i, b, f⟩] }

/-- `log_write` -/
def writeOp (i : ι) (b : ℕ) (f : Block → Block) : List (Act ι) := [.logWrite i b f, .next i, .next i, .next i, .next i]

theorem run_writeOp (hi : s.pc i = .op) (hl : s.lock = none) (ho : 0 < s.log.outstanding)
    (hn : s.log.n < LOGSIZE) (hsize : s.log.n + 1 < s.log.size) (b : ℕ) (f : Block → Block) :
    run step s (writeOp i b f) = s.recorded i b f := by
  have ho' : ¬ s.log.outstanding = 0 := ho.ne'
  have hroom : ¬ (LOGSIZE ≤ s.log.n ∨ s.log.size ≤ s.log.n + 1) := by omega
  have hpc : update s.pc i .op = s.pc := by rw [← hi, update_eq_self]
  simp [writeOp, step, next, St.acquire, St.release, St.goto, St.recorded, hi, hl, hroom, ho', hpc]

/-- `begin_op` up to `sched` -/
def sleepInBegin (i : ι) : List (Act ι) := [.beginOp i, .next i, .next i, .next i, .next i, .next i]

theorem run_sleepInBegin (hi : s.pc i = .out) (hl : s.lock = none) (hp : s.ptable = none)
    (hn : LOGSIZE < s.log.n + (s.log.outstanding + 1) * MAXOPBLOCKS) :
    run step s (sleepInBegin i) =
      { s.goto i .sleeping with opid := update s.opid i s.nextOp, nextOp := s.nextOp + 1 } := by
  simp [sleepInBegin, step, next, St.acquire, St.acquirePtable, St.releasePtable, St.release, St.goto, hi, hl, hp, hn]

/-! ## Sleeping in `begin_op` -/

/-- on the way to sleep, with `log.lock` -/
def Pc.Going : Pc → Prop
  | .sleepAcquire | .sleepRelease => True
  | _ => False

/-- asleep, or holding `ptable.lock` until it is -/
def Pc.Asleep : Pc → Prop
  | .sleepSched | .sleeping => True
  | _ => False

/-- about to wake all sleepers -/
def Pc.Waking : Pc → Prop
  | .wakeAcquire | .wakeAll => True
  | _ => False

/-- in an operation or in a commit: `wakeup(&log)` is on the way out -/
def Pc.InSection (l : Pc) : Prop := l.InOp ∨ l.InCommit

/-- a commit is in progress, or operations have reserved too much space for one more -/
def St.Full (s : St ι) : Prop :=
  s.committing = true ∨ LOGSIZE < s.log.n + (s.log.outstanding + 1) * MAXOPBLOCKS ∧ 1 ≤ s.log.outstanding

/-- there is a reason to sleep; for those asleep, there was one when somebody who will wake them got the lock -/
structure Sleep (s : St ι) : Prop where
  going : ∀ i, (s.pc i).Going → s.Full
  asleep : ∀ i, (s.pc i).Asleep → s.Full ∨ ∃ j, (s.pc j).Waking

theorem Pc.Going.hasLock {l : Pc} (h : l.Going) : l.HasLock := by
  cases l <;> first | exact h | trivial

/-- one process moves and the reason stays: it goes to sleep for a reason, and does not leave the sleepers alone -/
theorem Sleep.move (h : Sleep s) (hi : s.pc i = a) (hpc : s'.pc = update s.pc i l)
    (hfull : s.Full → s'.Full) (hgo : l.Going → a.Going ∨ s.Full) (has : l.Asleep → a.Going ∨ a.Asleep)
    (hw : a.Waking → l.Waking) : Sleep s' := by
  subst hi
  have hwake : (∃ j, (s.pc j).Waking) → ∃ j, (s'.pc j).Waking := by
    intro ⟨j, hj⟩
    refine ⟨j, ?_⟩
    rw [hpc]
    by_cases hji : j = i
    · subst hji
      rw [update_self]
      exact hw hj
    · rwa [update_of_ne hji]
  constructor
  · rw [hpc]
    refine forall_goto (P := fun q => q.Going → s'.Full) (fun hl => ?_) fun j hj => hfull (h.going j hj)
    exact hfull ((hgo hl).elim (h.going i) id)
  · rw [hpc]
    have hkeep : ∀ j, (s.pc j).Asleep → s'.Full ∨ ∃ j, (s'.pc j).Waking :=
      fun j hj => (h.asleep j hj).imp hfull hwake
    rw [hpc] at hkeep
    refine forall_goto (P := fun q => q.Asleep → _) (fun hl => ?_) hkeep
    exact (has hl).elim (fun hg => .inl (hfull (h.going i hg))) (hkeep i)

/-- one process gets to wake the others, holding `log.lock` -/
theorem Sleep.wake (hc : Ctl s) (hi : (s.pc i).HasLock) (hpc : s'.pc = update s.pc i .wakeAcquire) : Sleep s' := by
  have hwaking : ∃ j, (s'.pc j).Waking := by
    refine ⟨i, ?_⟩
    rw [hpc, update_self]
    trivial
  refine ⟨fun j hj => ?_, fun j _ => .inr hwaking⟩
  rw [hpc] at hj
  by_cases hji : j = i
  · rw [hji, update_self] at hj
    exact hj.elim
  · rw [update_of_ne hji] at hj
    exact absurd (hc.lock.unique hj.hasLock hi) hji

/-- after `wakeup1` nobody is asleep, nor on the way -/
theorem Sleep.woken (hc : Ctl s) (hi : s.pc i = .wakeAll) :
    Sleep { s with pc := update (LogOps.wakeup1 s.pc) i .wakeRelease } := by
  have hlock : (s.pc i).HasLock := by rw [hi]; trivial
  have hptable : (s.pc i).HasPtable := by rw [hi]; trivial
  have hnone : ∀ j, j ≠ i → ¬ (LogOps.wakeup1 s.pc j).Going ∧ ¬ (LogOps.wakeup1 s.pc j).Asleep := by
    intro j hji
    unfold LogOps.wakeup1
    split
    · exact ⟨id, id⟩
    · rename_i hns
      refine ⟨fun hj => hji (hc.lock.unique hj.hasLock hlock), fun hj => ?_⟩
      cases hl : s.pc j <;> rw [hl] at hj <;> first | exact hj.elim | skip
      · exact hji (hc.ptable.unique (by rw [hl]; trivial) hptable)
      · exact hns hl
  constructor
  · intro j hj
    by_cases hji : j = i
    · simp only [hji, update_self] at hj
      exact hj.elim
    · simp only [update_of_ne hji] at hj
      exact absurd hj (hnone j hji).1
  · intro j hj
    by_cases hji : j = i
    · simp only [hji, update_self] at hj
      exact hj.elim
    · simp only [update_of_ne hji] at hj
      exact absurd hj (hnone j hji).2

omit [DecidableEq ι] in
/-- who finds no space finds operations in progress: without any, the log is empty -/
theorem Ctl.full_of_noSpace (h : Ctl s) (hn : LOGSIZE < s.log.n + (s.log.outstanding + 1) * MAXOPBLOCKS) : s.Full := by
  cases hc : s.committing with
  | true => exact .inl hc
  | false =>
    refine .inr ⟨hn, ?_⟩
    by_contra ho
    have hz : s.log.outstanding = 0 := by omega
    have hempty := h.empty hc hz
    rw [hz, hempty] at hn
    exact absurd hn (by decide)

/-- **Sleeping for a reason, one step.** -/
theorem step_sleep (hc : Ctl s) (h : Sleep s) (o : Act ι) : Sleep (step s o) := by
  generalize hs' : step s o = s'
  have he : Effect s o s' := hs' ▸ step_effect hc o
  clear hs'
  cases he with
  | stay => exact h
  | @move _ _ i a l hi he hm =>
    have hfull : s.Full → s'.Full := by
      unfold St.Full
      rw [hm.committing, hm.log]
      exact id
    cases he with
    | committing hcom => exact h.move hi hm.pc hfull (fun _ => .inr (.inl hcom)) False.elim id
    | noSpace hn => exact h.move hi hm.pc hfull (fun _ => .inr (hc.full_of_noSpace hn)) False.elim id
    | sleepRelease => exact h.move hi hm.pc hfull False.elim .inl id
    | sleepSched => exact h.move hi hm.pc hfull False.elim .inr id
    | sleepAcquire => exact h.move hi hm.pc hfull .inl False.elim id
    | _ => exact h.move hi hm.pc hfull False.elim False.elim id
  | begins hi => exact h.move hi rfl id False.elim False.elim id
  | letIn hi hcom hn =>
    refine h.move hi rfl (fun hf => ?_) False.elim False.elim id
    refine .inr ⟨?_, Nat.le_add_left 1 _⟩
    have := hf.resolve_left hcom
    simp only [MAXOPBLOCKS] at this ⊢
    omega
  | call hi => exact h.move hi rfl id False.elim False.elim id
  | @record i b f hi =>
    refine h.move hi rfl (fun hf => hf.imp id fun ⟨hn, ho⟩ => ⟨?_, ho⟩) False.elim False.elim id
    exact lt_of_lt_of_le hn (Nat.add_le_add_right (s.log.record_n_le b) _)
  | last hi hcom ho => exact ⟨fun _ _ => .inl rfl, fun _ _ => .inl (.inl rfl)⟩
  | notLast hi hcom ho => exact .wake hc (by rw [hi]; trivial) rfl
  | wakeAll hi => exact .woken hc hi
  | writeLog hi ht => exact h.move hi rfl id False.elim False.elim id
  | writeHead hi => exact h.move hi rfl id False.elim False.elim id
  | install hi ht => exact h.move hi rfl id False.elim False.elim id
  | clearLog hi =>
    have hcom : s.committing = true := hc.isCommitting (by rw [hi]; trivial)
    exact h.move hi rfl (fun _ => .inl hcom) False.elim False.elim id
  | clearHead hi => exact h.move hi rfl id False.elim False.elim id
  | commitDone hi => exact .wake hc (by rw [hi]; trivial) rfl

omit [DecidableEq ι] in
theorem start_sleep (g : Log) (bc : Bcache) : Sleep (start g bc : St ι) := ⟨fun _ h => h.elim, fun _ h => h.elim⟩

theorem after_sleep (g : Log) (bc : Bcache) (ops : List (Act ι)) : Sleep (after g bc ops) :=
  (run_inv (I := fun s => Ctl s ∧ Sleep s) (fun _ o h => ⟨step_ctl h.1 o, step_sleep h.1 h.2 o⟩) _
    ⟨start_ctl g bc, start_sleep g bc⟩ ops).2

/-- who is in an operation or in a commit stays there until it calls `wakeup(&log)` -/
theorem step_section (hc : Ctl s) (o : Act ι) {j : ι} (hj : (s.pc j).InSection) :
    ((step s o).pc j).InSection ∨ (step s o).pc j = .wakeAcquire := by
  have hmove : ∀ {i : ι} {a l : Pc}, s.pc i = a → (a.InSection → l.InSection ∨ l = .wakeAcquire) →
      (update s.pc i l j).InSection ∨ update s.pc i l j = .wakeAcquire := by
    intro i a l hi hl
    by_cases hji : j = i
    · subst hji
      rw [update_self]
      exact hl (hi ▸ hj)
    · rw [update_of_ne hji]
      exact .inl hj
  generalize hs' : step s o = s'
  have he : Effect s o s' := hs' ▸ step_effect hc o
  clear hs'
  cases he with
  | stay => exact .inl hj
  | move hi he hm =>
    rw [hm.pc]
    cases he <;> exact hmove hi .inl
  | begins hi => exact hmove hi .inl
  | letIn hi hcom hn => exact hmove hi fun _ => .inl (.inl trivial)
  | call hi => exact hmove hi .inl
  | record hi => exact hmove hi .inl
  | last hi hcom ho => exact hmove hi fun _ => .inl (.inr trivial)
  | notLast hi hcom ho => exact hmove hi fun _ => .inr rfl
  | @wakeAll _ i hi =>
    have hji : j ≠ i := by
      rintro rfl
      rw [hi] at hj
      exact hj.elim id id
    simp only [update_of_ne hji]
    exact .inl ((wakeup1_region (R := Pc.InSection) (fun h => h.elim id id) (fun h => h.elim id id) s.pc j).2 hj)
  | writeLog hi ht => exact hmove hi .inl
  | writeHead hi => exact hmove hi .inl
  | install hi ht => exact hmove hi .inl
  | clearLog hi => exact hmove hi .inl
  | clearHead hi => exact hmove hi .inl
  | commitDone hi => exact hmove hi fun _ => .inr rfl

theorem after_section {g : Log} {bc : Bcache} {ops : List (Act ι)} {j : ι} (hj : ((after g bc ops).pc j).InSection) (more : List (Act ι)) :
    ((after g bc (ops ++ more)).pc j).InSection ∨ ∃ t ≤ more.length, (after g bc (ops ++ more.take t)).pc j = .wakeAcquire := by
  induction more using List.reverseRecOn with
  | nil =>
    rw [List.append_nil]
    exact .inl hj
  | append_singleton more o ih =>
    have hstep : after g bc (ops ++ (more ++ [o])) = step (after g bc (ops ++ more)) o := by
      rw [← List.append_assoc]
      exact run_snoc ..
    rcases ih with hin | ⟨t, ht, hwake⟩
    · rw [hstep]
      refine (step_section (after_ctl g bc _) o hin).imp_right fun hwake => ?_
      refine ⟨(more ++ [o]).length, le_rfl, ?_⟩
      rw [List.take_length, hstep]
      exact hwake
    · refine .inr ⟨t, ht.trans (by simp), ?_⟩
      rwa [List.take_append_of_le_length ht]

/-- **No stuck operation.** Whenever `log.lock` is free and a process sleeps in `begin_op`, a commit is in progress, or
operations in progress have reserved the space. Somebody who is in an operation or in a commit exists, and whatever
happens stays there until it calls `wakeup(&log)`. -/
theorem no_stuck_begin (g : Log) (bc : Bcache) (ops : List (Act ι)) (i : ι) (hlock : (after g bc ops).lock = none)
    (hi : (after g bc ops).pc i = .sleeping) :
    ((after g bc ops).committing = true ∧ (∃ j, ((after g bc ops).pc j).InCommit) ∨
      LOGSIZE < (after g bc ops).log.n + ((after g bc ops).log.outstanding + 1) * MAXOPBLOCKS ∧
        1 ≤ (after g bc ops).log.outstanding) ∧
    ∃ j, ((after g bc ops).pc j).InSection ∧ ∀ more, ((after g bc (ops ++ more)).pc j).InSection ∨
      ∃ t ≤ more.length, (after g bc (ops ++ more.take t)).pc j = .wakeAcquire := by
  have hc := after_ctl g bc ops
  have hwaking : ¬ ∃ j, ((after g bc ops).pc j).Waking := by
    intro ⟨j, hj⟩
    have hj' : ((after g bc ops).pc j).HasLock := by
      cases hl : (after g bc ops).pc j <;> rw [hl] at hj <;> first | exact hj.elim | trivial
    have howned := hc.lock
    rw [hlock] at howned
    exact howned.free j hj'
  have hfull := ((after_sleep g bc ops).asleep i (by rw [hi]; trivial)).resolve_right hwaking
  rcases hfull with hcom | ⟨hn, ho⟩
  · have hone : Counted Pc.InCommit 1 (after g bc ops).pc := by simpa [hcom] using hc.commit
    obtain ⟨j, hj⟩ := hone.exists_of_pos Nat.one_pos
    exact ⟨.inl ⟨hcom, j, hj⟩, j, .inr hj, after_section (.inr hj)⟩
  · obtain ⟨j, hj⟩ := hc.count.exists_of_pos ho
    exact ⟨.inr ⟨hn, ho⟩, j, .inl hj, after_section (.inl hj)⟩

/-- the log area of `mkfs`: `nlog = LOGSIZE` blocks from block 2 on -/
def mkfsLog : Log := ⟨2, LOGSIZE, 0, 0, fun _ => 0⟩

/-- an empty disk and nothing cached -/
def emptyCache : Bcache := boot (fun _ _ => 0) fun _ => []

/-- a fourth operation: `LOGSIZE` is `3 * MAXOPBLOCKS` -/
def fourth : List (Act (Fin 4)) := beginOp 0 ++ beginOp 1 ++ beginOp 2 ++ sleepInBegin 3

theorem after_fourth : (after mkfsLog emptyCache fourth).lock = none ∧ (after mkfsLog emptyCache fourth).pc 3 = .sleeping := by
  rw [after, fourth, run_append, run_append, run_append, run_beginOp, run_beginOp, run_beginOp, run_sleepInBegin]
  · exact ⟨rfl, rfl⟩
  all_goals first | rfl | decide

theorem no_stuck_begin_fourth : ∃ j, ((after mkfsLog emptyCache fourth).pc j).InSection := by
  obtain ⟨-, j, hj, -⟩ := no_stuck_begin mkfsLog emptyCache fourth 3 after_fourth.1 after_fourth.2
  exact ⟨j, hj⟩

end LogOps

end Xv6.Fs
