/-
Pipes (`pipe.c`): any number of processes call `piperead`, `pipewrite` and `pipeclose` on one pipe, as a monitor under `p->lock`.

Lengths are not negative: `argptr` has refused the others. The bytes that writers have stored and those that readers have been
handed are kept in `sent` and `got`; the code does not read them. A writer also keeps, in `fresh`, whether it has stored a byte
since it last called `wakeup(&p->nread)`.
-/
import Xv6.Core.Monitor
import Xv6.Core.Window

namespace Xv6.Pipes

open Xv6.Core Xv6.Core.Monitor

/-! ## Model -/

def PIPESIZE : ℕ := 512

/-- `struct pipe` without the lock -/
structure Pipe where
  data : ℕ → UInt8
  nread : UInt32
  nwrite : UInt32
  readopen : Bool
  writeopen : Bool
  /-- history: the bytes stored -/
  sent : List UInt8
  /-- history: the bytes handed to readers -/
  got : List UInt8

/-- `&p->nread` and `&p->nwrite` -/
inductive Chan
  | nread
  | nwrite
  deriving DecidableEq

/-- where a process is -/
inductive Loc
  | idle
  /-- at the loops of `pipewrite`, with the bytes that are left -/
  | write (rest : List UInt8) (n : ℕ) (fresh : Bool)
  /-- about to call `sleep(&p->nwrite, &p->lock)` -/
  | wait (rest : List UInt8) (n : ℕ)
  /-- at the first loop of `piperead` -/
  | read (n : ℕ)
  /-- at the second loop of `piperead`, with `i` bytes copied -/
  | copy (n i : ℕ)
  /-- at the beginning of `pipeclose` -/
  | close (writable : Bool)
  /-- about to release the lock and return -/
  | ret (r : ℤ)
  deriving DecidableEq

inductive Call
  | pipewrite (addr : List UInt8)
  | piperead (n : ℕ)
  | pipeclose (writable : Bool)

/-- `p->nwrite == p->nread + PIPESIZE` -/
def Pipe.full (p : Pipe) : Bool := p.nwrite == p.nread + UInt32.ofNat PIPESIZE

/-- `p->nread == p->nwrite` -/
def Pipe.empty (p : Pipe) : Bool := p.nread == p.nwrite

/-- `p->data[p->nwrite++ % PIPESIZE] = b` -/
def Pipe.store (p : Pipe) (b : UInt8) : Pipe :=
  { p with
    data := Function.update p.data (p.nwrite.toNat % PIPESIZE) b
    nwrite := p.nwrite + 1
    sent := p.sent ++ [b] }

/-- `addr[i] = p->data[p->nread++ % PIPESIZE]` -/
def Pipe.take (p : Pipe) : Pipe :=
  { p with nread := p.nread + 1, got := p.got ++ [p.data (p.nread.toNat % PIPESIZE)] }

/-- the sections -/
def sec (killed : Bool) (p : Pipe) : Loc → Pipe × Act Chan Loc
  | .write [] n _ => (p, .wakeup .nread (.ret n))
  | .write (b :: rest) n _ =>
    if p.full then
      if p.readopen = false ∨ killed = true then (p, .go (.ret (-1)))
      else (p, .wakeup .nread (.wait (b :: rest) n))
    else (p.store b, .go (.write rest n true))
  | .wait rest n => (p, .sleep .nwrite (.write rest n false))
  | .read n =>
    if p.empty ∧ p.writeopen = true then
      if killed = true then (p, .go (.ret (-1))) else (p, .sleep .nread (.read n))
    else (p, .go (.copy n 0))
  | .copy n i =>
    if i < n then
      if p.empty then (p, .wakeup .nwrite (.ret i)) else (p.take, .go (.copy n (i + 1)))
    else (p, .wakeup .nwrite (.ret i))
  | .close true => ({ p with writeopen := false }, .wakeup .nread (.ret 0))
  | .close false => ({ p with readopen := false }, .wakeup .nwrite (.ret 0))
  | .ret _ => (p, .release .idle)
  | .idle => (p, .go .idle)

def call : Loc → Call → Option Loc
  | .idle, .pipewrite addr => some (.write addr addr.length false)
  | .idle, .piperead n => some (.read n)
  | .idle, .pipeclose writable => some (.close writable)
  | _, _ => none

variable {ι : Type}

def prog : Prog ι Chan Pipe Loc Call Empty where
  sec _ := sec
  call _ := call
  env e := e.elim

/-- after `pipealloc`, whatever was in the page -/
def init (data : ℕ → UInt8) : St ι Chan Pipe Loc := Monitor.start ⟨data, 0, 0, true, true, [], []⟩ fun _ => .idle

variable {p : Pipe} {s : St ι Chan Pipe Loc} {i j : ι} {l : Loc} {k : Bool} {op : Op ι Chan Call Empty}

/-! ## Integrity -/

/-- the counters count the bytes stored and handed out, and the bytes in between are in the buffer -/
structure Ring (p : Pipe) : Prop where
  nread : p.nread = UInt32.ofNat p.got.length
  nwrite : p.nwrite = UInt32.ofNat p.sent.length
  window : Window PIPESIZE p.data p.sent p.got.length
  handed : p.got = p.sent.take p.got.length

theorem Ring.full_iff (h : Ring p) : p.full = true ↔ p.sent.length = p.got.length + PIPESIZE := by
  unfold Pipe.full
  rw [beq_iff_eq, h.nread, h.nwrite, ← UInt32.ofNat_add]
  exact uint_eq_iff (n := PIPESIZE) h.window.le_lo (by have := h.window.lo_le; omega) (by decide)

theorem Ring.empty_iff (h : Ring p) : p.empty = true ↔ p.got.length = p.sent.length := by
  unfold Pipe.empty
  rw [beq_iff_eq, h.nread, h.nwrite]
  exact uint_eq_iff h.window.lo_le h.window.le_lo (by decide)

theorem Ring.store (h : Ring p) (hroom : ¬ p.full = true) (b : UInt8) : Ring (p.store b) := by
  have hlt : p.sent.length < p.got.length + PIPESIZE :=
    lt_of_le_of_ne h.window.le_lo fun heq => hroom (h.full_iff.2 heq)
  refine ⟨h.nread, ?_, ?_, ?_⟩
  · unfold Pipe.store
    rw [h.nwrite, List.length_append, List.length_singleton, UInt32.ofNat_add]
    rfl
  · unfold Pipe.store
    rw [h.nwrite, uint_mod (by decide)]
    exact h.window.push hlt b
  · unfold Pipe.store
    rw [List.take_append_of_le_length h.window.lo_le]
    exact h.handed

theorem Ring.take (h : Ring p) (hne : ¬ p.empty = true) : Ring p.take := by
  have hlt : p.got.length < p.sent.length := lt_of_le_of_ne h.window.lo_le fun heq => hne (h.empty_iff.2 heq)
  have hbyte : p.data (p.nread.toNat % PIPESIZE) = p.sent[p.got.length] := by
    rw [h.nread, uint_mod (by decide)]
    exact h.window.first hlt
  have hlen : p.take.got.length = p.got.length + 1 := by
    unfold Pipe.take
    rw [List.length_append, List.length_singleton]
  refine ⟨?_, h.nwrite, ?_, ?_⟩
  · rw [hlen, UInt32.ofNat_add, ← h.nread]
    rfl
  · rw [hlen]
    exact h.window.pop hlt
  · rw [hlen]
    unfold Pipe.take
    dsimp only
    rw [hbyte, List.take_succ_eq_append_getElem hlt, ← h.handed]

theorem sec_ring (h : Ring p) (k : Bool) (l : Loc) : Ring (sec k p l).1 := by
  cases l with
  | write rest n fresh =>
    cases rest with
    | nil => exact h
    | cons b rest =>
      unfold sec
      dsimp only
      split
      · split <;> exact h
      · rename_i hroom
        exact h.store hroom b
  | copy n i =>
    unfold sec
    dsimp only
    split
    · split
      · exact h
      · rename_i hne
        exact h.take hne
    · exact h
  | read n =>
    unfold sec
    dsimp only
    split
    · split <;> exact h
    · exact h
  | close writable =>
    cases writable with
    | true => exact ⟨h.nread, h.nwrite, h.window, h.handed⟩
    | false => exact ⟨h.nread, h.nwrite, h.window, h.handed⟩
  | wait => exact h
  | ret => exact h
  | idle => exact h

variable [DecidableEq ι]

theorem run_ring (data : ℕ → UInt8) (ops : List (Op ι Chan Call Empty)) : Ring (run (step prog) (init data) ops).mem := by
  have hstart : Ring (init data : St ι Chan Pipe Loc).mem := by
    refine ⟨rfl, rfl, ⟨le_rfl, Nat.zero_le _, fun k hk => ?_⟩, rfl⟩
    exact absurd hk (Nat.not_lt_zero k)
  refine run_inv (I := fun s : St ι Chan Pipe Loc => Ring s.mem) (fun s op h => ?_) (init data) hstart ops
  exact (step_view prog s op).keeps (J := fun p _ => Ring p) h (fun i l _ _ => sec_ring h (s.killed i) l) (fun _ _ _ _ _ _ _ => h)
    (fun e => e.elim)

/-- **Pipe integrity.** In every state of any interleaving, with any number of wraps of the counters: their difference modulo 2^32
is the number of bytes that are stored and not handed out yet, at most `PIPESIZE`, and the bytes handed to readers are a prefix
of the bytes stored by writers, each in order. -/
theorem pipe_integrity {ι : Type} [DecidableEq ι] (data : ℕ → UInt8) (ops : List (Op ι Chan Call Empty)) :
    ((run (step prog) (init data) ops).mem.nwrite - (run (step prog) (init data) ops).mem.nread).toNat ≤ PIPESIZE ∧
    ((run (step prog) (init data) ops).mem.nwrite - (run (step prog) (init data) ops).mem.nread).toNat =
      (run (step prog) (init data) ops).mem.sent.length - (run (step prog) (init data) ops).mem.got.length ∧
    (run (step prog) (init data) ops).mem.got <+: (run (step prog) (init data) ops).mem.sent := by
  have hring := run_ring data ops
  have hsize : PIPESIZE = 512 := rfl
  have hle := hring.window.le_lo
  have hsub : ((run (step prog) (init data) ops).mem.nwrite - (run (step prog) (init data) ops).mem.nread).toNat =
      (run (step prog) (init data) ops).mem.sent.length - (run (step prog) (init data) ops).mem.got.length := by
    rw [hring.nread, hring.nwrite]
    exact uint_sub hring.window.lo_le (by omega)
  refine ⟨?_, hsub, ?_⟩
  · rw [hsub]
    omega
  · rw [hring.handed]
    exact List.take_prefix _ _

/-! ## Wakeups -/

/-- what a process that sleeps on the channel waits for -/
def Ready : Chan → Pipe → Prop
  | .nread, p => p.empty = false ∨ p.writeopen = false
  | .nwrite, p => p.full = false ∨ p.readopen = false

/-- has changed what is waited for, and not called `wakeup` yet -/
def Owes : Loc → Chan → Prop
  | .write _ _ fresh, .nread => fresh = true
  | .copy _ _, .nwrite => True
  | _, _ => False

/-- between the two calls in the loop of `pipewrite` -/
def Loc.isWait : Loc → Prop
  | .wait _ _ => True
  | _ => False

/-- a writer between the two calls has found the pipe full and open -/
def Waits (p : Pipe) (_ : Loc) : Prop := p.full = true ∧ p.readopen = true

/-- a writer at its loop, with bytes left, that has stored some since it last woke the readers -/
def unannounced : Monitor.Pc Chan Loc → Bool
  | .sec (.write (_ :: _) _ fresh) => fresh
  | _ => false

/-- a writer that finds the pipe full, and leaves because the read end is closed or it is killed, has stored nothing since it
last woke the readers -/
def Settled (s : St ι Chan Pipe Loc) : Op ι Chan Call Empty → Prop
  | .next i => s.mem.full = true → s.mem.readopen = false ∨ s.killed i = true → unannounced (s.pc i) = false
  | _ => True

instance Settled.decidable (s : St ι Chan Pipe Loc) : ∀ op, Decidable (Settled s op)
  | .next i =>
    inferInstanceAs (Decidable (s.mem.full = true → s.mem.readopen = false ∨ s.killed i = true → unannounced (s.pc i) = false))
  | .call _ _ | .kill _ | .wakeup _ => .isTrue trivial

theorem sec_pays (hwait : l.isWait → p.full = true ∧ p.readopen = true)
    (hset : ∀ b rest n fresh, l = .write (b :: rest) n fresh → p.full = true → p.readopen = false ∨ k = true → fresh = false) :
    Pays Ready Owes p l (sec k p l).1 (sec k p l).2 := by
  cases l with
  | write rest n fresh =>
    cases rest with
    | nil =>
      refine ⟨fun ch hready => ?_, nofun⟩
      cases ch with
      | nread => exact .inr (.inl rfl)
      | nwrite => exact .inl ⟨hready, id⟩
    | cons b rest =>
      unfold sec
      dsimp only
      split
      · rename_i hfull
        split
        · -- the exit without a wakeup
          rename_i hleave
          have hfresh := hset b rest n fresh rfl hfull hleave
          refine ⟨fun ch hready => .inl ⟨hready, ?_⟩, nofun⟩
          cases ch with
          | nread => exact fun howes => absurd (howes.symm.trans hfresh) (by decide)
          | nwrite => exact id
        · refine ⟨fun ch hready => ?_, nofun⟩
          cases ch with
          | nread => exact .inr (.inl rfl)
          | nwrite => exact .inl ⟨hready, id⟩
      · rename_i hroom
        refine ⟨fun ch _ => ?_, nofun⟩
        cases ch with
        | nread => exact .inr rfl
        | nwrite => exact .inl ⟨.inl (Bool.not_eq_true _ ▸ hroom), id⟩
  | wait rest n =>
    obtain ⟨hfull, hopen⟩ := hwait trivial
    refine ⟨fun ch hready => .inl ⟨hready, id⟩, fun ch l' heq hready => ?_⟩
    cases heq
    rcases hready with hnot | hclosed
    · exact absurd (hfull.symm.trans hnot) (by decide)
    · exact absurd (hopen.symm.trans hclosed) (by decide)
  | read n =>
    unfold sec
    dsimp only
    split
    · rename_i hempty
      split
      · exact ⟨fun ch hready => .inl ⟨hready, id⟩, nofun⟩
      · refine ⟨fun ch hready => .inl ⟨hready, id⟩, fun ch l' heq hready => ?_⟩
        cases heq
        rcases hready with hnot | hclosed
        · exact absurd (hempty.1.symm.trans hnot) (by decide)
        · exact absurd (hempty.2.symm.trans hclosed) (by decide)
    · exact ⟨fun ch hready => .inl ⟨hready, id⟩, nofun⟩
  | copy n i =>
    unfold sec
    dsimp only
    split
    · split
      · refine ⟨fun ch hready => ?_, nofun⟩
        cases ch with
        | nread => exact .inl ⟨hready, id⟩
        | nwrite => exact .inr (.inl rfl)
      · rename_i hne
        refine ⟨fun ch _ => ?_, nofun⟩
        cases ch with
        | nread => exact .inl ⟨.inl (Bool.not_eq_true _ ▸ hne), id⟩
        | nwrite => exact .inr trivial
    · refine ⟨fun ch hready => ?_, nofun⟩
      cases ch with
      | nread => exact .inl ⟨hready, id⟩
      | nwrite => exact .inr (.inl rfl)
  | close writable =>
    cases writable with
    | true =>
      refine ⟨fun ch hready => ?_, nofun⟩
      cases ch with
      | nread => exact .inr (.inl rfl)
      | nwrite => exact .inl ⟨hready, id⟩
    | false =>
      refine ⟨fun ch hready => ?_, nofun⟩
      cases ch with
      | nread => exact .inl ⟨hready, id⟩
      | nwrite => exact .inr (.inl rfl)
  | ret r => exact ⟨fun ch hready => .inl ⟨hready, id⟩, nofun⟩
  | idle => exact ⟨fun ch hready => .inl ⟨hready, id⟩, nofun⟩

/-- everything that holds in every state of a settled run -/
structure Good (s : St ι Chan Pipe Loc) : Prop where
  locks : Locks s
  mid : MidOwned Loc.isWait s
  held : Held Loc.isWait (fun _ => True) Waits s
  owing : Owing Ready Owes s

theorem call_isWait {c : Call} {l' : Loc} (h : call l c = some l') : ¬ l'.isWait := by
  cases l with
  | idle =>
    cases c <;>
    · cases h
      exact id
  | _ => cases h

/-- a section leads between the two calls only if the pipe is full and open -/
theorem sec_isWait (h : (sec k p l).2.loc.isWait) : (sec k p l).1 = p ∧ (∃ l', (sec k p l).2 = .wakeup .nread l') ∧
    p.full = true ∧ p.readopen = true := by
  cases l with
  | write rest n fresh =>
    cases rest with
    | nil => exact absurd h id
    | cons b rest =>
      by_cases hfull : p.full = true
      · by_cases hleave : p.readopen = false ∨ k = true
        · unfold sec at h
          dsimp only at h
          rw [if_pos hfull, if_pos hleave] at h
          exact absurd h id
        · unfold sec
          dsimp only
          rw [if_pos hfull, if_neg hleave]
          refine ⟨rfl, ⟨_, rfl⟩, hfull, ?_⟩
          cases hopen : p.readopen with
          | true => rfl
          | false => exact absurd (.inl hopen) hleave
      · unfold sec at h
        dsimp only at h
        rw [if_neg hfull] at h
        exact absurd h id
  | read n =>
    unfold sec at h
    dsimp only at h
    split at h
    · split at h <;> exact absurd h id
    · exact absurd h id
  | copy n i =>
    unfold sec at h
    dsimp only at h
    split at h
    · split at h <;> exact absurd h id
    · exact absurd h id
  | close writable =>
    cases writable with
    | true => exact absurd h id
    | false => exact absurd h id
  | wait => exact absurd h id
  | ret => exact absurd h id
  | idle => exact absurd h id

theorem step_good (h : Good s) (hset : Settled s op) : Good (step prog s op) := by
  have hview := step_view prog s op
  refine ⟨step_locks h.locks op, hview.mid h.mid (fun _ _ _ _ => call_isWait) ?_, ?_, ?_⟩
  · intro i k m l hleave hmid
    obtain ⟨-, ⟨l', hact⟩, -⟩ := sec_isWait hmid
    rcases hleave with ⟨ch, heq⟩ | heq
    all_goals exact absurd (heq.symm.trans hact) nofun
  · refine hview.held h.locks h.mid h.held (fun _ _ _ _ => call_isWait) (fun i l _ hpc => ⟨fun hmid => ?_, fun _ => trivial⟩)
      (fun e => e.elim)
    obtain ⟨heq, -, hfull⟩ := sec_isWait hmid
    change (sec (s.killed i) s.mem l).1.full = true ∧ (sec (s.killed i) s.mem l).1.readopen = true
    rw [heq]
    exact hfull
  · refine hview.owing h.locks h.owing (fun i l hop hpc => sec_pays (h.held.inside h.locks h.mid hpc).1 ?_) (fun e => e.elim)
    intro b rest n fresh hl hfull hleave
    rw [hop] at hset
    have hfresh := hset hfull hleave
    rw [hpc, hl] at hfresh
    exact hfresh

theorem run_good {data : ℕ → UInt8} {ops : List (Op ι Chan Call Empty)}
    (h : Guarded (step prog) Settled (init data) ops) : Good (run (step prog) (init data) ops) :=
  guarded_inv (I := Good) (fun _ _ hset hgood => step_good hgood hset) (init data)
    ⟨start_locks _ _, start_mid fun _ => id, ⟨fun _ hi => hi.elim, fun _ => trivial⟩, start_owing⟩ ops h

/-- **Pipe wakeups.** In every state of a settled run in which `p->lock` is free: who sleeps on `&p->nread` has found the pipe empty
and its write end open, and so they are; who sleeps on `&p->nwrite` has found it full and its read end open, and so they are. -/
theorem pipe_wakeups {ι : Type} [DecidableEq ι] (data : ℕ → UInt8) (ops : List (Op ι Chan Call Empty))
    (h : Guarded (step prog) Settled (init data) ops) (hlock : (run (step prog) (init data) ops).lock = none) (i : ι)
    (l : Loc) :
    ((run (step prog) (init data) ops).pc i = .sleeping .nread l →
      (run (step prog) (init data) ops).mem.empty = true ∧ (run (step prog) (init data) ops).mem.writeopen = true) ∧
    ((run (step prog) (init data) ops).pc i = .sleeping .nwrite l →
      (run (step prog) (init data) ops).mem.full = true ∧ (run (step prog) (init data) ops).mem.readopen = true) := by
  have hgood := run_good h
  refine ⟨fun hpc => ?_, fun hpc => ?_⟩
  all_goals
    have hnot := hgood.owing.awake hgood.locks hlock (by rw [hpc]; rfl)
    unfold Ready at hnot
    simpa using hnot

/-- a reader finds the pipe empty and goes to sleep -/
def sleepOps : List (Op Bool Chan Call Empty) :=
  [.call false (.piperead 1), .next false, .next false, .next false, .next false, .next false]

theorem pipe_wakeups_reader :
    (run (step prog) (init fun _ => 0) sleepOps).mem.empty = true ∧
      (run (step prog) (init fun _ => 0) sleepOps).mem.writeopen = true :=
  (pipe_wakeups (fun _ => 0) sleepOps (by decide +kernel) (by decide +kernel) false (.read 1)).1 (by decide +kernel)

/-- then a writer with more bytes than fit is killed, fills the pipe and leaves -/
def silentOps : List (Op Bool Chan Call Empty) :=
  sleepOps ++ [.call true (.pipewrite (List.replicate 513 0)), .kill true] ++ List.replicate 515 (.next true)

/-- **A silent writer.** The lock is free, the reader sleeps on `&p->nread`, and the pipe is full. -/
theorem silent_writer :
    (run (step prog) (init fun _ => 0) silentOps).lock = none ∧
    (run (step prog) (init fun _ => 0) silentOps).pc true = .out .idle ∧
    (run (step prog) (init fun _ => 0) silentOps).pc false = .sleeping .nread (.read 1) ∧
    (run (step prog) (init fun _ => 0) silentOps).mem.full = true ∧
    (run (step prog) (init fun _ => 0) silentOps).mem.readopen = true ∧
    (run (step prog) (init fun _ => 0) silentOps).mem.writeopen = true := by
  decide +kernel

end Xv6.Pipes
