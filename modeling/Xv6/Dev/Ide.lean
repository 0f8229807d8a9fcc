/-
The disk driver (`ide.c`): `iderw` queues a buffer and waits until its request is done, `ideintr` ends the request at the head of the
queue and starts the next one. Both work under `idelock`, as a monitor whose channels are the buffers.

The drive is the environment: a command that has been started is finished at some time, without error, and raises one interrupt. A
handler that finds no interrupt raised has not been called: it leaves at once. Callers use the driver as the buffer cache does: a
buffer is locked by its caller, and no two of them are for one block (`Distinct`). What a caller has written into its buffer comes
with the call. A process that panics goes no further.

History, which the code does not read: `active` is the buffer whose command has been started and is not completed, `arrived` and
`completed` are the requests that have been queued and done.
-/
import Xv6.Core.Monitor

set_option linter.unusedSectionVars false

namespace Xv6.Ide

open Xv6.Core Xv6.Core.Monitor

/-! ## Model -/

def FSSIZE : ℕ := 1000

/-- `struct buf`, as far as the driver reads it -/
structure Buf (D : Type) where
  dev : ℕ
  blockno : ℕ
  valid : Bool
  dirty : Bool
  data : D
  deriving DecidableEq

variable {D β ι : Type}

/-- the drive `b->dev&1` and the sector; a block is one sector -/
def Buf.place (b : Buf D) : ℕ × ℕ := (b.dev % 2, b.blockno)

/-- `(b->flags & (B_VALID|B_DIRTY)) == B_VALID` -/
def Buf.synced (b : Buf D) : Bool := b.valid && !b.dirty

/-- what is sent to the drive with a command to write; a command to read sends nothing -/
def Buf.sends (b : Buf D) : Option D := if b.dirty = true then some b.data else none

/-- `b->flags |= B_VALID; b->flags &= ~B_DIRTY`, after a buffer that is not dirty has got the data -/
def Buf.ended (b : Buf D) (d : D) : Buf D :=
  { b with data := if b.dirty = true then b.data else d, valid := true, dirty := false }

inductive Drive (D : Type)
  | idle
  | busy (place : ℕ × ℕ) (sent : Option D)
  /-- has finished a command and raises its interrupt; `data` can be read -/
  | raised (data : D)

structure Driver (β D : Type) where
  idequeue : List β
  buf : β → Buf D
  drive : Drive D
  disk : ℕ × ℕ → D
  active : Option β
  arrived : List β
  completed : List β

/-- the drive finishes its command -/
def finish (m : Driver β D) : Driver β D :=
  match m.drive with
  | .busy p sent =>
    { m with disk := Function.update m.disk p (sent.getD (m.disk p)), drive := .raised (sent.getD (m.disk p)) }
  | _ => m

/-- nothing if it panics or has to wait in `idewait` -/
def idestart (m : Driver β D) (b : β) : Option (Driver β D) :=
  if FSSIZE ≤ (m.buf b).blockno then none
  else
    match m.drive with
    | .busy _ _ => none
    | _ => some { m with drive := .busy (m.buf b).place (m.buf b).sends, active := some b }

/-- where a process or an interrupt handler is -/
inductive Loc (β D : Type)
  | idle
  /-- in `iderw`, about to append its buffer -/
  | append (b : β) (req : Buf D)
  /-- has appended it -/
  | kick (b : β)
  /-- at the loop -/
  | wait (b : β)
  /-- about to return -/
  | ret (b : β)
  /-- in `ideintr` -/
  | intr
  /-- about to start the next request -/
  | start
  | panic
  deriving DecidableEq

inductive Call (β D : Type)
  | iderw (b : β) (req : Buf D)
  | ideintr

/-- the checks of `iderw` -/
def call (havedisk1 : Bool) : Loc β D → Call β D → Option (Loc β D)
  | .idle, .iderw b req =>
    if req.synced = true then some .panic
    else if req.dev ≠ 0 ∧ havedisk1 = false then some .panic
    else some (.append b req)
  | .idle, .ideintr => some .intr
  | _, _ => none

section

variable [DecidableEq β]

/-- `ideintr` takes the head `b` off the queue and ends its request -/
def Driver.complete (m : Driver β D) (b : β) (q : List β) (d : D) : Driver β D :=
  { m with
    idequeue := q
    buf := Function.update m.buf b ((m.buf b).ended d)
    drive := .idle
    active := none
    completed := m.completed ++ [b] }

/-- the sections -/
def sec (m : Driver β D) : Loc β D → Driver β D × Act β (Loc β D)
  | .append b req =>
    ({ m with buf := Function.update m.buf b req, idequeue := m.idequeue ++ [b], arrived := m.arrived ++ [b] }, .go (.kick b))
  | .kick b =>
    if m.idequeue.head? = some b then
      match idestart m b with
      | some m' => (m', .go (.wait b))
      | none => (m, .go (.kick b))
    else (m, .go (.wait b))
  | .wait b => if (m.buf b).synced = true then (m, .go (.ret b)) else (m, .sleep b (.wait b))
  | .ret _ => (m, .release .idle)
  | .intr =>
    match m.drive with
    | .raised d =>
      match m.idequeue with
      | [] => ({ m with drive := .idle }, .release .idle)
      | b :: q => (m.complete b q d, .wakeup b .start)
    | _ => (m, .release .idle)
  | .start =>
    match m.idequeue with
    | [] => (m, .release .idle)
    | b :: _ =>
      match idestart m b with
      | some m' => (m', .release .idle)
      | none => (m, .go .start)
  | .panic => (m, .go .panic)
  | .idle => (m, .go .idle)

def prog (havedisk1 : Bool) : Prog ι β (Driver β D) (Loc β D) (Call β D) Unit where
  sec _ _ := sec
  call _ := call havedisk1
  env _ := finish

end

def init (buf : β → Buf D) (disk : ℕ × ℕ → D) : St ι β (Driver β D) (Loc β D) :=
  Monitor.start ⟨[], buf, .idle, disk, none, [], []⟩ fun _ => .idle

/-- the buffer and the block that a process in `iderw` works for -/
def Loc.claim (m : Driver β D) : Loc β D → Option (β × (ℕ × ℕ))
  | .append b req => some (b, req.place)
  | .kick b | .wait b | .ret b => some (b, (m.buf b).place)
  | _ => none

/-- **Assumption on the callers.** No other process is in `iderw` for the buffer or for its block. -/
def Distinct (s : St ι β (Driver β D) (Loc β D)) : Op ι β (Call β D) Unit → Prop
  | .call i (.iderw b req) => ∀ j, j ≠ i → ∀ c ∈ (s.loc j).claim s.mem, c.1 ≠ b ∧ c.2 ≠ req.place
  | _ => True

variable {m m' : Driver β D} {b : β} {req : Buf D} {d : D}

/-! ## The queue and the drive -/

structure Queue (m : Driver β D) : Prop where
  order : m.arrived = m.completed ++ m.idequeue
  nodup : m.idequeue.Nodup
  waiting : ∀ b ∈ m.idequeue, (m.buf b).synced = false

/-- no command is active -/
structure Rest (m : Driver β D) : Prop where
  drive : m.drive = .idle
  active : m.active = none

/-- the command of `b` is active; when it is finished, the block is what has been sent or what can be read -/
structure Drives (m : Driver β D) (b : β) : Prop where
  active : m.active = some b
  drive : m.drive = .busy (m.buf b).place (m.buf b).sends ∨
    ∃ d, m.drive = .raised d ∧ m.disk (m.buf b).place = d ∧ ∀ x ∈ (m.buf b).sends, d = x

structure Runs (m : Driver β D) : Prop where
  empty : m.idequeue = [] → Rest m
  head : ∀ b, m.idequeue.head? = some b → Drives m b

/-- between sections -/
structure Calm (m : Driver β D) : Prop where
  queue : Queue m
  runs : Runs m

/-- met only inside of a section -/
def Loc.Mid : Loc β D → Prop
  | .kick _ | .start => True
  | _ => False

def Fits (m : Driver β D) : Loc β D → Prop
  | .kick b => Queue m ∧ ((m.idequeue = [b] ∧ Rest m) ∨ (m.idequeue.head? ≠ some b ∧ Runs m))
  | .start => Queue m ∧ Rest m
  | _ => True

/-- the request of `b` is done -/
structure Served (m : Driver β D) (b : β) : Prop where
  synced : (m.buf b).synced = true
  disk : m.disk (m.buf b).place = (m.buf b).data

@[simp] theorem finish_idequeue (m : Driver β D) : (finish m).idequeue = m.idequeue := by
  unfold finish
  split <;> rfl

@[simp] theorem finish_buf (m : Driver β D) : (finish m).buf = m.buf := by
  unfold finish
  split <;> rfl

@[simp] theorem finish_active (m : Driver β D) : (finish m).active = m.active := by
  unfold finish
  split <;> rfl

theorem Queue.finish (h : Queue m) : Queue (finish m) := by
  unfold Ide.finish
  split
  · exact ⟨h.order, h.nodup, h.waiting⟩
  · exact h

theorem Rest.finish (h : Rest m) : Ide.finish m = m := by
  unfold Ide.finish
  rw [h.drive]

theorem Drives.finish (h : Drives m b) : Drives (finish m) b := by
  refine ⟨(finish_active m).trans h.active, .inr ?_⟩
  rw [finish_buf]
  unfold Ide.finish
  rcases h.drive with hbusy | ⟨d, hraised, hdisk, hsent⟩
  · rw [hbusy]
    refine ⟨_, rfl, update_self .., fun x hx => ?_⟩
    rw [Option.mem_def.1 hx]
    rfl
  · rw [hraised]
    exact ⟨d, hraised, hdisk, hsent⟩

theorem Runs.finish (h : Runs m) : Runs (finish m) := by
  refine ⟨fun hq => ?_, fun b hb => ?_⟩
  · rw [finish_idequeue] at hq
    rw [(h.empty hq).finish]
    exact h.empty hq
  · rw [finish_idequeue] at hb
    exact (h.head b hb).finish

theorem Calm.finish (h : Calm m) : Calm (finish m) := ⟨h.queue.finish, h.runs.finish⟩

theorem Fits.finish {l : Loc β D} (h : Fits m l) : Fits (finish m) l := by
  cases l with
  | kick b =>
    refine ⟨h.1.finish, ?_⟩
    rcases h.2 with ⟨hq, hrest⟩ | ⟨hq, hruns⟩
    · rw [hrest.finish]
      exact .inl ⟨hq, hrest⟩
    · rw [finish_idequeue]
      exact .inr ⟨hq, hruns.finish⟩
  | start =>
    rw [h.2.finish]
    exact h
  | _ => trivial

/-- what `idestart` does if it returns -/
theorem idestart_some (h : idestart m b = some m') :
    m' = { m with drive := .busy (m.buf b).place (m.buf b).sends, active := some b } := by
  unfold idestart at h
  split at h
  · cases h
  · split at h
    · cases h
    · exact (Option.some.inj h).symm

/-- the request at the head is started -/
theorem Queue.start (h : Queue m) (hhead : m.idequeue.head? = some b) (hstart : idestart m b = some m') : Calm m' := by
  rw [idestart_some hstart]
  refine ⟨⟨h.order, h.nodup, h.waiting⟩, fun hq => ?_, fun b' hb' => ?_⟩
  · dsimp only at hq
    rw [hq] at hhead
    cases hhead
  · have hbb : b = b' := Option.some.inj (hhead.symm.trans hb')
    subst hbb
    exact ⟨rfl, .inl rfl⟩

/-! ## Sections -/

/-- a section step leaves the queue and the drive as the next place has them -/
structure Steps (m' : Driver β D) (l : Loc β D) : Prop where
  fits : l.Mid → Fits m' l
  calm : ¬ l.Mid → Calm m'

theorem Steps.of_calm {l : Loc β D} (h : Calm m) (hl : ¬ l.Mid) : Steps m l := ⟨fun hmid => absurd hmid hl, fun _ => h⟩

theorem Steps.of_mid {l : Loc β D} (h : Fits m l) (hl : l.Mid) : Steps m l := ⟨fun _ => h, fun hnot => absurd hl hnot⟩

variable [DecidableEq β]

theorem append_steps (h : Calm m) (hnew : b ∉ m.idequeue) (hreq : req.synced = false) :
    Steps (sec m (.append b req)).1 (sec m (.append b req)).2.loc := by
  have hother : ∀ b' ∈ m.idequeue, update m.buf b req b' = m.buf b' := fun b' hb' =>
    update_of_ne (fun heq : b' = b => hnew (heq ▸ hb')) _ _
  refine .of_mid ⟨⟨?_, ?_, fun b' hb' => ?_⟩, ?_⟩ trivial
  · unfold sec
    dsimp only
    rw [h.queue.order, List.append_assoc]
  · refine List.nodup_append.2 ⟨h.queue.nodup, List.nodup_singleton b, fun x hx y hy => ?_⟩
    rw [List.mem_singleton.1 hy]
    exact fun heq => hnew (heq ▸ hx)
  · unfold sec
    dsimp only
    rcases List.mem_append.1 hb' with hb' | hb'
    · rw [hother b' hb']
      exact h.queue.waiting b' hb'
    · rw [List.mem_singleton.1 hb', update_self]
      exact hreq
  · unfold sec
    dsimp only
    cases hq : m.idequeue with
    | nil => exact .inl ⟨rfl, ⟨(h.runs.empty hq).drive, (h.runs.empty hq).active⟩⟩
    | cons b₀ q =>
      have hmem : b₀ ∈ m.idequeue := hq ▸ List.mem_cons_self
      have hdrives := h.runs.head b₀ (by rw [hq]; rfl)
      refine .inr ⟨fun heq => ?_, nofun, fun b' hb' => ?_⟩
      · cases heq
        exact hnew hmem
      · cases hb'
        refine ⟨hdrives.active, ?_⟩
        dsimp only
        rw [hother b₀ hmem]
        exact hdrives.drive

theorem kick_steps (h : Fits m (.kick b)) : Steps (sec m (.kick b)).1 (sec m (.kick b)).2.loc := by
  unfold sec
  dsimp only
  split
  · rename_i hhead
    split
    · rename_i m' hstart
      exact .of_calm (h.1.start hhead hstart) id
    · exact .of_mid h trivial
  · rename_i hhead
    rcases h.2 with ⟨hq, -⟩ | ⟨-, hruns⟩
    · rw [hq] at hhead
      exact absurd rfl hhead
    · exact .of_calm ⟨h.1, hruns⟩ id

theorem wait_steps (h : Calm m) : Steps (sec m (.wait b)).1 (sec m (.wait b)).2.loc := by
  unfold sec
  dsimp only
  split <;> exact .of_calm h id

theorem intr_steps (h : Calm m) : Steps (sec m .intr).1 (sec m .intr).2.loc := by
  unfold sec
  dsimp only
  split
  · rename_i d hdrive
    split
    · rename_i hq
      have hrest := (h.runs.empty hq).drive
      rw [hdrive] at hrest
      cases hrest
    · rename_i b q hq
      have hnodup := h.queue.nodup
      rw [hq, List.nodup_cons] at hnodup
      refine .of_mid ⟨⟨?_, hnodup.2, fun b' hb' => ?_⟩, rfl, rfl⟩ trivial
      · unfold Driver.complete
        dsimp only
        rw [h.queue.order, hq, List.append_assoc]
        rfl
      · have hne : b' ≠ b := fun heq => hnodup.1 (heq ▸ hb')
        unfold Driver.complete
        dsimp only
        rw [update_of_ne hne]
        exact h.queue.waiting b' (hq ▸ List.mem_cons_of_mem b hb')
  · exact .of_calm h id

theorem start_steps (h : Fits m .start) : Steps (sec m .start).1 (sec m .start).2.loc := by
  unfold sec
  dsimp only
  split
  · rename_i hq
    refine .of_calm ⟨h.1, fun _ => h.2, fun b hb => ?_⟩ id
    rw [hq] at hb
    cases hb
  · rename_i b q hq
    split
    · rename_i m' hstart
      exact .of_calm (h.1.start (by rw [hq]; rfl) hstart) id
    · exact .of_mid h trivial

/-- **What a section step does** to the queue and the drive. -/
theorem sec_steps {l : Loc β D} (hfits : l.Mid → Fits m l) (hcalm : ¬ l.Mid → Calm m)
    (hnew : ∀ b req, l = .append b req → b ∉ m.idequeue ∧ req.synced = false) : Steps (sec m l).1 (sec m l).2.loc := by
  cases l with
  | append b req => exact append_steps (hcalm id) (hnew b req rfl).1 (hnew b req rfl).2
  | kick b => exact kick_steps (hfits trivial)
  | wait b => exact wait_steps (hcalm id)
  | intr => exact intr_steps (hcalm id)
  | start => exact start_steps (hfits trivial)
  | _ => exact .of_calm (hcalm id) id

/-- calls of `sleep` and `release` do not lead into a section -/
theorem sec_leaves {l : Loc β D} (hleave : (∃ b, (sec m l).2 = .sleep b (sec m l).2.loc) ∨ (sec m l).2 = .release (sec m l).2.loc) :
    ¬ (sec m l).2.loc.Mid := by
  cases l with
  | append b req =>
    rcases hleave with ⟨b', heq⟩ | heq <;> cases heq
  | kick b =>
    unfold sec at hleave ⊢
    dsimp only at hleave ⊢
    split_ifs at hleave ⊢
    · split at hleave
      · exact id
      · rcases hleave with ⟨b', heq⟩ | heq <;> cases heq
    · exact id
  | wait b =>
    unfold sec
    dsimp only
    split <;> exact id
  | intr =>
    unfold sec at hleave ⊢
    dsimp only at hleave ⊢
    split at hleave
    · split at hleave
      · exact id
      · rcases hleave with ⟨b', heq⟩ | heq <;> cases heq
    · exact id
  | start =>
    unfold sec at hleave ⊢
    dsimp only at hleave ⊢
    split at hleave
    · exact id
    · split at hleave
      · exact id
      · rcases hleave with ⟨b', heq⟩ | heq <;> cases heq
  | _ => exact id

theorem call_leads {havedisk1 : Bool} {l l' : Loc β D} {x : Call β D} (h : call havedisk1 l x = some l') :
    l = .idle ∧ ((∃ b req, x = .iderw b req ∧ l' = .append b req ∧ req.synced = false) ∨ l' = .intr ∨ l' = .panic) := by
  cases l with
  | idle =>
    refine ⟨rfl, ?_⟩
    cases x with
    | iderw b req =>
      unfold call at h
      dsimp only at h
      split_ifs at h with hsynced
      · exact .inr (.inr (Option.some.inj h).symm)
      · exact .inr (.inr (Option.some.inj h).symm)
      · exact .inl ⟨b, req, rfl, (Option.some.inj h).symm, by simpa using hsynced⟩
    | ideintr => exact .inr (.inl (Option.some.inj h).symm)
  | _ => cases h

/-- who sleeps is at the loop -/
theorem sec_sleeps {l l' : Loc β D} (h : (sec m l).2 = .sleep b l') : l' = .wait b := by
  cases l with
  | wait b' =>
    unfold sec at h
    dsimp only at h
    split at h
    · cases h
    · cases h
      rfl
  | kick b' =>
    unfold sec at h
    dsimp only at h
    split at h
    · split at h <;> cases h
    · cases h
  | intr =>
    unfold sec at h
    dsimp only at h
    split at h
    · split at h <;> cases h
    · cases h
  | start =>
    unfold sec at h
    dsimp only at h
    split at h
    · cases h
    · split at h <;> cases h
  | _ => cases h

/-! ## The processes in `iderw` -/

structure Flight (m : Driver β D) (loc : ι → Loc β D) : Prop where
  apart : ∀ i j, i ≠ j → ∀ c ∈ (loc i).claim m, ∀ d ∈ (loc j).claim m, c.1 ≠ d.1 ∧ c.2 ≠ d.2
  fresh : ∀ i b req, loc i = .append b req → req.synced = false
  owner : ∀ b ∈ m.idequeue, ∃ i, loc i = .kick b ∨ loc i = .wait b
  kick : ∀ i b, loc i = .kick b → b ∈ m.idequeue
  wait : ∀ i b, loc i = .wait b → b ∈ m.idequeue ∨ Served m b
  ret : ∀ i b, loc i = .ret b → Served m b

variable {loc : ι → Loc β D} {i j : ι} {l l' : Loc β D}

/-- whoever works for a queued buffer is its only process -/
theorem Flight.of_queued (h : Flight m loc) (hb : b ∈ m.idequeue) {c : β × (ℕ × ℕ)} (hc : c ∈ (loc j).claim m)
    (hj : ¬ (loc j = .kick b ∨ loc j = .wait b)) : c.1 ≠ b ∧ c.2 ≠ (m.buf b).place := by
  obtain ⟨i, hi⟩ := h.owner b hb
  have hne : j ≠ i := fun heq => hj (heq ▸ hi)
  have hclaim : (b, (m.buf b).place) ∈ (loc i).claim m := by
    rcases hi with hi | hi
    · rw [hi]
      rfl
    · rw [hi]
      rfl
  exact h.apart j i hne c hc _ hclaim

/-- a buffer that is about to be appended is not in the queue -/
theorem Flight.not_queued (h : Flight m loc) (hj : loc j = .append b req) : b ∉ m.idequeue := by
  intro hb
  have hnot : ¬ (loc j = .kick b ∨ loc j = .wait b) := by
    rw [hj]
    rintro (heq | heq) <;> cases heq
  exact (h.of_queued hb (c := (b, req.place)) (by rw [hj]; rfl) hnot).1 rfl

variable [DecidableEq ι]

/-- process `i` gives up its claim or keeps it, and the others keep theirs -/
theorem apart_update (h : ∀ i j, i ≠ j → ∀ c ∈ (loc i).claim m, ∀ d ∈ (loc j).claim m, c.1 ≠ d.1 ∧ c.2 ≠ d.2)
    (hother : ∀ j, j ≠ i → (loc j).claim m' = (loc j).claim m) (hself : ∀ c ∈ l.claim m', c ∈ (loc i).claim m) :
    ∀ j k, j ≠ k → ∀ c ∈ (Function.update loc i l j).claim m', ∀ d ∈ (Function.update loc i l k).claim m', c.1 ≠ d.1 ∧ c.2 ≠ d.2 := by
  have hall : ∀ j, ∀ c ∈ (Function.update loc i l j).claim m', c ∈ (loc j).claim m := by
    intro j c hc
    by_cases hji : j = i
    · subst hji
      rw [update_self] at hc
      exact hself c hc
    · rw [update_of_ne hji, hother j hji] at hc
      exact hc
  exact fun j k hjk c hc d hd => h j k hjk c (hall j c hc) d (hall k d hd)

/-- how a process goes on while the queue and the buffers stay -/
inductive Moves (m : Driver β D) : Loc β D → Loc β D → Prop
  | stay (l : Loc β D) : Moves m l l
  | kick (b : β) : Moves m (.kick b) (.wait b)
  | ret (b : β) (h : (m.buf b).synced = true) : Moves m (.wait b) (.ret b)
  | done (b : β) : Moves m (.ret b) .idle
  | intr : Moves m .intr .idle
  | start : Moves m .start .idle

theorem Moves.claim (hm : Moves m l l') (hbuf : m'.buf = m.buf) : ∀ c ∈ l'.claim m', c ∈ l.claim m := by
  intro c hc
  cases hm with
  | stay =>
    cases l <;> simpa only [Loc.claim, hbuf] using hc
  | kick b => simpa only [Loc.claim, hbuf] using hc
  | ret b h => simpa only [Loc.claim, hbuf] using hc
  | done => cases hc
  | intr => cases hc
  | start => cases hc

theorem Served.congr (h : Served m b) (hbuf : m'.buf b = m.buf b) (hdisk : m'.disk (m.buf b).place = m.disk (m.buf b).place) :
    Served m' b := by
  refine ⟨?_, ?_⟩
  · rw [hbuf]
    exact h.synced
  · rw [hbuf, hdisk]
    exact h.disk

/-- a step that leaves the queue, the buffers and the disk -/
theorem Flight.move (h : Flight m loc) (hq : Queue m) (hm : Moves m (loc i) l) (hqueue : m'.idequeue = m.idequeue) (hbuf : m'.buf = m.buf)
    (hdisk : m'.disk = m.disk) : Flight m' (Function.update loc i l) := by
  have hserved : ∀ b, Served m b → Served m' b := fun b hb => hb.congr (by rw [hbuf]) (by rw [hdisk])
  have hclaim : ∀ j, j ≠ i → (loc j).claim m' = (loc j).claim m := fun j _ => by
    unfold Loc.claim
    rw [hbuf]
  refine ⟨apart_update h.apart hclaim (hm.claim hbuf), ?_, fun b hb => ?_, ?_, ?_, ?_⟩
  · refine (forall_update_iff loc fun _ l => ∀ b req, l = .append b req → req.synced = false).2
      ⟨fun b req hl => ?_, fun j _ => h.fresh j⟩
    generalize hi : loc i = l₀ at hm
    cases hm with
    | stay => exact h.fresh i b req (hi.trans hl)
    | _ => cases hl
  · rw [hqueue] at hb
    obtain ⟨j, hj⟩ := h.owner b hb
    by_cases hji : j = i
    · subst hji
      refine ⟨j, ?_⟩
      rw [update_self]
      generalize loc j = l₀ at hj hm
      cases hm with
      | stay => exact hj
      | kick b' =>
        rcases hj with hj | hj
        · cases hj
          exact .inr rfl
        · cases hj
      | ret b' hsynced =>
        -- a buffer in the queue is not in sync with the disk
        rcases hj with hj | hj
        · cases hj
        · cases hj
          rw [hq.waiting b hb] at hsynced
          cases hsynced
      | _ =>
        rcases hj with hj | hj <;> cases hj
    · exact ⟨j, by rw [update_of_ne hji]; exact hj⟩
  · refine (forall_update_iff loc fun _ l => ∀ b, l = .kick b → b ∈ m'.idequeue).2 ⟨fun b hl => ?_, fun j _ b hj => ?_⟩
    · generalize hi : loc i = l₀ at hm
      rw [hqueue]
      cases hm with
      | stay => exact h.kick i b (hi.trans hl)
      | _ => cases hl
    · rw [hqueue]
      exact h.kick j b hj
  · refine (forall_update_iff loc fun _ l => ∀ b, l = .wait b → b ∈ m'.idequeue ∨ Served m' b).2
      ⟨fun b hl => ?_, fun j _ b hj => ?_⟩
    · generalize hi : loc i = l₀ at hm
      rw [hqueue]
      cases hm with
      | stay => exact (h.wait i b (hi.trans hl)).imp_right (hserved b)
      | kick b' =>
        cases hl
        exact .inl (h.kick i b hi)
      | _ => cases hl
    · rw [hqueue]
      exact (h.wait j b hj).imp_right (hserved b)
  · refine (forall_update_iff loc fun _ l => ∀ b, l = .ret b → Served m' b).2 ⟨fun b hl => ?_, fun j _ b hj => ?_⟩
    · generalize hi : loc i = l₀ at hm
      cases hm with
      | stay => exact hserved b (h.ret i b (hi.trans hl))
      | ret b' hsynced =>
        cases hl
        rcases h.wait i b hi with hb | hb
        · rw [hq.waiting b hb] at hsynced
          cases hsynced
        · exact hserved b hb
      | _ => cases hl
    · exact hserved b (h.ret j b hj)

/-- what a process that is not at one of the two places for `b` holds does not change with the buffer `b` -/
theorem claim_update {v : Buf D} (hplace : ∀ c ∈ l.claim m, c.1 ≠ b) :
    l.claim { m with buf := update m.buf b v } = l.claim m := by
  cases l with
  | kick b' =>
    have hne : b' ≠ b := hplace _ rfl
    simp only [Loc.claim, update_of_ne hne]
  | wait b' =>
    have hne : b' ≠ b := hplace _ rfl
    simp only [Loc.claim, update_of_ne hne]
  | ret b' =>
    have hne : b' ≠ b := hplace _ rfl
    simp only [Loc.claim, update_of_ne hne]
  | _ => rfl

/-- a buffer is appended -/
theorem Flight.append (h : Flight m loc) (hi : loc i = .append b req) : Flight (sec m (.append b req)).1 (update loc i (.kick b)) := by
  have hne : ∀ j, j ≠ i → ∀ c ∈ (loc j).claim m, c.1 ≠ b := fun j hj c hc =>
    (h.apart j i hj c hc (b, req.place) (by rw [hi]; rfl)).1
  have hserved : ∀ j b', j ≠ i → (b', (m.buf b').place) ∈ (loc j).claim m → Served m b' →
      Served (sec m (.append b req)).1 b' := fun j b' hj hc hb' =>
    hb'.congr (update_of_ne (hne j hj _ hc) _ _) rfl
  refine ⟨apart_update h.apart (fun j hj => claim_update (hne j hj)) (fun c hc => ?_), ?_, fun b' hb' => ?_, ?_, ?_, ?_⟩
  · rw [hi]
    simpa [Loc.claim, sec] using hc
  · exact (forall_update_iff loc fun _ l => ∀ b req, l = .append b req → req.synced = false).2
      ⟨nofun, fun j _ => h.fresh j⟩
  · rcases List.mem_append.1 hb' with hb' | hb'
    · obtain ⟨j, hj⟩ := h.owner b' hb'
      have hji : j ≠ i := fun heq => by
        rw [heq, hi] at hj
        rcases hj with hj | hj <;> cases hj
      exact ⟨j, by rw [update_of_ne hji]; exact hj⟩
    · rw [List.mem_singleton.1 hb']
      exact ⟨i, .inl (update_self ..)⟩
  · refine (forall_update_iff loc fun _ l => ∀ b', l = .kick b' → b' ∈ m.idequeue ++ [b]).2
      ⟨fun b' hl => ?_, fun j _ b' hj => List.mem_append_left _ (h.kick j b' hj)⟩
    cases hl
    exact List.mem_append_right _ (List.mem_singleton_self b)
  · refine (forall_update_iff loc fun _ l =>
      ∀ b', l = .wait b' → b' ∈ m.idequeue ++ [b] ∨ Served (sec m (.append b req)).1 b').2 ⟨nofun, fun j hji b' hj => ?_⟩
    exact (h.wait j b' hj).imp (List.mem_append_left _) (hserved j b' hji (by rw [hj]; rfl))
  · exact (forall_update_iff loc fun _ l => ∀ b', l = .ret b' → Served (sec m (.append b req)).1 b').2
      ⟨nofun, fun j hji b' hj => hserved j b' hji (by rw [hj]; rfl) (h.ret j b' hj)⟩

/-- a buffer whose command is finished is in sync: the block is what the drive has written or read -/
theorem Drives.complete (h : Drives m b) (hdrive : m.drive = .raised d) (q : List β) : Served (m.complete b q d) b := by
  have hfinished : m.disk (m.buf b).place = d ∧ ∀ x ∈ (m.buf b).sends, d = x := by
    rcases h.drive with hbusy | ⟨d', hraised, hdisk, hsent⟩
    · rw [hdrive] at hbusy
      cases hbusy
    · rw [hdrive] at hraised
      cases hraised
      exact ⟨hdisk, hsent⟩
  obtain ⟨hdisk, hsent⟩ := hfinished
  have hbuf : (m.complete b q d).buf b = (m.buf b).ended d := update_self ..
  refine ⟨?_, ?_⟩
  · rw [hbuf]
    rfl
  · rw [hbuf]
    refine hdisk.trans ?_
    unfold Buf.ended
    dsimp only
    split
    · rename_i hdirty
      refine hsent _ ?_
      unfold Buf.sends
      rw [if_pos hdirty]
      rfl
    · rfl

/-- the request at the head ends -/
theorem Flight.complete {q : List β} (h : Flight m loc) (hcalm : Calm m) (hi : loc i = .intr) (hkick : ∀ j b, loc j ≠ .kick b)
    (hdrive : m.drive = .raised d) (hq : m.idequeue = b :: q) : Flight (m.complete b q d) (update loc i .start) := by
  have hmem : b ∈ m.idequeue := hq ▸ List.mem_cons_self
  have hdone := (hcalm.runs.head b (by rw [hq]; rfl)).complete hdrive q
  have hclaim : ∀ l : Loc β D, l.claim (m.complete b q d) = l.claim m := by
    have hplace : ∀ b', ((m.complete b q d).buf b').place = (m.buf b').place := fun b' => by
      unfold Driver.complete
      dsimp only
      by_cases hb' : b' = b
      · rw [hb', update_self]
        rfl
      · rw [update_of_ne hb']
    intro l
    cases l <;> simp only [Loc.claim, hplace]
  have hserved : ∀ b', Served m b' → Served (m.complete b q d) b' := fun b' hb' => by
    by_cases hbb : b' = b
    · rw [hbb]
      exact hdone
    · exact hb'.congr (update_of_ne hbb _ _) rfl
  refine ⟨apart_update h.apart (fun j _ => hclaim _) nofun, ?_, fun b' hb' => ?_, ?_, ?_, ?_⟩
  · exact (forall_update_iff loc fun _ l => ∀ b req, l = .append b req → req.synced = false).2
      ⟨nofun, fun j _ => h.fresh j⟩
  · obtain ⟨j, hj⟩ := h.owner b' (hq ▸ List.mem_cons_of_mem b hb')
    have hji : j ≠ i := fun heq => by
      rw [heq, hi] at hj
      rcases hj with hj | hj <;> cases hj
    exact ⟨j, by rw [update_of_ne hji]; exact hj⟩
  · exact (forall_update_iff loc fun _ l => ∀ b', l = .kick b' → b' ∈ q).2
      ⟨nofun, fun j _ b' hj => absurd hj (hkick j b')⟩
  · refine (forall_update_iff loc fun _ l => ∀ b', l = .wait b' → b' ∈ q ∨ Served (m.complete b q d) b').2
      ⟨nofun, fun j _ b' hj => ?_⟩
    rcases h.wait j b' hj with hb' | hb'
    · rw [hq] at hb'
      rcases List.mem_cons.1 hb' with rfl | hb'
      · exact .inr hdone
      · exact .inl hb'
    · exact .inr (hserved b' hb')
  · exact (forall_update_iff loc fun _ l => ∀ b', l = .ret b' → Served (m.complete b q d) b').2
      ⟨nofun, fun j _ b' hj => hserved b' (h.ret j b' hj)⟩

/-- a process calls `iderw`, or a handler `ideintr` -/
theorem Flight.call (h : Flight m loc) (hi : loc i = .idle)
    (hl : (∃ b req, l = .append b req ∧ req.synced = false ∧ ∀ j, j ≠ i → ∀ c ∈ (loc j).claim m, c.1 ≠ b ∧ c.2 ≠ req.place) ∨
      l = .intr ∨ l = .panic) : Flight m (Function.update loc i l) := by
  have hother : ∀ j, j ≠ i → ∀ c ∈ (loc j).claim m, ∀ d ∈ l.claim m, c.1 ≠ d.1 ∧ c.2 ≠ d.2 := by
    intro j hj c hc d hd
    rcases hl with ⟨b, req, rfl, -, hdist⟩ | rfl | rfl
    · cases hd
      exact hdist j hj c hc
    · cases hd
    · cases hd
  have hnot : ∀ b, l ≠ .kick b ∧ l ≠ .wait b ∧ l ≠ .ret b := by
    intro b
    rcases hl with ⟨b', req, rfl, -⟩ | rfl | rfl
    all_goals exact ⟨nofun, nofun, nofun⟩
  refine ⟨fun j k hjk c hc d hd => ?_, ?_, fun b hb => ?_, ?_, ?_, ?_⟩
  · by_cases hji : j = i
    · subst hji
      rw [update_self] at hc
      rw [update_of_ne hjk.symm] at hd
      obtain ⟨h₁, h₂⟩ := hother k hjk.symm d hd c hc
      exact ⟨h₁.symm, h₂.symm⟩
    · rw [update_of_ne hji] at hc
      by_cases hki : k = i
      · subst hki
        rw [update_self] at hd
        exact hother j hji c hc d hd
      · rw [update_of_ne hki] at hd
        exact h.apart j k hjk c hc d hd
  · refine (forall_update_iff loc fun _ l => ∀ b req, l = .append b req → req.synced = false).2
      ⟨fun b req heq => ?_, fun j _ => h.fresh j⟩
    rcases hl with ⟨b', req', rfl, hreq, -⟩ | rfl | rfl
    · cases heq
      exact hreq
    · cases heq
    · cases heq
  · obtain ⟨j, hj⟩ := h.owner b hb
    have hji : j ≠ i := fun heq => by
      rw [heq, hi] at hj
      rcases hj with hj | hj <;> cases hj
    exact ⟨j, by rw [update_of_ne hji]; exact hj⟩
  · exact (forall_update_iff loc fun _ l => ∀ b, l = .kick b → b ∈ m.idequeue).2
      ⟨fun b heq => absurd heq (hnot b).1, fun j _ => h.kick j⟩
  · exact (forall_update_iff loc fun _ l => ∀ b, l = .wait b → b ∈ m.idequeue ∨ Served m b).2
      ⟨fun b heq => absurd heq (hnot b).2.1, fun j _ => h.wait j⟩
  · exact (forall_update_iff loc fun _ l => ∀ b, l = .ret b → Served m b).2
      ⟨fun b heq => absurd heq (hnot b).2.2, fun j _ => h.ret j⟩

/-- the drive works for the head, so it leaves the blocks of requests that are done -/
theorem Flight.finish (h : Flight m loc) (hq : Queue m)
    (haim : ∀ p sent, m.drive = .busy p sent → ∃ b ∈ m.idequeue, p = (m.buf b).place) : Flight (finish m) loc := by
  have hdisk : ∀ j b, (b, (m.buf b).place) ∈ (loc j).claim m → (m.buf b).synced = true →
      (Ide.finish m).disk (m.buf b).place = m.disk (m.buf b).place := by
    intro j b hc hsynced
    unfold Ide.finish
    cases hdrive : m.drive with
    | busy p sent =>
      obtain ⟨b₀, hb₀, rfl⟩ := haim p sent hdrive
      refine update_of_ne ?_ _ _
      refine (h.of_queued hb₀ hc fun hj => ?_).2
      -- the process of the head has a buffer that is not in sync
      have hbb : b = b₀ := by
        rcases hj with hj | hj
        all_goals
          rw [hj] at hc
          exact congrArg Prod.fst (Option.some.inj hc).symm
      rw [hbb, hq.waiting b₀ hb₀] at hsynced
      cases hsynced
    | _ => rfl
  have hserved : ∀ j b, (b, (m.buf b).place) ∈ (loc j).claim m → Served m b → Served (Ide.finish m) b := fun j b hc hb =>
    hb.congr (by rw [finish_buf]) (hdisk j b hc hb.synced)
  have hclaim : ∀ l : Loc β D, l.claim (Ide.finish m) = l.claim m := fun l => by
    unfold Loc.claim
    rw [finish_buf]
  refine ⟨fun j k hjk => ?_, h.fresh, fun b hb => ?_, fun j b hj => ?_, fun j b hj => ?_, fun j b hj => ?_⟩
  · rw [hclaim, hclaim]
    exact h.apart j k hjk
  · rw [finish_idequeue] at hb
    exact h.owner b hb
  · rw [finish_idequeue]
    exact h.kick j b hj
  · rw [finish_idequeue]
    exact (h.wait j b hj).imp_right (hserved j b (by rw [hj]; rfl))
  · exact hserved j b (by rw [hj]; rfl) (h.ret j b hj)

/-- a command that is started leaves the queue, the buffers and the disk -/
theorem Flight.start (h : Flight m loc) (hq : Queue m) (hm : Moves m (loc i) l) (hstart : idestart m b = some m') :
    Flight m' (Function.update loc i l) := by
  have heq := idestart_some hstart
  exact h.move hq hm (by rw [heq]) (by rw [heq]) (by rw [heq])

/-- a section step keeps the processes in `iderw` and the queue together -/
theorem sec_flight (h : Flight m loc) (hi : loc i = l) (hq : Queue m) (hcalm : ¬ l.Mid → Calm m)
    (hothers : ∀ j, j ≠ i → ¬ (loc j).Mid) : Flight (sec m l).1 (update loc i (sec m l).2.loc) := by
  have hmove : ∀ l', Moves m l l' → Flight m (update loc i l') := fun l' hm =>
    h.move hq (hi ▸ hm) rfl rfl rfl
  cases l with
  | append b req => exact h.append hi
  | kick b =>
    unfold sec
    dsimp only
    split
    · split
      · rename_i m' hstart
        exact h.start hq (hi ▸ .kick b) hstart
      · exact hmove _ (.stay _)
    · exact hmove _ (.kick b)
  | wait b =>
    unfold sec
    dsimp only
    split
    · rename_i hsynced
      exact hmove _ (.ret b hsynced)
    · exact hmove _ (.stay _)
  | ret b => exact hmove _ (.done b)
  | intr =>
    have hkick : ∀ j b, loc j ≠ .kick b := fun j b hj => by
      by_cases hji : j = i
      · rw [hji, hi] at hj
        cases hj
      · exact hothers j hji (by rw [hj]; trivial)
    unfold sec
    dsimp only
    split
    · rename_i d hdrive
      split
      · exact h.move hq (hi ▸ .intr) rfl rfl rfl
      · rename_i b q heq
        exact h.complete (hcalm id) hi hkick hdrive heq
    · exact hmove _ .intr
  | start =>
    unfold sec
    dsimp only
    split
    · exact hmove _ .start
    · split
      · rename_i m' hstart
        exact h.start hq (hi ▸ .start) hstart
      · exact hmove _ (.stay _)
  | panic => exact hmove _ (.stay _)
  | idle => exact hmove _ (.stay _)

/-! ## Wakeups -/

/-- what is waited for on a buffer -/
def Ready (b : β) (m : Driver β D) : Prop := (m.buf b).synced = true

/-- `ideintr` wakes whoever waits for the buffer at once -/
def Owes (_ : Loc β D) (_ : β) : Prop := False

theorem pays_same {a : Act β (Loc β D)} (hbuf : m'.buf = m.buf) (hsleep : ∀ b l', a = .sleep b l' → (m.buf b).synced = false) :
    Pays Ready Owes m l m' a := by
  refine ⟨fun b hb => .inl ⟨?_, id⟩, fun b l' ha hb => ?_⟩
  · unfold Ready at hb ⊢
    rw [← hbuf]
    exact hb
  · unfold Ready at hb
    rw [hbuf, hsleep b l' ha] at hb
    cases hb

theorem start_buf (hstart : idestart m b = some m') : m'.buf = m.buf := by
  rw [idestart_some hstart]

theorem sec_pays (hreq : ∀ b req, l = .append b req → req.synced = false) : Pays Ready Owes m l (sec m l).1 (sec m l).2 := by
  cases l with
  | append b req =>
    refine ⟨fun b' hb' => .inl ⟨?_, id⟩, nofun⟩
    change (update m.buf b req b').synced = true at hb'
    by_cases hbb : b' = b
    · rw [hbb, update_self, hreq b req rfl] at hb'
      cases hb'
    · rw [update_of_ne hbb] at hb'
      exact hb'
  | kick b =>
    unfold sec
    dsimp only
    split
    · split
      · rename_i m' hstart
        exact pays_same (start_buf hstart) nofun
      · exact pays_same rfl nofun
    · exact pays_same rfl nofun
  | wait b =>
    unfold sec
    dsimp only
    split
    · exact pays_same rfl nofun
    · rename_i hnot
      refine pays_same rfl fun b' l' heq => ?_
      cases heq
      simpa using hnot
  | intr =>
    unfold sec
    dsimp only
    split
    · rename_i d hdrive
      split
      · exact pays_same rfl nofun
      · rename_i b q hq
        refine ⟨fun b' hb' => ?_, nofun⟩
        by_cases hbb : b' = b
        · exact .inr (.inl hbb.symm)
        · change (update m.buf b ((m.buf b).ended d) b').synced = true at hb'
          rw [update_of_ne hbb] at hb'
          exact .inl ⟨hb', id⟩
    · exact pays_same rfl nofun
  | start =>
    unfold sec
    dsimp only
    split
    · exact pays_same rfl nofun
    · split
      · rename_i m' hstart
        exact pays_same (start_buf hstart) nofun
      · exact pays_same rfl nofun
  | _ => exact pays_same rfl nofun

/-! ## Every run -/

variable {s : St ι β (Driver β D) (Loc β D)} {havedisk1 : Bool} {op : Op ι β (Call β D) Unit}

/-- everything that holds in every reachable state -/
structure Good (s : St ι β (Driver β D) (Loc β D)) : Prop where
  locks : Locks s
  mid : MidOwned Loc.Mid s
  held : Held Loc.Mid Calm Fits s
  flight : Flight s.mem s.loc
  owing : Owing Ready Owes s
  asleep : ∀ i b, (s.pc i).Asleep b → (s.pc i).loc = .wait b

/-- at any time: the queue is as it should be, and the drive works for a request of it -/
theorem Good.queue (h : Good s) : Queue s.mem ∧ ∀ p sent, s.mem.drive = .busy p sent → ∃ b ∈ s.mem.idequeue, p = (s.mem.buf b).place := by
  have hruns : Runs s.mem → ∀ p sent, s.mem.drive = .busy p sent → ∃ b ∈ s.mem.idequeue, p = (s.mem.buf b).place := by
    intro hruns p sent hdrive
    cases hq : s.mem.idequeue with
    | nil =>
      rw [(hruns.empty hq).drive] at hdrive
      cases hdrive
    | cons b q =>
      refine ⟨b, List.mem_cons_self, ?_⟩
      rcases (hruns.head b (by rw [hq]; rfl)).drive with hbusy | ⟨d, hraised, -⟩
      · rw [hdrive] at hbusy
        cases hbusy
        rfl
      · rw [hdrive] at hraised
        cases hraised
  have hrest : Rest s.mem → ∀ p sent, s.mem.drive = .busy p sent → ∃ b ∈ s.mem.idequeue, p = (s.mem.buf b).place := by
    intro hrest p sent hdrive
    rw [hrest.drive] at hdrive
    cases hdrive
  by_cases hmid : ∃ i, (s.pc i).loc.Mid
  · obtain ⟨i, hi⟩ := hmid
    have hfits := h.held.mid i hi
    cases hl : (s.pc i).loc with
    | kick b =>
      rw [hl] at hfits
      exact ⟨hfits.1, hfits.2.elim (fun hr => hrest hr.2) fun hr => hruns hr.2⟩
    | start =>
      rw [hl] at hfits
      exact ⟨hfits.1, hrest hfits.2⟩
    | _ =>
      rw [hl] at hi
      exact absurd hi id
  · have hcalm := h.held.calm fun i hi => hmid ⟨i, hi⟩
    exact ⟨hcalm.queue, hruns hcalm.runs⟩

theorem step_good (h : Good s) (hdist : Distinct s op) : Good (step (prog havedisk1) s op) := by
  have hview := step_view (prog havedisk1) s op
  have hcall : ∀ (i : ι) x l l', (prog havedisk1 : Prog ι β (Driver β D) (Loc β D) (Call β D) Unit).call i l x = some l' → ¬ l'.Mid := by
    intro i x l l' hc
    obtain ⟨-, ⟨b, req, -, rfl, -⟩ | rfl | rfl⟩ := call_leads hc
    all_goals exact id
  have hloc : ∀ i l, s.pc i = .sec l → s.loc i = l := fun i l hpc => by
    unfold St.loc
    rw [hpc]
    rfl
  have hin := fun i l (hpc : s.pc i = .sec l) => h.held.inside h.locks h.mid hpc
  refine ⟨step_locks h.locks op, hview.mid h.mid hcall fun _ _ _ _ => sec_leaves,
    hview.held h.locks h.mid h.held hcall (fun i l _ hpc => ?_) (fun _ _ => ⟨fun _ => Fits.finish, Calm.finish⟩),
    hview.keeps (J := Flight) h.flight (fun i l _ hpc => ?_) (fun i x l l' hop hpc hc => ?_)
      (fun _ _ => h.flight.finish h.queue.1 h.queue.2),
    hview.owing h.locks h.owing (fun i l _ hpc => sec_pays fun b req hl => h.flight.fresh i b req ((hloc i l hpc).trans hl))
      (fun _ _ b hb => ?_), hview.asleep h.asleep fun _ _ _ _ _ _ => sec_sleeps⟩
  · have hsteps := sec_steps (hin i l hpc).1 (hin i l hpc).2 fun b req hl =>
      ⟨h.flight.not_queued ((hloc i l hpc).trans hl), h.flight.fresh i b req ((hloc i l hpc).trans hl)⟩
    exact ⟨hsteps.fits, hsteps.calm⟩
  · refine sec_flight h.flight (hloc i l hpc) h.queue.1 (hin i l hpc).2 fun j hj hmid => hj ?_
    exact h.locks.lock.unique (h.mid j hmid).hasLock (by rw [hpc]; trivial)
  · obtain ⟨rfl, hl⟩ := call_leads hc
    have hidle : s.loc i = .idle := by
      unfold St.loc
      rw [hpc]
      rfl
    refine h.flight.call hidle (hl.imp_left ?_)
    rintro ⟨b, req, rfl, rfl, hreq⟩
    rw [hop] at hdist
    exact ⟨b, req, rfl, hreq, hdist⟩
  · unfold Ready at hb ⊢
    change ((finish s.mem).buf b).synced = true at hb
    rw [finish_buf] at hb
    exact hb

theorem init_good (buf : β → Buf D) (disk : ℕ × ℕ → D) : Good (init buf disk : St ι β (Driver β D) (Loc β D)) :=
  ⟨start_locks _ _, start_mid fun _ => id,
    ⟨fun _ hi => hi.elim, fun _ => ⟨⟨rfl, List.nodup_nil, nofun⟩, fun _ => ⟨rfl, rfl⟩, nofun⟩⟩,
    ⟨fun _ _ _ _ hc => (nomatch hc), nofun, nofun, nofun, nofun, nofun⟩, start_owing, fun _ _ hj => hj.elim⟩

theorem run_good (buf : β → Buf D) (disk : ℕ × ℕ → D) {ops : List (Op ι β (Call β D) Unit)}
    (h : Guarded (step (prog havedisk1)) Distinct (init buf disk) ops) : Good (run (step (prog havedisk1)) (init buf disk) ops) :=
  guarded_inv (I := Good) (fun _ _ hdist hgood => step_good hgood hdist) (init buf disk) (init_good buf disk) ops h

/-- **Disk requests.** In every state of any interleaving of `iderw` calls for distinct buffers and blocks, of handlers and of the
drive: the queue holds no buffer twice; while `idelock` is free its head is the buffer whose command is active, and whoever sleeps in
`iderw` sleeps on a buffer of the queue; the requests that have been completed are the first ones that have arrived, in this order,
and the others are in the queue; and when `iderw` returns, its buffer is valid, not dirty, and equal to its block on the disk. -/
theorem ide_requests {ι β D : Type} [DecidableEq ι] [DecidableEq β] (havedisk1 : Bool) (buf : β → Buf D) (disk : ℕ × ℕ → D)
    (ops : List (Op ι β (Call β D) Unit)) (h : Guarded (step (prog havedisk1)) Distinct (init buf disk) ops) :
    (run (step (prog havedisk1)) (init buf disk) ops).mem.idequeue.Nodup ∧
    ((run (step (prog havedisk1)) (init buf disk) ops).lock = none →
      (run (step (prog havedisk1)) (init buf disk) ops).mem.idequeue.head? =
        (run (step (prog havedisk1)) (init buf disk) ops).mem.active ∧
      ∀ i b, ((run (step (prog havedisk1)) (init buf disk) ops).pc i).Asleep b →
        (run (step (prog havedisk1)) (init buf disk) ops).loc i = .wait b ∧
        b ∈ (run (step (prog havedisk1)) (init buf disk) ops).mem.idequeue) ∧
    (run (step (prog havedisk1)) (init buf disk) ops).mem.arrived =
      (run (step (prog havedisk1)) (init buf disk) ops).mem.completed ++
        (run (step (prog havedisk1)) (init buf disk) ops).mem.idequeue ∧
    ∀ i b, (run (step (prog havedisk1)) (init buf disk) ops).loc i = .ret b →
      ((run (step (prog havedisk1)) (init buf disk) ops).mem.buf b).valid = true ∧
      ((run (step (prog havedisk1)) (init buf disk) ops).mem.buf b).dirty = false ∧
      (run (step (prog havedisk1)) (init buf disk) ops).mem.disk
          ((run (step (prog havedisk1)) (init buf disk) ops).mem.buf b).place =
        ((run (step (prog havedisk1)) (init buf disk) ops).mem.buf b).data := by
  have hgood := run_good buf disk h
  generalize run (step (prog havedisk1)) (init buf disk) ops = s at hgood
  refine ⟨hgood.queue.1.nodup, fun hlock => ⟨?_, fun i b hi => ⟨hgood.asleep i b hi, ?_⟩⟩, hgood.queue.1.order, fun i b hi => ?_⟩
  · have hcalm := hgood.held.free hgood.locks hgood.mid hlock
    cases hq : s.mem.idequeue with
    | nil => exact (hcalm.runs.empty hq).active.symm
    | cons b q => exact (hcalm.runs.head b (by rw [hq]; rfl)).active.symm
  · have hnot := hgood.owing.awake hgood.locks hlock hi
    exact (hgood.flight.wait i b (hgood.asleep i b hi)).resolve_right fun hserved => hnot hserved.synced
  · have hserved := hgood.flight.ret i b hi
    have hsynced := hserved.synced
    unfold Buf.synced at hsynced
    simp only [Bool.and_eq_true, Bool.not_eq_true'] at hsynced
    exact ⟨hsynced.1, hsynced.2, hserved.disk⟩

instance Distinct.decidable (s : St Bool β (Driver β D) (Loc β D)) : ∀ op, Decidable (Distinct s op)
  | .call i (.iderw b req) => inferInstanceAs (Decidable (∀ j, j ≠ i → ∀ c ∈ (s.loc j).claim s.mem, c.1 ≠ b ∧ c.2 ≠ req.place))
  | .call _ .ideintr | .next _ | .kill _ | .wakeup _ | .env _ => .isTrue trivial

/-- a process writes a block and sleeps; the drive finishes, the handler ends the request, and the process is about to return -/
def writeOps : List (Op Bool Bool (Call Bool ℕ) Unit) :=
  .call false (.iderw true ⟨1, 5, false, true, 7⟩) :: List.replicate 7 (.next false) ++
    [.env (), .call true .ideintr] ++ List.replicate 6 (.next true) ++ List.replicate 3 (.next false)

theorem ide_requests_write :
    (run (step (prog true)) (init (fun _ => ⟨0, 0, false, false, 0⟩) fun _ => 0) writeOps).mem.disk (1, 5) = 7 ∧
    ((run (step (prog true)) (init (fun _ => ⟨0, 0, false, false, 0⟩) fun _ => 0) writeOps).mem.buf true).valid = true :=
  ⟨by decide +kernel, ((ide_requests true (fun _ => ⟨0, 0, false, false, 0⟩) (fun _ => 0) writeOps (by decide +kernel)).2.2.2 false true
    (by decide +kernel)).1⟩

end Xv6.Ide
