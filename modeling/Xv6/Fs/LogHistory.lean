/-
The history of the log: which operation logged which block in which transaction, and how many blocks that makes.

`begin_op` admits an operation while `MAXOPBLOCKS` blocks for it and for each operation in progress fit into `LOGSIZE`
with what is logged already. The log area of `mkfs` has `LOGSIZE` blocks with the header, so only `LOGSIZE - 1` of them
take data, and `log_write` panics when the last of those is reached.
-/
import Xv6.Fs.LogOps

namespace Xv6.Fs.LogOps

open Xv6.Core Bcache

variable {ι : Type} [DecidableEq ι] {s s' : St ι} {i : ι} {l : Pc}

/-! ## Operations and transactions -/

/-- in `begin_op`, not yet admitted -/
def Pc.Begins : Pc → Prop
  | .beginAcquire | .beginTest | .sleepAcquire | .sleepRelease | .sleepSched | .sleeping | .woken => True
  | _ => False

/-- copying the logged blocks home; the header on disk names them -/
def Pc.Installing : Pc → Prop
  | .install _ | .clearLog => True
  | _ => False

/-- operations have different numbers, one that begins has logged nothing, and one in progress logs into the open
transaction -/
structure Hist (s : St ι) : Prop where
  bound : ∀ i, s.pc i ≠ .out → s.opid i < s.nextOp
  old : ∀ e ∈ s.hist, e.op < s.nextOp ∧ e.txn ≤ s.txn
  inj : ∀ i j, s.pc i ≠ .out → s.pc j ≠ .out → s.opid i = s.opid j → i = j
  fresh : ∀ i, (s.pc i).Begins → ∀ e ∈ s.hist, e.op ≠ s.opid i
  current : ∀ i, (s.pc i).InOp → ∀ e ∈ s.hist, e.op = s.opid i → e.txn = s.txn
  same : ∀ e ∈ s.hist, ∀ e' ∈ s.hist, e.op = e'.op → e.txn = e'.txn

omit [DecidableEq ι] in
theorem start_hist (g : Log) (bc : Bcache) : Hist (start g bc : St ι) :=
  ⟨fun _ h => (h rfl).elim, nofun, fun _ _ h => (h rfl).elim, nofun, nofun, nofun⟩

theorem Pc.Begins.ne_out (h : l.Begins) : l ≠ .out := by
  rintro rfl
  exact h

theorem Pc.InOp.ne_out (h : l.InOp) : l ≠ .out := by
  rintro rfl
  exact h

theorem Pc.Installing.inCommit (h : l.Installing) : l.InCommit := by
  cases l <;> first | exact h.elim | trivial

omit [DecidableEq ι] in
/-- nothing is recorded, and nobody gets into an operation or begins one -/
theorem Hist.stay (h : Hist s) (hout : ∀ j, s'.pc j ≠ .out → s.pc j ≠ .out)
    (hbegins : ∀ j, (s'.pc j).Begins → (s.pc j).Begins) (hop : ∀ j, (s'.pc j).InOp → (s.pc j).InOp)
    (hopid : s'.opid = s.opid) (hnext : s'.nextOp = s.nextOp) (htxn : s'.txn = s.txn) (hhist : s'.hist = s.hist) : Hist s' := by
  refine ⟨?_, ?_, ?_, ?_, ?_, ?_⟩
  · rw [hopid, hnext]
    exact fun j hj => h.bound j (hout j hj)
  · rw [hhist, hnext, htxn]
    exact h.old
  · rw [hopid]
    exact fun j k hj hk => h.inj j k (hout j hj) (hout k hk)
  · rw [hhist, hopid]
    exact fun j hj => h.fresh j (hbegins j hj)
  · rw [hhist, hopid, htxn]
    exact fun j hj => h.current j (hop j hj)
  · rw [hhist]
    exact h.same

variable {P : Pc → Prop} {a : Pc}

/-- what holds of every place holds after a move within it -/
theorem goto_imp (hi : s.pc i = a) (hl : P l → P a) (j : ι) : P (update s.pc i l j) → P (s.pc j) := by
  by_cases hji : j = i
  · rw [hji, update_self, hi]
    exact hl
  · rw [update_of_ne hji]
    exact id

/-- what holds of a process woken by process `i` held of it before -/
theorem wake_imp (hi : s.pc i = .wakeAll) (hs : P .woken → P .sleeping) (hl : P .wakeRelease → P .wakeAll) (j : ι) :
    P (update (wakeup1 s.pc) i .wakeRelease j) → P (s.pc j) := by
  by_cases hji : j = i
  · rw [hji, update_self, hi]
    exact hl
  · rw [update_of_ne hji, wakeup1]
    split
    · rename_i hj
      rw [hj]
      exact hs
    · exact id

theorem Hist.move (h : Hist s) (hi : s.pc i = a) (hpc : s'.pc = update s.pc i l) (ha : a ≠ .out)
    (hb : l.Begins → a.Begins) (ho : l.InOp → a.InOp) (hopid : s'.opid = s.opid) (hnext : s'.nextOp = s.nextOp)
    (htxn : s'.txn = s.txn) (hhist : s'.hist = s.hist) : Hist s' := by
  refine h.stay ?_ ?_ ?_ hopid hnext htxn hhist
  · rw [hpc]
    exact goto_imp (P := fun q => q ≠ .out) hi fun _ => ha
  · rw [hpc]
    exact goto_imp (P := Pc.Begins) hi hb
  · rw [hpc]
    exact goto_imp (P := Pc.InOp) hi ho

theorem Hist.begins (h : Hist s) (i : ι) :
    Hist { s.goto i .beginAcquire with opid := update s.opid i s.nextOp, nextOp := s.nextOp + 1 } := by
  have hold : ∀ j, j ≠ i → (update s.pc i .beginAcquire j = s.pc j) ∧
      update s.opid i s.nextOp j = s.opid j :=
    fun j hj => ⟨update_of_ne hj .., update_of_ne hj ..⟩
  have hself : update s.pc i .beginAcquire i = .beginAcquire := update_self ..
  have hnew : update s.opid i s.nextOp i = s.nextOp := update_self ..
  refine ⟨fun j hj => ?_, fun e he => ⟨Nat.lt_succ_of_lt (h.old e he).1, (h.old e he).2⟩, fun j k hj hk hjk => ?_,
    fun j hj e he => ?_, fun j hj => ?_, h.same⟩
  · by_cases hji : j = i
    · simp only [hji, hnew]
      exact Nat.lt_succ_self _
    · simp only [St.goto, (hold j hji).1] at hj
      simp only [(hold j hji).2]
      exact Nat.lt_succ_of_lt (h.bound j hj)
  · simp only [St.goto] at hj hk hjk
    by_cases hji : j = i
    · by_cases hki : k = i
      · rw [hji, hki]
      · rw [hji, hnew, (hold k hki).2] at hjk
        rw [(hold k hki).1] at hk
        have := h.bound k hk
        omega
    · rw [(hold j hji).1] at hj
      rw [(hold j hji).2] at hjk
      by_cases hki : k = i
      · rw [hki, hnew] at hjk
        have := h.bound j hj
        omega
      · rw [(hold k hki).1] at hk
        rw [(hold k hki).2] at hjk
        exact h.inj j k hj hk hjk
  · simp only [St.goto] at hj
    by_cases hji : j = i
    · simp only [hji, hnew]
      exact (h.old e he).1.ne
    · rw [(hold j hji).1] at hj
      simp only [(hold j hji).2]
      exact h.fresh j hj e he
  · simp only [St.goto] at hj
    by_cases hji : j = i
    · rw [hji, hself] at hj
      exact hj.elim
    · rw [(hold j hji).1] at hj
      simp only [(hold j hji).2]
      exact h.current j hj

variable {b : ℕ} {f : Block → Block}

/-- a record is one of the operation's, in the open transaction -/
theorem Hist.record (h : Hist s) (hi : s.pc i = .writeRecord b f) :
    Hist { s.goto i .writeRelease with
      log := s.log.record b
      bc := s.bc |> bread b |> modify b f |> pin b |> brelse b
      hist := s.hist ++ [⟨s.txn, s.opid i, b, f⟩] } := by
  have hop : (s.pc i).InOp := by rw [hi]; trivial
  have hin := hop.ne_out
  have hout : ∀ j, update s.pc i .writeRelease j ≠ .out → s.pc j ≠ .out :=
    goto_imp (P := fun q => q ≠ .out) hi fun _ => nofun
  refine ⟨fun j hj => h.bound j (hout j hj), fun e he => ?_, fun j k hj hk => h.inj j k (hout j hj) (hout k hk),
    fun j hj e he => ?_, fun j hj e he hej => ?_, fun e he e' he' hee => ?_⟩
  · rcases List.mem_append.1 he with he | he
    · exact h.old e he
    · rw [List.mem_singleton.1 he]
      exact ⟨h.bound i hin, le_rfl⟩
  · have hj' : (s.pc j).Begins := goto_imp (P := Pc.Begins) hi (by exact id) j hj
    rcases List.mem_append.1 he with he | he
    · exact h.fresh j hj' e he
    · rw [List.mem_singleton.1 he]
      intro hij
      have := h.inj i j hin hj'.ne_out hij
      rw [← this, hi] at hj'
      exact hj'
  · have hj' : (s.pc j).InOp := goto_imp (P := Pc.InOp) hi (by exact id) j hj
    rcases List.mem_append.1 he with he | he
    · exact h.current j hj' e he hej
    · rw [List.mem_singleton.1 he]
      rfl
  · rcases List.mem_append.1 he with he | he
    · rcases List.mem_append.1 he' with he' | he'
      · exact h.same e he e' he' hee
      · rw [List.mem_singleton.1 he'] at hee ⊢
        exact h.current i hop e he hee
    · rw [List.mem_singleton.1 he] at hee ⊢
      rcases List.mem_append.1 he' with he' | he'
      · exact (h.current i hop e' he' hee.symm).symm
      · rw [List.mem_singleton.1 he']

/-- **Operations and transactions, one step.** -/
theorem step_hist (hc : Ctl s) (h : Hist s) (o : Act ι) : Hist (step s o) := by
  generalize hs' : step s o = s'
  have he : Effect s o s' := hs' ▸ step_effect hc o
  clear hs'
  cases he with
  | stay => exact h
  | move hi he hm =>
    cases he <;> exact h.move hi hm.pc nofun id id hm.opid hm.nextOp hm.txn hm.hist
  | begins hi => exact h.begins _
  | @letIn _ i hi hcom hn =>
    -- the operation has logged nothing so far
    refine ⟨fun j hj => h.bound j (?_ : s.pc j ≠ .out), h.old, ?_, fun j hj => h.fresh j ?_, fun j hj e he hej => ?_, h.same⟩
    · exact goto_imp (P := fun q => q ≠ .out) hi (fun _ => nofun) j hj
    · exact fun j k hj hk => h.inj j k (goto_imp (P := fun q => q ≠ .out) hi (fun _ => nofun) j hj)
        (goto_imp (P := fun q => q ≠ .out) hi (fun _ => nofun) k hk)
    · exact goto_imp (P := Pc.Begins) hi (fun _ => trivial) j hj
    · by_cases hji : j = i
      · subst hji
        exact absurd hej (h.fresh j (by rw [hi]; trivial) e he)
      · have hj' : (update s.pc i .beginRelease j).InOp := hj
        rw [update_of_ne hji] at hj'
        exact h.current j hj' e he hej
  | call hi => exact h.move hi rfl nofun id id rfl rfl rfl rfl
  | record hi => exact h.record hi
  | last hi hcom ho => exact h.move hi rfl nofun id (fun _ => trivial) rfl rfl rfl rfl
  | notLast hi hcom ho => exact h.move hi rfl nofun id (fun _ => trivial) rfl rfl rfl rfl
  | wakeAll hi =>
    refine h.stay ?_ ?_ ?_ rfl rfl rfl rfl
    · exact wake_imp (P := fun q => q ≠ .out) hi (fun _ => nofun) fun _ => nofun
    · exact wake_imp (P := Pc.Begins) hi id id
    · exact wake_imp (P := Pc.InOp) hi id id
  | writeLog hi ht => exact h.move hi rfl nofun id id rfl rfl rfl rfl
  | @writeHead _ i hi =>
    -- no operation is in progress
    have hin : (s.pc i).InCommit := by rw [hi]; trivial
    refine ⟨fun j hj => h.bound j ?_, fun e he => ⟨(h.old e he).1, (h.old e he).2.trans (Nat.le_succ _)⟩, ?_,
      fun j hj => h.fresh j ?_, fun j hj => ?_, h.same⟩
    · exact goto_imp (P := fun q => q ≠ .out) hi (fun _ => nofun) j hj
    · exact fun j k hj hk => h.inj j k (goto_imp (P := fun q => q ≠ .out) hi (fun _ => nofun) j hj)
        (goto_imp (P := fun q => q ≠ .out) hi (fun _ => nofun) k hk)
    · exact goto_imp (P := Pc.Begins) hi (by exact id) j hj
    · have hj' : (s.pc j).InOp := goto_imp (P := Pc.InOp) hi (by exact id) j hj
      exact (hc.apart hj' hin).elim
  | install hi ht => exact h.move hi rfl nofun id id rfl rfl rfl rfl
  | clearLog hi => exact h.move hi rfl nofun id id rfl rfl rfl rfl
  | clearHead hi => exact h.move hi rfl nofun id id rfl rfl rfl rfl
  | commitDone hi => exact h.move hi rfl nofun id id rfl rfl rfl rfl

/-! ## The homes -/

/-- the homes are different blocks: those of the open transaction or, while it is being copied home, those of the last -/
structure Blocks (s : St ι) : Prop where
  nodup : s.log.homes.Nodup
  opened : (∀ j, ¬ (s.pc j).Installing) → ∀ b, b ∈ s.log.homes ↔ ∃ e ∈ s.hist, e.txn = s.txn ∧ e.block = b
  closed : ∀ j, (s.pc j).Installing → (∀ e ∈ s.hist, e.txn < s.txn) ∧
    ∀ b, b ∈ s.log.homes ↔ ∃ e ∈ s.hist, e.txn + 1 = s.txn ∧ e.block = b

omit [DecidableEq ι] in
theorem start_blocks (g : Log) (bc : Bcache) : Blocks (start g bc : St ι) :=
  ⟨List.nodup_nil, fun _ b => by simp [start, Log.homes, rounds], nofun⟩

omit [DecidableEq ι] in
theorem Blocks.stay (h : Blocks s) (hhomes : s'.log.homes = s.log.homes) (hhist : s'.hist = s.hist)
    (htxn : s'.txn = s.txn) (hpc : ∀ j, (s'.pc j).Installing ↔ (s.pc j).Installing) : Blocks s' := by
  refine ⟨?_, fun hj => ?_, fun j hj => ?_⟩
  · rw [hhomes]
    exact h.nodup
  · rw [hhomes, hhist, htxn]
    exact h.opened fun j hj' => hj j ((hpc j).2 hj')
  · rw [hhomes, hhist, htxn]
    exact h.closed j ((hpc j).1 hj)

theorem goto_iff (hi : s.pc i = a) (hl : P l ↔ P a) (j : ι) : P (update s.pc i l j) ↔ P (s.pc j) := by
  refine ⟨goto_imp hi hl.1 j, ?_⟩
  by_cases hji : j = i
  · rw [hji, update_self, hi]
    exact hl.2
  · rw [update_of_ne hji]
    exact id

theorem Blocks.move (h : Blocks s) (hi : s.pc i = a) (hpc : s'.pc = update s.pc i l)
    (hl : l.Installing ↔ a.Installing) (hhomes : s'.log.homes = s.log.homes) (hhist : s'.hist = s.hist)
    (htxn : s'.txn = s.txn) : Blocks s' := by
  refine h.stay hhomes hhist htxn ?_
  rw [hpc]
  exact goto_iff hi hl

omit [DecidableEq ι] in
/-- while an operation is in progress nothing is being installed -/
theorem Ctl.not_installing (hc : Ctl s) (hi : (s.pc i).InOp) (j : ι) : ¬ (s.pc j).Installing :=
  fun hj => hc.apart hi hj.inCommit

omit [DecidableEq ι] in
theorem Ctl.commit_unique (hc : Ctl s) {j : ι} (hi : (s.pc i).InCommit) (hj : (s.pc j).InCommit) : i = j := by
  refine hc.commit.unique ?_ hi hj
  split <;> omega

theorem Blocks.record (hc : Ctl s) (h : Blocks s) (hn : s.log.n + 1 < 2 ^ 31)
    (hi : s.pc i = .writeRecord b f) :
    Blocks { s.goto i .writeRelease with
      log := s.log.record b
      bc := s.bc |> bread b |> modify b f |> pin b |> brelse b
      hist := s.hist ++ [⟨s.txn, s.opid i, b, f⟩] } := by
  have hop : (s.pc i).InOp := by rw [hi]; trivial
  have hopened := h.opened (hc.not_installing hop)
  have hmem : ∀ c, c ∈ (s.log.record b).homes ↔ c ∈ s.log.homes ∨ c = b := by
    intro c
    rcases Log.record_homes hn b with ⟨hb, -, hhomes⟩ | ⟨-, -, hhomes⟩
    · rw [hhomes]
      exact ⟨.inl, fun hc => hc.elim id fun hcb => hcb ▸ hb⟩
    · rw [hhomes, List.mem_append, List.mem_singleton]
  refine ⟨?_, fun _ c => ?_, fun j hj => ?_⟩
  · rcases Log.record_homes hn b with ⟨-, -, hhomes⟩ | ⟨hb, -, hhomes⟩
    · exact hhomes ▸ h.nodup
    · rw [hhomes, ← List.concat_eq_append]
      exact h.nodup.concat hb
  · rw [hmem c, hopened c]
    constructor
    · rintro (⟨e, he, ht, hb⟩ | rfl)
      · exact ⟨e, List.mem_append_left _ he, ht, hb⟩
      · exact ⟨_, List.mem_append_right _ List.mem_cons_self, rfl, rfl⟩
    · intro ⟨e, he, ht, hb⟩
      rcases List.mem_append.1 he with he | he
      · exact .inl ⟨e, he, ht, hb⟩
      · rw [List.mem_singleton.1 he] at hb
        exact .inr hb.symm
  · have hj' : (s.pc j).Installing := goto_imp (P := Pc.Installing) hi (by exact id) j hj
    exact (hc.not_installing hop j hj').elim

/-- the header names the homes: the transaction is closed -/
theorem Blocks.writeHead (hc : Ctl s) (hh : Hist s) (h : Blocks s) (hi : s.pc i = .writeHead) :
    Blocks { s.goto i (.install 0) with bc := s.log.writeHead s.bc, txn := s.txn + 1 } := by
  have hin : (s.pc i).InCommit := by rw [hi]; trivial
  have hnone : ∀ j, ¬ (s.pc j).Installing := by
    intro j hj
    have hij := hc.commit_unique hin hj.inCommit
    rw [← hij, hi] at hj
    exact hj
  refine ⟨h.nodup, fun hj => ?_, fun j _ => ⟨fun e he => Nat.lt_succ_of_le (hh.old e he).2, fun b => ?_⟩⟩
  · refine (hj i ?_).elim
    simp only [St.goto, update_self]
    trivial
  · simp only [St.goto, Nat.add_right_cancel_iff]
    exact h.opened hnone b

/-- the log is empty, and so is the open transaction -/
theorem Blocks.clearLog (hc : Ctl s) (h : Blocks s) (hi : s.pc i = .clearLog) :
    Blocks { s.goto i .clearHead with log := { s.log with n := 0 } } := by
  have hin : (s.pc i).InCommit := by rw [hi]; trivial
  obtain ⟨hold, -⟩ := h.closed i (by rw [hi]; trivial)
  refine ⟨List.nodup_nil, fun _ b => ?_, fun j hj => ?_⟩
  · simp only [Log.homes, rounds]
    refine iff_of_false (by simp) ?_
    rintro ⟨e, he, ht, -⟩
    exact (hold e he).ne ht
  · have hj' : (s.pc j).Installing := goto_imp (P := Pc.Installing) hi (fun _ => trivial) j hj
    have hij := hc.commit_unique hin hj'.inCommit
    simp only [St.goto, ← hij, update_self] at hj
    exact hj.elim

/-- **The homes, one step.** -/
theorem step_blocks (hc : Ctl s) (hh : Hist s) (h : Blocks s) (hn : s.log.n + 1 < 2 ^ 31) (o : Act ι) : Blocks (step s o) := by
  generalize hs' : step s o = s'
  have he : Effect s o s' := hs' ▸ step_effect hc o
  clear hs'
  cases he with
  | stay => exact h
  | move hi he hm =>
    have hhomes : s'.log.homes = s.log.homes := by rw [hm.log]
    cases he <;> exact h.move hi hm.pc Iff.rfl hhomes hm.hist hm.txn
  | begins hi => exact h.move hi rfl Iff.rfl rfl rfl rfl
  | letIn hi hcom hn => exact h.move hi rfl Iff.rfl rfl rfl rfl
  | call hi => exact h.move hi rfl Iff.rfl rfl rfl rfl
  | record hi => exact .record hc h hn hi
  | last hi hcom ho => exact h.move hi rfl Iff.rfl rfl rfl rfl
  | notLast hi hcom ho => exact h.move hi rfl Iff.rfl rfl rfl rfl
  | @wakeAll _ i hi =>
    have hself : wakeup1 s.pc i = .wakeAll := by rw [wakeup1_self (by rw [hi]; nofun), hi]
    have hwoken : Blocks { s with pc := wakeup1 s.pc } :=
      h.stay rfl rfl rfl (wakeup1_region (R := Pc.Installing) id id s.pc)
    exact hwoken.move hself rfl Iff.rfl rfl rfl rfl
  | writeLog hi ht => exact h.move hi rfl Iff.rfl rfl rfl rfl
  | writeHead hi => exact .writeHead hc hh h hi
  | install hi ht => exact h.move hi rfl Iff.rfl rfl rfl rfl
  | clearLog hi => exact .clearLog hc h hi
  | clearHead hi => exact h.move hi rfl Iff.rfl rfl rfl rfl
  | commitDone hi => exact h.move hi rfl Iff.rfl rfl rfl rfl

/-! ## Capacity -/

/-- the blocks that operation `k` has logged -/
def St.blocks (s : St ι) (k : ℕ) : Finset ℕ := ((s.hist.filter fun e => e.op = k).map Entry.block).toFinset

/-- an operation logs at most `m` different blocks -/
def OpBound (m : ℕ) (s : St ι) : Act ι → Prop
  | .logWrite i b _ => (insert b (s.blocks (s.opid i))).card ≤ m
  | _ => True

/-- the block a process is logging -/
def Pc.block? : Pc → Option ℕ
  | .writeCheck b _ | .writeAcquire b _ | .writeRecord b _ => some b
  | _ => none

/-- the blocks that the operation of process `i` may still add to the log -/
def St.share (s : St ι) (i : ι) : ℕ := MAXOPBLOCKS - 1 - (s.blocks (s.opid i)).card

/-- what operations in progress may still add fits, with a block to spare -/
structure Cap (s : St ι) : Prop where
  size : s.log.size = LOGSIZE
  call : ∀ i b, (s.pc i).block? = some b → (insert b (s.blocks (s.opid i))).card ≤ MAXOPBLOCKS - 1
  space : ∃ m, s.log.n + m + 2 ≤ LOGSIZE ∧ Reserved Pc.InOp s.share m s.pc
  noPanic : ∀ i, s.pc i ≠ .panic .tooBig

omit [DecidableEq ι] in
theorem start_cap {g : Log} (hg : g.size = LOGSIZE) (bc : Bcache) : Cap (start g bc : St ι) where
  size := hg
  call _ _ h := by cases h
  space := ⟨0, (by decide : 0 + 0 + 2 ≤ LOGSIZE), ∅, fun i => by simp [start, Pc.InOp], le_rfl⟩
  noPanic _ h := by cases h

omit [DecidableEq ι] in
theorem Cap.n_le (h : Cap s) : s.log.n + 2 ≤ LOGSIZE := by
  obtain ⟨m, hm, -⟩ := h.space
  omega

omit [DecidableEq ι] in
/-- nothing is recorded and no operation begins -/
theorem Cap.stay (h : Cap s) (hsize : s'.log.size = s.log.size) (hn : s'.log.n ≤ s.log.n) (hhist : s'.hist = s.hist)
    (hop : ∀ j, (s'.pc j).InOp → (s.pc j).InOp ∧ s'.opid j = s.opid j)
    (hcall : ∀ j b, (s'.pc j).block? = some b → (s.pc j).block? = some b ∧ s'.opid j = s.opid j)
    (hp : ∀ j, s'.pc j = .panic .tooBig → s.pc j = .panic .tooBig) : Cap s' := by
  have hblocks : s'.blocks = s.blocks := by
    funext k
    rw [St.blocks, St.blocks, hhist]
  refine ⟨hsize.trans h.size, fun j b hj => ?_, ?_, fun j hj => h.noPanic j (hp j hj)⟩
  · obtain ⟨hj', hid⟩ := hcall j b hj
    rw [hblocks, hid]
    exact h.call j b hj'
  · obtain ⟨m, hm, hres⟩ := h.space
    refine ⟨m, by omega, hres.mono (fun j hj => (hop j hj).1) fun j hj => ?_⟩
    rw [St.share, St.share, hblocks, (hop j hj).2]

theorem Cap.move (h : Cap s) (hi : s.pc i = a) (hpc : s'.pc = update s.pc i l)
    (hsize : s'.log.size = s.log.size) (hn : s'.log.n ≤ s.log.n) (hhist : s'.hist = s.hist) (hopid : s'.opid = s.opid)
    (hop : l.InOp → a.InOp) (hcall : l.block? = a.block? ∨ l.block? = none) (hp : l ≠ .panic .tooBig) : Cap s' := by
  refine h.stay hsize hn hhist (fun j hj => ⟨?_, by rw [hopid]⟩) (fun j b hj => ⟨?_, by rw [hopid]⟩) fun j hj => ?_
  · rw [hpc] at hj
    exact goto_imp (P := Pc.InOp) hi hop j hj
  · rw [hpc] at hj
    refine goto_imp (P := fun q => q.block? = some b) hi (fun hl => ?_) j hj
    rcases hcall with hcall | hcall
    · exact hcall ▸ hl
    · rw [hcall] at hl
      cases hl
  · rw [hpc] at hj
    exact goto_imp (P := fun q => q = .panic .tooBig) hi (fun hl => (hp hl).elim) j hj

/-- an operation is admitted: the test of `begin_op` leaves a block to spare -/
theorem Cap.letIn (hc : Ctl s) (h : Cap s) (hi : s.pc i = .beginTest) (hcom : ¬ s.committing = true)
    (hn : ¬ LOGSIZE < s.log.n + (s.log.outstanding + 1) * MAXOPBLOCKS) :
    Cap { s.goto i .beginRelease with log := { s.log with outstanding := s.log.outstanding + 1 } } := by
  have hcount := (hc.letIn hi hcom).count.reserved (w := s.share) (k := MAXOPBLOCKS - 1) fun j => Nat.sub_le ..
  refine ⟨h.size, fun j b hj => ?_, ⟨_, ?_, hcount⟩, fun j => ?_⟩
  · exact h.call j b (goto_imp (P := fun q => q.block? = some b) (l := .beginRelease) hi (by rintro ⟨⟩) j hj)
  · -- without operations in progress the log is empty
    have hempty : s.log.outstanding = 0 → s.log.n = 0 := hc.empty (by simpa using hcom)
    simp only [LOGSIZE, MAXOPBLOCKS] at hn ⊢
    rcases Nat.eq_zero_or_pos s.log.outstanding with hz | hpos
    · simp [hempty hz, hz]
    · omega
  · exact forall_goto (P := fun q => q ≠ .panic .tooBig) (l := .beginRelease) (by simp) h.noPanic j

omit [DecidableEq ι] in
theorem blocks_record (s : St ι) (i : ι) (b : ℕ) (f : Block → Block) (k : ℕ) :
    (((s.hist ++ [(⟨s.txn, s.opid i, b, f⟩ : Entry)]).filter fun e => e.op = k).map Entry.block).toFinset =
      if s.opid i = k then insert b (s.blocks k) else s.blocks k := by
  rw [List.filter_append, List.map_append, List.toFinset_append]
  split
  all_goals
    rename_i hk
    simp [hk, St.blocks]

/-- a record spends the operation's own share, if it makes the log longer -/
theorem Cap.record (hc : Ctl s) (hh : Hist s) (hb : Blocks s) (h : Cap s)
    (hi : s.pc i = .writeRecord b f) :
    Cap { s.goto i .writeRelease with
      log := s.log.record b
      bc := s.bc |> bread b |> modify b f |> pin b |> brelse b
      hist := s.hist ++ [⟨s.txn, s.opid i, b, f⟩] } := by
  have hop : (s.pc i).InOp := by rw [hi]; trivial
  generalize hs' : ({ s.goto i .writeRelease with
      log := s.log.record b
      bc := s.bc |> bread b |> modify b f |> pin b |> brelse b
      hist := s.hist ++ [⟨s.txn, s.opid i, b, f⟩] } : St ι) = s'
  have hpc : s'.pc = update s.pc i .writeRelease := by rw [← hs']; rfl
  have hopid : s'.opid = s.opid := by rw [← hs']; rfl
  have hlog : s'.log = s.log.record b := by rw [← hs']
  have hblocks : ∀ k, s'.blocks k = if s.opid i = k then insert b (s.blocks k) else s.blocks k := by
    rw [← hs']
    exact blocks_record s i b f
  have hgrow : ∀ j, s'.share j ≤ s.share j := by
    intro j
    rw [St.share, St.share, hblocks, hopid]
    refine Nat.sub_le_sub_left (Finset.card_le_card ?_) _
    split
    · exact Finset.subset_insert ..
    · exact le_rfl
  have hregion : ∀ j, (s'.pc j).InOp ↔ (s.pc j).InOp := by
    rw [hpc]
    exact goto_iff (P := Pc.InOp) hi Iff.rfl
  refine ⟨?_, fun j c hj => ?_, ?_, ?_⟩
  · rw [hlog]
    exact h.size
  · rw [hpc] at hj
    have hji : j ≠ i := by
      rintro rfl
      rw [update_self] at hj
      cases hj
    rw [update_of_ne hji] at hj
    have hne : s.opid i ≠ s.opid j := fun hij => hji (hh.inj i j hop.ne_out (by rintro hj'; rw [hj'] at hj; cases hj) hij).symm
    rw [hblocks, hopid, if_neg hne]
    exact h.call j c hj
  · obtain ⟨m, hm, hres⟩ := h.space
    rcases Log.record_homes (g := s.log) (by simp only [LOGSIZE, MAXOPBLOCKS] at hm; omega) b with ⟨-, hn, -⟩ | ⟨hnew, hn, -⟩
    · refine ⟨m, by rw [hlog, hn]; exact hm, hres.mono (fun j hj => (hregion j).1 hj) fun j _ => hgrow j⟩
    · -- the operation has not logged the block before, or the block would be in the log
      have hfresh : b ∉ s.blocks (s.opid i) := by
        intro hmem
        obtain ⟨e, he, heb⟩ := List.mem_map.1 (List.mem_toFinset.1 hmem)
        obtain ⟨he, hei⟩ := List.mem_filter.1 he
        have htxn := hh.current i hop e he (by simpa using hei)
        exact hnew ((hb.opened (hc.not_installing hop) b).2 ⟨e, he, htxn, heb⟩)
      have hcard := h.call i b (by rw [hi]; rfl)
      rw [Finset.card_insert_of_notMem hfresh] at hcard
      have hspend : s'.share i + 1 ≤ s.share i := by
        rw [St.share, St.share, hblocks, hopid, if_pos rfl, Finset.card_insert_of_notMem hfresh]
        omega
      obtain ⟨hpos, hres'⟩ := hres.spend hop hspend hgrow
      refine ⟨m - 1, by rw [hlog, hn]; omega, hres'.mono (fun j hj => (hregion j).1 hj) fun j _ => le_rfl⟩
  · rw [hpc]
    exact forall_goto (P := fun q => q ≠ .panic .tooBig) (by simp) h.noPanic

/-- **Capacity, one step.** -/
theorem step_cap (hc : Ctl s) (hh : Hist s) (hb : Blocks s) (h : Cap s) (o : Act ι) (ho : OpBound (MAXOPBLOCKS - 1) s o) : Cap (step s o) := by
  generalize hs' : step s o = s'
  have he : Effect s o s' := hs' ▸ step_effect hc o
  clear hs'
  cases he with
  | stay => exact h
  | move hi he hm =>
    have hsize : s'.log.size = s.log.size := by rw [hm.log]
    have hn : s'.log.n ≤ s.log.n := by rw [hm.log]
    cases he with
    | tooBig hbig =>
      have := h.n_le
      rw [h.size] at hbig
      omega
    | _ => exact h.move hi hm.pc hsize hn hm.hist hm.opid id (by first | exact .inl rfl | exact .inr rfl) (by simp)
  | @begins _ i hi =>
    have hother : ∀ j, update s.pc i .beginAcquire j ≠ .beginAcquire →
        update s.pc i .beginAcquire j = s.pc j ∧ update s.opid i s.nextOp j = s.opid j := by
      intro j hj
      have hji : j ≠ i := by
        rintro rfl
        exact hj (update_self ..)
      exact ⟨update_of_ne hji .., update_of_ne hji ..⟩
    refine h.stay rfl le_rfl rfl (fun j hj => ?_) (fun j b hj => ?_) fun j hj => ?_
    · obtain ⟨hpc, hid⟩ := hother j (by rintro hj'; simp only [St.goto, hj'] at hj; exact hj)
      exact ⟨hpc ▸ hj, hid⟩
    · obtain ⟨hpc, hid⟩ := hother j (by rintro hj'; simp only [St.goto, hj'] at hj; cases hj)
      exact ⟨hpc ▸ hj, hid⟩
    · obtain ⟨hpc, -⟩ := hother j (by rintro hj'; simp only [St.goto, hj'] at hj; cases hj)
      exact hpc ▸ hj
  | letIn hi hcom hn => exact .letIn hc h hi hcom hn
  | @call i b f hi =>
    refine ⟨h.size, fun j c hj => ?_, ?_, ?_⟩
    · simp only [St.goto] at hj
      by_cases hji : j = i
      · rw [hji, update_self] at hj
        cases hj
        rw [hji]
        exact ho
      · rw [update_of_ne hji] at hj
        exact h.call j c hj
    · obtain ⟨m, hm, hres⟩ := h.space
      exact ⟨m, hm, hres.mono (goto_imp (P := Pc.InOp) hi fun _ => trivial) fun _ _ => le_rfl⟩
    · exact forall_goto (P := fun q => q ≠ .panic .tooBig) (l := .writeCheck b f) (by simp) h.noPanic
  | record hi => exact .record hc hh hb h hi
  | last hi hcom ho => exact h.move hi rfl rfl le_rfl rfl rfl (fun _ => trivial) (.inl rfl) (by simp)
  | notLast hi hcom ho => exact h.move hi rfl rfl le_rfl rfl rfl (fun _ => trivial) (.inl rfl) (by simp)
  | @wakeAll _ i hi =>
    refine h.stay rfl le_rfl rfl (fun j hj => ⟨?_, rfl⟩) (fun j b hj => ⟨?_, rfl⟩) fun j hj => ?_
    · exact wake_imp (P := Pc.InOp) hi id id j hj
    · exact wake_imp (P := fun q => q.block? = some b) hi (by rintro ⟨⟩) (by rintro ⟨⟩) j hj
    · exact wake_imp (P := fun q => q = .panic .tooBig) hi (by simp) (by simp) j hj
  | writeLog hi ht => exact h.move hi rfl rfl le_rfl rfl rfl id (.inl rfl) (by simp)
  | writeHead hi => exact h.move hi rfl rfl le_rfl rfl rfl id (.inl rfl) (by simp)
  | install hi ht => exact h.move hi rfl rfl le_rfl rfl rfl id (.inl rfl) (by simp)
  | clearLog hi => exact h.move hi rfl rfl (Nat.zero_le _) rfl rfl id (.inl rfl) (by simp)
  | clearHead hi => exact h.move hi rfl rfl le_rfl rfl rfl id (.inl rfl) (by simp)
  | commitDone hi => exact h.move hi rfl rfl le_rfl rfl rfl id (.inl rfl) (by simp)

/-- runs in which operations log at most `MAXOPBLOCKS - 1` blocks -/
theorem after_cap {g : Log} (hg : g.size = LOGSIZE) (bc : Bcache) (ops : List (Act ι))
    (hops : Guarded step (OpBound (MAXOPBLOCKS - 1)) (start g bc) ops) : Cap (after g bc ops) := by
  have hstep : ∀ (s : St ι) (o : Act ι), OpBound (MAXOPBLOCKS - 1) s o → ((Ctl s ∧ Hist s) ∧ Blocks s ∧ Cap s) →
      (Ctl (step s o) ∧ Hist (step s o)) ∧ Blocks (step s o) ∧ Cap (step s o) := by
    intro s o ho ⟨⟨hc, hh⟩, hb, h⟩
    have hn : s.log.n + 1 < 2 ^ 31 := by
      have := h.n_le
      simp only [LOGSIZE, MAXOPBLOCKS] at this
      omega
    exact ⟨⟨step_ctl hc o, step_hist hc hh o⟩, step_blocks hc hh hb hn o, step_cap hc hh hb h o ho⟩
  exact (guarded_inv hstep _ ⟨⟨start_ctl g bc, start_hist g bc⟩, start_blocks g bc, start_cap hg bc⟩ ops hops).2.2

/-- **Log capacity.** With the log area of `mkfs`, if every operation logs at most `MAXOPBLOCKS - 1` blocks, the log area
never overflows and nobody panics for it. -/
theorem log_capacity (g : Log) (hg : g.size = LOGSIZE) (bc : Bcache) (ops : List (Act ι))
    (hops : Guarded step (OpBound (MAXOPBLOCKS - 1)) (start g bc) ops) :
    (after g bc ops).log.n ≤ (after g bc ops).log.size - 1 ∧ ∀ i, (after g bc ops).pc i ≠ .panic .tooBig := by
  have h := after_cap hg bc ops hops
  have hn := h.n_le
  have hsize := h.size
  exact ⟨by omega, h.noPanic⟩

/-- one operation logs one block -/
theorem log_capacity_one : (after mkfsLog emptyCache (beginOp (0 : Fin 1) ++ [.logWrite 0 100 id])).log.n ≤ 29 :=
  (log_capacity mkfsLog rfl emptyCache (beginOp (0 : Fin 1) ++ [.logWrite 0 100 id]) (by
    simp only [beginOp, List.cons_append, List.nil_append, Guarded, OpBound, true_and, and_true]
    decide)).1

/-! ## Three full operations -/

/-- an operation logs one block after the other -/
def writeAll (i : ι) (f : Block → Block) (bs : List ℕ) : List (Act ι) := bs.flatMap fun b => writeOp i b f

def St.recordedAll (s : St ι) (i : ι) (f : Block → Block) (bs : List ℕ) : St ι :=
  bs.foldl (fun s b => s.recorded i b f) s

omit [DecidableEq ι] in
/-- records change the log, the cache and the history -/
theorem recordedAll_rest (s : St ι) (i : ι) (f : Block → Block) (bs : List ℕ) :
    ∃ n block bc hist, s.recordedAll i f bs =
      { s with log := { s.log with n := n, block := block }, bc := bc, hist := hist } := by
  induction bs generalizing s with
  | nil => exact ⟨_, _, _, _, rfl⟩
  | cons b bs ih =>
    obtain ⟨n, block, bc, hist, h⟩ := ih (s.recorded i b f)
    exact ⟨n, block, bc, hist, h⟩

omit [DecidableEq ι] in
/-- different blocks make the log longer by one each -/
theorem recordedAll_n (f : Block → Block) (bs : List ℕ) (hnodup : (s.log.homes ++ bs).Nodup) (hn : s.log.n + bs.length < 2 ^ 31) :
    (s.recordedAll i f bs).log.n = s.log.n + bs.length ∧ (s.recordedAll i f bs).log.homes = s.log.homes ++ bs := by
  induction bs generalizing s with
  | nil => exact ⟨rfl, (List.append_nil _).symm⟩
  | cons b bs ih =>
    have hb : b ∉ s.log.homes := fun hb => (List.nodup_append.1 hnodup).2.2 b hb b List.mem_cons_self rfl
    rw [List.length_cons] at hn ⊢
    obtain ⟨hmem, -⟩ | ⟨-, hn', hhomes⟩ := Log.record_homes (g := s.log) (by omega) b
    · exact absurd hmem hb
    have hn₁ : (s.recorded i b f).log.n = s.log.n + 1 := hn'
    have hh₁ : (s.recorded i b f).log.homes = s.log.homes ++ [b] := hhomes
    have hnext := ih (s := s.recorded i b f) (by rw [hh₁]; simpa using hnodup) (by rw [hn₁]; omega)
    rw [hn₁, hh₁, List.append_assoc] at hnext
    refine ⟨hnext.1.trans (by omega), hnext.2⟩

theorem run_writeAll (f : Block → Block) {bs : List ℕ} (hi : s.pc i = .op) (hl : s.lock = none)
    (ho : 0 < s.log.outstanding) (hnodup : (s.log.homes ++ bs).Nodup) (hlog : s.log.n + bs.length ≤ LOGSIZE)
    (hsize : s.log.n + bs.length < s.log.size) : run step s (writeAll i f bs) = s.recordedAll i f bs ∧
      ∀ m, (s.blocks (s.opid i)).card + bs.length ≤ m → Guarded step (OpBound m) s (writeAll i f bs) := by
  induction bs generalizing s with
  | nil => exact ⟨rfl, fun _ _ => trivial⟩
  | cons b bs ih =>
    rw [List.length_cons] at hlog hsize
    have hint : s.log.n + [b].length < 2 ^ 31 := by
      simp only [LOGSIZE, MAXOPBLOCKS] at hlog
      simp only [List.length_singleton]
      omega
    have hone := recordedAll_n (i := i) f [b] (List.Nodup.sublist (by simp) hnodup) hint
    have hn₁ : (s.recorded i b f).log.n = s.log.n + 1 := hone.1
    have hh₁ : (s.recorded i b f).log.homes = s.log.homes ++ [b] := hone.2
    have hwrite := run_writeOp hi hl ho (by omega) (by omega) b f
    have hsize1 : (s.recorded i b f).log.n + bs.length < (s.recorded i b f).log.size := by
      rw [hn₁]
      show s.log.n + 1 + bs.length < s.log.size
      omega
    obtain ⟨hrun, hguard⟩ := ih (s := s.recorded i b f) hi hl ho (by rw [hh₁]; simpa using hnodup)
      (by rw [hn₁]; omega) hsize1
    rw [writeAll, List.flatMap_cons, run_append, hwrite]
    refine ⟨hrun, fun m hm => ?_⟩
    rw [List.length_cons] at hm
    have hins := Finset.card_insert_le b (s.blocks (s.opid i))
    rw [guarded_append, hwrite]
    refine ⟨⟨show (insert b (s.blocks (s.opid i))).card ≤ m by omega, trivial, trivial, trivial, trivial, trivial⟩, hguard m ?_⟩
    have hblocks : (s.recorded i b f).blocks (s.opid i) = insert b (s.blocks (s.opid i)) := by
      rw [St.blocks]
      exact (blocks_record s i b f _).trans (if_pos rfl)
    show ((s.recorded i b f).blocks (s.opid i)).card + bs.length ≤ m
    rw [hblocks]
    omega

omit [DecidableEq ι] in
theorem recordedAll_blocks (s : St ι) (f : Block → Block) (bs : List ℕ) {k : ℕ} (hk : s.opid i ≠ k) :
    (s.recordedAll i f bs).blocks k = s.blocks k := by
  induction bs generalizing s with
  | nil => rfl
  | cons b bs ih => exact (ih (s.recorded i b f) hk).trans ((blocks_record s i b f k).trans (if_neg hk))

omit [DecidableEq ι] in
theorem recordedAll_card (s : St ι) (i : ι) (f : Block → Block) (bs : List ℕ) :
    ((s.recordedAll i f bs).blocks (s.opid i)).card ≤ (s.blocks (s.opid i)).card + bs.length := by
  induction bs generalizing s with
  | nil => exact le_rfl
  | cons b bs ih =>
    have hnext := ih (s.recorded i b f)
    have hblocks : (s.recorded i b f).blocks (s.opid i) = insert b (s.blocks (s.opid i)) :=
      (blocks_record s i b f _).trans (if_pos rfl)
    have hins := Finset.card_insert_le b (s.blocks (s.opid i))
    change _ ≤ ((s.recorded i b f).blocks (s.opid i)).card + bs.length at hnext
    rw [hblocks] at hnext
    rw [List.length_cons]
    exact hnext.trans (by omega)

/-- three operations are in progress; they have logged the blocks of `bs` together, and `c i` blocks each -/
structure Stage (s : St (Fin 3)) (bs : List ℕ) (c : Fin 3 → ℕ) : Prop where
  pc : ∀ i, s.pc i = .op
  lock : s.lock = none
  ptable : s.ptable = none
  committing : s.committing = false
  txn : s.txn = 0
  outstanding : s.log.outstanding = 3
  start : s.log.start = 2
  size : s.log.size = LOGSIZE
  homes : s.log.homes = bs
  n : s.log.n = bs.length
  opid : ∀ i : Fin 3, s.opid i = i
  card : ∀ i : Fin 3, (s.blocks i).card ≤ c i

/-- one of the operations logs more blocks, while there is room -/
theorem Stage.write {s : St (Fin 3)} {bs : List ℕ} {c : Fin 3 → ℕ} (h : Stage s bs c) (i : Fin 3) (f : Block → Block)
    (bs' : List ℕ) (hnodup : (bs ++ bs').Nodup) (hlen : bs.length + bs'.length < LOGSIZE) :
    (run step s (writeAll i f bs') = s.recordedAll i f bs' ∧ ∀ m, c i + bs'.length ≤ m → Guarded step (OpBound m) s (writeAll i f bs')) ∧
    Stage (s.recordedAll i f bs') (bs ++ bs') (update c i (c i + bs'.length)) := by
  have hint : s.log.n + bs'.length < 2 ^ 31 := by
    rw [h.n]
    exact hlen.trans (by decide)
  obtain ⟨hn, hhomes⟩ := recordedAll_n (i := i) f _ (by rw [h.homes]; exact hnodup) hint
  obtain ⟨hrun, hguard⟩ := run_writeAll f (h.pc i) h.lock (by rw [h.outstanding]; decide) (by rw [h.homes]; exact hnodup)
    (by rw [h.n]; exact hlen.le) (by rw [h.n, h.size]; exact hlen)
  have hi := h.card i
  rw [h.opid i] at hguard
  refine ⟨⟨hrun, fun m hm => hguard m (by omega)⟩, ?_⟩
  have hcard : ∀ j : Fin 3, ((s.recordedAll i f bs').blocks j).card ≤ update c i (c i + bs'.length) j := by
    intro j
    by_cases hji : j = i
    · have hcard := recordedAll_card s i f bs'
      rw [h.opid i] at hcard
      rw [hji, update_self]
      omega
    · have hne : s.opid i ≠ j := by
        rw [h.opid i]
        exact fun hij => hji (Fin.ext hij.symm)
      rw [update_of_ne hji, recordedAll_blocks s f bs' hne]
      exact h.card j
  rw [h.n, ← List.length_append] at hn
  rw [h.homes] at hhomes
  obtain ⟨n, block, bc, hist, hrest⟩ := recordedAll_rest s i f bs'
  rw [hrest] at hn hhomes hcard ⊢
  exact ⟨h.pc, h.lock, h.ptable, h.committing, h.txn, h.outstanding, h.start, h.size, hhomes, hn, h.opid, hcard⟩

/-- three operations begin -/
def beginAll : List (Act (Fin 3)) := beginOp 0 ++ beginOp 1 ++ beginOp 2

def begunAll : St (Fin 3) := (((start mkfsLog emptyCache).begun 0).begun 1).begun 2

theorem run_beginAll : run step (start mkfsLog emptyCache) beginAll = begunAll ∧
    ∀ m, Guarded step (OpBound m) (start mkfsLog emptyCache) beginAll := by
  constructor
  · rw [beginAll, run_append, run_append, run_beginOp, run_beginOp, run_beginOp]
    · rfl
    all_goals first | rfl | decide
  · intro m
    simp only [beginAll, beginOp, List.cons_append, List.nil_append, Guarded, OpBound, and_self]

theorem begunAll_stage : Stage begunAll [] fun _ => 0 := by
  refine ⟨fun i => ?_, rfl, rfl, rfl, rfl, rfl, rfl, rfl, rfl, rfl, fun i => ?_, fun i => le_rfl⟩ <;> fin_cases i <;> rfl

/-- three operations of ten blocks each, up to the test of the last `log_write` -/
def fullOps : List (Act (Fin 3)) :=
  beginAll ++ (writeAll 0 id (List.range' 100 10) ++ (writeAll 1 id (List.range' 110 10) ++
    (writeAll 2 id (List.range' 120 9) ++ [.logWrite 2 129 id, .next 2])))

/-- **Three full operations panic.** Each logs ten blocks; the last `log_write` finds 29 blocks in the log. -/
theorem full_operations_panic : Guarded step (OpBound MAXOPBLOCKS) (start mkfsLog emptyCache) fullOps ∧
    (after mkfsLog emptyCache fullOps).pc 2 = .panic .tooBig := by
  obtain ⟨hrun₀, hg₀⟩ := run_beginAll
  obtain ⟨⟨hrun₁, hg₁⟩, h₁⟩ := begunAll_stage.write 0 id (List.range' 100 10) (by decide) (by decide)
  obtain ⟨⟨hrun₂, hg₂⟩, h₂⟩ := h₁.write 1 id (List.range' 110 10) (by decide) (by decide)
  obtain ⟨⟨hrun₃, hg₃⟩, h₃⟩ := h₂.write 2 id (List.range' 120 9) (by decide) (by decide)
  constructor
  · rw [fullOps, guarded_append, hrun₀, guarded_append, hrun₁, guarded_append, hrun₂, guarded_append, hrun₃]
    refine ⟨hg₀ _, hg₁ _ (by decide), hg₂ _ (by decide), hg₃ _ (by decide), ?_, trivial, trivial⟩
    simp only [OpBound, h₃.opid 2]
    exact (Finset.card_insert_le ..).trans (Nat.succ_le_succ (h₃.card 2))
  · rw [after, fullOps, run_append, hrun₀, run_append, hrun₁, run_append, hrun₂, run_append, hrun₃]
    have hn := h₃.n
    have hsize := h₃.size
    generalize ((begunAll.recordedAll 0 id _).recordedAll 1 id _).recordedAll 2 id _ = s at h₃ hn hsize ⊢
    have hfull : s.log.size ≤ s.log.n + 1 := by rw [hn, hsize]; decide
    simp [step, next, St.goto, h₃.pc, hfull]

end Xv6.Fs.LogOps
