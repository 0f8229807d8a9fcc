/-
The redo log of `log.c`: `write_log`, `write_head`, `read_head`, `install_trans`, `commit` and `recover_from_log`.

The log lives in blocks `start` to `start + size - 1` of the disk, its header in the first of them: word 0 is `n`, word
`i + 1` is `block[i]`. The code goes through the buffer cache of `Xv6.Fs.Bio`; other processes may read blocks and have
buffers recycled at any `bread`. `n` is an `int`, so a loop up to it makes no round from 2^31 on.
-/
import Xv6.Core.Run
import Xv6.Fs.Bio

namespace Xv6.Fs

open Xv6.Core Bcache

/-! ## Model -/

def MAXOPBLOCKS : ℕ := 10
def LOGSIZE : ℕ := MAXOPBLOCKS * 3

/-- `struct log`; `n` and `block` are its `lh` -/
structure Log where
  start : ℕ
  size : ℕ
  outstanding : ℕ
  n : ℕ
  block : ℕ → ℕ

/-- the rounds of `for (i = 0; i < n; i++)`, with `n` an `int` -/
def rounds (n : ℕ) : List ℕ := List.range (if n < 2 ^ 31 then n else 0)

namespace Log

/-- one round of `write_log` -/
def writeLogRound (g : Log) (s : Bcache) (tail : ℕ) : Bcache :=
  let log := g.start + tail + 1
  let home := g.block tail
  s |> bread log |> bread home |> memmove log home |> bwrite log |> brelse home |> brelse log

def writeLog (g : Log) (s : Bcache) : Bcache := (rounds g.n).foldl g.writeLogRound s

/-- one round of `install_trans` -/
def installRound (g : Log) (s : Bcache) (tail : ℕ) : Bcache :=
  let lbuf := g.start + tail + 1
  let dbuf := g.block tail
  s |> bread lbuf |> bread dbuf |> memmove dbuf lbuf |> bwrite dbuf |> brelse lbuf |> brelse dbuf

def installTrans (g : Log) (s : Bcache) : Bcache := (rounds g.n).foldl g.installRound s

/-- the stores of `write_head` into the header buffer -/
def setHead (g : Log) (hb : Block) : Block :=
  (rounds g.n).foldl (fun hb i => Function.update hb (i + 1) (g.block i)) (Function.update hb 0 g.n)

def writeHead (g : Log) (s : Bcache) : Bcache :=
  s |> bread g.start |> modify g.start g.setHead |> bwrite g.start |> brelse g.start

def readHead (g : Log) (s : Bcache) : Log × Bcache :=
  let s := bread g.start s
  let lh := s.data g.start
  ({ g with n := lh 0, block := (rounds (lh 0)).foldl (fun block i => Function.update block i (lh (i + 1))) g.block },
    brelse g.start s)

def recoverFromLog (g : Log) (s : Bcache) : Log × Bcache :=
  let (g, s) := g.readHead s
  let s := g.installTrans s
  let g := { g with n := 0 }
  (g, g.writeHead s)

def commit (g : Log) (s : Bcache) : Log × Bcache :=
  if 0 < g.n ∧ g.n < 2 ^ 31 then
    let s := s |> g.writeLog |> g.writeHead |> g.installTrans
    let g := { g with n := 0 }
    (g, g.writeHead s)
  else (g, s)

/-- the home blocks of the transaction -/
def homes (g : Log) : List ℕ := (rounds g.n).map g.block

/-- the part of `log_write` under the lock: the loop and the stores to `lh` -/
def record (g : Log) (b : ℕ) : Log :=
  let i := ((rounds g.n).find? fun i => g.block i = b).getD g.n
  { g with block := Function.update g.block i b, n := if i = g.n then g.n + 1 else g.n }

/-- block `b` is in the log area -/
def InArea (g : Log) (b : ℕ) : Prop := g.start ≤ b ∧ b < g.start + g.size

/-! ## The code's writes are those of a redo log -/

/-- the log as a redo log -/
def redo (g : Log) : RedoLog ℕ Block where
  hdr := g.start
  slot i := g.start + i + 1
  size := g.size - 1
  decode hb := (rounds (hb 0)).map fun i => hb (i + 1)
  slot_inj i _ j _ h := by omega
  slot_ne i _ := by omega

theorem area_iff {g : Log} (hsize : 0 < g.size) (b : ℕ) : g.redo.Area b ↔ g.InArea b := by
  constructor
  · rintro (rfl | ⟨i, hi, rfl⟩)
    · exact ⟨le_rfl, by simp [redo]; omega⟩
    · have : i < g.size - 1 := hi
      exact ⟨by simp [redo]; omega, by simp [redo]; omega⟩
  · rintro ⟨h1, h2⟩
    by_cases hb : b = g.start
    · exact Or.inl hb
    · exact Or.inr ⟨b - g.start - 1, show b - g.start - 1 < g.size - 1 by omega,
        show b = g.start + (b - g.start - 1) + 1 by omega⟩

variable {n i : ℕ}

/-- the stores of a loop, each to a place of its own -/
theorem stores_rounds (place : ℕ → ℕ) {val : ℕ → ℕ} (hplace : Function.Injective place) (m : ℕ → ℕ) (hi : i ∈ rounds n) : (rounds n).foldl (fun m i => update m (place i) (val i)) m (place i) = val i := by
  have hnodup : (((rounds n).map fun i => (place i, val i)).map Prod.fst).Nodup := by
    rw [List.map_map]; exact List.nodup_range.map hplace
  have h := applyWrites_of_mem hnodup (List.mem_map.2 ⟨i, hi, rfl⟩) m
  rwa [applyWrites, List.foldl_map] at h

theorem setHead_zero (g : Log) (hb : Block) : g.setHead hb 0 = g.n := by
  have h := applyWrites_of_notMem (W := (rounds g.n).map fun i => (i + 1, g.block i)) (a := 0) (by simp)
    (update hb 0 g.n)
  rwa [applyWrites, List.foldl_map, update_self] at h

/-- the header `write_head` stores names the homes -/
theorem decode_setHead (g : Log) (hb : Block) : g.redo.decode (g.setHead hb) = g.homes := by
  show (rounds (g.setHead hb 0)).map _ = _
  rw [setHead_zero]
  exact List.map_congr_left fun i hi => stores_rounds (· + 1) (fun _ _ => Nat.succ.inj) _ hi

/-- a header with `n = 0` names none -/
theorem decode_zero (g : Log) {hb : Block} (h : hb 0 = 0) : g.redo.decode hb = [] := by
  show (rounds (hb 0)).map _ = []
  rw [h]
  rfl

theorem wrote_writeHead (g : Log) (s : Bcache) : ∃ w, Wrote s (g.writeHead s) [(g.start, g.setHead w)] := by
  obtain ⟨w, hw⟩ := exists_held_bread g.start s
  exact ⟨w, (read_bread g.start s).wrote ((wrote_modify_bwrite hw g.setHead).brelse g.start)⟩

variable {tail : ℕ} {v : Block}

theorem wrote_writeLogRound (g : Log) {s : Bcache} (h : s.Holds (g.block tail) v) :
    Wrote s (g.writeLogRound s tail) [(g.start + tail + 1, v)] := by
  obtain ⟨w, hw⟩ := exists_held_bread (g.start + tail + 1) s
  have hsrc := held_bread ((read_bread (g.start + tail + 1) s).holds _ _ h)
  exact wrote_copy ((read_bread _ s).trans (read_bread _ _)) hsrc ((read_bread _ _).held _ _ hw) _ _

theorem wrote_installRound (g : Log) {s : Bcache} (h : s.Holds (g.start + tail + 1) v) :
    Wrote s (g.installRound s tail) [(g.block tail, v)] := by
  obtain ⟨w, hw⟩ := exists_held_bread (g.block tail) (bread (g.start + tail + 1) s)
  have hsrc := (read_bread (g.block tail) _).held _ _ (held_bread h)
  exact wrote_copy ((read_bread _ s).trans (read_bread _ _)) hsrc hw _ _

/-- `write_log` copies the homes, which are outside the log, to the slots -/
theorem wrote_writeLog (g : Log) {s : Bcache} {v : ℕ → Block} (h : ∀ i ∈ rounds g.n, s.Holds (g.block i) (v i))
    (hout : ∀ i ∈ rounds g.n, ∀ j ∈ rounds g.n, g.block i ≠ g.start + j + 1) :
    Wrote s (g.writeLog s) ((rounds g.n).map fun i => (g.start + i + 1, v i)) := by
  refine wrote_foldl (P := fun s => ∀ i ∈ rounds g.n, s.Holds (g.block i) (v i)) _ (fun i hi s hs => ?_) s h
  have hw := g.wrote_writeLogRound (hs i hi)
  exact ⟨hw, fun j hj => hw.other _ _ (by simpa using hout j hj i hi) (hs j hj)⟩

/-- `install_trans` copies the slots to the homes -/
theorem wrote_installTrans (g : Log) {s : Bcache} {v : ℕ → Block} (h : ∀ i ∈ rounds g.n, s.Holds (g.start + i + 1) (v i))
    (hout : ∀ i ∈ rounds g.n, ∀ j ∈ rounds g.n, g.block i ≠ g.start + j + 1) :
    Wrote s (g.installTrans s) ((rounds g.n).map fun i => (g.block i, v i)) := by
  refine wrote_foldl (P := fun s => ∀ i ∈ rounds g.n, s.Holds (g.start + i + 1) (v i)) _ (fun i hi s hs => ?_) s h
  have hw := g.wrote_installRound (hs i hi)
  exact ⟨hw, fun j hj => hw.other _ _ (by simpa using (hout i hi j hj).symm) (hs j hj)⟩

/-- the transaction: the homes with what the cache holds for them -/
def transaction (g : Log) (s : Bcache) : List (ℕ × Block) := (rounds g.n).map fun i => (g.block i, s.contents (g.block i))

theorem transaction_fst (g : Log) (s : Bcache) : (g.transaction s).map Prod.fst = g.homes := by
  simp [transaction, homes]

/-- a list over the rounds, with its indices -/
theorem zipIdx_rounds {β : Type*} (n : ℕ) (f : ℕ → β) : ((rounds n).map f).zipIdx = (rounds n).map fun i => (f i, i) := by
  rw [rounds]
  generalize (if n < 2 ^ 31 then n else 0) = m
  refine List.ext_getElem? fun i => ?_
  rw [List.getElem?_zipIdx, List.getElem?_map, List.getElem?_map]
  rcases Nat.lt_or_ge i m with hi | hi
  · simp [List.getElem?_range hi]
  · simp [List.getElem?_eq_none (List.length_range.trans_le hi)]

theorem slotWrites_transaction (g : Log) (s : Bcache) :
    g.redo.slotWrites (g.transaction s) = (rounds g.n).map fun i => (g.start + i + 1, s.contents (g.block i)) := by
  rw [RedoLog.slotWrites, transaction, zipIdx_rounds, List.map_map]
  rfl

/-- what `commit` relies on: the log on disk is empty, the homes are different blocks outside it, there is a slot for each,
and clean buffers agree with the disk -/
structure Ready (g : Log) (s : Bcache) : Prop where
  header : s.disk g.start 0 = 0
  nodup : g.homes.Nodup
  outside : ∀ b ∈ g.homes, ¬ g.InArea b
  fits : g.n + 1 ≤ g.size
  int : g.size < 2 ^ 31
  coherent : s.Coherent

theorem mem_rounds (hn : n < 2 ^ 31) : i ∈ rounds n ↔ i < n := by
  rw [rounds, if_pos hn, List.mem_range]

section Commit

variable {g : Log} {s : Bcache}

theorem Ready.lt (h : g.Ready s) : g.n < 2 ^ 31 := (Nat.lt_of_succ_le h.fits).trans h.int

theorem Ready.length (h : g.Ready s) : (g.transaction s).length = g.n := by
  rw [transaction, rounds, if_pos h.lt, List.length_map, List.length_range]

theorem Ready.fits_redo (h : g.Ready s) : g.redo.Fits (g.transaction s) := by
  have hsize : 0 < g.size := (Nat.succ_pos _).trans_le h.fits
  refine ⟨by rw [transaction_fst]; exact h.nodup, fun b hb => ?_, ?_⟩
  · rw [transaction_fst] at hb
    exact mt (area_iff hsize b).1 (h.outside b hb)
  · rw [h.length]; exact Nat.le_sub_one_of_lt h.fits

/-- the homes are not slots -/
theorem Ready.home_ne_slot (h : g.Ready s) {i j : ℕ} (hi : i ∈ rounds g.n) (hj : j ∈ rounds g.n) : g.block i ≠ g.start + j + 1 := by
  intro e
  have hj := (mem_rounds h.lt).1 hj
  have hfits := h.fits
  exact h.outside _ (List.mem_map_of_mem hi) ⟨by omega, by omega⟩

/-- **`commit` writes a transaction of the redo log.** -/
theorem commit_wrote (h : g.Ready s) (hn : 0 < g.n) : ∃ e1 e2, g.redo.decode e1 = g.homes ∧ e2 0 = 0 ∧
      Wrote s (g.commit s).2 (g.redo.commitWrites (g.transaction s) e1 e2) := by
  have hlog := g.wrote_writeLog (fun i _ => h.coherent.holds (g.block i)) fun i hi j hj => h.home_ne_slot hi hj
  obtain ⟨w1, hhead⟩ := g.wrote_writeHead (g.writeLog s)
  have hnodup := RedoLog.slotWrites_nodup h.fits_redo
  rw [slotWrites_transaction] at hnodup
  -- the slots hold the new contents, and writing the header leaves them alone
  have hslots : ∀ i ∈ rounds g.n, (g.writeHead (g.writeLog s)).Holds (g.start + i + 1) (s.contents (g.block i)) := by
    intro i hi
    refine hhead.other _ _ (by simp; omega) ?_
    have hself := hlog.self (g.start + i + 1) (by simpa using hi)
    rwa [hlog.disk, applyWrites_of_mem hnodup (List.mem_map.2 ⟨i, hi, rfl⟩)] at hself
  have hinst := g.wrote_installTrans hslots fun i hi j hj => h.home_ne_slot hi hj
  obtain ⟨w2, hclear⟩ := wrote_writeHead { g with n := 0 } (g.installTrans (g.writeHead (g.writeLog s)))
  refine ⟨_, _, g.decode_setHead w1, setHead_zero { g with n := 0 } w2, ?_⟩
  rw [commit, if_pos ⟨hn, h.lt⟩, RedoLog.commitWrites, slotWrites_transaction]
  exact hlog.append (hhead.append (hinst.append hclear))

end Commit

/-! ## Recovery -/

section Recovery

variable {g : Log} {s : Bcache}

/-- `read_head` gets the homes the header on disk names -/
theorem homes_readHead (h : s.Clean) : (g.readHead s).1.homes = g.redo.decode (s.disk g.start) := by
  have hdata : (bread g.start s).data g.start = s.disk g.start := (held_bread (h g.start)).data_eq
  simp only [readHead, homes, hdata]
  exact List.map_congr_left fun i hi => stores_rounds id (fun _ _ h => h) _ hi

theorem wrote_readHead (g : Log) (s : Bcache) : Wrote s (g.readHead s).2 [] :=
  ((read_bread g.start s).wrote (Wrote.refl _)).brelse g.start

/-- **`recover_from_log` makes the writes of a recovery**, provided the header does not name blocks of the log. -/
theorem recover_wrote (h : s.Clean)
    (hout : ∀ b ∈ g.redo.decode (s.disk g.start), ∀ j < (g.redo.decode (s.disk g.start)).length, b ≠ g.start + j + 1) :
    ∃ e, e 0 = 0 ∧ Wrote s (g.recoverFromLog s).2 (g.redo.recoverWrites s.disk e) := by
  have hread := g.wrote_readHead s
  have hhomes := homes_readHead (g := g) h
  set g' := (g.readHead s).1 with hg'
  have hlen : ∀ i ∈ rounds g'.n, i < (g.redo.decode (s.disk g.start)).length := by
    intro i hi
    rw [← hhomes, homes, List.length_map]
    exact List.mem_range.1 (by simpa [rounds] using hi)
  have hinst := g'.wrote_installTrans (s := (g.readHead s).2) (v := fun i => s.disk (g.start + i + 1))
    (fun i _ => hread.other _ _ (by simp) (h _))
    (fun i hi j hj => hout _ (hhomes ▸ List.mem_map_of_mem hi) j (hlen j hj))
  obtain ⟨w, hclear⟩ := wrote_writeHead { g' with n := 0 } (g'.installTrans (g.readHead s).2)
  refine ⟨setHead { g' with n := 0 } w, setHead_zero _ _, ?_⟩
  have hwrites : ∀ e, g.redo.recoverWrites s.disk e =
      [] ++ ((rounds g'.n).map (fun i => (g'.block i, s.disk (g.start + i + 1))) ++ [(g.start, e)]) := by
    intro e
    rw [RedoLog.recoverWrites, show s.disk g.redo.hdr = s.disk g.start from rfl, ← hhomes, homes, zipIdx_rounds,
      List.map_map]
    rfl
  rw [hwrites]
  exact hread.append (hinst.append hclear)

/-- runs of `recover_from_log`, one after the other, each cut after any number of its writes: from disk `d` to disk `d'`.
Each starts from a cache with nothing newer than the disk, as it is after booting. -/
inductive Recoveries (g : Log) (d : Disk) : Disk → Prop
  | none : Recoveries g d d
  | cut {d' : Disk} (h : Recoveries g d d') {g' : Log} {s : Bcache} (hstart : g'.start = g.start) (hsize : g'.size = g.size)
      (hdisk : s.disk = d') (hclean : s.Clean) (k : ℕ) :
      Recoveries g d (applyWrites ((writesSince s (g'.recoverFromLog s).2).take k) d')

theorem redo_congr {g g' : Log} (hstart : g'.start = g.start) (hsize : g'.size = g.size) : g'.redo = g.redo := by
  cases g; cases g'; cases hstart; cases hsize; rfl

variable {t : List (ℕ × Block)} {d0 : Disk} {c : Prop}

/-- the writes of a recovery from a disk a crash can leave -/
theorem recover_crashed (ht : g.redo.Fits t)
    (h : g.redo.Crashed t d0 c s.disk) {g' : Log} (hstart : g'.start = g.start) (hsize : g'.size = g.size) (hclean : s.Clean) :
    ∃ e, e 0 = 0 ∧ Wrote s (g'.recoverFromLog s).2 (g.redo.recoverWrites s.disk e) := by
  have hredo := redo_congr hstart hsize
  rw [← hredo] at h ht ⊢
  exact recover_wrote hclean fun b hb j hj => h.ne_slot ht hb hj

variable {d d' : Disk}

theorem Recoveries.crashed (ht : g.redo.Fits t) (hrec : Recoveries g d d') (h : g.redo.Crashed t d0 c d) : g.redo.Crashed t d0 c d' := by
  induction hrec with
  | none => exact h
  | cut _ hstart hsize hdisk hclean k ih =>
    subst hdisk
    obtain ⟨e, he, hw⟩ := recover_crashed ht ih hstart hsize hclean
    rw [hw.writesSince]
    exact RedoLog.cut_recover ht (g.decode_zero he) ih k

/-- **A whole recovery** from a disk a crash left, after any number of cut ones. -/
theorem Recoveries.recovered (ht : g.redo.Fits t)
    (hcrash : g.redo.Crashed t d0 c d) (hrec : Recoveries g d d') {g' : Log} (hstart : g'.start = g.start)
    (hsize : g'.size = g.size) (hdisk : s.disk = d') (hclean : s.Clean) : ((¬ c → g.redo.Uncommitted d0 (g'.recoverFromLog s).2.disk) ∧
      (c → g.redo.Installed t d0 (g'.recoverFromLog s).2.disk)) ∧ (g'.recoverFromLog s).2.disk g.start 0 = 0 := by
  subst hdisk
  have hcrash' := hrec.crashed ht hcrash
  obtain ⟨e, he, hw⟩ := recover_crashed ht hcrash' hstart hsize hclean
  have hlast : (g'.recoverFromLog s).2.disk g.start = e := by
    rw [hw.disk, RedoLog.recoverWrites, applyWrites_append]
    exact update_self ..
  refine ⟨?_, by rw [hlast, he]⟩
  rw [hw.disk]
  exact RedoLog.recovered ht (g.decode_zero he) hcrash'

end Recovery

/-! ## Atomicity -/

/-- where a commit stands after the first `k` of its writes -/
theorem Ready.cut {g : Log} {s : Bcache} (h : g.Ready s) (k : ℕ) :
    g.redo.Crashed (g.transaction s) s.disk (g.start ∈ ((writesSince s (g.commit s).2).take k).map Prod.fst)
      (applyWrites ((writesSince s (g.commit s).2).take k) s.disk) := by
  have hempty : g.redo.decode (s.disk g.redo.hdr) = [] := g.decode_zero h.header
  rcases Nat.eq_zero_or_pos g.n with hn | hn
  · have hnone : writesSince s (g.commit s).2 = [] := by
      rw [commit, if_neg (by omega)]; exact (Wrote.refl s).writesSince
    rw [hnone, List.take_nil]
    exact ⟨fun _ => ⟨hempty, fun _ _ => rfl⟩, fun hmem => by simp at hmem⟩
  · obtain ⟨e1, e2, he1, he2, hw⟩ := commit_wrote h hn
    rw [hw.writesSince]
    have hhdr := RedoLog.hdr_mem_take h.fits_redo e1 e2 k
    obtain ⟨hbefore, hafter⟩ := RedoLog.cut_commit h.fits_redo (he1.trans (g.transaction_fst s).symm)
      (g.decode_zero he2) hempty k
    exact ⟨fun hc => hbefore (mt hhdr.2 hc), fun hc => hafter (hhdr.1 hc)⟩

/-- **Atomic commit.** -/
theorem commit_atomic (g : Log) (s : Bcache) (h : g.Ready s) (k : ℕ) (d : Disk)
    (hrec : Recoveries g (applyWrites ((writesSince s (g.commit s).2).take k) s.disk) d)
    (g' : Log) (s' : Bcache) (hstart : g'.start = g.start) (hsize : g'.size = g.size) (hdisk : s'.disk = d)
    (hclean : s'.Clean) :
    let headWritten := g.start ∈ ((writesSince s (g.commit s).2).take k).map Prod.fst
    let final := (g'.recoverFromLog s').2.disk
    (∀ b ∈ g.homes, (¬ headWritten → final b = s.disk b) ∧ (headWritten → final b = s.contents b)) ∧
    (∀ b, ¬ g.InArea b → b ∉ g.homes → final b = s.disk b) ∧
    final g.start 0 = 0 := by
  intro headWritten final
  have ht := h.fits_redo
  have hsz : 0 < g.size := (Nat.succ_pos _).trans_le h.fits
  obtain ⟨⟨hold, hnew⟩, hzero⟩ := hrec.recovered ht (h.cut k) hstart hsize hdisk hclean
  refine ⟨fun b hb => ⟨fun hc => (hold hc).same b (ht.outside b ?_), fun hc => ?_⟩, fun b hb hbh => ?_, hzero⟩
  · rwa [g.transaction_fst]
  · obtain ⟨i, hi, rfl⟩ := List.mem_map.1 hb
    exact (hnew hc).homes _ (List.mem_map.2 ⟨i, hi, rfl⟩)
  · by_cases hc : headWritten
    · exact (hnew hc).same b (mt (area_iff hsz b).1 hb) (by rwa [g.transaction_fst])
    · exact (hold hc).same b (mt (area_iff hsz b).1 hb)

/-- a commit of block 10 cut after the header, and a recovery -/
theorem commit_atomic_one :
    let g : Log := ⟨2, 5, 0, 1, fun _ => 10⟩
    let s : Bcache := ⟨fun _ _ => 0, fun b => if b = 10 then some ⟨fun _ => 7, true, 0⟩ else none, fun _ => [], 0, []⟩
    let W := (writesSince s (g.commit s).2).take 2
    let final := (g.recoverFromLog (boot (applyWrites W s.disk) fun _ => [])).2.disk
    g.start ∈ W.map Prod.fst ∧
    (∀ b ∈ g.homes, (g.start ∉ W.map Prod.fst → final b = s.disk b) ∧ (g.start ∈ W.map Prod.fst → final b = s.contents b)) ∧
    (∀ b, ¬ g.InArea b → b ∉ g.homes → final b = s.disk b) ∧
    final g.start 0 = 0 := by
  refine ⟨by decide, commit_atomic _ _ ⟨rfl, by decide, ?_, by decide, by decide, ?_⟩ 2 _ ?_ _ _ rfl rfl rfl
    (boot_clean _ _)⟩
  · simp [homes, rounds, InArea]
  · intro b x hx hd
    by_cases hb : b = 10
    · simp only [hb, if_true, Option.some.injEq] at hx
      subst hx
      cases hd
    · simp [hb] at hx
  · exact Recoveries.none

/-! ## Recording a block -/

section Record

variable {g : Log}

/-- recording a block adds it to the homes unless it is one -/
theorem record_homes (hn : g.n + 1 < 2 ^ 31) (b : ℕ) : (b ∈ g.homes ∧ (g.record b).n = g.n ∧ (g.record b).homes = g.homes) ∨
      (b ∉ g.homes ∧ (g.record b).n = g.n + 1 ∧ (g.record b).homes = g.homes ++ [b]) := by
  have hn' : g.n < 2 ^ 31 := by omega
  cases hfind : (rounds g.n).find? fun i => g.block i = b with
  | some i =>
    -- the block is logged already: the store changes nothing
    have hb : g.block i = b := by simpa using List.find?_some hfind
    have hmem := List.mem_of_find?_eq_some hfind
    have hi : i < g.n := (mem_rounds hn').1 hmem
    have hrec : g.record b = g := by
      simp only [record, hfind, Option.getD_some, if_neg hi.ne]
      rw [← hb, update_eq_self]
    rw [hrec]
    exact .inl ⟨hb ▸ List.mem_map_of_mem hmem, rfl, rfl⟩
  | none =>
    have hnew : ∀ i ∈ rounds g.n, g.block i ≠ b := by simpa using hfind
    have hrec : g.record b = { g with block := update g.block g.n b, n := g.n + 1 } := by
      simp only [record, hfind, Option.getD_none, if_true]
    rw [hrec]
    refine .inr ⟨fun hb => ?_, rfl, ?_⟩
    · obtain ⟨i, hi, hib⟩ := List.mem_map.1 hb
      exact hnew i hi hib
    · have hrounds : rounds (g.n + 1) = rounds g.n ++ [g.n] := by
        rw [rounds, rounds, if_pos hn, if_pos hn', List.range_succ]
      simp only [homes, hrounds, List.map_append, List.map_singleton, update_self]
      congr 1
      exact List.map_congr_left fun i hi => update_of_ne ((mem_rounds hn').1 hi).ne _ _

theorem record_n_le (g : Log) (b : ℕ) : g.n ≤ (g.record b).n := by
  simp only [record]
  split <;> omega

end Record

end Log

end Xv6.Fs
