/-
Crashes of the log under interleaving (`log.c`): what recovery finds after a crash at any moment of any run.

`hist` tells which operation changed which block in which transaction, so the disk that a set of operations would leave
is `replay` of their part of it. A transaction is closed when its header is on disk.

`log_write` tests for space before it takes the lock. `Roomy` says that the test still holds when the block is recorded;
without it the log can grow beyond its area.
-/
import Xv6.Fs.LogHistory

namespace Xv6.Fs.LogOps

open Xv6.Core Bcache

variable {ι : Type} {s s' : St ι} {i : ι} {l : Pc} {d₀ : Disk}

/-! ## The disk that operations leave -/

/-- the changes of a history, one after the other -/
def replay (es : List Entry) (d : Disk) : Disk :=
  es.foldl (fun d e => Function.update d e.block (e.change (d e.block))) d

/-- a block sees only the changes to it -/
theorem replay_apply (es : List Entry) (d : Disk) (b : ℕ) :
    replay es d b = (es.filter fun e => e.block = b).foldl (fun v e => e.change v) (d b) := by
  induction es generalizing d with
  | nil => rfl
  | cons e es ih =>
    have hnext := ih (update d e.block (e.change (d e.block)))
    by_cases he : e.block = b
    · rw [List.filter_cons_of_pos (by simpa using he), List.foldl_cons]
      rw [he, update_self] at hnext
      rw [← hnext, ← he]
      rfl
    · rw [List.filter_cons_of_neg (by simpa using he)]
      rw [update_of_ne (Ne.symm he)] at hnext
      exact hnext

/-- block contents as operations see them -/
def St.now (s : St ι) (d₀ : Disk) : Disk := replay s.hist d₀

/-- block contents after the closed transactions -/
def St.closed (s : St ι) (d₀ : Disk) : Disk := replay (s.hist.filter fun e => e.txn < s.txn) d₀

variable {b : ℕ}

/-- a block that the open transaction does not change -/
theorem closed_eq_now (hb : ∀ e ∈ s.hist, e.block = b → e.txn < s.txn) : s.closed d₀ b = s.now d₀ b := by
  rw [St.closed, St.now, replay_apply, replay_apply, List.filter_filter]
  congr 1
  refine List.filter_congr fun e he => ?_
  by_cases heb : e.block = b
  · simp [heb, hb e he heb]
  · simp [heb]

/-- the transaction of the homes -/
def St.trans (s : St ι) (d₀ : Disk) : List (ℕ × Block) := s.log.homes.map fun b => (b, s.now d₀ b)

theorem trans_fst (s : St ι) (d₀ : Disk) : (s.trans d₀).map Prod.fst = s.log.homes := by
  rw [St.trans, List.map_map]
  exact List.map_id _

/-! ## What is on disk -/

/-- the header on disk names the transaction -/
def Pc.OnDisk : Pc → Prop
  | .install _ | .clearLog | .clearHead => True
  | _ => False

/-- the first `k` slots have the new contents of the homes -/
def St.Slots (s : St ι) (d₀ : Disk) (k : ℕ) : Prop :=
  ∀ t < k, s.bc.Holds (s.log.start + t + 1) (s.now d₀ (s.log.block t)) ∧
    s.bc.disk (s.log.start + t + 1) = s.now d₀ (s.log.block t)

/-- what is on disk when a process stands at a place of `commit` -/
def Phase (d₀ : Disk) (s : St ι) : Pc → Prop
  | .writeLog k => s.Slots d₀ k
  | .writeHead => s.Slots d₀ s.log.n
  | .install k => s.Slots d₀ s.log.n ∧ s.log.redo.Committed (s.trans d₀) (s.now d₀) s.bc.disk ∧
      ∀ t < k, s.bc.disk (s.log.block t) = s.now d₀ (s.log.block t)
  | .clearLog | .clearHead => ∃ t, s.log.redo.Fits t ∧ s.log.redo.Committed t (s.now d₀) s.bc.disk ∧
      ∀ w ∈ t, w.2 = s.now d₀ w.1 ∧ s.bc.disk w.1 = w.2
  | _ => True

/-- readers see what operations wrote; the disk has the closed transactions, or a header that names the last of them -/
structure Data (d₀ : Disk) (s : St ι) : Prop where
  int : s.log.size < 2 ^ 31
  fits : s.log.n + 1 ≤ s.log.size
  outside : ∀ b ∈ s.log.homes, ¬ s.log.InArea b
  holds : ∀ b, ¬ s.log.InArea b → s.bc.Holds b (s.now d₀ b)
  quiet : (∀ j, ¬ (s.pc j).OnDisk) → s.log.redo.Uncommitted (s.closed d₀) s.bc.disk
  phase : ∀ i, Phase d₀ s (s.pc i)

variable {g : Log} {bc : Bcache}

theorem start_data (hsize : 0 < g.size) (hint : g.size < 2 ^ 31) (hclean : bc.Clean)
    (hhead : bc.disk g.start 0 = 0) : Data bc.disk (start g bc : St ι) where
  int := hint
  fits := hsize
  outside b hb := by simp [start, Log.homes, rounds] at hb
  holds b _ := hclean b
  quiet _ := ⟨g.decode_zero hhead, fun _ _ => rfl⟩
  phase _ := trivial

theorem Data.lt (h : Data d₀ s) : s.log.n < 2 ^ 31 := by
  have := h.int
  have := h.fits
  omega

variable {t : ℕ}

theorem Data.mem_rounds (h : Data d₀ s) : t ∈ rounds s.log.n ↔ t < s.log.n := Log.mem_rounds h.lt

theorem Data.home (h : Data d₀ s) (ht : t < s.log.n) : s.log.block t ∈ s.log.homes :=
  List.mem_map_of_mem (h.mem_rounds.2 ht)

theorem Data.slot (h : Data d₀ s) (ht : t < s.log.n) : s.log.InArea (s.log.start + t + 1) := by
  have := h.fits
  exact ⟨by omega, by omega⟩

theorem Data.ne_start (h : Data d₀ s) (hb : ¬ s.log.InArea b) : b ≠ s.log.start := by
  rintro rfl
  have := h.fits
  exact hb ⟨le_rfl, by omega⟩

theorem Data.area (h : Data d₀ s) (b : ℕ) : s.log.redo.Area b ↔ s.log.InArea b :=
  Log.area_iff (Nat.lt_of_lt_of_le (Nat.succ_pos _) h.fits) b

theorem Data.trans_fits (h : Data d₀ s) (hb : Blocks s) : s.log.redo.Fits (s.trans d₀) := by
  refine ⟨by rw [trans_fst]; exact hb.nodup, fun b hmem => ?_, ?_⟩
  · rw [trans_fst] at hmem
    rw [h.area]
    exact h.outside b hmem
  · have hfits := h.fits
    rw [St.trans, List.length_map, Log.homes, List.length_map, rounds, if_pos h.lt, List.length_range]
    exact Nat.le_sub_one_of_lt hfits

theorem Data.trans_get (h : Data d₀ s) {v : Block} (htb : (s.trans d₀)[t]? = some (b, v)) :
    t < s.log.n ∧ b = s.log.block t ∧ v = s.now d₀ (s.log.block t) := by
  rw [St.trans, Log.homes, rounds, if_pos h.lt, List.map_map, List.getElem?_map] at htb
  by_cases ht : t < s.log.n
  · rw [List.getElem?_range ht] at htb
    obtain ⟨rfl, rfl⟩ := Prod.mk.inj (Option.some.inj htb)
    exact ⟨ht, rfl, rfl⟩
  · rw [List.getElem?_eq_none (by simpa using ht)] at htb
    cases htb

/-- a block that is no home has only changes of closed transactions -/
theorem closed_of_not_home (hh : Hist s) (hb : Blocks s) (hnone : ∀ j, ¬ (s.pc j).Installing) (hbh : b ∉ s.log.homes) : s.closed d₀ b = s.now d₀ b := by
  refine closed_eq_now fun e he heb => ?_
  refine lt_of_le_of_ne (hh.old e he).2 fun htxn => ?_
  exact hbh ((hb.opened hnone b).2 ⟨e, he, htxn, heb⟩)

theorem Pc.Installing.onDisk (h : l.Installing) : l.OnDisk := by
  cases l <;> first | exact h.elim | trivial

theorem phase_of_not_commit (h : ¬ l.InCommit) : Phase d₀ s l := by
  cases l <;> first | trivial | exact (h trivial).elim

/-- the phases see the log, the cache and the history -/
theorem phase_congr {o : ℕ} (hlog : s'.log = { s.log with outstanding := o }) (hbc : s'.bc = s.bc)
    (hhist : s'.hist = s.hist) (h : Phase d₀ s l) : Phase d₀ s' l := by
  cases l <;> simp only [Phase, St.Slots, St.trans, St.now, hlog, hbc, hhist] at h ⊢ <;> exact h

/-- processes move, and the log, the cache and the history stay -/
theorem Data.stay (h : Data d₀ s) {o : ℕ} (hlog : s'.log = { s.log with outstanding := o }) (hbc : s'.bc = s.bc)
    (hhist : s'.hist = s.hist) (htxn : s'.txn = s.txn) (hon : ∀ j, (s.pc j).OnDisk → (s'.pc j).OnDisk)
    (hphase : ∀ j, Phase d₀ s (s'.pc j)) : Data d₀ s' := by
  refine ⟨?_, ?_, ?_, ?_, fun hj => ?_, fun j => phase_congr hlog hbc hhist (hphase j)⟩
  · rw [hlog]
    exact h.int
  · rw [hlog]
    exact h.fits
  · rw [hlog]
    exact h.outside
  · rw [hlog, hbc, St.now, hhist]
    exact h.holds
  · rw [hlog, hbc, St.closed, hhist, htxn]
    exact h.quiet fun j hj' => hj j (hon j hj')

section Steps

variable [DecidableEq ι]

theorem Data.move {a : Pc} (h : Data d₀ s) (hi : s.pc i = a) (hpc : s'.pc = update s.pc i l) {o : ℕ}
    (hlog : s'.log = { s.log with outstanding := o }) (hbc : s'.bc = s.bc) (hhist : s'.hist = s.hist)
    (htxn : s'.txn = s.txn) (hon : a.OnDisk → l.OnDisk) (hl : Phase d₀ s a → Phase d₀ s l) : Data d₀ s' := by
  subst hi
  refine h.stay hlog hbc hhist htxn (fun j hj => ?_) ?_
  · rw [hpc]
    by_cases hji : j = i
    · rw [hji] at hj ⊢
      rw [update_self]
      exact hon hj
    · rwa [update_of_ne hji]
  · rw [hpc]
    exact forall_goto (hl (h.phase i)) h.phase

/-- a step of the committing process: nobody else has a phase -/
theorem Ctl.phase_goto (hc : Ctl s) (hi : (s.pc i).InCommit) (hl : Phase d₀ s' l) (j : ι) : Phase d₀ s' (update s.pc i l j) := by
  by_cases hji : j = i
  · rw [hji, update_self]
    exact hl
  · rw [update_of_ne hji]
    exact phase_of_not_commit fun hj => hji (hc.commit_unique hj hi)

omit [DecidableEq ι] in
/-- a write elsewhere leaves the slots as they are -/
theorem St.Slots.wrote {k a : ℕ} {v : Block} {bc : Bcache} (h : s.Slots d₀ k) (hw : Wrote s.bc bc [(a, v)])
    (ha : ∀ t < k, s.log.start + t + 1 ≠ a) (t : ℕ) (ht : t < k) : bc.Holds (s.log.start + t + 1) (s.now d₀ (s.log.block t)) ∧
      bc.disk (s.log.start + t + 1) = s.now d₀ (s.log.block t) := by
  refine ⟨hw.other _ _ (by simpa using ha t ht) (h t ht).1, ?_⟩
  rw [hw.disk, applyWrites_cons, applyWrites_nil, update_of_ne (ha t ht)]
  exact (h t ht).2

omit [DecidableEq ι] in
/-- who commits and has not written the header leaves the disk without one -/
theorem Ctl.not_onDisk (hc : Ctl s) (hi : (s.pc i).InCommit) (hn : ¬ (s.pc i).OnDisk) (j : ι) : ¬ (s.pc j).OnDisk := by
  intro hj
  have hj' : (s.pc j).InCommit := by
    cases hl : s.pc j <;> rw [hl] at hj <;> first | exact hj.elim | trivial
  exact hn (hc.commit_unique hj' hi ▸ hj)

/-- an operation changes a block, for which there is room -/
theorem Data.record {b : ℕ} {f : Block → Block} (h : Data d₀ s) (hc : Ctl s) (hi : s.pc i = .writeRecord b f)
    (hb : ¬ s.log.InArea b) (hroom : b ∈ s.log.homes ∨ s.log.n + 1 < s.log.size) :
    Data d₀ { s.goto i .writeRelease with
      log := s.log.record b
      bc := s.bc |> bread b |> modify b f |> pin b |> brelse b
      hist := s.hist ++ [⟨s.txn, s.opid i, b, f⟩] } := by
  have hop : (s.pc i).InOp := by rw [hi]; trivial
  have hnone : ∀ j, ¬ (s.pc j).InCommit := fun j => hc.apart hop
  have hint := h.int
  have hfits := h.fits
  have hdisk := pin_modify_disk b f s.bc
  have hnow : ∀ c, replay (s.hist ++ [⟨s.txn, s.opid i, b, f⟩]) d₀ c =
      if c = b then f (s.now d₀ b) else s.now d₀ c := by
    intro c
    rw [replay, List.foldl_append]
    exact update_apply ..
  refine ⟨h.int, ?_, fun c hmem => ?_, fun c hca => ?_, fun _ => ?_, fun j => ?_⟩
  · show (s.log.record b).n + 1 ≤ s.log.size
    rcases Log.record_homes (g := s.log) (by omega) b with ⟨-, hn, -⟩ | ⟨hnew, hn, -⟩
    · omega
    · have := hroom.resolve_left hnew
      omega
  · show ¬ s.log.InArea c
    rcases Log.record_homes (g := s.log) (by omega) b with ⟨-, -, hhomes⟩ | ⟨-, -, hhomes⟩
    · exact h.outside c (hhomes ▸ hmem)
    · have hmem' : c ∈ s.log.homes ++ [b] := hhomes ▸ hmem
      rcases List.mem_append.1 hmem' with hmem' | hmem'
      · exact h.outside c hmem'
      · rw [List.mem_singleton.1 hmem']
        exact hb
  · simp only [St.now, hnow c]
    split
    · rename_i hcb
      rw [hcb]
      exact holds_pin_modify (h.holds b hb) f
    · rename_i hcb
      exact holds_pin_modify_of_ne (h.holds c hca) hcb f
  · have hquiet := h.quiet fun j hj => hnone j (by cases hl : s.pc j <;> rw [hl] at hj <;> first | exact hj.elim | trivial)
    have hclosed : replay ((s.hist ++ [(⟨s.txn, s.opid i, b, f⟩ : Entry)]).filter fun e => e.txn < s.txn) d₀ =
        s.closed d₀ := by
      rw [List.filter_append, List.filter_cons_of_neg (by simp), List.filter_nil, List.append_nil]
      rfl
    rw [← hclosed] at hquiet
    simp only [St.closed, St.goto, hdisk]
    exact hquiet
  · refine phase_of_not_commit fun hj => hnone j ?_
    exact goto_imp (P := Pc.InCommit) hi (by exact id) j hj

/-- a round of `write_log` -/
theorem Data.writeLog {tail : ℕ} (h : Data d₀ s) (hc : Ctl s) (hi : s.pc i = .writeLog tail) (ht : tail < s.log.n) :
    Data d₀ { s.goto i (.writeLog (tail + 1)) with bc := s.log.writeLogRound s.bc tail } := by
  have hin : (s.pc i).InCommit := by rw [hi]; trivial
  have hslots : s.Slots d₀ tail := by
    have hphase := h.phase i
    rw [hi] at hphase
    exact hphase
  have hw := s.log.wrote_writeLogRound (h.holds _ (h.outside _ (h.home ht)))
  have hdisk : (s.log.writeLogRound s.bc tail).disk =
      update s.bc.disk (s.log.start + tail + 1) (s.now d₀ (s.log.block tail)) := hw.disk
  refine ⟨h.int, h.fits, h.outside, fun b hb => ?_, fun hj => ?_, hc.phase_goto hin fun t htt => ?_⟩
  · refine hw.other b _ ?_ (h.holds b hb)
    rw [List.map_singleton, List.mem_singleton]
    rintro rfl
    exact hb (h.slot ht)
  · have hquiet := h.quiet fun j hj' => ?_
    · show s.log.redo.Uncommitted (s.closed d₀) (s.log.writeLogRound s.bc tail).disk
      rw [hdisk]
      have hfits := h.fits
      exact hquiet.slot (i := tail) (show tail < s.log.size - 1 by omega) _
    · exact hc.not_onDisk hin (by rw [hi]; exact id) j hj'
  · rcases Nat.lt_succ_iff_lt_or_eq.1 htt with htt | rfl
    · exact hslots.wrote hw (by omega) t htt
    · have hself := hw.self (s.log.start + t + 1) (by simp)
      have hval : (s.log.writeLogRound s.bc t).disk (s.log.start + t + 1) = s.now d₀ (s.log.block t) := by
        rw [hdisk, update_self]
      rw [hval] at hself
      exact ⟨hself, hval⟩

/-- the header is written: the transaction is closed -/
theorem Data.writeHead (h : Data d₀ s) (hc : Ctl s) (hh : Hist s) (hb : Blocks s) (hi : s.pc i = .writeHead) :
    Data d₀ { s.goto i (.install 0) with bc := s.log.writeHead s.bc, txn := s.txn + 1 } := by
  have hin : (s.pc i).InCommit := by rw [hi]; trivial
  have hnone := hc.not_onDisk hin (by rw [hi]; exact id)
  have hquiet := h.quiet hnone
  have hslots : s.Slots d₀ s.log.n := by
    have hphase := h.phase i
    rw [hi] at hphase
    exact hphase
  obtain ⟨w, hw⟩ := s.log.wrote_writeHead s.bc
  have hdisk : (s.log.writeHead s.bc).disk = update s.bc.disk s.log.start (s.log.setHead w) := hw.disk
  refine ⟨h.int, h.fits, h.outside, fun b hba => ?_, fun hj => ?_, hc.phase_goto hin ⟨?_, ⟨?_, fun t b v htb => ?_, fun b hba hbt => ?_⟩, ?_⟩⟩
  · exact hw.other b _ (by simpa using h.ne_start hba) (h.holds b hba)
  · refine (hj i ?_).elim
    simp only [St.goto, update_self]
    trivial
  · exact hslots.wrote hw (by omega)
  · show s.log.redo.decode ((s.log.writeHead s.bc).disk s.log.start) = (s.trans d₀).map Prod.fst
    rw [hdisk, update_self, trans_fst]
    exact s.log.decode_setHead w
  · obtain ⟨ht, -, rfl⟩ := h.trans_get htb
    exact (hslots.wrote hw (by omega) t ht).2
  · have hba' : ¬ s.log.InArea b := mt (h.area b).2 hba
    have hbh : b ∉ s.log.homes := trans_fst s d₀ ▸ hbt
    show (s.log.writeHead s.bc).disk b = s.now d₀ b
    rw [hdisk, update_of_ne (h.ne_start hba'), hquiet.same b hba]
    exact closed_of_not_home hh hb (fun j hj => hnone j hj.onDisk) hbh
  · exact fun t ht => absurd ht (Nat.not_lt_zero t)

/-- a round of `install_trans` -/
theorem Data.install {tail : ℕ} (h : Data d₀ s) (hc : Ctl s) (hb : Blocks s) (hi : s.pc i = .install tail)
    (ht : tail < s.log.n) :
    Data d₀ { s.goto i (.install (tail + 1)) with bc := s.log.installRound s.bc tail } := by
  have hin : (s.pc i).InCommit := by rw [hi]; trivial
  have hphase := h.phase i
  rw [hi] at hphase
  obtain ⟨hslots, hcommitted, hinst⟩ := hphase
  have hhome := h.outside _ (h.home ht)
  have hw := s.log.wrote_installRound (hslots tail ht).1
  have hdisk : (s.log.installRound s.bc tail).disk =
      update s.bc.disk (s.log.block tail) (s.now d₀ (s.log.block tail)) := hw.disk
  have hne : ∀ t < s.log.n, s.log.start + t + 1 ≠ s.log.block tail := by
    intro t htn he
    exact hhome (he ▸ h.slot htn)
  refine ⟨h.int, h.fits, h.outside, fun b hba => ?_, fun hj => ?_, hc.phase_goto hin ⟨hslots.wrote hw hne, ?_, ?_⟩⟩
  · show (s.log.installRound s.bc tail).Holds b (s.now d₀ b)
    by_cases hbt : b = s.log.block tail
    · have hself := hw.self b (by simp [hbt])
      rw [hdisk, hbt, update_self] at hself
      rw [hbt]
      exact hself
    · exact hw.other b _ (by simpa using hbt) (h.holds b hba)
  · refine (hj i ?_).elim
    simp only [St.goto, update_self]
    trivial
  · show s.log.redo.Committed (s.trans d₀) (s.now d₀) (s.log.installRound s.bc tail).disk
    rw [hdisk]
    exact hcommitted.home (h.trans_fits hb) (List.mem_map_of_mem (h.home ht))
  · intro t htt
    show (s.log.installRound s.bc tail).disk (s.log.block t) = s.now d₀ (s.log.block t)
    rw [hdisk]
    by_cases hbt : s.log.block t = s.log.block tail
    · rw [hbt, update_self]
    · rw [update_of_ne hbt]
      refine hinst t (lt_of_le_of_ne (Nat.le_of_lt_succ htt) ?_)
      rintro rfl
      exact hbt rfl

/-- `lh.n = 0`: the log is empty in memory, the header still names the last transaction -/
theorem Data.clearLog (h : Data d₀ s) (hc : Ctl s) (hi : s.pc i = .clearLog) :
    Data d₀ { s.goto i .clearHead with log := { s.log with n := 0 } } := by
  have hin : (s.pc i).InCommit := by rw [hi]; trivial
  have hfits := h.fits
  have hphase := h.phase i
  rw [hi] at hphase
  refine ⟨h.int, show 0 + 1 ≤ s.log.size by omega, fun b hb => ?_, h.holds, fun hj => ?_, hc.phase_goto hin hphase⟩
  · simp [Log.homes, rounds] at hb
  · refine (hj i ?_).elim
    simp only [St.goto, update_self]
    trivial

/-- the empty header is written -/
theorem Data.clearHead (h : Data d₀ s) (hc : Ctl s) (hh : Hist s) (hb : Blocks s) (hi : s.pc i = .clearHead) :
    Data d₀ { s.goto i .commitAcquire with bc := s.log.writeHead s.bc } := by
  have hin : (s.pc i).InCommit := by rw [hi]; trivial
  have hn : s.log.n = 0 := hc.committed i (by rw [hi]; trivial)
  have hphase := h.phase i
  rw [hi] at hphase
  obtain ⟨t, ht, hcommitted, hinst⟩ := hphase
  obtain ⟨w, hw⟩ := s.log.wrote_writeHead s.bc
  have hdisk : (s.log.writeHead s.bc).disk = update s.bc.disk s.log.start (s.log.setHead w) := hw.disk
  refine ⟨h.int, h.fits, h.outside, fun b hba => ?_, fun hj => ⟨?_, fun b hba => ?_⟩, hc.phase_goto hin trivial⟩
  · exact hw.other b _ (by simpa using h.ne_start hba) (h.holds b hba)
  · show s.log.redo.decode ((s.log.writeHead s.bc).disk s.log.start) = []
    rw [hdisk, update_self]
    exact s.log.decode_zero ((s.log.setHead_zero w).trans hn)
  · have hba' : ¬ s.log.InArea b := mt (h.area b).2 hba
    have hnone : ∀ j, ¬ (s.pc j).Installing := by
      intro j hj
      have hji := hc.commit_unique hj.inCommit hin
      rw [hji, hi] at hj
      exact hj
    have hclosed : s.closed d₀ b = s.now d₀ b :=
      closed_of_not_home hh hb hnone (by simp [Log.homes, rounds, hn])
    show (s.log.writeHead s.bc).disk b = s.closed d₀ b
    rw [hdisk, update_of_ne (h.ne_start hba'), hclosed]
    by_cases hbt : b ∈ t.map Prod.fst
    · obtain ⟨v, hv, rfl⟩ := List.mem_map.1 hbt
      exact (hinst v hv).2.trans (hinst v hv).1
    · exact hcommitted.same b hba hbt

/-- there is room for the block that is recorded: the test of `log_write` still holds; and the block is not one of the
log itself -/
def Roomy (s : St ι) : Act ι → Prop
  | .next i => ∀ b f, s.pc i = .writeRecord b f →
      ¬ s.log.InArea b ∧ (b ∈ s.log.homes ∨ s.log.n + 1 < s.log.size)
  | _ => True

/-- **The disk, one step.** -/
theorem step_data (hc : Ctl s) (hh : Hist s) (hb : Blocks s) (h : Data d₀ s) (o : Act ι) (ho : Roomy s o) : Data d₀ (step s o) := by
  generalize hs' : step s o = s'
  have he : Effect s o s' := hs' ▸ step_effect hc o
  clear hs'
  cases he with
  | stay => exact h
  | @move _ _ i a l hi he hm =>
    have hlog : s'.log = { s.log with outstanding := s.log.outstanding } := hm.log
    cases he with
    | commit hn =>
      exact h.move hi hm.pc hlog hm.bc hm.hist hm.txn id fun _ t ht => absurd ht (Nat.not_lt_zero t)
    | writeLogDone hn =>
      exact h.move hi hm.pc hlog hm.bc hm.hist hm.txn id fun hslots t ht => hslots t (ht.trans_le hn)
    | @installDone tail hn =>
      refine h.move hi hm.pc hlog hm.bc hm.hist hm.txn id fun ⟨_, hcommitted, hinst⟩ => ?_
      refine ⟨_, h.trans_fits hb, hcommitted, fun w hw => ?_⟩
      obtain ⟨b, hmem, rfl⟩ := List.mem_map.1 hw
      obtain ⟨t, ht, rfl⟩ := List.mem_map.1 hmem
      exact ⟨rfl, hinst t ((h.mem_rounds.1 ht).trans_le hn)⟩
    | _ => exact h.move hi hm.pc hlog hm.bc hm.hist hm.txn id fun _ => trivial
  | begins hi => exact h.move hi rfl rfl rfl rfl rfl id id
  | letIn hi hcom hn => exact h.move hi rfl rfl rfl rfl rfl id id
  | call hi => exact h.move hi rfl rfl rfl rfl rfl id id
  | record hi => exact h.record hc hi (ho _ _ hi).1 (ho _ _ hi).2
  | last hi hcom ho => exact h.move hi rfl rfl rfl rfl rfl id id
  | notLast hi hcom ho => exact h.move hi rfl rfl rfl rfl rfl id id
  | @wakeAll _ i hi =>
    have hself : wakeup1 s.pc i = .wakeAll := by rw [wakeup1_self (by rw [hi]; nofun), hi]
    have hwoken : Data d₀ { s with pc := wakeup1 s.pc } := by
      refine h.stay (o := s.log.outstanding) rfl rfl rfl rfl (fun j hj => ?_) fun j => ?_
      · exact (wakeup1_region (R := Pc.OnDisk) id id s.pc j).2 hj
      · show Phase d₀ s (wakeup1 s.pc j)
        unfold wakeup1
        split
        · trivial
        · exact h.phase j
    exact hwoken.move hself rfl rfl rfl rfl rfl id id
  | writeLog hi ht => exact h.writeLog hc hi ht
  | writeHead hi => exact h.writeHead hc hh hb hi
  | install hi ht => exact h.install hc hb hi ht
  | clearLog hi => exact h.clearLog hc hi
  | clearHead hi => exact h.clearHead hc hh hb hi
  | commitDone hi => exact h.move hi rfl rfl rfl rfl rfl id id

end Steps

/-! ## Whole operations -/

/-- what the log promises in every state; `d₀` is the disk at the start -/
structure Whole (d₀ : Disk) (s : St ι) : Prop where
  /-- a commit runs without operations, and nobody is in `log_write` -/
  alone : ∀ i, (s.pc i).InCommit → s.log.outstanding = 0 ∧ ∀ j, (s.pc j).block? = none
  /-- all blocks of an operation go into one transaction -/
  together : ∀ e ∈ s.hist, ∀ e' ∈ s.hist, e.op = e'.op → e.txn = e'.txn
  /-- a commit copies home the blocks of one transaction -/
  written : ∀ i, (s.pc i).Installing → ∀ b, b ∈ s.log.homes ↔ ∃ e ∈ s.hist, e.txn + 1 = s.txn ∧ e.block = b
  nodup : s.log.homes.Nodup
  noPanic : ∀ i, s.pc i ≠ .panic .committing
  /-- after a crash now and any number of cut recoveries, a recovery leaves the changes of some operations and no others -/
  recovered : ∀ d, s.log.Recoveries s.bc.disk d → ∀ (g : Log) (bc : Bcache), g.start = s.log.start →
    g.size = s.log.size → bc.disk = d → bc.Clean → ∃ K : ℕ → Bool, ∀ b, ¬ s.log.InArea b →
      (g.recoverFromLog bc).2.disk b = replay (s.hist.filter fun e => K e.op) d₀ b

/-- the disk after a crash: without a header, or with that of the last closed transaction -/
theorem Data.crashed (hc : Ctl s) (hh : Hist s) (hb : Blocks s) (h : Data d₀ s) :
    ∃ t c, s.log.redo.Fits t ∧ s.log.redo.Crashed t (s.closed d₀) c s.bc.disk ∧ (c → ∀ w ∈ t, w.2 = s.closed d₀ w.1) := by
  by_cases hon : ∃ j, (s.pc j).OnDisk
  · obtain ⟨j, hj⟩ := hon
    -- all transactions are closed
    have hclosed : s.closed d₀ = s.now d₀ := by
      funext b
      by_cases hinst : (s.pc j).Installing
      · exact closed_eq_now fun e he _ => (hb.closed j hinst).1 e he
      · have hdone : (s.pc j).Committed := by
          cases hl : s.pc j <;> rw [hl] at hj hinst <;> first | exact hj.elim | exact (hinst trivial).elim | trivial
        have hnone : ∀ k, ¬ (s.pc k).Installing :=
          fun k hk => hinst (hc.commit_unique hk.inCommit hdone.inCommit ▸ hk)
        exact closed_of_not_home hh hb hnone (by simp [Log.homes, rounds, hc.committed j hdone])
    have hphase := h.phase j
    rw [hclosed]
    cases hl : s.pc j with
    | install k =>
      rw [hl] at hphase
      refine ⟨_, True, h.trans_fits hb, ⟨fun hf => (hf trivial).elim, fun _ => .inl hphase.2.1⟩, fun _ w hw => ?_⟩
      obtain ⟨b, -, rfl⟩ := List.mem_map.1 hw
      rfl
    | clearLog | clearHead =>
      rw [hl] at hphase
      obtain ⟨t, ht, hcommitted, hinst⟩ := hphase
      exact ⟨t, True, ht, ⟨fun hf => (hf trivial).elim, fun _ => .inl hcommitted⟩, fun _ w hw => (hinst w hw).1⟩
    | _ =>
      rw [hl] at hj
      exact hj.elim
  · refine ⟨[], False, ⟨List.nodup_nil, by simp, Nat.zero_le _⟩, ⟨fun _ => ?_, False.elim⟩, False.elim⟩
    exact h.quiet fun j hj => hon ⟨j, hj⟩

/-- **A crash at this moment.** Recovery leaves exactly the closed transactions. -/
theorem Data.recovered (hc : Ctl s) (hh : Hist s) (hb : Blocks s) (h : Data d₀ s) {d : Disk}
    (hrec : s.log.Recoveries s.bc.disk d) {g' : Log} (hstart : g'.start = s.log.start)
    (hsize : g'.size = s.log.size) (hdisk : bc.disk = d) (hclean : bc.Clean) (hba : ¬ s.log.InArea b) :
    (g'.recoverFromLog bc).2.disk b = s.closed d₀ b := by
  obtain ⟨t, c, ht, hcrash, hval⟩ := h.crashed hc hh hb
  obtain ⟨⟨hold, hnew⟩, -⟩ := hrec.recovered ht hcrash hstart hsize hdisk hclean
  have hba' : ¬ s.log.redo.Area b := mt (h.area b).1 hba
  by_cases hcc : c
  · by_cases hbt : b ∈ t.map Prod.fst
    · obtain ⟨w, hw, rfl⟩ := List.mem_map.1 hbt
      exact ((hnew hcc).homes w hw).trans (hval hcc w hw)
    · exact (hnew hcc).same b hba' hbt
  · exact (hold hcc).same b hba'

section Runs

variable [DecidableEq ι]

theorem after_data {g : Log} {bc : Bcache} (hsize : 0 < g.size) (hint : g.size < 2 ^ 31) (hclean : bc.Clean)
    (hhead : bc.disk g.start 0 = 0) {ops : List (Act ι)} (hops : Guarded step Roomy (start g bc) ops) :
    (Ctl (after g bc ops) ∧ Hist (after g bc ops)) ∧ Blocks (after g bc ops) ∧ Data bc.disk (after g bc ops) := by
  have hstep : ∀ (s : St ι) (o : Act ι), Roomy s o → ((Ctl s ∧ Hist s) ∧ Blocks s ∧ Data bc.disk s) →
      (Ctl (step s o) ∧ Hist (step s o)) ∧ Blocks (step s o) ∧ Data bc.disk (step s o) := by
    intro s o ho ⟨⟨hc, hh⟩, hb, h⟩
    have hn : s.log.n + 1 < 2 ^ 31 := lt_of_le_of_lt h.fits h.int
    exact ⟨⟨step_ctl hc o, step_hist hc hh o⟩, step_blocks hc hh hb hn o, step_data hc hh hb h o ho⟩
  exact guarded_inv hstep _ ⟨⟨start_ctl g bc, start_hist g bc⟩, start_blocks g bc,
    start_data hsize hint hclean hhead⟩ ops hops

/-- operations have ended, `k` are left -/
def St.left (s : St ι) (pc : ι → Pc) (k : ℕ) : St ι := { s with pc := pc, log := { s.log with outstanding := k } }

/-- `end_op` of an operation that is not the last -/
def endOp (i : ι) : List (Act ι) := [.endOp i, .next i, .next i, .next i, .next i, .next i, .next i]

/-- `end_op` of the last operation, up to `write_log` -/
def endLast (i : ι) : List (Act ι) := [.endOp i, .next i, .next i, .next i, .next i]

/-- **Durability.** While no operation is in progress and no commit runs, a crash loses nothing: after any number of cut recoveries a
recovery leaves every block as the operations so far have left it. -/
theorem quiet_durable (g : Log) (bc : Bcache) (hsize : 0 < g.size) (hint : g.size < 2 ^ 31) (hclean : bc.Clean)
    (hhead : bc.disk g.start 0 = 0) (ops : List (Act ι)) (hops : Guarded step Roomy (start g bc) ops)
    (hcom : (after g bc ops).committing = false) (hout : (after g bc ops).log.outstanding = 0) (g' : Log) (bc' : Bcache)
    (hstart : g'.start = (after g bc ops).log.start) (hsize' : g'.size = (after g bc ops).log.size)
    (hrec : (after g bc ops).log.Recoveries (after g bc ops).bc.disk bc'.disk) (hclean' : bc'.Clean) (b : ℕ)
    (hb : ¬ (after g bc ops).log.InArea b) : (g'.recoverFromLog bc').2.disk b = (after g bc ops).now bc.disk b := by
  obtain ⟨⟨hc, hh⟩, hbl, h⟩ := after_data hsize hint hclean hhead hops
  generalize after g bc ops = s at *
  rw [h.recovered hc hh hbl hrec hstart hsize' rfl hclean' hb]
  have hnone : ∀ j, ¬ (s.pc j).Installing := fun j hj => by
    rw [hc.isCommitting hj.inCommit] at hcom
    cases hcom
  -- the log is empty, so nothing waits for a commit
  exact closed_of_not_home hh hbl hnone (by simp [Log.homes, rounds, hc.empty hcom hout])

/-- an operation up to the end of its commit -/
def oneOp : List (Act (Fin 1)) := beginOp 0 ++ writeOp 0 100 (fun _ _ => 7) ++ endLast 0 ++ List.replicate 12 (.next 0)

theorem quiet_durable_one : ∃ s, s = after mkfsLog emptyCache oneOp ∧
    (mkfsLog.recoverFromLog (boot s.bc.disk fun _ => [])).2.disk 100 = s.now emptyCache.disk 100 := by
  refine ⟨_, rfl, quiet_durable mkfsLog emptyCache (by decide) (by decide) (boot_clean _ _) rfl oneOp ?_ (by decide +kernel)
    (by decide +kernel) mkfsLog (boot _ fun _ => []) (by decide +kernel) (by decide +kernel) .none (boot_clean _ _) 100 fun h => ?_⟩
  · refine ⟨trivial, nofun, nofun, nofun, trivial, nofun, nofun, fun b f h => ?_, nofun, trivial, ?_⟩
    · cases h
      exact ⟨fun h => absurd h.2 (by decide), .inr (by decide)⟩
    · repeat' constructor
      all_goals nofun
  · exact absurd h.2 (by decide +kernel)

end Runs

/-! ## An overrun -/

def seven : Block := fun _ => 7

/-- the logged blocks read 7, and nothing is on disk -/
structure Sevens (s : St ι) (bs : List ℕ) : Prop where
  disk : s.bc.disk = emptyCache.disk
  holds : ∀ b, ∃ v, s.bc.Holds b v
  logged : ∀ b ∈ bs, s.bc.Holds b seven

variable {bs : List ℕ}

theorem Sevens.recorded (h : Sevens s bs) (i : ι) (b : ℕ) : Sevens (s.recorded i b fun _ => seven) (bs ++ [b]) := by
  obtain ⟨v, hv⟩ := h.holds b
  have hself := holds_pin_modify hv fun _ => seven
  refine ⟨(pin_modify_disk b _ s.bc).trans h.disk, fun c => ?_, fun c hc => ?_⟩
  · by_cases hcb : c = b
    · rw [hcb]
      exact ⟨_, hself⟩
    · obtain ⟨w, hw⟩ := h.holds c
      exact ⟨w, holds_pin_modify_of_ne hw hcb _⟩
  · by_cases hcb : c = b
    · rw [hcb]
      exact hself
    · have hc' : c ∈ bs := by simpa [hcb] using hc
      exact holds_pin_modify_of_ne (h.logged c hc') hcb _

theorem Sevens.recordedAll (h : Sevens s bs) (i : ι) (bs' : List ℕ) : Sevens (s.recordedAll i (fun _ => seven) bs') (bs ++ bs') := by
  induction bs' generalizing s bs with
  | nil =>
    rw [List.append_nil]
    exact h
  | cons b bs' ih =>
    have hnext := ih (h.recorded i b)
    rw [List.append_assoc] at hnext
    exact hnext

end Xv6.Fs.LogOps
