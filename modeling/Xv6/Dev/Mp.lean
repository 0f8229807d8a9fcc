/-
The scan of the MP configuration table (`mpconfig` and `mpinit` of `mp.c`).

The table is its bytes, by their distance from `conf`; those after its end are there too and are read when an entry crosses it. An entry
begins with its type, which gives its size. The `break` of the `default` case leaves the `switch` only, not the loop, and `p` stays where
it is: an entry of another type is met again in the next round.

- `Entries conf e p l`: from `p` on, entries of known types follow one another up to the end `e`, at the offsets `l`.
-/
import Mathlib

namespace Xv6.Mp

/-! ## Model -/

def NCPU : ℕ := 8

/-- `sizeof(struct mpconf)` -/
def CONFSIZE : ℕ := 44

def MPPROC : UInt8 := 0
def MPBUS : UInt8 := 1
def MPIOAPIC : UInt8 := 2
def MPIOINTR : UInt8 := 3
def MPLINTR : UInt8 := 4

abbrev Table := ℕ → UInt8

/-- `conf->length` -/
def length (conf : Table) : ℕ := (conf 4).toNat + 2 ^ 8 * (conf 5).toNat

/-- `sum(addr, len)`, where the result is an `uchar` -/
def sum (conf : Table) (len : ℕ) : UInt8 := ((List.range len).map conf).sum

/-- the tests of `mpconfig`: "PCMP", the version and the checksum -/
def Accepted (conf : Table) : Prop :=
  (conf 0 = 80 ∧ conf 1 = 67 ∧ conf 2 = 77 ∧ conf 3 = 80) ∧ (conf 6 = 1 ∨ conf 6 = 4) ∧ sum conf (length conf) = 0

instance (conf : Table) : Decidable (Accepted conf) := inferInstanceAs (Decidable (_ ∧ _ ∧ _))

/-- the variables of the loop; `cpus` are the `apicid`s, up to `ncpu` -/
structure Scan where
  p : ℕ
  cpus : List UInt8
  ioapicid : UInt8
  ismp : Bool

/-- one round of the loop -/
def round (conf : Table) (s : Scan) : Scan :=
  if s.p < length conf then
    if conf s.p = MPPROC then
      { s with cpus := if s.cpus.length < NCPU then s.cpus ++ [conf (s.p + 1)] else s.cpus, p := s.p + 20 }
    else if conf s.p = MPIOAPIC then { s with ioapicid := conf (s.p + 1), p := s.p + 8 }
    else if conf s.p = MPBUS ∨ conf s.p = MPIOINTR ∨ conf s.p = MPLINTR then { s with p := s.p + 8 }
    else { s with ismp := false }
  else s

/-- the loop after `n` rounds -/
def rounds (conf : Table) (n : ℕ) : Scan := (round conf)^[n] ⟨CONFSIZE, [], 0, true⟩

/-- `p < e` fails at some point -/
def Ends (conf : Table) (n : ℕ) : Prop := length conf ≤ (rounds conf n).p

/-! ## Entries -/

/-- the size of an entry of a known type -/
def size (type : UInt8) : Option ℕ :=
  if type = MPPROC then some 20 else if type = MPBUS ∨ type = MPIOAPIC ∨ type = MPIOINTR ∨ type = MPLINTR then some 8 else none

/-- entries of known types, from `p` up to `e` -/
inductive Entries (conf : Table) (e : ℕ) : ℕ → List ℕ → Prop
  | done {p : ℕ} (h : e ≤ p) : Entries conf e p []
  | entry {p k : ℕ} {l : List ℕ} (h : p < e) (hsize : size (conf p) = some k) (hl : Entries conf e (p + k) l) : Entries conf e p (p :: l)

/-- the `apicid`s of the processor entries among those at the offsets `l` -/
def apicids (conf : Table) (l : List ℕ) : List UInt8 := (l.filter fun p => conf p = MPPROC).map fun p => conf (p + 1)

variable {conf : Table} {s : Scan} {n : ℕ}

/-- a round at an entry of a known type goes on behind it, and records a processor while there is room -/
theorem round_known {k : ℕ} (h : s.p < length conf) (hsize : size (conf s.p) = some k) (hcpus : s.cpus.length ≤ NCPU) :
    (round conf s).p = s.p + k ∧ (round conf s).ismp = s.ismp ∧ (round conf s).cpus = (s.cpus ++ apicids conf [s.p]).take NCPU := by
  have hkeep : s.cpus.take NCPU = s.cpus := List.take_of_length_le hcpus
  unfold size at hsize
  unfold round apicids
  rw [if_pos h]
  by_cases hproc : conf s.p = MPPROC
  · rw [if_pos hproc] at hsize ⊢
    cases hsize
    refine ⟨rfl, rfl, ?_⟩
    simp only [hproc, decide_true, List.filter_cons_of_pos, List.filter_nil, List.map_cons, List.map_nil]
    split
    · rename_i hroom
      rw [List.take_of_length_le]
      simpa using hroom
    · rename_i hfull
      rw [List.take_append_of_le_length (by omega), hkeep]
  · rw [if_neg hproc] at hsize ⊢
    split at hsize
    · rename_i hother
      cases hsize
      rw [List.filter_cons_of_neg (by simpa using hproc), List.filter_nil, List.map_nil, List.append_nil, hkeep]
      split
      · exact ⟨rfl, rfl, rfl⟩
      · rename_i hio
        rw [if_pos (by tauto)]
        exact ⟨rfl, rfl, rfl⟩
    · cases hsize

theorem round_unknown (h : s.p < length conf) (hsize : size (conf s.p) = none) : (round conf s).p = s.p := by
  unfold size at hsize
  unfold round
  split_ifs at hsize with hproc hother
  rw [if_pos h, if_neg hproc, if_neg (by tauto), if_neg (by tauto)]

theorem round_room (hcpus : s.cpus.length ≤ NCPU) : (round conf s).cpus.length ≤ NCPU := by
  unfold round
  split_ifs with h hproc hroom
  · rw [List.length_append]
    exact hroom
  all_goals exact hcpus

/-! ## The loop -/

/-- entries of known types are passed one after another -/
theorem Entries.passed {p : ℕ} {l : List ℕ} (hl : Entries conf (length conf) p l) (hp : s.p = p) (hcpus : s.cpus.length ≤ NCPU) :
    ∃ n, length conf ≤ ((round conf)^[n] s).p ∧ ((round conf)^[n] s).ismp = s.ismp ∧
      ((round conf)^[n] s).cpus = (s.cpus ++ apicids conf l).take NCPU := by
  induction hl generalizing s with
  | done h =>
    refine ⟨0, hp ▸ h, rfl, ?_⟩
    rw [show apicids conf [] = [] from rfl, List.append_nil]
    exact (List.take_of_length_le hcpus).symm
  | entry h hsize hl ih =>
    rename_i l
    subst hp
    obtain ⟨hp, hmp, hcpus'⟩ := round_known h hsize hcpus
    obtain ⟨n, hend, hmp', hn⟩ := ih hp (round_room hcpus)
    have happend : apicids conf (s.p :: l) = apicids conf [s.p] ++ apicids conf l := by
      unfold apicids
      rw [← List.map_append, ← List.filter_append, List.singleton_append]
    refine ⟨n + 1, hend, hmp'.trans hmp, hn.trans ?_⟩
    rw [hcpus', happend, ← List.append_assoc]
    generalize s.cpus ++ apicids conf [s.p] = a
    rw [List.take_append, List.take_append, List.take_take, min_self, List.length_take]
    congr 2
    omega

/-- what is not passed is not left behind in any number of rounds -/
theorem stuck (h : ¬ ∃ l, Entries conf (length conf) s.p l) (hcpus : s.cpus.length ≤ NCPU) (n : ℕ) : ((round conf)^[n] s).p < length conf := by
  have hlt : ∀ {s : Scan}, (¬ ∃ l, Entries conf (length conf) s.p l) → s.p < length conf := fun h =>
    not_le.1 fun hle => h ⟨[], .done hle⟩
  induction n generalizing s with
  | zero => exact hlt h
  | succ n ih =>
    refine ih ?_ (round_room hcpus)
    rintro ⟨l, hl⟩
    cases hsize : size (conf s.p) with
    | none =>
      rw [round_unknown (hlt h) hsize] at hl
      exact h ⟨l, hl⟩
    | some k =>
      rw [(round_known (hlt h) hsize hcpus).1] at hl
      exact h ⟨_, .entry (hlt h) hsize hl⟩

theorem rounds_room (conf : Table) (n : ℕ) : (rounds conf n).cpus.length ≤ NCPU := by
  induction n with
  | zero => exact Nat.zero_le NCPU
  | succ n ih =>
    rw [rounds, Function.iterate_succ_apply']
    exact round_room ih

/-- **The scan of the table.** For every table that passes the tests, there is room for the CPUs, and the loop ends just when entries of
known types follow one another up to the end. Then the CPUs are the first processor entries in the order of the table. -/
theorem mp_scan (conf : Table) (_h : Accepted conf) :
    (∀ n, (rounds conf n).cpus.length ≤ NCPU) ∧
    ((∃ n, Ends conf n) ↔ ∃ l, Entries conf (length conf) CONFSIZE l) ∧
    ∀ l, Entries conf (length conf) CONFSIZE l →
      ∃ n, Ends conf n ∧ (rounds conf n).ismp = true ∧ (rounds conf n).cpus = (apicids conf l).take NCPU := by
  have hpassed : ∀ l, Entries conf (length conf) CONFSIZE l →
      ∃ n, Ends conf n ∧ (rounds conf n).ismp = true ∧ (rounds conf n).cpus = (apicids conf l).take NCPU := fun l hl =>
    hl.passed (s := ⟨CONFSIZE, [], 0, true⟩) rfl (Nat.zero_le NCPU)
  refine ⟨rounds_room conf, ⟨?_, ?_⟩, hpassed⟩
  · rintro ⟨n, hend⟩
    by_contra hnot
    exact absurd hend (not_le.2 (stuck (s := ⟨CONFSIZE, [], 0, true⟩) hnot (Nat.zero_le NCPU) n))
  · rintro ⟨l, hl⟩
    obtain ⟨n, hend, -⟩ := hpassed l hl
    exact ⟨n, hend⟩

/-- a table of `len` bytes with one entry, of this type and with 7 in its second byte -/
def oneEntry (len check type : UInt8) : Table
  | 0 => 80 | 1 => 67 | 2 => 77 | 3 => 80 | 4 => len | 6 => 1 | 7 => check | 44 => type | 45 => 7 | _ => 0

/-- one processor -/
theorem mp_scan_one : Accepted (oneEntry 64 136 MPPROC) ∧ ∃ n, Ends (oneEntry 64 136 MPPROC) n ∧ (rounds (oneEntry 64 136 MPPROC) n).cpus = [7] := by
  have hacc : Accepted (oneEntry 64 136 MPPROC) := by decide +kernel
  have hl : Entries (oneEntry 64 136 MPPROC) (length (oneEntry 64 136 MPPROC)) CONFSIZE [CONFSIZE] :=
    .entry (k := 20) (by decide) rfl (.done (by decide))
  obtain ⟨n, hend, -, hcpus⟩ := (mp_scan (oneEntry 64 136 MPPROC) hacc).2.2 [CONFSIZE] hl
  exact ⟨hacc, n, hend, hcpus⟩

/-- one entry of type 5: the loop does not end -/
theorem mp_scan_stuck : Accepted (oneEntry 46 149 5) ∧ ∀ n, ¬ Ends (oneEntry 46 149 5) n := by
  refine ⟨by decide +kernel, fun n hend => ?_⟩
  refine absurd hend (not_le.2 (stuck (s := ⟨CONFSIZE, [], 0, true⟩) ?_ (Nat.zero_le NCPU) n))
  rintro ⟨l, hl⟩
  cases hl with
  | done h => exact absurd h (by decide)
  | entry _ hsize _ => cases hsize

end Xv6.Mp
