/-
Growing and shrinking a process (`growproc` of `proc.c`, `sys_sbrk`).

`growproc` computes `sz + n` in 32 bits and takes the answer 0 of `allocuvm` and `deallocuvm` for a failure. So two requests to shrink go
wrong: to exactly nothing, where the pages are gone and the call reports a failure, and below nothing, where `sz + n` wraps to a size
that is larger than the old one, nothing is done and the call reports success.

Results, for any process whose pages are those below its size, and any requests for pages refused:
- `sbrk_exact`: `growproc(n)` changes the size by `n` and maps the pages below it, or has no effect (`Exact`), just when `n` is not
  negative, the size stays positive, or it was 0 already.
- `sbrk_freed`: the first process, asked to shrink to nothing and below.
-/
import Xv6.Kernel.Calls

namespace Xv6.Kernel

open Xv6.Core

/-- `sys_sbrk`: the old size, or `none` for -1 -/
def sysSbrk (s : St) (p : Fin NPROC) (n : ℤ) : Except Panic (Option ℕ × St) := do
  let (b, s') ← growproc s p n
  return (if b then some (s.proc p).sz else none, s')

/-- the numbers of the pages below `KERNBASE` that a directory maps -/
def mappedPages (D : Dir) : Set ℕ := {m | m * PGSIZE < KERNBASE ∧ (entry D (m * PGSIZE)).isSome = true}

theorem Mapped.mappedPages {D : Dir} {sz : ℕ} (h : Mapped D sz) : mappedPages D = {m | m * PGSIZE < KERNBASE ∧ m * PGSIZE < sz} := by
  ext m
  constructor
  · rintro ⟨hlt, hm⟩
    exact ⟨hlt, (h m hlt).1 hm⟩
  · rintro ⟨hlt, hm⟩
    exact ⟨hlt, (h m hlt).2 hm⟩

/-- `growproc(n)` returns 0 with the size changed by `n` and the pages below it mapped, or -1 with size and pages as they were -/
def Exact (s : St) (p : Fin NPROC) (n : ℤ) : Prop :=
  ∃ b s' d D D', growproc s p n = .ok (b, s') ∧ s.pgdir p = .ok (d, D) ∧ s'.pgdir p = .ok (d, D') ∧
    if b = true then ((s'.proc p).sz : ℤ) = (s.proc p).sz + n ∧ (s'.proc p).sz < KERNBASE ∧ Mapped D' (s'.proc p).sz
    else (s'.proc p).sz = (s.proc p).sz ∧ mappedPages D' = mappedPages D

/-! ## What is asked of the directory -/

section Resize

variable {D : Dir} {sz : ℕ} {n : ℤ}

theorem resize_grow (hm : Mapped D sz) (hsz : sz < KERNBASE) (hpos : 0 < n) (hn : n < 2 ^ 31) (mem : Names) :
    ∃ r D' mem', resize D sz n mem = .ok (r, D', mem') ∧ (r = 0 ∧ Mapped D' sz ∨ (r : ℤ) = sz + n ∧ r < KERNBASE ∧ Mapped D' r) := by
  have hnew : ((sz + n) % 2 ^ 32).toNat = sz + n.toNat := by
    simp only [KERNBASE] at hsz
    omega
  unfold resize
  simp only [hnew, if_pos hpos]
  rcases allocuvm_mapped hm hsz.le (sz + n.toNat) mem with ⟨D', mem', hr, -, hm', -⟩ | ⟨D', mem', hr, -, hm', hlt⟩
  · exact ⟨0, D', mem', hr, .inl ⟨rfl, hm'⟩⟩
  · rw [max_eq_right (Nat.le_add_right _ _)] at hr hm'
    exact ⟨sz + n.toNat, D', mem', hr, .inr ⟨by omega, hlt, hm'⟩⟩

/-- from a size that is not below nothing the pages are cut to it, and it is the answer -/
theorem resize_shrink (hm : Mapped D sz) (hsz : sz < KERNBASE) (hneg : n < 0) (hle : 0 ≤ sz + n) (mem : Names) :
    ∃ r D' mem', resize D sz n mem = .ok (r, D', mem') ∧ (r : ℤ) = sz + n ∧ Mapped D' r := by
  have hnew : ((sz + n) % 2 ^ 32).toNat = (sz + n).toNat := by
    simp only [KERNBASE] at hsz
    omega
  have hcut := deallocuvm_mapped hm hsz (sz + n).toNat mem
  have hsize : (deallocuvm D sz (sz + n).toNat mem).1 = (sz + n).toNat := by
    unfold deallocuvm
    rw [if_neg (by omega)]
  unfold resize
  simp only [hnew, if_neg (by omega : ¬ 0 < n)]
  refine ⟨(deallocuvm D sz (sz + n).toNat mem).1, _, _, rfl, ?_, hcut⟩
  rw [hsize]
  omega

/-- below nothing the new size wraps, and nothing is done -/
theorem resize_below (hsz : sz < KERNBASE) (hlt : sz + n < 0) (hn : -2 ^ 31 ≤ n) (mem : Names) : resize D sz n mem = .ok (sz, D, mem) := by
  unfold resize
  simp only [if_neg (by omega : ¬ 0 < n)]
  unfold deallocuvm
  rw [if_pos]
  simp only [KERNBASE] at hsz
  omega

end Resize

/-! ## `growproc` -/

variable {s : St} {p : Fin NPROC} {d : ℕ} {D D' : Dir} {n : ℤ} {r : ℕ} {mem : Names}

/-- the state after the directory has been changed -/
def St.resized (s : St) (p : Fin NPROC) (d : ℕ) (D : Dir) (mem : Names) (r : ℕ) : St :=
  { s with dir := Function.update s.dir d (some D), mem := mem }.setProc p
    { s.proc p with sz := if r = 0 then (s.proc p).sz else r }

theorem growproc_eq (hn : n ≠ 0) (hd : s.pgdir p = .ok (d, D)) (hr : resize D (s.proc p).sz n s.mem = .ok (r, D', mem)) :
    growproc s p n = .ok (decide (r ≠ 0), s.resized p d D' mem r) := by
  unfold growproc
  rw [if_neg hn, hd]
  simp only [ok_bind, hr]
  unfold St.resized
  by_cases hz : r = 0
  · simp only [hz, if_true, ne_eq, not_true_eq_false, decide_false]
    unfold St.setProc
    rw [update_eq_self]
    rfl
  · simp only [ne_eq, hz, not_false_eq_true, decide_true]
    rfl

theorem resized_pgdir (hd : s.pgdir p = .ok (d, D)) : (s.resized p d D' mem r).pgdir p = .ok (d, D') := by
  obtain ⟨hp, -⟩ := pgdir_ok hd
  simp only [St.resized, St.pgdir, setProc_proc, setProc_dir, update_self, hp]

theorem resized_sz : ((s.resized p d D' mem r).proc p).sz = if r = 0 then (s.proc p).sz else r := by
  simp only [St.resized, setProc_proc, update_self]

/-- a request that the directory meets in full, or not at all -/
theorem Exact.of_resize (hn : n ≠ 0) (hd : s.pgdir p = .ok (d, D)) (hr : resize D (s.proc p).sz n s.mem = .ok (r, D', mem))
    (hzero : r = 0 → mappedPages D' = mappedPages D)
    (hsome : r ≠ 0 → (r : ℤ) = (s.proc p).sz + n ∧ r < KERNBASE ∧ Mapped D' r) : Exact s p n := by
  refine ⟨_, _, d, D, D', growproc_eq hn hd hr, hd, resized_pgdir hd, ?_⟩
  rw [resized_sz]
  by_cases hz : r = 0
  · rw [if_neg (by simp [hz]), if_pos hz]
    exact ⟨rfl, hzero hz⟩
  · rw [if_pos (by simp [hz]), if_neg hz]
    exact hsome hz

/-- what an exact request says of the answer of the directory -/
theorem Exact.resize (h : Exact s p n) (hn : n ≠ 0) (hd : s.pgdir p = .ok (d, D))
    (hr : Kernel.resize D (s.proc p).sz n s.mem = .ok (r, D', mem)) :
    (r = 0 → mappedPages D' = mappedPages D) ∧ (r ≠ 0 → (r : ℤ) = (s.proc p).sz + n) := by
  obtain ⟨b, s', d1, D1, D2, hg, hd1, hd2, h⟩ := h
  rw [growproc_eq hn hd hr] at hg
  cases hg
  rw [hd] at hd1
  cases hd1
  rw [resized_pgdir hd] at hd2
  cases hd2
  rw [resized_sz] at h
  constructor
  · intro hz
    rw [if_neg (by simp [hz])] at h
    exact h.2
  · intro hz
    rw [if_pos (by simp [hz]), if_neg hz] at h
    exact h.1

/-- **`sbrk` is exact or has no effect,** unless it is asked to shrink a process to nothing or below. -/
theorem sbrk_exact (s : St) (p : Fin NPROC) (d : ℕ) (D : Dir) (hd : s.pgdir p = .ok (d, D)) (hm : Mapped D (s.proc p).sz)
    (hsz : (s.proc p).sz < KERNBASE) (n : ℤ) (hn : -2 ^ 31 ≤ n) (hn' : n < 2 ^ 31) :
    Exact s p n ↔ 0 ≤ n ∨ 0 < (s.proc p).sz + n ∨ (s.proc p).sz = 0 := by
  rcases lt_trichotomy n 0 with hneg | rfl | hpos
  · rcases lt_or_ge ((s.proc p).sz + n) 0 with hbelow | hle
    · -- the size is left as it was, and reported as the new one
      have hr := resize_below (D := D) hsz hbelow hn s.mem
      constructor
      · intro h
        right; right
        by_contra hz
        have := (h.resize hneg.ne hd hr).2 hz
        omega
      · rintro (h | h | hz)
        · omega
        · omega
        · exact .of_resize hneg.ne hd hr (fun _ => rfl) fun h => absurd hz h
    · obtain ⟨r, D', mem, hr, hsize, hm'⟩ := resize_shrink hm hsz hneg hle s.mem
      constructor
      · intro h
        by_cases hz : r = 0
        · -- page 0 was mapped, and is not any more
          have hpages := (h.resize hneg.ne hd hr).1 hz
          rw [hz] at hm'
          rw [hm'.mappedPages, hm.mappedPages] at hpages
          have hmem : 0 ∈ {m | m * PGSIZE < KERNBASE ∧ m * PGSIZE < (s.proc p).sz} := ⟨by decide, by omega⟩
          rw [← hpages] at hmem
          exact absurd hmem.2 (Nat.not_lt_zero _)
        · right; left
          omega
      · rintro (h | h | hz)
        · omega
        · exact .of_resize hneg.ne hd hr (by omega) fun _ => ⟨hsize, by omega, hm'⟩
        · omega
  · refine ⟨fun _ => .inl le_rfl, fun _ => ⟨true, s, d, D, D, rfl, hd, hd, ?_⟩⟩
    rw [if_pos rfl]
    exact ⟨by omega, hsz, hm⟩
  · refine ⟨fun _ => .inl hpos.le, fun _ => ?_⟩
    obtain ⟨r, D', mem, hr, ⟨hz, hm'⟩ | ⟨hsize, hlt, hm'⟩⟩ := resize_grow hm hsz hpos hn' s.mem
    · refine .of_resize hpos.ne' hd hr (fun _ => ?_) fun h => absurd hz h
      rw [hm'.mappedPages, hm.mappedPages]
    · exact .of_resize hpos.ne' hd hr (by omega) fun _ => ⟨hsize, hlt, hm'⟩

/-! ## The first process -/

theorem booted_pgdir (d : ℕ) (D : Dir) (mem : Names) : (booted d D mem).pgdir initproc = .ok (d, D) := by
  simp only [booted, St.pgdir, update_self]

theorem booted_sz (d : ℕ) (D : Dir) (mem : Names) : ((booted d D mem).proc initproc).sz = PGSIZE := by
  simp only [booted, update_self]

theorem sbrk_exact_booted : ∃ s, start xv6 (fun n => decide (n < 100)) = .up s ∧ Exact s initproc (-4095) := by
  obtain ⟨d, n, D, hs, hm, -⟩ := start_eq xv6 fun n => decide (n < 100)
  refine ⟨_, hs, (sbrk_exact _ initproc d D (booted_pgdir _ _ _) ?_ ?_ (-4095) (by decide) (by decide)).2 (.inr (.inl ?_))⟩
  · rwa [booted_sz]
  · rw [booted_sz]
    decide
  · rw [booted_sz]
    decide

/-- the first process has one page; the pages are gone though the call fails, or the call succeeds and nothing has changed -/
theorem sbrk_freed : ∃ s, start xv6 (fun _ => true) = .up s ∧ ¬ Exact s initproc (-4096) ∧ ¬ Exact s initproc (-4097) := by
  obtain ⟨d, n, D, hs, hm, -⟩ := start_eq xv6 fun _ => true
  refine ⟨_, hs, fun h => ?_, fun h => ?_⟩
  · obtain ⟨r, D', mem, hr, hsize, hm'⟩ := resize_shrink (n := -4096) hm (by decide) (by decide) (by decide)
      (booted d D ⟨n, fun _ => true⟩).mem
    have hz : r = 0 := by
      simp only [PGSIZE] at hsize
      omega
    have hpages := (h.resize (by decide) (booted_pgdir _ _ _) (by rwa [booted_sz])).1 hz
    rw [hz] at hm'
    rw [hm'.mappedPages, hm.mappedPages] at hpages
    have hmem : 0 ∈ {m | m * PGSIZE < KERNBASE ∧ m * PGSIZE < PGSIZE} := ⟨by decide, by decide⟩
    rw [← hpages] at hmem
    exact absurd hmem.2 (Nat.not_lt_zero _)
  · have hlow : PGSIZE < KERNBASE := by decide
    have hr := resize_below (D := D) (n := -4097) hlow (by decide) (by decide) (booted d D ⟨n, fun _ => true⟩).mem
    have hsize := (h.resize (by decide) (booted_pgdir _ _ _) (by rwa [booted_sz])).2 (by decide)
    rw [booted_sz] at hsize
    exact absurd hsize (by decide)

end Xv6.Kernel
