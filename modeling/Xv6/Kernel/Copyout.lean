/-
Copying to user memory (`uva2ka` and `copyout` of `vm.c`). Memory is the bytes of the physical pages (`Mem`), and an address is a page of
the directory with an offset.

`uva2ka` reads the entry that `walkpgdir` points to without looking whether it points to anything. Where the directory has no page
table for the address, that read is through a null pointer: `fault`.

Results, for the directories that any sequence of calls leaves:
- `copyout_safety`: `copyout` returns, with exactly the bytes of the range changed if it returns 0, just when there is a page table for
  each address of the range before which all are for the user (`Walkable`).
- `copyout_hole`: one byte for an address between the end of physical memory and the devices is a fault.
-/
import Xv6.Core.Bytes
import Xv6.Kernel.Halves

namespace Xv6.Kernel

open Xv6.Core

/-- map user virtual address to kernel address, given as the number of its page; `none` is 0 -/
def uva2ka (D : Dir) (uva : ℕ) : Except Panic (Option ℕ) :=
  match D (PDX uva) with
  | none => .error .fault
  | some t =>
    match t.pte (PTX uva) with
    | none => .ok none
    | some e => if e.perm.u then .ok (some e.page) else .ok none

/-- the loop of `copyout`: `buf` is still to be copied. The next address is taken in 32 bits. -/
def copyoutLoop (D : Dir) : ℕ → ℕ → List UInt8 → Mem → Except Panic (Bool × Mem)
  | 0, _, _, mem => .ok (true, mem)
  | fuel + 1, va, buf, mem =>
    if buf.length = 0 then .ok (true, mem)
    else
      match uva2ka D (PGROUNDDOWN va) with
      | .error e => .error e
      | .ok none => .ok (false, mem)
      | .ok (some pa0) =>
        let n := min (PGSIZE - (va - PGROUNDDOWN va)) buf.length
        copyoutLoop D fuel ((PGROUNDDOWN va + PGSIZE) % 2 ^ 32) (buf.drop n) (mem.store pa0 (va - PGROUNDDOWN va) (buf.take n))

/-- copy the bytes `p` to user address `va`; false is -1. A round copies a byte at least, so there are rounds enough. -/
def copyout (D : Dir) (va : ℕ) (p : List UInt8) (mem : Mem) : Except Panic (Bool × Mem) := copyoutLoop D p.length va p mem

variable {D : Dir} {va : ℕ} {src : List UInt8} {mem mem' : Mem}

/-! ## One address -/

theorem uva2ka_none (h : D (PDX va) = none) : uva2ka D va = .error .fault := by
  rw [uva2ka, h]

theorem uva2ka_user {e : Pte} (he : entry D va = some e) (hu : e.perm.u = true) : uva2ka D va = .ok (some e.page) := by
  cases hd : D (PDX va) with
  | none =>
    rw [entry_of_none hd] at he
    cases he
  | some t =>
    rw [entry_of_some hd] at he
    simp only [uva2ka, hd, he, hu, if_true]

theorem uva2ka_refused (hd : (D (PDX va)).isSome = true) (h : ¬ User D va) : uva2ka D va = .ok none := by
  obtain ⟨t, ht⟩ := Option.isSome_iff_exists.1 hd
  cases he : t.pte (PTX va) with
  | none => simp only [uva2ka, ht, he]
  | some e =>
    have hu : ¬ e.perm.u = true := fun hu => h ⟨e, (entry_of_some ht).trans he, hu⟩
    simp only [uva2ka, ht, he, if_neg hu]

theorem PGROUNDDOWN_page (va : ℕ) : PGROUNDDOWN va / PGSIZE = va / PGSIZE := mul_PGSIZE_div _

theorem PDX_PGROUNDDOWN (va : ℕ) : PDX (PGROUNDDOWN va) = PDX va := (same_page.2 (PGROUNDDOWN_page va)).1

theorem sub_PGROUNDDOWN (va : ℕ) : va - PGROUNDDOWN va = va % PGSIZE := by
  have h := Nat.div_add_mod' va PGSIZE
  unfold PGROUNDDOWN
  omega

/-! ## What a copy leaves -/

/-- the bytes of the range, all on pages for the user, are those of `src`, and no other byte of memory has changed -/
structure Copied (D : Dir) (va : ℕ) (src : List UInt8) (mem mem' : Mem) : Prop where
  user : ∀ i < src.length, User D (va + i)
  bytes : ∀ (i : ℕ) (h : i < src.length), ∀ e ∈ entry D (va + i), mem' e.page ((va + i) % PGSIZE) = src.get ⟨i, h⟩
  frame : ∀ p o, (∀ i < src.length, ∀ e ∈ entry D (va + i), e.page = p → (va + i) % PGSIZE ≠ o) → mem' p o = mem p o

theorem Copied.nil (D : Dir) (va : ℕ) (mem : Mem) : Copied D va [] mem mem := ⟨nofun, nofun, fun _ _ _ => rfl⟩

/-- a string that fits in the page -/
theorem Copied.store {e : Pte} (he : entry D va = some e) (hu : e.perm.u = true) (hfit : va % PGSIZE + src.length ≤ PGSIZE)
    (mem : Mem) : Copied D va src mem (mem.store e.page (va % PGSIZE) src) := by
  have hsame : ∀ i < src.length, (va + i) / PGSIZE = va / PGSIZE ∧ (va + i) % PGSIZE = va % PGSIZE + i := by
    intro i hi
    simp only [PGSIZE] at hfit ⊢
    omega
  have hentry : ∀ i < src.length, entry D (va + i) = some e := fun i hi => (entry_congr (hsame i hi).1).trans he
  refine ⟨fun i hi => ⟨e, hentry i hi, hu⟩, fun i hi e' he' => ?_, fun p o hout => Mem.store_outside mem fun hp => ?_⟩
  · rw [hentry i hi] at he'
    cases he'
    rw [(hsame i hi).2]
    exact Mem.store_inside mem e.page hi
  · by_contra hin
    have hi : o - va % PGSIZE < src.length := by omega
    have hne := hout _ hi e (hentry _ hi) hp.symm
    rw [(hsame _ hi).2] at hne
    omega

/-- the end of one page and what follows on other pages -/
theorem Copied.append {src' : List UInt8} {mem'' : Mem} (hD : Proper D) (h : Copied D va src mem mem')
    (h' : Copied D (va + src.length) src' mem' mem'')
    (hpages : ∀ i < src.length, ∀ j < src'.length, (va + i) / PGSIZE ≠ (va + src.length + j) / PGSIZE) :
    Copied D va (src ++ src') mem mem'' := by
  have hsplit : ∀ i < (src ++ src').length, i < src.length ∨ ∃ j < src'.length, i = src.length + j := by
    intro i hi
    rw [List.length_append] at hi
    by_cases hlt : i < src.length
    · exact .inl hlt
    · exact .inr ⟨i - src.length, by omega, by omega⟩
  refine ⟨fun i hi => ?_, fun i hi e he => ?_, fun p o hout => ?_⟩
  · rcases hsplit i hi with hi | ⟨j, hj, rfl⟩
    · exact h.user i hi
    · rw [← Nat.add_assoc]
      exact h'.user j hj
  · rcases hsplit i hi with hlt | ⟨j, hj, rfl⟩
    · -- the second part writes on other pages
      have hkeep : mem'' e.page ((va + i) % PGSIZE) = mem' e.page ((va + i) % PGSIZE) := by
        refine h'.frame _ _ fun j hj e' he' hpage _ => ?_
        have hlow := hD.low _ (h.user i hlt)
        have hlow' := hD.low _ (h'.user j hj)
        exact hpages i hlt j hj (hD.distinct _ _ e e' hlow hlow' he he' hpage.symm)
      rw [hkeep, h.bytes i hlt e he]
      simp only [List.get_eq_getElem]
      rw [List.getElem_append_left hlt]
    · have hadd : va + (src.length + j) = va + src.length + j := by omega
      rw [hadd] at he ⊢
      rw [h'.bytes j hj e he]
      simp only [List.get_eq_getElem]
      rw [List.getElem_append_right (Nat.le_add_right _ _)]
      simp only [Nat.add_sub_cancel_left]
  · rw [h'.frame p o, h.frame p o]
    · exact fun i hi e he => hout i (by rw [List.length_append]; omega) e he
    · intro j hj e he
      rw [Nat.add_assoc] at he ⊢
      exact hout (src.length + j) (by rw [List.length_append]; omega) e he

/-- how a copy of `src` to `va` can end -/
inductive Outcome (D : Dir) (va : ℕ) (src : List UInt8) (mem : Mem) : Except Panic (Bool × Mem) → Prop
  | copied {mem' : Mem} (h : Copied D va src mem mem') : Outcome D va src mem (.ok (true, mem'))
  /-- the first address that is not on a page for the user has a page table -/
  | refused {mem' : Mem} {i : ℕ} (hi : i < src.length) (before : ∀ j < i, User D (va + j)) (here : ¬ User D (va + i))
      (table : (D (PDX (va + i))).isSome = true) : Outcome D va src mem (.ok (false, mem'))
  /-- the first address that is not on a page for the user has no page table -/
  | fault {i : ℕ} (hi : i < src.length) (before : ∀ j < i, User D (va + j)) (here : D (PDX (va + i)) = none) :
      Outcome D va src mem (.error .fault)

variable {r : Except Panic (Bool × Mem)}

/-- the rest of the page is copied, and then the rest of the string -/
theorem Outcome.after {src' : List UInt8} (hD : Proper D) (h : Copied D va src mem mem')
    (hend : (va + src.length) % PGSIZE = 0) (hr : Outcome D (va + src.length) src' mem' r) : Outcome D va (src ++ src') mem r := by
  have hbefore : ∀ i, (∀ j < i, User D (va + src.length + j)) → ∀ j < src.length + i, User D (va + j) := by
    intro i hi j hj
    by_cases hlt : j < src.length
    · exact h.user j hlt
    · have hj' := hi (j - src.length) (by omega)
      rwa [show va + src.length + (j - src.length) = va + j by omega] at hj'
  have hlen : ∀ {i}, i < src'.length → src.length + i < (src ++ src').length := by
    intro i hi
    rw [List.length_append]
    omega
  cases hr with
  | copied h' =>
    refine .copied (h.append hD h' fun i hi j hj => ?_)
    simp only [PGSIZE] at hend ⊢
    omega
  | refused hi before here table =>
    rw [Nat.add_assoc] at here table
    exact .refused (hlen hi) (hbefore _ before) here table
  | fault hi before here =>
    rw [Nat.add_assoc] at here
    exact .fault (hlen hi) (hbefore _ before) here

theorem copyoutLoop_nil (D : Dir) (fuel va : ℕ) (mem : Mem) : copyoutLoop D fuel va [] mem = .ok (true, mem) := by
  cases fuel with
  | zero => rfl
  | succ fuel => rfl

theorem copyoutLoop_outcome (hD : Proper D) {fuel : ℕ} (hlen : src.length ≤ fuel) (hva : va < 2 ^ 32) (mem : Mem) :
    Outcome D va src mem (copyoutLoop D fuel va src mem) := by
  induction fuel generalizing va src mem with
  | zero =>
    rw [List.eq_nil_of_length_eq_zero (Nat.le_zero.1 hlen)]
    exact .copied (.nil D va mem)
  | succ fuel ih =>
    by_cases hzero : src.length = 0
    · rw [List.eq_nil_of_length_eq_zero hzero]
      exact .copied (.nil D va mem)
    rw [copyoutLoop, if_neg hzero]
    by_cases hu : User D va
    · obtain ⟨e, he, hue⟩ := id hu
      have hround := uva2ka_user ((entry_congr (PGROUNDDOWN_page va)).trans he) hue
      have hlow := hD.low va hu
      have hnext : (PGROUNDDOWN va + PGSIZE) % 2 ^ 32 = va - va % PGSIZE + PGSIZE := by
        simp only [PGROUNDDOWN, PGSIZE, KERNBASE] at hlow ⊢
        omega
      rw [hround]
      simp only [sub_PGROUNDDOWN, hnext]
      by_cases hfit : src.length ≤ PGSIZE - va % PGSIZE
      · -- the last page
        rw [min_eq_right hfit, List.take_length, List.drop_length, copyoutLoop_nil]
        refine .copied (.store he hue ?_ mem)
        simp only [PGSIZE] at hfit ⊢
        omega
      · rw [min_eq_left (by omega)]
        have htake : (src.take (PGSIZE - va % PGSIZE)).length = PGSIZE - va % PGSIZE := by
          rw [List.length_take]
          omega
        have hin : va % PGSIZE + (src.take (PGSIZE - va % PGSIZE)).length ≤ PGSIZE := by
          rw [htake]
          simp only [PGSIZE]
          omega
        have hstore := Copied.store he hue hin mem
        have hend : va + (src.take (PGSIZE - va % PGSIZE)).length = va - va % PGSIZE + PGSIZE := by
          rw [htake]
          simp only [PGSIZE]
          omega
        have hshort : (src.drop (PGSIZE - va % PGSIZE)).length ≤ fuel := by
          rw [List.length_drop]
          simp only [PGSIZE] at hfit ⊢
          omega
        have hbound : va - va % PGSIZE + PGSIZE < 2 ^ 32 := by
          simp only [PGSIZE, KERNBASE] at hlow ⊢
          omega
        have hrest := ih hshort hbound (mem.store e.page (va % PGSIZE) (src.take (PGSIZE - va % PGSIZE)))
        rw [← hend] at hrest ⊢
        have hall := Outcome.after hD hstore (by rw [hend]; simp only [PGSIZE]; omega) hrest
        rwa [List.take_append_drop] at hall
    · have hpos : 0 < src.length := by omega
      cases hd : D (PDX va) with
      | none =>
        rw [uva2ka_none (by rwa [PDX_PGROUNDDOWN])]
        exact .fault hpos (by simp) hd
      | some t =>
        have hsome : (D (PDX va)).isSome = true := by rw [hd]; rfl
        rw [uva2ka_refused (by rwa [PDX_PGROUNDDOWN]) fun h => hu (h.congr (PGROUNDDOWN_page va).symm)]
        exact .refused hpos (by simp) hu hsome

/-- **The ends of a copy.** -/
theorem copyout_outcome (hD : Proper D) (hva : va < 2 ^ 32) (src : List UInt8) (mem : Mem) :
    Outcome D va src mem (copyout D va src mem) := copyoutLoop_outcome hD le_rfl hva mem

/-- each address of the range before which all are on pages for the user has a page table -/
def Walkable (D : Dir) (va len : ℕ) : Prop := ∀ i < len, (∀ j < i, User D (va + j)) → (D (PDX (va + i))).isSome = true

/-- a copy does not fault where it can walk -/
theorem Outcome.walkable (h : Outcome D va src mem r) :
    (∃ b mem', r = .ok (b, mem') ∧ (b = true → Copied D va src mem mem')) ↔ Walkable D va src.length := by
  cases h with
  | copied h => exact ⟨fun _ i hi _ => (h.user i hi).table, fun _ => ⟨true, _, rfl, fun _ => h⟩⟩
  | @refused mem' i hi before here table =>
    refine ⟨fun _ i' hi' before' => ?_, fun _ => ⟨false, mem', rfl, nofun⟩⟩
    rcases Nat.lt_trichotomy i' i with hlt | rfl | hlt
    · exact (before i' hlt).table
    · exact table
    · exact absurd (before' i hlt) here
  | fault hi before here =>
    refine ⟨fun ⟨b, mem', h, _⟩ => (nomatch h), fun hw => ?_⟩
    have hsome := hw _ hi before
    rw [here] at hsome
    cases hsome

/-- **When `copyout` is safe.** After any sequence of calls, in any live directory: `copyout` returns 0 with exactly the bytes of the
range changed, all on pages for the user, or returns -1, if and only if there is a page table for every address of the range before
which all are on pages for the user. -/
theorem copyout_safety (l : Link) (frames : Frames) (hnodup : frames.free.Nodup) (ops : List VmOp)
    (hops : Guarded (vmStep l) VmOk (vmInit frames) ops) (k : ℕ) (x : Space)
    (hx : (run (vmStep l) (vmInit frames) ops).spaces[k]? = some x) (va : ℕ) (hva : va < 2 ^ 32) (src : List UInt8) (mem : Mem) :
    (∃ b mem', copyout x.dir va src mem = .ok (b, mem') ∧ (b = true → Copied x.dir va src mem mem')) ↔
      Walkable x.dir va src.length := by
  obtain ⟨-, hproper⟩ := run_proper hnodup hops hx
  exact (copyout_outcome hproper hva src mem).walkable

/-! ## Two addresses of one directory -/

/-- `n` pages, and no request refused while one is left -/
def pagesBelow (n : ℕ) : Frames := ⟨List.range n, 0, fun _ => true⟩

theorem pagesBelow_nodup (n : ℕ) : (pagesBelow n).free.Nodup := List.nodup_range

def growOps : List VmOp := [.setupkvm, .allocuvm 0 4096]

theorem growOps_ok (s : VmSt) : Guarded (vmStep kernelLink) VmOk s growOps := ⟨trivial, trivial, trivial⟩

theorem growOps_space : ∃ x, (run (vmStep kernelLink) (vmInit (pagesBelow 2000)) growOps).spaces[0]? = some x := by
  have hlen : NPDENTRIES + 1 < (pagesBelow 2000).free.length := by
    unfold pagesBelow
    rw [List.length_range]
    decide
  obtain ⟨d, D, f, hs⟩ := setupkvm_enough (f := pagesBelow 2000) kernelLink (fun _ => rfl) hlen
  have hfirst : vmStep kernelLink (vmInit (pagesBelow 2000)) .setupkvm = ⟨f, [⟨d, D, 0⟩], none⟩ := by
    change (vmInit (pagesBelow 2000)).add 0 (setupkvm kernelLink (pagesBelow 2000)) = _
    rw [hs]
    rfl
  unfold growOps
  rw [run_cons, hfirst, run_cons, run_nil]
  change ∃ x, (VmSt.grow _ 0 _ (allocuvm D 0 4096 f)).spaces[0]? = some x
  rcases allocuvm D 0 4096 f with e | ⟨r, D', f'⟩ <;> exact ⟨_, rfl⟩

/-- among the devices there are page tables, and no page for the user -/
theorem copyout_safety_devices : ∃ x, (run (vmStep kernelLink) (vmInit (pagesBelow 2000)) growOps).spaces[0]? = some x ∧
    ∃ b mem', copyout x.dir 0xFFFFFFFC [1, 2, 3, 4, 5] (fun _ _ => 0) = .ok (b, mem') ∧
      (b = true → Copied x.dir 0xFFFFFFFC [1, 2, 3, 4, 5] (fun _ _ => 0) mem') := by
  obtain ⟨x, hx⟩ := growOps_space
  have hhalf := (run_proper (pagesBelow_nodup 2000) (growOps_ok _) hx).1
  refine ⟨x, hx, (copyout_safety kernelLink (pagesBelow 2000) (pagesBelow_nodup 2000) growOps (growOps_ok _) 0 x hx 0xFFFFFFFC (by decide)
    [1, 2, 3, 4, 5] fun _ _ => 0).2 fun i hi before => ?_⟩
  cases i with
  | zero => exact (table_of_entry_isSome (hhalf.devices 0xFFFFFFFC (by decide) (by decide)))
  | succ i => exact absurd (hhalf.low (before 0 (Nat.succ_pos i))) (by decide)

/-- between physical memory and the devices there is no page table to find the entry in -/
theorem copyout_hole : ∃ x, (run (vmStep kernelLink) (vmInit (pagesBelow 2000)) growOps).spaces[0]? = some x ∧
    ¬ ∃ b mem', copyout x.dir 0xC0000000 [1] (fun _ _ => 0) = .ok (b, mem') ∧
      (b = true → Copied x.dir 0xC0000000 [1] (fun _ _ => 0) mem') := by
  obtain ⟨x, hx⟩ := growOps_space
  obtain ⟨hhalf, hproper⟩ := run_proper (pagesBelow_nodup 2000) (growOps_ok _) hx
  refine ⟨x, hx, fun h => ?_⟩
  have hwalk := (copyout_outcome hproper (by decide) [1] fun _ _ => 0).walkable.1 h 0 (by decide) nofun
  rw [hhalf.hole (PDX (0xC0000000 + 0)) (by decide) (by decide)] at hwalk
  cases hwalk

end Xv6.Kernel
