/-
Where the physical pages are (`vm.c` over `kalloc.c`). The allocator is a list of free pages that may refuse any request (`Frames`).

A live page directory holds its own page, its page-table pages, and the pages that its entries below `KERNBASE` refer to
(`Space.pages`); what the kernel's part of it maps is not from the allocator. Callers know the size of each directory, which they pass
to `allocuvm` and `copyuvm`; to `deallocuvm` they may pass a larger one.
-/
import Xv6.Core.Lists
import Xv6.Core.Run
import Xv6.Kernel.Mapped

namespace Xv6.Kernel

open Xv6.Core

/-! ## The pages of a directory -/

/-- the page of what is there, if it is there -/
def held {α : Type} (page : α → ℕ) (x : Option α) : Multiset ℕ := x.elim 0 fun t => {page t}

def tablePages (D : Dir) : Multiset ℕ := ∑ i ∈ Finset.range NPDENTRIES, held Table.page (D i)

def userPages (D : Dir) : Multiset ℕ := ∑ n ∈ Finset.range (KERNBASE / PGSIZE), held Pte.page (entry D (n * PGSIZE))

def dirPages (D : Dir) : Multiset ℕ := tablePages D + userPages D

variable {D D' : Dir} {a a' : Frames} {va pa : ℕ} {t : Table}

/-- a sum changes by what one of its terms changes -/
theorem sum_change {f g : ℕ → Multiset ℕ} {n i : ℕ} (hi : i < n) (h : ∀ j, j ≠ i → g j = f j) :
    ∑ j ∈ Finset.range n, g j + f i = ∑ j ∈ Finset.range n, f j + g i := by
  have hmem : i ∈ Finset.range n := Finset.mem_range.2 hi
  have hrest : ∑ j ∈ (Finset.range n).erase i, g j = ∑ j ∈ (Finset.range n).erase i, f j :=
    Finset.sum_congr rfl fun j hj => h j (Finset.ne_of_mem_erase hj)
  rw [← Finset.add_sum_erase _ g hmem, ← Finset.add_sum_erase _ f hmem, hrest]
  abel

/-- an entry below `KERNBASE` changes -/
theorem userPages_change (hva : va < KERNBASE) (h : ∀ vb, vb / PGSIZE ≠ va / PGSIZE → entry D' vb = entry D vb) :
    userPages D' + held Pte.page (entry D va) = userPages D + held Pte.page (entry D' va) := by
  have hlt : va / PGSIZE < KERNBASE / PGSIZE := by
    simp only [PGSIZE, KERNBASE] at hva ⊢
    omega
  have hpage : ∀ D : Dir, entry D va = entry D (va / PGSIZE * PGSIZE) := fun D => entry_congr (mul_PGSIZE_div _).symm
  rw [hpage D, hpage D']
  unfold userPages
  refine sum_change (f := fun n => held Pte.page (entry D (n * PGSIZE))) (g := fun n => held Pte.page (entry D' (n * PGSIZE))) hlt
    fun n hn => ?_
  rw [h _ (by rw [mul_PGSIZE_div]; exact hn)]

theorem userPages_congr (h : ∀ vb, vb < KERNBASE → entry D' vb = entry D vb) : userPages D' = userPages D := by
  refine Finset.sum_congr rfl fun n hn => ?_
  rw [h]
  have hlt := Finset.mem_range.1 hn
  simp only [PGSIZE, KERNBASE] at hlt ⊢
  omega

/-- the page-table pages do not depend on the entries -/
theorem tablePages_setPte (e : Option Pte) : tablePages (setPte D va e) = tablePages D := by
  refine Finset.sum_congr rfl fun i _ => ?_
  unfold setPte
  cases hd : D (PDX va) with
  | none => rfl
  | some t =>
    dsimp only
    by_cases hi : i = PDX va
    · rw [hi, update_self, hd]
      rfl
    · rw [update_of_ne hi]

/-- a new page-table page -/
theorem dirPages_table (hd : D (PDX va) = none) (hva : PDX va < NPDENTRIES) (pgtab : ℕ) :
    dirPages (update D (PDX va) (some ⟨pgtab, fun _ => none⟩)) = dirPages D + {pgtab} := by
  have htable := sum_change (f := fun i => held Table.page (D i))
    (g := fun i => held Table.page (update D (PDX va) (some ⟨pgtab, fun _ => none⟩) i)) hva
    fun j hj => by rw [update_of_ne hj]
  have huser : userPages (update D (PDX va) (some ⟨pgtab, fun _ => none⟩)) = userPages D :=
    userPages_congr fun vb _ => entry_update_empty hd pgtab vb
  have hzero : held Table.page (D (PDX va)) = 0 := by
    rw [hd]
    rfl
  rw [hzero, add_zero, update_self] at htable
  unfold dirPages
  rw [huser]
  unfold tablePages
  have hnew : held Table.page (some ⟨pgtab, fun _ => none⟩) = {pgtab} := rfl
  rw [htable, hnew]
  abel

/-! ## What the functions do -/

/-- a walk that may allocate moves at most one page, from the free ones to the page tables -/
theorem walkpgdir_pool {r : Option (Option Pte)} (hva : PDX va < NPDENTRIES) (h : walkpgdir D va true a = (r, D', a')) :
    a'.pool + dirPages D' = a.pool + dirPages D := by
  unfold walkpgdir at h
  cases hd : D (PDX va) with
  | some t =>
    rw [hd] at h
    cases h
    rfl
  | none =>
    rw [hd] at h
    dsimp only at h
    rw [if_pos rfl] at h
    rcases ha : Pager.alloc a with ⟨_ | pgtab, a1⟩
    · rw [ha] at h
      cases h
      rw [Frames.pool_dry ha]
    · rw [ha] at h
      cases h
      rw [dirPages_table hd hva, Frames.pool_alloc ha]
      abel

/-- what a call of `mapPage` adds to the pages of a directory -/
def mapped (b : Bool) (va pa : ℕ) : Multiset ℕ := if b = true ∧ va < KERNBASE then {pa} else 0

variable {perm : Perm} {b : Bool}

theorem mapPage_pool (hva : PDX va < NPDENTRIES) (h : mapPage D va pa perm a = .ok (b, D', a')) :
    a'.pool + dirPages D' = a.pool + dirPages D + mapped b va pa := by
  have hw := walkpgdir_alloc D va a
  unfold mapPage at h
  rcases hwalk : walkpgdir D va true a with ⟨_ | r, D1, a1⟩
  · have hpool := walkpgdir_pool hva hwalk
    rw [hwalk] at h
    cases h
    rw [hpool, mapped, if_neg (by simp), add_zero]
  · have hpool := walkpgdir_pool hva hwalk
    rw [hwalk] at h hw
    obtain ⟨a2, hbad, -⟩ | ⟨D2, a2, t, hgood, -, ht, he⟩ := hw
    · cases hbad
    · cases hgood
      cases hr : entry D va with
      | some e =>
        rw [hr] at h
        cases h
      | none =>
        rw [hr] at h
        cases h
        unfold dirPages at hpool ⊢
        rw [tablePages_setPte]
        by_cases hlt : va < KERNBASE
        · have hother : ∀ vb, vb / PGSIZE ≠ va / PGSIZE → entry (setPte D1 va (some ⟨pa, perm⟩)) vb = entry D1 vb := fun vb hvb => by
            rw [entry_setPte ht, if_neg hvb]
          have huser := userPages_change hlt hother
          rw [he va, hr, entry_setPte ht, if_pos rfl] at huser
          have hold : held Pte.page none = 0 := rfl
          have hnew : held Pte.page (some ⟨pa, perm⟩) = {pa} := rfl
          rw [hold, hnew, add_zero] at huser
          rw [mapped, if_pos ⟨rfl, hlt⟩, huser, ← hpool]
          abel
        · have huser : userPages (setPte D1 va (some ⟨pa, perm⟩)) = userPages D1 := userPages_congr fun vb hvb => by
            rw [entry_setPte ht, if_neg]
            simp only [PGSIZE, KERNBASE] at hvb hlt ⊢
            omega
          rw [mapped, if_neg (fun hcon => hlt hcon.2), add_zero, huser, hpool]

/-- the page of `va` is under the directory -/
theorem PDX_lt (h : va / PGSIZE < 2 ^ 20) : PDX va < NPDENTRIES := by
  simp only [PDX, NPDENTRIES, PGSIZE] at h ⊢
  omega

theorem PDX_lt_of_user (h : va < KERNBASE) : PDX va < NPDENTRIES := by
  simp only [PDX, NPDENTRIES, KERNBASE] at h ⊢
  omega

/-- what the kernel's part of a directory maps is not counted -/
theorem mapLoop_pool (k : ℕ) (hva : KERNBASE ≤ va) (hk : va / PGSIZE + k < 2 ^ 20)
    (h : mapLoop k D va pa perm a = .ok (b, D', a')) : a'.pool + dirPages D' = a.pool + dirPages D := by
  have hnone : ∀ b, mapped b va pa = 0 := fun b => if_neg fun hcon => absurd hcon.2 hva.not_gt
  induction k generalizing D a va pa with
  | zero =>
    have hpool := mapPage_pool (PDX_lt (by omega)) h
    rw [hnone, add_zero] at hpool
    exact hpool
  | succ k ih =>
    rw [mapLoop] at h
    split at h
    · cases h
    · rename_i D1 a1 hm
      cases h
      have hpool := mapPage_pool (PDX_lt (by omega)) hm
      rw [hnone, add_zero] at hpool
      exact hpool
    · rename_i D1 a1 hm
      have hpool := mapPage_pool (PDX_lt (by omega)) hm
      rw [hnone, add_zero] at hpool
      have hnext : KERNBASE ≤ va + PGSIZE := hva.trans (Nat.le_add_right _ _)
      refine (ih hnext ?_ h fun b => if_neg fun hcon => absurd hcon.2 hnext.not_gt).trans hpool
      rw [add_PGSIZE_div]
      omega

/-- mapping a user page adds it to the pages of the directory -/
theorem mappages_pool (hva : va % PGSIZE = 0) (hlt : va < KERNBASE) (h : mappages D va PGSIZE pa perm a = .ok (b, D', a')) :
    a'.pool + dirPages D' = a.pool + dirPages D + if b = true then {pa} else 0 := by
  rw [mappages_page hva] at h
  have hpool := mapPage_pool (PDX_lt_of_user hlt) h
  simp only [mapped, hlt, and_true] at hpool
  exact hpool

/-- an entry that is cleared gives back its page -/
theorem dirPages_clear (hva : va < KERNBASE) (hd : D (PDX va) = some t) {e : Pte} (he : entry D va = some e) :
    dirPages (setPte D va none) + {e.page} = dirPages D := by
  have hother : ∀ vb, vb / PGSIZE ≠ va / PGSIZE → entry (setPte D va none) vb = entry D vb := fun vb hvb => by
    rw [entry_setPte hd, if_neg hvb]
  have huser := userPages_change hva hother
  have hold : held Pte.page (some e) = {e.page} := rfl
  have hnew : held Pte.page none = 0 := rfl
  rw [he, entry_setPte hd, if_pos rfl, hold, hnew, add_zero] at huser
  unfold dirPages
  rw [tablePages_setPte, add_assoc, huser]

variable {oldsz : ℕ}

theorem deallocLoop_pool (hold : oldsz ≤ KERNBASE) (va : ℕ) (D : Dir) (a : Frames) :
    (deallocLoop oldsz va D a).2.pool + dirPages (deallocLoop oldsz va D a).1 = a.pool + dirPages D := by
  fun_induction deallocLoop oldsz va D a with
  | case1 va D a hlt D' a' hw ih =>
    obtain ⟨rfl, rfl, -⟩ := walkpgdir_inv hw
    exact ih
  | case2 va D a hlt e D' a' hw ih =>
    obtain ⟨rfl, rfl, ⟨-, hr⟩ | ⟨t, hd, hr⟩⟩ := walkpgdir_inv hw
    · cases hr
    · have hclear := dirPages_clear (hlt.trans_le hold) hd (Option.some.inj hr).symm
      rw [ih, Frames.pool_free, ← hclear]
      abel
  | case3 va D a hlt D' a' hw ih =>
    obtain ⟨rfl, rfl, -⟩ := walkpgdir_inv hw
    exact ih
  | case4 va D a hge => rfl

theorem deallocuvm_pool (hold : oldsz ≤ KERNBASE) (newsz : ℕ) (D : Dir) (a : Frames) :
    (deallocuvm D oldsz newsz a).2.2.pool + dirPages (deallocuvm D oldsz newsz a).2.1 = a.pool + dirPages D := by
  unfold deallocuvm
  split
  · rfl
  · exact deallocLoop_pool hold _ D a

theorem allocLoop_pool {newsz r : ℕ} (hnew : newsz ≤ KERNBASE) (hva : va % PGSIZE = 0)
    (h : allocLoop oldsz newsz va D a = .ok (r, D', a')) : a'.pool + dirPages D' = a.pool + dirPages D := by
  fun_induction allocLoop oldsz newsz va D a with
  | case1 va D a hlt a1 ha =>
    have hpair : (deallocuvm D newsz oldsz a1).2 = (D', a') := congrArg Prod.snd (Except.ok.inj h)
    have hback := deallocuvm_pool hnew oldsz D a1
    rw [hpair] at hback
    rw [hback, Frames.pool_dry ha]
  | case2 va D a hlt mem a1 ha e hm => cases h
  | case3 va D a hlt mem a1 ha D1 a2 hm r' D2 a3 hd =>
    cases h
    have hpool := mappages_pool hva (hlt.trans_le hnew) hm
    have hback := deallocuvm_pool hnew oldsz D1 a2
    rw [hd] at hback
    rw [if_neg Bool.false_ne_true, add_zero] at hpool
    calc (Pager.free mem a3).pool + dirPages D' = {mem} + (a3.pool + dirPages D') := by rw [Frames.pool_free, add_assoc]
      _ = {mem} + (a1.pool + dirPages D) := by rw [hback, hpool]
      _ = a.pool + dirPages D := by rw [Frames.pool_alloc ha, add_assoc]
  | case4 va D a hlt mem a1 ha D1 a2 hm ih =>
    have hpool := mappages_pool hva (hlt.trans_le hnew) hm
    rw [if_pos rfl] at hpool
    rw [ih (by simp only [PGSIZE] at hva ⊢; omega) h, hpool, Frames.pool_alloc ha]
    abel
  | case5 va D a hge =>
    cases h
    rfl

/-- `allocuvm`, whatever it returns, moves pages between the free ones and the directory -/
theorem allocuvm_pool {newsz r : ℕ} (h : allocuvm D oldsz newsz a = .ok (r, D', a')) : a'.pool + dirPages D' = a.pool + dirPages D := by
  unfold allocuvm at h
  split at h
  · cases h
    rfl
  split at h
  · cases h
    rfl
  · rename_i hbig _
    exact allocLoop_pool (by omega) (PGROUNDUP_mod oldsz) h

/-- freeing the page-table pages -/
theorem freeTables_pool (l : List ℕ) (D : Dir) (a : Frames) :
    (l.foldl (fun a i => match D i with
      | some t => Pager.free t.page a
      | none => a) a).pool = a.pool + (l.map fun i => held Table.page (D i)).sum := by
  induction l generalizing a with
  | nil => exact (add_zero _).symm
  | cons i l ih =>
    rw [List.foldl_cons, List.map_cons, List.sum_cons, ih]
    cases D i with
    | none =>
      change a.pool + _ = a.pool + (0 + _)
      rw [zero_add]
    | some t =>
      change (Pager.free t.page a).pool + _ = a.pool + ({t.page} + _)
      rw [Frames.pool_free]
      abel

/-- **`freevm`** frees every page of the directory, once. -/
theorem freevm_pool (d : ℕ) (D : Dir) (a : Frames) : (freevm d D a).pool = a.pool + ({d} + dirPages D) := by
  have hpool := deallocuvm_pool le_rfl 0 D a
  have hcut := deallocuvm_cut (show 0 < KERNBASE by decide) D a
  rcases hdealloc : deallocuvm D KERNBASE 0 a with ⟨r, D1, a1⟩
  rw [hdealloc] at hpool hcut
  have huser : userPages D1 = 0 := by
    refine Finset.sum_eq_zero fun n hn => ?_
    have hin : Between (PGROUNDUP 0) KERNBASE (n * PGSIZE) := by
      have hlt := Finset.mem_range.1 hn
      rw [between_roundup (by decide)]
      simp only [PGSIZE, KERNBASE] at hlt ⊢
      omega
    rw [hcut, if_pos hin]
    rfl
  have htables : _ = a1.pool + tablePages D1 := freeTables_pool (List.range NPDENTRIES) D1 a1
  unfold freevm
  rw [hdealloc]
  dsimp only
  rw [Frames.pool_free]
  refine (congrArg ({d} + ·) htables).trans ?_
  unfold dirPages at hpool ⊢
  rw [huser, add_zero] at hpool
  rw [hpool]
  abel

/-- a row of `kmap` is in the kernel's part, below 4 GB -/
structure Kmap.High (k : Kmap) : Prop where
  low : KERNBASE ≤ k.virt
  high : (k.virt + k.size - 1) / PGSIZE < 2 ^ 20
  le : k.virt ≤ k.virt + k.size - 1

theorem kmap_high (l : Link) : ∀ k ∈ kmap l, k.High := by
  obtain ⟨data, h1, h2, h3, -, -⟩ := l
  simp only [KERNLINK, KERNBASE, EXTMEM, PHYSTOP, PGSIZE] at h1 h2 h3
  intro k hk
  simp only [kmap, List.mem_cons, List.not_mem_nil, or_false] at hk
  rcases hk with rfl | rfl | rfl | rfl <;>
  · refine ⟨?_, ?_, ?_⟩ <;>
    · simp only [Kmap.size, KERNLINK, KERNBASE, EXTMEM, PHYSTOP, DEVSPACE, PGSIZE]
      omega

theorem kmapStep_error (ks : List Kmap) (e : Panic) : ks.foldl kmapStep (.error e : Except Panic (Bool × Dir × Frames)) = .error e := by
  induction ks with
  | nil => rfl
  | cons k ks ih => exact ih

theorem kmap_pool {ks : List Kmap} (hk : ∀ k ∈ ks, k.High)
    (h : ks.foldl kmapStep (.ok (true, D, a)) = .ok (b, D', a')) : a'.pool + dirPages D' = a.pool + dirPages D := by
  induction ks generalizing D a with
  | nil =>
    cases h
    rfl
  | cons k ks ih =>
    rw [List.foldl_cons] at h
    obtain ⟨hlow, hhigh, hle⟩ := hk k List.mem_cons_self
    have hrow : ∀ {b D1 a1}, kmapStep (.ok (true, D, a)) k = .ok (b, D1, a1) →
        a1.pool + dirPages D1 = a.pool + dirPages D := by
      intro b D1 a1 hm
      refine mapLoop_pool _ ?_ ?_ hm
      · simp only [PGROUNDDOWN, PGSIZE, KERNBASE] at hlow ⊢
        omega
      · simp only [PGROUNDDOWN, PGSIZE] at hhigh hle ⊢
        omega
    rcases hm : kmapStep (.ok (true, D, a)) k with e | ⟨_ | _, D1, a1⟩
    · rw [hm] at h
      rw [kmapStep_error] at h
      cases h
    · rw [hm, kmapStep_stuck] at h
      cases h
      exact hrow hm
    · rw [hm] at h
      exact (ih (fun k' hk' => hk k' (List.mem_cons_of_mem _ hk')) h).trans (hrow hm)

theorem dirPages_empty : dirPages (fun _ => none) = 0 := by
  have htables : tablePages (fun _ => none) = 0 := Finset.sum_eq_zero fun _ _ => rfl
  have huser : userPages (fun _ => none) = 0 := Finset.sum_eq_zero fun _ _ => rfl
  unfold dirPages
  rw [htables, huser, add_zero]

/-- the pages of a directory that has been made, if it has -/
def made (r : Option (ℕ × Dir)) : Multiset ℕ := r.elim 0 fun x => {x.1} + dirPages x.2

variable {r : Option (ℕ × Dir)}

/-- **`setupkvm`** leaves every page it has taken in the new directory, or gives it back. -/
theorem setupkvm_pool {l : Link} (h : setupkvm l a = .ok (r, a')) : a'.pool + made r = a.pool := by
  unfold setupkvm at h
  rcases ha : Pager.alloc a with ⟨_ | d, a1⟩
  · rw [ha] at h
    cases h
    exact (add_zero _).trans (Frames.pool_dry ha)
  · rw [ha] at h
    dsimp only at h
    split at h
    · cases h
    have halloc := Frames.pool_alloc ha
    split at h
    · cases h
    · rename_i D a2 hfold
      cases h
      have hpool := kmap_pool (kmap_high l) hfold
      rw [dirPages_empty, add_zero] at hpool
      change (freevm d D a2).pool + 0 = a.pool
      rw [add_zero, freevm_pool, halloc, ← hpool]
      abel
    · rename_i D a2 hfold
      cases h
      have hpool := kmap_pool (kmap_high l) hfold
      rw [dirPages_empty, add_zero] at hpool
      change a'.pool + ({d} + dirPages D) = a.pool
      rw [halloc, ← hpool]
      abel

variable {src : Dir} {sz : ℕ}

theorem copyLoop_pool {i : ℕ} (hsz : sz ≤ KERNBASE) (hi : i % PGSIZE = 0)
    (h : copyLoop src sz i D a = .ok (b, D', a')) : a'.pool + dirPages D' = a.pool + dirPages D := by
  fun_induction copyLoop src sz i D a with
  | case1 i D a hlt _ _ hw => cases h
  | case2 i D a hlt _ _ hw => cases h
  | case3 i D a hlt e _ a1 hw a2 ha =>
    obtain ⟨-, rfl, -⟩ := walkpgdir_inv hw
    cases h
    rw [Frames.pool_dry ha]
  | case4 i D a hlt e _ a1 hw mem a2 ha err hm => cases h
  | case5 i D a hlt e _ a1 hw mem a2 ha D1 a3 hm =>
    obtain ⟨-, rfl, -⟩ := walkpgdir_inv hw
    cases h
    have hpool := mappages_pool hi (hlt.trans_le hsz) hm
    rw [if_neg Bool.false_ne_true, add_zero] at hpool
    rw [Frames.pool_free, add_assoc, hpool, Frames.pool_alloc ha, add_assoc]
  | case6 i D a hlt e _ a1 hw mem a2 ha D1 a3 hm ih =>
    obtain ⟨-, rfl, -⟩ := walkpgdir_inv hw
    have hpool := mappages_pool hi (hlt.trans_le hsz) hm
    rw [if_pos rfl] at hpool
    rw [ih (by simp only [PGSIZE] at hi ⊢; omega) h, hpool, Frames.pool_alloc ha]
    abel
  | case7 i D a hge =>
    cases h
    rfl

/-- **`copyuvm`** likewise. -/
theorem copyuvm_pool {l : Link} (hsz : sz ≤ KERNBASE) (h : copyuvm l src sz a = .ok (r, a')) : a'.pool + made r = a.pool := by
  unfold copyuvm at h
  split at h
  · cases h
  · rename_i a1 hs
    cases h
    exact setupkvm_pool hs
  · rename_i d D a1 hs
    have hmade := setupkvm_pool hs
    change a1.pool + ({d} + dirPages D) = a.pool at hmade
    split at h
    · cases h
    · rename_i D1 a2 hc
      cases h
      have hpool := copyLoop_pool hsz rfl hc
      change (freevm d D1 a2).pool + 0 = a.pool
      rw [add_zero, freevm_pool, ← hmade]
      calc a2.pool + ({d} + dirPages D1) = a2.pool + dirPages D1 + {d} := by abel
        _ = a1.pool + ({d} + dirPages D) := by rw [hpool]; abel
    · rename_i D1 a2 hc
      cases h
      have hpool := copyLoop_pool hsz rfl hc
      change a'.pool + ({d} + dirPages D1) = a.pool
      rw [← hmade]
      calc a'.pool + ({d} + dirPages D1) = a'.pool + dirPages D1 + {d} := by abel
        _ = a1.pool + ({d} + dirPages D) := by rw [hpool]; abel

/-! ## Sequences of calls -/

/-- a live page directory, and the size that its owner has noted -/
structure Space where
  pgdir : ℕ
  dir : Dir
  sz : ℕ

def Space.pages (x : Space) : Multiset ℕ := {x.pgdir} + dirPages x.dir

/-- `stop` is the panic that has been reached -/
structure VmSt where
  frames : Frames
  spaces : List Space
  stop : Option Panic

inductive VmOp
  | setupkvm
  /-- the directory at place `k` grows to `newsz` -/
  | allocuvm (k newsz : ℕ)
  | deallocuvm (k oldsz newsz : ℕ)
  | copyuvm (k : ℕ)
  | freevm (k : ℕ)

namespace VmSt

/-- a new directory, if there is one -/
def add (s : VmSt) (sz : ℕ) : Except Panic (Option (ℕ × Dir) × Frames) → VmSt
  | .error e => { s with stop := some e }
  | .ok (none, a) => { s with frames := a }
  | .ok (some (d, D), a) => { s with frames := a, spaces := ⟨d, D, sz⟩ :: s.spaces }

/-- a directory after `allocuvm`: 0 is a failure -/
def grow (s : VmSt) (k : ℕ) (x : Space) : Except Panic (ℕ × Dir × Frames) → VmSt
  | .error e => { s with stop := some e }
  | .ok (r, D, a) =>
    { s with frames := a, spaces := s.spaces.set k { x with dir := D, sz := if r = 0 then x.sz else r } }

end VmSt

def vmCall (l : Link) (s : VmSt) : VmOp → VmSt
  | .setupkvm => s.add 0 (setupkvm l s.frames)
  | .allocuvm k newsz =>
    match s.spaces[k]? with
    | some x => s.grow k x (allocuvm x.dir x.sz newsz s.frames)
    | none => s
  | .deallocuvm k oldsz newsz =>
    match s.spaces[k]? with
    | some x =>
      { s with
        frames := (deallocuvm x.dir oldsz newsz s.frames).2.2
        spaces := s.spaces.set k { x with dir := (deallocuvm x.dir oldsz newsz s.frames).2.1, sz := min x.sz newsz } }
    | none => s
  | .copyuvm k =>
    match s.spaces[k]? with
    | some x => s.add x.sz (copyuvm l x.dir x.sz s.frames)
    | none => s
  | .freevm k =>
    match s.spaces[k]? with
    | some x => { s with frames := freevm x.pgdir x.dir s.frames, spaces := s.spaces.eraseIdx k }
    | none => s

/-- nothing happens after a panic -/
def vmStep (l : Link) (s : VmSt) (op : VmOp) : VmSt := if s.stop = none then vmCall l s op else s

/-- the size passed to `deallocuvm` is that of the directory or larger, and a user size -/
def VmOk (s : VmSt) : VmOp → Prop
  | .deallocuvm k oldsz _ => ∀ x ∈ s.spaces[k]?, x.sz ≤ oldsz ∧ oldsz ≤ KERNBASE
  | _ => True

/-- no call has been made -/
def vmInit (frames : Frames) : VmSt := ⟨frames, [], none⟩

/-- all pages that are somewhere -/
def VmSt.all (s : VmSt) : Multiset ℕ := s.frames.pool + (s.spaces.map Space.pages).sum

/-! ## Every sequence -/

/-- what holds between calls: no page is lost, and the pages of a directory are those below its size -/
structure VmInv (pages : Multiset ℕ) (s : VmSt) : Prop where
  runs : s.stop = none
  all : s.all = pages
  mapped : ∀ x ∈ s.spaces, Mapped x.dir x.sz
  small : ∀ x ∈ s.spaces, x.sz < KERNBASE

variable {l : Link} {s : VmSt} {pages : Multiset ℕ} {x : Space} {k newsz : ℕ}

theorem VmInv.added (h : VmInv pages s) (hpool : a.pool + made r = s.frames.pool) (hsz : sz < KERNBASE)
    (hmapped : ∀ x ∈ r, Mapped x.2 sz) : VmInv pages (s.add sz (.ok (r, a))) := by
  have hall := h.all
  unfold VmSt.all at hall
  rw [← hpool] at hall
  cases r with
  | none =>
    have hnone : made none = 0 := rfl
    rw [hnone, add_zero] at hall
    exact ⟨h.runs, hall, h.mapped, h.small⟩
  | some x =>
    refine ⟨h.runs, ?_, fun y hy => ?_, fun y hy => ?_⟩
    · change a.pool + (_ + _) = pages
      rw [← hall, ← add_assoc]
      rfl
    · rcases List.mem_cons.1 hy with rfl | hy
      · exact hmapped x rfl
      · exact h.mapped y hy
    · rcases List.mem_cons.1 hy with rfl | hy
      · exact hsz
      · exact h.small y hy

/-- a directory changes, and with it the free pages -/
theorem VmInv.changed (h : VmInv pages s) (hx : s.spaces[k]? = some x) {y : Space} (hpage : y.pgdir = x.pgdir)
    (hpool : a.pool + dirPages y.dir = s.frames.pool + dirPages x.dir) (hmapped : Mapped y.dir y.sz) (hsz : y.sz < KERNBASE) :
    VmInv pages { s with frames := a, spaces := s.spaces.set k y } := by
  have hsum := sum_map_set Space.pages hx y
  refine ⟨h.runs, ?_, fun z hz => ?_, fun z hz => ?_⟩
  · refine add_right_cancel (b := x.pages) ?_
    calc a.pool + ((s.spaces.set k y).map Space.pages).sum + x.pages
        = a.pool + (((s.spaces.set k y).map Space.pages).sum + x.pages) := add_assoc _ _ _
      _ = a.pool + dirPages y.dir + ({x.pgdir} + (s.spaces.map Space.pages).sum) := by
        rw [hsum]
        unfold Space.pages
        rw [hpage]
        abel
      _ = s.all + x.pages := by
        rw [hpool]
        unfold VmSt.all Space.pages
        abel
      _ = pages + x.pages := by rw [h.all]
  · rcases List.mem_or_eq_of_mem_set hz with hz | rfl
    · exact h.mapped z hz
    · exact hmapped
  · rcases List.mem_or_eq_of_mem_set hz with hz | rfl
    · exact h.small z hz
    · exact hsz

theorem VmInv.allocuvm (h : VmInv pages s) (hx : s.spaces[k]? = some x) (newsz : ℕ) :
    VmInv pages (s.grow k x (allocuvm x.dir x.sz newsz s.frames)) := by
  have hmem := List.mem_of_getElem? hx
  rcases allocuvm_mapped (h.mapped x hmem) (h.small x hmem).le newsz s.frames with ⟨D, a, hr, -, hm, -⟩ | ⟨D, a, hr, -, hm, hnew⟩
  · rw [hr]
    exact h.changed hx rfl (allocuvm_pool hr) hm (h.small x hmem)
  · rw [hr]
    refine h.changed hx rfl (allocuvm_pool hr) ?_ ?_
    · dsimp only
      split
      · rename_i hzero
        have hsz : x.sz = max x.sz newsz := by omega
        rw [← hsz] at hm
        exact hm
      · exact hm
    · have hsmall := h.small x hmem
      dsimp only
      split
      · exact hsmall
      · exact max_lt hsmall hnew

/-- shrinking from a size that is large enough -/
theorem deallocuvm_min (h : Mapped D sz) (hle : sz ≤ oldsz) (hold : oldsz ≤ KERNBASE) (newsz : ℕ) (a : Frames) :
    Mapped (deallocuvm D oldsz newsz a).2.1 (min sz newsz) := by
  by_cases hlt : newsz < oldsz
  · intro n hn
    have hb := between_roundup (by omega : newsz ≤ KERNBASE) oldsz n
    rw [deallocuvm_cut hlt D a]
    split
    · rename_i hin
      have hin := hb.1 hin
      simp only [Option.isSome_none, Bool.false_eq_true, false_iff]
      omega
    · rename_i hin
      rw [hb] at hin
      rw [h n hn]
      omega
  · unfold deallocuvm
    rw [if_pos (by omega), min_eq_left (by omega)]
    exact h

theorem VmInv.freevm (h : VmInv pages s) (hx : s.spaces[k]? = some x) :
    VmInv pages { s with frames := freevm x.pgdir x.dir s.frames, spaces := s.spaces.eraseIdx k } := by
  have hsum := sum_map_eraseIdx Space.pages hx
  refine ⟨h.runs, ?_, fun y hy => h.mapped y (List.mem_of_mem_eraseIdx hy), fun y hy => h.small y (List.mem_of_mem_eraseIdx hy)⟩
  have hall := h.all
  unfold VmSt.all at hall ⊢
  dsimp only
  rw [freevm_pool, ← hall, ← hsum]
  unfold Space.pages
  abel

theorem vmStep_inv (h : VmInv pages s) {op : VmOp} (hok : VmOk s op) : VmInv pages (vmStep l s op) := by
  unfold vmStep
  rw [if_pos h.runs]
  cases op with
  | setupkvm =>
    unfold vmCall
    dsimp only
    rcases setupkvm_mapped l s.frames with ⟨a, hr, -⟩ | ⟨d, D, a1, a, hr, -, -, hm⟩
    · rw [hr]
      exact h.added (setupkvm_pool hr) (by decide) nofun
    · rw [hr]
      refine h.added (setupkvm_pool hr) (by decide) fun x hx => ?_
      cases hx
      exact hm
  | allocuvm k newsz =>
    unfold vmCall
    dsimp only
    split
    · rename_i x hx
      exact h.allocuvm hx newsz
    · exact h
  | deallocuvm k oldsz newsz =>
    unfold vmCall
    dsimp only
    split
    · rename_i x hx
      have hmem := List.mem_of_getElem? hx
      obtain ⟨hle, hold⟩ := hok x hx
      refine h.changed hx rfl (deallocuvm_pool hold newsz x.dir s.frames) (deallocuvm_min (h.mapped x hmem) hle hold newsz _) ?_
      exact (min_le_left _ _).trans_lt (h.small x hmem)
    · exact h
  | copyuvm k =>
    unfold vmCall
    dsimp only
    split
    · rename_i x hx
      have hmem := List.mem_of_getElem? hx
      have hsz := h.small x hmem
      rcases copyuvm_mapped (h.mapped x hmem) hsz.le l s.frames with ⟨a, hr, -⟩ | ⟨d, D, a1, a, hr, -, -, hm⟩
      · rw [hr]
        exact h.added (copyuvm_pool hsz.le hr) hsz nofun
      · rw [hr]
        refine h.added (copyuvm_pool hsz.le hr) hsz fun x hx => ?_
        cases hx
        exact hm
    · exact h
  | freevm k =>
    unfold vmCall
    dsimp only
    split
    · rename_i x hx
      exact h.freevm hx
    · exact h

theorem vmInit_inv (frames : Frames) : VmInv frames.pool (vmInit frames) :=
  ⟨rfl, add_zero _, nofun, nofun⟩

end Xv6.Kernel
