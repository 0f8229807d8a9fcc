/-
The two halves of a directory (`vm.c`): the kernel's part, which `setupkvm` maps once, and the user's part below `KERNBASE`.
-/
import Xv6.Kernel.Pages

namespace Xv6.Kernel

open Xv6.Core

variable {A : Type} [Pager A] {D D' : Dir} {a a' : A}

/-! ## The page tables from `KERNBASE` on -/

/-- the page tables from `KERNBASE` on are the same -/
def SameUpper (D D' : Dir) : Prop := ∀ i, PDX KERNBASE ≤ i → D' i = D i

theorem SameUpper.refl (D : Dir) : SameUpper D D := fun _ _ => rfl

theorem SameUpper.trans {D'' : Dir} (h : SameUpper D D') (h' : SameUpper D' D'') : SameUpper D D'' :=
  fun i hi => (h' i hi).trans (h i hi)

variable {va : ℕ}

theorem PDX_lt_of_lt (h : va < KERNBASE) : PDX va < PDX KERNBASE := by
  simp only [PDX, KERNBASE] at h ⊢
  omega

theorem PDX_le_of_le (h : KERNBASE ≤ va) : PDX KERNBASE ≤ PDX va := Nat.div_le_div_right h

theorem SameUpper.entry (h : SameUpper D D') (hva : KERNBASE ≤ va) : entry D' va = entry D va := by
  unfold Kernel.entry
  rw [h _ (PDX_le_of_le hva)]

variable {i : ℕ}

/-- a change of the page table of one address leaves the others -/
theorem update_table (h : i ≠ PDX va) (t : Option Table) : Function.update D (PDX va) t i = D i :=
  update_of_ne h _ _

theorem setPte_table (h : i ≠ PDX va) (e : Option Pte) : setPte D va e i = D i := by
  unfold setPte
  cases D (PDX va) with
  | none => rfl
  | some t => exact update_table h _

theorem walkpgdir_table {alloc : Bool} {r : Option (Option Pte)} (h : walkpgdir D va alloc a = (r, D', a'))
    (hi : i ≠ PDX va) : D' i = D i := by
  unfold walkpgdir at h
  split at h
  · cases h
    rfl
  split at h
  · split at h
    · cases h
      rfl
    · cases h
      exact update_table hi _
  · cases h
    rfl

variable {pa : ℕ} {perm : Perm} {b : Bool}

theorem mapPage_table (h : mapPage D va pa perm a = .ok (b, D', a')) (hi : i ≠ PDX va) : D' i = D i := by
  unfold mapPage at h
  split at h
  · rename_i hw
    cases h
    exact walkpgdir_table hw hi
  · cases h
  · rename_i hw
    cases h
    rw [setPte_table hi]
    exact walkpgdir_table hw hi

theorem mapLoop_table {k : ℕ} (h : mapLoop k D va pa perm a = .ok (b, D', a')) (hi : ∀ j ≤ k, i ≠ PDX (va + j * PGSIZE)) : D' i = D i := by
  induction k generalizing D va pa a with
  | zero =>
    have h0 := hi 0 le_rfl
    rw [Nat.zero_mul, Nat.add_zero] at h0
    exact mapPage_table h h0
  | succ k ih =>
    have h0 := hi 0 (Nat.zero_le _)
    rw [Nat.zero_mul, Nat.add_zero] at h0
    unfold mapLoop at h
    split at h
    · cases h
    · rename_i hm
      cases h
      exact mapPage_table hm h0
    · rename_i D1 a1 hm
      have hrest : ∀ j ≤ k, i ≠ PDX (va + PGSIZE + j * PGSIZE) := by
        intro j hj
        have hnext := hi (j + 1) (by omega)
        rw [Nat.succ_mul] at hnext
        rwa [Nat.add_assoc, Nat.add_comm PGSIZE]
      rw [ih h hrest]
      exact mapPage_table hm h0

/-- mapping one page below `KERNBASE` -/
theorem mappages_upper (hva : va % PGSIZE = 0) (hlt : va < KERNBASE)
    (h : mappages D va PGSIZE pa perm a = .ok (b, D', a')) : SameUpper D D' := by
  rw [mappages_page hva] at h
  intro i hi
  have hne := PDX_lt_of_lt hlt
  exact mapPage_table h (by omega)

variable {oldsz : ℕ}

theorem deallocLoop_upper (hold : oldsz ≤ KERNBASE) (va : ℕ) (D : Dir) (a : A) : SameUpper D (deallocLoop oldsz va D a).1 := by
  fun_induction deallocLoop oldsz va D a with
  | case1 va D a hlt D1 a1 hw ih =>
    obtain ⟨rfl, -⟩ := walkpgdir_inv hw
    exact ih
  | case2 va D a hlt e D1 a1 hw ih =>
    obtain ⟨rfl, -⟩ := walkpgdir_inv hw
    refine SameUpper.trans (fun i hi => ?_) ih
    have hne := PDX_lt_of_lt (hlt.trans_le hold)
    exact setPte_table (by omega) _
  | case3 va D a hlt D1 a1 hw ih =>
    obtain ⟨rfl, -⟩ := walkpgdir_inv hw
    exact ih
  | case4 va D a hge => exact .refl D

theorem deallocuvm_upper (hold : oldsz ≤ KERNBASE) (newsz : ℕ) (D : Dir) (a : A) : SameUpper D (deallocuvm D oldsz newsz a).2.1 := by
  unfold deallocuvm
  split
  · exact .refl D
  · exact deallocLoop_upper hold _ D a

variable {newsz r : ℕ}

theorem allocLoop_upper (hnew : newsz ≤ KERNBASE) (hva : va % PGSIZE = 0)
    (h : allocLoop oldsz newsz va D a = .ok (r, D', a')) : SameUpper D D' := by
  fun_induction allocLoop oldsz newsz va D a with
  | case1 va D a hlt a1 ha =>
    have hD : D' = (deallocuvm D newsz oldsz a1).2.1 := congrArg (fun r => r.2.1) (Except.ok.inj h).symm
    rw [hD]
    exact deallocuvm_upper hnew oldsz D a1
  | case2 va D a hlt mem a1 ha e hm => cases h
  | case3 va D a hlt mem a1 ha D1 a2 hm r' D2 a3 hd =>
    cases h
    have hcut := deallocuvm_upper hnew oldsz D1 a2
    rw [hd] at hcut
    exact (mappages_upper hva (hlt.trans_le hnew) hm).trans hcut
  | case4 va D a hlt mem a1 ha D1 a2 hm ih =>
    have hnext : (va + PGSIZE) % PGSIZE = 0 := by rw [Nat.add_mod_right, hva]
    exact (mappages_upper hva (hlt.trans_le hnew) hm).trans (ih hnext h)
  | case5 va D a hge =>
    cases h
    exact .refl _

theorem allocuvm_upper (h : allocuvm D oldsz newsz a = .ok (r, D', a')) : SameUpper D D' := by
  unfold allocuvm at h
  split at h
  · cases h
    exact .refl D
  split at h
  · cases h
    exact .refl D
  · rename_i hbig _
    exact allocLoop_upper (by omega) (PGROUNDUP_mod oldsz) h

theorem copyLoop_upper {src : Dir} {sz : ℕ} (hsz : sz ≤ KERNBASE) (hi : i % PGSIZE = 0)
    (h : copyLoop src sz i D a = .ok (b, D', a')) : SameUpper D D' := by
  fun_induction copyLoop src sz i D a with
  | case1 i D a hlt _ _ hw => cases h
  | case2 i D a hlt _ _ hw => cases h
  | case3 i D a hlt e _ a1 hw a2 ha =>
    cases h
    exact .refl _
  | case4 i D a hlt e _ a1 hw mem a2 ha err hm => cases h
  | case5 i D a hlt e _ a1 hw mem a2 ha D1 a3 hm =>
    cases h
    exact mappages_upper hi (hlt.trans_le hsz) hm
  | case6 i D a hlt e _ a1 hw mem a2 ha D1 a3 hm ih =>
    have hnext : (i + PGSIZE) % PGSIZE = 0 := by rw [Nat.add_mod_right, hi]
    exact (mappages_upper hi (hlt.trans_le hsz) hm).trans (ih hnext h)
  | case7 i D a hge =>
    cases h
    exact .refl _

theorem clearpteu_upper {uva : ℕ} (hlt : uva < KERNBASE) (h : clearpteu D uva = .ok D') : SameUpper D D' := by
  unfold clearpteu at h
  split at h
  · cases h
  · cases h
    intro i hi
    have hne := PDX_lt_of_lt hlt
    exact setPte_table (by omega) _

/-! ## What `setupkvm` maps -/

/-- the kernel's part of a directory -/
structure KernelHalf (D : Dir) : Prop where
  /-- no page of it is for the user -/
  closed : ∀ va e, KERNBASE ≤ va → entry D va = some e → e.perm.u = false
  devices : ∀ va, DEVSPACE ≤ va → va < 2 ^ 32 → (entry D va).isSome = true
  /-- nothing is mapped, nor has a page table, from the end of physical memory to the devices -/
  hole : ∀ i, PDX (KERNBASE + PHYSTOP) ≤ i → i < PDX DEVSPACE → D i = none

theorem KernelHalf.upper (h : KernelHalf D) (hsame : SameUpper D D') : KernelHalf D' := by
  have hbase : KERNBASE ≤ DEVSPACE := by decide
  have hphys : PDX KERNBASE ≤ PDX (KERNBASE + PHYSTOP) := by decide
  refine ⟨fun va e hva he => h.closed va e hva ?_, fun va hva hlt => ?_, fun i hlo hhi => ?_⟩
  · rwa [← hsame.entry hva]
  · rw [hsame.entry (hbase.trans hva)]
    exact h.devices va hva hlt
  · rw [hsame i (hphys.trans hlo)]
    exact h.hole i hlo hhi

theorem mapPage_entry (h : mapPage D va pa perm a = .ok (true, D', a')) (vb : ℕ) :
    entry D' vb = if vb / PGSIZE = va / PGSIZE then some ⟨pa, perm⟩ else entry D vb := by
  rcases walkpgdir_alloc D va a with ⟨a1, hw, -⟩ | ⟨D1, a1, t, hw, -, ht, he⟩
  · rw [mapPage, hw] at h
    cases h
  · rw [mapPage, hw] at h
    cases hva : entry D va with
    | some e =>
      rw [hva] at h
      cases h
    | none =>
      rw [hva] at h
      cases h
      rw [entry_setPte ht, he]

/-- a range that was mapped has the permissions asked for, and every other entry is as it was -/
theorem mapLoop_entry {k : ℕ} (h : mapLoop k D va pa perm a = .ok (true, D', a')) (vb : ℕ) :
    if va / PGSIZE ≤ vb / PGSIZE ∧ vb / PGSIZE ≤ va / PGSIZE + k then ∃ p, entry D' vb = some ⟨p, perm⟩ else entry D' vb = entry D vb := by
  induction k generalizing D va pa a with
  | zero =>
    have he := mapPage_entry h vb
    by_cases hsame : vb / PGSIZE = va / PGSIZE
    · rw [if_pos (by omega)]
      rw [if_pos hsame] at he
      exact ⟨pa, he⟩
    · rw [if_neg (by omega)]
      rwa [if_neg hsame] at he
  | succ k ih =>
    unfold mapLoop at h
    split at h
    · cases h
    · cases h
    · rename_i D1 a1 hm
      have he := mapPage_entry hm vb
      have hrest := ih h
      rw [add_PGSIZE_div] at hrest
      by_cases hsame : vb / PGSIZE = va / PGSIZE
      · rw [if_neg (by omega)] at hrest
        rw [if_pos (by omega)]
        rw [if_pos hsame] at he
        exact ⟨pa, hrest.trans he⟩
      · rw [if_neg hsame] at he
        by_cases hin : va / PGSIZE ≤ vb / PGSIZE ∧ vb / PGSIZE ≤ va / PGSIZE + (k + 1)
        · rw [if_pos (by omega)] at hrest
          rw [if_pos hin]
          exact hrest
        · rw [if_neg (by omega)] at hrest
          rw [if_neg hin]
          exact hrest.trans he

/-- a row was mapped: all rows before it were -/
theorem kmapStep_true {r : Except Panic (Bool × Dir × A)} {k : Kmap} (h : kmapStep r k = .ok (true, D', a')) :
    ∃ D a, r = .ok (true, D, a) ∧ mappages D k.virt k.size (k.physStart / PGSIZE) k.perm a = .ok (true, D', a') := by
  unfold kmapStep at h
  split at h
  · rename_i D a
    exact ⟨D, a, rfl, h⟩
  · rename_i hne
    exact absurd h (hne D' a')

/-- no entry has `PTE_U` -/
def Closed (D : Dir) : Prop := ∀ va e, entry D va = some e → e.perm.u = false

theorem Closed.mappages (h : Closed D) {size : ℕ} (hperm : perm.u = false)
    (hm : mappages D va size pa perm a = .ok (true, D', a')) : Closed D' := by
  intro vb e he
  have hloop := mapLoop_entry hm vb
  split at hloop
  · obtain ⟨p, hp⟩ := hloop
    rw [hp] at he
    cases he
    exact hperm
  · exact h vb e (hloop ▸ he)

/-- a row that lies inside physical memory, or among the devices, leaves the page tables between alone -/
theorem mappages_hole {size : ℕ} (h : mappages D va size pa perm a = .ok (b, D', a')) (hlo : PDX (KERNBASE + PHYSTOP) ≤ i) (hhi : i < PDX DEVSPACE)
    (hrow : DEVSPACE ≤ va ∨ va ≤ va + size - 1 ∧ va + size ≤ KERNBASE + PHYSTOP) : D' i = D i := by
  refine mapLoop_table h fun j hj => ?_
  simp only [PDX, KERNBASE, PHYSTOP, DEVSPACE, PGROUNDDOWN, PGSIZE] at hlo hhi hrow hj ⊢
  omega

/-- **The kernel's part of a fresh directory.** -/
theorem setupkvm_kernelHalf {l : Link} {d : ℕ} (h : setupkvm l a = .ok (some (d, D), a')) : KernelHalf D := by
  unfold setupkvm at h
  split at h
  · cases h
  split at h
  · cases h
  split at h
  · cases h
  · cases h
  rename_i hfold
  cases h
  obtain ⟨D3, a3, h3, hm4⟩ := kmapStep_true hfold
  obtain ⟨D2, a2, h2, hm3⟩ := kmapStep_true h3
  obtain ⟨D1, a1, h1, hm2⟩ := kmapStep_true h2
  obtain ⟨D0, a0, h₀, hm1⟩ := kmapStep_true h1
  cases h₀
  have habove := l.above
  have hbelow := l.below
  have hempty : Closed fun _ => none := fun va e he => by cases he
  have hclosed : Closed D :=
    (((hempty.mappages rfl hm1).mappages rfl hm2).mappages rfl hm3).mappages rfl hm4
  refine ⟨fun va e _ he => hclosed va e he, fun va hva hlt => ?_, fun i hlo hhi => ?_⟩
  · have hlast := mapLoop_entry hm4 va
    rw [if_pos ?_] at hlast
    · obtain ⟨p, hp⟩ := hlast
      rw [hp]
      rfl
    · simp only [Kmap.size, DEVSPACE, PGROUNDDOWN, PGSIZE] at hva ⊢
      omega
  · have e1 := mappages_hole hm1 hlo hhi (by simp only [Kmap.size, KERNBASE, PHYSTOP, EXTMEM]; omega)
    have e2 := mappages_hole hm2 hlo hhi (by
      simp only [Kmap.size, KERNBASE, KERNLINK, PHYSTOP, EXTMEM] at habove hbelow ⊢
      omega)
    have e3 := mappages_hole hm3 hlo hhi (by
      simp only [Kmap.size, KERNBASE, KERNLINK, PHYSTOP, EXTMEM] at habove hbelow ⊢
      omega)
    have e4 := mappages_hole hm4 hlo hhi (.inl le_rfl)
    rw [e4, e3, e2, e1]

/-! ## What `allocuvm` adds -/

theorem allocLoop_new (hva : va % PGSIZE = 0) (h : allocLoop oldsz newsz va D a = .ok (r, D', a')) (hr : r ≠ 0) (vb : ℕ) :
    if Between va newsz vb then ∃ p, entry D' vb = some ⟨p, ⟨true, true⟩⟩ else entry D' vb = entry D vb := by
  fun_induction allocLoop oldsz newsz va D a with
  | case1 va D a hlt a1 ha => exact absurd (congrArg Prod.fst (Except.ok.inj h)).symm hr
  | case2 va D a hlt mem a1 ha e hm => cases h
  | case3 va D a hlt mem a1 ha D1 a2 hm r' D2 a3 hd => exact absurd (congrArg Prod.fst (Except.ok.inj h)).symm hr
  | case4 va D a hlt mem a1 ha D1 a2 hm ih =>
    have hnext : (va + PGSIZE) % PGSIZE = 0 := by rw [Nat.add_mod_right, hva]
    have hrest := ih hnext h
    rw [mappages_page hva] at hm
    have he := mapPage_entry hm vb
    by_cases hsame : vb / PGSIZE = va / PGSIZE
    · have hout : ¬ Between (va + PGSIZE) newsz vb := fun hb => (between_add.1 hb).2 hsame
      rw [if_neg hout] at hrest
      rw [if_pos hsame] at he
      rw [if_pos (between_of_eq hva hlt hsame)]
      exact ⟨mem, hrest.trans he⟩
    · rw [if_neg hsame] at he
      by_cases hin : Between va newsz vb
      · rw [if_pos (between_add.2 ⟨hin, hsame⟩)] at hrest
        rwa [if_pos hin]
      · rw [if_neg fun hb => hin (between_add.1 hb).1] at hrest
        rw [if_neg hin]
        exact hrest.trans he
  | case5 va D a hge =>
    cases h
    rw [if_neg (not_between hva (by omega) vb)]

/-- **New pages.** They are writable and for the user; every other entry stays. -/
theorem allocuvm_new (hold : oldsz ≤ KERNBASE) (h : allocuvm D oldsz newsz a = .ok (r, D', a')) (hr : r ≠ 0) (vb : ℕ) :
    if Between (PGROUNDUP oldsz) newsz vb then ∃ p, entry D' vb = some ⟨p, ⟨true, true⟩⟩ else entry D' vb = entry D vb := by
  unfold allocuvm at h
  split at h
  · cases h
    exact absurd rfl hr
  split at h
  · rename_i hlt
    cases h
    rw [if_neg]
    rintro ⟨hlo, hhi⟩
    have hle := (PGROUNDUP_div_le hold _).1 hlo
    omega
  · exact allocLoop_new (PGROUNDUP_mod oldsz) h hr vb

/-! ## Pages for the user -/

/-- the page of `va` is present and has `PTE_U` -/
def User (D : Dir) (va : ℕ) : Prop := ∃ e ∈ entry D va, e.perm.u = true

instance (D : Dir) (va : ℕ) : Decidable (User D va) := inferInstanceAs (Decidable (∃ e ∈ entry D va, e.perm.u = true))

theorem User.congr {vb : ℕ} (h : User D va) (hpage : vb / PGSIZE = va / PGSIZE) : User D vb := by
  unfold User
  rwa [entry_congr hpage]

theorem table_of_entry_isSome (h : (entry D va).isSome = true) : (D (PDX va)).isSome = true := by
  cases hd : D (PDX va) with
  | none =>
    rw [entry_of_none hd] at h
    cases h
  | some t => rfl

theorem User.table (h : User D va) : (D (PDX va)).isSome = true := by
  obtain ⟨e, he, -⟩ := h
  exact table_of_entry_isSome (Option.isSome_of_mem he)

/-- the pages for the user lie below `KERNBASE`, each in one place -/
structure Proper (D : Dir) : Prop where
  low : ∀ va, User D va → va < KERNBASE
  distinct : ∀ va vb e e', va < KERNBASE → vb < KERNBASE → entry D va = some e → entry D vb = some e' → e.page = e'.page →
    va / PGSIZE = vb / PGSIZE

theorem KernelHalf.low (h : KernelHalf D) (hu : User D va) : va < KERNBASE := by
  obtain ⟨e, he, hu⟩ := hu
  by_contra hge
  rw [h.closed va e (by omega) he] at hu
  cases hu

/-- two entries for one page would be two copies of it among the pages of the directory -/
theorem userPages_distinct (hcount : ∀ p, (userPages D).count p ≤ 1) {m n : ℕ} (hm : m < KERNBASE / PGSIZE)
    (hn : n < KERNBASE / PGSIZE) {e e' : Pte} (he : entry D (m * PGSIZE) = some e) (he' : entry D (n * PGSIZE) = some e')
    (hpage : e.page = e'.page) : m = n := by
  by_contra hne
  have hpair : ({m, n} : Finset ℕ) ⊆ Finset.range (KERNBASE / PGSIZE) := by
    intro i hi
    rcases Finset.mem_insert.1 hi with rfl | hi
    · exact Finset.mem_range.2 hm
    · rw [Finset.mem_singleton.1 hi]
      exact Finset.mem_range.2 hn
  have hle := Finset.sum_le_sum_of_subset (f := fun i => Multiset.count e.page (held Pte.page (entry D (i * PGSIZE)))) hpair
  have h1 : Multiset.count e.page (held Pte.page (some e)) = 1 := Multiset.count_singleton_self _
  have h2 : Multiset.count e.page (held Pte.page (some e')) = 1 := by
    rw [hpage]
    exact Multiset.count_singleton_self _
  rw [Finset.sum_pair hne, he, he', h1, h2, ← Multiset.count_sum'] at hle
  exact absurd (hle.trans (hcount e.page)) (by decide)

theorem KernelHalf.proper (h : KernelHalf D) (hcount : ∀ p, (userPages D).count p ≤ 1) : Proper D := by
  refine ⟨fun va => h.low, fun va vb e e' hva hvb he he' hpage => ?_⟩
  have hpage_lt : ∀ {v}, v < KERNBASE → v / PGSIZE < KERNBASE / PGSIZE := by
    intro v hv
    simp only [PGSIZE, KERNBASE] at hv ⊢
    omega
  have hround : ∀ v, entry D (v / PGSIZE * PGSIZE) = entry D v := fun v => entry_congr (mul_PGSIZE_div _)
  exact userPages_distinct hcount (hpage_lt hva) (hpage_lt hvb) ((hround va).trans he) ((hround vb).trans he') hpage

section Calls

variable {l : Link} {s : VmSt} {pages : Multiset ℕ}

theorem copyuvm_kernelHalf {src : Dir} {sz d : ℕ} (hsz : sz ≤ KERNBASE) (h : copyuvm l src sz a = .ok (some (d, D), a')) : KernelHalf D := by
  unfold copyuvm at h
  split at h
  · cases h
  · cases h
  · rename_i hs
    split at h
    · cases h
    · cases h
    · rename_i hl
      cases h
      exact (setupkvm_kernelHalf hs).upper (copyLoop_upper hsz rfl hl)

/-- the kernel's part of a new directory, if there is one, is in order -/
theorem VmSt.add_halves (h : ∀ x ∈ s.spaces, KernelHalf x.dir) {sz : ℕ} {r : Except Panic (Option (ℕ × Dir) × Frames)}
    (hr : ∀ d D f, r = .ok (some (d, D), f) → KernelHalf D) : ∀ x ∈ (s.add sz r).spaces, KernelHalf x.dir := by
  rcases r with e | ⟨_ | ⟨d, D⟩, f⟩
  · exact h
  · exact h
  · intro x hx
    rcases List.mem_cons.1 hx with rfl | hx
    · exact hr d D f rfl
    · exact h x hx

theorem set_halves (h : ∀ x ∈ s.spaces, KernelHalf x.dir) {k : ℕ} {y : Space} (hy : KernelHalf y.dir) :
    ∀ x ∈ s.spaces.set k y, KernelHalf x.dir := by
  intro x hx
  rcases List.mem_or_eq_of_mem_set hx with hx | rfl
  · exact h x hx
  · exact hy

theorem vmStep_halves (hinv : VmInv pages s) (h : ∀ x ∈ s.spaces, KernelHalf x.dir) {op : VmOp} (hok : VmOk s op) :
    ∀ x ∈ (vmStep l s op).spaces, KernelHalf x.dir := by
  unfold vmStep
  rw [if_pos hinv.runs]
  cases op with
  | setupkvm => exact VmSt.add_halves h fun d D f hr => setupkvm_kernelHalf hr
  | allocuvm k newsz =>
    unfold vmCall
    dsimp only
    split
    · rename_i x hx
      have hx' := h x (List.mem_of_getElem? hx)
      rcases hr : allocuvm x.dir x.sz newsz s.frames with e | ⟨r, D, f⟩
      · exact h
      · exact set_halves h (hx'.upper (allocuvm_upper hr))
    · exact h
  | deallocuvm k oldsz newsz =>
    unfold vmCall
    dsimp only
    split
    · rename_i x hx
      exact set_halves h ((h x (List.mem_of_getElem? hx)).upper (deallocuvm_upper (hok x hx).2 newsz x.dir s.frames))
    · exact h
  | copyuvm k =>
    unfold vmCall
    dsimp only
    split
    · rename_i x hx
      have hsz := hinv.small x (List.mem_of_getElem? hx)
      exact VmSt.add_halves h fun d D f hr => copyuvm_kernelHalf hsz.le hr
    · exact h
  | freevm k =>
    unfold vmCall
    dsimp only
    split
    · intro x hx
      exact h x (List.mem_of_mem_eraseIdx hx)
    · exact h

/-- after any sequence of calls the kernel's part of every live directory is in order, and the user's part too -/
theorem run_proper {frames : Frames} (hnodup : frames.free.Nodup) {ops : List VmOp}
    (h : Guarded (vmStep l) VmOk (vmInit frames) ops) {k : ℕ} {x : Space}
    (hx : (run (vmStep l) (vmInit frames) ops).spaces[k]? = some x) : KernelHalf x.dir ∧ Proper x.dir := by
  obtain ⟨hinv, hhalves⟩ := guarded_inv (I := fun s => VmInv frames.pool s ∧ ∀ x ∈ s.spaces, KernelHalf x.dir)
    (fun _ _ hok hs => ⟨vmStep_inv hs.1 hok, vmStep_halves hs.1 hs.2 hok⟩) (vmInit frames) ⟨vmInit_inv frames, nofun⟩ ops h
  generalize run (vmStep l) (vmInit frames) ops = s at hx hinv hhalves
  have hhalf := hhalves x (List.mem_of_getElem? hx)
  refine ⟨hhalf, hhalf.proper fun p => ?_⟩
  have hone : s.all.count p ≤ 1 := by
    rw [hinv.all]
    exact Multiset.nodup_iff_count_le_one.1 (Multiset.coe_nodup.2 hnodup) p
  have hall : s.all.count p = s.frames.pool.count p + (s.spaces.map Space.pages).sum.count p := Multiset.count_add _ _ _
  have hspaces : (s.spaces.map Space.pages).sum.count p =
      ((s.spaces.eraseIdx k).map Space.pages).sum.count p + x.pages.count p := by
    rw [← sum_map_eraseIdx Space.pages hx, Multiset.count_add]
  have hspace : x.pages.count p = ({x.pgdir} : Multiset ℕ).count p + ((tablePages x.dir).count p + (userPages x.dir).count p) := by
    rw [Space.pages, dirPages, Multiset.count_add, Multiset.count_add]
  omega

end Calls

/-! ## Memory enough -/

section Enough

variable {f f' : Frames}

/-- every request is granted while there are pages -/
def Granting (f : Frames) : Prop := ∀ n, f.grants n = true

theorem Granting.uses (h : Granting f) (hu : Uses f f') : Granting f' := by
  induction hu with
  | refl => exact h
  | @alloc b hb ih =>
    obtain ⟨free, next, grants⟩ := b
    intro n
    cases free with
    | nil => exact ih n
    | cons p ps =>
      simp only [Pager.alloc]
      split <;> exact ih n
  | free p hb ih => exact ih

theorem Granting.dry (h : Granting f) (ha : Pager.alloc f = (none, f')) : f'.pool = 0 := by
  obtain ⟨free, next, grants⟩ := f
  cases free with
  | nil =>
    cases ha
    rfl
  | cons p ps =>
    simp only [Pager.alloc] at ha
    rw [if_pos (h next)] at ha
    cases ha

theorem mapPage_dry (h : Granting f) {va pa : ℕ} {perm : Perm} (hm : mapPage D va pa perm f = .ok (false, D', f')) : f'.pool = 0 := by
  unfold mapPage at hm
  split at hm
  · rename_i D1 f1 hw
    cases hm
    unfold walkpgdir at hw
    split at hw
    · cases hw
    · rw [if_pos rfl] at hw
      split at hw
      · rename_i ha
        cases hw
        exact h.dry ha
      · cases hw
  · cases hm
  · cases hm

theorem mapLoop_dry (h : Granting f) {va pa k : ℕ} {perm : Perm} {b : Bool} (hm : mapLoop k D va pa perm f = .ok (b, D', f')) :
    Granting f' ∧ (b = false → f'.pool = 0) := by
  induction k generalizing D va pa f with
  | zero => exact ⟨h.uses (mapPage_uses hm), fun hb => mapPage_dry h (hb ▸ hm)⟩
  | succ k ih =>
    unfold mapLoop at hm
    split at hm
    · cases hm
    · rename_i hp
      cases hm
      exact ⟨h.uses (mapPage_uses hp), fun _ => mapPage_dry h hp⟩
    · rename_i hp
      exact ih (h.uses (mapPage_uses hp)) hm

theorem kmap_dry (h : Granting f) {ks : List Kmap} (hm : ks.foldl kmapStep (.ok (true, D, f)) = .ok (false, D', f')) : f'.pool = 0 := by
  induction ks generalizing D f with
  | nil => cases hm
  | cons k ks ih =>
    rw [List.foldl_cons] at hm
    rcases hk : kmapStep (.ok (true, D, f)) k with e | ⟨_ | _, D1, f1⟩
    · rw [hk, kmapStep_error] at hm
      cases hm
    · rw [hk, kmapStep_stuck] at hm
      cases hm
      exact (mapLoop_dry h hk).2 rfl
    · rw [hk] at hm
      exact ih (mapLoop_dry h hk).1 hm

theorem card_tablePages (D : Dir) : (tablePages D).card ≤ NPDENTRIES := by
  unfold tablePages
  rw [Multiset.card_sum]
  refine (Finset.sum_le_card_nsmul _ _ 1 fun i _ => ?_).trans (by simp)
  cases D i with
  | none => exact Nat.zero_le 1
  | some t => exact le_rfl

/-- with more pages than a directory has page tables, the kernel's part of one can be built -/
theorem setupkvm_enough (l : Link) (h : Granting f) (hlen : NPDENTRIES + 1 < f.free.length) :
    ∃ d D f', setupkvm l f = .ok (some (d, D), f') := by
  rcases setupkvm_mapped l f with ⟨f', hs, -⟩ | ⟨d, D, f1, f', hs, -⟩
  · exfalso
    unfold setupkvm at hs
    split at hs
    · rename_i f1 ha
      have hpool := Frames.pool_dry ha
      rw [h.dry ha] at hpool
      have hcard : Multiset.card f.pool = 0 := by rw [← hpool, Multiset.card_zero]
      have hlength : Multiset.card f.pool = f.free.length := Multiset.coe_card _
      omega
    rename_i d f1 ha
    split at hs
    · cases hs
    split at hs
    · cases hs
    · rename_i D f2 hfold
      have hgrant := h.uses (.of_alloc (.refl f) ha)
      have hpool := kmap_pool (kmap_high l) hfold
      rw [kmap_dry hgrant hfold, dirPages_empty, zero_add, add_zero] at hpool
      -- nothing below `KERNBASE` is mapped yet, so all pages taken are page tables
      have hempty : ∀ vb, KERNBASE / PGSIZE ≤ vb / PGSIZE → entry (fun _ => none) vb = none := fun _ _ => rfl
      obtain ⟨b, D', f3, hl, -, -, he⟩ := kmap_spec (kmap_ascending l) hempty f1
      rw [hfold] at hl
      cases hl
      have huser : userPages D = 0 := by
        rw [userPages_congr (D := fun _ => none) fun vb hvb => he vb (by simp only [PGSIZE, KERNBASE] at hvb ⊢; omega)]
        exact Finset.sum_eq_zero fun _ _ => rfl
      have hcard := card_tablePages D
      rw [dirPages, huser, add_zero] at hpool
      rw [hpool] at hcard
      have hlength : Multiset.card f1.pool + 1 = f.free.length := by
        have halloc := congrArg Multiset.card (Frames.pool_alloc ha)
        rw [Multiset.card_add, Multiset.card_singleton] at halloc
        have hlength : Multiset.card f.pool = f.free.length := Multiset.coe_card _
        omega
      omega
    · cases hs
  · exact ⟨d, D, f', hs⟩

theorem card_userPages (D : Dir) : (userPages D).card ≤ KERNBASE / PGSIZE := by
  unfold userPages
  rw [Multiset.card_sum]
  refine (Finset.sum_le_card_nsmul _ _ 1 fun n _ => ?_).trans (by simp)
  cases entry D (n * PGSIZE) with
  | none => exact Nat.zero_le 1
  | some e => exact le_rfl

/-- more pages, free or in the directory, than a directory can hold -/
def Plenty (D : Dir) (f : Frames) : Prop := NPDENTRIES + KERNBASE / PGSIZE + 1 < f.pool.card + (dirPages D).card

theorem card_dirPages (D : Dir) : (dirPages D).card ≤ NPDENTRIES + KERNBASE / PGSIZE := by
  rw [dirPages, Multiset.card_add]
  exact Nat.add_le_add (card_tablePages D) (card_userPages D)

theorem Plenty.alloc (h : Plenty D f) (hg : Granting f) : ∃ p f', Pager.alloc f = (some p, f') := by
  rcases ha : Pager.alloc f with ⟨_ | p, f'⟩
  · have hpool := Frames.pool_dry ha
    rw [hg.dry ha] at hpool
    unfold Plenty at h
    rw [← hpool, Multiset.card_zero] at h
    have hcard := card_dirPages D
    omega
  · exact ⟨p, f', rfl⟩

theorem allocLoop_enough {oldsz newsz va r : ℕ} (hnew : newsz ≤ KERNBASE) (hva : va % PGSIZE = 0) (hg : Granting f)
    (hplenty : Plenty D f) (h : allocLoop oldsz newsz va D f = .ok (r, D', f')) : r = newsz := by
  fun_induction allocLoop oldsz newsz va D f with
  | case1 va D f hlt f1 ha =>
    obtain ⟨p, f2, ha'⟩ := hplenty.alloc hg
    rw [ha] at ha'
    cases ha'
  | case2 va D f hlt mem f1 ha e hm => cases h
  | case3 va D f hlt mem f1 ha D1 f2 hm r' D2 f3 hd =>
    -- the request for a page table has failed, so there is nothing left
    have hpool := congrArg Multiset.card (mappages_pool hva (hlt.trans_le hnew) hm)
    rw [if_neg Bool.false_ne_true, add_zero, Multiset.card_add, Multiset.card_add] at hpool
    rw [mappages_page hva] at hm
    rw [mapPage_dry (hg.uses (.of_alloc (.refl f) ha)) hm, Multiset.card_zero] at hpool
    have halloc := congrArg Multiset.card (Frames.pool_alloc ha)
    rw [Multiset.card_add, Multiset.card_singleton] at halloc
    have hcard := card_dirPages D1
    unfold Plenty at hplenty
    omega
  | case4 va D f hlt mem f1 ha D1 f2 hm ih =>
    have hnext : (va + PGSIZE) % PGSIZE = 0 := by rw [Nat.add_mod_right, hva]
    have hpool := congrArg Multiset.card (mappages_pool hva (hlt.trans_le hnew) hm)
    rw [if_pos rfl, Multiset.card_add, Multiset.card_add, Multiset.card_add, Multiset.card_singleton] at hpool
    have halloc := congrArg Multiset.card (Frames.pool_alloc ha)
    rw [Multiset.card_add, Multiset.card_singleton] at halloc
    refine ih hnext (hg.uses ((Uses.of_alloc (.refl f) ha).trans (mappages_page_uses hva hm))) ?_ h
    unfold Plenty at hplenty ⊢
    omega
  | case5 va D f hge =>
    cases h
    rfl

/-- with more pages than a directory can hold, it can grow to any size -/
theorem allocuvm_enough {oldsz newsz r : ℕ} (hg : Granting f) (hplenty : Plenty D f) (hle : oldsz ≤ newsz) (hlt : newsz < KERNBASE)
    (h : allocuvm D oldsz newsz f = .ok (r, D', f')) : r = newsz := by
  unfold allocuvm at h
  rw [if_neg (by omega), if_neg (by omega)] at h
  exact allocLoop_enough hlt.le (PGROUNDUP_mod oldsz) hg hplenty h

end Enough

end Xv6.Kernel
