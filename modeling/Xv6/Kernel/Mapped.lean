/-
What the functions of `vm.c` do to the set of mapped pages.

`Mapped D sz` says that the pages below `KERNBASE` mapped by the directory `D` are those that start below `sz`.

The results hold over any allocator: growing, shrinking and copying fail only when a request to the allocator failed (`Dry`).
-/
import Xv6.Kernel.Vm

namespace Xv6.Kernel

open Xv6.Core
variable {A : Type} [Pager A] {D : Dir} {a : A}

/-! ## Entries -/

variable {va vb : ℕ}

theorem same_page : PDX vb = PDX va ∧ PTX vb = PTX va ↔ vb / PGSIZE = va / PGSIZE := by
  simp only [PDX, PTX, PGSIZE]
  omega

theorem entry_congr (h : vb / PGSIZE = va / PGSIZE) : entry D vb = entry D va := by
  obtain ⟨hd, ht⟩ := same_page.2 h
  unfold entry
  rw [hd, ht]

theorem entry_of_none (h : D (PDX va) = none) : entry D va = none := by
  simp [entry, h]

variable {t : Table}

theorem entry_of_some (h : D (PDX va) = some t) : entry D va = t.pte (PTX va) := by
  simp [entry, h]

theorem entry_setPte (h : D (PDX va) = some t) (e : Option Pte) (vb : ℕ) :
    entry (setPte D va e) vb = if vb / PGSIZE = va / PGSIZE then e else entry D vb := by
  simp only [setPte, h, ← same_page]
  unfold entry
  by_cases hd : PDX vb = PDX va
  · by_cases ht : PTX vb = PTX va
    · simp [hd, ht]
    · simp [hd, ht, h]
  · simp [hd]

/-- a page table without entries maps what no page table maps -/
theorem entry_update_empty (h : D (PDX va) = none) (pgtab vb : ℕ) :
    entry (Function.update D (PDX va) (some ⟨pgtab, fun _ => none⟩)) vb = entry D vb := by
  unfold entry
  by_cases hd : PDX vb = PDX va
  · simp [hd, h]
  · simp [hd]

theorem walkpgdir_none (h : D (PDX va) = none) : walkpgdir D va false a = (none, D, a) := by
  simp [walkpgdir, h]

theorem walkpgdir_some (h : D (PDX va) = some t) (alloc : Bool) : walkpgdir D va alloc a = (some (entry D va), D, a) := by
  simp [walkpgdir, h, entry]

/-- a walk that may allocate finds the entry of `va` and changes none, unless the allocator fails -/
theorem walkpgdir_alloc (D : Dir) (va : ℕ) (a : A) : (∃ a', walkpgdir D va true a = (none, D, a') ∧ Uses a a' ∧ Dry a) ∨
    ∃ D' a' t, walkpgdir D va true a = (some (entry D va), D', a') ∧ Uses a a' ∧ D' (PDX va) = some t ∧ ∀ vb, entry D' vb = entry D vb := by
  cases hd : D (PDX va) with
  | some t => exact .inr ⟨D, a, t, walkpgdir_some hd true, .refl a, hd, fun _ => rfl⟩
  | none =>
    rcases ha : Pager.alloc a with ⟨_ | pgtab, a'⟩
    · exact .inl ⟨a', by simp [walkpgdir, hd, ha], .of_alloc (.refl a) ha, .of_alloc ha⟩
    · refine .inr ⟨_, a', ⟨pgtab, fun _ => none⟩, ?_, .of_alloc (.refl a) ha, update_self _ _ _,
        entry_update_empty hd pgtab⟩
      simp [walkpgdir, hd, ha, entry]

/-! ## Rounding -/

theorem PGROUNDUP_mod (sz : ℕ) : PGROUNDUP sz % PGSIZE = 0 := by
  simp only [PGROUNDUP, PGSIZE]
  omega

variable {sz : ℕ}

/-- the pages from `PGROUNDUP sz` on are those that start at `sz` or later -/
theorem PGROUNDUP_div_le (h : sz ≤ KERNBASE) (n : ℕ) : PGROUNDUP sz / PGSIZE ≤ n ↔ sz ≤ n * PGSIZE := by
  simp only [PGROUNDUP, PGSIZE, KERNBASE] at h ⊢
  omega

theorem le_PGROUNDUP (h : sz ≤ KERNBASE) : sz ≤ PGROUNDUP sz := by
  simp only [PGROUNDUP, PGSIZE, KERNBASE] at h ⊢
  omega

theorem add_PGSIZE_div (va : ℕ) : (va + PGSIZE) / PGSIZE = va / PGSIZE + 1 :=
  Nat.add_div_right va (by decide)

/-! ## `mappages` -/

theorem mapPage_spec (h : entry D va = none) (pa : ℕ) (perm : Perm) (a : A) :
    (∃ a', mapPage D va pa perm a = .ok (false, D, a') ∧ Uses a a' ∧ Dry a) ∨
    ∃ D' a', mapPage D va pa perm a = .ok (true, D', a') ∧ Uses a a' ∧
      ∀ vb, entry D' vb = if vb / PGSIZE = va / PGSIZE then some ⟨pa, perm⟩ else entry D vb := by
  rcases walkpgdir_alloc D va a with ⟨a', hw, hu, hd⟩ | ⟨D', a', t, hw, hu, ht, he⟩
  · exact .inl ⟨a', by simp [mapPage, hw], hu, hd⟩
  · refine .inr ⟨setPte D' va (some ⟨pa, perm⟩), a', by simp [mapPage, hw, h], hu, fun vb => ?_⟩
    rw [entry_setPte ht, he]

theorem mapLoop_spec (k va : ℕ) (h : ∀ vb, va / PGSIZE ≤ vb / PGSIZE → vb / PGSIZE ≤ va / PGSIZE + k →
    entry D vb = none) (pa : ℕ) (perm : Perm) (a : A) :
    ∃ b D' a', mapLoop k D va pa perm a = .ok (b, D', a') ∧ Uses a a' ∧ (b = false → Dry a) ∧
      ∀ vb, vb / PGSIZE < va / PGSIZE ∨ va / PGSIZE + k < vb / PGSIZE → entry D' vb = entry D vb := by
  induction k generalizing D va pa a with
  | zero =>
    rcases mapPage_spec (h va (le_refl _) (le_refl _)) pa perm a with ⟨a', hm, hu, hd⟩ | ⟨D', a', hm, hu, he⟩
    · exact ⟨false, D, a', by simp [mapLoop, hm], hu, fun _ => hd, fun _ _ => rfl⟩
    · refine ⟨true, D', a', by simp [mapLoop, hm], hu, by simp, fun vb hv => ?_⟩
      rw [he, if_neg (by omega)]
  | succ k ih =>
    rcases mapPage_spec (h va (le_refl _) (Nat.le_add_right _ _)) pa perm a with
      ⟨a', hm, hu, hd⟩ | ⟨D', a', hm, hu, he⟩
    · exact ⟨false, D, a', by rw [mapLoop, hm], hu, fun _ => hd, fun _ _ => rfl⟩
    · have hva := add_PGSIZE_div va
      have hfree : ∀ vb, (va + PGSIZE) / PGSIZE ≤ vb / PGSIZE → vb / PGSIZE ≤ (va + PGSIZE) / PGSIZE + k →
          entry D' vb = none := by
        intro vb h1 h2
        rw [he, if_neg (by omega)]
        exact h vb (by omega) (by omega)
      obtain ⟨b, D'', a'', hl, hu', hd, hk⟩ := ih _ hfree (pa + 1) a'
      refine ⟨b, D'', a'', by rw [mapLoop, hm]; exact hl, hu.trans hu', fun hb => (hd hb).of_uses hu, ?_⟩
      intro vb hv
      rw [hk vb (by omega), he, if_neg (by omega)]

theorem mappages_page (h : va % PGSIZE = 0) (pa : ℕ) (perm : Perm) (a : A) : mappages D va PGSIZE pa perm a = mapPage D va pa perm a := by
  have hlast : PGROUNDDOWN (va + PGSIZE - 1) = va := by simp only [PGROUNDDOWN, PGSIZE] at h ⊢; omega
  have hfirst : PGROUNDDOWN va = va := by simp only [PGROUNDDOWN, PGSIZE] at h ⊢; omega
  rw [mappages, hlast, hfirst, Nat.sub_self, Nat.zero_div, mapLoop]

/-- mapping one page that is not mapped: the panic is not reached -/
theorem mappages_spec (hva : va % PGSIZE = 0) (h : entry D va = none) (pa : ℕ) (perm : Perm) (a : A) :
    (∃ a', mappages D va PGSIZE pa perm a = .ok (false, D, a') ∧ Uses a a' ∧ Dry a) ∨
    ∃ D' a', mappages D va PGSIZE pa perm a = .ok (true, D', a') ∧ Uses a a' ∧
      ∀ vb, entry D' vb = if vb / PGSIZE = va / PGSIZE then some ⟨pa, perm⟩ else entry D vb := by
  rw [mappages_page hva]
  exact mapPage_spec h pa perm a

/-! ## `deallocuvm` -/

theorem walkpgdir_inv {r : Option (Option Pte)} {D' : Dir} {a' : A} (h : walkpgdir D va false a = (r, D', a')) :
    D' = D ∧ a' = a ∧ (D (PDX va) = none ∧ r = none ∨ ∃ t, D (PDX va) = some t ∧ r = some (entry D va)) := by
  cases hd : D (PDX va) with
  | none =>
    rw [walkpgdir_none hd] at h
    cases h
    exact ⟨rfl, rfl, .inl ⟨rfl, rfl⟩⟩
  | some t =>
    rw [walkpgdir_some hd] at h
    cases h
    exact ⟨rfl, rfl, .inr ⟨t, rfl, rfl⟩⟩

theorem deallocLoop_uses (oldsz va : ℕ) (D : Dir) (a : A) : Uses a (deallocLoop oldsz va D a).2 := by
  fun_induction deallocLoop oldsz va D a with
  | case1 va D a hlt D' a' hw ih =>
    obtain ⟨-, rfl, -⟩ := walkpgdir_inv hw
    exact ih
  | case2 va D a hlt e D' a' hw ih =>
    obtain ⟨-, rfl, -⟩ := walkpgdir_inv hw
    exact ((Uses.refl _).free e.page).trans ih
  | case3 va D a hlt D' a' hw ih =>
    obtain ⟨-, rfl, -⟩ := walkpgdir_inv hw
    exact ih
  | case4 va D a hge => exact .refl _

/-- the page of `va` is one of those from the page boundary `lo` up to `hi` -/
def Between (lo hi va : ℕ) : Prop := lo / PGSIZE ≤ va / PGSIZE ∧ va / PGSIZE * PGSIZE < hi

instance (lo hi va : ℕ) : Decidable (Between lo hi va) := inferInstanceAs (Decidable (_ ∧ _))

variable {hi : ℕ}

theorem between_of_eq (hva : va % PGSIZE = 0) (h : va < hi) (hv : vb / PGSIZE = va / PGSIZE) : Between va hi vb := by
  refine ⟨hv.ge, ?_⟩
  simp only [PGSIZE] at hva hv ⊢
  omega

theorem not_between (hva : va % PGSIZE = 0) (h : hi ≤ va) (vb : ℕ) : ¬ Between va hi vb := by
  simp only [Between, PGSIZE] at hva ⊢
  omega

theorem between_add : Between (va + PGSIZE) hi vb ↔ Between va hi vb ∧ vb / PGSIZE ≠ va / PGSIZE := by
  unfold Between
  rw [add_PGSIZE_div]
  omega

/-- the skip of `deallocuvm` passes over the pages under one directory index -/
theorem between_skip (h : PDX vb ≠ PDX va) : Between (PGADDR (PDX va + 1) 0 0 - PGSIZE + PGSIZE) hi vb ↔ Between va hi vb := by
  unfold Between
  simp only [PGADDR, PDX, PGSIZE] at h ⊢
  omega

/-- `D'` is `D` without the pages from `lo` up to `hi` -/
def Cut (D D' : Dir) (lo hi : ℕ) : Prop := ∀ vb, entry D' vb = if Between lo hi vb then none else entry D vb

theorem deallocLoop_cut (oldsz va : ℕ) (D : Dir) (a : A) (hva : va % PGSIZE = 0) : Cut D (deallocLoop oldsz va D a).1 va oldsz := by
  fun_induction deallocLoop oldsz va D a with
  | case1 va D a hlt D' a' hw ih =>
    intro vb
    obtain ⟨rfl, rfl, ⟨hd, -⟩ | ⟨t, -, hr⟩⟩ := walkpgdir_inv hw
    · rw [ih (by simp only [PGADDR, PDX, PGSIZE]; omega) vb]
      -- a page the skip passes over has no page table
      by_cases hsame : PDX vb = PDX va
      · have hnone : entry D' vb = none := entry_of_none (hsame ▸ hd)
        rw [hnone, ite_self, ite_self]
      · simp only [between_skip hsame]
    · exact absurd hr (by simp)
  | case2 va D a hlt e D' a' hw ih =>
    intro vb
    obtain ⟨rfl, rfl, ⟨-, hr⟩ | ⟨t, hd, hr⟩⟩ := walkpgdir_inv hw
    · exact absurd hr (by simp)
    · rw [ih (by simp only [PGSIZE] at hva ⊢; omega) vb, entry_setPte hd]
      by_cases hsame : vb / PGSIZE = va / PGSIZE
      · rw [if_pos hsame, ite_self, if_pos (between_of_eq hva hlt hsame)]
      · simp only [between_add, ne_eq, hsame, not_false_eq_true, and_true, if_false]
  | case3 va D a hlt D' a' hw ih =>
    intro vb
    obtain ⟨rfl, rfl, ⟨-, hr⟩ | ⟨t, hd, hr⟩⟩ := walkpgdir_inv hw
    · exact absurd hr (by simp)
    · rw [ih (by simp only [PGSIZE] at hva ⊢; omega) vb]
      by_cases hsame : vb / PGSIZE = va / PGSIZE
      · have hnone : entry D' vb = none := by
          rw [entry_congr hsame]
          exact (Option.some.inj hr).symm
        rw [hnone, ite_self, ite_self]
      · simp only [between_add, ne_eq, hsame, not_false_eq_true, and_true]
  | case4 va D a hge =>
    intro vb
    rw [if_neg (not_between hva (by omega) vb)]

theorem deallocuvm_uses (D : Dir) (oldsz newsz : ℕ) (a : A) : Uses a (deallocuvm D oldsz newsz a).2.2 := by
  unfold deallocuvm
  split
  · exact .refl a
  · exact deallocLoop_uses _ _ D a

theorem freevm_uses (pgdir : ℕ) (D : Dir) (a : A) : Uses a (freevm pgdir D a) := by
  have hfold : ∀ (f : A → ℕ → A), (∀ b i, Uses b (f b i)) → ∀ (l : List ℕ) (b : A), Uses b (l.foldl f b) := by
    intro f hf l
    induction l with
    | nil => exact fun b => .refl b
    | cons i l ih => exact fun b => (hf b i).trans (ih _)
  refine .free _ ((deallocuvm_uses D KERNBASE 0 a).trans (hfold _ (fun b i => ?_) _ _))
  split
  · exact (Uses.refl b).free _
  · exact .refl b

/-! ## The user pages of a directory -/

/-- the mapped pages below `KERNBASE` are those that start below `sz` -/
def Mapped (D : Dir) (sz : ℕ) : Prop :=
  ∀ n, n * PGSIZE < KERNBASE → ((entry D (n * PGSIZE)).isSome = true ↔ n * PGSIZE < sz)

theorem mul_PGSIZE_div (n : ℕ) : n * PGSIZE / PGSIZE = n := Nat.mul_div_cancel n (by decide)

theorem between_roundup (h : sz ≤ KERNBASE) (hi n : ℕ) :
    Between (PGROUNDUP sz) hi (n * PGSIZE) ↔ sz ≤ n * PGSIZE ∧ n * PGSIZE < hi := by
  unfold Between
  rw [mul_PGSIZE_div, PGROUNDUP_div_le h]

/-- shrinking to `newsz` keeps the pages below it -/
theorem deallocuvm_mapped (h : Mapped D sz) (hsz : sz < KERNBASE) (newsz : ℕ) (a : A) :
    Mapped (deallocuvm D sz newsz a).2.1 (deallocuvm D sz newsz a).1 := by
  unfold deallocuvm
  split
  · exact h
  · rename_i hlt
    intro n hn
    have hb := between_roundup (by omega : newsz ≤ KERNBASE) sz n
    rw [deallocLoop_cut sz _ D a (PGROUNDUP_mod newsz)]
    by_cases hge : Between (PGROUNDUP newsz) sz (n * PGSIZE)
    · rw [if_pos hge]
      rw [hb] at hge
      simp only [Option.isSome_none, Bool.false_eq_true, false_iff]
      omega
    · rw [if_neg hge, h n hn]
      rw [hb] at hge
      omega

/-! ## `allocuvm` -/

/-- `D'` is `D` with the pages from `lo` up to `hi` as well -/
def Grown (D D' : Dir) (lo hi : ℕ) : Prop :=
  ∀ vb, (entry D' vb).isSome = true ↔ (entry D vb).isSome = true ∨ Between lo hi vb

variable {oldsz newsz : ℕ}

/-- what `allocuvm` does on failure takes back every page from `PGROUNDUP oldsz` on -/
theorem deallocuvm_cut (h : newsz < oldsz) (D : Dir) (a : A) : Cut D (deallocuvm D oldsz newsz a).2.1 (PGROUNDUP newsz) oldsz := by
  unfold deallocuvm
  rw [if_neg (by omega)]
  exact deallocLoop_cut oldsz _ D a (PGROUNDUP_mod newsz)

/-- the loop maps the pages from `va` up to `newsz`, or takes back everything from `PGROUNDUP oldsz` on -/
theorem allocLoop_spec (hold : oldsz ≤ KERNBASE) (hva : va % PGSIZE = 0)
    (hle : PGROUNDUP oldsz ≤ va) (hfree : ∀ vb, Between va newsz vb → entry D vb = none) (a : A) :
    (∃ D' a', allocLoop oldsz newsz va D a = .ok (newsz, D', a') ∧ Uses a a' ∧ Grown D D' va newsz) ∨
    ∃ D' a', allocLoop oldsz newsz va D a = .ok (0, D', a') ∧ Uses a a' ∧ Dry a ∧ Cut D D' (PGROUNDUP oldsz) newsz := by
  fun_induction allocLoop oldsz newsz va D a with
  | case1 va D a hlt a' ha =>
    have hlt' : oldsz < newsz := (le_PGROUNDUP hold).trans_lt (hle.trans_lt hlt)
    refine .inr ⟨_, _, rfl, ?_, .of_alloc ha, deallocuvm_cut hlt' D a'⟩
    exact (Uses.of_alloc (.refl a) ha).trans (deallocuvm_uses D newsz oldsz a')
  | case2 va D a hlt mem a' ha e hm =>
    rcases mappages_spec hva (hfree va (between_of_eq hva hlt rfl)) mem ⟨true, true⟩ a' with ⟨_, h, _⟩ | ⟨_, _, h, _⟩ <;>
      exact absurd (hm.symm.trans h) (by simp)
  | case3 va D a hlt mem a' ha D1 a1 hm r D2 a2 hd =>
    have hlt' : oldsz < newsz := (le_PGROUNDUP hold).trans_lt (hle.trans_lt hlt)
    rcases mappages_spec hva (hfree va (between_of_eq hva hlt rfl)) mem ⟨true, true⟩ a' with
      ⟨a3, h, hu, hdry⟩ | ⟨D3, a3, h, -⟩
    · obtain ⟨rfl, rfl⟩ : D1 = D ∧ a1 = a3 := by simpa [h] using hm.symm
      have hua : Uses a a' := .of_alloc (.refl a) ha
      have hcut := deallocuvm_cut hlt' D1 a1
      have hud := deallocuvm_uses D1 newsz oldsz a1
      rw [hd] at hcut hud
      exact .inr ⟨D2, _, rfl, .free mem ((hua.trans hu).trans hud), hdry.of_uses hua, hcut⟩
    · exact absurd (hm.symm.trans h) (by simp)
  | case4 va D a hlt mem a' ha D1 a1 hm ih =>
    rcases mappages_spec hva (hfree va (between_of_eq hva hlt rfl)) mem ⟨true, true⟩ a' with
      ⟨a3, h, -⟩ | ⟨D3, a3, h, hu, he⟩
    · exact absurd (hm.symm.trans h) (by simp)
    · obtain ⟨rfl, rfl⟩ : D1 = D3 ∧ a1 = a3 := by simpa [h] using hm.symm
      have hu1 : Uses a a1 := (Uses.of_alloc (.refl a) ha).trans hu
      have hfree1 : ∀ vb, Between (va + PGSIZE) newsz vb → entry D1 vb = none := by
        intro vb hb
        rw [he, if_neg (between_add.1 hb).2]
        exact hfree vb (between_add.1 hb).1
      rcases ih (by simp only [PGSIZE] at hva ⊢; omega) (by omega) hfree1 with
        ⟨D2, a2, hl, hu2, hg⟩ | ⟨D2, a2, hl, hu2, hdry, hc⟩
      · refine .inl ⟨D2, a2, hl, hu1.trans hu2, fun vb => ?_⟩
        rw [hg, he, between_add]
        by_cases hsame : vb / PGSIZE = va / PGSIZE
        · simp [hsame, between_of_eq hva hlt hsame]
        · simp [hsame]
      · refine .inr ⟨D2, a2, hl, hu1.trans hu2, hdry.of_uses hu1, fun vb => ?_⟩
        rw [hc, he]
        by_cases hsame : vb / PGSIZE = va / PGSIZE
        · have hb := between_of_eq hva hlt hsame
          have hb' : Between (PGROUNDUP oldsz) newsz vb := ⟨(Nat.div_le_div_right hle).trans hb.1, hb.2⟩
          rw [if_pos hb', if_pos hb']
        · rw [if_neg hsame]
  | case5 va D a hge =>
    refine .inl ⟨D, a, rfl, .refl a, fun vb => ?_⟩
    simp only [not_between hva (by omega : newsz ≤ va) vb, or_false]

/-- **Growing.** From `sz` the result is 0 with the pages as they were, or the new size with the pages below it. -/
theorem allocuvm_mapped (h : Mapped D sz) (hsz : sz ≤ KERNBASE) (newsz : ℕ) (a : A) :
    (∃ D' a', allocuvm D sz newsz a = .ok (0, D', a') ∧ Uses a a' ∧ Mapped D' sz ∧ (KERNBASE ≤ newsz ∨ Dry a)) ∨
    ∃ D' a', allocuvm D sz newsz a = .ok (max sz newsz, D', a') ∧ Uses a a' ∧ Mapped D' (max sz newsz) ∧ newsz < KERNBASE := by
  unfold allocuvm
  split
  · rename_i hbig
    exact .inl ⟨D, a, rfl, .refl a, h, .inl hbig⟩
  split
  · rename_i hbig hlt
    rw [max_eq_left hlt.le]
    exact .inr ⟨D, a, rfl, .refl a, h, by omega⟩
  · rename_i hbig hge
    have hb := between_roundup hsz newsz
    have hfree : ∀ vb, Between (PGROUNDUP sz) newsz vb → entry D vb = none := by
      intro vb hvb
      have hpage : entry D vb = entry D (vb / PGSIZE * PGSIZE) := entry_congr (mul_PGSIZE_div _).symm
      have hlow : sz ≤ vb / PGSIZE * PGSIZE := (PGROUNDUP_div_le hsz _).1 hvb.1
      have hm := h (vb / PGSIZE) (by have := hvb.2; omega)
      rw [hpage, ← Option.not_isSome_iff_eq_none, hm]
      omega
    rw [max_eq_right (by omega)]
    rcases allocLoop_spec hsz (PGROUNDUP_mod sz) (le_refl _) hfree a with
      ⟨D', a', hl, hu, hg⟩ | ⟨D', a', hl, hu, hdry, hc⟩
    · refine .inr ⟨D', a', hl, hu, fun n hn => ?_, by omega⟩
      rw [hg, h n hn, hb]
      omega
    · refine .inl ⟨D', a', hl, hu, fun n hn => ?_, .inr hdry⟩
      rw [hc]
      split
      · rename_i hin
        have := (hb n).1 hin
        simp only [Option.isSome_none, Bool.false_eq_true, false_iff]
        omega
      · exact h n hn

/-! ## `setupkvm` -/

/-- the rows start at page `lo` or later and each one ends before the next -/
def Ascending : ℕ → List Kmap → Prop
  | _, [] => True
  | lo, k :: ks => lo ≤ k.virt / PGSIZE ∧ k.virt ≤ k.virt + k.size - 1 ∧
      Ascending ((k.virt + k.size - 1) / PGSIZE + 1) ks

theorem kmap_ascending (l : Link) : Ascending (KERNBASE / PGSIZE) (kmap l) := by
  obtain ⟨data, h1, h2, h3, -, -⟩ := l
  simp only [KERNLINK, KERNBASE, EXTMEM, PHYSTOP, PGSIZE] at h1 h2 h3
  simp only [kmap, Ascending, Kmap.size, KERNLINK, KERNBASE, EXTMEM, PHYSTOP, DEVSPACE, PGSIZE, and_true]
  omega

theorem kmapStep_stuck (ks : List Kmap) (D : Dir) (a : A) : ks.foldl kmapStep (.ok (false, D, a)) = .ok (false, D, a) := by
  induction ks with
  | nil => rfl
  | cons k ks ih => exact ih

/-- one row is mapped; the panic is not reached, since none of its pages is mapped yet -/
theorem kmapStep_spec {k : Kmap} (hne : k.virt ≤ k.virt + k.size - 1)
    (hfree : ∀ vb, k.virt / PGSIZE ≤ vb / PGSIZE → entry D vb = none) (a : A) :
    ∃ b D' a', kmapStep (.ok (true, D, a)) k = .ok (b, D', a') ∧ Uses a a' ∧ (b = false → Dry a) ∧
      ∀ vb, vb / PGSIZE < k.virt / PGSIZE ∨ (k.virt + k.size - 1) / PGSIZE < vb / PGSIZE → entry D' vb = entry D vb := by
  have hfirst : PGROUNDDOWN k.virt / PGSIZE = k.virt / PGSIZE := mul_PGSIZE_div _
  have hrounds : PGROUNDDOWN k.virt / PGSIZE + (PGROUNDDOWN (k.virt + k.size - 1) - PGROUNDDOWN k.virt) / PGSIZE =
      (k.virt + k.size - 1) / PGSIZE := by
    simp only [PGROUNDDOWN, PGSIZE]
    omega
  obtain ⟨b, D', a', hm, hu, hd, he⟩ := mapLoop_spec
    ((PGROUNDDOWN (k.virt + k.size - 1) - PGROUNDDOWN k.virt) / PGSIZE) (PGROUNDDOWN k.virt)
    (fun vb h1 _ => hfree vb (by omega)) (k.physStart / PGSIZE) k.perm a
  rw [hrounds, hfirst] at he
  exact ⟨b, D', a', hm, hu, hd, he⟩

/-- the rows are mapped in turn, each above the ones before it -/
theorem kmap_spec {ks : List Kmap} {lo : ℕ} (hk : Ascending lo ks) (hfree : ∀ vb, lo ≤ vb / PGSIZE → entry D vb = none) (a : A) :
    ∃ b D' a', ks.foldl kmapStep (.ok (true, D, a)) = .ok (b, D', a') ∧ Uses a a' ∧ (b = false → Dry a) ∧
      ∀ vb, vb / PGSIZE < lo → entry D' vb = entry D vb := by
  induction ks generalizing lo D a with
  | nil => exact ⟨true, D, a, rfl, .refl a, by simp, fun _ _ => rfl⟩
  | cons k ks ih =>
    obtain ⟨hlo, hne, hks⟩ := hk
    have hrow : k.virt / PGSIZE ≤ (k.virt + k.size - 1) / PGSIZE := Nat.div_le_div_right hne
    obtain ⟨b, D1, a1, hm, hu, hd, he⟩ := kmapStep_spec hne (fun vb hv => hfree vb (hlo.trans hv)) a
    rw [List.foldl_cons, hm]
    cases b with
    | false => exact ⟨false, D1, a1, kmapStep_stuck ks D1 a1, hu, hd, fun vb hv => he vb (.inl (by omega))⟩
    | true =>
      have hfree1 : ∀ vb, (k.virt + k.size - 1) / PGSIZE + 1 ≤ vb / PGSIZE → entry D1 vb = none := by
        intro vb hv
        rw [he vb (.inr (by omega))]
        exact hfree vb (by omega)
      obtain ⟨b, D2, a2, hl, hu2, hd2, he2⟩ := ih hks hfree1 a1
      refine ⟨b, D2, a2, hl, hu.trans hu2, fun hb => (hd2 hb).of_uses hu, fun vb hv => ?_⟩
      rw [he2 vb (by omega), he vb (.inl (by omega))]

/-- **A fresh directory.** It maps no user page. -/
theorem setupkvm_mapped (l : Link) (a : A) : (∃ a', setupkvm l a = .ok (none, a') ∧ Uses a a' ∧ Dry a) ∨
    ∃ d D a1 a', setupkvm l a = .ok (some (d, D), a') ∧ Pager.alloc a = (some d, a1) ∧ Uses a1 a' ∧ Mapped D 0 := by
  rcases ha : Pager.alloc a with ⟨_ | d, a1⟩
  · exact .inl ⟨a1, by simp only [setupkvm, ha], .of_alloc (.refl a) ha, .of_alloc ha⟩
  · have hempty : ∀ vb, KERNBASE / PGSIZE ≤ vb / PGSIZE → entry (fun _ => none) vb = none := fun _ _ => rfl
    obtain ⟨b, D, a', hl, hu, hd, he⟩ := kmap_spec (kmap_ascending l) hempty a1
    have hu1 : Uses a a1 := .of_alloc (.refl a) ha
    have hphys : ¬ DEVSPACE < KERNBASE + PHYSTOP := by
      simp only [DEVSPACE, KERNBASE, PHYSTOP]
      omega
    cases b with
    | false =>
      refine .inl ⟨freevm d D a', ?_, (hu1.trans hu).trans (freevm_uses d D a'), (hd rfl).of_uses hu1⟩
      simp only [setupkvm, ha, if_neg hphys, hl]
    | true =>
      refine .inr ⟨d, D, a1, a', ?_, rfl, hu, fun n hn => ?_⟩
      · simp only [setupkvm, ha, if_neg hphys, hl]
      · have hlow : n * PGSIZE / PGSIZE < KERNBASE / PGSIZE := by
          simp only [PGSIZE, KERNBASE] at hn ⊢
          omega
        rw [he _ hlow]
        simp [entry]

/-! ## `copyuvm` -/

theorem Mapped.entry_isSome (h : Mapped D sz) (hsz : sz ≤ KERNBASE) (hva : va % PGSIZE = 0) (hlt : va < sz) : (entry D va).isSome = true := by
  have hpage : va / PGSIZE * PGSIZE = va := Nat.div_mul_cancel (Nat.dvd_of_mod_eq_zero hva)
  have hm := h (va / PGSIZE) (by omega)
  rw [hpage] at hm
  exact hm.2 hlt

theorem Mapped.entry_none (h : Mapped D sz) (hva : va % PGSIZE = 0) (hle : sz ≤ va) (hlt : va < KERNBASE) : entry D va = none := by
  have hpage : va / PGSIZE * PGSIZE = va := Nat.div_mul_cancel (Nat.dvd_of_mod_eq_zero hva)
  have hm := h (va / PGSIZE) (by omega)
  rw [hpage] at hm
  rw [← Option.not_isSome_iff_eq_none, hm]
  omega

/-- one more page of a directory that maps the pages below `i` -/
theorem Mapped.add_page {D' : Dir} {i : ℕ} {e : Pte} (h : Mapped D (min i sz)) (hi : i % PGSIZE = 0) (hlt : i < sz)
    (he : ∀ vb, entry D' vb = if vb / PGSIZE = i / PGSIZE then some e else entry D vb) : Mapped D' (min (i + PGSIZE) sz) := by
  intro n hn
  have hm := h n hn
  rw [he, mul_PGSIZE_div]
  split
  · rename_i hin
    simp only [Option.isSome_some, true_iff]
    subst hin
    simp only [PGSIZE] at hi ⊢
    omega
  · rename_i hne
    rw [hm]
    simp only [PGSIZE] at hi hne ⊢
    omega

/-- the loop copies the pages from `i` on; the two panics are not reached, since the pages of the source are there -/
theorem copyLoop_spec {src : Dir} {i : ℕ} (hsrc : Mapped src sz) (hsz : sz ≤ KERNBASE) (hi : i % PGSIZE = 0)
    (hD : Mapped D (min i sz)) (a : A) : ∃ b D' a', copyLoop src sz i D a = .ok (b, D', a') ∧ Uses a a' ∧ (b = false → Dry a) ∧
      (b = true → Mapped D' sz) := by
  fun_induction copyLoop src sz i D a with
  | case1 i D a hlt _ _ hw =>
    obtain ⟨-, -, ⟨hd, -⟩ | ⟨t, -, hr⟩⟩ := walkpgdir_inv hw
    · have := hsrc.entry_isSome hsz hi hlt
      rw [entry_of_none hd] at this
      exact absurd this (by simp)
    · exact absurd hr (by simp)
  | case2 i D a hlt _ _ hw =>
    obtain ⟨-, -, ⟨-, hr⟩ | ⟨t, -, hr⟩⟩ := walkpgdir_inv hw
    · exact absurd hr (by simp)
    · have := hsrc.entry_isSome hsz hi hlt
      rw [← Option.some.inj hr] at this
      exact absurd this (by simp)
  | case3 i D a hlt e _ a1 hw a2 ha =>
    obtain ⟨-, rfl, -⟩ := walkpgdir_inv hw
    exact ⟨false, D, a2, rfl, .of_alloc (.refl _) ha, fun _ => .of_alloc ha, by simp⟩
  | case4 i D a hlt e _ a1 hw mem a2 ha err hm =>
    have hnone := hD.entry_none hi (min_le_left i sz) (by omega)
    rcases mappages_spec hi hnone mem e.perm a2 with ⟨_, h, _⟩ | ⟨_, _, h, _⟩ <;>
      exact absurd (hm.symm.trans h) (by simp)
  | case5 i D a hlt e _ a1 hw mem a2 ha D1 a3 hm =>
    obtain ⟨-, rfl, -⟩ := walkpgdir_inv hw
    have hnone := hD.entry_none hi (min_le_left i sz) (by omega)
    have hua : Uses a1 a2 := .of_alloc (.refl _) ha
    rcases mappages_spec hi hnone mem e.perm a2 with ⟨a4, h, hu, hdry⟩ | ⟨_, _, h, _⟩
    · obtain ⟨rfl, rfl⟩ : D1 = D ∧ a3 = a4 := by simpa [h] using hm.symm
      exact ⟨false, D1, _, rfl, .free mem (hua.trans hu), fun _ => hdry.of_uses hua, by simp⟩
    · exact absurd (hm.symm.trans h) (by simp)
  | case6 i D a hlt e _ a1 hw mem a2 ha D1 a3 hm ih =>
    obtain ⟨-, rfl, -⟩ := walkpgdir_inv hw
    have hnone := hD.entry_none hi (min_le_left i sz) (by omega)
    have hua : Uses a1 a2 := .of_alloc (.refl _) ha
    rcases mappages_spec hi hnone mem e.perm a2 with ⟨_, h, _⟩ | ⟨D2, a4, h, hu, he⟩
    · exact absurd (hm.symm.trans h) (by simp)
    · obtain ⟨rfl, rfl⟩ : D1 = D2 ∧ a3 = a4 := by simpa [h] using hm.symm
      obtain ⟨b, D3, a5, hl, hu', hdry, hmap⟩ := ih (by simp only [PGSIZE] at hi ⊢; omega) (hD.add_page hi hlt he)
      exact ⟨b, D3, a5, hl, (hua.trans hu).trans hu', fun hb => (hdry hb).of_uses (hua.trans hu), hmap⟩
  | case7 i D a hge =>
    rw [min_eq_right (by omega)] at hD
    exact ⟨true, D, a, rfl, .refl a, by simp, fun _ => hD⟩

/-- **Copying.** The copy maps the pages of the original. -/
theorem copyuvm_mapped {src : Dir} (hsrc : Mapped src sz) (hsz : sz ≤ KERNBASE) (l : Link) (a : A) :
    (∃ a', copyuvm l src sz a = .ok (none, a') ∧ Uses a a' ∧ Dry a) ∨
    ∃ d D a1 a', copyuvm l src sz a = .ok (some (d, D), a') ∧ Pager.alloc a = (some d, a1) ∧ Uses a1 a' ∧ Mapped D sz := by
  rcases setupkvm_mapped l a with ⟨a1, hs, hu, hdry⟩ | ⟨d, D, a1, a2, hs, ha, hu, hmap⟩
  · exact .inl ⟨a1, by simp only [copyuvm, hs], hu, hdry⟩
  · have hmin : Mapped D (min 0 sz) := by rwa [Nat.zero_min]
    have hua : Uses a a2 := (Uses.of_alloc (.refl a) ha).trans hu
    obtain ⟨b, D', a3, hl, hu', hdry, hcopy⟩ := copyLoop_spec hsrc hsz rfl hmin a2
    cases b with
    | false =>
      refine .inl ⟨freevm d D' a3, by simp only [copyuvm, hs, hl], ?_, (hdry rfl).of_uses hua⟩
      exact (hua.trans hu').trans (freevm_uses d D' a3)
    | true => exact .inr ⟨d, D', a1, a3, by simp only [copyuvm, hs, hl], ha, hu.trans hu', hcopy rfl⟩

/-- the first program occupies page 0 -/
theorem inituvm_mapped (h : Mapped D 0) (hsz : sz < PGSIZE) (hdry : ¬ Dry a) :
    ∃ D' a', inituvm D sz a = .ok (D', a') ∧ Uses a a' ∧ Mapped D' PGSIZE := by
  have hzero : 0 % PGSIZE = 0 := Nat.zero_mod _
  have hnone : entry D 0 = none := h.entry_none hzero (le_refl 0) (by decide)
  rcases ha : Pager.alloc a with ⟨_ | mem, a1⟩
  · exact absurd (Dry.of_alloc ha) hdry
  have hua : Uses a a1 := .of_alloc (.refl a) ha
  rcases mappages_spec hzero hnone mem ⟨true, true⟩ a1 with ⟨_, _, _, hd⟩ | ⟨D', a', hm, hu, he⟩
  · exact absurd (hd.of_uses hua) hdry
  · refine ⟨D', a', by simp only [inituvm, if_neg (not_le.2 hsz), ha, hm], hua.trans hu, ?_⟩
    have hmin : Mapped D (min 0 PGSIZE) := by rwa [Nat.zero_min]
    have hpage := hmin.add_page hzero (by decide) he
    rwa [Nat.zero_add, min_self] at hpage

/-! ## The allocator -/

section Uses

variable {D' : Dir} {a' : A}

theorem walkpgdir_uses {va : ℕ} {alloc : Bool} {r : Option (Option Pte)} (h : walkpgdir D va alloc a = (r, D', a')) : Uses a a' := by
  unfold walkpgdir at h
  split at h
  · cases h
    exact .refl _
  split at h
  · split at h <;> rename_i ha <;> cases h <;> exact .of_alloc (.refl a) ha
  · cases h
    exact .refl _

variable {pa : ℕ} {perm : Perm} {b : Bool}

theorem mapPage_uses {va : ℕ} (h : mapPage D va pa perm a = .ok (b, D', a')) : Uses a a' := by
  unfold mapPage at h
  split at h
  · rename_i hw
    cases h
    exact walkpgdir_uses hw
  · cases h
  · rename_i hw
    cases h
    exact walkpgdir_uses hw

theorem mappages_page_uses {va : ℕ} (hva : va % PGSIZE = 0) (h : mappages D va PGSIZE pa perm a = .ok (b, D', a')) : Uses a a' := by
  rw [mappages_page hva] at h
  exact mapPage_uses h

theorem allocLoop_uses {oldsz newsz va r : ℕ} (hva : va % PGSIZE = 0) (h : allocLoop oldsz newsz va D a = .ok (r, D', a')) : Uses a a' := by
  fun_induction allocLoop oldsz newsz va D a with
  | case1 va D a hlt a1 ha =>
    have hd : a' = (deallocuvm D newsz oldsz a1).2.2 := by
      simp only [Except.ok.injEq, Prod.mk.injEq] at h
      rw [h.2]
    rw [hd]
    exact (Uses.of_alloc (.refl a) ha).trans (deallocuvm_uses D newsz oldsz a1)
  | case2 va D a hlt mem a1 ha e hm => cases h
  | case3 va D a hlt mem a1 ha D1 a2 hm r D2 a3 hd =>
    cases h
    have hud := deallocuvm_uses D1 newsz oldsz a2
    rw [hd] at hud
    exact .free mem (((Uses.of_alloc (.refl a) ha).trans (mappages_page_uses hva hm)).trans hud)
  | case4 va D a hlt mem a1 ha D1 a2 hm ih =>
    have hrest := ih (by simp only [PGSIZE] at hva ⊢; omega) h
    exact ((Uses.of_alloc (.refl a) ha).trans (mappages_page_uses hva hm)).trans hrest
  | case5 va D a hge =>
    cases h
    exact .refl _

theorem allocuvm_uses {oldsz newsz r : ℕ} (h : allocuvm D oldsz newsz a = .ok (r, D', a')) : Uses a a' := by
  unfold allocuvm at h
  split at h
  · cases h
    exact .refl _
  split at h
  · cases h
    exact .refl _
  · exact allocLoop_uses (PGROUNDUP_mod oldsz) h

theorem copyLoop_uses {src : Dir} {sz i : ℕ} (hi : i % PGSIZE = 0) (h : copyLoop src sz i D a = .ok (b, D', a')) : Uses a a' := by
  fun_induction copyLoop src sz i D a with
  | case1 i D a hlt _ _ hw => cases h
  | case2 i D a hlt _ _ hw => cases h
  | case3 i D a hlt e _ a1 hw a2 ha =>
    cases h
    exact .of_alloc (walkpgdir_uses hw) ha
  | case4 i D a hlt e _ a1 hw mem a2 ha err hm => cases h
  | case5 i D a hlt e _ a1 hw mem a2 ha D1 a3 hm =>
    cases h
    exact .free mem ((Uses.of_alloc (walkpgdir_uses hw) ha).trans (mappages_page_uses hi hm))
  | case6 i D a hlt e _ a1 hw mem a2 ha D1 a3 hm ih =>
    have hrest := ih (by simp only [PGSIZE] at hi ⊢; omega) h
    exact ((Uses.of_alloc (walkpgdir_uses hw) ha).trans (mappages_page_uses hi hm)).trans hrest
  | case7 i D a hge =>
    cases h
    exact .refl _

/-- whatever is copied, a copy lives in a page of its own -/
theorem copyuvm_uses {src : Dir} {sz : ℕ} {l : Link} {r : Option (ℕ × Dir)} (h : copyuvm l src sz a = .ok (r, a')) :
    (r = none ∧ Uses a a') ∨ ∃ d D a1, r = some (d, D) ∧ Pager.alloc a = (some d, a1) ∧ Uses a1 a' := by
  unfold copyuvm at h
  rcases setupkvm_mapped l a with ⟨a1, hs, hu, -⟩ | ⟨d, D, a1, a2, hs, ha, hu, -⟩
  · simp only [hs] at h
    cases h
    exact .inl ⟨rfl, hu⟩
  · simp only [hs] at h
    split at h
    · cases h
    · rename_i hl
      cases h
      have hcopy := copyLoop_uses rfl hl
      exact .inl ⟨rfl, ((Uses.of_alloc (.refl a) ha).trans (hu.trans hcopy)).trans (freevm_uses _ _ _)⟩
    · rename_i hl
      cases h
      exact .inr ⟨d, _, a1, rfl, ha, hu.trans (copyLoop_uses rfl hl)⟩

end Uses

end Xv6.Kernel
