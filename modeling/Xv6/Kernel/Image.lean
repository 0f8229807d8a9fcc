/-
The address space that `exec` builds, before the arguments go on its stack (`image` of `Kernel.Exec`).
-/
import Xv6.Kernel.Exec
import Xv6.Kernel.Halves

namespace Xv6.Kernel

open Xv6.Core

variable {A : Type} [Pager A] {D D' : Dir} {a a' : A} {sz : ℕ}

/-! ## Segments and stack -/

variable {o : Option ℕ}

/-- a program header leaves the directory alone, or grows it -/
theorem loadSeg_cases {g : Seg} (h : loadSeg g sz D a = .ok (o, D', a')) :
    D' = D ∧ a' = a ∨ ∃ r, allocuvm D sz ((g.vaddr + g.memsz) % 2 ^ 32) a = .ok (r, D', a') := by
  unfold loadSeg at h
  split at h
  · cases h
    exact .inl ⟨rfl, rfl⟩
  split at h
  · cases h
    exact .inl ⟨rfl, rfl⟩
  split at h
  · cases h
    exact .inl ⟨rfl, rfl⟩
  split at h
  · cases h
    exact .inl ⟨rfl, rfl⟩
  split at h
  · cases h
  rename_i r D1 a1 hr
  split at h
  · cases h
    exact .inr ⟨r, hr⟩
  split at h
  · cases h
    exact .inr ⟨r, hr⟩
  split at h
  · cases h
  all_goals
    cases h
    exact .inr ⟨r, hr⟩

variable {segs : List Seg}

/-- **Loop rule.** A relation that `allocuvm` respects is respected by the loop over the program headers. -/
theorem segs_rel {R : Dir → A → Dir → A → Prop} (hrefl : ∀ D a, R D a D a)
    (htrans : ∀ D a D1 a1 D2 a2, R D a D1 a1 → R D1 a1 D2 a2 → R D a D2 a2)
    (halloc : ∀ D a oldsz newsz r D' a', allocuvm D oldsz newsz a = .ok (r, D', a') → R D a D' a')
    (h : segs.foldl segStep (.ok (some sz, D, a)) = .ok (o, D', a')) : R D a D' a' := by
  have hstuck : ∀ (r : Except Panic (Option ℕ × Dir × A)), (∀ sz D a, r ≠ .ok (some sz, D, a)) →
      ∀ segs : List Seg, segs.foldl segStep r = r := by
    intro r hr segs
    induction segs with
    | nil => rfl
    | cons g segs ih =>
      rw [List.foldl_cons, segStep]
      · exact ih
      · exact hr
  induction segs generalizing sz D a with
  | nil =>
    cases h
    exact hrefl _ _
  | cons g segs ih =>
    rw [List.foldl_cons, segStep] at h
    have hfirst : ∀ o D1 a1, loadSeg g sz D a = .ok (o, D1, a1) → R D a D1 a1 := by
      intro o D1 a1 hg
      rcases loadSeg_cases hg with ⟨rfl, rfl⟩ | ⟨r, hr⟩
      · exact hrefl _ _
      · exact halloc _ _ _ _ _ _ _ hr
    rcases hg : loadSeg g sz D a with e | ⟨_ | sz1, D1, a1⟩
    · rw [hg, hstuck _ fun _ _ _ he => by cases he] at h
      cases h
    · rw [hg, hstuck _ fun _ _ _ he => by cases he] at h
      cases h
      exact hfirst _ _ _ hg
    · rw [hg] at h
      exact htrans _ _ _ _ _ _ (hfirst _ _ _ hg) (ih h)

theorem segs_upper (h : segs.foldl segStep (.ok (some sz, D, a)) = .ok (o, D', a')) :
    SameUpper D D' :=
  segs_rel (R := fun D _ D' _ => SameUpper D D') (fun D _ => .refl D) (fun _ _ _ _ _ _ h h' => h.trans h')
    (fun _ _ _ _ _ _ _ h => allocuvm_upper h) h

/-- pages have moved between the free ones and the directory, and none was lost -/
def Conserved (D : Dir) (a : Frames) (D' : Dir) (a' : Frames) : Prop := a'.pool + dirPages D' = a.pool + dirPages D

theorem segs_conserved {a a' : Frames} (h : segs.foldl segStep (.ok (some sz, D, a)) = .ok (o, D', a')) : Conserved D a D' a' := by
  refine segs_rel (R := Conserved) (fun D a => ?_) (fun D a D1 a1 D2 a2 h1 h2 => ?_) (fun D a oldsz newsz r D' a' hr => ?_) h
  · exact Eq.refl (a.pool + dirPages D)
  · exact Eq.trans h2 h1
  · exact allocuvm_pool hr

/-- the stack is there: two pages more, the first without `PTE_U` -/
theorem allocStack_some {r : ℕ} (h : allocStack sz D a = .ok (some r, D', a')) :
    ∃ D1, allocuvm D (PGROUNDUP sz) (PGROUNDUP sz + 2 * PGSIZE) a = .ok (r, D1, a') ∧ r ≠ 0 ∧ clearpteu D1 (r - 2 * PGSIZE) = .ok D' := by
  unfold allocStack at h
  split at h
  · cases h
  split at h
  · cases h
  split at h
  · cases h
  · rename_i hr hz _ _ hc
    cases h
    exact ⟨_, hr, hz, hc⟩

theorem allocStack_none (h : allocStack sz D a = .ok (none, D', a')) :
    allocuvm D (PGROUNDUP sz) (PGROUNDUP sz + 2 * PGSIZE) a = .ok (0, D', a') := by
  unfold allocStack at h
  split at h
  · cases h
  rename_i hr
  split at h
  · rename_i hz
    cases h
    rw [hr, hz]
  split at h <;> cases h

/-- what is left of the entry -/
theorem clearpteu_entry {uva : ℕ} (h : clearpteu D uva = .ok D') (vb : ℕ) :
    entry D' vb = if vb / PGSIZE = uva / PGSIZE
      then (entry D uva).map fun e => { e with perm := { e.perm with u := false } } else entry D vb := by
  unfold clearpteu at h
  split at h
  · cases h
  · rename_i t ht
    cases h
    rw [entry_setPte ht, entry_of_some ht]

theorem clearpteu_pages {uva : ℕ} (hlt : uva < KERNBASE) (h : clearpteu D uva = .ok D') : dirPages D' = dirPages D := by
  have hentry := clearpteu_entry h
  have hother : ∀ vb, vb / PGSIZE ≠ uva / PGSIZE → entry D' vb = entry D vb := fun vb hvb => by rw [hentry, if_neg hvb]
  have hpage : held Pte.page (entry D' uva) = held Pte.page (entry D uva) := by
    rw [hentry, if_pos rfl]
    cases entry D uva with
    | none => rfl
    | some e => rfl
  have huser := userPages_change hlt hother
  rw [hpage] at huser
  have htables : tablePages D' = tablePages D := by
    unfold clearpteu at h
    split at h
    · cases h
    · cases h
      exact tablePages_setPte _
  unfold dirPages
  rw [htables, add_right_cancel huser]

/-! ## The image -/

variable {l : Link} {d : ℕ}

theorem setupkvm_empty (h : setupkvm l a = .ok (some (d, D), a')) : Mapped D 0 := by
  rcases setupkvm_mapped l a with ⟨_, hs, -⟩ | ⟨_, _, _, _, hs, -, -, hm⟩
  · rw [h] at hs
    cases hs
  · rw [h] at hs
    cases hs
    exact hm

/-- the address space that `exec` has built -/
structure NewImage (D : Dir) (sz : ℕ) : Prop where
  mapped : Mapped D sz
  small : sz < KERNBASE
  large : 2 * PGSIZE ≤ sz
  aligned : sz % PGSIZE = 0
  half : KernelHalf D
  guard : ¬ User D (sz - 2 * PGSIZE)
  stack : User D (sz - PGSIZE)

theorem allocStack_new (hmap : Mapped D sz) (hsz : sz < KERNBASE) (hhalf : KernelHalf D) {r : ℕ}
    (h : allocStack sz D a = .ok (some r, D', a')) : NewImage D' r := by
  obtain ⟨o, D0, a0, hall, -, ho⟩ := allocStack_loaded hmap hsz a
  rw [h] at hall
  cases hall
  obtain ⟨hmap', hr⟩ := ho r rfl
  obtain ⟨D1, halloc, hz, hclear⟩ := allocStack_some h
  have hround : PGROUNDUP sz ≤ KERNBASE := by
    simp only [PGROUNDUP, PGSIZE, KERNBASE] at hsz ⊢
    omega
  have hsize : r = PGROUNDUP sz + 2 * PGSIZE := by
    rcases allocuvm_mapped (hmap.roundup hsz) hround (PGROUNDUP sz + 2 * PGSIZE) a with ⟨_, _, he, -⟩ | ⟨_, _, he, -⟩
    · rw [halloc] at he
      cases he
      exact absurd rfl hz
    · rw [halloc, max_eq_right (Nat.le_add_right _ _)] at he
      cases he
      rfl
  have hmod := PGROUNDUP_mod sz
  have hnew : ∀ vb, PGROUNDUP sz ≤ vb → vb < r → ∃ p, entry D1 vb = some ⟨p, ⟨true, true⟩⟩ := by
    intro vb hlo hhi
    have hin := allocuvm_new hround halloc hz vb
    rw [if_pos] at hin
    · exact hin
    · refine ⟨?_, by simp only [PGSIZE] at hsize hmod ⊢; omega⟩
      have hup : PGROUNDUP (PGROUNDUP sz) = PGROUNDUP sz := by
        simp only [PGROUNDUP, PGSIZE, KERNBASE] at hround ⊢
        omega
      rw [hup]
      exact Nat.div_le_div_right hlo
  have hentry := clearpteu_entry hclear
  refine ⟨hmap', hr, by omega, ?_, ?_, ?_, ?_⟩
  · simp only [PGSIZE] at hsize hmod ⊢
    omega
  · exact (hhalf.upper (allocuvm_upper halloc)).upper (clearpteu_upper (by omega) hclear)
  · rintro ⟨e, he, hu⟩
    rw [hentry, if_pos rfl] at he
    obtain ⟨e', -, rfl⟩ := Option.map_eq_some_iff.1 he
    cases hu
  · obtain ⟨p, hp⟩ := hnew (r - PGSIZE) (by simp only [PGSIZE] at hsize ⊢; omega) (by simp only [PGSIZE] at hsize ⊢; omega)
    refine ⟨⟨p, ⟨true, true⟩⟩, ?_, rfl⟩
    rw [hentry, if_neg]
    · exact hp
    · simp only [PGSIZE] at hsize hmod ⊢
      omega

variable {args : Bool}

/-- **A new image.** -/
theorem image_new (h : image l segs args a = .ok (some (d, D, sz), a')) : NewImage D sz := by
  unfold image at h
  split at h
  · cases h
  · cases h
  rename_i d0 D0 a0 hs
  obtain ⟨o, D1, a1, hl, -, ho⟩ := segs_loaded (setupkvm_empty hs) (by decide : 0 < KERNBASE) segs a0
  have hhalf : KernelHalf D1 := (setupkvm_kernelHalf hs).upper (segs_upper hl)
  rw [hl] at h
  cases o with
  | none => cases h
  | some sz1 =>
    obtain ⟨hmap1, hsz1⟩ := ho sz1 rfl
    dsimp only at h
    split at h
    · cases h
    · cases h
    · rename_i hst
      split at h
      · cases h
        exact allocStack_new hmap1 hsz1 hhalf hst
      · cases h

/-! ## Its pages -/

/-- the pages of an image, if there is one -/
def imagePages (r : Option (ℕ × Dir × ℕ)) : Multiset ℕ := r.elim 0 fun x => {x.1} + dirPages x.2.1

theorem allocStack_conserved {a a' : Frames} (hmap : Mapped D sz) (hsz : sz < KERNBASE)
    (h : allocStack sz D a = .ok (o, D', a')) : Conserved D a D' a' := by
  cases o with
  | none =>
    exact allocuvm_pool (allocStack_none h)
  | some r =>
    obtain ⟨D1, hr, hz, hc⟩ := allocStack_some h
    have hlt : r < KERNBASE := by
      obtain ⟨o, D0, a0, hall, -, ho⟩ := allocStack_loaded hmap hsz a
      rw [h] at hall
      cases hall
      exact (ho r rfl).2
    unfold Conserved
    rw [clearpteu_pages (by omega) hc]
    exact allocuvm_pool hr

/-- **The pages of an image** are what the allocator has less, and an image that was given up has left nothing behind. -/
theorem image_pool {a a' : Frames} {r : Option (ℕ × Dir × ℕ)} (h : image l segs args a = .ok (r, a')) : a'.pool + imagePages r = a.pool := by
  have hgiven : ∀ {d : ℕ} {D0 D : Dir} {a0 a1 : Frames}, setupkvm l a = .ok (some (d, D0), a0) → Conserved D0 a0 D a1 →
      a1.pool + ({d} + dirPages D) = a.pool := by
    intro d D0 D a0 a1 hs hkept
    have hmade := setupkvm_pool hs
    calc a1.pool + ({d} + dirPages D) = {d} + (a1.pool + dirPages D) := by abel
      _ = {d} + (a0.pool + dirPages D0) := by rw [hkept]
      _ = a0.pool + ({d} + dirPages D0) := by abel
      _ = a.pool := hmade
  have hback : ∀ {d : ℕ} {D : Dir} {a1 : Frames}, a1.pool + ({d} + dirPages D) = a.pool →
      (freevm d D a1).pool + imagePages none = a.pool := by
    intro d D a1 hall
    rw [freevm_pool, hall]
    exact add_zero _
  unfold image at h
  split at h
  · cases h
  · rename_i hs
    cases h
    exact setupkvm_pool hs
  rename_i d0 D0 a0 hs
  obtain ⟨o, D1, a1, hl, -, ho⟩ := segs_loaded (setupkvm_empty hs) (by decide : 0 < KERNBASE) segs a0
  have hsegs := segs_conserved hl
  rw [hl] at h
  cases o with
  | none =>
    cases h
    exact hback (hgiven hs hsegs)
  | some sz1 =>
    obtain ⟨hmap1, hsz1⟩ := ho sz1 rfl
    dsimp only at h
    split at h
    · cases h
    · rename_i hst
      cases h
      exact hback (hgiven hs (Eq.trans (allocStack_conserved hmap1 hsz1 hst) hsegs))
    · rename_i hst
      have hall := hgiven hs (Eq.trans (allocStack_conserved hmap1 hsz1 hst) hsegs)
      split at h
      · cases h
        exact hall
      · cases h
        exact hback hall

theorem image_proper {a a' : Frames} (hnodup : a.free.Nodup) (h : image l segs args a = .ok (some (d, D, sz), a')) : Proper D := by
  refine (image_new h).half.proper fun p => ?_
  have hpool := congrArg (Multiset.count p) (image_pool h)
  have hpages : Multiset.count p (imagePages (some (d, D, sz))) =
      Multiset.count p {d} + (Multiset.count p (tablePages D) + Multiset.count p (userPages D)) := by
    change Multiset.count p ({d} + dirPages D) = _
    rw [dirPages, Multiset.count_add, Multiset.count_add]
  have hone : Multiset.count p a.pool ≤ 1 := Multiset.nodup_iff_count_le_one.1 (Multiset.coe_nodup.2 hnodup) p
  rw [Multiset.count_add, hpages] at hpool
  omega

theorem allocStack_enough {f : Frames} (h : Mapped D 0) (hg : Granting f) (hplenty : Plenty D f) :
    ∃ D' f', allocStack 0 D f = .ok (some (2 * PGSIZE), D', f') := by
  obtain ⟨o, D', f', hst, -, -⟩ := allocStack_loaded h (by decide) f
  cases o with
  | none =>
    have hsize := allocuvm_enough hg hplenty (Nat.le_add_right _ _) (by decide) (allocStack_none hst)
    exact absurd hsize (by decide)
  | some r =>
    obtain ⟨D1, hr, -⟩ := allocStack_some hst
    have hsize := allocuvm_enough hg hplenty (Nat.le_add_right _ _) (by decide) hr
    have hzero : PGROUNDUP 0 + 2 * PGSIZE = 2 * PGSIZE := by decide
    rw [hzero] at hsize
    rw [hsize] at hst
    exact ⟨D', f', hst⟩

theorem image_enough (l : Link) {f : Frames} (hg : Granting f) (hlen : NPDENTRIES + KERNBASE / PGSIZE + 2 < f.free.length) :
    ∃ d D f', image l [] true f = .ok (some (d, D, 2 * PGSIZE), f') := by
  have htables : NPDENTRIES + 1 < f.free.length := by
    generalize KERNBASE / PGSIZE = n at hlen
    omega
  obtain ⟨d, D, f1, hs⟩ := setupkvm_enough l hg htables
  have hgrant : Granting f1 := by
    rcases setupkvm_mapped l f with ⟨_, hs', -⟩ | ⟨_, _, _, _, hs', ha, hu, -⟩
    · rw [hs] at hs'
      cases hs'
    · rw [hs] at hs'
      cases hs'
      exact hg.uses ((Uses.of_alloc (.refl f) ha).trans hu)
  have hplenty : Plenty D f1 := by
    have hpool := congrArg Multiset.card (setupkvm_pool hs)
    have hmade : made (some (d, D)) = {d} + dirPages D := rfl
    have hlength : Multiset.card f.pool = f.free.length := Multiset.coe_card _
    rw [hmade, Multiset.card_add, Multiset.card_add, Multiset.card_singleton] at hpool
    unfold Plenty
    omega
  obtain ⟨D1, f2, hst⟩ := allocStack_enough (setupkvm_empty hs) hgrant hplenty
  exact ⟨d, D1, f2, by simp only [image, hs, List.foldl_nil, hst, if_true]⟩

end Xv6.Kernel
