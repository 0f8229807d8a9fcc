/-
Building a new user image (`exec.c`).

The file's program headers and whether each read of the file is complete are arguments (`Seg`), as is the outcome of
copying the arguments to the new stack; the bytes themselves are not modelled.
-/
import Xv6.Kernel.Mapped

namespace Xv6.Kernel

open Xv6.Core

variable {A : Type} [Pager A]

/-- a program header as the loop of `exec` meets it; its numbers have 32 bits -/
structure Seg where
  /-- the header could be read -/
  header : Bool
  /-- `ELF_PROG_LOAD` -/
  load : Bool
  memsz : ℕ
  filesz : ℕ
  vaddr : ℕ
  memsz_lt : memsz < 2 ^ 32
  vaddr_lt : vaddr < 2 ^ 32
  /-- the bytes for the page at this offset could be read -/
  readi : ℕ → Bool

/-- the size after a segment; `none` is `goto bad` -/
def loadSeg (s : Seg) (sz : ℕ) (D : Dir) (a : A) : Except Panic (Option ℕ × Dir × A) :=
  if s.header = false then .ok (none, D, a)
  else if s.load = false then .ok (some sz, D, a)
  else if s.memsz < s.filesz then .ok (none, D, a)
  else if (s.vaddr + s.memsz) % 2 ^ 32 < s.vaddr then .ok (none, D, a)
  else
    match allocuvm D sz ((s.vaddr + s.memsz) % 2 ^ 32) a with
    | .error e => .error e
    | .ok (sz, D, a) =>
      if sz = 0 then .ok (none, D, a)
      else if s.vaddr % PGSIZE ≠ 0 then .ok (none, D, a)
      else
        match loaduvm D s.vaddr s.filesz s.readi with
        | .error e => .error e
        | .ok false => .ok (none, D, a)
        | .ok true => .ok (some sz, D, a)

/-- one round of the loop over the program headers -/
def segStep (r : Except Panic (Option ℕ × Dir × A)) (s : Seg) : Except Panic (Option ℕ × Dir × A) :=
  match r with
  | .ok (some sz, D, a) => loadSeg s sz D a
  | r => r

/-- two more pages at the next page boundary, the first without `PTE_U` -/
def allocStack (sz : ℕ) (D : Dir) (a : A) : Except Panic (Option ℕ × Dir × A) :=
  match allocuvm D (PGROUNDUP sz) (PGROUNDUP sz + 2 * PGSIZE) a with
  | .error e => .error e
  | .ok (sz, D, a) =>
    if sz = 0 then .ok (none, D, a)
    else
      match clearpteu D (sz - 2 * PGSIZE) with
      | .error e => .error e
      | .ok D => .ok (some sz, D, a)

/-- what `exec` builds: the program's segments, the stack, and the arguments on it, in a new directory -/
def image (l : Link) (segs : List Seg) (args : Bool) (a : A) : Except Panic (Option (ℕ × Dir × ℕ) × A) :=
  match setupkvm l a with
  | .error e => .error e
  | .ok (none, a) => .ok (none, a)
  | .ok (some (d, D), a) =>
    match segs.foldl segStep (.ok (some 0, D, a)) with
    | .error e => .error e
    | .ok (none, D, a) => .ok (none, freevm d D a)
    | .ok (some sz, D, a) =>
      match allocStack sz D a with
      | .error e => .error e
      | .ok (none, D, a) => .ok (none, freevm d D a)
      | .ok (some sz, D, a) => if args then .ok (some (d, D, sz), a) else .ok (none, freevm d D a)

/-! ## The new image maps the pages below its size -/

variable {D : Dir} {a : A}

/-- a mapped page has a page table -/
theorem table_of_entry {va : ℕ} (h : (entry D va).isSome = true) : ∃ t, D (PDX va) = some t := by
  cases hd : D (PDX va) with
  | none => exact absurd h (by simp [entry_of_none hd])
  | some t => exact ⟨t, rfl⟩

variable {sz : ℕ}

theorem loadLoop_ok {addr : ℕ} (readi : ℕ → Bool) (i : ℕ)
    (h : ∀ j, j < sz → (entry D (addr + j)).isSome = true) : ∃ b, loadLoop D addr sz readi i = .ok b := by
  fun_induction loadLoop D addr sz readi i with
  | case1 i hlt hd =>
    obtain ⟨t, ht⟩ := table_of_entry (h i hlt)
    exact absurd (hd.symm.trans ht) (by simp)
  | case2 i hlt t hd hr ih => exact ih
  | case3 i hlt t hd hr => exact ⟨false, rfl⟩
  | case4 i hge => exact ⟨true, rfl⟩

theorem Mapped.isSome_of_lt {va : ℕ} (h : Mapped D sz) (hsz : sz ≤ KERNBASE) (hlt : va < sz) : (entry D va).isSome = true := by
  have hpage : va / PGSIZE * PGSIZE ≤ va := Nat.div_mul_le_self va PGSIZE
  rw [entry_congr (mul_PGSIZE_div (va / PGSIZE)).symm]
  exact (h (va / PGSIZE) (by omega)).2 (by omega)

/-- what a loading step may return: a failure with the directory in any state, or a size with the pages below it -/
def Loaded (a : A) (r : Except Panic (Option ℕ × Dir × A)) : Prop :=
  ∃ o D a', r = .ok (o, D, a') ∧ Uses a a' ∧ ∀ sz, o = some sz → Mapped D sz ∧ sz < KERNBASE

theorem loadSeg_loaded (h : Mapped D sz) (hsz : sz < KERNBASE) (s : Seg) (a : A) : Loaded a (loadSeg s sz D a) := by
  have hbad : ∀ (D' : Dir) (a' : A), Uses a a' → Loaded a (.ok (none, D', a')) :=
    fun D' a' hu => ⟨none, D', a', rfl, hu, by simp⟩
  unfold loadSeg
  split
  · exact hbad D a (.refl a)
  split
  · exact ⟨some sz, D, a, rfl, .refl a, fun _ he => Option.some.inj he ▸ ⟨h, hsz⟩⟩
  split
  · exact hbad D a (.refl a)
  split
  · exact hbad D a (.refl a)
  rename_i hfile hwrap
  rcases allocuvm_mapped h hsz.le ((s.vaddr + s.memsz) % 2 ^ 32) a with
    ⟨D', a', he, hu, -⟩ | ⟨D', a', he, hu, hmap, hlt⟩
  · rw [he]
    simp only [if_true]
    exact hbad D' a' hu
  · rw [he]
    simp only
    split
    · exact hbad D' a' hu
    split
    · exact hbad D' a' hu
    rename_i hpos halign
    have hmax : max sz ((s.vaddr + s.memsz) % 2 ^ 32) < KERNBASE := by omega
    -- every byte of the segment lies below the new size
    have hbytes : ∀ j, j < s.filesz → (entry D' (s.vaddr + j)).isSome = true := by
      intro j hj
      have hmem := s.memsz_lt
      have hva := s.vaddr_lt
      apply hmap.isSome_of_lt hmax.le
      have hsum : (s.vaddr + s.memsz) % 2 ^ 32 = s.vaddr + s.memsz := by omega
      rw [hsum]
      omega
    obtain ⟨b, hb⟩ := loadLoop_ok s.readi 0 hbytes
    have hload : loaduvm D' s.vaddr s.filesz s.readi = .ok b := by
      rw [loaduvm, if_neg halign, hb]
    rw [hload]
    cases b with
    | false => exact hbad D' a' hu
    | true => exact ⟨_, D', a', rfl, hu, fun _ he => Option.some.inj he ▸ ⟨hmap, hmax⟩⟩

theorem segs_loaded (h : Mapped D sz) (hsz : sz < KERNBASE) (segs : List Seg) (a : A) :
    Loaded a (segs.foldl segStep (.ok (some sz, D, a))) := by
  induction segs generalizing sz D a with
  | nil => exact ⟨some sz, D, a, rfl, .refl a, fun _ he => Option.some.inj he ▸ ⟨h, hsz⟩⟩
  | cons s segs ih =>
    obtain ⟨o, D1, a1, hs, hu, ho⟩ := loadSeg_loaded h hsz s a
    rw [List.foldl_cons, segStep, hs]
    cases o with
    | none =>
      have hstuck : ∀ ss : List Seg, ss.foldl segStep (.ok (none, D1, a1)) = .ok (none, D1, a1) := by
        intro ss
        induction ss with
        | nil => rfl
        | cons _ _ ih => exact ih
      exact ⟨none, D1, a1, hstuck segs, hu, by simp⟩
    | some sz1 =>
      obtain ⟨h1, hsz1⟩ := ho sz1 rfl
      obtain ⟨o, D2, a2, hl, hu2, ho2⟩ := ih h1 hsz1 a1
      exact ⟨o, D2, a2, hl, hu.trans hu2, ho2⟩

/-- a size and its page boundary have the same pages below them -/
theorem Mapped.roundup (h : Mapped D sz) (hsz : sz < KERNBASE) : Mapped D (PGROUNDUP sz) := by
  intro n hn
  rw [h n hn]
  simp only [PGROUNDUP, PGSIZE, KERNBASE] at hsz ⊢
  omega

theorem Mapped.clearpteu {uva : ℕ} (h : Mapped D sz) (hsz : sz ≤ KERNBASE) (hlt : uva < sz) :
    ∃ D', clearpteu D uva = .ok D' ∧ Mapped D' sz := by
  obtain ⟨t, ht⟩ := table_of_entry (h.isSome_of_lt hsz hlt)
  refine ⟨_, by rw [Kernel.clearpteu, ht], fun n hn => ?_⟩
  rw [entry_setPte ht, ← h n hn]
  split
  · rename_i hpage
    rw [entry_congr hpage, entry_of_some ht, Option.isSome_map]
  · rfl

theorem allocStack_loaded (h : Mapped D sz) (hsz : sz < KERNBASE) (a : A) : Loaded a (allocStack sz D a) := by
  have hround : PGROUNDUP sz ≤ KERNBASE := by
    simp only [PGROUNDUP, PGSIZE, KERNBASE] at hsz ⊢
    omega
  unfold allocStack
  rcases allocuvm_mapped (h.roundup hsz) hround (PGROUNDUP sz + 2 * PGSIZE) a with
    ⟨D', a', he, hu, -⟩ | ⟨D', a', he, hu, hmap, hlt⟩
  · rw [he]
    simp only [if_true]
    exact ⟨none, D', a', rfl, hu, by simp⟩
  · rw [max_eq_right (by omega)] at he hmap
    have hpos : 0 < PGSIZE := by decide
    obtain ⟨D2, hc, hmap2⟩ := hmap.clearpteu hlt.le
      (by omega : PGROUNDUP sz + 2 * PGSIZE - 2 * PGSIZE < PGROUNDUP sz + 2 * PGSIZE)
    rw [he]
    simp only [if_neg (by omega : ¬ PGROUNDUP sz + 2 * PGSIZE = 0), hc]
    exact ⟨_, D2, a', rfl, hu, fun _ he => Option.some.inj he ▸ ⟨hmap2, hlt⟩⟩

theorem allocStack_zero (h : Mapped D 0) (hdry : ¬ Dry a) : ∃ D' a', allocStack 0 D a = .ok (some (2 * PGSIZE), D', a') := by
  have hzero : PGROUNDUP 0 = 0 := by decide
  unfold allocStack
  rw [hzero, Nat.zero_add]
  rcases allocuvm_mapped h (by decide) (2 * PGSIZE) a with ⟨_, _, _, _, _, hbad⟩ | ⟨D', a', he, -, hmap, hlt⟩
  · rcases hbad with hbig | hd
    · exact absurd hbig (by decide)
    · exact absurd hd hdry
  · rw [Nat.zero_max] at he hmap
    obtain ⟨D2, hc, -⟩ := hmap.clearpteu hlt.le (by decide : 2 * PGSIZE - 2 * PGSIZE < 2 * PGSIZE)
    rw [he]
    simp only [if_neg (by decide : ¬ 2 * PGSIZE = 0), hc]
    exact ⟨D2, a', rfl⟩

/-- **A new image.** No panic is reached; the image is given up, or it maps the pages below its size. -/
theorem image_mapped (l : Link) (segs : List Seg) (args : Bool) (a : A) : (∃ a', image l segs args a = .ok (none, a') ∧ Uses a a') ∨
    ∃ d D sz a1 a', image l segs args a = .ok (some (d, D, sz), a') ∧ Pager.alloc a = (some d, a1) ∧ Uses a1 a' ∧
      Mapped D sz ∧ sz < KERNBASE := by
  unfold image
  rcases setupkvm_mapped l a with ⟨a1, hs, hu, -⟩ | ⟨d, D, a1, a2, hs, ha, hu, hmap⟩
  · exact .inl ⟨a1, by rw [hs], hu⟩
  simp only [hs]
  have hua : Uses a a1 := .of_alloc (.refl a) ha
  obtain ⟨o, D3, a3, hl, hu3, ho⟩ := segs_loaded hmap (by decide : 0 < KERNBASE) segs a2
  simp only [hl]
  cases o with
  | none => exact .inl ⟨_, rfl, (hua.trans (hu.trans hu3)).trans (freevm_uses d D3 a3)⟩
  | some sz =>
    obtain ⟨hmap3, hsz3⟩ := ho sz rfl
    obtain ⟨o, D4, a4, hst, hu4, ho4⟩ := allocStack_loaded hmap3 hsz3 a3
    have hu14 : Uses a1 a4 := hu.trans (hu3.trans hu4)
    have hfree : Uses a (freevm d D4 a4) := (hua.trans hu14).trans (freevm_uses d D4 a4)
    simp only [hst]
    cases o with
    | none => exact .inl ⟨_, rfl, hfree⟩
    | some sz' =>
      obtain ⟨hmap4, hsz4⟩ := ho4 sz' rfl
      cases args with
      | false => exact .inl ⟨_, rfl, hfree⟩
      | true => exact .inr ⟨d, D4, sz', a1, a4, rfl, ha, hu14, hmap4, hsz4⟩

/-- with memory to spare, a file without segments still gets its stack -/
theorem image_nil (l : Link) (hdry : ¬ Dry a) : ∃ d D sz a', image l [] true a = .ok (some (d, D, sz), a') := by
  rcases setupkvm_mapped l a with ⟨_, _, _, hd⟩ | ⟨d, D, a1, a2, hs, ha, hu, hmap⟩
  · exact absurd hd hdry
  have hdry2 : ¬ Dry a2 := fun hd => hdry (hd.of_uses ((Uses.of_alloc (.refl a) ha).trans hu))
  obtain ⟨D3, a3, hst⟩ := allocStack_zero hmap hdry2
  refine ⟨d, D3, 2 * PGSIZE, a3, ?_⟩
  simp only [image, hs, List.foldl_nil, hst, if_true]

end Xv6.Kernel
