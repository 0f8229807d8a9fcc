/-
References to inodes while a call runs. The call owns a bag `R` of references and works on inodes `L` it has loaded; `H`
counts the references of everybody else, that is of current directories and open files. `F` are the inodes whose link count
the call has touched.

- `Quiet s₀ s`: nothing but the inode cache has changed since `s₀`.
-/
import Xv6.Fs.Trunc

namespace Xv6.FileSys

open Xv6.Core Xv6.Core.Prog
variable {sb : Superblock} {s₀ s s' : St} {x y : ℕ} {E : Panic → Prop} {H : ℕ → ℕ} {R : Multiset ℕ} {L F : List ℕ}

/-! ## One reference less -/

theorem St.ref_unref : ((s.unref x).icache y).ref = if y = x then (s.icache x).ref - 1 else (s.icache y).ref := by
  unfold St.unref St.setRef St.setInode
  by_cases hy : y = x
  · subst hy
    simp
  · simp [hy]

theorem St.valid_unref : ((s.unref x).icache y).valid = (s.icache y).valid := by
  unfold St.unref St.setRef St.setInode
  by_cases hy : y = x
  · subst hy
    simp
  · simp [hy]

theorem St.core_unref : (s.unref x).core y = s.core y := by
  unfold St.unref St.setRef St.setInode St.core
  by_cases hy : y = x
  · subst hy
    simp
  · simp [hy]

theorem St.loaded_unref (h : (s.unref x).Loaded y) : s.Loaded y := by
  unfold St.Loaded at h ⊢
  rw [St.ref_unref, St.valid_unref] at h
  refine ⟨?_, h.2⟩
  have hpos := h.1
  split at hpos
  · rename_i hy
    rw [hy]
    omega
  · exact hpos

/-- what the kernel sees of an inode does not depend on who refers to it -/
theorem Good.node_unref (h : Good sb ∅ s) : (s.unref x).node y = s.node y := by
  by_cases hl : s.Loaded y
  · by_cases hl' : (s.unref x).Loaded y
    · rw [St.node_of_loaded hl, St.node_of_loaded hl', St.core_unref]
    · rw [St.node_of_loaded hl, St.node_of_not_loaded hl']
      exact (h.coh y (Set.notMem_empty y) hl).symm
  · rw [St.node_of_not_loaded hl, St.node_of_not_loaded fun hl' => hl (St.loaded_unref hl')]
    rfl

/-- an order that depends on the inodes as the kernel sees them, on the blocks and on what is loaded -/
theorem Good.of_node (h : Good sb ∅ s) (hnode : ∀ y, s'.node y = s.node y) (hdata : s'.data = s.data)
    (hused : s'.used = s.used) (hl : ∀ y, s'.Loaded y → (s'.core y).type ≠ .free ∧ s'.core y = s'.dinode y) : Good sb ∅ s' := by
  have hslot : ∀ p, s'.slot p = s.slot p := by
    intro p
    unfold St.slot
    rw [hnode, hdata]
  refine ⟨?_, fun y hy hty => ?_, fun y hy hty => ?_, fun y hy => (hl y hy).1, fun y _ hy => (hl y hy).2⟩
  · rw [hused]
    exact h.pool.congr hslot
  · rw [hnode] at hty ⊢
    exact h.size y hy hty
  · rw [hnode] at hty ⊢
    rw [hdata]
    exact h.maps y hy hty

/-! ## The inode is freed -/

/-- what is left when `iput` has freed inode `x` -/
structure Freed (sb : Superblock) (x : ℕ) (s s' : St) : Prop where
  good : Good sb ∅ s'
  cache : ∀ y, y ≠ x → s'.icache y = s.icache y
  ref : (s'.icache x).ref = 0
  disk : ∀ y, y ≠ x → s'.dinode y = s.dinode y
  free : (s'.dinode x).type = .free
  nlink : (s'.dinode x).nlink = (s.core x).nlink
  data : s'.data = s.data
  live : s'.live = s.live - 1
  cwd : s'.cwd = s.cwd
  file : s'.file = s.file
  ofile : s'.ofile = s.ofile
  logged : ∀ c ∈ s'.logged, c ∈ s.logged ∨ (∃ b < sb.size, c = BBLOCK b sb) ∨ c = IBLOCK x sb

theorem Freed.node (h : Freed sb x s s') : s'.node x = s'.dinode x := by
  refine St.node_of_not_loaded fun hl => ?_
  have hpos := hl.1
  rw [h.ref] at hpos
  exact lt_irrefl 0 hpos

/-- the end of `iput`: the type is 0, on the disk too, and the entry is not valid any more -/
def St.freed (s : St) (sb : Superblock) (x : ℕ) : St :=
  ((s.update sb x { s.core x with type := .free }).setValid x false).unref x

theorem Emptied.freed (h : Emptied sb x s s') (hl : s.Loaded x) (href : (s.icache x).ref = 1) : Freed sb x s (s'.freed sb x) := by
  have hs := h.shrinks
  have hl' := hs.loaded.2 hl
  have href' : (s'.icache x).ref = 1 := hs.ref.trans href
  have hcache : ∀ y, y ≠ x → (s'.freed sb x).icache y = s'.icache y := by
    intro y hy
    simp [St.freed, St.unref, St.setRef, St.setValid, St.update, St.setInode, St.setCore, St.logWrite, St.setDinode, hy]
  have hrefx : ((s'.freed sb x).icache x).ref = 0 := by
    simp [St.freed, St.unref, St.setRef, St.setValid, St.update, St.setInode, St.setCore, St.logWrite, St.setDinode, href']
  have hdisk : ∀ y, y ≠ x → (s'.freed sb x).dinode y = s'.dinode y := fun y hy => update_of_ne hy ..
  have hdiskx : (s'.freed sb x).dinode x = { s'.core x with type := .free } :=
    show (s'.update sb x { s'.core x with type := .free }).dinode x = _ from St.dinode_update
  have hnot : ¬ (s'.freed sb x).Loaded x := fun hl => by
    have hpos := hl.1
    omega
  have hnode : (s'.freed sb x).node x = { s'.core x with type := .free } := (St.node_of_not_loaded hnot).trans hdiskx
  have hzero : ∀ i, s'.slot (x, i) = 0 := by
    intro i
    rw [St.slot_of_loaded hl']
    exact Dinode.slot_empty h.addrs i
  have hnodey : ∀ y, y ≠ x → (s'.freed sb x).node y = s'.node y := fun y hy => St.node_congr (hcache y hy) (hdisk y hy)
  have hslot : ∀ p, (s'.freed sb x).slot p = s'.slot p := by
    intro p
    obtain ⟨y, i⟩ := p
    by_cases hy : y = x
    · subst hy
      rw [hzero]
      unfold St.slot
      rw [hnode]
      exact Dinode.slot_free rfl
    · unfold St.slot
      rw [hnodey y hy]
      rfl
  have hgood : Good sb {x} (s'.freed sb x) :=
    (h.good.mono (Set.empty_subset _)).edit (Set.mem_singleton x) hcache hdisk (fun y hy i => hslot (y, i))
      (h.good.pool.congr hslot) fun hl => absurd hl hnot
  refine ⟨?_, fun y hy => (hcache y hy).trans (hs.cache y hy), hrefx, fun y hy => (hdisk y hy).trans (hs.disk y hy), ?_, ?_,
    hs.data, ?_, hs.cwd, hs.file, hs.ofile, fun c hc => ?_⟩
  · have htype : ((s'.freed sb x).node x).type = .free := by
      rw [hnode]
    exact hgood.close (fun hty => absurd htype hty) (fun hty => absurd htype hty) fun hl => absurd hl hnot
  · rw [hdiskx]
  · rw [hdiskx, hs.core]
  · simp [St.freed, St.unref, St.setRef, St.setValid, St.update, St.setInode, St.setCore, St.logWrite, St.setDinode, href',
      hs.live]
  · have hc : c ∈ insert (IBLOCK x sb) s'.logged := hc
    rcases Finset.mem_insert.1 hc with hc | hc
    · exact .inr (.inr hc)
    · exact hs.logged c hc

/-- **`iput`** drops a reference; the last one to a loaded inode without links frees it. -/
theorem iput_spec (h : Good sb ∅ s) (hpos : 0 < (s.icache x).ref) : Wp E (iput sb x) (fun _ s' =>
      (¬ (s.Loaded x ∧ (s.core x).nlink = 0 ∧ (s.icache x).ref = 1) ∧ s' = s.unref x) ∨
      ((s.Loaded x ∧ (s.core x).nlink = 0 ∧ (s.icache x).ref = 1) ∧ Freed sb x s s')) s := by
  unfold iput
  refine wp_bind.2 (wp_acquire.2 (wp_read.2 ?_))
  split
  · rename_i hvalid
    refine wp_read.2 ?_
    split
    · rename_i href
      have hl : s.Loaded x := ⟨hpos, hvalid.1⟩
      refine wp_seq (itrunc_spec (h.mono (Set.empty_subset _)) hl) fun _ s1 hs1 => ?_
      exact .inr ⟨⟨hl, hvalid.2, href⟩, hs1.freed hl href⟩
    · rename_i href
      exact .inl ⟨fun hall => href hall.2.2, rfl⟩
  · rename_i hvalid
    exact .inl ⟨fun hall => hvalid ⟨hall.1.2, hall.2.1⟩, rfl⟩

/-! ## What a call owns -/

/-- only the inode cache has changed, and what the kernel sees of the inodes is the same -/
structure Quiet (s s' : St) : Prop where
  node : s'.node = s.node
  disk : s'.dinode = s.dinode
  used : s'.used = s.used
  data : s'.data = s.data
  logged : s'.logged = s.logged
  outstanding : s'.outstanding = s.outstanding
  cwd : s'.cwd = s.cwd
  file : s'.file = s.file
  ofile : s'.ofile = s.ofile

theorem Quiet.refl (s : St) : Quiet s s := ⟨rfl, rfl, rfl, rfl, rfl, rfl, rfl, rfl, rfl⟩

theorem Quiet.trans {s'' : St} (h : Quiet s s') (h' : Quiet s' s'') : Quiet s s'' :=
  ⟨h'.node.trans h.node, h'.disk.trans h.disk, h'.used.trans h.used, h'.data.trans h.data, h'.logged.trans h.logged,
    h'.outstanding.trans h.outstanding, h'.cwd.trans h.cwd, h'.file.trans h.file, h'.ofile.trans h.ofile⟩

/-- an inode without links is held by somebody, and has been read, or its links are being worked on -/
def Linked (H : ℕ → ℕ) (F : List ℕ) (s : St) : Prop :=
  ∀ y, (s.node y).type ≠ .free → (s.node y).nlink = 0 → (0 < H y ∧ s.Loaded y) ∨ y ∈ F

structure Safe (sb : Superblock) (s₀ : St) (H : ℕ → ℕ) (R : Multiset ℕ) (L F : List ℕ) (s : St) : Prop where
  good : Good sb ∅ s
  quiet : Quiet s₀ s
  ref : ∀ x, (s.icache x).ref = H x + R.count x
  loaded : ∀ x ∈ L, s.Loaded x
  linked : Linked H F s
  nlink : ∀ y, short (s.node y).nlink = (s.node y).nlink

theorem Safe.ref_pos (h : Safe sb s₀ H R L F s) (hx : 0 < H x ∨ x ∈ R) : 0 < (s.icache x).ref := by
  rw [h.ref]
  rcases hx with hx | hx
  · omega
  · have hcount := Multiset.count_pos.2 hx
    omega

variable {L' : List ℕ}

/-- a step that leaves the disk alone -/
theorem Safe.step {R' : Multiset ℕ} (h : Safe sb s₀ H R L F s) (hq : Quiet s s')
    (hl : ∀ y, s'.Loaded y → (s'.core y).type ≠ .free ∧ s'.core y = s'.dinode y)
    (href : ∀ y, (s'.icache y).ref = H y + R'.count y) (hloaded : ∀ y ∈ L', s'.Loaded y)
    (hkeep : ∀ y, 0 < H y → s.Loaded y → s'.Loaded y) : Safe sb s₀ H R' L' F s' := by
  refine ⟨h.good.of_node (congrFun hq.node) hq.data hq.used hl, h.quiet.trans hq, href, hloaded, fun y hty hzero => ?_,
    fun y => ?_⟩
  · rw [hq.node] at hty hzero
    exact (h.linked y hty hzero).imp_left fun hy => ⟨hy.1, hkeep y hy.1 hy.2⟩
  · rw [hq.node]
    exact h.nlink y

/-- the entries that a quiet step leaves loaded are as they were -/
theorem Safe.loaded_ok (h : Safe sb s₀ H R L F s) (hl : s.Loaded y) :
    (s.core y).type ≠ .free ∧ s.core y = s.dinode y :=
  ⟨h.good.typ y hl, h.good.coh y (Set.notMem_empty y) hl⟩

/-- the base may be forgotten -/
theorem Safe.base (h : Safe sb s₀ H R L F s) : Safe sb s H R L F s :=
  ⟨h.good, .refl s, h.ref, h.loaded, h.linked, h.nlink⟩

theorem Safe.mono (h : Safe sb s₀ H R L F s) (hL : ∀ y ∈ L', y ∈ L) : Safe sb s₀ H R L' F s :=
  ⟨h.good, h.quiet, h.ref, fun y hy => h.loaded y (hL y hy), h.linked, h.nlink⟩

/-- the call takes over a reference; the inode may be without links only if it has been read -/
theorem Safe.take {H' : ℕ → ℕ} (h : Safe sb s₀ H R L F s) (hsum : ∀ y, H y = H' y + Multiset.count y {x}) :
    ∃ L' F', (x ∈ F' → x ∈ F ∨ x ∈ L') ∧ (∀ y ∈ F', y = x ∨ y ∈ F) ∧ (∀ y ∈ L, y ∈ L') ∧
      Safe sb s₀ H' (x ::ₘ R) L' F' s := by
  have href : ∀ y, (s.icache y).ref = H' y + Multiset.count y (x ::ₘ R) := by
    intro y
    rw [h.ref, hsum, Multiset.count_cons, Multiset.count_singleton]
    omega
  -- anybody else who was held still is
  have hkeep : ∀ y, y ≠ x → 0 < H y → 0 < H' y := by
    intro y hy hpos
    have h1 := hsum y
    rw [Multiset.count_singleton, if_neg hy] at h1
    omega
  by_cases hl : s.Loaded x
  · refine ⟨x :: L, x :: F, fun _ => .inr List.mem_cons_self, fun y hy => List.mem_cons.1 hy,
      fun y hy => List.mem_cons_of_mem x hy,
      ⟨h.good, h.quiet, href, fun y hy => ?_, fun y hty hzero => ?_, h.nlink⟩⟩
    · rcases List.mem_cons.1 hy with rfl | hy
      · exact hl
      · exact h.loaded y hy
    · by_cases hyx : y = x
      · exact .inr (hyx ▸ List.mem_cons_self)
      · exact (h.linked y hty hzero).imp (fun hy => ⟨hkeep y hyx hy.1, hy.2⟩) fun hmem => List.mem_cons_of_mem x hmem
  · refine ⟨L, F, .inl, fun y hy => .inr hy, fun _ => id,
      ⟨h.good, h.quiet, href, h.loaded, fun y hty hzero => ?_, h.nlink⟩⟩
    exact (h.linked y hty hzero).imp_left fun hy => ⟨hkeep y (fun heq => hl (heq ▸ hy.2)) hy.1, hy.2⟩

/-! ## References and locks -/

theorem St.ref_setRef {n : ℕ} : ((s.setRef x n).icache y).ref = if y = x then n else (s.icache y).ref := by
  unfold St.setRef St.setInode
  by_cases hy : y = x
  · subst hy
    simp
  · simp [hy]

/-- more references to an inode that is in the cache -/
theorem quiet_setRef {n : ℕ} (hpos : 0 < (s.icache x).ref) (hn : 0 < n) :
    Quiet s (s.setRef x n) ∧ (∀ y, (s.setRef x n).Loaded y ↔ s.Loaded y) ∧ ∀ y, (s.setRef x n).core y = s.core y := by
  have hcore : ∀ y, (s.setRef x n).core y = s.core y := by
    intro y
    unfold St.setRef St.setInode St.core
    by_cases hy : y = x
    · subst hy
      simp
    · simp [hy]
  have hloaded : ∀ y, (s.setRef x n).Loaded y ↔ s.Loaded y := by
    intro y
    unfold St.Loaded St.setRef St.setInode
    by_cases hy : y = x
    · subst hy
      simp [hpos, hn]
    · simp [hy]
  refine ⟨⟨funext fun y => ?_, rfl, rfl, rfl, rfl, rfl, rfl, rfl, rfl⟩, hloaded, hcore⟩
  by_cases hl : s.Loaded y
  · rw [St.node_of_loaded hl, St.node_of_loaded ((hloaded y).2 hl), hcore]
  · rw [St.node_of_not_loaded hl, St.node_of_not_loaded fun hl' => hl ((hloaded y).1 hl')]
    rfl

theorem Safe.incref (h : Safe sb s₀ H R L F s) (hpos : 0 < (s.icache x).ref) :
    Safe sb s₀ H (x ::ₘ R) L F (s.setRef x ((s.icache x).ref + 1)) := by
  obtain ⟨hq, hl, hcore⟩ := quiet_setRef (n := (s.icache x).ref + 1) hpos (Nat.succ_pos _)
  refine h.step hq (fun y hy => ?_) (fun y => ?_) (fun y hy => (hl y).2 (h.loaded y hy)) fun y _ => (hl y).2
  · rw [hcore]
    exact h.loaded_ok ((hl y).1 hy)
  · rw [St.ref_setRef, Multiset.count_cons]
    have href := h.ref y
    split
    · rename_i hy
      subst hy
      omega
    · omega

/-- the state after a new entry has been made for inode `x` -/
def St.entry (s : St) (x : ℕ) : St :=
  { s.setInode x { s.icache x with ref := 1, valid := false } with live := s.live + 1 }

theorem Safe.entry (h : Safe sb s₀ H R L F s) (hzero : (s.icache x).ref = 0) : Safe sb s₀ H (x ::ₘ R) L F (s.entry x) := by
  have hother : ∀ y, y ≠ x → (s.entry x).icache y = s.icache y := fun y hy => St.icache_setInode hy
  have hself : (s.entry x).icache x = { s.icache x with ref := 1, valid := false } := update_self ..
  have hnot : ¬ s.Loaded x := fun hl => by
    have hpos := hl.1
    omega
  have hnot' : ¬ (s.entry x).Loaded x := by
    unfold St.Loaded
    rw [hself]
    simp
  have hloaded : ∀ y, (s.entry x).Loaded y → y ≠ x ∧ s.Loaded y := by
    intro y hl
    have hy : y ≠ x := fun heq => hnot' (heq ▸ hl)
    exact ⟨hy, (St.loaded_congr (hother y hy)).1 hl⟩
  have hq : Quiet s (s.entry x) := by
    refine ⟨funext fun y => ?_, rfl, rfl, rfl, rfl, rfl, rfl, rfl, rfl⟩
    by_cases hy : y = x
    · rw [hy, St.node_of_not_loaded hnot, St.node_of_not_loaded hnot']
      rfl
    · exact St.node_congr (hother y hy) rfl
  have hkeep : ∀ y, s.Loaded y → (s.entry x).Loaded y := by
    intro y hl
    have hne : y ≠ x := fun heq => hnot (heq ▸ hl)
    exact (St.loaded_congr (hother y hne)).2 hl
  refine h.step hq (fun y hl => ?_) (fun y => ?_) (fun y hy => hkeep y (h.loaded y hy)) fun y _ => hkeep y
  · obtain ⟨hy, hl⟩ := hloaded y hl
    have hcore : (s.entry x).core y = s.core y := congrArg Inode.d (hother y hy)
    rw [hcore]
    exact h.loaded_ok hl
  · rw [Multiset.count_cons]
    have href := h.ref y
    by_cases hy : y = x
    · subst hy
      rw [hself, if_pos rfl]
      simp only
      omega
    · rw [hother y hy, if_neg hy]
      exact href

/-- the state after `iget` -/
def St.igot (s : St) (x : ℕ) : St := if 0 < (s.icache x).ref then s.setRef x ((s.icache x).ref + 1) else s.entry x

theorem iget_igot (hE : E .iget ∨ s.live < NINODE) : Wp E (iget x) (fun _ s' => s' = s.igot x) s := by
  unfold iget St.igot
  refine wp_bind.2 (wp_atomic.2 ?_)
  split
  · rfl
  · split
    · rfl
    · rename_i hfull
      exact hE.resolve_right hfull

theorem Safe.igot (h : Safe sb s₀ H R L F s) (x : ℕ) : Safe sb s₀ H (x ::ₘ R) L F (s.igot x) := by
  unfold St.igot
  split
  · rename_i hpos
    exact h.incref hpos
  · rename_i hzero
    exact h.entry (Nat.eq_zero_of_not_pos hzero)

theorem iget_spec (hE : E .iget) (h : Safe sb s₀ H R L F s) (x : ℕ) :
    Wp E (iget x) (fun _ s' => Safe sb s₀ H (x ::ₘ R) L F s') s :=
  wp_mono (iget_igot (.inl hE)) fun _ _ hs' => hs' ▸ h.igot x

theorem idup_spec (h : Safe sb s₀ H R L F s) (hx : 0 < H x ∨ x ∈ R) :
    Wp E (idup x) (fun _ s' => Safe sb s₀ H (x ::ₘ R) L F s') s :=
  h.incref (h.ref_pos hx)

/-- the state after an inode has been read from the disk -/
def St.load (s : St) (x : ℕ) : St := s.setInode x { s.icache x with valid := true, d := s.dinode x }

theorem St.icache_load : (s.load x).icache x = { s.icache x with valid := true, d := s.dinode x } :=
  update_self ..

theorem St.core_load : (s.load x).core x = s.dinode x := congrArg Inode.d St.icache_load

theorem St.icache_load_ne (hy : y ≠ x) : (s.load x).icache y = s.icache y := St.icache_setInode hy

theorem St.loaded_load (hpos : 0 < (s.icache x).ref) : (s.load x).Loaded x := by
  unfold St.Loaded
  rw [St.icache_load]
  exact ⟨hpos, rfl⟩

theorem St.ref_load : ((s.load x).icache y).ref = (s.icache y).ref := by
  by_cases hy : y = x
  · rw [hy, St.icache_load]
  · rw [St.icache_load_ne hy]

theorem St.not_loaded (hvalid : (s.icache x).valid = false) : ¬ s.Loaded x := fun hl => by
  rw [hl.2] at hvalid
  cases hvalid

/-- reading an inode from the disk changes nothing that the kernel sees -/
theorem Quiet.load (hvalid : (s.icache x).valid = false) (hpos : 0 < (s.icache x).ref) : Quiet s (s.load x) := by
  refine ⟨funext fun y => ?_, rfl, rfl, rfl, rfl, rfl, rfl, rfl, rfl⟩
  by_cases hy : y = x
  · rw [hy, St.node_of_not_loaded (St.not_loaded hvalid), St.node_of_loaded (St.loaded_load hpos), St.core_load]
  · exact St.node_congr (St.icache_load_ne hy) rfl

theorem St.loaded_load_of (hpos : 0 < (s.icache x).ref) (hl : s.Loaded y) : (s.load x).Loaded y := by
  by_cases hy : y = x
  · rw [hy]
    exact St.loaded_load hpos
  · exact (St.loaded_congr (St.icache_load_ne hy)).2 hl

/-- what is loaded agrees with the disk -/
theorem Good.load_ok (h : Good sb ∅ s) (hty : (s.dinode x).type ≠ .free) (hl : (s.load x).Loaded y) :
    ((s.load x).core y).type ≠ .free ∧ (s.load x).core y = (s.load x).dinode y := by
  by_cases hy : y = x
  · rw [hy, St.core_load]
    exact ⟨hty, rfl⟩
  · have hcore : (s.load x).core y = s.core y := congrArg Inode.d (St.icache_load_ne hy)
    have hl' : s.Loaded y := (St.loaded_congr (St.icache_load_ne hy)).1 hl
    rw [hcore]
    exact ⟨h.typ y hl', h.coh y (Set.notMem_empty y) hl'⟩

theorem Safe.load (h : Safe sb s₀ H R L F s) (hvalid : (s.icache x).valid = false) (hty : (s.dinode x).type ≠ .free)
    (hpos : 0 < (s.icache x).ref) : Safe sb s₀ H R (x :: L) F (s.load x) := by
  refine h.step (.load hvalid hpos) (fun y hly => h.good.load_ok hty hly) (fun y => ?_) (fun y hy => ?_)
    fun y _ => St.loaded_load_of hpos
  · rw [St.ref_load]
    exact h.ref y
  · rcases List.mem_cons.1 hy with rfl | hy
    · exact St.loaded_load hpos
    · exact St.loaded_load_of hpos (h.loaded y hy)

/-- `ilock` of an inode that the call or somebody holds a reference to -/
theorem ilock_spec (hE : E .ilockNoType ∨ (s₀.node x).type ≠ .free) (h : Safe sb s₀ H R L F s) (hx : 0 < H x ∨ x ∈ R) :
    Wp E (ilock x) (fun _ s' => Safe sb s₀ H R (x :: L) F s') s := by
  have hpos := h.ref_pos hx
  unfold ilock
  refine wp_read.2 ?_
  rw [if_neg (by omega)]
  refine wp_bind.2 (wp_acquire.2 (wp_read.2 ?_))
  split
  · rename_i hvalid
    refine ⟨h.good, h.quiet, h.ref, fun y hy => ?_, h.linked, h.nlink⟩
    rcases List.mem_cons.1 hy with rfl | hy
    · exact ⟨hpos, hvalid⟩
    · exact h.loaded y hy
  · rename_i hvalid
    have hvalid := Bool.eq_false_iff.2 hvalid
    refine wp_write.2 (wp_read.2 ?_)
    change Wp E (if ((s.load x).core x).type = .free then _ else _) _ (s.load x)
    rw [St.core_load]
    split
    · rename_i hfree
      refine wp_panic.2 (hE.resolve_right fun hty => hty ?_)
      rw [← h.quiet.node, St.node_of_not_loaded (St.not_loaded hvalid)]
      exact hfree
    · rename_i hty
      exact h.load hvalid hty hpos

theorem iunlock_spec (h : Safe sb s₀ H R L F s) (hx : 0 < H x ∨ x ∈ R) : Wp E (iunlock x) (fun _ s' => Safe sb s₀ H R L F s') s := by
  have hpos := h.ref_pos hx
  unfold iunlock
  refine wp_read.2 ?_
  rw [if_neg (by omega)]
  exact h

/-- one of the call's references goes -/
theorem Safe.unref (h : Safe sb s₀ H (x ::ₘ R) L F s) (hL : x ∈ L → 0 < H x ∨ x ∈ R) : Safe sb s₀ H R L F (s.unref x) := by
  have hq : Quiet s (s.unref x) := ⟨funext fun y => h.good.node_unref, rfl, rfl, rfl, rfl, rfl, rfl, rfl, rfl⟩
  have href : ∀ y, ((s.unref x).icache y).ref = H y + R.count y := by
    intro y
    rw [St.ref_unref]
    have hcount := h.ref y
    rw [Multiset.count_cons] at hcount
    split
    · rename_i hy
      subst hy
      rw [if_pos rfl] at hcount
      omega
    · rename_i hy
      rw [if_neg hy] at hcount
      exact hcount
  -- an entry that is still referred to stays loaded
  have hkeep : ∀ y, (y = x → 0 < H x ∨ x ∈ R) → s.Loaded y → (s.unref x).Loaded y := by
    intro y hsome hl
    refine ⟨?_, St.valid_unref.trans hl.2⟩
    by_cases hyx : y = x
    · rw [href y, hyx]
      rcases hsome hyx with hpos | hmem
      · omega
      · have hcount := Multiset.count_pos.2 hmem
        omega
    · rw [St.ref_unref, if_neg hyx]
      exact hl.1
  refine h.step hq (fun y hl => ?_) href (fun y hy => hkeep y (fun heq => hL (heq ▸ hy)) (h.loaded y hy))
    fun y hpos => hkeep y fun heq => .inl (heq ▸ hpos)
  have hl' := St.loaded_unref hl
  rw [St.core_unref]
  exact h.loaded_ok hl'

/-- **An inode that was only looked at is not freed.** -/
theorem iput_unref (h : Safe sb s₀ H (x ::ₘ R) L F s) (hF : x ∈ F → 0 < H x ∨ x ∈ R) : Wp E (iput sb x) (fun _ s' => s' = s.unref x) s := by
  have href := h.ref x
  rw [Multiset.count_cons_self] at href
  refine wp_mono (iput_spec h.good (by omega)) fun _ s' hs' => ?_
  rcases hs' with ⟨-, rfl⟩ | ⟨⟨hl, hlink, hone⟩, -⟩
  · rfl
  · -- a free inode would have been somebody's
    have hnode := St.node_of_loaded hl
    have hsome : 0 < H x ∨ x ∈ R := by
      rcases h.linked x (hnode ▸ h.good.typ x hl) (hnode ▸ hlink) with hpos | hmem
      · exact .inl hpos.1
      · exact hF hmem
    rcases hsome with hpos | hmem
    · omega
    · have hcount := Multiset.count_pos.2 hmem
      omega

theorem iput_quiet (h : Safe sb s₀ H (x ::ₘ R) L F s) (hF : x ∈ F → 0 < H x ∨ x ∈ R) (hL : x ∈ L → 0 < H x ∨ x ∈ R) :
    Wp E (iput sb x) (fun _ s' => Safe sb s₀ H R L F s') s :=
  wp_mono (iput_unref h hF) fun _ _ hs' => hs' ▸ h.unref hL

variable {F' : List ℕ}

/-- **`iput`, whatever it does.** What the call keeps stays loaded, and an inode without links that it keeps stays in `F`. -/
theorem iput_any (h : Safe sb s₀ H (x ::ₘ R) L F s) (hx : x ∈ F → x ∈ L)
    (hL : ∀ y ∈ L', y ∈ L ∧ (y = x → 0 < H x ∨ x ∈ R)) (hF : ∀ y ∈ F, (y = x → x ∈ R) → y ∈ F') :
    Wp E (iput sb x) (fun _ s' => Safe sb s' H R L' F' s' ∧ (Quiet s s' ∨
      (s.Loaded x ∧ (s.core x).nlink = 0 ∧ (s.icache x).ref = 1 ∧ H x = 0 ∧ Freed sb x s s'))) s := by
  have href := h.ref x
  rw [Multiset.count_cons_self] at href
  refine wp_mono (iput_spec h.good (by omega)) fun _ s' hs' => ?_
  rcases hs' with ⟨hnot, rfl⟩ | ⟨⟨hl, hlink, hone⟩, hfreed⟩
  · have hsafe := ((h.mono fun y hy => (hL y hy).1).base).unref fun hmem => (hL x hmem).2 rfl
    refine ⟨⟨hsafe.good, .refl _, hsafe.ref, hsafe.loaded, fun y hty hzero => ?_, hsafe.nlink⟩, .inl hsafe.quiet⟩
    rcases hsafe.linked y hty hzero with hpos | hmem
    · exact .inl hpos
    · by_cases hyx : y = x
      · subst hyx
        by_cases hR : y ∈ R
        · exact .inr (hF y hmem fun _ => hR)
        · -- it would have been freed
          have hly := h.loaded y (hx hmem)
          rw [h.good.node_unref, St.node_of_loaded hly] at hzero
          have hcount := Multiset.count_eq_zero.2 hR
          have hpos : 0 < H y := Nat.pos_of_ne_zero fun hH => hnot ⟨hly, hzero, by omega⟩
          refine .inl ⟨hpos, ?_, St.valid_unref.trans hly.2⟩
          rw [hsafe.ref]
          omega
      · exact .inr (hF y hmem fun heq => absurd heq hyx)
  · have hR : x ∉ R := fun hmem => by
      have hcount := Multiset.count_pos.2 hmem
      omega
    have hH : H x = 0 := by
      omega
    have hother : ∀ y, y ≠ x → s'.node y = s.node y := fun y hy => St.node_congr (hfreed.cache y hy) (hfreed.disk y hy)
    refine ⟨⟨hfreed.good, .refl s', fun y => ?_, fun y hy => ?_, fun y hty hzero => ?_, fun y => ?_⟩,
      .inr ⟨hl, hlink, hone, hH, hfreed⟩⟩
    · by_cases hyx : y = x
      · subst hyx
        rw [hfreed.ref]
        omega
      · have hry := h.ref y
        rw [hfreed.cache y hyx, hry, Multiset.count_cons_of_ne hyx]
    · obtain ⟨hmem, hkeep⟩ := hL y hy
      have hyx : y ≠ x := fun heq => (hkeep heq).elim (fun hpos => hpos.ne' hH) hR
      exact (St.loaded_congr (hfreed.cache y hyx)).2 (h.loaded y hmem)
    · have hyx : y ≠ x := by
        rintro rfl
        rw [hfreed.node] at hty
        exact hty hfreed.free
      rw [hother y hyx] at hty hzero
      exact (h.linked y hty hzero).imp (fun hpos => ⟨hpos.1, (St.loaded_congr (hfreed.cache y hyx)).2 hpos.2⟩)
        fun hmem => hF y hmem fun heq => absurd heq hyx
    · by_cases hyx : y = x
      · rw [hyx, hfreed.node, hfreed.nlink, hlink]
        rfl
      · rw [hother y hyx]
        exact h.nlink y

/-! ## Changes to one inode -/

/-- inode `x` has changed on the disk; a new base -/
theorem Safe.change (h : Safe sb s₀ H R L F s) (hgood : Good sb ∅ s')
    (href : ∀ y, (s'.icache y).ref = (s.icache y).ref) (hvalid : ∀ y, (s'.icache y).valid = (s.icache y).valid)
    (hnode : ∀ y, y ≠ x → s'.node y = s.node y) (hF : ∀ y, y ≠ x → y ∈ F → y ∈ F')
    (hx : (s'.node x).type ≠ .free → (s'.node x).nlink = 0 → (0 < H x ∧ s.Loaded x) ∨ x ∈ F')
    (hshort : short (s'.node x).nlink = (s'.node x).nlink) : Safe sb s' H R L F' s' := by
  have hl : ∀ y, s.Loaded y → s'.Loaded y := by
    intro y hly
    unfold St.Loaded
    rw [href, hvalid]
    exact hly
  refine ⟨hgood, .refl s', fun y => (href y).trans (h.ref y), fun y hy => hl y (h.loaded y hy), fun y hty hlink => ?_,
    fun y => ?_⟩
  · by_cases hy : y = x
    · subst hy
      exact (hx hty hlink).imp_left fun hpos => ⟨hpos.1, hl y hpos.2⟩
    · rw [hnode y hy] at hty hlink
      exact (h.linked y hty hlink).imp (fun hpos => ⟨hpos.1, hl y hpos.2⟩) (hF y hy)
  · by_cases hy : y = x
    · subst hy
      exact hshort
    · rw [hnode y hy]
      exact h.nlink y

variable {off : ℕ} {src : List UInt8}

theorem Written.loaded (h : Written sb x off src s s') (y : ℕ) : s'.Loaded y ↔ s.Loaded y := by
  by_cases hy : y = x
  · subst hy
    unfold St.Loaded
    rw [h.ref, h.valid]
  · exact St.loaded_congr (h.cache y hy)

theorem Safe.written (h : Safe sb s₀ H R L F s) (hx : x ∈ L) (hw : Written sb x off src s s') : Safe sb s' H R L F s' := by
  have hl := h.loaded x hx
  have hnode : s'.node x = s'.core x := St.node_of_loaded ((hw.loaded x).2 hl)
  have hlink : (s'.node x).nlink = (s.node x).nlink := by
    rw [hnode, hw.core, St.node_of_loaded hl]
  have htype : (s'.node x).type = (s.node x).type := by
    rw [hnode, hw.core, St.node_of_loaded hl]
  refine h.change hw.good (fun y => ?_) (fun y => ?_) (fun y hy => St.node_congr (hw.cache y hy) (hw.disk y hy))
    (fun _ _ => id) (fun hty hzero => ?_) ?_
  · by_cases hy : y = x
    · rw [hy, hw.ref]
    · rw [hw.cache y hy]
  · by_cases hy : y = x
    · rw [hy, hw.valid]
    · rw [hw.cache y hy]
  · rw [htype] at hty
    rw [hlink] at hzero
    exact h.linked x hty hzero
  · rw [hlink]
    exact h.nlink x

theorem short_idem (n : ℤ) : short (short n) = short n := by
  unfold short
  omega

/-- `nlink`, `major` or `minor` of a loaded inode change, in the cache and on the disk -/
theorem Safe.update {d : Dinode} (h : Safe sb s₀ H R L F s) (hx : x ∈ L) (hty : d.type = (s.core x).type)
    (haddr : d.addrs = (s.core x).addrs) (hsize : d.size = (s.core x).size) (hshort : short d.nlink = d.nlink)
    (hF : ∀ y, y ≠ x → y ∈ F → y ∈ F') (hlink : d.nlink = 0 → 0 < H x ∨ x ∈ F') : Safe sb (s.update sb x d) H R L F' (s.update sb x d) := by
  have hl := h.loaded x hx
  have hnode := St.node_of_loaded hl
  have htyx := h.good.typ x hl
  have hnode' : (s.update sb x d).node x = d := (St.node_of_loaded (St.loaded_update.2 hl)).trans St.core_update
  have hmaps := h.good.maps x (Set.notMem_empty x) (hnode ▸ htyx)
  have hsz := h.good.size x (Set.notMem_empty x) (hnode ▸ htyx)
  rw [hnode, ← hsize] at hmaps hsz
  refine h.change ((h.good.mono (Set.empty_subset _)).update hl hty haddr hsz hmaps) (fun y => St.ref_setCore)
    (fun y => St.valid_setCore) (fun y hy => ?_) hF (fun _ hzero => ?_) ?_
  · exact St.node_congr (St.icache_setInode hy) (update_of_ne hy ..)
  · rw [hnode'] at hzero
    exact (hlink hzero).imp_left fun hpos => ⟨hpos, hl⟩
  · rw [hnode']
    exact hshort

/-! ## New inodes -/

/-- the state after `ialloc` has found inode `x` free -/
def St.typed (s : St) (sb : Superblock) (x : ℕ) (type : Ty) : St :=
  (s.setDinode x { Dinode.zero with type := type }).logWrite (IBLOCK x sb)

variable {type : Ty}

theorem Safe.typed (h : Safe sb s₀ H R L F s) (hfree : (s.dinode x).type = .free) :
    Safe sb (s.typed sb x type) H R L (x :: F) (s.typed sb x type) ∧ ¬ s.Loaded x := by
  have hnot : ¬ s.Loaded x := by
    intro hl
    obtain ⟨hty, heq⟩ := h.loaded_ok hl
    rw [heq] at hty
    exact hty hfree
  have hnot' : ¬ (s.typed sb x type).Loaded x := hnot
  have hdisk : (s.typed sb x type).dinode x = { Dinode.zero with type := type } := update_self ..
  have hnodex : (s.typed sb x type).node x = { Dinode.zero with type := type } :=
    (St.node_of_not_loaded hnot').trans hdisk
  have hnode : ∀ y, y ≠ x → (s.typed sb x type).node y = s.node y := fun y hy =>
    St.node_congr rfl (update_of_ne hy ..)
  have hzero : ∀ i, s.slot (x, i) = 0 := by
    intro i
    unfold St.slot
    rw [St.node_of_not_loaded hnot]
    exact Dinode.slot_free hfree
  have hzero' : ∀ i, ((s.typed sb x type).node x).slot (s.typed sb x type).data i = 0 := by
    intro i
    rw [hnodex]
    exact Dinode.slot_zero fun _ => rfl
  have hslot : ∀ p, (s.typed sb x type).slot p = s.slot p := by
    intro p
    obtain ⟨y, i⟩ := p
    by_cases hy : y = x
    · subst hy
      rw [hzero]
      exact hzero' i
    · unfold St.slot
      rw [hnode y hy]
      rfl
  have hgood : Good sb {x} (s.typed sb x type) :=
    (h.good.mono (Set.empty_subset _)).edit (Set.mem_singleton x) (fun _ _ => rfl)
      (fun y hy => update_of_ne hy ..) (fun y _ i => hslot (y, i)) (h.good.pool.congr hslot)
      fun hl => absurd hl hnot'
  have hsize : ((s.typed sb x type).node x).size = 0 := by
    rw [hnodex]
    rfl
  refine ⟨h.change (hgood.close (fun _ => ?_) (fun _ => ?_) fun hl => absurd hl hnot') (fun _ => rfl) (fun _ => rfl) hnode
    (fun _ _ hy => List.mem_cons_of_mem x hy) (fun _ _ => .inr List.mem_cons_self) ?_, hnot⟩
  · rw [hsize]
    exact Nat.zero_le _
  · rw [hsize]
    exact maps_zero hzero'
  · rw [hnodex]
    rfl

/-- what `ialloc` leaves: an inode that was free has the type, no links, and a reference of the call's -/
theorem iallocFrom_spec (hEi : E .ialloc) (hEg : E .iget) (h : Safe sb s₀ H R L F s) (xs : List ℕ) :
    Wp E (iallocFrom sb type xs) (fun x s' => x ∈ xs ∧ (s.dinode x).type = .free ∧
      Safe sb (s.typed sb x type) H (x ::ₘ R) L (x :: F) s') s := by
  induction xs with
  | nil => exact hEi
  | cons x xs ih =>
    unfold iallocFrom
    refine wp_bind.2 (wp_atomic.2 ?_)
    by_cases hfree : (s.dinode x).type = .free
    · rw [if_pos hfree, if_pos rfl]
      refine wp_seq (iget_spec hEg (h.typed hfree).1 x) fun _ s' hs' => ?_
      exact ⟨List.mem_cons_self, hfree, hs'⟩
    · rw [if_neg hfree]
      refine wp_mono ih fun y s' hs' => ?_
      exact ⟨List.mem_cons_of_mem x hs'.1, hs'.2⟩

theorem ialloc_spec (hEi : E .ialloc) (hEg : E .iget) (h : Safe sb s₀ H R L F s) :
    Wp E (ialloc sb type) (fun x s' => x ∈ List.range' 1 (sb.ninodes - 1) ∧ (s.dinode x).type = .free ∧
      Safe sb (s.typed sb x type) H (x ::ₘ R) L (x :: F) s') s :=
  iallocFrom_spec hEi hEg h _

end Xv6.FileSys
