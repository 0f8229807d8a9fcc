/-
Who owns a block. Each place that can name a block (an entry of `addrs`, an entry of an indirect block) is the only one
that names it, and the free map marks exactly the blocks that are named.
-/
import Xv6.Core.Pool
import Xv6.Fs.Dir

namespace Xv6.FileSys

open Xv6.Core Xv6.Core.Prog
/-! ## Words in a block -/

theorem word_setWord_self (b : Data) (j : ℕ) {v : ℕ} (hv : v < 2 ^ 32) : word (setWord b j v) j = v := by
  have h0 : setWord b j v (4 * j) = UInt8.ofNat v := by
    simp [setWord]
  have h1 : setWord b j v (4 * j + 1) = UInt8.ofNat (v / 2 ^ 8) := by
    simp [setWord]
  have h2 : setWord b j v (4 * j + 2) = UInt8.ofNat (v / 2 ^ 16) := by
    simp [setWord]
  have h3 : setWord b j v (4 * j + 3) = UInt8.ofNat (v / 2 ^ 24) := by
    simp [setWord]
  unfold word
  rw [h0, h1, h2, h3]
  simp only [UInt8.toNat_ofNat']
  omega

theorem setWord_of_ne (b : Data) {j i : ℕ} (v : ℕ) (h : i / 4 ≠ j) : setWord b j v i = b i := by
  unfold setWord
  rw [update_of_ne (by omega), update_of_ne (by omega), update_of_ne (by omega),
    update_of_ne (by omega)]

theorem word_setWord_ne (b : Data) {j k : ℕ} (v : ℕ) (h : k ≠ j) : word (setWord b j v) k = word b k := by
  unfold word
  rw [setWord_of_ne b v (by omega), setWord_of_ne b v (by omega), setWord_of_ne b v (by omega),
    setWord_of_ne b v (by omega)]

theorem word_zero (j : ℕ) : word (fun _ => 0) j = 0 := by
  simp [word]

/-! ## Places -/

/-- the block that an inode names at place `i`: 0 to 12 are the entries of `addrs`, and 13 on those of the indirect block -/
def Dinode.slot (d : Dinode) (data : ℕ → Data) (i : ℕ) : ℕ :=
  if d.type = .free then 0
  else if i ≤ NDIRECT then d.addrs i
  else if i ≤ MAXFILE ∧ d.addrs NDIRECT ≠ 0 then word (data (d.addrs NDIRECT)) (i - (NDIRECT + 1))
  else 0

/-- the place that names file block `bn` -/
def place (bn : ℕ) : ℕ := if bn < NDIRECT then bn else bn + 1

/-- the place is needed for the first `n` blocks of a file -/
def Needed (n i : ℕ) : Prop := if i < NDIRECT then i < n else if i = NDIRECT then NDIRECT < n else i ≤ n

/-- the blocks of a file of that size -/
def blocks (size : ℕ) : ℕ := (size + BSIZE - 1) / BSIZE

/-- the first `n` blocks of the file are mapped and no others -/
def Dinode.Maps (d : Dinode) (data : ℕ → Data) (n : ℕ) : Prop := ∀ i ≤ MAXFILE, d.slot data i ≠ 0 ↔ Needed n i

/-- the block named at a place of an inode -/
def St.slot (s : St) (p : ℕ × ℕ) : ℕ := (s.node p.1).slot s.data p.2

/-- the inode is in the cache and has been read -/
def St.Loaded (s : St) (x : ℕ) : Prop := 0 < (s.icache x).ref ∧ (s.icache x).valid = true

/-- where the data blocks start -/
def Superblock.datastart (sb : Superblock) : ℕ := sb.size - sb.nblocks

structure Superblock.Ok (sb : Superblock) : Prop where
  data_pos : 0 < sb.datastart
  size_lt : sb.size < 2 ^ 32

/-- the file system while the inodes of `X` are worked on, and so with `∅` between operations: blocks are owned, the other
files are mapped up to their size and no further, and the cache agrees with the disk about them -/
structure Good (sb : Superblock) (X : Set ℕ) (s : St) : Prop where
  pool : Pool sb.datastart sb.size s.slot s.used
  size : ∀ y ∉ X, (s.node y).type ≠ .free → (s.node y).size ≤ MAXFILE * BSIZE
  maps : ∀ y ∉ X, (s.node y).type ≠ .free → (s.node y).Maps s.data (blocks (s.node y).size)
  typ : ∀ y, s.Loaded y → (s.core y).type ≠ .free
  coh : ∀ y ∉ X, s.Loaded y → s.core y = s.dinode y

variable {sb : Superblock} {s s' : St} {X : Set ℕ} {x y n i j b : ℕ} {d : Dinode} {data data' : ℕ → Data}

theorem St.node_of_loaded (h : s.Loaded x) : s.node x = s.core x := if_pos h

theorem St.node_of_not_loaded (h : ¬ s.Loaded x) : s.node x = s.dinode x := if_neg h

@[simp] theorem Dinode.setAddr_self : (d.setAddr i b).addrs i = b := by
  simp [Dinode.setAddr]

theorem Dinode.setAddr_ne (h : j ≠ i) : (d.setAddr i b).addrs j = d.addrs j := by
  simp [Dinode.setAddr, h]

/-- only the indirect block matters -/
theorem Dinode.slot_congr (h : d.type ≠ .free → d.addrs NDIRECT ≠ 0 → data' (d.addrs NDIRECT) = data (d.addrs NDIRECT)) :
    d.slot data' i = d.slot data i := by
  unfold Dinode.slot
  split
  · rfl
  · rename_i hty
    split
    · rfl
    · split
      · rename_i hi
        rw [h hty hi.2]
      · rfl

theorem Dinode.slot_free (h : d.type = .free) : d.slot data i = 0 := if_pos h

theorem Dinode.slot_addrs (h : d.type ≠ .free) (hi : i ≤ NDIRECT) : d.slot data i = d.addrs i := by
  unfold Dinode.slot
  rw [if_neg h, if_pos hi]

theorem Dinode.slot_indirect (h : d.type ≠ .free) (hj : j < NINDIRECT) (ha : d.addrs NDIRECT ≠ 0) :
    d.slot data (NDIRECT + 1 + j) = word (data (d.addrs NDIRECT)) j := by
  unfold Dinode.slot
  have hi : NDIRECT + 1 + j ≤ MAXFILE := by
    simp only [MAXFILE]
    omega
  rw [if_neg h, if_neg (by omega), if_pos ⟨hi, ha⟩, Nat.add_sub_cancel_left]

theorem Dinode.slot_no_indirect (hi : NDIRECT < i) (ha : d.addrs NDIRECT = 0) : d.slot data i = 0 := by
  unfold Dinode.slot
  split
  · rfl
  · rw [if_neg (by omega), if_neg fun h => h.2 ha]

/-- a zeroed block in an empty entry of `addrs`: nothing else is named -/
theorem Dinode.slot_update (hty : d.type ≠ .free) (hi : i ≤ NDIRECT) (hempty : d.addrs i = 0) (hzero : data' b = fun _ => 0)
    (hdata : d.addrs NDIRECT ≠ 0 → data' (d.addrs NDIRECT) = data (d.addrs NDIRECT)) :
    (d.setAddr i b).slot data' j = if j = i then b else d.slot data j := by
  have hty' : (d.setAddr i b).type ≠ .free := hty
  split
  · rename_i hji
    rw [Dinode.slot_addrs hty' (hji.trans_le hi), hji]
    exact update_self ..
  rename_i hji
  by_cases hj : j ≤ NDIRECT
  · rw [Dinode.slot_addrs hty' hj, Dinode.slot_addrs hty hj]
    exact update_of_ne hji ..
  by_cases hii : i = NDIRECT
  · -- the new block is the indirect block, and names nothing yet
    rw [Dinode.slot_no_indirect (d := d) (not_le.1 hj) (hii ▸ hempty)]
    have haddr : (d.setAddr i b).addrs NDIRECT = b := hii ▸ update_self ..
    unfold Dinode.slot
    rw [if_neg hty', if_neg hj, haddr, hzero]
    simp only [word_zero, ite_self]
  · have haddr : (d.setAddr i b).addrs NDIRECT = d.addrs NDIRECT := update_of_ne (Ne.symm hii) ..
    unfold Dinode.slot
    rw [if_neg hty, if_neg hty', if_neg hj, if_neg hj, haddr]
    split
    · rename_i hind
      rw [hdata hind.2]
    · rfl

/-- an entry of the indirect block changes -/
theorem Dinode.slot_setWord (hty : d.type ≠ .free) (hj : j < NINDIRECT) (ha : d.addrs NDIRECT ≠ 0) (hb : b < 2 ^ 32)
    (hdata : data' (d.addrs NDIRECT) = setWord (data (d.addrs NDIRECT)) j b) :
    d.slot data' i = if i = NDIRECT + 1 + j then b else d.slot data i := by
  split
  · rename_i hi
    rw [hi, Dinode.slot_indirect hty hj ha, hdata, word_setWord_self _ _ hb]
  · rename_i hne
    by_cases hi : i ≤ NDIRECT
    · rw [Dinode.slot_addrs hty hi, Dinode.slot_addrs hty hi]
    · unfold Dinode.slot
      rw [if_neg hty, if_neg hty, if_neg hi, if_neg hi, hdata, word_setWord_ne _ _ (by omega)]

/-! ## Blocks that are allocated -/

/-- the state after `balloc` has found block `b` -/
def St.allocated (s : St) (sb : Superblock) (b : ℕ) : St :=
  (((s.setUsed b true).logWrite (BBLOCK b sb)).setData b fun _ => 0).logWrite b

/-- a block of the pool that the free map does not mark -/
def St.Free (s : St) (sb : Superblock) (b : ℕ) : Prop := s.used b = false ∧ b < sb.size

/-- how many blocks are free -/
def St.nfree (s : St) (sb : Superblock) : ℕ := ((Finset.range sb.size).filter fun b => s.used b = false).card

theorem balloc_spec {E : Panic → Prop} (hE : E .balloc ∨ 0 < s.nfree sb) :
    Wp E (balloc sb) (fun b s' => s.Free sb b ∧ s' = s.allocated sb b) s := by
  unfold balloc
  refine wp_bind.2 (wp_atomic.2 ?_)
  cases hfind : s.freeBlock sb with
  | none =>
    refine hE.resolve_right fun hpos => ?_
    obtain ⟨b, hb⟩ := Finset.card_pos.1 hpos
    obtain ⟨hlt, hfree⟩ := Finset.mem_filter.1 hb
    have hall := List.find?_eq_none.1 hfind b (List.mem_range.2 (Finset.mem_range.1 hlt))
    exact hall (by simp [hfree])
  | some b =>
    have hb : s.used b = false := by simpa using List.find?_some hfind
    have hlt : b < sb.size := List.mem_range.1 (List.mem_of_find?_eq_some hfind)
    exact ⟨⟨hb, hlt⟩, rfl⟩

/-- one free block less -/
theorem St.Free.nfree (hb : s.Free sb b) (hused : s'.used = update s.used b true) : s'.nfree sb + 1 = s.nfree sb := by
  have hmem : b ∈ (Finset.range sb.size).filter fun b => s.used b = false :=
    Finset.mem_filter.2 ⟨Finset.mem_range.2 hb.2, hb.1⟩
  have herase : ((Finset.range sb.size).filter fun c => s'.used c = false) =
      ((Finset.range sb.size).filter fun b => s.used b = false).erase b := by
    ext c
    rw [hused]
    by_cases hc : c = b
    · simp [hc]
    · simp [hc]
  unfold St.nfree
  rw [herase, Finset.card_erase_add_one hmem]

theorem Good.free_pos (h : Good sb X s) (hb : s.Free sb b) : 0 < b := h.pool.pos.trans_le (h.pool.lo_le hb.1)

/-- nobody names a block that the free map does not mark -/
theorem Good.free_ne (h : Good sb X s) (hb : s.Free sb b) (p : ℕ × ℕ) : s.slot p ≠ b :=
  (h.pool.fresh hb.1 p).resolve_right (h.free_pos hb).ne'

/-- the indirect block of an allocated inode is not a block that is free -/
theorem Good.indirect_ne (h : Good sb X s) (hb : s.Free sb b) (hty : (s.node y).type ≠ .free) :
    (s.node y).addrs NDIRECT ≠ b := by
  have hne := h.free_ne hb (y, NDIRECT)
  unfold St.slot at hne
  rw [Dinode.slot_addrs hty le_rfl] at hne
  exact hne

/-- only the contents of the new block change -/
theorem St.allocated_data (hne : y ≠ b) : (s.allocated sb b).data y = s.data y := update_of_ne hne ..

theorem St.allocated_data_self : (s.allocated sb b).data b = fun _ => 0 := update_self ..

theorem Good.allocated_slot (h : Good sb X s) (hb : s.Free sb b) (p : ℕ × ℕ) : (s.allocated sb b).slot p = s.slot p :=
  Dinode.slot_congr fun hty _ => St.allocated_data (h.indirect_ne hb hty)

/-! ## One inode changes -/

theorem St.node_congr (hcache : s'.icache y = s.icache y) (hdisk : s'.dinode y = s.dinode y) : s'.node y = s.node y := by
  unfold St.node St.core
  rw [hcache, hdisk]

theorem St.loaded_congr (hcache : s'.icache y = s.icache y) : s'.Loaded y ↔ s.Loaded y := by
  unfold St.Loaded
  rw [hcache]

/-- only inode `x`, which is worked on, and its blocks have changed -/
theorem Good.edit (h : Good sb X s) (hx : x ∈ X) (hcache : ∀ y, y ≠ x → s'.icache y = s.icache y)
    (hdisk : ∀ y, y ≠ x → s'.dinode y = s.dinode y) (hslot : ∀ y, y ≠ x → ∀ i, s'.slot (y, i) = s.slot (y, i))
    (hpool : Pool sb.datastart sb.size s'.slot s'.used) (htyp : s'.Loaded x → (s'.core x).type ≠ .free) : Good sb X s' := by
  have hne : ∀ y ∉ X, y ≠ x := fun y hy heq => hy (heq ▸ hx)
  have hnode : ∀ y, y ≠ x → s'.node y = s.node y := fun y hy => St.node_congr (hcache y hy) (hdisk y hy)
  refine ⟨hpool, fun y hy => ?_, fun y hy hty => ?_, fun y hl => ?_, fun y hy hl => ?_⟩
  · rw [hnode y (hne y hy)]
    exact h.size y hy
  · have hold := h.maps y hy (hnode y (hne y hy) ▸ hty)
    intro i hi
    have hs := hslot y (hne y hy) i
    unfold St.slot at hs
    rw [hs, hnode y (hne y hy)]
    exact hold i hi
  · by_cases hyx : y = x
    · rw [hyx]
      exact htyp (hyx ▸ hl)
    · have hcore : s'.core y = s.core y := congrArg Inode.d (hcache y hyx)
      rw [hcore]
      exact h.typ y ((St.loaded_congr (hcache y hyx)).1 hl)
  · have hcore : s'.core y = s.core y := congrArg Inode.d (hcache y (hne y hy))
    rw [hcore, hdisk y (hne y hy)]
    exact h.coh y hy ((St.loaded_congr (hcache y (hne y hy))).1 hl)

theorem Good.mono {X' : Set ℕ} (h : Good sb X s) (hX : X ⊆ X') : Good sb X' s :=
  ⟨h.pool, fun y hy => h.size y fun hX' => hy (hX hX'), fun y hy => h.maps y fun hX' => hy (hX hX'), h.typ,
    fun y hy => h.coh y fun hX' => hy (hX hX')⟩

/-- the work on `x` is done -/
theorem Good.close (h : Good sb {x} s) (hsize : (s.node x).type ≠ .free → (s.node x).size ≤ MAXFILE * BSIZE)
    (hmaps : (s.node x).type ≠ .free → (s.node x).Maps s.data (blocks (s.node x).size))
    (hcoh : s.Loaded x → s.core x = s.dinode x) : Good sb ∅ s := by
  refine ⟨h.pool, fun y _ => ?_, fun y _ => ?_, h.typ, fun y _ => ?_⟩
  · by_cases hyx : y = x
    · exact hyx ▸ hsize
    · exact h.size y hyx
  · by_cases hyx : y = x
    · exact hyx ▸ hmaps
    · exact h.maps y hyx
  · by_cases hyx : y = x
    · exact hyx ▸ hcoh
    · exact h.coh y hyx

@[simp] theorem St.core_setCore : (s.setCore x d).core x = d := by
  simp [St.core, St.setCore, St.setInode]

theorem St.icache_setInode {e : Inode} (hy : y ≠ x) : (s.setInode x e).icache y = s.icache y := update_of_ne hy ..

theorem St.ref_setCore : ((s.setCore x d).icache y).ref = (s.icache y).ref := by
  by_cases hy : y = x
  · subst hy
    simp [St.setCore, St.setInode]
  · rw [St.setCore, St.icache_setInode hy]

theorem St.valid_setCore : ((s.setCore x d).icache y).valid = (s.icache y).valid := by
  by_cases hy : y = x
  · subst hy
    simp [St.setCore, St.setInode]
  · rw [St.setCore, St.icache_setInode hy]

theorem St.loaded_setCore : (s.setCore x d).Loaded y ↔ s.Loaded y := by
  unfold St.Loaded
  rw [St.ref_setCore, St.valid_setCore]

theorem St.node_setCore (hl : s.Loaded x) : (s.setCore x d).node x = d :=
  (St.node_of_loaded (St.loaded_setCore.2 hl)).trans St.core_setCore

theorem St.node_setCore_ne (hy : y ≠ x) : (s.setCore x d).node y = s.node y := St.node_congr (St.icache_setInode hy) rfl

theorem St.slot_setCore_ne (hy : y ≠ x) : (s.setCore x d).slot (y, i) = s.slot (y, i) :=
  congrArg (fun e : Dinode => e.slot s.data i) (St.node_setCore_ne hy)

/-- one place of inode `x` changes -/
theorem slot_eq_update {v : ℕ} (hx : ∀ j, s'.slot (x, j) = if j = i then v else s.slot (x, j))
    (hother : ∀ y, y ≠ x → ∀ j, s'.slot (y, j) = s.slot (y, j)) (p : ℕ × ℕ) :
    s'.slot p = update s.slot (x, i) v p := by
  obtain ⟨y, j⟩ := p
  by_cases hy : y = x
  · subst hy
    rw [hx j]
    by_cases hj : j = i
    · rw [if_pos hj, hj, update_self]
    · rw [if_neg hj, update_of_ne fun heq => hj (Prod.mk.inj heq).2]
  · rw [hother y hy j, update_of_ne fun heq => hy (Prod.mk.inj heq).1]

theorem slot_of_ne {v : ℕ} (h : ∀ p, s'.slot p = update s.slot (x, i) v p) (hy : y ≠ x) (j : ℕ) : s'.slot (y, j) = s.slot (y, j) := by
  rw [h, update_of_ne fun heq => hy (Prod.mk.inj heq).1]

theorem St.slot_of_loaded (hl : s.Loaded x) : s.slot (x, i) = (s.core x).slot s.data i := by
  unfold St.slot
  rw [St.node_of_loaded hl]

/-- the new block goes to an empty entry of `addrs` -/
theorem Good.assign (h : Good sb {x} s) (hl : s.Loaded x) (hb : s.Free sb b) (hi : i ≤ NDIRECT)
    (hempty : (s.core x).addrs i = 0) : Good sb {x} ((s.allocated sb b).setAddr x i b) ∧
      ∀ p, ((s.allocated sb b).setAddr x i b).slot p = update s.slot (x, i) b p := by
  have hty := h.typ x hl
  have hslot : ∀ p, ((s.allocated sb b).setAddr x i b).slot p = update s.slot (x, i) b p := by
    refine slot_eq_update (fun j => ?_) fun y hy j => ?_
    · rw [St.slot_of_loaded hl]
      unfold St.slot
      rw [show ((s.allocated sb b).setAddr x i b).node x = (s.core x).setAddr i b from St.node_setCore hl]
      refine Dinode.slot_update hty hi hempty St.allocated_data_self fun _ => St.allocated_data ?_
      have hne := h.indirect_ne (y := x) hb
      rw [St.node_of_loaded hl] at hne
      exact hne hty
    · calc ((s.allocated sb b).setAddr x i b).slot (y, j) = (s.allocated sb b).slot (y, j) := St.slot_setCore_ne hy
        _ = s.slot (y, j) := h.allocated_slot hb (y, j)
  have hzero : s.slot (x, i) = 0 := by
    rw [St.slot_of_loaded hl, Dinode.slot_addrs hty hi]
    exact hempty
  refine ⟨h.edit (Set.mem_singleton x) (fun y hy => St.icache_setInode hy) (fun y hy => rfl)
    (fun y hy j => slot_of_ne hslot hy j) ((h.pool.alloc hzero hb.1 hb.2).congr hslot) fun _ => ?_, hslot⟩
  rw [St.setAddr, St.core_setCore]
  exact hty

/-- the state after a new block has been entered in an indirect block -/
def St.entered (s : St) (sb : Superblock) (addr j b : ℕ) : St :=
  ((s.allocated sb b).setData addr (setWord ((s.allocated sb b).data addr) j b)).logWrite addr

/-- the new block goes to an empty entry of the indirect block -/
theorem Good.enter (h : Good sb {x} s) (hsb : sb.Ok) (hl : s.Loaded x) (hb : s.Free sb b) (hj : j < NINDIRECT)
    (ha : (s.core x).addrs NDIRECT ≠ 0) (hempty : word (s.data ((s.core x).addrs NDIRECT)) j = 0) :
    Good sb {x} (s.entered sb ((s.core x).addrs NDIRECT) j b) ∧
      ∀ p, (s.entered sb ((s.core x).addrs NDIRECT) j b).slot p = update s.slot (x, NDIRECT + 1 + j) b p := by
  have hty := h.typ x hl
  have hself : s.slot (x, NDIRECT) = (s.core x).addrs NDIRECT := by
    rw [St.slot_of_loaded hl, Dinode.slot_addrs hty le_rfl]
  have hab : (s.core x).addrs NDIRECT ≠ b := hself ▸ h.free_ne hb (x, NDIRECT)
  have hdata : (s.entered sb ((s.core x).addrs NDIRECT) j b).data ((s.core x).addrs NDIRECT) =
      setWord (s.data ((s.core x).addrs NDIRECT)) j b :=
    (update_self ..).trans (by rw [St.allocated_data hab])
  have hslot : ∀ p, (s.entered sb ((s.core x).addrs NDIRECT) j b).slot p =
      update s.slot (x, NDIRECT + 1 + j) b p := by
    refine slot_eq_update (fun k => ?_) fun y hy k => ?_
    · rw [St.slot_of_loaded hl, St.slot_of_loaded (s := s.entered sb _ j b) hl]
      exact Dinode.slot_setWord hty hj ha (hb.2.trans hsb.size_lt) hdata
    · refine Dinode.slot_congr fun htyy hane => ?_
      -- the indirect block of another inode is another block
      have hay : s.slot (y, NDIRECT) = (s.node y).addrs NDIRECT := Dinode.slot_addrs htyy le_rfl
      have hne : (s.node y).addrs NDIRECT ≠ (s.core x).addrs NDIRECT := by
        intro heq
        have hinj := h.pool.inj (y, NDIRECT) (x, NDIRECT) (by rw [hay]; exact hane) (by rw [hay, hself, heq])
        exact hy (Prod.mk.inj hinj).1
      exact (update_of_ne hne ..).trans (St.allocated_data (hay ▸ h.free_ne hb (y, NDIRECT)))
  have hzero : s.slot (x, NDIRECT + 1 + j) = 0 := by
    rw [St.slot_of_loaded hl, Dinode.slot_indirect hty hj ha]
    exact hempty
  exact ⟨h.edit (Set.mem_singleton x) (fun y hy => rfl) (fun y hy => rfl) (fun y hy j => slot_of_ne hslot hy j)
    ((h.pool.alloc hzero hb.1 hb.2).congr hslot) fun _ => hty, hslot⟩

/-! ## `bmap` -/

/-- what changes when inode `x` is given more blocks and written to: its `addrs`, the free map and the contents of blocks that
it named or nobody named; what was named stays named -/
structure Extends (x : ℕ) (s s' : St) : Prop where
  cache : ∀ y, y ≠ x → s'.icache y = s.icache y
  ref : (s'.icache x).ref = (s.icache x).ref
  valid : (s'.icache x).valid = (s.icache x).valid
  core : s'.core x = { s.core x with addrs := (s'.core x).addrs }
  disk : s'.dinode = s.dinode
  live : s'.live = s.live
  cwd : s'.cwd = s.cwd
  file : s'.file = s.file
  ofile : s'.ofile = s.ofile
  slot : ∀ p, s.slot p ≠ 0 → s'.slot p = s.slot p
  data : ∀ p, s.slot p ≠ 0 → p.1 ≠ x → s'.data (s.slot p) = s.data (s.slot p)

theorem Extends.refl (x : ℕ) (s : St) : Extends x s s :=
  ⟨fun _ _ => rfl, rfl, rfl, rfl, rfl, rfl, rfl, rfl, rfl, fun _ _ => rfl, fun _ _ _ => rfl⟩

theorem Extends.trans {s'' : St} (h : Extends x s s') (h' : Extends x s' s'') : Extends x s s'' where
  cache y hy := (h'.cache y hy).trans (h.cache y hy)
  ref := h'.ref.trans h.ref
  valid := h'.valid.trans h.valid
  core := by
    rw [h'.core, h.core]
  disk := h'.disk.trans h.disk
  live := h'.live.trans h.live
  cwd := h'.cwd.trans h.cwd
  file := h'.file.trans h.file
  ofile := h'.ofile.trans h.ofile
  slot p hp := by
    have hs := h.slot p hp
    rw [h'.slot p (hs ▸ hp), hs]
  data p hp hne := by
    have hs := h.slot p hp
    rw [← hs, h'.data p (hs ▸ hp) hne, hs, h.data p hp hne]

theorem Extends.loaded (h : Extends x s s') (y : ℕ) : s'.Loaded y ↔ s.Loaded y := by
  by_cases hy : y = x
  · rw [hy]
    unfold St.Loaded
    rw [h.ref, h.valid]
  · exact St.loaded_congr (h.cache y hy)

theorem Good.assign_extends (h : Good sb {x} s) (hl : s.Loaded x) (hb : s.Free sb b) (hi : i ≤ NDIRECT)
    (hempty : (s.core x).addrs i = 0) : Extends x s ((s.allocated sb b).setAddr x i b) := by
  have hslot := (h.assign hl hb hi hempty).2
  have hzero : s.slot (x, i) = 0 := by
    rw [St.slot_of_loaded hl, Dinode.slot_addrs (h.typ x hl) hi]
    exact hempty
  refine ⟨fun y hy => St.icache_setInode hy, ?_, ?_, ?_, rfl, rfl, rfl, rfl, rfl, fun p hp => ?_, fun p hp _ => ?_⟩
  · exact St.ref_setCore
  · exact St.valid_setCore
  · rw [St.setAddr, St.core_setCore]
    rfl
  · have hpi : p ≠ _ := fun heq => hp (heq ▸ hzero)
    rw [hslot, update_of_ne hpi]
  · exact St.allocated_data (h.free_ne hb p)

/-- only the new block and the indirect block have new contents -/
theorem Good.enter_data (h : Good sb {x} s) (hl : s.Loaded x) (hb : s.Free sb b) (p : ℕ × ℕ) (hp : s.slot p ≠ 0) (hne : p ≠ (x, NDIRECT)) :
    (s.entered sb ((s.core x).addrs NDIRECT) j b).data (s.slot p) = s.data (s.slot p) := by
  have hself : s.slot (x, NDIRECT) = (s.core x).addrs NDIRECT := by
    rw [St.slot_of_loaded hl, Dinode.slot_addrs (h.typ x hl) le_rfl]
  have hother : s.slot p ≠ (s.core x).addrs NDIRECT := fun heq => hne (h.pool.inj p _ hp (heq.trans hself.symm))
  exact (update_of_ne hother ..).trans (St.allocated_data (h.free_ne hb p))

theorem Good.enter_extends (h : Good sb {x} s) (hsb : sb.Ok) (hl : s.Loaded x) (hb : s.Free sb b) (hj : j < NINDIRECT)
    (ha : (s.core x).addrs NDIRECT ≠ 0) (hempty : word (s.data ((s.core x).addrs NDIRECT)) j = 0) :
    Extends x s (s.entered sb ((s.core x).addrs NDIRECT) j b) := by
  have hslot := (h.enter hsb hl hb hj ha hempty).2
  have hzero : s.slot (x, NDIRECT + 1 + j) = 0 := by
    rw [St.slot_of_loaded hl, Dinode.slot_indirect (h.typ x hl) hj ha]
    exact hempty
  refine ⟨fun y hy => rfl, rfl, rfl, rfl, rfl, rfl, rfl, rfl, rfl, fun p hp => ?_, fun p hp hne => ?_⟩
  · have hpi : p ≠ _ := fun heq => hp (heq ▸ hzero)
    rw [hslot, update_of_ne hpi]
  · exact h.enter_data hl hb p hp fun heq => hne (congrArg Prod.fst heq)

theorem needed_succ : Needed (n + 1) i ↔ Needed n i ∨ i = place n ∨ (n = NDIRECT ∧ i = NDIRECT) := by
  unfold Needed place
  split_ifs <;> omega

theorem needed_place {bn : ℕ} : Needed n (place bn) ↔ bn < n := by
  unfold Needed place
  split_ifs <;> omega

theorem needed_indirect : Needed n NDIRECT ↔ NDIRECT < n := by
  unfold Needed
  rw [if_neg (lt_irrefl _), if_pos rfl]

theorem place_le {bn : ℕ} (h : bn < MAXFILE) : place bn ≤ MAXFILE := by
  unfold place
  split_ifs
  · exact h.le
  · exact h

theorem place_ne_indirect (bn : ℕ) : place bn ≠ NDIRECT := by
  unfold place
  split_ifs <;> omega

theorem place_inj {a b : ℕ} (h : place a = place b) : a = b := by
  unfold place at h
  split_ifs at h <;> omega

/-- the blocks that a file of `n` blocks takes -/
def need (n : ℕ) : ℕ := if n ≤ NDIRECT then n else n + 1

theorem need_direct (h : n ≤ NDIRECT) : need n = n := if_pos h

theorem need_indirect (h : NDIRECT < n) : need n = n + 1 := if_neg h.not_ge

theorem need_mono {m : ℕ} (h : n ≤ m) : need n ≤ need m := by
  unfold need
  split_ifs <;> omega

/-- what `bmap` gives: the block that the place of file block `bn` names from then on -/
structure Bmapped (sb : Superblock) (x n bn : ℕ) (s : St) (b : ℕ) (s' : St) : Prop where
  good : Good sb {x} s'
  ext : Extends x s s'
  maps : (s'.core x).Maps s'.data (max n (bn + 1))
  slot : s'.slot (x, place bn) = b
  same : bn < n → s' = s
  own : ∀ i, i ≠ NDIRECT → s.slot (x, i) ≠ 0 → s'.data (s.slot (x, i)) = s.data (s.slot (x, i))
  free : s'.nfree sb + need (max n (bn + 1)) = s.nfree sb + need n
  logged : ∀ c ∈ s'.logged, c ∈ s.logged ∨ c = b ∨ (c ≠ 0 ∧ c = s'.slot (x, NDIRECT)) ∨ ∃ b' < sb.size, c = BBLOCK b' sb

variable {E : Panic → Prop} {bn : ℕ}

theorem St.slot_self (h : Good sb X s) (hl : s.Loaded x) (hi : i ≤ NDIRECT) : s.slot (x, i) = (s.core x).addrs i := by
  rw [St.slot_of_loaded hl, Dinode.slot_addrs (h.typ x hl) hi]

theorem St.slot_indirect (h : Good sb X s) (hl : s.Loaded x) (hn : NDIRECT ≤ bn) (hmax : bn < MAXFILE) (ha : (s.core x).addrs NDIRECT ≠ 0) :
    s.slot (x, place bn) = word (s.data ((s.core x).addrs NDIRECT)) (bn - NDIRECT) := by
  have hj : bn - NDIRECT < NINDIRECT := by
    simp only [MAXFILE] at hmax
    omega
  have hplace : place bn = NDIRECT + 1 + (bn - NDIRECT) := by
    unfold place
    rw [if_neg hn.not_gt]
    omega
  rw [hplace, St.slot_of_loaded hl, Dinode.slot_indirect (h.typ x hl) hj ha]

theorem allocAddr_there (hne : (s.core x).addrs i ≠ 0) : Wp E (allocAddr sb x i) (fun b s' => b = (s.core x).addrs i ∧ s' = s) s := by
  unfold allocAddr
  refine wp_read.2 ?_
  rw [if_neg hne]
  exact ⟨rfl, rfl⟩

theorem allocAddr_new (hE : E .balloc ∨ 0 < s.nfree sb) (hzero : (s.core x).addrs i = 0) :
    Wp E (allocAddr sb x i) (fun b s' => s.Free sb b ∧ s' = (s.allocated sb b).setAddr x i b) s := by
  unfold allocAddr
  refine wp_read.2 ?_
  rw [if_pos hzero]
  refine wp_seq (balloc_spec hE) fun b s' ⟨hb, hs'⟩ => ?_
  subst hs'
  exact ⟨hb, rfl⟩

/-- `bmap` of a block that is mapped only looks it up -/
theorem bmap_mapped (h : Good sb X s) (hl : s.Loaded x) (hmax : bn < MAXFILE) (hne : s.slot (x, place bn) ≠ 0) :
    Wp E (bmap sb x bn) (fun b s' => b = s.slot (x, place bn) ∧ s' = s) s := by
  have hty := h.typ x hl
  unfold bmap
  split
  · rename_i hdir
    have hplace : s.slot (x, place bn) = (s.core x).addrs bn := by
      rw [show place bn = bn from if_pos hdir]
      exact St.slot_self h hl hdir.le
    rw [hplace] at hne ⊢
    exact allocAddr_there hne
  rename_i hdir
  have ha : (s.core x).addrs NDIRECT ≠ 0 := by
    intro hzero
    have hlt : NDIRECT < place bn := by
      unfold place
      rw [if_neg hdir]
      omega
    rw [St.slot_of_loaded hl, Dinode.slot_no_indirect hlt hzero] at hne
    exact hne rfl
  have hword := St.slot_indirect h hl (not_lt.1 hdir) hmax ha
  have hj : bn - NDIRECT < NINDIRECT := by
    simp only [MAXFILE] at hmax
    omega
  rw [if_pos hj]
  refine wp_seq (allocAddr_there ha) fun a s1 ⟨haddr, hs⟩ => wp_read.2 ?_
  subst haddr hs
  rw [if_neg (hword ▸ hne)]
  exact ⟨hword.symm, rfl⟩

theorem maps_iff (hl : s.Loaded x) : (s.core x).Maps s.data n ↔ ∀ i ≤ MAXFILE, s.slot (x, i) ≠ 0 ↔ Needed n i := by
  unfold Dinode.Maps
  simp only [St.slot_of_loaded hl]

/-- a place that was needed next is named, and the places for `n + 1` blocks are complete -/
theorem maps_succ (hl : s'.Loaded x) (hb : b ≠ 0) (hslot : ∀ p, s'.slot p = update s.slot (x, place n) b p)
    (hold : ∀ i ≤ MAXFILE, s.slot (x, i) ≠ 0 ↔ Needed n i ∨ (n = NDIRECT ∧ i = NDIRECT)) : (s'.core x).Maps s'.data (n + 1) := by
  refine (maps_iff hl).2 fun i hi => ?_
  rw [hslot, needed_succ]
  by_cases hip : i = place n
  · rw [hip, update_self]
    exact iff_of_true hb (.inr (.inl rfl))
  · rw [update_of_ne fun heq => hip (Prod.mk.inj heq).2, hold i hi]
    tauto

theorem Good.bmapped_direct (h : Good sb {x} s) (hl : s.Loaded x) (hmaps : (s.core x).Maps s.data n) (hn : n < NDIRECT)
    (hempty : (s.core x).addrs n = 0) (hb : s.Free sb b) : Bmapped sb x n n s b ((s.allocated sb b).setAddr x n b) := by
  obtain ⟨hgood, hslot⟩ := h.assign hl hb hn.le hempty
  have hext := h.assign_extends hl hb hn.le hempty
  have hplace : place n = n := if_pos hn
  refine ⟨hgood, hext, ?_, ?_, fun hlt => absurd hlt (lt_irrefl n), fun i _ _ => ?_, ?_, fun c hc => ?_⟩
  · rw [max_eq_right n.le_succ]
    refine maps_succ (s := s) ((hext.loaded x).2 hl) (h.free_pos hb).ne' (fun p => ?_) fun i hi => ?_
    · rw [hplace]
      exact hslot p
    rw [(maps_iff hl).1 hmaps i hi]
    exact ⟨.inl, fun h => h.resolve_right fun h => absurd h.1 hn.ne⟩
  · rw [hplace, hslot, update_self]
  · exact St.allocated_data (h.free_ne hb (x, i))
  · have hfree : ((s.allocated sb b).setAddr x n b).nfree sb + 1 = s.nfree sb := hb.nfree rfl
    rw [max_eq_right n.le_succ, need_direct hn.le, need_direct hn]
    omega
  · have hc : c ∈ insert b (insert (BBLOCK b sb) s.logged) := hc
    rcases Finset.mem_insert.1 hc with hc | hc
    · exact .inr (.inl hc)
    rcases Finset.mem_insert.1 hc with hc | hc
    · exact .inr (.inr (.inr ⟨b, hb.2, hc⟩))
    · exact .inl hc

/-- the indirect block is there, and the next entry of it is taken -/
structure Entered (sb : Superblock) (x n : ℕ) (s : St) (b : ℕ) (s' : St) : Prop where
  good : Good sb {x} s'
  ext : Extends x s s'
  maps : (s'.core x).Maps s'.data (n + 1)
  slot : s'.slot (x, place n) = b
  own : ∀ i, i ≠ NDIRECT → s.slot (x, i) ≠ 0 → s'.data (s.slot (x, i)) = s.data (s.slot (x, i))
  free : s'.nfree sb + 1 = s.nfree sb
  logged : ∀ c ∈ s'.logged, c ∈ s.logged ∨ c = b ∨ (c ≠ 0 ∧ c = s'.slot (x, NDIRECT)) ∨ ∃ b' < sb.size, c = BBLOCK b' sb

theorem Good.entered (h : Good sb {x} s) (hsb : sb.Ok) (hl : s.Loaded x) (hn : NDIRECT ≤ n) (hmax : n < MAXFILE)
    (hold : ∀ i ≤ MAXFILE, s.slot (x, i) ≠ 0 ↔ Needed n i ∨ (n = NDIRECT ∧ i = NDIRECT))
    (ha : (s.core x).addrs NDIRECT ≠ 0) (hempty : word (s.data ((s.core x).addrs NDIRECT)) (n - NDIRECT) = 0)
    (hb : s.Free sb b) : Entered sb x n s b (s.entered sb ((s.core x).addrs NDIRECT) (n - NDIRECT) b) := by
  have hj : n - NDIRECT < NINDIRECT := by
    simp only [MAXFILE] at hmax
    omega
  obtain ⟨hgood, hslot⟩ := h.enter hsb hl hb hj ha hempty
  have hext := h.enter_extends hsb hl hb hj ha hempty
  have hplace : NDIRECT + 1 + (n - NDIRECT) = place n := by
    unfold place
    rw [if_neg hn.not_gt]
    omega
  rw [hplace] at hslot
  refine ⟨hgood, hext, ?_, ?_, fun i hi hne => ?_, hb.nfree rfl, fun c hc => ?_⟩
  · exact maps_succ ((hext.loaded x).2 hl) (h.free_pos hb).ne' hslot hold
  · rw [hslot, update_self]
  · exact h.enter_data hl hb (x, i) hne fun heq => hi (congrArg Prod.snd heq)
  · have hind : (s.entered sb ((s.core x).addrs NDIRECT) (n - NDIRECT) b).slot (x, NDIRECT) = (s.core x).addrs NDIRECT := by
      have hself := St.slot_self h hl le_rfl
      rw [hext.slot _ (hself.symm ▸ ha), hself]
    have hc : c ∈ insert ((s.core x).addrs NDIRECT) (insert b (insert (BBLOCK b sb) s.logged)) := hc
    rcases Finset.mem_insert.1 hc with hc | hc
    · exact .inr (.inr (.inl ⟨hc ▸ ha, hc.trans hind.symm⟩))
    rcases Finset.mem_insert.1 hc with hc | hc
    · exact .inr (.inl hc)
    rcases Finset.mem_insert.1 hc with hc | hc
    · exact .inr (.inr (.inr ⟨b, hb.2, hc⟩))
    · exact .inl hc

/-- one more block of a file that has its indirect block -/
theorem Entered.bmapped (h : Entered sb x n s b s') (hn : NDIRECT < n) : Bmapped sb x n n s b s' := by
  have hmax := max_eq_right n.le_succ
  refine ⟨h.good, h.ext, ?_, h.slot, fun hlt => absurd hlt (lt_irrefl n), h.own, ?_, h.logged⟩
  · rw [hmax]
    exact h.maps
  · have hfree := h.free
    rw [hmax, need_indirect hn, need_indirect (hn.trans n.lt_succ_self)]
    omega

/-- the first indirect block of a file: the block `a` for the addresses comes first -/
theorem Entered.bmapped_first {a : ℕ} (h : Entered sb x NDIRECT ((s.allocated sb a).setAddr x NDIRECT a) b s')
    (hgood : Good sb {x} s) (hl : s.Loaded x) (ha : s.Free sb a) (hzero : (s.core x).addrs NDIRECT = 0) :
    Bmapped sb x NDIRECT NDIRECT s b s' := by
  have hmax := max_eq_right NDIRECT.le_succ
  have hslot := (hgood.assign hl ha le_rfl hzero).2
  have hext := hgood.assign_extends hl ha le_rfl hzero
  refine ⟨h.good, hext.trans h.ext, ?_, h.slot, fun hlt => absurd hlt (lt_irrefl _), fun i hi hne => ?_, ?_, fun c hc => ?_⟩
  · rw [hmax]
    exact h.maps
  · have hsame := hext.slot (x, i) hne
    have hown := h.own i hi (by rw [hsame]; exact hne)
    rw [hsame] at hown
    exact hown.trans (St.allocated_data (hgood.free_ne ha (x, i)))
  · have hfree := h.free
    have hfree' : ((s.allocated sb a).setAddr x NDIRECT a).nfree sb + 1 = s.nfree sb := ha.nfree rfl
    rw [hmax, need_direct le_rfl, need_indirect NDIRECT.lt_succ_self]
    omega
  · rcases h.logged c hc with hc | hc
    · have hc : c ∈ insert a (insert (BBLOCK a sb) s.logged) := hc
      have hind : ((s.allocated sb a).setAddr x NDIRECT a).slot (x, NDIRECT) = a := by
        rw [hslot, update_self]
      rcases Finset.mem_insert.1 hc with hc | hc
      · have hpos := (hgood.free_pos ha).ne'
        have hkeep := h.ext.slot (x, NDIRECT) (by rw [hind]; exact hpos)
        exact .inr (.inr (.inl ⟨hc ▸ hpos, hc.trans (hkeep.trans hind).symm⟩))
      rcases Finset.mem_insert.1 hc with hc | hc
      · exact .inr (.inr (.inr ⟨a, ha.2, hc⟩))
      · exact .inl hc
    · exact .inr hc

/-- `bmap` of the next block of a file with direct blocks only -/
theorem bmap_direct (hE : E .balloc ∨ need (n + 1) ≤ s.nfree sb + need n) (h : Good sb {x} s) (hl : s.Loaded x)
    (hmaps : (s.core x).Maps s.data n) (hn : n < NDIRECT) : Wp E (bmap sb x n) (Bmapped sb x n n s) s := by
  have hslots := (maps_iff hl).1 hmaps
  have hzero : (s.core x).addrs n = 0 := by
    rw [← St.slot_self h hl hn.le]
    by_contra hne
    have hneed := (hslots n (hn.le.trans (by decide))).1 hne
    unfold Needed at hneed
    rw [if_pos hn] at hneed
    exact lt_irrefl n hneed
  have hE' : E .balloc ∨ 0 < s.nfree sb := by
    refine hE.imp_right fun hle => ?_
    rw [need_direct hn.le, need_direct hn] at hle
    omega
  unfold bmap
  rw [if_pos hn]
  refine wp_mono (allocAddr_new hE' hzero) fun b s' ⟨hb, hs'⟩ => ?_
  subst hs'
  exact h.bmapped_direct hl hmaps hn hzero hb

/-- `bmap` of the next block of a file that has its indirect block -/
theorem bmap_entry (hE : E .balloc ∨ need (n + 1) ≤ s.nfree sb + need n) (hsb : sb.Ok) (h : Good sb {x} s)
    (hl : s.Loaded x) (hmaps : (s.core x).Maps s.data n) (hn : NDIRECT < n) (hmax : n < MAXFILE) :
    Wp E (bmap sb x n) (Bmapped sb x n n s) s := by
  have hslots := (maps_iff hl).1 hmaps
  have ha : (s.core x).addrs NDIRECT ≠ 0 := by
    rw [← St.slot_self h hl le_rfl]
    exact (hslots NDIRECT (by decide)).2 (needed_indirect.2 hn)
  have hempty : word (s.data ((s.core x).addrs NDIRECT)) (n - NDIRECT) = 0 := by
    rw [← St.slot_indirect h hl hn.le hmax ha]
    by_contra hne
    exact lt_irrefl n (needed_place.1 ((hslots _ (place_le hmax)).1 hne))
  have hE' : E .balloc ∨ 0 < s.nfree sb := by
    refine hE.imp_right fun hle => ?_
    rw [need_indirect hn, need_indirect (hn.trans n.lt_succ_self)] at hle
    omega
  have hj : n - NDIRECT < NINDIRECT := by
    simp only [MAXFILE] at hmax
    omega
  unfold bmap
  rw [if_neg hn.le.not_gt, if_pos hj]
  refine wp_seq (allocAddr_there ha) fun a s1 ⟨haddr, hs⟩ => wp_read.2 ?_
  subst haddr hs
  rw [if_pos hempty]
  refine wp_seq (balloc_spec hE') fun b s' ⟨hb, hs'⟩ => ?_
  subst hs'
  have hold : ∀ i ≤ MAXFILE, s1.slot (x, i) ≠ 0 ↔ Needed n i ∨ (n = NDIRECT ∧ i = NDIRECT) := by
    intro i hi
    rw [hslots i hi]
    exact ⟨.inl, fun hor => hor.resolve_right fun heq => hn.ne' heq.1⟩
  exact (h.entered hsb hl hn.le hmax hold ha hempty hb).bmapped hn

/-- `bmap` of the first block that needs the indirect block -/
theorem bmap_first (hE : E .balloc ∨ need (NDIRECT + 1) ≤ s.nfree sb + need NDIRECT) (hsb : sb.Ok) (h : Good sb {x} s)
    (hl : s.Loaded x) (hmaps : (s.core x).Maps s.data NDIRECT) : Wp E (bmap sb x NDIRECT) (Bmapped sb x NDIRECT NDIRECT s) s := by
  have hslots := (maps_iff hl).1 hmaps
  have hzero : (s.core x).addrs NDIRECT = 0 := by
    rw [← St.slot_self h hl le_rfl]
    by_contra hne
    exact lt_irrefl _ (needed_indirect.1 ((hslots NDIRECT (by decide)).1 hne))
  have hE' : E .balloc ∨ 2 ≤ s.nfree sb := by
    refine hE.imp_right fun hle => ?_
    rw [need_direct le_rfl, need_indirect NDIRECT.lt_succ_self] at hle
    omega
  unfold bmap
  rw [if_neg (lt_irrefl _), if_pos (by decide)]
  refine wp_seq (allocAddr_new (hE'.imp_right fun hle => by omega) hzero) fun a s1 ⟨ha, hs⟩ => wp_read.2 ?_
  subst hs
  obtain ⟨hgood, hslot⟩ := h.assign hl ha le_rfl hzero
  have hext := h.assign_extends hl ha le_rfl hzero
  have hl' := (hext.loaded x).2 hl
  have hpos := (h.free_pos ha).ne'
  have hcore : (((s.allocated sb a).setAddr x NDIRECT a).core x).addrs NDIRECT = a := by
    rw [← St.slot_self hgood hl' le_rfl, hslot, update_self]
  have hempty : word (((s.allocated sb a).setAddr x NDIRECT a).data a) (NDIRECT - NDIRECT) = 0 := by
    rw [show ((s.allocated sb a).setAddr x NDIRECT a).data a = fun _ => 0 from St.allocated_data_self]
    exact word_zero _
  have hfree : ((s.allocated sb a).setAddr x NDIRECT a).nfree sb + 1 = s.nfree sb := ha.nfree rfl
  rw [if_pos hempty]
  refine wp_seq (balloc_spec (hE'.imp_right fun hle => by omega)) fun b s' ⟨hb, hs'⟩ => ?_
  subst hs'
  have hold : ∀ i ≤ MAXFILE, ((s.allocated sb a).setAddr x NDIRECT a).slot (x, i) ≠ 0 ↔
      Needed NDIRECT i ∨ (NDIRECT = NDIRECT ∧ i = NDIRECT) := by
    intro i hi
    rw [hslot]
    by_cases hi' : i = NDIRECT
    · rw [hi', update_self]
      exact iff_of_true hpos (.inr ⟨rfl, rfl⟩)
    · rw [update_of_ne fun heq => hi' (Prod.mk.inj heq).2, hslots i hi]
      exact ⟨.inl, fun hor => hor.resolve_right fun hh => hi' hh.2⟩
  have hlast := hgood.entered hsb hl' le_rfl (by decide) hold (hcore.symm ▸ hpos) (by rw [hcore]; exact hempty) hb
  rw [hcore] at hlast
  exact hlast.bmapped_first h hl ha hzero

/-- **`bmap`** within the mapped blocks changes nothing; at the next one it takes a free block, and before the first
indirect one a block for the addresses. -/
theorem bmap_spec (hE : E .balloc ∨ need (bn + 1) ≤ s.nfree sb + need n) (hsb : sb.Ok) (h : Good sb {x} s)
    (hl : s.Loaded x) (hmaps : (s.core x).Maps s.data n) (hbn : bn ≤ n) (hmax : bn < MAXFILE) :
    Wp E (bmap sb x bn) (Bmapped sb x n bn s) s := by
  rcases hbn.lt_or_eq with hlt | rfl
  · have hne := ((maps_iff hl).1 hmaps _ (place_le hmax)).2 (needed_place.2 hlt)
    refine wp_mono (bmap_mapped h hl hmax hne) fun b s' ⟨hb, hs'⟩ => ?_
    subst hb hs'
    have hn : max n (bn + 1) = n := max_eq_left hlt
    refine ⟨h, .refl x s', ?_, rfl, fun _ => rfl, fun _ _ _ => rfl, ?_, fun c hc => .inl hc⟩
    · rw [hn]
      exact hmaps
    · rw [hn]
  · rcases lt_trichotomy bn NDIRECT with hdir | rfl | hind
    · exact bmap_direct hE h hl hmaps hdir
    · exact bmap_first hE hsb h hl hmaps
    · exact bmap_entry hE hsb h hl hmaps hind hmax

end Xv6.FileSys
