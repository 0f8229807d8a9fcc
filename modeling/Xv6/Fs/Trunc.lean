/-
Freeing a file: `itrunc` gives back every block of an inode, and `iput` the inode itself when the last reference to it goes
and it has no links.
-/
import Xv6.Fs.Contents

namespace Xv6.FileSys

open Xv6.Core Xv6.Core.Prog
variable {sb : Superblock} {s s' : St} {x y i j b : ℕ} {d : Dinode} {data : ℕ → Data} {E : Panic → Prop}

/-! ## Blocks that are given back -/

/-- the state after `bfree` of a block in use -/
def St.released (s : St) (sb : Superblock) (b : ℕ) : St := (s.setUsed b false).logWrite (BBLOCK b sb)

theorem bfree_spec (hb : s.used b = true) : Wp E (bfree sb b) (fun _ s' => s' = s.released sb b) s := by
  unfold bfree
  refine wp_bind.2 (wp_atomic.2 ?_)
  rw [if_pos hb]
  exact rfl

/-- what is the same while the blocks of `x` are given back -/
structure Shrinks (sb : Superblock) (x : ℕ) (s s' : St) : Prop where
  cache : ∀ y, y ≠ x → s'.icache y = s.icache y
  ref : (s'.icache x).ref = (s.icache x).ref
  valid : (s'.icache x).valid = (s.icache x).valid
  core : s'.core x = { s.core x with size := (s'.core x).size, addrs := (s'.core x).addrs }
  disk : ∀ y, y ≠ x → s'.dinode y = s.dinode y
  data : s'.data = s.data
  live : s'.live = s.live
  cwd : s'.cwd = s.cwd
  file : s'.file = s.file
  ofile : s'.ofile = s.ofile
  logged : ∀ c ∈ s'.logged, c ∈ s.logged ∨ (∃ b < sb.size, c = BBLOCK b sb) ∨ c = IBLOCK x sb

theorem Shrinks.refl (x : ℕ) (s : St) : Shrinks sb x s s :=
  ⟨fun _ _ => rfl, rfl, rfl, rfl, fun _ _ => rfl, rfl, rfl, rfl, rfl, rfl, fun _ hc => .inl hc⟩

theorem Shrinks.trans {s'' : St} (h : Shrinks sb x s s') (h' : Shrinks sb x s' s'') : Shrinks sb x s s'' where
  cache y hy := (h'.cache y hy).trans (h.cache y hy)
  ref := h'.ref.trans h.ref
  valid := h'.valid.trans h.valid
  core := by
    rw [h'.core, h.core]
  disk y hy := (h'.disk y hy).trans (h.disk y hy)
  data := h'.data.trans h.data
  live := h'.live.trans h.live
  cwd := h'.cwd.trans h.cwd
  file := h'.file.trans h.file
  ofile := h'.ofile.trans h.ofile
  logged c hc := (h'.logged c hc).elim (h.logged c) .inr

theorem Shrinks.loaded (h : Shrinks sb x s s') : s'.Loaded x ↔ s.Loaded x := by
  unfold St.Loaded
  rw [h.ref, h.valid]

theorem Shrinks.node_ne (h : Shrinks sb x s s') (hy : y ≠ x) : s'.node y = s.node y :=
  St.node_congr (h.cache y hy) (h.disk y hy)

theorem Shrinks.slot_ne (h : Shrinks sb x s s') (hy : y ≠ x) : s'.slot (y, i) = s.slot (y, i) := by
  unfold St.slot
  rw [h.node_ne hy, h.data]

/-- other inodes are as good as they were when the blocks are -/
theorem Good.shrink (h : Good sb {x} s) (hs : Shrinks sb x s s') (hpool : Pool sb.datastart sb.size s'.slot s'.used) : Good sb {x} s' := by
  refine h.edit (Set.mem_singleton x) hs.cache hs.disk (fun y hy i => hs.slot_ne hy) hpool fun hl => ?_
  rw [hs.core]
  exact h.typ x (hs.loaded.1 hl)

/-! ## `itrunc` -/

/-- a direct address is taken out -/
theorem Dinode.slot_clear (hi : i < NDIRECT) : (d.setAddr i 0).slot data j = if j = i then 0 else d.slot data j := by
  have haddr : (d.setAddr i 0).addrs NDIRECT = d.addrs NDIRECT := update_of_ne hi.ne' ..
  have hty : (d.setAddr i 0).type = d.type := rfl
  unfold Dinode.slot
  rw [haddr, hty]
  split
  · simp
  · split
    · by_cases hji : j = i
      · rw [if_pos hji, hji]
        exact update_self ..
      · rw [if_neg hji]
        exact update_of_ne hji ..
    · rw [if_neg (c := j = i) (by omega)]

/-- the state after a direct block has been given back -/
def St.cleared (s : St) (sb : Superblock) (x i : ℕ) : St := (s.released sb ((s.core x).addrs i)).setAddr x i 0

theorem St.released_log (hb : b < sb.size) (c : ℕ) (hc : c ∈ (s.released sb b).logged) :
    c ∈ s.logged ∨ (∃ b < sb.size, c = BBLOCK b sb) ∨ c = IBLOCK x sb := by
  have hc : c ∈ insert (BBLOCK b sb) s.logged := hc
  rcases Finset.mem_insert.1 hc with hc | hc
  · exact .inr (.inl ⟨b, hb, hc⟩)
  · exact .inl hc

theorem Shrinks.setAddr (i b : ℕ) : Shrinks sb x s (s.setAddr x i b) := by
  refine ⟨fun y hy => St.icache_setInode hy, St.ref_setCore, St.valid_setCore, ?_, fun _ _ => rfl, rfl, rfl, rfl, rfl, rfl,
    fun c hc => .inl hc⟩
  rw [St.setAddr, St.core_setCore]
  rfl

theorem Shrinks.released (hb : b < sb.size) : Shrinks sb x s (s.released sb b) :=
  ⟨fun _ _ => rfl, rfl, rfl, rfl, fun _ _ => rfl, rfl, rfl, rfl, rfl, rfl, St.released_log hb⟩

theorem Good.cleared (h : Good sb {x} s) (hl : s.Loaded x) (hi : i < NDIRECT) (hne : (s.core x).addrs i ≠ 0) :
    Good sb {x} (s.cleared sb x i) ∧ Shrinks sb x s (s.cleared sb x i) := by
  have hself := St.slot_self h hl hi.le
  obtain ⟨-, hlt⟩ := h.pool.range (x, i) (hself ▸ hne)
  have hs : Shrinks sb x s (s.cleared sb x i) := (Shrinks.released (hself ▸ hlt)).trans (.setAddr i 0)
  refine ⟨h.shrink hs ?_, hs⟩
  have hpool := h.pool.free (p := (x, i)) (hself ▸ hne)
  rw [hself] at hpool
  refine hpool.congr (slot_eq_update (fun j => ?_) fun y hy j => hs.slot_ne hy)
  rw [St.slot_of_loaded hl, St.slot_of_loaded (hs.loaded.2 hl)]
  have hcore : (s.cleared sb x i).core x = (s.core x).setAddr i 0 := St.core_setCore
  rw [hcore]
  exact Dinode.slot_clear hi

theorem truncDirect_spec (h : Good sb {x} s) (hl : s.Loaded x) (hi : i < NDIRECT) :
    Wp E (truncDirect sb x i) (fun _ s' => Good sb {x} s' ∧ Shrinks sb x s s' ∧
      ∀ j, (s'.core x).addrs j = if j = i then 0 else (s.core x).addrs j) s := by
  unfold truncDirect
  refine wp_read.2 ?_
  split
  · rename_i hzero
    refine ⟨h, .refl x s, fun j => ?_⟩
    split
    · rename_i hji
      rw [hji, hzero]
    · rfl
  rename_i hne
  have hused : s.used ((s.core x).addrs i) = true := by
    rw [← St.slot_self h hl hi.le] at hne ⊢
    exact h.pool.used_of_ref hne
  refine wp_seq (bfree_spec hused) fun _ s' hs' => wp_modify.2 ?_
  subst hs'
  obtain ⟨hgood, hs⟩ := h.cleared hl hi hne
  refine ⟨hgood, hs, fun j => ?_⟩
  have hcore : (s.cleared sb x i).core x = (s.core x).setAddr i 0 := St.core_setCore
  change ((s.cleared sb x i).core x).addrs j = _
  rw [hcore]
  exact update_apply ..

/-- the first loop: the direct blocks are given back -/
theorem truncDirect_loop (h : Good sb {x} s) (hl : s.Loaded x) :
    Wp E (forEach (truncDirect sb x) (List.range NDIRECT)) (fun _ s' => Good sb {x} s' ∧ Shrinks sb x s s' ∧
      (∀ i < NDIRECT, (s'.core x).addrs i = 0) ∧ (s'.core x).addrs NDIRECT = (s.core x).addrs NDIRECT) s := by
  refine wp_mono (wp_forEach (I := fun is s' => Good sb {x} s' ∧ Shrinks sb x s s' ∧ (∀ i ∈ is, i < NDIRECT) ∧
    (∀ i < NDIRECT, i ∉ is → (s'.core x).addrs i = 0) ∧ (s'.core x).addrs NDIRECT = (s.core x).addrs NDIRECT) ?_
    (List.range NDIRECT) ?_) ?_
  · rintro i is s1 ⟨hgood, hs, hlt, hdone, hind⟩
    have hi := hlt i List.mem_cons_self
    refine wp_mono (truncDirect_spec hgood (hs.loaded.2 hl) hi) fun _ s2 ⟨hgood', hs', haddr⟩ => ?_
    refine ⟨hgood', hs.trans hs', fun k hk => hlt k (List.mem_cons_of_mem i hk), fun k hk hnot => ?_, ?_⟩
    · rw [haddr]
      split
      · rfl
      · rename_i hki
        exact hdone k hk fun hmem => (List.mem_cons.1 hmem).elim hki hnot
    · rw [haddr, if_neg hi.ne']
      exact hind
  · exact ⟨h, .refl x s, fun i hi => List.mem_range.1 hi, fun i hi hnot => absurd (List.mem_range.2 hi) hnot, rfl⟩
  · rintro _ s' ⟨hgood, hs, -, hdone, hind⟩
    exact ⟨hgood, hs, fun i hi => hdone i hi List.not_mem_nil, hind⟩

/-- the places that still count while the entries `js` of the indirect block are left -/
def mask (s : St) (x : ℕ) (js : List ℕ) (p : ℕ × ℕ) : ℕ :=
  if p.1 = x ∧ NDIRECT < p.2 ∧ p.2 - (NDIRECT + 1) ∉ js then 0 else s.slot p

theorem mask_cons {js : List ℕ} (hj : j ∉ js) (p : ℕ × ℕ) : mask s x js p = Function.update (mask s x (j :: js)) (x, NDIRECT + 1 + j) 0 p := by
  obtain ⟨y, i⟩ := p
  by_cases hp : (y, i) = (x, NDIRECT + 1 + j)
  · rw [hp, update_self]
    unfold mask
    rw [if_pos ⟨rfl, by omega, by rw [Nat.add_sub_cancel_left]; exact hj⟩]
  · rw [update_of_ne hp]
    unfold mask
    refine if_congr ?_ rfl rfl
    refine and_congr_right fun hy => and_congr_right fun hi => not_congr ?_
    have hne : i - (NDIRECT + 1) ≠ j := by
      rintro rfl
      refine hp (Prod.ext hy ?_)
      show i = NDIRECT + 1 + (i - (NDIRECT + 1))
      omega
    exact ⟨fun hmem => List.mem_cons_of_mem j hmem, fun hmem => (List.mem_cons.1 hmem).resolve_left hne⟩

/-- the second loop: the blocks that the indirect block names are given back; the block itself keeps its contents -/
theorem truncIndirect_loop (h : Good sb {x} s) (hl : s.Loaded x) (ha : (s.core x).addrs NDIRECT ≠ 0) :
    Wp E (forEach (truncIndirect sb ((s.core x).addrs NDIRECT)) (List.range NINDIRECT))
      (fun _ s' => Shrinks sb x s s' ∧ s'.core x = s.core x ∧ Pool sb.datastart sb.size (mask s x []) s'.used) s := by
  have hty := h.typ x hl
  refine wp_mono (wp_forEach (I := fun js s' => Shrinks sb x s s' ∧ s'.core x = s.core x ∧ js.Nodup ∧
    (∀ j ∈ js, j < NINDIRECT) ∧ Pool sb.datastart sb.size (mask s x js) s'.used) ?_ (List.range NINDIRECT) ?_) ?_
  · rintro j js s1 ⟨hs, hcore, hnodup, hlt, hpool⟩
    have hj := hlt j List.mem_cons_self
    have hnot := (List.nodup_cons.1 hnodup).1
    have hrest : ∀ k ∈ js, k < NINDIRECT := fun k hk => hlt k (List.mem_cons_of_mem j hk)
    have hmask : mask s x (j :: js) (x, NDIRECT + 1 + j) = word (s1.data ((s.core x).addrs NDIRECT)) j := by
      unfold mask
      rw [if_neg fun hc => hc.2.2 (by rw [Nat.add_sub_cancel_left]; exact List.mem_cons_self), St.slot_of_loaded hl,
        Dinode.slot_indirect hty hj ha, hs.data]
    unfold truncIndirect
    refine wp_read.2 ?_
    split
    · rename_i hzero
      refine ⟨hs, hcore, (List.nodup_cons.1 hnodup).2, hrest, hpool.congr fun p => ?_⟩
      rw [mask_cons hnot, Function.update_eq_self_iff.2 (hmask.trans hzero).symm]
    · rename_i hne
      have hused := hpool.used_of_ref (hmask ▸ hne)
      have hrange := hpool.range _ (hmask ▸ hne)
      have hfree := hpool.free (hmask ▸ hne)
      rw [hmask] at hused hrange hfree
      refine wp_mono (bfree_spec hused) fun _ s' hs' => ?_
      subst hs'
      exact ⟨hs.trans (.released hrange.2), hcore, (List.nodup_cons.1 hnodup).2, hrest, hfree.congr (mask_cons hnot)⟩
  · refine ⟨.refl x s, rfl, List.nodup_range, fun j hj => List.mem_range.1 hj, h.pool.congr fun p => ?_⟩
    unfold mask
    split
    · rename_i hp
      -- past the entries of the indirect block there are no places
      have hgt : MAXFILE < p.2 := by
        have hge := hp.2.2
        rw [List.mem_range, not_lt] at hge
        unfold MAXFILE
        omega
      have hzero : s.slot p = 0 := by
        unfold St.slot Dinode.slot
        rw [if_neg (c := p.2 ≤ NDIRECT) (by omega), if_neg (c := p.2 ≤ MAXFILE ∧ _) fun hle => hle.1.not_gt hgt, ite_self]
      exact hzero.symm
    · rfl
  · rintro _ s' ⟨hs, hcore, -, -, hpool⟩
    exact ⟨hs, hcore, hpool⟩

/-- the indirect block goes last -/
theorem Good.clearedIndirect (h : Good sb {x} s) (hl : s.Loaded x) (hs : Shrinks sb x s s') (hcore : s'.core x = s.core x)
    (hdir : ∀ i < NDIRECT, (s.core x).addrs i = 0) (ha : (s.core x).addrs NDIRECT ≠ 0)
    (hpool : Pool sb.datastart sb.size (mask s x []) s'.used) :
    s'.used ((s.core x).addrs NDIRECT) = true ∧ Good sb {x} (s'.cleared sb x NDIRECT) ∧
      Shrinks sb x s (s'.cleared sb x NDIRECT) ∧ ∀ i ≤ NDIRECT, ((s'.cleared sb x NDIRECT).core x).addrs i = 0 := by
  have hmask : mask s x [] (x, NDIRECT) = (s'.core x).addrs NDIRECT := by
    unfold mask
    rw [if_neg fun hc => lt_irrefl _ hc.2.1, hcore]
    exact St.slot_self h hl le_rfl
  rw [← hcore] at ha ⊢
  have hne : mask s x [] (x, NDIRECT) ≠ 0 := hmask ▸ ha
  have hused := hpool.used_of_ref hne
  have hrange := hpool.range _ hne
  have hfree := hpool.free hne
  rw [hmask] at hused hrange hfree
  have hs' : Shrinks sb x s (s'.cleared sb x NDIRECT) := hs.trans ((Shrinks.released hrange.2).trans (.setAddr NDIRECT 0))
  have hcore' : (s'.cleared sb x NDIRECT).core x = (s'.core x).setAddr NDIRECT 0 := St.core_setCore
  have haddr : ∀ i ≤ NDIRECT, ((s'.cleared sb x NDIRECT).core x).addrs i = 0 := by
    intro i hi
    rw [hcore']
    rcases hi.lt_or_eq with hlt | rfl
    · rw [Dinode.setAddr_ne hlt.ne, hcore]
      exact hdir i hlt
    · exact Dinode.setAddr_self
  refine ⟨hused, h.shrink hs' (hfree.congr fun p => ?_), hs', haddr⟩
  obtain ⟨y, i⟩ := p
  by_cases hy : y = x
  · subst hy
    -- no place of the inode names a block any more
    have hzero : (s'.cleared sb y NDIRECT).slot (y, i) = 0 := by
      rw [St.slot_of_loaded (hs'.loaded.2 hl)]
      by_cases hi : i ≤ NDIRECT
      · rw [Dinode.slot_addrs (by rw [hs'.core]; exact h.typ y hl) hi]
        exact haddr i hi
      · exact Dinode.slot_no_indirect (not_le.1 hi) (haddr NDIRECT le_rfl)
    rw [hzero]
    by_cases hi : i = NDIRECT
    · rw [hi, update_self]
    · rw [update_of_ne fun heq => hi (Prod.mk.inj heq).2]
      unfold mask
      split
      · rfl
      · rename_i hnot
        have hlt : i < NDIRECT := by
          by_contra hge
          exact hnot ⟨rfl, by simp only; omega, List.not_mem_nil⟩
        rw [St.slot_self h hl hlt.le]
        exact (hdir i hlt).symm
  · rw [hs'.slot_ne hy, update_of_ne fun heq => hy (Prod.mk.inj heq).1]
    unfold mask
    rw [if_neg fun hc => hy hc.1]

theorem Dinode.slot_empty (haddr : ∀ i ≤ NDIRECT, d.addrs i = 0) (i : ℕ) : d.slot data i = 0 := by
  by_cases hi : i ≤ NDIRECT
  · unfold Dinode.slot
    rw [if_pos hi, haddr i hi, ite_self]
  · exact Dinode.slot_no_indirect (not_le.1 hi) (haddr NDIRECT le_rfl)

theorem maps_zero (h : ∀ i, d.slot data i = 0) : d.Maps data (blocks 0) := by
  intro i _
  refine iff_of_false (not_not.2 (h i)) ?_
  unfold Needed blocks BSIZE NDIRECT
  split_ifs <;> omega

/-- what `itrunc` leaves: an inode of size 0 without blocks -/
structure Emptied (sb : Superblock) (x : ℕ) (s s' : St) : Prop where
  good : Good sb ∅ s'
  shrinks : Shrinks sb x s s'
  addrs : ∀ i ≤ NDIRECT, (s'.core x).addrs i = 0

theorem Good.emptied (h : Good sb {x} s') (hl : s.Loaded x) (hs : Shrinks sb x s s')
    (haddr : ∀ i ≤ NDIRECT, (s'.core x).addrs i = 0) :
    Emptied sb x s (s'.update sb x { s'.core x with size := 0 }) := by
  have hl' := hs.loaded.2 hl
  refine ⟨h.update hl' rfl rfl (Nat.zero_le _) (maps_zero (Dinode.slot_empty haddr)), hs.trans ?_, fun i hi => ?_⟩
  · refine ⟨fun y hy => St.icache_setInode hy, St.ref_setCore, St.valid_setCore, ?_,
      fun y hy => update_of_ne hy .., rfl, rfl, rfl, rfl, rfl, fun c hc => ?_⟩
    · rw [St.core_update]
    · exact (Finset.mem_insert.1 hc).elim (fun hc => .inr (.inr hc)) .inl
  · rw [St.core_update]
    exact haddr i hi

/-- **`itrunc`** gives back all blocks of the inode; it panics in no case. -/
theorem itrunc_spec (h : Good sb {x} s) (hl : s.Loaded x) : Wp E (itrunc sb x) (fun _ => Emptied sb x s) s := by
  unfold itrunc
  refine wp_seq (truncDirect_loop h hl) fun _ s1 ⟨hgood, hs, hdir, _⟩ => wp_read.2 ?_
  have hl1 := hs.loaded.2 hl
  split
  · rename_i hzero
    refine hgood.emptied hl hs fun i hi => ?_
    rcases hi.lt_or_eq with hlt | rfl
    · exact hdir i hlt
    · exact hzero
  · rename_i ha
    refine wp_seq (truncIndirect_loop hgood hl1 ha) fun _ s2 ⟨hs2, hcore, hpool⟩ => ?_
    obtain ⟨hused, hgood', hs', haddr⟩ := hgood.clearedIndirect hl1 hs2 hcore hdir ha hpool
    refine wp_seq (bfree_spec hused) fun _ s3 hs3 => wp_write.2 ?_
    subst hs3
    have heq : (s2.released sb ((s1.core x).addrs NDIRECT)).setAddr x NDIRECT 0 = s2.cleared sb x NDIRECT := by
      unfold St.cleared
      rw [hcore]
    rw [heq]
    exact hgood'.emptied hl (hs.trans hs') haddr

end Xv6.FileSys
