/-
Inodes as byte strings. `St.contents` is the string that an inode stores: its blocks one after the other, cut at its size.
-/
import Xv6.Fs.Ownership

namespace Xv6.FileSys

open Xv6.Core Xv6.Core.Prog
/-- byte `o` of a file -/
def St.byte (s : St) (x : ℕ) : Data := fun o => s.data (s.slot (x, place (o / BSIZE))) (o % BSIZE)

/-- the string that an inode stores -/
def St.contents (s : St) (x : ℕ) : List UInt8 := (List.range (s.node x).size).map (s.byte x)

variable {sb : Superblock} {s s' : St} {X : Set ℕ} {x y n off o m : ℕ} {E : Panic → Prop} {src : List UInt8}

/-! ## Arithmetic of blocks -/

variable {i : ℕ}

theorem add_div_block (hi : off % BSIZE + i < BSIZE) : (off + i) / BSIZE = off / BSIZE := by
  unfold BSIZE at *
  omega

theorem add_mod_block (hi : off % BSIZE + i < BSIZE) : (off + i) % BSIZE = off % BSIZE + i := by
  unfold BSIZE at *
  omega

theorem div_lt_blocks {size : ℕ} (h : o < size) : o / BSIZE < blocks size := by
  unfold blocks BSIZE
  omega

theorem blocks_le_iff {size : ℕ} : blocks size ≤ n ↔ size ≤ BSIZE * n := by
  unfold blocks BSIZE
  omega

variable {a b : ℕ}

theorem blocks_mono (h : a ≤ b) : blocks a ≤ blocks b := by
  unfold blocks BSIZE
  omega

theorem blocks_max : max (blocks a) (blocks b) = blocks (max a b) := (Monotone.map_max fun _ _ => blocks_mono).symm

/-- a chunk that stays within a block ends in that block -/
theorem blocks_chunk (hm : 0 < m) (hle : m ≤ BSIZE - off % BSIZE) : blocks (off + m) = off / BSIZE + 1 := by
  unfold blocks BSIZE at *
  omega

/-! ## Bytes in a buffer -/

theorem setBytes_nil (b : Data) (off : ℕ) : setBytes b off [] = b := by
  funext i
  simp [setBytes]

theorem setBytes_apply (b : Data) (h : off ≤ o) (ho : o < off + src.length) : setBytes b off src o = src.get ⟨o - off, by omega⟩ := by
  unfold setBytes
  rw [if_pos h, List.getElem?_eq_getElem (by omega)]
  rfl

theorem setBytes_of_out (b : Data) (h : o < off ∨ off + src.length ≤ o) : setBytes b off src o = b o := by
  unfold setBytes
  split
  · rw [List.getElem?_eq_none (by omega)]
    rfl
  · rfl

theorem setBytes_congr {b b' : Data} (h : b o = b' o) : setBytes b off src o = setBytes b' off src o := by
  unfold setBytes
  rw [h]

/-- one string after the other -/
theorem setBytes_append (b : Data) (off : ℕ) (src src' : List UInt8) :
    setBytes (setBytes b off src) (off + src.length) src' = setBytes b off (src ++ src') := by
  funext o
  unfold setBytes
  by_cases h : off + src.length ≤ o
  · have hnone : src[o - off]? = none := List.getElem?_eq_none (by omega)
    rw [if_pos h, if_pos (by omega), if_pos (by omega), List.getElem?_append_right (by omega), hnone,
      show o - (off + src.length) = o - off - src.length by omega]
    rfl
  · rw [if_neg h]
    split
    · rw [List.getElem?_append_left (by omega)]
    · rfl

/-- a whole file after a write that starts within it -/
theorem map_setBytes (b : Data) (h : off ≤ n) : (List.range (max n (off + src.length))).map (setBytes b off src) =
      ((List.range n).map b).take off ++ src ++ ((List.range n).map b).drop (off + src.length) := by
  apply List.ext_getElem?
  intro i
  simp only [List.getElem?_map, List.getElem?_append, List.getElem?_take, List.getElem?_drop, List.length_append,
    List.length_take, List.length_map, List.length_range, min_eq_left h]
  by_cases hi : i < off
  · have hn : i < n := hi.trans_le h
    rw [if_pos (by omega), if_pos hi, List.getElem?_range (by omega), List.getElem?_range hn]
    simp [setBytes_of_out b (.inl hi), hi]
  by_cases hi' : i < off + src.length
  · rw [if_pos hi', if_neg hi, List.getElem?_range (by omega), List.getElem?_eq_getElem (by omega)]
    simp [setBytes_apply b (not_lt.1 hi) hi']
  rw [if_neg hi', show off + src.length + (i - (off + src.length)) = i by omega]
  by_cases hn : i < n
  · rw [List.getElem?_range (by omega), List.getElem?_range hn]
    simp [setBytes_of_out b (.inr (not_lt.1 hi'))]
  · rw [List.getElem?_eq_none (by simp; omega), List.getElem?_eq_none (by simp; omega)]
    rfl

/-! ## Reading -/

/-- a file block that is mapped can be read -/
def St.Mapped (s : St) (x o : ℕ) : Prop := o / BSIZE < MAXFILE ∧ s.slot (x, place (o / BSIZE)) ≠ 0

theorem readLoop_spec (h : Good sb X s) (hl : s.Loaded x) (fuel : ℕ) : ∀ off n, n ≤ fuel → (∀ o, off ≤ o → o < off + n → s.Mapped x o) →
      Wp E (readLoop sb x fuel off n) (fun r s' => r = (List.range n).map (fun i => s.byte x (off + i)) ∧ s' = s) s := by
  induction fuel with
  | zero =>
    intro off n hn _
    rw [Nat.le_zero.1 hn]
    exact ⟨rfl, rfl⟩
  | succ fuel ih =>
    intro off n hn hmapped
    unfold readLoop
    split
    · rename_i hzero
      subst hzero
      exact ⟨rfl, rfl⟩
    rename_i hpos
    obtain ⟨hmax, hne⟩ := hmapped off le_rfl (by omega)
    refine wp_seq (bmap_mapped h hl hmax hne) fun addr s1 ⟨haddr, hs1⟩ => wp_read.2 ?_
    subst haddr hs1
    have hoff : off % BSIZE < BSIZE := Nat.mod_lt _ (by decide)
    have hm : min n (BSIZE - off % BSIZE) ≤ n := min_le_left ..
    have hmb : min n (BSIZE - off % BSIZE) ≤ BSIZE - off % BSIZE := min_le_right ..
    have hm0 : 0 < min n (BSIZE - off % BSIZE) := by omega
    generalize min n (BSIZE - off % BSIZE) = m at hm hmb hm0 ⊢
    refine wp_seq (ih (off + m) (n - m) (by omega) fun o ho ho' => hmapped o (by omega) (by omega))
      fun rest s2 ⟨hrest, hs2⟩ => ?_
    subst hrest hs2
    refine ⟨?_, rfl⟩
    have hsplit : List.range n = List.range m ++ (List.range (n - m)).map (m + ·) := by
      rw [← List.range_add, Nat.add_sub_cancel' hm]
    rw [hsplit, List.map_append, List.map_map]
    refine congrArg₂ _ (List.map_congr_left fun i hi => ?_) (List.map_congr_left fun i _ => ?_)
    · have hi := List.mem_range.1 hi
      unfold St.byte
      rw [add_div_block (by omega), add_mod_block (by omega)]
    · simp only [Function.comp_apply, Nat.add_assoc]

theorem Good.mapped (h : Good sb X s) (hx : x ∉ X) (hl : s.Loaded x) (ho : o < (s.core x).size) : s.Mapped x o := by
  have hnode := St.node_of_loaded hl
  have hty := h.typ x hl
  have hsize := h.size x hx (hnode ▸ hty)
  have hmaps := h.maps x hx (hnode ▸ hty)
  rw [hnode] at hsize hmaps
  have hlt : o / BSIZE < MAXFILE := by
    refine (div_lt_blocks ho).trans_le (blocks_le_iff.2 ?_)
    rw [mul_comm]
    exact hsize
  exact ⟨hlt, ((maps_iff hl).1 hmaps _ (place_le hlt)).2 (needed_place.2 (div_lt_blocks ho))⟩

/-- **`readi`** gives the bytes from `off` on, up to the end of the file, and changes nothing. -/
theorem readi_spec (h : Good sb X s) (hx : x ∉ X) (hl : s.Loaded x) (hdev : (s.core x).type ≠ .dev) (off n : ℕ) :
    Wp E (readi sb x off n) (fun r s' => s' = s ∧ r = if (s.core x).size < off ∨ uint (off + n) < off then none
      else some ((List.range (min n ((s.core x).size - off))).map fun i => s.byte x (off + i))) s := by
  unfold readi
  refine wp_read.2 ?_
  rw [if_neg hdev]
  split
  · rename_i hfail
    exact ⟨rfl, rfl⟩
  rename_i hok
  rw [not_or, not_lt, not_lt] at hok
  have hn : (if (s.core x).size < off + n then (s.core x).size - off else n) = min n ((s.core x).size - off) := by
    split <;> omega
  rw [hn]
  refine wp_seq (readLoop_spec h hl _ off _ le_rfl fun o ho ho' => h.mapped hx hl (by omega)) fun r s' ⟨hr, hs'⟩ => ?_
  subst hr hs'
  exact ⟨rfl, rfl⟩

/-! ## Writing -/

/-- what has been written so far: `src` at `off`, in a file of which `n` blocks were mapped -/
structure Wrote (sb : Superblock) (x n off : ℕ) (src : List UInt8) (s s' : St) : Prop where
  good : Good sb {x} s'
  ext : Extends x s s'
  maps : (s'.core x).Maps s'.data (max n (blocks (off + src.length)))
  byte : ∀ o, o / BSIZE < n ∨ (off ≤ o ∧ o < off + src.length) → s'.byte x o = setBytes (s.byte x) off src o
  same : off + src.length ≤ BSIZE * n → s'.core x = s.core x
  free : s'.nfree sb + need (max n (blocks (off + src.length))) = s.nfree sb + need n
  logged : ∀ c ∈ s'.logged, c ∈ s.logged ∨
    (∃ o, off ≤ o ∧ o < off + src.length ∧ c = s'.slot (x, place (o / BSIZE))) ∨
    (c ≠ 0 ∧ c = s'.slot (x, NDIRECT)) ∨ ∃ b < sb.size, c = BBLOCK b sb

theorem Wrote.nil (h : Good sb {x} s) (hmaps : (s.core x).Maps s.data n) (hoff : off ≤ BSIZE * n) : Wrote sb x n off [] s s := by
  have hn : max n (blocks (off + ([] : List UInt8).length)) = n := max_eq_left (blocks_le_iff.2 hoff)
  refine ⟨h, .refl x s, ?_, fun o _ => ?_, fun _ => rfl, ?_, fun c hc => .inl hc⟩
  · rw [hn]
    exact hmaps
  · rw [setBytes_nil]
  · rw [hn]

/-- one write after the other -/
theorem Wrote.append {s'' : St} {src' : List UInt8} (h : Wrote sb x n off src s s') (hl : s.Loaded x)
    (h' : Wrote sb x (max n (blocks (off + src.length))) (off + src.length) src' s' s'')
    (hmax : off + src.length ≤ MAXFILE * BSIZE) : Wrote sb x n off (src ++ src') s s'' := by
  have hlen : off + (src ++ src').length = off + src.length + src'.length := by
    rw [List.length_append]
    omega
  have hn : max (max n (blocks (off + src.length))) (blocks (off + src.length + src'.length)) =
      max n (blocks (off + src.length + src'.length)) := by
    rw [max_assoc, max_eq_right (blocks_mono (Nat.le_add_right ..))]
  have hmaps' := h'.maps
  have hfree := h.free
  have hfree' := h'.free
  rw [hn] at hmaps' hfree'
  refine ⟨h'.good, h.ext.trans h'.ext, ?_, fun o ho => ?_, fun hle => ?_, ?_, fun c hc => ?_⟩
  · rw [hlen]
    exact hmaps'
  · rw [← setBytes_append]
    have hcover : o / BSIZE < n ∨ (off ≤ o ∧ o < off + src.length) ∨ off + src.length ≤ o ∧
        o < off + src.length + src'.length := by
      rw [hlen] at ho
      omega
    rw [h'.byte o]
    · by_cases hin : off + src.length ≤ o ∧ o < off + src.length + src'.length
      · rw [setBytes_apply _ hin.1 hin.2, setBytes_apply _ hin.1 hin.2]
      · exact setBytes_congr (h.byte o (by tauto))
    · rcases hcover with hlt | hin | hin
      · exact .inl (lt_max_of_lt_left hlt)
      · exact .inl (lt_max_of_lt_right (div_lt_blocks hin.2))
      · exact .inr hin
  · rw [hlen] at hle
    rw [h'.same, h.same]
    · omega
    · exact hle.trans (Nat.mul_le_mul_left _ (le_max_left ..))
  · rw [hlen]
    omega
  · rw [hlen]
    rcases h'.logged c hc with hc | ⟨o, ho, ho', hc⟩ | hc
    · rcases h.logged c hc with hc | ⟨o, ho, ho', hc⟩ | hc | hc
      · exact .inl hc
      · -- a block written before is still at its place
        have hlt : o / BSIZE < MAXFILE := by
          refine (div_lt_blocks ho').trans_le (blocks_le_iff.2 ?_)
          rw [mul_comm]
          exact hmax
        have hne := ((maps_iff ((h.ext.loaded x).2 hl)).1 h.maps _ (place_le hlt)).2
          (needed_place.2 (lt_max_of_lt_right (div_lt_blocks ho')))
        exact .inr (.inl ⟨o, ho, by omega, hc.trans (h'.ext.slot _ hne).symm⟩)
      · have hne : s'.slot (x, NDIRECT) ≠ 0 := hc.2 ▸ hc.1
        exact .inr (.inr (.inl ⟨hc.1, hc.2.trans (h'.ext.slot _ hne).symm⟩))
      · exact .inr (.inr (.inr hc))
    · exact .inr (.inl ⟨o, by omega, ho', hc⟩)
    · exact .inr (.inr hc)

/-- new contents for a block of `x` that is not its indirect block: nobody's addresses change -/
theorem Good.poke {addr : ℕ} {v : Data} (h : Good sb {x} s) (hi : i ≠ NDIRECT) (haddr : s.slot (x, i) = addr) :
    Good sb {x} ((s.setData addr v).logWrite addr) ∧ (∀ p, ((s.setData addr v).logWrite addr).slot p = s.slot p) ∧ Extends x s ((s.setData addr v).logWrite addr) := by
  have hother : ∀ p, p ≠ (x, i) → s.slot p ≠ 0 → s.slot p ≠ addr := fun p hp hpz heq =>
    hp (h.pool.inj p (x, i) hpz (heq.trans haddr.symm))
  have hslot : ∀ p, ((s.setData addr v).logWrite addr).slot p = s.slot p := by
    intro p
    refine Dinode.slot_congr fun hty ha => ?_
    have hself : s.slot (p.1, NDIRECT) = (s.node p.1).addrs NDIRECT := Dinode.slot_addrs hty le_rfl
    have hdiff := hother (p.1, NDIRECT) (fun heq => hi (Prod.mk.inj heq).2.symm) (by rw [hself]; exact ha)
    rw [hself] at hdiff
    exact update_of_ne hdiff ..
  refine ⟨?_, hslot, ?_⟩
  · exact h.edit (Set.mem_singleton x) (fun _ _ => rfl) (fun _ _ => rfl) (fun y _ j => hslot (y, j))
      (h.pool.congr hslot) (h.typ x)
  · refine ⟨fun _ _ => rfl, rfl, rfl, rfl, rfl, rfl, rfl, rfl, rfl, fun p _ => hslot p, fun p hp hpx => ?_⟩
    exact update_of_ne (hother p (fun heq => hpx (congrArg Prod.fst heq)) hp) ..

/-- the bytes of the file after a chunk went to the block of `off` -/
theorem Good.poke_byte {addr : ℕ} (h : Good sb {x} s) (haddr : s.slot (x, place (off / BSIZE)) = addr) (hne : addr ≠ 0)
    (hle : src.length ≤ BSIZE - off % BSIZE) (o : ℕ) :
    ((s.setData addr (setBytes (s.data addr) (off % BSIZE) src)).logWrite addr).byte x o = setBytes (s.byte x) off src o := by
  have hslot := (h.poke (v := setBytes (s.data addr) (off % BSIZE) src) (place_ne_indirect _) haddr).2.1
  unfold St.byte
  rw [hslot]
  by_cases hblock : o / BSIZE = off / BSIZE
  · have hdata : ((s.setData addr (setBytes (s.data addr) (off % BSIZE) src)).logWrite addr).data addr =
        setBytes (s.data addr) (off % BSIZE) src := update_self ..
    rw [hblock, haddr, hdata]
    unfold setBytes
    have hidx : o % BSIZE - off % BSIZE = o - off := by
      unfold BSIZE at *
      omega
    have hiff : off % BSIZE ≤ o % BSIZE ↔ off ≤ o := by
      unfold BSIZE at *
      omega
    simp only [hidx, hiff, hblock, haddr]
  · have hout : o < off ∨ off + src.length ≤ o := by
      unfold BSIZE at *
      omega
    have hother : s.slot (x, place (o / BSIZE)) ≠ addr := fun heq =>
      hblock (place_inj (Prod.mk.inj (h.pool.inj _ _ (heq ▸ hne) (heq.trans haddr.symm))).2)
    rw [setBytes_of_out _ hout]
    exact congrFun (update_of_ne hother ..) _

/-- a chunk within one block -/
theorem Bmapped.wrote (h : Bmapped sb x n (off / BSIZE) s b s') (hl : s.Loaded x) (hmaps : (s.core x).Maps s.data n) (hpos : 0 < src.length)
    (hle : src.length ≤ BSIZE - off % BSIZE) (hmax : off / BSIZE < MAXFILE) (hn : n ≤ MAXFILE) :
    Wrote sb x n off src s ((s'.setData b (setBytes (s'.data b) (off % BSIZE) src)).logWrite b) := by
  have hl' := (h.ext.loaded x).2 hl
  have hmod : off % BSIZE < BSIZE := Nat.mod_lt _ (by decide)
  have hblocks := blocks_chunk hpos hle
  have hslots := (maps_iff hl').1 h.maps
  have hne : b ≠ 0 := by
    rw [← h.slot]
    exact (hslots _ (place_le hmax)).2 (needed_place.2 (lt_max_of_lt_right (Nat.lt_succ_self _)))
  obtain ⟨hgood, hslot, hext⟩ := h.good.poke (v := setBytes (s'.data b) (off % BSIZE) src) (place_ne_indirect _) h.slot
  refine ⟨hgood, h.ext.trans hext, ?_, fun o ho => ?_, fun hle => ?_, ?_, fun c hc => ?_⟩
  · refine (maps_iff ((hext.loaded x).2 hl')).2 fun i hi => ?_
    rw [hslot, hblocks]
    exact hslots i hi
  · rw [h.good.poke_byte h.slot hne hle]
    by_cases hin : off ≤ o ∧ o < off + src.length
    · rw [setBytes_apply _ hin.1 hin.2, setBytes_apply _ hin.1 hin.2]
    · refine setBytes_congr ?_
      have hlt : o / BSIZE < n := ho.resolve_right hin
      have hold := ((maps_iff hl).1 hmaps _ (place_le (hlt.trans_le hn))).2 (needed_place.2 hlt)
      unfold St.byte
      rw [h.ext.slot _ hold, h.own _ (place_ne_indirect _) hold]
  · have hlt : off / BSIZE < n := by
      unfold BSIZE at *
      omega
    rw [h.same hlt]
    rfl
  · rw [hblocks]
    exact h.free
  · have hc : c ∈ insert b s'.logged := hc
    have hb : b = ((s'.setData b (setBytes (s'.data b) (off % BSIZE) src)).logWrite b).slot (x, place (off / BSIZE)) := by
      rw [hslot]
      exact h.slot.symm
    rcases Finset.mem_insert.1 hc with hc | hc
    · exact .inr (.inl ⟨off, le_rfl, by omega, hc.trans hb⟩)
    rcases h.logged c hc with hc | hc | hc | hc
    · exact .inl hc
    · exact .inr (.inl ⟨off, le_rfl, by omega, hc.trans hb⟩)
    · refine .inr (.inr (.inl ⟨hc.1, ?_⟩))
      rw [hslot]
      exact hc.2
    · exact .inr (.inr (.inr hc))

theorem writeLoop_spec (hsb : sb.Ok) (fuel : ℕ) :
    ∀ (s : St) (n off : ℕ) (src : List UInt8), Good sb {x} s → s.Loaded x → (s.core x).Maps s.data n → n ≤ MAXFILE →
      src.length ≤ fuel → off ≤ BSIZE * n → off + src.length ≤ MAXFILE * BSIZE →
      (E .balloc ∨ need (max n (blocks (off + src.length))) ≤ s.nfree sb + need n) →
      Wp E (writeLoop sb x fuel off src) (fun _ => Wrote sb x n off src s) s := by
  induction fuel with
  | zero =>
    intro s n off src h _ hmaps _ hlen hoff _ _
    rw [List.length_eq_zero_iff.1 (Nat.le_zero.1 hlen)]
    exact .nil h hmaps hoff
  | succ fuel ih =>
    intro s n off src h hl hmaps hn hlen hoff hmax hE
    unfold writeLoop
    split
    · rename_i hzero
      rw [List.length_eq_zero_iff.1 hzero]
      exact .nil h hmaps hoff
    rename_i hpos
    have hmod : off % BSIZE < BSIZE := Nat.mod_lt _ (by decide)
    have hm : min src.length (BSIZE - off % BSIZE) ≤ src.length := min_le_left ..
    have hmb : min src.length (BSIZE - off % BSIZE) ≤ BSIZE - off % BSIZE := min_le_right ..
    have hm0 : 0 < min src.length (BSIZE - off % BSIZE) := by omega
    simp only
    generalize min src.length (BSIZE - off % BSIZE) = m at hm hmb hm0 ⊢
    have hbn : off / BSIZE ≤ n := by
      unfold BSIZE at *
      omega
    have hbmax : off / BSIZE < MAXFILE := by
      unfold BSIZE MAXFILE at *
      omega
    have hblocks := blocks_chunk hm0 hmb
    have hle : need (off / BSIZE + 1) ≤ need (max n (blocks (off + src.length))) :=
      need_mono (hblocks ▸ le_max_of_le_right (blocks_mono (by omega)))
    refine wp_seq (bmap_spec (hE.imp_right hle.trans) hsb h hl hmaps hbn hbmax) fun b s1 hb => ?_
    -- one chunk has been written, and the rest starts at its end
    have htake : (src.take m).length = m := by
      rw [List.length_take, min_eq_left hm]
    have hchunk : Wrote sb x n off (src.take m) s _ := hb.wrote hl hmaps (by omega) (by omega) hbmax hn
    refine wp_write.2 ?_
    have hn' : max n (blocks (off + (src.take m).length)) ≤ MAXFILE := by
      rw [htake, hblocks]
      exact max_le hn hbmax
    have hoff' : off + m ≤ BSIZE * max n (blocks (off + (src.take m).length)) := by
      rw [htake]
      exact blocks_le_iff.1 (le_max_right ..)
    have hsum : off + m + (src.drop m).length = off + src.length := by
      rw [List.length_drop]
      omega
    have hrest := ih _ _ (off + m) (src.drop m) hchunk.good ((hchunk.ext.loaded x).2 hl) hchunk.maps hn'
      (by rw [List.length_drop]; omega) hoff' (hsum ▸ hmax) (hE.imp_right fun hle => ?_)
    · refine wp_mono hrest fun _ s' hs' => ?_
      rw [← List.take_append_drop m src]
      refine hchunk.append hl ?_ (by omega)
      rw [htake] at hs' ⊢
      exact hs'
    · have hfree := hchunk.free
      have hmono : max (max n (blocks (off + (src.take m).length))) (blocks (off + src.length)) =
          max n (blocks (off + src.length)) := by
        rw [max_assoc, max_eq_right (blocks_mono (by omega))]
      rw [hsum, hmono]
      omega

/-- the fields of `x` other than its type and addresses change, in the cache and on the disk -/
def St.update (s : St) (sb : Superblock) (x : ℕ) (d : Dinode) : St :=
  ((s.setCore x d).setDinode x ((s.setCore x d).core x)).logWrite (IBLOCK x sb)

variable {d : Dinode}

theorem St.core_update : (s.update sb x d).core x = d := St.core_setCore

theorem St.dinode_update : (s.update sb x d).dinode x = d :=
  (update_self ..).trans St.core_setCore

theorem St.loaded_update : (s.update sb x d).Loaded y ↔ s.Loaded y := St.loaded_setCore

theorem St.slot_update (hl : s.Loaded x) (hty : d.type = (s.core x).type) (haddr : d.addrs = (s.core x).addrs)
    (p : ℕ × ℕ) : (s.update sb x d).slot p = s.slot p := by
  obtain ⟨y, i⟩ := p
  by_cases hy : y = x
  · subst hy
    rw [St.slot_of_loaded hl, St.slot_of_loaded (St.loaded_update.2 hl), St.core_update]
    unfold Dinode.slot
    rw [hty, haddr]
    rfl
  · unfold St.slot
    have hnode : (s.update sb x d).node y = s.node y :=
      St.node_congr (St.icache_setInode hy) (update_of_ne hy ..)
    rw [hnode]
    rfl

theorem Good.update (h : Good sb {x} s) (hl : s.Loaded x) (hty : d.type = (s.core x).type)
    (haddr : d.addrs = (s.core x).addrs) (hsize : d.size ≤ MAXFILE * BSIZE)
    (hmaps : (s.core x).Maps s.data (blocks d.size)) : Good sb ∅ (s.update sb x d) := by
  have hslot : ∀ p, (s.update sb x d).slot p = s.slot p := St.slot_update hl hty haddr
  have hl' : (s.update sb x d).Loaded x := St.loaded_update.2 hl
  have hnode : (s.update sb x d).node x = d := (St.node_of_loaded hl').trans St.core_update
  have hgood : Good sb {x} (s.update sb x d) := by
    refine h.edit (Set.mem_singleton x) (fun y hy => St.icache_setInode hy) (fun y hy => update_of_ne hy ..)
      (fun y _ i => hslot (y, i)) (h.pool.congr hslot) fun _ => ?_
    rw [St.core_update, hty]
    exact h.typ x hl
  refine hgood.close (fun _ => ?_) (fun _ => ?_) fun _ => ?_
  · rw [hnode]
    exact hsize
  · rw [St.node_of_loaded hl', maps_iff hl', St.core_update]
    intro i hi
    rw [hslot]
    exact (maps_iff hl).1 hmaps i hi
  · rw [St.core_update, St.dinode_update]

/-- what `writei` leaves when it succeeds -/
structure Written (sb : Superblock) (x off : ℕ) (src : List UInt8) (s s' : St) : Prop where
  good : Good sb ∅ s'
  cache : ∀ y, y ≠ x → s'.icache y = s.icache y
  ref : (s'.icache x).ref = (s.icache x).ref
  valid : (s'.icache x).valid = (s.icache x).valid
  core : s'.core x =
    { s.core x with size := max (s.core x).size (off + src.length), addrs := (s'.core x).addrs }
  disk : ∀ y, y ≠ x → s'.dinode y = s.dinode y
  live : s'.live = s.live
  cwd : s'.cwd = s.cwd
  file : s'.file = s.file
  ofile : s'.ofile = s.ofile
  byte : ∀ o < (s'.core x).size, s'.byte x o = setBytes (s.byte x) off src o
  other : ∀ p, s.slot p ≠ 0 → p.1 ≠ x → s'.slot p = s.slot p ∧ s'.data (s.slot p) = s.data (s.slot p)
  logged : ∀ c ∈ s'.logged, c ∈ s.logged ∨
    (∃ o, off ≤ o ∧ o < off + src.length ∧ c = s'.slot (x, place (o / BSIZE))) ∨
    (c ≠ 0 ∧ c = s'.slot (x, NDIRECT)) ∨ (∃ b < sb.size, c = BBLOCK b sb) ∨ c = IBLOCK x sb

/-- the file has not grown -/
theorem Wrote.within (h : Wrote sb x (blocks (s.core x).size) off src s s') (hgood : Good sb ∅ s) (hl : s.Loaded x)
    (hle : off + src.length ≤ (s.core x).size) : Written sb x off src s s' := by
  have hl' := (h.ext.loaded x).2 hl
  have hnode := St.node_of_loaded hl
  have hnode' := St.node_of_loaded hl'
  have hcore : s'.core x = s.core x := h.same (hle.trans (blocks_le_iff.1 le_rfl))
  have hmaps := h.maps
  rw [max_eq_left (blocks_mono hle)] at hmaps
  have hty := hgood.typ x hl
  refine ⟨h.good.close (fun _ => ?_) (fun _ => ?_) (fun _ => ?_), h.ext.cache, h.ext.ref, h.ext.valid, ?_,
    fun y _ => congrFun h.ext.disk y, h.ext.live, h.ext.cwd, h.ext.file, h.ext.ofile, fun o ho => h.byte o (.inl ?_),
    fun p hp hpx => ⟨h.ext.slot p hp, h.ext.data p hp hpx⟩, fun c hc => ?_⟩
  · rw [hnode', hcore, ← hnode]
    exact hgood.size x (Set.notMem_empty x) (hnode ▸ hty)
  · rw [hnode']
    rw [hcore] at hmaps ⊢
    exact hmaps
  · rw [hcore, h.ext.disk]
    exact hgood.coh x (Set.notMem_empty x) hl
  · rw [hcore, max_eq_left hle]
  · rw [hcore] at ho
    exact div_lt_blocks ho
  · rcases h.logged c hc with hc | hc | hc | hc
    · exact .inl hc
    · exact .inr (.inl hc)
    · exact .inr (.inr (.inl hc))
    · exact .inr (.inr (.inr (.inl hc)))

/-- the file has grown, and its inode is written with the new size -/
theorem Wrote.grown (h : Wrote sb x (blocks (s.core x).size) off src s s') (hl : s.Loaded x) (hoff : off ≤ (s.core x).size)
    (hgt : (s.core x).size < off + src.length) (hmax : off + src.length ≤ MAXFILE * BSIZE) :
    Written sb x off src s (s'.update sb x { s'.core x with size := off + src.length }) := by
  have hl' := (h.ext.loaded x).2 hl
  have hmaps := h.maps
  rw [max_eq_right (blocks_mono hgt.le)] at hmaps
  have hslot : ∀ p, (s'.update sb x { s'.core x with size := off + src.length }).slot p = s'.slot p :=
    St.slot_update hl' rfl rfl
  refine ⟨h.good.update hl' rfl rfl hmax hmaps, fun y hy => (St.icache_setInode hy).trans (h.ext.cache y hy),
    St.ref_setCore.trans h.ext.ref, St.valid_setCore.trans h.ext.valid, ?_,
    fun y hy => (update_of_ne hy ..).trans (congrFun h.ext.disk y), h.ext.live, h.ext.cwd, h.ext.file, h.ext.ofile,
    fun o ho => ?_, fun p hp hpx => ⟨(hslot p).trans (h.ext.slot p hp), h.ext.data p hp hpx⟩, fun c hc => ?_⟩
  · rw [St.core_update, max_eq_right hgt.le, h.ext.core]
  · rw [St.core_update] at ho
    have hbyte := h.byte o ((lt_or_ge o off).imp (fun hlt => div_lt_blocks (hlt.trans_le hoff)) fun hge => ⟨hge, ho⟩)
    rw [← hbyte]
    unfold St.byte
    rw [hslot]
    rfl
  · have hc : c ∈ insert (IBLOCK x sb) s'.logged := hc
    rcases Finset.mem_insert.1 hc with hc | hc
    · exact .inr (.inr (.inr (.inr hc)))
    rcases h.logged c hc with hc | ⟨o, ho, ho', hc⟩ | hc | hc
    · exact .inl hc
    · exact .inr (.inl ⟨o, ho, ho', hc.trans (hslot _).symm⟩)
    · exact .inr (.inr (.inl ⟨hc.1, hc.2.trans (hslot _).symm⟩))
    · exact .inr (.inr (.inr (.inl hc)))

/-- why `writei` returns -1 -/
def writeFails (size off n : ℕ) : Prop := size < off ∨ uint (off + n) < off ∨ MAXFILE * BSIZE < off + n

theorem writei_fails (hdev : (s.core x).type ≠ .dev) (hfail : writeFails (s.core x).size off src.length) :
    Wp E (writei sb x src off) (fun r s' => r = none ∧ s' = s) s := by
  unfold writei
  refine wp_read.2 ?_
  rw [if_neg hdev]
  split
  · exact ⟨rfl, rfl⟩
  rename_i hrange
  rw [if_pos]
  · exact ⟨rfl, rfl⟩
  · unfold writeFails at hfail
    tauto

/-- what `writei` leaves once its loop has left `s'` -/
def St.sized (s' : St) (sb : Superblock) (x size last : ℕ) : St :=
  if size < last then s'.update sb x { s'.core x with size := last } else s'

/-- `writei` that does not fail: its loop writes the bytes, and the size follows -/
theorem writei_loop (hsb : sb.Ok) (h : Good sb ∅ s) (hl : s.Loaded x) (hdev : (s.core x).type ≠ .dev)
    (hok : ¬ writeFails (s.core x).size off src.length)
    (hE : E .balloc ∨ need (blocks (max (s.core x).size (off + src.length))) ≤ s.nfree sb + need (blocks (s.core x).size)) :
    Wp E (writei sb x src off) (fun r s' => r = some src.length ∧ ∃ s1, Wrote sb x (blocks (s.core x).size) off src s s1 ∧
      s' = s1.sized sb x (s.core x).size (off + src.length)) s := by
  have hrange : ¬ ((s.core x).size < off ∨ uint (off + src.length) < off) := fun hor => hok (hor.imp_right .inl)
  have hfit : ¬ MAXFILE * BSIZE < off + src.length := fun hbig => hok (.inr (.inr hbig))
  unfold writei
  refine wp_read.2 ?_
  rw [if_neg hdev, if_neg hrange, if_neg hfit]
  rw [not_or, not_lt, not_lt] at hrange
  have hnode := St.node_of_loaded hl
  have hty := h.typ x hl
  have hsize := h.size x (Set.notMem_empty x) (hnode ▸ hty)
  have hmaps := h.maps x (Set.notMem_empty x) (hnode ▸ hty)
  rw [hnode] at hsize hmaps
  have hn : blocks (s.core x).size ≤ MAXFILE := by
    refine blocks_le_iff.2 ?_
    rw [mul_comm]
    exact hsize
  refine wp_seq (writeLoop_spec hsb _ s (blocks (s.core x).size) off src (h.mono (Set.empty_subset _)) hl hmaps hn le_rfl
    (hrange.1.trans (blocks_le_iff.1 le_rfl)) (not_lt.1 hfit) (blocks_max ▸ hE)) fun _ s1 hs1 => ?_
  split
  · rename_i hgrow
    exact ⟨rfl, s1, hs1, (if_pos hgrow.2).symm⟩
  · rename_i hgrow
    exact ⟨rfl, s1, hs1, (if_neg fun hlt => hgrow ⟨by omega, hlt⟩).symm⟩

/-- **`writei`** fails with nothing changed, or replaces the bytes from `off` on and extends the file as far as they go. It
runs out of blocks only if there are fewer free ones than the file needs more. -/
theorem writei_spec (hsb : sb.Ok) (h : Good sb ∅ s) (hl : s.Loaded x) (hdev : (s.core x).type ≠ .dev)
    (hE : E .balloc ∨ need (blocks (max (s.core x).size (off + src.length))) ≤ s.nfree sb + need (blocks (s.core x).size)) :
    Wp E (writei sb x src off) (fun r s' => (writeFails (s.core x).size off src.length ∧ r = none ∧ s' = s) ∨
      (¬ writeFails (s.core x).size off src.length ∧ r = some src.length ∧ Written sb x off src s s')) s := by
  by_cases hok : writeFails (s.core x).size off src.length
  · exact wp_mono (writei_fails hdev hok) fun r s' hr => .inl ⟨hok, hr⟩
  refine wp_mono (writei_loop hsb h hl hdev hok hE) fun r s' ⟨hr, s1, hs1, hs'⟩ => .inr ⟨hok, hr, ?_⟩
  rw [hs', St.sized]
  split
  · rename_i hgrow
    exact hs1.grown hl (not_lt.1 fun hlt => hok (.inl hlt)) hgrow (not_lt.1 fun hbig => hok (.inr (.inr hbig)))
  · rename_i hgrow
    exact hs1.within h hl (not_lt.1 hgrow)

/-- the free blocks that `writei` takes -/
theorem writei_nfree (hsb : sb.Ok) (h : Good sb ∅ s) (hl : s.Loaded x) (hdev : (s.core x).type ≠ .dev)
    (hok : ¬ writeFails (s.core x).size off src.length)
    (hE : E .balloc ∨ need (blocks (max (s.core x).size (off + src.length))) ≤ s.nfree sb + need (blocks (s.core x).size)) :
    Wp E (writei sb x src off) (fun _ s' =>
      s'.nfree sb + need (blocks (max (s.core x).size (off + src.length))) = s.nfree sb + need (blocks (s.core x).size)) s := by
  refine wp_mono (writei_loop hsb h hl hdev hok hE) fun r s' ⟨_, s1, hs1, hs'⟩ => ?_
  have hused : s'.nfree sb = s1.nfree sb := by
    rw [hs', St.sized]
    split <;> rfl
  rw [hused, ← blocks_max]
  exact hs1.free

/-! ## Strings -/

theorem St.contents_eq (h : s'.node y = s.node y) (hbyte : ∀ o < (s.node y).size, s'.byte y o = s.byte y o) :
    s'.contents y = s.contents y := by
  unfold St.contents
  rw [h]
  exact List.map_congr_left fun o ho => hbyte o (List.mem_range.1 ho)

/-- another inode has the same bytes after a write -/
theorem Written.byte_ne (h : Written sb x off src s s') (hgood : Good sb ∅ s) (hy : y ≠ x) (hty : (s.node y).type ≠ .free)
    (ho : o < (s.node y).size) : s'.byte y o = s.byte y o := by
  have hmaps := hgood.maps y (Set.notMem_empty y) hty
  have hsize := hgood.size y (Set.notMem_empty y) hty
  have hlt : o / BSIZE < MAXFILE := by
    refine (div_lt_blocks ho).trans_le (blocks_le_iff.2 ?_)
    rw [mul_comm]
    exact hsize
  have hne : s.slot (y, place (o / BSIZE)) ≠ 0 := (hmaps _ (place_le hlt)).2 (needed_place.2 (div_lt_blocks ho))
  obtain ⟨hslot, hdata⟩ := h.other _ hne hy
  unfold St.byte
  rw [hslot, hdata]

theorem Written.contents_ne (h : Written sb x off src s s') (hgood : Good sb ∅ s) (hy : y ≠ x)
    (hty : (s.node y).type ≠ .free) : s'.contents y = s.contents y :=
  St.contents_eq (St.node_congr (h.cache y hy) (h.disk y hy)) fun _ ho => h.byte_ne hgood hy hty ho

/-- the written inode: the bytes from `off` on are replaced -/
theorem Written.contents_self (h : Written sb x off src s s') (hl : s.Loaded x) (hoff : off ≤ (s.core x).size) :
    s'.contents x = (s.contents x).take off ++ src ++ (s.contents x).drop (off + src.length) := by
  have hl' : s'.Loaded x := by
    unfold St.Loaded
    rw [h.ref, h.valid]
    exact hl
  have hsize : (s'.core x).size = max (s.core x).size (off + src.length) := by
    rw [h.core]
  unfold St.contents
  rw [St.node_of_loaded hl, St.node_of_loaded hl', ← map_setBytes _ hoff, ← hsize]
  exact List.map_congr_left fun o ho => h.byte o (List.mem_range.1 ho)

/-- the bytes that `readi` gives are a piece of the string -/
theorem St.contents_slice (hl : s.Loaded x) (off n : ℕ) :
    (List.range (min n ((s.core x).size - off))).map (fun i => s.byte x (off + i)) = ((s.contents x).drop off).take n := by
  unfold St.contents
  rw [St.node_of_loaded hl]
  apply List.ext_getElem?
  intro i
  rw [List.getElem?_take, List.getElem?_drop, List.getElem?_map, List.getElem?_map]
  by_cases hi : i < n
  · rw [if_pos hi]
    by_cases hs : off + i < (s.core x).size
    · rw [List.getElem?_range (by omega), List.getElem?_range hs]
      rfl
    · rw [List.getElem?_eq_none (by simp; omega), List.getElem?_eq_none (by simp; omega)]
      rfl
  · rw [if_neg hi, List.getElem?_eq_none (by simp; omega)]
    rfl

theorem uint_lt_iff {n : ℕ} (hoff : off < 2 ^ 32) (hn : n < 2 ^ 32) : uint (off + n) < off ↔ 2 ^ 32 ≤ off + n := by
  unfold uint
  omega

/-- file block `bn` of inode `y` is mapped -/
def St.Mapping (s : St) (y bn : ℕ) : Prop := s.slot (y, place bn) ≠ 0

theorem Good.mapping (h : Good sb ∅ s) {bn : ℕ} (hty : (s.node y).type ≠ .free) (hbn : bn < MAXFILE) :
    s.Mapping y bn ↔ bn < blocks (s.node y).size :=
  (h.maps y (Set.notMem_empty y) hty _ (place_le hbn)).trans needed_place

/-- **Inodes are byte strings.** On a well-formed file system, for a locked file or directory `x` of size `size` and 32-bit
`off` and `n`: `readi` fails exactly when `off > size` or `off + n` wraps, returns the bytes from `off` on otherwise and
changes nothing in either case; `writei` fails, with nothing changed, exactly when `off > size`, `off + n` wraps or
`off + n > MAXFILE * BSIZE`, and given free blocks it replaces the bytes `off..off+n` of the string, which grows if it has
to, and leaves the other strings alone. The file system it leaves is well-formed again: a file block is mapped exactly
when it is below `ceil(size / BSIZE)`. -/
theorem inode_strings (hsb : sb.Ok) (h : Good sb ∅ s) (hl : s.Loaded x) (hdev : (s.core x).type ≠ .dev)
    (hoff : off < 2 ^ 32) (n : ℕ) (hn : n < 2 ^ 32) (hsrc : src.length < 2 ^ 32) :
    (readi sb x off n).exec s =
        .ok (if (s.core x).size < off ∨ 2 ^ 32 ≤ off + n then none else some (((s.contents x).drop off).take n), s) ∧
      (((s.core x).size < off ∨ 2 ^ 32 ≤ off + src.length ∨ MAXFILE * BSIZE < off + src.length) →
        (writei sb x src off).exec s = .ok (none, s)) ∧
      (¬ ((s.core x).size < off ∨ 2 ^ 32 ≤ off + src.length ∨ MAXFILE * BSIZE < off + src.length) →
        need (blocks (max (s.core x).size (off + src.length))) ≤ s.nfree sb + need (blocks (s.core x).size) →
        ∃ s', (writei sb x src off).exec s = .ok (some src.length, s') ∧ Good sb ∅ s' ∧ s'.Loaded x ∧
          (s'.core x).size = max (s.core x).size (off + src.length) ∧
          s'.contents x = (s.contents x).take off ++ src ++ (s.contents x).drop (off + src.length) ∧
          (∀ y, y ≠ x → (s.node y).type ≠ .free → s'.contents y = s.contents y) ∧
          ∀ y, (s'.node y).type ≠ .free → ∀ bn < MAXFILE, s'.Mapping y bn ↔ bn < blocks (s'.node y).size) ∧
      ∀ y, (s.node y).type ≠ .free → ∀ bn < MAXFILE, s.Mapping y bn ↔ bn < blocks (s.node y).size := by
  have hfails : writeFails (s.core x).size off src.length ↔
      (s.core x).size < off ∨ 2 ^ 32 ≤ off + src.length ∨ MAXFILE * BSIZE < off + src.length := by
    unfold writeFails
    rw [uint_lt_iff hoff hsrc]
  refine ⟨?_, fun hfail => ?_, fun hok hfree => ?_, fun y hty bn hbn => h.mapping hty hbn⟩
  · have hread := readi_spec (E := fun _ => False) h (Set.notMem_empty x) hl hdev off n
    simp only [uint_lt_iff hoff hn, St.contents_slice hl] at hread
    obtain ⟨r, s', hexec, rfl, rfl⟩ := wp_total hread
    exact hexec
  · have hwrite := @writei_fails sb s x off (fun _ => False) src hdev (hfails.2 hfail)
    obtain ⟨r, s', hexec, rfl, rfl⟩ := wp_total hwrite
    exact hexec
  · have hwrite := writei_spec (E := fun _ => False) hsb h hl hdev (.inr hfree)
    obtain ⟨r, s', hexec, hres⟩ := wp_total hwrite
    obtain ⟨-, rfl, hw⟩ := hres.resolve_left fun hf => hok (hfails.1 hf.1)
    have hl' : s'.Loaded x := by
      unfold St.Loaded
      rw [hw.ref, hw.valid]
      exact hl
    refine ⟨s', hexec, hw.good, hl', by rw [hw.core], hw.contents_self hl (not_lt.1 fun hlt => hok (.inl hlt)),
      fun y hy hty => hw.contents_ne h hy hty, fun y hty bn hbn => hw.good.mapping hty hbn⟩

/-- a disk of three blocks, of which two are for data -/
def tinySb : Superblock := ⟨3, 2, 3, 0, 1, 1, 1⟩

/-- a file system with one empty inode, number 1, which is in the cache -/
def oneInode (type : Ty) : St where
  dinode x := if x = 1 then { Dinode.zero with type := type } else Dinode.zero
  used b := b == 0
  data _ _ := 0
  icache x := if x = 1 then ⟨1, true, { Dinode.zero with type := type }⟩ else ⟨0, false, Dinode.zero⟩
  live := 1
  logged := ∅
  outstanding := 0
  cwd _ := none
  file _ := ⟨.none, 0, false, false, 0, 0⟩
  ofile _ _ := none
  console := []

theorem Dinode.slot_zero {data : ℕ → Data} (h : ∀ i, d.addrs i = 0) : d.slot data i = 0 := by
  unfold Dinode.slot
  simp [h]

variable {t : Ty}

theorem oneInode_node : (oneInode t).node x = if x = 1 then { Dinode.zero with type := t } else Dinode.zero := by
  unfold St.node St.core oneInode
  by_cases hx : x = 1
  · simp [hx]
  · simp [hx]

theorem oneInode_addrs (i : ℕ) : ((oneInode t).node x).addrs i = 0 := by
  rw [oneInode_node]
  split <;> rfl

theorem oneInode_size : ((oneInode t).node x).size = 0 := by
  rw [oneInode_node]
  split <;> rfl

theorem oneInode_loaded (h : (oneInode t).Loaded x) : x = 1 := by
  by_contra hne
  simp [St.Loaded, oneInode, hne] at h

theorem oneInode_good (ht : t ≠ .free) : Good tinySb ∅ (oneInode t) := by
  have hslot : ∀ p, (oneInode t).slot p = 0 := fun p => Dinode.slot_zero oneInode_addrs
  refine ⟨⟨by decide, fun p hp => absurd (hslot p) hp, fun p _ hp => absurd (hslot p) hp, fun b hb => ?_, fun b hb _ => ?_⟩,
    fun y _ _ => ?_, fun y _ _ i _ => ?_, fun y hl => ?_, fun y _ hl => ?_⟩
  · have hb : b < 1 := hb
    obtain rfl : b = 0 := by omega
    rfl
  · have hb : 1 ≤ b := hb
    refine iff_of_false ?_ fun ⟨p, hp⟩ => ?_
    · simp only [oneInode, beq_iff_eq]
      omega
    · have hzero := hslot p
      omega
  · rw [oneInode_size]
    exact Nat.zero_le _
  · rw [oneInode_size]
    refine iff_of_false (not_not.2 (Dinode.slot_zero oneInode_addrs)) ?_
    unfold Needed blocks BSIZE NDIRECT
    split_ifs <;> omega
  · rw [oneInode_loaded hl]
    exact ht
  · rw [oneInode_loaded hl]
    rfl

/-- three bytes go to an empty file, and its string is those bytes -/
theorem inode_strings_one : (readi tinySb 1 0 4).exec (oneInode .file) = .ok (some [], oneInode .file) ∧
    ∃ s', (writei tinySb 1 [7, 8, 9] 0).exec (oneInode .file) = .ok (some 3, s') ∧ s'.contents 1 = [7, 8, 9] := by
  have hl : (oneInode .file).Loaded 1 := ⟨by decide, rfl⟩
  obtain ⟨hread, -, hwrite, -⟩ := @inode_strings tinySb (oneInode .file) 1 0 [7, 8, 9] ⟨by decide, by decide⟩
    (oneInode_good (by decide)) hl (by decide) (by decide) 4 (by decide) (by decide)
  refine ⟨hread, ?_⟩
  obtain ⟨s', hexec, -, -, -, hcontents, -⟩ := hwrite (by decide) (by decide)
  exact ⟨s', hexec, hcontents⟩

end Xv6.FileSys
