/-
The directories of the file system as a table: the type and the link count of every inode, and the entries of every directory
by number. The changes that calls make to the disk (`Xv6.Fs.Edits`) are changes to this table.
-/
import Mathlib
import Xv6.Fs.Outcomes

namespace Xv6.FileSys

open Xv6.Core Xv6.Core.Prog

/-! ## The table -/

/-- entry `k` of a directory; one that is not there is like an empty one -/
def St.ent (s : St) (d k : ℕ) : Dirent :=
  if (s.node d).type = .dir ∧ DESIZE * k < (s.node d).size then s.dirent d (DESIZE * k) else ⟨0, []⟩

structure Tab where
  type : ℕ → Ty
  nlink : ℕ → ℤ
  ent : ℕ → ℕ → Dirent

namespace Tab

def setType (t : Tab) (x : ℕ) (type : Ty) : Tab := { t with type := Function.update t.type x type }

def setNlink (t : Tab) (x : ℕ) (n : ℤ) : Tab := { t with nlink := Function.update t.nlink x n }

def setEnt (t : Tab) (d k : ℕ) (de : Dirent) : Tab :=
  { t with ent := Function.update t.ent d (Function.update (t.ent d) k de) }

/-- no entries -/
def clear (t : Tab) (d : ℕ) : Tab := { t with ent := Function.update t.ent d fun _ => ⟨0, []⟩ }

end Tab

def St.tab (s : St) : Tab := ⟨fun y => (s.node y).type, fun y => (s.node y).nlink, s.ent⟩

/-- an entry that `unlink` has cleared -/
def Dirent.cleared : Dirent := ⟨0, List.replicate DIRSIZ 0⟩

/-- what a change does to the table; writes to files are left out -/
def Edit.Acts (sb : Superblock) (t t' : Tab) : Edit → Prop
  | .write _ _ _ => True
  | .enter dp name inum => t.type dp = .dir ∧ (∀ j, (t.ent dp j).names name = false) ∧
      ∃ k, (t.ent dp k).inum = 0 ∧ (∀ j < k, (t.ent dp j).inum ≠ 0) ∧ t' = t.setEnt dp k ⟨inum % 2 ^ 16, strncpy name⟩
  | .erase dp off => ∃ k, off = DESIZE * k ∧ t' = t.setEnt dp k .cleared
  | .link x n => t' = t.setNlink x (short (t.nlink x + n))
  | .make x type => 0 < x ∧ x < sb.ninodes ∧ t.type x = .free ∧ t' = (t.setType x type).setNlink x 0
  | .init x _ _ => t' = t.setNlink x 1
  | .free x => t.nlink x = 0 ∧ t' = (t.setType x .free).clear x

def Edit.isWrite : Edit → Bool
  | .write _ _ _ => true
  | _ => false

/-- a list of changes -/
def Steps (sb : Superblock) : List Edit → Tab → Tab → Prop
  | [], t, t' => t' = t
  | e :: es, t, t' => ∃ t₁, e.Acts sb t t₁ ∧ Steps sb es t₁ t'

variable {sb : Superblock} {s0 s s' s'' : St} {x y d dp ip k off : ℕ} {H : ℕ → ℕ} {name : Name} {pid : Fin NPROC} {e : Edit}
  {es es' : List Edit} {t t' : Tab}

theorem steps_append : Steps sb (es ++ es') t t' ↔ ∃ t₁, Steps sb es t t₁ ∧ Steps sb es' t₁ t' := by
  induction es generalizing t with
  | nil => simp [Steps]
  | cons e es ih =>
    simp only [List.cons_append, Steps, ih]
    constructor
    · rintro ⟨t₁, h1, t2, h2, h3⟩
      exact ⟨t2, ⟨t₁, h1, h2⟩, h3⟩
    · rintro ⟨t2, ⟨t₁, h1, h2⟩, h3⟩
      exact ⟨t₁, h1, t2, h2, h3⟩

/-! ## Entries and bytes -/

theorem length_strncpy (name : List UInt8) : (strncpy name).length = DIRSIZ := by
  unfold strncpy
  rw [List.length_take, List.length_append, List.length_replicate]
  exact min_eq_left (Nat.le_add_left ..)

theorem cstr_strncpy (name : List UInt8) : cstr (strncpy name) = cstr name := by
  have hle : (cstr name).length ≤ DIRSIZ := by
    unfold cstr
    exact (List.takeWhile_prefix _).length_le.trans (List.length_take_le ..)
  have hne : ∀ b ∈ cstr name, (b ≠ 0) := fun b hb => by
    simpa using List.mem_takeWhile_imp hb
  have htake : strncpy name = cstr name ++ List.replicate (DIRSIZ - (cstr name).length) 0 := by
    unfold strncpy
    rw [List.take_append, List.take_of_length_le hle, List.take_replicate]
    congr 2
    omega
  have hlen := length_strncpy name
  nth_rewrite 1 [cstr]
  rw [List.take_of_length_le hlen.le, htake, List.takeWhile_append_of_pos (by simpa using hne)]
  rw [List.takeWhile_replicate]
  simp

/-- what is written is read back -/
theorem Dirent.ofBytes_bytes (de : Dirent) :
    Dirent.ofBytes de.bytes = ⟨de.inum % 2 ^ 16, (de.name ++ List.replicate DIRSIZ 0).take DIRSIZ⟩ := by
  unfold Dirent.ofBytes Dirent.bytes
  simp only [List.cons_append, List.nil_append, List.getD_cons_zero, List.getD_cons_succ, List.drop_succ_cons, List.drop_zero,
    List.take_take, min_self, UInt8.toNat_ofNat']
  congr 1
  omega

theorem ofBytes_enter (inum : ℕ) (name : Name) : Dirent.ofBytes (Dirent.bytes ⟨inum, strncpy name⟩) = ⟨inum % 2 ^ 16, strncpy name⟩ := by
  have hlen := length_strncpy name
  rw [Dirent.ofBytes_bytes]
  congr 1
  rw [List.take_append_of_le_length hlen.ge, List.take_of_length_le hlen.le]

/-- directories consist of whole entries -/
def St.Divides (s : St) : Prop := ∀ d, (s.node d).type = .dir → DESIZE ∣ (s.node d).size

theorem St.Divides.lt (h : s.Divides) (hty : (s.node d).type = .dir) (hk : DESIZE * k < (s.node d).size) {i : ℕ}
    (hi : i < DESIZE) : DESIZE * k + i < (s.node d).size := by
  obtain ⟨n, hn⟩ := h d hty
  unfold DESIZE at *
  omega

/-- **A write of one entry** changes that entry. -/
theorem Written.ent {de : Dirent} (h : Written sb dp (DESIZE * k) de.bytes s s') (hgood : Good sb ∅ s) (hdiv : s.Divides)
    (hl : s.Loaded dp) (hty : (s.core dp).type = .dir) (hk : DESIZE * k ≤ (s.core dp).size) :
    s'.ent = update s.ent dp (update (s.ent dp) k (.ofBytes de.bytes)) := by
  have hl' := (h.loaded dp).2 hl
  have hnode := St.node_of_loaded hl
  have hlen := Dirent.length_bytes de
  have hty' : (s'.node dp).type = .dir := by
    rw [St.node_of_loaded hl', h.core]
    exact hty
  have hsize' : (s'.node dp).size = max (s.node dp).size (DESIZE * k + DESIZE) := by
    rw [St.node_of_loaded hl', h.core, hnode, hlen]
  have hcore' : (s'.core dp).size = (s'.node dp).size := by
    rw [St.node_of_loaded hl']
  have hdvd := hdiv dp (hnode ▸ hty)
  rw [← hnode] at hty hk
  funext d j
  by_cases hd : d = dp
  · subst hd
    rw [update_self]
    by_cases hj : j = k
    · subst hj
      rw [update_self]
      unfold St.ent
      rw [if_pos ⟨hty', by rw [hsize']; exact lt_max_of_lt_right (Nat.lt_add_of_pos_right (by decide))⟩]
      unfold St.dirent
      congr 1
      refine List.ext_getElem (by simp [hlen]) fun i hi hi' => ?_
      rw [List.getElem_map, List.getElem_range, h.byte _ ?_, setBytes_apply _ (Nat.le_add_right ..) (by omega)]
      · simp
      · rw [hcore', hsize']
        rw [hlen] at hi'
        exact lt_max_of_lt_right (by omega)
    · rw [update_of_ne hj]
      -- the same entries are there
      have hiff : DESIZE * j < (s'.node d).size ↔ DESIZE * j < (s.node d).size := by
        rw [hsize']
        unfold DESIZE at *
        omega
      unfold St.ent
      simp only [hty, hty', hiff, true_and]
      split
      · rename_i hin
        unfold St.dirent
        congr 1
        refine List.map_congr_left fun i hi => ?_
        have hi := List.mem_range.1 hi
        have hlt := hdiv.lt hty hin hi
        rw [h.byte _ (by rw [hcore', hsize']; exact lt_max_of_lt_left hlt), setBytes_of_out]
        rw [hlen]
        unfold DESIZE at *
        omega
      · rfl
  · rw [update_of_ne hd]
    have hnoded : s'.node d = s.node d := St.node_congr (h.cache d hd) (h.disk d hd)
    unfold St.ent
    rw [hnoded]
    split
    · rename_i hin
      unfold St.dirent
      congr 1
      refine List.map_congr_left fun i hi => ?_
      refine h.byte_ne hgood hd (by rw [hin.1]; decide) ?_
      exact hdiv.lt hin.1 hin.2 (List.mem_range.1 hi)
    · rfl

/-! ## Searches -/

theorem offs_eq (size : ℕ) : offs size = (List.range ((size + DESIZE - 1) / DESIZE)).map (DESIZE * ·) := rfl

theorem lt_entries {size : ℕ} : k < (size + DESIZE - 1) / DESIZE ↔ DESIZE * k < size := by
  unfold DESIZE
  omega

theorem ent_of_lt (hty : (s.node d).type = .dir) (hk : DESIZE * k < (s.node d).size) :
    s.ent d k = s.dirent d (DESIZE * k) := if_pos ⟨hty, hk⟩

theorem ent_of_not (h : ¬ ((s.node d).type = .dir ∧ DESIZE * k < (s.node d).size)) : s.ent d k = ⟨0, []⟩ := if_neg h

/-- an entry in use is there -/
theorem lt_of_ent (h : (s.ent d k).inum ≠ 0) : (s.node d).type = .dir ∧ DESIZE * k < (s.node d).size := by
  by_contra hnot
  rw [ent_of_not hnot] at h
  exact h rfl

theorem mem_offs_iff {size : ℕ} : off ∈ offs size ↔ ∃ k, off = DESIZE * k ∧ DESIZE * k < size := by
  rw [offs_eq, List.mem_map]
  constructor
  · rintro ⟨k, hk, rfl⟩
    exact ⟨k, rfl, lt_entries.1 (List.mem_range.1 hk)⟩
  · rintro ⟨k, rfl, hk⟩
    exact ⟨k, List.mem_range.2 (lt_entries.2 hk), rfl⟩

theorem St.Divides.whole (h : s.Divides) : s.Whole := by
  intro x hty off hoff
  obtain ⟨k, rfl, hk⟩ := mem_offs_iff.1 hoff
  obtain ⟨n, hsize⟩ := h x hty
  rw [hsize] at hk ⊢
  unfold DESIZE at *
  omega

theorem lookup_eq_none (hty : (s.node d).type = .dir) : s.lookup d name = none ↔ ∀ k, (s.ent d k).names name = false := by
  unfold St.lookup
  rw [Option.map_eq_none_iff, List.find?_eq_none]
  constructor
  · intro hall k
    by_cases hk : DESIZE * k < (s.node d).size
    · rw [ent_of_lt hty hk]
      simpa using hall _ (mem_offs_iff.2 ⟨k, rfl, hk⟩)
    · rw [ent_of_not fun hand => hk hand.2]
      rfl
  · intro hall off hoff
    obtain ⟨k, rfl, hk⟩ := mem_offs_iff.1 hoff
    have hnot := hall k
    rw [ent_of_lt hty hk] at hnot
    simp [hnot]

theorem lookup_eq_some (hty : (s.node d).type = .dir) (h : s.lookup d name = some (ip, off)) :
    ∃ k, off = DESIZE * k ∧ (s.ent d k).inum = ip ∧ (s.ent d k).names name = true := by
  unfold St.lookup at h
  obtain ⟨o, hfind, heq⟩ := Option.map_eq_some_iff.1 h
  cases heq
  obtain ⟨k, rfl, hk⟩ := mem_offs_iff.1 (List.mem_of_find?_eq_some hfind)
  refine ⟨k, rfl, ?_, ?_⟩
  · rw [ent_of_lt hty hk]
  · rw [ent_of_lt hty hk]
    exact List.find?_some (p := fun off => (s.dirent d off).names name) hfind

theorem emptyOff_eq (hdiv : s.Divides) (hty : (s.node d).type = .dir) : ∃ k, s.emptyOff d = DESIZE * k ∧
    DESIZE * k ≤ (s.node d).size ∧ (s.ent d k).inum = 0 ∧ ∀ j < k, (s.ent d j).inum ≠ 0 := by
  unfold St.emptyOff
  cases hfind : (offs (s.node d).size).find? fun off => (s.dirent d off).inum = 0 with
  | none =>
    obtain ⟨n, hn⟩ := hdiv d hty
    have hlen : (offs (s.node d).size).length = n := by
      rw [offs_eq, List.length_map, List.length_range, hn]
      unfold DESIZE
      omega
    refine ⟨n, ?_, hn.ge, ?_, fun j hj => ?_⟩
    · rw [hlen]
      rfl
    · rw [ent_of_not fun hand => ?_]
      rw [hn] at hand
      exact lt_irrefl _ hand.2
    · have hlt : DESIZE * j < (s.node d).size := by
        rw [hn]
        unfold DESIZE
        omega
      rw [ent_of_lt hty hlt]
      simpa using List.find?_eq_none.1 hfind _ (mem_offs_iff.2 ⟨j, rfl, hlt⟩)
  | some off =>
    rw [offs_eq, List.find?_map, Option.map_eq_some_iff] at hfind
    obtain ⟨k, hk, rfl⟩ := hfind
    obtain ⟨hzero, hlt, hall⟩ := List.find?_range_eq_some.1 hk
    have hlt := lt_entries.1 (List.mem_range.1 hlt)
    refine ⟨k, rfl, hlt.le, ?_, fun j hj => ?_⟩
    · rw [ent_of_lt hty hlt]
      simpa using hzero
    · have hlt' : DESIZE * j < (s.node d).size := (Nat.mul_le_mul_left _ hj.le).trans_lt hlt
      rw [ent_of_lt hty hlt']
      simpa using hall j hj

/-! ## What changes do to the table -/

theorem Tab.eq (htype : t'.type = t.type) (hnlink : t'.nlink = t.nlink) (hent : t'.ent = t.ent) : t' = t := by
  cases t
  cases t'
  cases htype
  cases hnlink
  cases hent
  rfl

theorem update_eq {α : Type} {f g : ℕ → α} {v : α} (hx : f x = v) (h : ∀ y, y ≠ x → f y = g y) :
    f = update g x v :=
  Function.eq_update_iff.2 ⟨hx, h⟩

theorem ent_congr (hnode : s'.node d = s.node d) (hdata : s'.data = s.data) : s'.ent d = s.ent d := by
  funext k
  unfold St.ent St.dirent St.byte St.slot
  simp only [hnode, hdata]

theorem SameDisk.tab (h : SameDisk s s') : s'.tab = s.tab := by
  unfold St.tab
  congr 1
  · funext y
    rw [h.node]
  · funext y
    rw [h.node]
  · funext d
    exact ent_congr (congrFun h.node d) h.data

theorem SameDisk.divides (h : SameDisk s s') (hdiv : s.Divides) : s'.Divides := fun d => by
  rw [h.node]
  exact hdiv d

/-- a link count or device numbers -/
theorem tab_update {c : Dinode} (hl : s.Loaded x) (hty : c.type = (s.core x).type) (haddr : c.addrs = (s.core x).addrs)
    (hsize : c.size = (s.core x).size) (hdiv : s.Divides) :
    (s.update sb x c).tab = s.tab.setNlink x c.nlink ∧ (s.update sb x c).Divides := by
  have hnode : ∀ y, ((s.update sb x c).node y).type = (s.node y).type ∧
      ((s.update sb x c).node y).size = (s.node y).size := by
    intro y
    rw [St.node_update hl]
    by_cases hy : y = x
    · subst hy
      rw [update_self, St.node_of_loaded hl]
      exact ⟨hty, hsize⟩
    · rw [update_of_ne hy]
      exact ⟨rfl, rfl⟩
  have hbyte : ∀ y o, (s.update sb x c).byte y o = s.byte y o := by
    intro y o
    unfold St.byte
    rw [St.slot_update hl hty haddr]
    rfl
  refine ⟨?_, fun d hd => ?_⟩
  · unfold St.tab Tab.setNlink
    congr 1
    · funext y
      exact (hnode y).1
    · funext y
      rw [St.node_update hl]
      by_cases hy : y = x
      · subst hy
        rw [update_self, update_self]
      · rw [update_of_ne hy, update_of_ne hy]
    · funext d k
      unfold St.ent St.dirent
      simp only [hnode, hbyte]
  · rw [(hnode d).2]
    exact hdiv d ((hnode d).1 ▸ hd)

theorem tab_written {de : Dirent} (h : Written sb dp (DESIZE * k) de.bytes s s') (hgood : Good sb ∅ s) (hdiv : s.Divides)
    (hl : s.Loaded dp) (hty : (s.core dp).type = .dir) (hk : DESIZE * k ≤ (s.core dp).size) :
    s'.tab = s.tab.setEnt dp k (.ofBytes de.bytes) ∧ s'.Divides := by
  have hsame := h.nlink_type hl
  refine ⟨?_, fun d hd => ?_⟩
  · unfold St.tab Tab.setEnt
    congr 1
    · funext y
      exact (hsame y).2
    · funext y
      exact (hsame y).1
    · exact h.ent hgood hdiv hl hty hk
  · rw [(hsame d).2] at hd
    by_cases heq : d = dp
    · subst heq
      have hsize : (s'.node d).size = max (s.node d).size (DESIZE * k + DESIZE) := by
        rw [St.node_of_loaded ((h.loaded d).2 hl), h.core, St.node_of_loaded hl, Dirent.length_bytes]
      rw [hsize]
      rcases max_choice (s.node d).size (DESIZE * k + DESIZE) with hmax | hmax
      · rw [hmax]
        exact hdiv d hd
      · rw [hmax]
        exact ⟨k + 1, rfl⟩
    · rw [St.node_congr (h.cache d heq) (h.disk d heq)]
      exact hdiv d hd

/-- a new inode -/
theorem tab_typed {type : Ty} (hgood : Good sb ∅ s) (hdiv : s.Divides) (hfree : (s.dinode x).type = .free) :
    (s.node x).type = .free ∧ (s.typed sb x type).tab = (s.tab.setType x type).setNlink x 0 ∧ (s.typed sb x type).Divides := by
  have hnot : ¬ s.Loaded x := by
    intro hl
    refine hgood.typ x hl ?_
    rw [hgood.coh x (Set.notMem_empty x) hl]
    exact hfree
  have hnodex : (s.typed sb x type).node x = { Dinode.zero with type := type } :=
    (St.node_of_not_loaded (s := s.typed sb x type) hnot).trans (update_self ..)
  have hnode : ∀ y, y ≠ x → (s.typed sb x type).node y = s.node y := fun y hy =>
    St.node_congr rfl (update_of_ne hy ..)
  have hfree : (s.node x).type = .free := by
    rw [St.node_of_not_loaded hnot]
    exact hfree
  refine ⟨hfree, Tab.eq (update_eq (congrArg Dinode.type hnodex) fun y hy => congrArg Dinode.type (hnode y hy))
    (update_eq (congrArg Dinode.nlink hnodex) fun y hy => congrArg Dinode.nlink (hnode y hy)) ?_, fun d hd => ?_⟩
  · funext d
    by_cases hd : d = x
    · subst hd
      funext k
      -- free before, and empty now
      have hbefore : s.ent d k = ⟨0, []⟩ := ent_of_not fun hand => by
        rw [hfree] at hand
        exact absurd hand.1 (by decide)
      have hafter : (s.typed sb d type).ent d k = ⟨0, []⟩ := ent_of_not fun hand => by
        rw [hnodex] at hand
        exact absurd hand.2 (Nat.not_lt_zero _)
      exact hafter.trans hbefore.symm
    · exact ent_congr (hnode d hd) rfl
  · by_cases heq : d = x
    · subst heq
      rw [hnodex]
      exact dvd_zero _
    · rw [hnode d heq] at hd ⊢
      exact hdiv d hd

/-- an inode that is given back -/
theorem tab_freed (h : Freed sb x s s') (hl : s.Loaded x) (hdiv : s.Divides) : s'.tab = (s.tab.setType x .free).clear x ∧ s'.Divides := by
  have hnode : ∀ y, y ≠ x → s'.node y = s.node y := fun y hy => St.node_congr (h.cache y hy) (h.disk y hy)
  have hfree : (s'.node x).type = .free := by
    rw [h.node]
    exact h.free
  refine ⟨Tab.eq (update_eq hfree fun y hy => congrArg Dinode.type (hnode y hy)) ?_
    (update_eq ?_ fun d hd => ent_congr (hnode d hd) h.data), fun d hd => ?_⟩
  · funext y
    by_cases hy : y = x
    · subst hy
      have hnlink : (s'.node y).nlink = (s.node y).nlink := by rw [h.node, h.nlink, St.node_of_loaded hl]
      exact hnlink
    · exact congrArg Dinode.nlink (hnode y hy)
  · funext k
    refine ent_of_not fun hand => ?_
    rw [hfree] at hand
    exact absurd hand.1 (by decide)
  · have heq : d ≠ x := by
      intro heq
      rw [heq, hfree] at hd
      exact absurd hd (by decide)
    rw [hnode d heq] at hd ⊢
    exact hdiv d hd

/-- **What a change does to the table.** -/
theorem Edit.Does.acts (h : e.Does sb s s') (hgood : Good sb ∅ s) (hdiv : s.Divides) (hw : e.isWrite = false) :
    e.Acts sb s.tab s'.tab ∧ s'.Divides := by
  cases e with
  | write x off src => cases hw
  | enter dp name inum =>
    obtain ⟨hl, hty, hnone, hw⟩ := h
    have hnode := St.node_of_loaded hl
    rw [← hnode] at hty
    obtain ⟨k, hoff, hk, hzero, hall⟩ := emptyOff_eq hdiv hty
    rw [hoff] at hw
    obtain ⟨htab, hdiv'⟩ := tab_written hw hgood hdiv hl (hnode ▸ hty) (hnode ▸ hk)
    rw [ofBytes_enter] at htab
    exact ⟨⟨hty, (lookup_eq_none hty).1 hnone, k, hzero, hall, htab⟩, hdiv'⟩
  | erase dp off =>
    obtain ⟨hl, hty, hoff, hw⟩ := h
    obtain ⟨k, rfl, hk⟩ := mem_offs_iff.1 hoff
    obtain ⟨htab, hdiv'⟩ := tab_written hw hgood hdiv hl hty hk.le
    exact ⟨⟨k, rfl, htab⟩, hdiv'⟩
  | link x n =>
    obtain ⟨hl, rfl⟩ := h
    have hupd : (s.update sb x ((s.core x).addLink n)).tab = s.tab.setNlink x ((s.core x).addLink n).nlink ∧ _ :=
      tab_update hl rfl rfl rfl hdiv
    obtain ⟨htab, hdiv'⟩ := hupd
    refine ⟨?_, hdiv'⟩
    rw [htab, ← St.node_of_loaded hl]
    rfl
  | make x type =>
    obtain ⟨hx, hfree, rfl⟩ := h
    have hx := List.mem_range'_1.1 hx
    have hnew : _ ∧ (s.typed sb x type).tab = _ ∧ _ := tab_typed hgood hdiv hfree
    obtain ⟨hfree, htab, hdiv'⟩ := hnew
    exact ⟨⟨hx.1, by omega, hfree, htab⟩, hdiv'⟩
  | init x major minor =>
    obtain ⟨hl, rfl⟩ := h
    exact tab_update (c := (s.core x).init major minor) hl rfl rfl rfl hdiv
  | free x =>
    obtain ⟨hl, hlink, -, hf⟩ := h
    obtain ⟨htab, hdiv'⟩ := tab_freed hf hl hdiv
    rw [← St.node_of_loaded hl] at hlink
    exact ⟨⟨hlink, htab⟩, hdiv'⟩

theorem Edits.steps (h : Edits sb es s s') (hdiv : s.Divides) (hw : ∀ e ∈ es, e.isWrite = false) : Steps sb es s.tab s'.tab ∧ s'.Divides := by
  induction es generalizing s with
  | nil =>
    have hsame := Quiet.sameDisk h
    exact ⟨hsame.tab, hsame.divides hdiv⟩
  | cons e es ih =>
    obtain ⟨s1, s2, hq, hgood, hdoes, hrest⟩ := h
    obtain ⟨hacts, hdiv2⟩ := hdoes.acts hgood (hq.sameDisk.divides hdiv) (hw e List.mem_cons_self)
    obtain ⟨hsteps, hdiv'⟩ := ih hrest hdiv2 fun e' he' => hw e' (List.mem_cons_of_mem e he')
    rw [hq.sameDisk.tab] at hacts
    exact ⟨⟨s2.tab, hacts, hsteps⟩, hdiv'⟩

theorem Outcome.steps (h : Outcome sb s es s') (hdiv : s.Divides) (hw : ∀ e ∈ es, e.isWrite = false) :
    Steps sb es s.tab s'.tab ∧ s'.Divides := by
  obtain ⟨s0, s1, h0, -, hes, h1, -⟩ := h
  obtain ⟨hsteps, hdiv'⟩ := hes.steps (h0.divides hdiv) hw
  rw [h0.tab] at hsteps
  rw [h1.tab]
  exact ⟨hsteps, h1.divides hdiv'⟩

end Xv6.FileSys
