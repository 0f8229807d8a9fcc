/-
Directories and paths against what they say on the disk. `St.lookup` and `St.walk` say what a directory and a path name, as
functions of the state; looking up changes the inode cache only.
-/
import Xv6.Fs.Refs

namespace Xv6.FileSys

open Xv6.Core Xv6.Core.Prog

variable {sb : Superblock} {s0 s s' : St} {x y dp ip off : ℕ} {E : Panic → Prop} {H : ℕ → ℕ} {R : Multiset ℕ} {L F : List ℕ}
  {name : Name}

/-! ## What a directory says -/

/-- the entry of a directory at an offset -/
def St.dirent (s : St) (dp off : ℕ) : Dirent := .ofBytes ((List.range DESIZE).map fun i => s.byte dp (off + i))

/-- the entry is in use and has the name -/
def Dirent.names (de : Dirent) (name : Name) : Bool := de.inum ≠ 0 && nameEq name de.name

/-- the inode and the offset of the entry with the name -/
def St.lookup (s : St) (dp : ℕ) (name : Name) : Option (ℕ × ℕ) :=
  ((offs (s.node dp).size).find? fun off => (s.dirent dp off).names name).map fun off => ((s.dirent dp off).inum, off)

/-- where the first empty entry is, or the end -/
def St.emptyOff (s : St) (dp : ℕ) : ℕ :=
  ((offs (s.node dp).size).find? fun off => (s.dirent dp off).inum = 0).getD (DESIZE * (offs (s.node dp).size).length)

/-- what a path leads to: the loop of `namex` on the disk as it is -/
def St.walk (s : St) (parent : Bool) : ℕ → ℕ → List UInt8 → Name → Option (ℕ × Name)
  | 0, _, _, _ => none
  | fuel + 1, ip, path, name =>
    match skipelem path with
    | none => if parent then none else some (ip, name)
    | some (name, path) =>
      if (s.node ip).type ≠ .dir then none
      else if parent ∧ path = [] then some (ip, name)
      else
        match s.lookup ip name with
        | none => none
        | some (next, _) => s.walk parent fuel next path name

theorem Quiet.slot (h : Quiet s s') : s'.slot = s.slot := by
  funext p
  unfold St.slot
  rw [h.node, h.data]

theorem Quiet.byte (h : Quiet s s') : s'.byte x = s.byte x := by
  funext o
  unfold St.byte
  rw [h.slot, h.data]

theorem mem_offs {size : ℕ} (h : off ∈ offs size) : off < size := by
  unfold offs DESIZE at h
  obtain ⟨k, hk, rfl⟩ := List.mem_map.1 h
  have hk := List.mem_range.1 hk
  omega

theorem Safe.core (h : Safe sb s0 H R L F s) (hx : x ∈ L) : s.core x = s0.node x := by
  rw [← h.quiet.node]
  exact (St.node_of_loaded (h.loaded x hx)).symm

theorem Safe.size_le (h : Safe sb s0 H R L F s) (hx : x ∈ L) : (s0.node x).size ≤ MAXFILE * BSIZE := by
  rw [← h.core hx, ← St.node_of_loaded (h.loaded x hx)]
  refine h.good.size x (Set.notMem_empty x) ?_
  rw [St.node_of_loaded (h.loaded x hx)]
  exact h.good.typ x (h.loaded x hx)

theorem readDirent_spec {e : Panic} (h : Safe sb s0 H R L F s) (hx : x ∈ L) (hty : (s0.node x).type = .dir)
    (hE : E e ∨ off + DESIZE ≤ (s0.node x).size) (hoff : off < (s0.node x).size) :
    Wp E (readDirent sb x off e) (fun de s' => de = s0.dirent x off ∧ s' = s) s := by
  have hcore := h.core hx
  have hsize := h.size_le hx
  have hdev : (s.core x).type ≠ .dev := by
    rw [hcore, hty]
    decide
  have hok : ¬ ((s.core x).size < off ∨ uint (off + DESIZE) < off) := by
    rw [hcore]
    unfold MAXFILE NDIRECT NINDIRECT BSIZE at hsize
    unfold uint DESIZE
    omega
  unfold readDirent
  refine wp_seq (readi_spec h.good (Set.notMem_empty x) (h.loaded x hx) hdev off DESIZE) fun r s' ⟨hs', hr⟩ => ?_
  subst hs'
  rw [if_neg hok, hcore] at hr
  subst hr
  simp only [List.length_map, List.length_range]
  split
  · rename_i hlen
    rw [hlen]
    refine ⟨?_, rfl⟩
    unfold St.dirent
    rw [h.quiet.byte]
  · rename_i hlen
    refine wp_panic.2 (hE.resolve_right fun hle => hlen ?_)
    omega

/-! ## `dirlookup` -/

/-- every directory consists of whole entries -/
def St.Whole (s : St) : Prop := ∀ x, (s.node x).type = .dir → ∀ off ∈ offs (s.node x).size, off + DESIZE ≤ (s.node x).size

/-- the reference that a search has found -/
def found (r : Option (ℕ × ℕ)) (R : Multiset ℕ) : Multiset ℕ := r.elim R fun q => q.1 ::ₘ R

theorem lookupLoop_spec (hE : E .dirlookupRead ∨ s0.Whole) (hEg : E .iget ∨ s.live < NINODE) (hx : x ∈ L)
    (hty : (s0.node x).type = .dir) (os : List ℕ) (hos : ∀ off ∈ os, off ∈ offs (s0.node x).size) (h : Safe sb s0 H R L F s) :
    Wp E (lookupLoop sb x name os) (fun r s' =>
      r = (os.find? fun off => (s0.dirent x off).names name).map (fun off => ((s0.dirent x off).inum, off)) ∧
      s' = r.elim s fun q => s.igot q.1) s := by
  induction os with
  | nil => exact ⟨rfl, rfl⟩
  | cons off os ih =>
    have hoff := hos off List.mem_cons_self
    have ih := ih fun o ho => hos o (List.mem_cons_of_mem off ho)
    unfold lookupLoop
    refine wp_seq (readDirent_spec h hx hty (hE.imp_right fun hw => hw x hty off hoff) (mem_offs hoff))
      fun de s' ⟨hde, hs'⟩ => ?_
    subst hde hs'
    by_cases hzero : (s0.dirent x off).inum = 0
    · rw [if_pos hzero, List.find?_cons_of_neg (by simp [Dirent.names, hzero])]
      exact ih
    rw [if_neg hzero]
    by_cases hname : nameEq name (s0.dirent x off).name = true
    · rw [if_pos hname, List.find?_cons_of_pos (by simp [Dirent.names, hzero, hname])]
      refine wp_seq (iget_igot hEg) fun _ s1 hs1 => ?_
      exact ⟨rfl, hs1⟩
    · rw [if_neg hname, List.find?_cons_of_neg (by simp [Dirent.names, hname])]
      exact ih

/-- `dirlookup` finds the entry with the name, and does what `iget` of its inode does -/
theorem dirlookup_igot (hE : E .dirlookupRead ∨ s0.Whole) (hEg : E .iget ∨ s.live < NINODE) (h : Safe sb s0 H R L F s)
    (hx : x ∈ L) (hty : (s0.node x).type = .dir) :
    Wp E (dirlookup sb x name) (fun r s' => r = s0.lookup x name ∧ s' = r.elim s fun q => s.igot q.1) s := by
  unfold dirlookup
  refine wp_read.2 ?_
  rw [h.core hx, if_pos hty]
  exact lookupLoop_spec hE hEg hx hty _ (fun _ => id) h

theorem Safe.found (h : Safe sb s0 H R L F s) (r : Option (ℕ × ℕ)) : Safe sb s0 H (found r R) L F (r.elim s fun q => s.igot q.1) := by
  cases r with
  | none => exact h
  | some q => exact h.igot q.1

/-- **`dirlookup`** finds the entry with the name; nothing on the disk changes. -/
theorem dirlookup_spec (hE : E .dirlookupRead ∨ s0.Whole) (hEg : E .iget) (h : Safe sb s0 H R L F s) (hx : x ∈ L)
    (hty : (s0.node x).type = .dir) : Wp E (dirlookup sb x name) (fun r s' => r = s0.lookup x name ∧
      Safe sb s0 H (found r R) L F s') s :=
  wp_mono (dirlookup_igot hE (.inl hEg) h hx hty) fun r _ ⟨hr, hs'⟩ => ⟨hr, hs' ▸ h.found r⟩

/-! ## Entries of the cache -/

/-- how many entries of the cache only the call uses -/
def ownEntries (H : ℕ → ℕ) (R : Multiset ℕ) : ℕ := (R.toFinset.filter fun x => H x = 0).card

theorem ownEntries_le : ownEntries H R ≤ R.card :=
  (Finset.card_filter_le ..).trans (Multiset.toFinset_card_le R)

theorem ownEntries_cons : ownEntries H (x ::ₘ R) = ownEntries H R + if H x + R.count x = 0 then 1 else 0 := by
  unfold ownEntries
  rw [Multiset.toFinset_cons, Finset.filter_insert]
  by_cases hH : H x = 0
  · rw [if_pos hH]
    by_cases hR : x ∈ R
    · have hmem : x ∈ R.toFinset.filter fun y => H y = 0 := Finset.mem_filter.2 ⟨Multiset.mem_toFinset.2 hR, hH⟩
      have hcount := Multiset.count_pos.2 hR
      rw [Finset.insert_eq_of_mem hmem, if_neg (by omega), Nat.add_zero]
    · have hnot : x ∉ R.toFinset.filter fun y => H y = 0 := fun hmem => hR (Multiset.mem_toFinset.1 (Finset.mem_filter.1 hmem).1)
      rw [Finset.card_insert_of_notMem hnot, hH, Multiset.count_eq_zero_of_notMem hR, if_pos rfl]
  · rw [if_neg hH, if_neg (by omega), Nat.add_zero]

/-- `n` entries of the cache are others', or nothing is known of it and `iget` may fail -/
def Counts (E : Panic → Prop) (n : ℕ) (H : ℕ → ℕ) (R : Multiset ℕ) (s : St) : Prop :=
  E .iget ∨ s.live = n + ownEntries H R

variable {n : ℕ}

theorem Counts.igot (h : Counts E n H R s) (hs : Safe sb s0 H R L F s) (x : ℕ) : Counts E n H (x ::ₘ R) (s.igot x) := by
  refine h.imp_right fun hlive => ?_
  rw [ownEntries_cons, ← hs.ref x]
  unfold St.igot
  split
  · rename_i hpos
    rw [if_neg (by omega)]
    exact hlive
  · rename_i hzero
    rw [if_pos (by omega), ← Nat.add_assoc, ← hlive]
    rfl

theorem Counts.found (h : Counts E n H R s) (hs : Safe sb s0 H R L F s) (r : Option (ℕ × ℕ)) :
    Counts E n H (found r R) (r.elim s fun q => s.igot q.1) := by
  cases r with
  | none => exact h
  | some q => exact h.igot hs q.1

theorem Counts.unref (h : Counts E n H (x ::ₘ R) s) (hs : Safe sb s0 H (x ::ₘ R) L F s) : Counts E n H R (s.unref x) := by
  refine h.imp_right fun hlive => ?_
  have href := hs.ref x
  rw [Multiset.count_cons_self] at href
  rw [ownEntries_cons] at hlive
  change (if (s.icache x).ref = 1 then s.live - 1 else s.live) = n + ownEntries H R
  split at hlive
  · rw [if_pos (by omega)]
    omega
  · rw [if_neg (by omega)]
    exact hlive

theorem Counts.lt (h : Counts E n H R s) (hn : E .iget ∨ n + R.card < NINODE) : E .iget ∨ s.live < NINODE := by
  rcases h with hE | hlive
  · exact .inl hE
  · refine hn.imp_right fun hlt => ?_
    have hle := ownEntries_le (H := H) (R := R)
    omega

theorem Counts.congr (h : Counts E n H R s) (hlive : s'.live = s.live) : Counts E n H R s' :=
  h.imp_right fun hs => hlive.trans hs

theorem ilock_live {a : Unit} (h : (ilock x).exec s = .ok (a, s')) : s'.live = s.live := by
  have hwp : Wp (fun _ => True) (ilock x) (fun _ s' => s'.live = s.live) s := by
    unfold ilock
    refine wp_read.2 ?_
    split
    · trivial
    refine wp_bind.2 (wp_acquire.2 (wp_read.2 ?_))
    split
    · rfl
    refine wp_write.2 (wp_read.2 ?_)
    split
    · trivial
    · rfl
  have hend := wp_ok hwp h
  exact hend

/-! ## `namex` -/

/-- every entry in use names an inode that is allocated -/
def St.Closed (s : St) : Prop :=
  ∀ x, (s.node x).type = .dir → ∀ off ∈ offs (s.node x).size, (s.dirent x off).inum ≠ 0 →
    (s.node (s.dirent x off).inum).type ≠ .free

theorem St.Closed.lookup (h : s.Closed) (hty : (s.node x).type = .dir) {q : ℕ × ℕ} (hq : s.lookup x name = some q) :
    (s.node q.1).type ≠ .free := by
  unfold St.lookup at hq
  obtain ⟨off, hfind, rfl⟩ := Option.map_eq_some_iff.1 hq
  have hmem := List.mem_of_find?_eq_some hfind
  have hnames := List.find?_some hfind
  refine h x hty off hmem fun hzero => ?_
  simp [Dirent.names, hzero] at hnames

/-- the inodes that the call keeps are still somebody's -/
def Kept (H : ℕ → ℕ) (R : Multiset ℕ) (xs : List ℕ) : Prop := ∀ y ∈ xs, 0 < H y ∨ y ∈ R

theorem Kept.cons (h : Kept H R L) : Kept H (x ::ₘ R) L := fun y hy =>
  (h y hy).imp_right (Multiset.mem_cons_of_mem)

theorem iunlockput_unref (h : Safe sb s0 H (x ::ₘ R) (x :: L) F s) (hF : Kept H R F) :
    Wp E (iunlockput sb x) (fun _ s' => s' = s.unref x) s := by
  have hpos := h.ref_pos (.inr (Multiset.mem_cons_self ..))
  unfold iunlockput iunlock
  refine wp_bind.2 (wp_read.2 ?_)
  rw [if_neg (by omega)]
  exact iput_unref (h.mono fun y hy => List.mem_cons_of_mem x hy) (hF x)

theorem Safe.unlocked (h : Safe sb s0 H (x ::ₘ R) (x :: L) F s) (hL : Kept H R L) : Safe sb s0 H R L F (s.unref x) :=
  (h.mono fun _ hy => List.mem_cons_of_mem x hy).unref (hL x)

theorem iunlockput_quiet (h : Safe sb s0 H (x ::ₘ R) (x :: L) F s) (hF : Kept H R F) (hL : Kept H R L) :
    Wp E (iunlockput sb x) (fun _ s' => Safe sb s0 H R L F s') s :=
  wp_mono (iunlockput_unref h hF) fun _ _ hs' => hs' ▸ h.unlocked hL

/-- the reference that a path leads to -/
def led (r : Option (ℕ × Name)) (R : Multiset ℕ) : Multiset ℕ := r.elim R fun q => q.1 ::ₘ R

/-- the search can stop only where an entry names a free inode -/
def Lookable (E : Panic → Prop) (s : St) : Prop := (E .ilockNoType ∨ s.Closed) ∧ (E .dirlookupRead ∨ s.Whole) ∧ E .iget

variable {path : List UInt8}

/-- an element is a byte at least -/
theorem skipelem_length {path' : List UInt8} (h : skipelem path = some (name, path')) : path'.length < path.length := by
  unfold skipelem at h
  have hlen := (List.dropWhile_suffix (l := path) (· = SLASH)).length_le
  cases hp : path.dropWhile (· = SLASH) with
  | nil =>
    rw [hp] at h
    cases h
  | cons c p =>
    rw [hp] at h hlen
    have hc : c ≠ SLASH := by
      have hnot := List.head_dropWhile_not (l := path) (fun c : UInt8 => decide (c = SLASH)) (by simp [hp])
      simpa [hp] using hnot
    cases h
    rw [List.dropWhile_cons_of_pos (by simpa using hc)]
    have hdrop := (List.dropWhile_suffix (l := p.dropWhile (· ≠ SLASH)) (· = SLASH)).length_le
    have hdrop' := (List.dropWhile_suffix (l := p) (· ≠ SLASH)).length_le
    simp only [List.length_cons] at hlen
    omega

variable {parent : Bool}

theorem namexLoop_spec (hEt : E .ilockNoType ∨ s0.Closed) (hEr : E .dirlookupRead ∨ s0.Whole)
    (hEg : E .iget ∨ n + R.card + 1 < NINODE) (hF : Kept H R F) (hL : Kept H R L) (fuel : ℕ) :
    ∀ (s : St) (ip : ℕ) (path : List UInt8) (name : Name), (E .ilockNoType ∨ (s0.node ip).type ≠ .free) →
      Safe sb s0 H (ip ::ₘ R) L F s → Counts E n H (ip ::ₘ R) s → path.length < fuel →
      Wp E (namexLoop sb parent fuel ip path name) (fun r s' => r = s0.walk parent fuel ip path name ∧ Safe sb s0 H (led r R) L F s') s := by
  induction fuel with
  | zero =>
    intro s ip path name _ _ _ hlen
    exact absurd hlen (Nat.not_lt_zero _)
  | succ fuel ih =>
    intro s ip path name hty h hc hlen
    unfold namexLoop St.walk
    cases hskip : skipelem path with
    | none =>
      cases parent with
      | false => exact ⟨rfl, h⟩
      | true =>
        refine wp_seq (iput_quiet h (hF ip) (hL ip)) fun _ s1 hs1 => ?_
        exact ⟨rfl, hs1⟩
    | some elem =>
      obtain ⟨name', path'⟩ := elem
      refine wp_seq (wp_frame (ilock_spec hty h (.inr (Multiset.mem_cons_self ..))) fun _ _ => ilock_live)
        fun _ s1 ⟨hs1, hlive⟩ => wp_read.2 ?_
      have hc1 := hc.congr hlive
      rw [hs1.core List.mem_cons_self]
      simp only
      by_cases hdir : (s0.node ip).type ≠ .dir
      · rw [if_pos hdir, if_pos hdir]
        refine wp_seq (iunlockput_quiet hs1 hF hL) fun _ s2 hs2 => ?_
        exact ⟨rfl, hs2⟩
      rw [if_neg hdir, if_neg hdir]
      split
      · -- stop one level early
        refine wp_seq (iunlock_spec hs1 (.inr (Multiset.mem_cons_self ..))) fun _ s2 hs2 => ?_
        exact ⟨rfl, hs2.mono fun y hy => List.mem_cons_of_mem ip hy⟩
      have hroom : E .iget ∨ s1.live < NINODE := hc1.lt (hEg.imp_right fun hlt => by rw [Multiset.card_cons]; omega)
      refine wp_seq (dirlookup_igot hEr hroom hs1 List.mem_cons_self (not_not.1 hdir)) fun r s2 ⟨hr, hs2⟩ => ?_
      have hsafe2 := hs1.found r
      have hc2 := hc1.found hs1 r
      rw [← hs2] at hsafe2 hc2
      rw [← hr]
      cases r with
      | none =>
        refine wp_seq (iunlockput_quiet hsafe2 hF hL) fun _ s3 hs3 => ?_
        exact ⟨rfl, hs3⟩
      | some q =>
        have hsafe2 : Safe sb s0 H (q.1 ::ₘ ip ::ₘ R) (ip :: L) F s2 := hsafe2
        have hc2 : Counts E n H (q.1 ::ₘ ip ::ₘ R) s2 := hc2
        rw [Multiset.cons_swap] at hsafe2 hc2
        refine wp_seq (iunlockput_unref hsafe2 hF.cons) fun _ s3 hs3 => ?_
        have hsafe3 := hsafe2.unlocked hL.cons
        have hc3 := hc2.unref hsafe2
        rw [← hs3] at hsafe3 hc3
        refine ih s3 q.1 path' name' (hEt.imp_right fun hc => hc.lookup (not_not.1 hdir) hr.symm) hsafe3 hc3 ?_
        have hshort := skipelem_length hskip
        omega

/-- where a path starts -/
def St.start (s : St) (pid : Fin NPROC) (path : List UInt8) : ℕ :=
  if path.head? = some SLASH then ROOTINO else (s.cwd pid).getD 0

/-- what a path names for a process -/
def St.resolve (s : St) (pid : Fin NPROC) (path : List UInt8) (parent : Bool) : Option (ℕ × Name) :=
  s.walk parent (path.length + 1) (s.start pid path) path []

variable {pid : Fin NPROC}

/-- **`namex`** finds what the path names; nothing on the disk changes. -/
theorem namex_counts (hEt : E .ilockNoType ∨ s0.Closed) (hEr : E .dirlookupRead ∨ s0.Whole) (hEg : E .iget ∨ n + R.card + 1 < NINODE)
    (hstart : E .ilockNoType ∨ (s0.node (s0.start pid path)).type ≠ .free) (hF : Kept H R F) (hL : Kept H R L)
    (hcwd : 0 < H ((s0.cwd pid).getD 0)) (h : Safe sb s0 H R L F s) (hc : Counts E n H R s) :
    Wp E (namex sb pid path parent) (fun r s' => r = s0.resolve pid path parent ∧ Safe sb s0 H (led r R) L F s') s := by
  unfold namex
  refine wp_read.2 ?_
  unfold St.resolve
  unfold St.start at *
  by_cases hslash : path.head? = some SLASH
  · simp only [if_pos hslash] at hstart ⊢
    have hroom : E .iget ∨ s.live < NINODE := hc.lt (hEg.imp_right fun hlt => by omega)
    refine wp_seq (iget_igot hroom) fun _ s1 hs1 => ?_
    have hsafe1 := h.igot ROOTINO
    have hc1 := hc.igot h ROOTINO
    rw [← hs1] at hsafe1 hc1
    exact namexLoop_spec hEt hEr hEg hF hL _ s1 ROOTINO path [] hstart hsafe1 hc1 (Nat.lt_succ_self _)
  · simp only [if_neg hslash] at hstart ⊢
    rw [h.quiet.cwd]
    have hpos := h.ref_pos (.inl hcwd)
    have hsafe1 := h.igot ((s0.cwd pid).getD 0)
    have hc1 := hc.igot h ((s0.cwd pid).getD 0)
    unfold St.igot at hsafe1 hc1
    rw [if_pos hpos] at hsafe1 hc1
    refine wp_write.2 ?_
    exact namexLoop_spec hEt hEr hEg hF hL _ _ _ path [] hstart hsafe1 hc1 (Nat.lt_succ_self _)

theorem namex_spec (hE : Lookable E s0)
    (hstart : E .ilockNoType ∨ (s0.node (s0.start pid path)).type ≠ .free) (hF : Kept H R F) (hL : Kept H R L)
    (hcwd : 0 < H ((s0.cwd pid).getD 0)) (h : Safe sb s0 H R L F s) :
    Wp E (namex sb pid path parent) (fun r s' => r = s0.resolve pid path parent ∧ Safe sb s0 H (led r R) L F s') s :=
  namex_counts (n := 0) hE.1 hE.2.1 (.inl hE.2.2) hstart hF hL hcwd h (.inl hE.2.2)

theorem namei_spec (hE : Lookable E s0)
    (hstart : E .ilockNoType ∨ (s0.node (s0.start pid path)).type ≠ .free) (hF : Kept H R F) (hL : Kept H R L)
    (hcwd : 0 < H ((s0.cwd pid).getD 0)) (h : Safe sb s0 H R L F s) :
    Wp E (namei sb pid path) (fun r s' => r = (s0.resolve pid path false).map Prod.fst ∧
      Safe sb s0 H (r.elim R (· ::ₘ R)) L F s') s := by
  unfold namei
  refine wp_seq (namex_spec hE hstart hF hL hcwd h) fun r s1 ⟨hr, hs1⟩ => ?_
  subst hr
  refine ⟨rfl, ?_⟩
  cases hres : s0.resolve pid path false with
  | none =>
    rw [hres] at hs1
    exact hs1
  | some q =>
    rw [hres] at hs1
    exact hs1

/-! ## `dirlink` -/

theorem emptyLoop_spec {last : ℕ} (hE : E .dirlinkRead ∨ s0.Whole) (hx : x ∈ L) (hty : (s0.node x).type = .dir)
    (os : List ℕ) (hos : ∀ off ∈ os, off ∈ offs (s0.node x).size) (h : Safe sb s0 H R L F s) : Wp E (emptyLoop sb x last os) (fun off s' =>
      off = (os.find? fun off => (s0.dirent x off).inum = 0).getD last ∧ s' = s) s := by
  induction os with
  | nil => exact ⟨rfl, rfl⟩
  | cons off os ih =>
    have hoff := hos off List.mem_cons_self
    have ih := ih fun o ho => hos o (List.mem_cons_of_mem off ho)
    unfold emptyLoop
    refine wp_seq (readDirent_spec h hx hty (hE.imp_right fun hw => hw x hty off hoff) (mem_offs hoff))
      fun de s' ⟨hde, hs'⟩ => ?_
    subst hde hs'
    by_cases hzero : (s0.dirent x off).inum = 0
    · rw [if_pos hzero, List.find?_cons_of_pos (by simp [hzero])]
      exact ⟨rfl, rfl⟩
    · rw [if_neg hzero, List.find?_cons_of_neg (by simp [hzero])]
      exact ih

theorem Dirent.length_bytes (de : Dirent) : de.bytes.length = DESIZE := by
  unfold Dirent.bytes
  simp [DESIZE, DIRSIZ]

/-- the file systems in which `dirlink` and `unlink` can write -/
def Writable (E : Panic → Prop) (s : St) : Prop :=
  E .balloc ∧ E .dirlink ∧ (E .dirlinkRead ∨ s.Whole) ∧ (E .dirlookupRead ∨ s.Whole) ∧ E .iget

/-- the second half of `dirlink`, for a name that is not there -/
def dirlinkNew (sb : Superblock) (dp : ℕ) (name : Name) (inum : ℕ) : FsM Bool := do
  let s ← get
  let off ← emptyLoop sb dp (DESIZE * (offs (s.core dp).size).length) (offs (s.core dp).size)
  match ← writei sb dp (Dirent.bytes ⟨inum, strncpy name⟩) off with
  | some n => if n = DESIZE then return true else panic .dirlink
  | none => panic .dirlink

/-- the entry goes to the first empty place -/
theorem dirlinkNew_spec {inum : ℕ} (hsb : sb.Ok)
    (hEb : E .balloc ∨ need (blocks (max (s0.node x).size (s0.emptyOff x + DESIZE))) ≤ s0.nfree sb + need (blocks (s0.node x).size))
    (hEd : E .dirlink ∨ ¬ writeFails (s0.node x).size (s0.emptyOff x) DESIZE) (hEr : E .dirlinkRead ∨ s0.Whole)
    (h : Safe sb s0 H R L F s) (hx : x ∈ L) (hty : (s0.node x).type = .dir) :
    Wp E (dirlinkNew sb x name inum) (fun r s' => r = true ∧ Safe sb s' H R L F s' ∧
      Written sb x (s0.emptyOff x) (Dirent.bytes ⟨inum, strncpy name⟩) s s') s := by
  unfold dirlinkNew
  refine wp_read.2 ?_
  rw [h.core hx]
  refine wp_seq (emptyLoop_spec hEr hx hty _ (fun _ => id) h) fun off s2 ⟨hoff, hs2⟩ => ?_
  have hoff : off = s0.emptyOff x := hoff
  subst hs2 hoff
  have hcore := h.core hx
  have hdev : (s2.core x).type ≠ .dev := by
    rw [hcore, hty]
    decide
  have hnfree : s2.nfree sb = s0.nfree sb := by
    unfold St.nfree
    rw [h.quiet.used]
  refine wp_seq (writei_spec hsb h.good (h.loaded x hx) hdev ?_) fun r s3 hr3 => ?_
  · rw [hcore, hnfree, Dirent.length_bytes]
    exact hEb
  · rcases hr3 with ⟨hfails, rfl, -⟩ | ⟨-, rfl, hw⟩
    · rw [hcore, Dirent.length_bytes] at hfails
      exact hEd.resolve_right fun hnot => hnot hfails
    · simp only [Dirent.length_bytes, if_true]
      exact ⟨rfl, h.written hx hw, hw⟩

/-- **`dirlink`** refuses a name that is there, with nothing changed, and otherwise writes the entry at the first empty
place. -/
theorem dirlink_spec {inum : ℕ} (hsb : sb.Ok) (hE : Writable E s0) (h : Safe sb s0 H R L F s) (hx : x ∈ L)
    (hty : (s0.node x).type = .dir) (hF : Kept H R F) (hL : Kept H R L) : Wp E (dirlink sb x name inum) (fun r s' =>
      (r = false ∧ s0.lookup x name ≠ none ∧ Safe sb s0 H R L F s') ∨ (r = true ∧ s0.lookup x name = none ∧ Safe sb s' H R L F s' ∧
        ∃ s1, Quiet s0 s1 ∧ Safe sb s0 H R L F s1 ∧ Written sb x (s0.emptyOff x) (Dirent.bytes ⟨inum, strncpy name⟩) s1 s')) s := by
  obtain ⟨hEb, hEd, hEr, hEl, hEg⟩ := hE
  unfold dirlink
  refine wp_seq (dirlookup_spec hEl hEg h hx hty) fun r s1 ⟨hr, hs1⟩ => ?_
  cases r with
  | some q =>
    refine wp_seq (iput_quiet hs1 (hF q.1) (hL q.1)) fun _ s2 hs2 => ?_
    exact .inl ⟨rfl, hr ▸ Option.some_ne_none q, hs2⟩
  | none =>
    have hs1 : Safe sb s0 H R L F s1 := hs1
    refine wp_mono (dirlinkNew_spec hsb (.inl hEb) (.inl hEd) hEr hs1 hx hty) fun r s2 ⟨hr2, hs2, hw⟩ => ?_
    exact .inr ⟨hr2, hr.symm, hs2, s1, hs1.quiet, hs1, hw⟩

end Xv6.FileSys
