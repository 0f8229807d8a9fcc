/-
`dirlookup`, `dirlink` and `unlink` on a directory that is a finite map, with the locks they take. `inDir` runs one of them as a call does
that has a reference to the directory and its lock.

`dirlink` drops the inode that it finds under the name with `iput`, which takes the lock of that inode. If the name leads to the directory
itself, as "." does, and ".." in the root, that lock is the one the call holds, and the call waits for itself: `link("f", "/.")` hangs.
-/
import Xv6.Fs.DirMap
import Xv6.Fs.Paths

namespace Xv6.FileSys

open Xv6.Core Xv6.Core.Prog
open Xv6.Core.Slots (Maps Distinct maps_set maps_clear)

variable {sb : Superblock} {s s' s'' t : St} {x y d dp ip k off inum : ℕ} {H : ℕ → ℕ} {name name' : Name} {pid : Fin NPROC}
  {es : List Edit} {de : Dirent} {E : Panic → Prop} {h : Prop}

/-! ## Searches and slots -/

/-- a search finds the first entry with the name -/
theorem lookup_first (hty : (s.node d).type = .dir) : s.lookup d name = some (ip, off) ↔ ∃ k, off = DESIZE * k ∧
    (s.ent d k).inum = ip ∧ (s.ent d k).names name = true ∧ ∀ j < k, (s.ent d j).names name = false := by
  unfold St.lookup
  rw [offs_eq, List.find?_map, Option.map_map, Option.map_eq_some_iff]
  constructor
  · rintro ⟨k, hk, heq⟩
    obtain ⟨hname, hmem, hbefore⟩ := List.find?_range_eq_some.1 hk
    have hlt := lt_entries.1 (List.mem_range.1 hmem)
    cases heq
    refine ⟨k, rfl, by rw [ent_of_lt hty hlt], by rw [ent_of_lt hty hlt]; exact hname, fun j hj => ?_⟩
    have hlt' : DESIZE * j < (s.node d).size := (Nat.mul_le_mul_left _ hj.le).trans_lt hlt
    rw [ent_of_lt hty hlt']
    simpa using hbefore j hj
  · rintro ⟨k, rfl, rfl, hname, hbefore⟩
    obtain ⟨_, hslot⟩ := names_iff.1 hname
    obtain ⟨hx, hne, -⟩ := slot_eq_some.1 hslot
    obtain ⟨-, hlt⟩ := lt_of_ent (hx ▸ hne)
    refine ⟨k, List.find?_range_eq_some.2 ⟨?_, List.mem_range.2 (lt_entries.2 hlt), fun j hj => ?_⟩, ?_⟩
    · rw [ent_of_lt hty hlt] at hname
      exact hname
    · have hlt' : DESIZE * j < (s.node d).size := (Nat.mul_le_mul_left _ hj.le).trans_lt hlt
      have hnot := hbefore j hj
      rw [ent_of_lt hty hlt'] at hnot
      simp [hnot]
    · rw [ent_of_lt hty hlt]
      rfl

theorem lookup_congr (hty : (s.node d).type = .dir) (hty' : (s'.node d).type = .dir) (hent : s'.ent d = s.ent d) :
    s'.lookup d name = s.lookup d name := by
  refine Option.ext fun q => ?_
  obtain ⟨ip, off⟩ := q
  rw [lookup_first hty, lookup_first hty', hent]

/-- in a map the first entry with the name is the only one -/
theorem lookup_iff (hty : (s.node d).type = .dir) (hd : Distinct (s.tab.slots d)) :
    s.lookup d name = some (ip, off) ↔ ∃ k, off = DESIZE * k ∧ s.tab.slots d k = some (cstr name, ip) := by
  rw [lookup_first hty]
  constructor
  · rintro ⟨k, rfl, rfl, hname, -⟩
    obtain ⟨x, hslot⟩ := names_iff.1 hname
    obtain ⟨hx, -⟩ := slot_eq_some.1 hslot
    exact ⟨k, rfl, hx ▸ hslot⟩
  · rintro ⟨k, rfl, hslot⟩
    refine ⟨k, rfl, (slot_eq_some.1 hslot).1, names_iff.2 ⟨ip, hslot⟩, fun j hj => ?_⟩
    by_contra hname
    obtain ⟨x, hslot'⟩ := names_iff.1 (Bool.not_eq_false _ ▸ hname)
    exact absurd (hd j k _ x ip hslot' hslot) hj.ne

theorem binding_iff (hty : (s.node d).type = .dir) (hd : Distinct (s.tab.slots d)) :
    s.binding d name = some ip ↔ Maps (s.tab.slots d) (cstr name) ip := by
  unfold St.binding
  rw [Option.map_eq_some_iff]
  constructor
  · rintro ⟨⟨ip', off⟩, hlook, rfl⟩
    obtain ⟨k, -, hslot⟩ := (lookup_iff hty hd).1 hlook
    exact ⟨k, hslot⟩
  · rintro ⟨k, hslot⟩
    exact ⟨(ip, DESIZE * k), (lookup_iff hty hd).2 ⟨k, rfl, hslot⟩, rfl⟩

/-! ## One name changes -/

/-- in the directories of `s'` every name leads where it did, but `name` in `d` leads to `v` -/
def Rebinds (d : ℕ) (name : Name) (v : Option ℕ) (s s' : St) : Prop :=
  ∀ d' name', (s'.node d').type = .dir →
    s'.binding d' name' = if d' = d ∧ cstr name' = cstr name then v else s.binding d' name'

/-- the directories of `s'` are those of a table, and were directories before -/
def Tables (s : St) (t : Tab) (s' : St) : Prop := ∀ d', (s'.node d').type = .dir → (s.node d').type = .dir ∧ s'.ent d' = t.ent d'

/-- an entry changes, and `hself` says what that does to its directory -/
theorem Tables.rebinds {v : Option ℕ} (ht : Tables s (s.tab.setEnt d k de) s')
    (hself : (s.node d).type = .dir → (s'.node d).type = .dir → s'.tab.slots d = Function.update (s.tab.slots d) k de.slot →
      ∀ name', s'.binding d name' = if cstr name' = cstr name then v else s.binding d name') : Rebinds d name v s s' := by
  intro d' name' hty'
  obtain ⟨hty, hent⟩ := ht d' hty'
  by_cases hd : d' = d
  · subst hd
    have hslots : s'.tab.slots d' = Function.update (s.tab.slots d') k de.slot := by
      have hsame : s'.tab.slots d' = (s.tab.setEnt d' k de).slots d' := by
        funext j
        unfold Tab.slots
        rw [← hent]
        rfl
      rw [hsame, slots_setEnt, if_pos rfl]
    rw [hself hty hty' hslots name']
    simp only [true_and]
  · rw [if_neg fun hand => hd hand.1]
    have hsame : s'.ent d' = s.ent d' := by
      rw [hent]
      funext j
      rw [Tab.ent_setEnt, if_neg fun hand => hd hand.1]
      rfl
    unfold St.binding
    rw [lookup_congr hty hty' hsame]

/-- an entry for a new name -/
theorem Tables.enter (ht : Tables s (s.tab.setEnt d k de) s') (hd : Distinct (s.tab.slots d)) (hnone : s.lookup d name = none)
    (hk : s.tab.slots d k = none) (hde : de.slot = some (cstr name, inum)) : Rebinds d name (some inum) s s' := by
  refine ht.rebinds fun hty hty' hslots name' => ?_
  have hnew : ∀ v, ¬ Maps (s.tab.slots d) (cstr name) v := by
    rintro v ⟨j, hj⟩
    rw [(lookup_iff hty hd).2 ⟨j, rfl, hj⟩] at hnone
    cases hnone
  have hd' : Distinct (s'.tab.slots d) := by
    rw [hslots, hde]
    exact hd.set hnew
  refine Option.ext fun v => ?_
  rw [binding_iff hty' hd', hslots, hde, maps_set hk]
  split
  · rename_i heq
    rw [heq, Option.some.injEq]
    constructor
    · rintro (⟨-, rfl⟩ | hold)
      · rfl
      · exact absurd hold (hnew v)
    · rintro rfl
      exact .inl ⟨rfl, rfl⟩
  · rename_i hne
    rw [binding_iff hty hd]
    exact ⟨fun hor => hor.resolve_left fun hand => hne hand.1, .inr⟩

/-- an entry that goes -/
theorem Tables.erase (ht : Tables s (s.tab.setEnt d k de) s') (hd : Distinct (s.tab.slots d))
    (hk : s.tab.slots d k = some (cstr name, ip)) (hde : de.slot = none) : Rebinds d name none s s' := by
  refine ht.rebinds fun hty hty' hslots name' => ?_
  have hd' : Distinct (s'.tab.slots d) := by
    rw [hslots, hde]
    exact hd.clear
  refine Option.ext fun v => ?_
  rw [binding_iff hty' hd', hslots, hde, maps_clear hd hk]
  split
  · rename_i heq
    exact ⟨fun hand => absurd heq hand.1, nofun⟩
  · rename_i hne
    rw [binding_iff hty hd]
    exact ⟨And.right, fun hmaps => ⟨hne, hmaps⟩⟩

/-! ## With the lock of the directory -/

/-- what a call does with a directory, which it refers to and locks meanwhile; the call has begun its operation -/
def inDir {α : Type} (sb : Superblock) (d : ℕ) (p : FsM α) : FsM α := do
  iget d
  ilock d
  let r ← p
  iunlockput sb d
  return r

theorem live_igot (s : St) (x : ℕ) : (s.igot x).live ≤ s.live + 1 := by
  unfold St.igot
  split
  · exact Nat.le_succ _
  · exact le_rfl

/-- **The rule for `inDir`.** `p` runs with one reference and one lock, and ends with them. -/
theorem inDir_swp {α : Type} {p : FsM α} {Q : α → St → Prop} (hwf : Wf sb s) (hty : (s.node d).type = .dir)
    (hEg : E .iget ∨ s.live < NINODE)
    (hp : ∀ t, Safe sb s s.holds {d} [d] [] t → t.live ≤ s.live + 1 → ∀ l : List ℕ, (l : Multiset ℕ) = {d} →
      Swp E h p (fun r t' l' => (∃ s1 R, Safe sb s1 s.holds (d ::ₘ R) [d] [] t' ∧
        ∀ t'', Safe sb s1 s.holds R [] [] t'' → Q r t'') ∧ (l' : Multiset ℕ) = {d}) t l) :
    Swp E h (inDir sb d p) (fun r s' l' => Q r s' ∧ (l' : Multiset ℕ) = 0) s [] := by
  have hfree : (s.node d).type ≠ .free := by
    rw [hty]
    decide
  unfold inDir
  refine swp_seq (iget_igot hEg) iget_keeps fun _ s1 l1 hs1 hl1 => ?_
  have hsafe1 : Safe sb s s.holds {d} [] [] s1 := hs1 ▸ hwf.safe.igot d
  have hlive1 : s1.live ≤ s.live + 1 := hs1 ▸ live_igot s d
  refine swp_seq (wp_frame (ilock_spec (.inr hfree) hsafe1 (.inr (Multiset.mem_singleton_self d))) fun _ _ => ilock_live)
    (ilock_locks (.inr (by rw [hl1]; exact Multiset.notMem_zero d))) fun _ s2 l2 ⟨hsafe2, hlive2⟩ ⟨_, hl2⟩ => ?_
  rw [hl1] at hl2
  refine swp_then (hp s2 hsafe2 (hlive2.trans_le hlive1) l2 hl2) fun r s3 l3 ⟨⟨s0, R, hsafe3, hQ⟩, hl3⟩ => ?_
  refine swp_seq (iunlockput_quiet hsafe3 kept_nil kept_nil) (Q := fun _ m' => m' = 0) ?_ fun _ s4 l4 hsafe4 hl4 => ?_
  · rw [hl3]
    exact iunlockput_locks (.inr (Multiset.notMem_zero d))
  · exact ⟨hQ s4 hsafe4, hl4⟩

/-- a process that holds just the lock of the directory holds it once -/
theorem count_one {l : List ℕ} (hl : (l : Multiset ℕ) = {d}) : (l : Multiset ℕ).count d = 1 := by
  rw [hl]
  exact Multiset.count_singleton_self d

theorem Wf.room (hlive : t.live ≤ s.live + 1) : Full s .iget ∨ t.live < NINODE := by
  rcases Nat.lt_or_ge NINODE (s.live + 2) with hfull | hroom
  · exact .inl ⟨rfl, hfull⟩
  · exact .inr (by omega)

/-- **`dirlookup`** returns what the search finds. -/
theorem inDir_dirlookup (hwf : Wf sb s) (hwhole : s.Whole) (hty : (s.node d).type = .dir) (name : Name) :
    Yields (inDir sb d (dirlookup sb d name)) (s.lookup d name) s := by
  refine .of_swp (inDir_swp hwf hty (Wf.room (Nat.le_succ _)) fun t ht hlive l hl => ?_)
  have hsearch : Wp (Full s) (dirlookup sb d name) _ t :=
    dirlookup_igot (.inr hwhole) (Wf.room hlive) ht List.mem_cons_self hty
  refine swp_mono (swp_of hsearch (dirlookup_keeps (.inr (count_one hl)))) fun r t' l' ⟨⟨hr, ht'⟩, hl'⟩ => ⟨⟨s, found r 0, ?_, fun t'' ht'' => ⟨hr, ht''.quiet⟩⟩, hl'.trans hl⟩
  have hswap : found r {d} = d ::ₘ found r 0 := by
    cases r with
    | none => rfl
    | some q => exact Multiset.cons_swap q.1 d 0
  rw [← hswap, ht']
  exact ht.found r

/-- what `dirlink` is for: it refuses a name that is there and changes nothing, and adds exactly one that is not -/
def DirlinkOk (sb : Superblock) (d : ℕ) (name : Name) (inum : ℕ) (s : St) : Prop :=
  (s.binding d name ≠ none → ∃ s', (inDir sb d (dirlink sb d name inum)).solo s [] = .ok (false, s', []) ∧ Quiet s s' ∧
    ∀ y, (s'.icache y).ref = (s.icache y).ref) ∧
  (s.binding d name = none → (s.node d).size < MAXFILE * BSIZE →
    ∃ s', (inDir sb d (dirlink sb d name inum)).solo s [] = .ok (true, s', []) ∧ Rebinds d name (some inum) s s')

/-- with entries enough in the inode cache, `dirlink` comes past its search -/
theorem dirlink_search {Q : Bool → St → List ℕ → Prop} (hwhole : s.Whole) (hty : (s.node d).type = .dir) (hroom : s.live + 2 ≤ NINODE)
    (ht : Safe sb s s.holds {d} [d] [] t) (hlive : t.live ≤ s.live + 1) {l : List ℕ} (hl : (l : Multiset ℕ) = {d})
    (hnone : s.lookup d name = none → ∀ l : List ℕ, (l : Multiset ℕ) = {d} → Swp E h (dirlinkNew sb d name inum) Q t l)
    (hsome : ∀ ip off, s.lookup d name = some (ip, off) → ∀ t', Safe sb s s.holds (ip ::ₘ {d}) [d] [] t' →
      ∀ l : List ℕ, (l : Multiset ℕ) = {d} → Swp E h (do
        iput sb ip
        return false) Q t' l) : Swp E h (dirlink sb d name inum) Q t l := by
  unfold dirlink
  refine swp_seq (dirlookup_igot (.inr hwhole) (.inr (by omega)) ht List.mem_cons_self hty)
    (dirlookup_keeps (.inr (count_one hl))) fun r t' l' ⟨hr, ht'⟩ hl' => ?_
  have hl' := hl'.trans hl
  cases r with
  | none =>
    subst ht'
    exact hnone hr.symm l' hl'
  | some q => exact hsome q.1 q.2 hr.symm t' (ht' ▸ ht.found (some q)) l' hl'

/-- **A name that is there** is refused, where it leads to another inode. -/
theorem dirlink_refuses (hwf : Wf sb s) (hwhole : s.Whole) (hty : (s.node d).type = .dir) (hroom : s.live + 2 ≤ NINODE)
    (hlook : s.lookup d name = some (ip, off)) (hne : ip ≠ d) :
    ∃ s', (inDir sb d (dirlink sb d name inum)).solo s [] = .ok (false, s', []) ∧ Quiet s s' ∧ ∀ y, (s'.icache y).ref = (s.icache y).ref := by
  have hswp : Swp (fun _ => False) False (inDir sb d (dirlink sb d name inum))
      (fun r s' l' => (r = false ∧ Safe sb s s.holds 0 [] [] s') ∧ (l' : Multiset ℕ) = 0) s [] := by
    refine inDir_swp hwf hty (.inr (by omega)) fun t ht hlive l hl => ?_
    refine dirlink_search hwhole hty hroom ht hlive hl (fun hnone => ?_) fun ip' off' hlook' t' ht' l' hl' => ?_
    · rw [hlook] at hnone
      cases hnone
    · rw [hlook] at hlook'
      cases hlook'
      refine swp_seq (iput_quiet ht' nofun fun _ => .inr (Multiset.mem_singleton.2 ?_)) (iput_keeps (.inr ?_))
        fun _ t2 l2 ht2 hl2 => ?_
      · rename_i hmem
        exact List.mem_singleton.1 hmem
      · rw [hl', Multiset.mem_singleton]
        exact hne
      · exact ⟨⟨s, 0, ht2, fun t'' ht'' => ⟨rfl, ht''⟩⟩, hl2.trans hl'⟩
  rcases swp_ends hswp with ⟨r, s', l', hsolo, ⟨rfl, hsafe⟩, hl'⟩ | ⟨e, -, he⟩
  · rw [(Multiset.coe_eq_zero l').1 hl'] at hsolo
    refine ⟨s', hsolo, hsafe.quiet, fun y => ?_⟩
    rw [hsafe.ref, hwf.safe.ref]
  · exact he.elim

/-- **A name that leads to the directory itself** is waited for without end. -/
theorem dirlink_hangs (hwf : Wf sb s) (hwhole : s.Whole) (hty : (s.node d).type = .dir) (hroom : s.live + 2 ≤ NINODE)
    (hlook : s.lookup d name = some (d, off)) : (inDir sb d (dirlink sb d name inum)).solo s [] = .error .hang := by
  have hswp : Swp (fun _ => False) True (inDir sb d (dirlink sb d name inum))
      (fun _ _ l' => False ∧ (l' : Multiset ℕ) = 0) s [] := by
    refine inDir_swp hwf hty (.inr (by omega)) fun t ht hlive l hl => ?_
    refine dirlink_search hwhole hty hroom ht hlive hl (fun hnone => ?_) fun ip' off' hlook' t' ht' l' hl' => ?_
    · rw [hlook] at hnone
      cases hnone
    · rw [hlook] at hlook'
      cases hlook'
      have hmem : d ∈ l' := by
        rw [← Multiset.mem_coe, hl']
        exact Multiset.mem_singleton_self d
      exact swp_bind (swp_bind (swp_stuck trivial hmem))
  exact swp_hangs (swp_mono hswp fun _ _ _ hfalse => hfalse.1)

/-- below the maximum size there is a place for one more entry -/
theorem emptyOff_fits (hdiv : s.Divides) (hty : (s.node d).type = .dir) (hmax : (s.node d).size < MAXFILE * BSIZE) :
    ¬ writeFails (s.node d).size (s.emptyOff d) DESIZE := by
  obtain ⟨k, hoff, hk, -⟩ := emptyOff_eq hdiv hty
  obtain ⟨n, hn⟩ := hdiv d hty
  have hend : MAXFILE * BSIZE = DESIZE * 4480 := by decide
  rw [hend] at hmax
  unfold writeFails
  rw [hoff, hend]
  unfold DESIZE uint at *
  omega

/-- it takes two blocks at most: one for the entry and one for the indirect addresses -/
theorem emptyOff_need (hdiv : s.Divides) (hty : (s.node d).type = .dir) (hfree : 2 ≤ s.nfree sb) :
    need (blocks (max (s.node d).size (s.emptyOff d + DESIZE))) ≤ s.nfree sb + need (blocks (s.node d).size) := by
  obtain ⟨k, hoff, hk, -⟩ := emptyOff_eq hdiv hty
  have hgrow : blocks (max (s.node d).size (s.emptyOff d + DESIZE)) ≤ blocks (s.node d).size + 1 := by
    rw [hoff]
    unfold blocks BSIZE DESIZE at *
    omega
  unfold need
  split
  all_goals
    split <;> omega

/-- **A name that is not there** is added. -/
theorem dirlink_adds (hsb : sb.Ok) (hwf : Wf sb s) (hdiv : s.Divides) (hty : (s.node d).type = .dir) (hd : Distinct (s.tab.slots d))
    (hroom : s.live + 2 ≤ NINODE) (hfree : 2 ≤ s.nfree sb) (hmax : (s.node d).size < MAXFILE * BSIZE)
    (hlook : s.lookup d name = none) (hpos : 0 < inum) (hlt : inum < 2 ^ 16) :
    ∃ s', (inDir sb d (dirlink sb d name inum)).solo s [] = .ok (true, s', []) ∧ Rebinds d name (some inum) s s' := by
  have hswp : Swp (fun _ => False) False (inDir sb d (dirlink sb d name inum))
      (fun r s' l' => (r = true ∧ ∃ t t', Safe sb s s.holds {d} [d] [] t ∧
        Written sb d (s.emptyOff d) (Dirent.bytes ⟨inum, strncpy name⟩) t t' ∧ Quiet t' s') ∧ (l' : Multiset ℕ) = 0) s [] := by
    refine inDir_swp hwf hty (.inr (by omega)) fun t ht hlive l hl => ?_
    refine dirlink_search hdiv.whole hty hroom ht hlive hl (fun _ l' hl' => ?_) fun ip' off' hlook' => ?_
    · have hnew : Wp (fun _ => False) (dirlinkNew sb d name inum) _ t := dirlinkNew_spec hsb (.inr (emptyOff_need hdiv hty hfree))
        (.inr (emptyOff_fits hdiv hty hmax)) (.inr hdiv.whole) ht List.mem_cons_self hty
      refine swp_mono (swp_of hnew (dirlinkNew_keeps (.inr (count_one hl')))) fun r t' l2 ⟨⟨hr, hs, hw⟩, hl2⟩ => ?_
      exact ⟨⟨t', 0, hs, fun t'' ht'' => ⟨hr, t, t', ht, hw, ht''.quiet⟩⟩, hl2.trans hl'⟩
    · rw [hlook] at hlook'
      cases hlook'
  rcases swp_ends hswp with ⟨r, s', l', hsolo, ⟨rfl, t, t', ht, hw, hq⟩, hl'⟩ | ⟨e, -, he⟩
  · rw [(Multiset.coe_eq_zero l').1 hl'] at hsolo
    refine ⟨s', hsolo, ?_⟩
    obtain ⟨k, hoff, hk, hzero, -⟩ := emptyOff_eq hdiv hty
    rw [hoff] at hw
    have hcore := ht.core List.mem_cons_self
    have htab : s'.tab = s.tab.setEnt d k ⟨inum % 2 ^ 16, strncpy name⟩ := by
      have hwrote := (tab_written hw ht.good (ht.quiet.sameDisk.divides hdiv) (ht.loaded d List.mem_cons_self) (by rw [hcore, hty])
        (by rw [hcore]; exact hk)).1
      rw [hq.sameDisk.tab, hwrote, ht.quiet.sameDisk.tab, ofBytes_enter]
    have htables : Tables s (s.tab.setEnt d k ⟨inum % 2 ^ 16, strncpy name⟩) s' := by
      intro d' hty'
      rw [← htab]
      refine ⟨?_, rfl⟩
      have htype : s'.tab.type d' = s.tab.type d' := by rw [htab]; rfl
      exact htype.symm.trans hty'
    refine htables.enter hd hlook (if_pos hzero) (slot_eq_some.2 ⟨Nat.mod_eq_of_lt hlt, hpos.ne', cstr_strncpy name⟩)
  · exact he.elim

/-- **When `dirlink` is right.** -/
theorem dirlinkOk_iff (hsb : sb.Ok) (hwf : Wf sb s) (hdiv : s.Divides) (hty : (s.node d).type = .dir) (hd : Distinct (s.tab.slots d))
    (hroom : s.live + 2 ≤ NINODE) (hfree : 2 ≤ s.nfree sb) (hpos : 0 < inum) (hlt : inum < 2 ^ 16) :
    DirlinkOk sb d name inum s ↔ s.binding d name ≠ some d := by
  constructor
  · rintro ⟨hrefuse, -⟩ hself
    obtain ⟨s', hsolo, -⟩ := hrefuse (hself ▸ Option.some_ne_none d)
    obtain ⟨⟨ip, off⟩, hlook, rfl⟩ := Option.map_eq_some_iff.1 hself
    rw [dirlink_hangs hwf hdiv.whole hty hroom hlook] at hsolo
    cases hsolo
  · intro hne
    refine ⟨fun hthere => ?_, fun hnone hmax => ?_⟩
    · obtain ⟨ip, hip⟩ := Option.ne_none_iff_exists'.1 hthere
      rw [hip] at hne
      obtain ⟨⟨ip, off⟩, hlook, rfl⟩ := Option.map_eq_some_iff.1 hip
      exact dirlink_refuses hwf hdiv.whole hty hroom hlook fun heq => hne (congrArg some heq)
    · exact dirlink_adds hsb hwf hdiv hty hd hroom hfree hmax (Option.map_eq_none_iff.1 hnone) hpos hlt

/-! ## `unlink` -/

/-- links counted and inodes freed leave the entries of the directories that stay -/
theorem Steps.rest {t t' : Tab} (h : Steps sb es t t') (hes : ∀ e ∈ es, (∃ x n, e = .link x n) ∨ ∃ x, e = .free x) (hty : t'.type d = .dir) :
    t.type d = .dir ∧ t'.ent d = t.ent d := by
  induction es generalizing t with
  | nil =>
    subst h
    exact ⟨hty, rfl⟩
  | cons e es ih =>
    obtain ⟨t1, hact, hrest⟩ := h
    obtain ⟨hty1, hent1⟩ := ih hrest fun e' he' => hes e' (List.mem_cons_of_mem e he')
    rcases hes e List.mem_cons_self with ⟨x, n, rfl⟩ | ⟨x, rfl⟩
    · subst hact
      exact ⟨hty1, hent1⟩
    · obtain ⟨-, rfl⟩ := hact
      have hne : d ≠ x := by
        rintro rfl
        have hfree : ((t.setType d .free).clear d).type d = .free := update_self ..
        rw [hfree] at hty1
        cases hty1
      have hsame : ((t.setType x .free).clear x).type d = t.type d := update_of_ne hne ..
      refine ⟨hsame.symm.trans hty1, hent1.trans ?_⟩
      funext j
      rw [Tab.ent_clear, if_neg hne]
      rfl

/-- **`unlink`** takes exactly the name away that it is given, or does nothing. -/
theorem UnlinkEdits.rebinds {path : List UInt8} {r : ℤ} (hes : UnlinkEdits H s pid path r es) (hsteps : Steps sb es s.tab s'.tab)
    (hd : Distinct (s.tab.slots d)) (hpath : s.resolve pid path true = some (d, name)) :
    (r = 0 ∧ s.binding d name ≠ Option.none ∧ Rebinds d name Option.none s s') ∨ (r = -1 ∧ es = []) := by
  cases hes with
  | none => exact .inr ⟨rfl, rfl⟩
  | done dp ip off name' f1 f2 hdir hdot hdots hdp hent hlink hempty h1 h2 =>
    rw [hpath] at hdir
    cases hdir
    obtain ⟨k, rfl, hslot⟩ := (lookup_iff hdp hd).1 hent
    rw [List.append_assoc, List.append_assoc, List.append_assoc, steps_append] at hsteps
    obtain ⟨t1, ⟨_, ⟨k', hk, rfl⟩, rfl⟩, hrest⟩ := hsteps
    have hk : k = k' := Nat.eq_of_mul_eq_mul_left (by decide) hk
    subst hk
    refine .inl ⟨rfl, ?_, ?_⟩
    · unfold St.binding
      rw [hent]
      exact Option.some_ne_none ip
    · have htables : Tables s (s.tab.setEnt d k .cleared) s' := fun d' hty' => by
        refine hrest.rest (fun e he => ?_) hty'
        simp only [List.mem_append, List.mem_singleton] at he
        rcases he with he | he | rfl | he
        · split at he
          · exact .inl ⟨d, -1, List.mem_singleton.1 he⟩
          · exact absurd he List.not_mem_nil
        · exact .inr ⟨d, h1.eq_free he⟩
        · exact .inl ⟨ip, -1, rfl⟩
        · exact .inr ⟨ip, h2.eq_free he⟩
      exact htables.erase hd hslot rfl

/-! ## Directories that calls have made -/

/-- just "." and ".." -/
structure St.Fresh (s : St) (d : ℕ) : Prop where
  size : (s.node d).size = 2 * DESIZE
  dot : cstr (s.dirent d 0).name = DOT
  dotdot : cstr (s.dirent d DESIZE).name = DOTDOT

theorem St.Fresh.distinct (h : (s.node d).type = .dir → s.Fresh d) : Distinct (s.tab.slots d) := by
  have hlive : ∀ {k a x}, s.tab.slots d k = some (a, x) → (k = 0 ∧ a = DOT) ∨ (k = 1 ∧ a = DOTDOT) := by
    intro k a x hk
    obtain ⟨hx, hne, ha⟩ := slot_eq_some.1 hk
    obtain ⟨hty, hlt⟩ := lt_of_ent (s := s) (hx ▸ hne : (s.ent d k).inum ≠ 0)
    have hent : s.tab.ent d k = s.dirent d (DESIZE * k) := ent_of_lt hty hlt
    rw [hent] at ha
    obtain ⟨hsize, hdot, hdotdot⟩ := h hty
    rw [hsize] at hlt
    have hcases : k = 0 ∨ k = 1 := by
      unfold DESIZE at hlt
      omega
    rcases hcases with rfl | rfl
    · exact .inl ⟨rfl, ha.symm.trans hdot⟩
    · exact .inr ⟨rfl, ha.symm.trans hdotdot⟩
  intro i j a v w hi hj
  rcases hlive hi with ⟨rfl, rfl⟩ | ⟨rfl, rfl⟩
  · rcases hlive hj with ⟨rfl, -⟩ | ⟨-, heq⟩
    · rfl
    · exact absurd heq (by decide)
  · rcases hlive hj with ⟨-, heq⟩ | ⟨rfl, -⟩
    · exact absurd heq (by decide)
    · rfl

/-- **Directories are finite maps.** `d` has just "." and "..", or is no directory yet; after any calls that make, name and remove, if it
    is a directory then, its size is a multiple of 16, the names of its entries are different, `dirlookup` finds exactly the entry with the
    name and `unlink` removes exactly the name it is given. With two free entries in the inode cache and two free blocks, `dirlink` does
    what it is for if and only if the name does not lead to `d` itself. -/
theorem directory_maps (hsb : sb.Ok) (hwf : Wf sb s) (hdiv : s.Divides) (hd : (s.node d).type = .dir → s.Fresh d) {cs : List Call}
    (hcs : ∀ c ∈ cs, c.names = true) (hrun : run (callStep sb) s cs = s') (hdir : (s'.node d).type = .dir) :
    DESIZE ∣ (s'.node d).size ∧
    (∀ j k, (s'.ent d j).inum ≠ 0 → (s'.ent d k).inum ≠ 0 →
      strncmp DIRSIZ (s'.ent d j).name (s'.ent d k).name = 0 → j = k) ∧
    (∀ name, Yields (inDir sb d (dirlookup sb d name)) (s'.lookup d name) s' ∧
      ∀ ip off, s'.lookup d name = some (ip, off) ↔ ∃ k, off = DESIZE * k ∧ (s'.ent d k).inum = ip ∧ ip ≠ 0 ∧
        strncmp DIRSIZ name (s'.ent d k).name = 0) ∧
    (∀ pid path name r s'' l, (s'.cwd pid).isSome → s'.resolve pid path true = some (d, name) →
      (sysUnlink sb pid (some path)).solo s' [] = .ok (r, s'', l) →
        (r = 0 ∧ s'.binding d name ≠ none ∧ Rebinds d name none s' s'') ∨ (r = -1 ∧ SameDisk s' s'')) ∧
    ∀ name inum, 0 < inum → inum < 2 ^ 16 → s'.live + 2 ≤ NINODE → 2 ≤ s'.nfree sb →
      (DirlinkOk sb d name inum s' ↔ s'.binding d name ≠ some d) := by
  obtain ⟨hwf', hdiv', hd'⟩ := run_slots hsb hwf hdiv (St.Fresh.distinct hd) hcs
  rw [hrun] at hwf' hdiv' hd'
  refine ⟨hdiv' d hdir, fun j k hj hk heq => ?_, fun name => ⟨inDir_dirlookup hwf' hdiv'.whole hdir name, fun ip off => ?_⟩,
    fun pid path name r s'' l hcwd hpath hsolo => ?_, fun name inum hpos hlt hroom hfree => ?_⟩
  · have hname : cstr (s'.ent d j).name = cstr (s'.ent d k).name := (strncmp_eq_zero ..).1 heq
    exact hd' j k _ _ _ (slot_eq_some.2 ⟨rfl, hj, hname⟩) (slot_eq_some.2 ⟨rfl, hk, rfl⟩)
  · rw [lookup_iff hdir hd']
    refine exists_congr fun k => and_congr_right fun _ => slot_eq_some.trans ?_
    refine and_congr_right fun _ => and_congr_right fun _ => eq_comm.trans ?_
    exact (strncmp_eq_zero DIRSIZ name (s'.ent d k).name).symm
  · obtain ⟨c, hc⟩ := Option.isSome_iff_exists.1 hcwd
    have hpos := St.holds_start hc
    obtain ⟨es, hes, hends⟩ : ∃ es, UnlinkEdits s'.holds s' pid path r es ∧ Ends sb s' s'.holds es s'' :=
      wp_ok (sysUnlink_spec (E := NoBfree) hsb hwf'.safe hpos (.inl (by decide))) (solo_exec hsolo)
    rcases hes.rebinds (hends.outcome.steps hdiv' hes.isWrite).1 hd' hpath with hdone | ⟨hr, rfl⟩
    · exact .inl hdone
    · exact .inr ⟨hr, hends.outcome.sameDisk⟩
  · exact dirlinkOk_iff hsb hwf' hdiv' hdir hd' hroom hfree hpos hlt

theorem rootFs_fresh : rootFs.Fresh 1 := ⟨rfl, by decide, by decide⟩

/-- the root after a file "f" has been made in it: `dirlink` refuses "f" -/
theorem directory_maps_file : DESIZE ∣ ((run (callStep rootSb) rootFs [.open 0 512 (some [102])]).node 1).size ∧
    DirlinkOk rootSb 1 [102] 2 (run (callStep rootSb) rootFs [.open 0 512 (some [102])]) := by
  have hdir : ((run (callStep rootSb) rootFs [.open 0 512 (some [102])]).node 1).type = .dir := by decide +kernel
  obtain ⟨hsize, -, -, -, hlink⟩ := directory_maps ⟨by decide, by decide⟩ rootFs_wf rootFs_named.divides (fun _ => rootFs_fresh)
    (fun c hc => by rw [List.mem_singleton.1 hc]; rfl) rfl hdir
  exact ⟨hsize, (hlink [102] 2 (by decide) (by decide) (by decide +kernel) (by decide +kernel)).2 (by decide +kernel)⟩

/-- **"." in the root directory.** The name is there, and `dirlink` does not come back; so `link("f", "/.")` hangs. -/
theorem dirlink_dot_hangs : (Wf rootSb rootFs ∧ rootFs.Divides ∧ (rootFs.node 1).type = .dir ∧ rootFs.Fresh 1 ∧
      rootFs.live + 2 ≤ NINODE ∧ 2 ≤ rootFs.nfree rootSb) ∧ rootFs.binding 1 DOT = some 1 ∧
    (inDir rootSb 1 (dirlink rootSb 1 DOT 2)).solo rootFs [] = .error .hang ∧ ¬ DirlinkOk rootSb 1 DOT 2 rootFs ∧
    (sysLink rootSb 0 (some [102]) (some [47, 46])).solo (run (callStep rootSb) rootFs [.open 0 512 (some [102])]) [] =
      .error .hang := by
  have hself : rootFs.binding 1 DOT = some 1 := by decide +kernel
  have hhang : (inDir rootSb 1 (dirlink rootSb 1 DOT 2)).solo rootFs [] = .error .hang := solo_of_hangs (by decide +kernel)
  refine ⟨⟨rootFs_wf, rootFs_named.divides, rfl, rootFs_fresh, by decide, by decide +kernel⟩, hself, hhang, ?_,
    solo_of_hangs (by decide +kernel)⟩
  rintro ⟨hrefuse, -⟩
  obtain ⟨s', hsolo, -⟩ := hrefuse (hself ▸ Option.some_ne_none 1)
  rw [hhang] at hsolo
  cases hsolo

end Xv6.FileSys
