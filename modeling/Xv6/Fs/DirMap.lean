/-
Directories as finite maps from names to inode numbers. An entry is a slot of 16 bytes; `unlink` leaves a hole, and the next new name
goes into the first one. Names are the bytes before the first NUL, at most `DIRSIZ` of them, and `strncmp`, `strncpy` and the copy that
`skipelem` makes agree on that.
-/
import Xv6.Core.Slots
import Xv6.Fs.TreeCalls

namespace Xv6.FileSys

open Xv6.Core Xv6.Core.Prog
open Xv6.Core.Slots (Maps Distinct)

/-! ## `string.c` -/

/-- `strncmp`; behind the end of a string there is a NUL -/
def strncmp : ℕ → List UInt8 → List UInt8 → ℤ
  | 0, _, _ => 0
  | n + 1, p, q =>
    if p.headD 0 ≠ 0 ∧ p.headD 0 = q.headD 0 then strncmp n p.tail q.tail
    else (p.headD 0).toNat - (q.headD 0).toNat

/-- the bytes that `strncpy` stores: the string, and then zeros -/
def strncpyLoop : ℕ → List UInt8 → List UInt8
  | 0, _ => []
  | n + 1, t => if t.headD 0 ≠ 0 then t.headD 0 :: strncpyLoop n t.tail else 0 :: List.replicate n 0

/-- the bytes before the first NUL, at most `n` -/
def cstrn (n : ℕ) (p : List UInt8) : List UInt8 := (p.take n).takeWhile (· ≠ 0)

theorem cstrn_succ (n : ℕ) (p : List UInt8) : cstrn (n + 1) p = if p.headD 0 ≠ 0 then p.headD 0 :: cstrn n p.tail else [] := by
  unfold cstrn
  cases p with
  | nil => simp
  | cons c p =>
    rw [List.take_succ_cons, List.headD_cons, List.tail_cons]
    split
    · rename_i hc
      exact List.takeWhile_cons_of_pos (by simpa using hc)
    · rename_i hc
      exact List.takeWhile_cons_of_neg (by simpa using hc)

/-- **`strncmp`** is zero just for the same bytes before the NUL. -/
theorem strncmp_eq_zero (n : ℕ) (p q : List UInt8) : strncmp n p q = 0 ↔ cstrn n p = cstrn n q := by
  induction n generalizing p q with
  | zero => simp [strncmp, cstrn]
  | succ n ih =>
    rw [strncmp, cstrn_succ, cstrn_succ]
    generalize p.headD 0 = a, q.headD 0 = b
    by_cases hab : a = b
    · subst hab
      by_cases ha : a = 0
      · simp [ha]
      · simp only [ne_eq, ha, not_false_eq_true, and_self, if_true, List.cons.injEq, true_and]
        exact ih p.tail q.tail
    · rw [if_neg fun hand => hab hand.2]
      have hne : ¬ (a.toNat : ℤ) - b.toNat = 0 := fun h => hab (UInt8.toNat_inj.1 (by omega))
      refine iff_of_false hne fun h => ?_
      split at h
      · split at h
        · exact hab (List.cons.inj h).1
        · cases h
      · split at h
        · cases h
        · rename_i ha hb
          exact hab ((not_not.1 ha).trans (not_not.1 hb).symm)

/-- **`strncpy`** stores those bytes and fills up with zeros. -/
theorem strncpyLoop_eq (n : ℕ) (t : List UInt8) : strncpyLoop n t = (cstrn n t ++ List.replicate n 0).take n := by
  induction n generalizing t with
  | zero => rfl
  | succ n ih =>
    rw [strncpyLoop, cstrn_succ]
    split
    · rw [ih, List.cons_append, List.take_succ_cons]
      have hlen : n ≤ (cstrn n t.tail ++ List.replicate n 0).length := by
        rw [List.length_append, List.length_replicate]
        omega
      rw [List.replicate_succ', ← List.append_assoc, List.take_append_of_le_length hlen]
    · rw [List.nil_append, List.replicate_succ, List.take_succ_cons, List.take_of_length_le (by simp)]

/-- `namecmp(s, t) == 0` -/
theorem nameEq_iff {a b : Name} : nameEq a b = true ↔ strncmp DIRSIZ a b = 0 := by
  unfold nameEq
  rw [beq_iff_eq, strncmp_eq_zero]
  rfl

/-- `strncpy(de.name, name, DIRSIZ)` -/
theorem strncpy_eq (name : Name) : strncpy name = strncpyLoop DIRSIZ name := by
  rw [strncpyLoop_eq]
  rfl

/-- **A name round trip.** The entry that `strncpy` fills answers to the names that `namecmp` takes for the one given, and to no other. -/
theorem stored_name (name other : Name) : strncmp DIRSIZ other (strncpyLoop DIRSIZ name) = 0 ↔ strncmp DIRSIZ other name = 0 := by
  rw [← strncpy_eq, strncmp_eq_zero, strncmp_eq_zero]
  exact Eq.congr_right (cstr_strncpy name)

/-! ## Slots -/

/-- an entry in use: its name and its inode -/
def Dirent.slot (de : Dirent) : Option (Name × ℕ) := if de.inum = 0 then none else some (cstr de.name, de.inum)

/-- the slots of a directory -/
def Tab.slots (t : Tab) (d k : ℕ) : Option (Name × ℕ) := (t.ent d k).slot

variable {sb : Superblock} {s s' s'' : St} {x y d dp ip k off : ℕ} {H : ℕ → ℕ} {name : Name} {pid : Fin NPROC} {e : Edit}
  {es es' : List Edit} {t t' : Tab} {de : Dirent}

theorem slot_eq_some {a : Name} : de.slot = some (a, x) ↔ de.inum = x ∧ x ≠ 0 ∧ cstr de.name = a := by
  unfold Dirent.slot
  split
  · rename_i hzero
    refine ⟨nofun, ?_⟩
    rintro ⟨rfl, hne, -⟩
    exact absurd hzero hne
  · rename_i hlive
    rw [Option.some.injEq, Prod.mk.injEq]
    constructor
    · rintro ⟨rfl, rfl⟩
      exact ⟨rfl, hlive, rfl⟩
    · rintro ⟨rfl, -, rfl⟩
      exact ⟨rfl, rfl⟩

theorem names_iff : de.names name = true ↔ ∃ x, de.slot = some (cstr name, x) := by
  unfold Dirent.names nameEq
  simp only [ne_eq, Bool.and_eq_true, decide_eq_true_eq, beq_iff_eq]
  constructor
  · rintro ⟨hlive, hname⟩
    exact ⟨de.inum, slot_eq_some.2 ⟨rfl, hlive, hname.symm⟩⟩
  · rintro ⟨x, hx⟩
    obtain ⟨rfl, hlive, hname⟩ := slot_eq_some.1 hx
    exact ⟨hlive, hname.symm⟩

theorem slots_setEnt : (t.setEnt dp k de).slots d = if d = dp then Function.update (t.slots d) k de.slot else t.slots d := by
  funext j
  unfold Tab.slots
  rw [Tab.ent_setEnt]
  by_cases hd : d = dp
  · rw [if_pos hd]
    by_cases hj : j = k
    · subst hj
      rw [if_pos ⟨hd, rfl⟩, update_self]
    · rw [if_neg fun hand => hj hand.2, update_of_ne hj]
  · rw [if_neg fun hand => hd hand.1, if_neg hd]

theorem Tab.ent_clear (t : Tab) (x d j : ℕ) : (t.clear x).ent d j = if d = x then ⟨0, []⟩ else t.ent d j := by
  unfold Tab.clear
  simp only [update_apply]
  split <;> rfl

/-- **One change** to the table leaves no name twice. -/
theorem Edit.Acts.distinct (h : e.Acts sb t t') (hw : e.isWrite = false) (hd : Distinct (t.slots d)) : Distinct (t'.slots d) := by
  cases e with
  | write => cases hw
  | enter dp name inum =>
    obtain ⟨-, hnone, k, -, -, rfl⟩ := h
    rw [slots_setEnt]
    split
    · rename_i heq
      subst heq
      cases hslot : Dirent.slot ⟨inum % 2 ^ 16, strncpy name⟩ with
      | none => exact hd.clear
      | some q =>
        obtain ⟨a, x⟩ := q
        obtain ⟨-, -, ha⟩ := slot_eq_some.1 hslot
        refine hd.set fun v ⟨j, hj⟩ => ?_
        have hnames : (t.ent d j).names name = true := by
          rw [names_iff, ← cstr_strncpy name]
          exact ⟨v, ha ▸ hj⟩
        rw [hnone j] at hnames
        cases hnames
    · exact hd
  | erase dp off =>
    obtain ⟨k, -, rfl⟩ := h
    rw [slots_setEnt]
    split
    · exact hd.clear
    · exact hd
  | link x n =>
    subst h
    exact hd
  | make x type =>
    obtain ⟨-, -, -, rfl⟩ := h
    exact hd
  | init x major minor =>
    subst h
    exact hd
  | free x =>
    obtain ⟨-, rfl⟩ := h
    by_cases hx : d = x
    · subst hx
      have hempty : ∀ j, ((t.setType d .free).clear d).slots d j = none := fun j => by
        unfold Tab.slots
        rw [Tab.ent_clear, if_pos rfl]
        rfl
      intro i j a v w hi
      rw [hempty] at hi
      cases hi
    · have hsame : ((t.setType x .free).clear x).slots d = t.slots d := by
        funext j
        unfold Tab.slots
        rw [Tab.ent_clear, if_neg hx]
        rfl
      rw [hsame]
      exact hd

theorem Steps.distinct (h : Steps sb es t t') (hw : ∀ e ∈ es, e.isWrite = false) (hd : Distinct (t.slots d)) : Distinct (t'.slots d) := by
  induction es generalizing t with
  | nil => exact h ▸ hd
  | cons e es ih =>
    obtain ⟨t1, hact, hrest⟩ := h
    exact ih hrest (fun e' he' => hw e' (List.mem_cons_of_mem e he')) (hact.distinct (hw e List.mem_cons_self) hd)

/-! ## Calls -/

/-- directories of whole entries stay so, and what happens to them is a list of changes to the table -/
def Reworks (sb : Superblock) (s s' : St) : Prop :=
  s.Divides → s'.Divides ∧ ∃ es, (∀ e ∈ es, e.isWrite = false) ∧ Steps sb es s.tab s'.tab

theorem Reworks.same (h : SameDisk s s') : Reworks sb s s' := fun hdiv =>
  ⟨h.divides hdiv, [], nofun, h.tab⟩

theorem Reworks.trans (h : Reworks sb s s') (h' : Reworks sb s' s'') : Reworks sb s s'' := by
  intro hdiv
  obtain ⟨hdiv1, es, hes, hsteps⟩ := h hdiv
  obtain ⟨hdiv2, es', hes', hsteps'⟩ := h' hdiv1
  refine ⟨hdiv2, es ++ es', fun e he => ?_, steps_append.2 ⟨s'.tab, hsteps, hsteps'⟩⟩
  rcases List.mem_append.1 he with he | he
  · exact hes e he
  · exact hes' e he

theorem Outcome.reworks (h : Outcome sb s es s') (hw : ∀ e ∈ es, e.isWrite = false) : Reworks sb s s' := fun hdiv =>
  ⟨(h.steps hdiv hw).2, es, hw, (h.steps hdiv hw).1⟩

theorem fileclose_reworks (hwf : Wf sb s) (f : Fin NFILE) : Wp NoBfree (fileclose sb f) (fun _ s' => Reworks sb s s') s := by
  refine wp_mono (fileclose_spec hwf.safe f) fun _ s' ⟨_, hs'⟩ => ?_
  split at hs'
  · obtain ⟨fr, hfr, hout⟩ := hs'
    exact hout.reworks hfr.isWrite
  · exact .same hs'

theorem close_reworks (hwf : Wf sb s) (pid : Fin NPROC) (fd : Fin NOFILE) :
    Wp NoBfree (sysClose sb pid fd) (fun _ s' => Reworks sb s s') s := by
  unfold sysClose
  refine wp_read.2 ?_
  split
  · exact .same (.refl s)
  · have hwf1 : Wf sb (s.setFd pid fd none) := (hwf.tabled.setFd pid fd none).wf
    have hsame : SameDisk s (s.setFd pid fd none) := ⟨rfl, rfl, rfl, rfl⟩
    refine wp_write.2 ?_
    exact wp_seq (fileclose_reworks hwf1 _) fun _ s1 hs1 => Reworks.trans (.same hsame) hs1

theorem chdir_reworks (hwf : Wf sb s) {c : ℕ} (hcwd : s.cwd pid = some c) (path : Option (List UInt8)) :
    Wp NoBfree (sysChdir sb pid path) (fun _ s' => Reworks sb s s') s := by
  cases path with
  | none => exact .same ⟨rfl, rfl, rfl, rfl⟩
  | some path =>
    refine wp_mono (sysChdir_spec hwf.safe hcwd) fun r s' ⟨es, hes, hout⟩ => ?_
    cases hes with
    | none => exact .same hout.sameDisk
    | done x fr _ _ _ hfr => exact hout.reworks hfr.isWrite

theorem exit_reworks (hwf : Wf sb s) {c : ℕ} (hcwd : s.cwd pid = some c) : Wp NoBfree (exit sb pid) (fun _ s' => Reworks sb s s') s := by
  unfold FileSys.exit
  refine wp_seq (wp_forEach (I := fun _ s' => (Tabled sb 0 [] [] s' ∧ s'.cwd = s.cwd) ∧ Reworks sb s s')
    (fun fd fds s1 ⟨⟨hs1, hc1⟩, hre1⟩ => ?_) _ ⟨⟨hwf.tabled, rfl⟩, .same (.refl s)⟩) fun _ s1 ⟨⟨hs1, hc1⟩, hre1⟩ => ?_
  · refine wp_read.2 ?_
    split
    · exact ⟨⟨hs1, hc1⟩, hre1⟩
    · refine wp_seq (wp_and (hs1.fileclose _) (fileclose_reworks hs1.wf _)) fun _ s2 ⟨hs2, hre2⟩ => wp_modify.2 ?_
      refine ⟨⟨hs2.1.setFd pid fd none, hs2.2.trans hc1⟩, hre1.trans (hre2.trans (.same ⟨rfl, rfl, rfl, rfl⟩))⟩
  · have hcwd1 : s1.cwd pid = some c := (congrFun hc1 pid).trans hcwd
    have hdrop := wp_modify.1 (wp_bind.1 (dropRef_spec hs1.wf.safe (St.holds_leave hcwd1)))
    refine wp_write.2 (wp_read.2 ?_)
    simp only [hcwd1, Option.getD_some]
    refine wp_seq (wp_bind.1 hdrop) fun _ s2 hs2 => wp_seq hs2 fun _ s3 ⟨_, fr, hfr, hout⟩ => wp_modify.2 ?_
    have hsame : SameDisk s3 (s3.setCwd pid none) := ⟨rfl, rfl, rfl, rfl⟩
    exact hre1.trans ((hout.reworks hfr.isWrite).trans (.same hsame))

/-- **Every call** that makes, names, opens or lets go of inodes. -/
theorem call_reworks (hsb : sb.Ok) (hwf : Wf sb s) {c : Call} (hc : c.Enabled s) (hnames : c.names = true) :
    Wp NoBfree (c.prog sb) (fun _ s' => Reworks sb s s') s := by
  obtain ⟨d, hd⟩ := Option.isSome_iff_exists.1 hc.1
  have hpos := St.holds_start hd
  cases c with
  | «open» pid omode path =>
    cases path with
    | none => exact Reworks.same (.refl s)
    | some path =>
      refine wp_seq (sysOpen_spec hsb hwf.safe hwf.files hpos omode) fun r s' ⟨_, es, hes, hout⟩ => ?_
      cases hes with
      | plain => exact Reworks.same hout.sameDisk
      | create _ _ ro es hes => exact hout.reworks hes.isWrite
  | link pid old new =>
    cases old with
    | none => exact Reworks.same (.refl s)
    | some old =>
      cases new with
      | none => exact Reworks.same (.refl s)
      | some new =>
        exact wp_seq (sysLink_spec hsb hwf.safe hpos) fun r s' ⟨es, hes, hout⟩ => hout.outcome.reworks hes.isWrite
  | unlink pid path =>
    cases path with
    | none => exact Reworks.same (.refl s)
    | some path =>
      exact wp_seq (sysUnlink_spec hsb hwf.safe hpos (.inl (by decide))) fun r s' ⟨es, hes, hout⟩ =>
        hout.outcome.reworks hes.isWrite
  | mkdir pid path =>
    cases path with
    | none => exact Reworks.same ⟨rfl, rfl, rfl, rfl⟩
    | some path =>
      exact wp_seq (createCall_spec hsb hwf.safe hpos) fun r s' ⟨ro, es, hes, _, hout⟩ => hout.outcome.reworks hes.isWrite
  | mknod pid major minor path =>
    cases path with
    | none => exact Reworks.same ⟨rfl, rfl, rfl, rfl⟩
    | some path =>
      exact wp_seq (createCall_spec hsb hwf.safe hpos) fun r s' ⟨ro, es, hes, _, hout⟩ => hout.outcome.reworks hes.isWrite
  | chdir pid path => exact wp_seq (chdir_reworks hwf hd path) fun _ _ hs' => hs'
  | close pid fd => exact wp_seq (close_reworks hwf pid fd) fun _ _ hs' => hs'
  | exit pid => exact exit_reworks hwf hd
  | dup => cases hnames
  | read => cases hnames
  | write => cases hnames
  | exec => cases hnames
  | fork => cases hnames

theorem callStep_reworks (hsb : sb.Ok) (hwf : Wf sb s) {c : Call} (hnames : c.names = true) : Reworks sb s (callStep sb s c) := by
  unfold callStep
  split
  · rename_i hc
    split
    · rename_i r hr
      obtain ⟨_, s', _⟩ := r
      exact wp_ok (Q := fun _ s' => Reworks sb s s') (call_reworks hsb hwf hc hnames) (solo_exec hr)
    · exact .same (.refl s)
  · exact .same (.refl s)

/-- **After any calls** the directories consist of whole entries, and no name is twice in one. -/
theorem run_slots (hsb : sb.Ok) (hwf : Wf sb s) (hdiv : s.Divides) (hd : Distinct (s.tab.slots d)) {cs : List Call}
    (hcs : ∀ c ∈ cs, c.names = true) :
    Wf sb (run (callStep sb) s cs) ∧ (run (callStep sb) s cs).Divides ∧ Distinct ((run (callStep sb) s cs).tab.slots d) := by
  induction cs generalizing s with
  | nil => exact ⟨hwf, hdiv, hd⟩
  | cons c cs ih =>
    obtain ⟨hdiv1, es, hw, hsteps⟩ := callStep_reworks hsb hwf (hcs c List.mem_cons_self) hdiv
    exact ih (callStep_wf hsb c hwf) hdiv1 (hsteps.distinct hw hd) fun c' hc' => hcs c' (List.mem_cons_of_mem c hc')

end Xv6.FileSys
