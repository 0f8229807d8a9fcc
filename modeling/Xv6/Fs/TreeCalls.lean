/-
The directory tree over runs of calls.
-/
import Xv6.Fs.Tree

namespace Xv6.FileSys

open Xv6.Core Xv6.Core.Prog

variable {sb : Superblock} {s0 s s' s'' : St} {x y d dp ip k off : ℕ} {H : ℕ → ℕ} {name : Name} {pid : Fin NPROC} {e : Edit}
  {es fr : List Edit} {t t' : Tab} {de : Dirent} {type : Ty} {G : Prop}

/-! ## Calls -/

/-- a file system whose directories are a tree, with processes that are in directories -/
structure Named (sb : Superblock) (s : St) : Prop where
  divides : s.Divides
  tree : Tree sb s.tab
  cwds : ∀ pid c, s.cwd pid = some c → (s.node c).type = .dir

/-- the calls that make, name, open and let go of inodes -/
def Call.names : Call → Bool
  | .open _ _ _ | .link _ _ _ | .unlink _ _ | .mkdir _ _ | .mknod _ _ _ _ | .chdir _ _ | .close _ _ | .exit _ => true
  | _ => false

/-- what is entered is entered in a directory with links, and no link count passes 32767 -/
def Call.Counted (s : St) : Call → Prop
  | .open pid omode (some path) => creates omode = true → ∀ dp name, s.resolve pid path true = some (dp, name) →
      s.lookup dp name = none → (s.node dp).nlink ≠ 0
  | .mknod pid _ _ (some path) => ∀ dp name, s.resolve pid path true = some (dp, name) →
      s.lookup dp name = none → (s.node dp).nlink ≠ 0
  | .mkdir pid (some path) => ∀ dp name, s.resolve pid path true = some (dp, name) →
      s.lookup dp name = none → (s.node dp).nlink ≠ 0 ∧ (s.node dp).nlink < 32767
  | .link pid (some old) (some new) => ∀ x dp name, (s.resolve pid old false).map Prod.fst = some x →
      s.resolve pid new true = some (dp, name) → s.lookup dp name = none →
        (s.node dp).nlink ≠ 0 ∧ (s.node x).nlink < 32767
  | _ => True

/-- a directory that is unlinked is the parent of no other -/
def Call.Childless (s : St) : Call → Prop
  | .unlink pid (some path) => ∀ dp name ip off, s.resolve pid path true = some (dp, name) →
      s.lookup dp name = some (ip, off) → (s.node ip).type = .dir →
        ∀ d, (s.node d).type = .dir → (s.lookup d DOTDOT).map Prod.fst ≠ some ip
  | _ => True

/-- the tree is in order after the changes -/
theorem Named.after (hn : Named sb s) (hout : Outcome sb s es s') (hw : ∀ e ∈ es, e.isWrite = false)
    (hb : Steps sb es s.tab s'.tab → Becomes sb H G s.tab s'.tab)
    (hcwd : ∀ pid c, s'.cwd pid = some c → (s.node c).type = .dir ∧ (0 < H c ∨ es = [])) :
    Named sb s' ∧ (G → s.tab.graph.Up → s'.tab.graph.Up) := by
  obtain ⟨hsteps, hdiv⟩ := hout.steps hn.divides hw
  have hbec := hb hsteps
  refine ⟨⟨hdiv, hbec.tree, fun pid c hc => ?_⟩, hbec.up⟩
  obtain ⟨hdir, hheld⟩ := hcwd pid c hc
  rcases hheld with hheld | rfl
  · have hsame : (s'.node c).type = (s.node c).type :=
      hbec.types c hheld (show (s.node c).type ≠ .free by rw [hdir]; decide)
    exact hsame.trans hdir
  · rw [hout.sameDisk.node]
    exact hdir

theorem MayFree.eq_free {e : Edit} (h : MayFree H x fr) (he : e ∈ fr) : e = .free x := by
  rcases h with rfl | ⟨rfl, -⟩
  · exact absurd he List.not_mem_nil
  · exact List.mem_singleton.1 he

theorem MayFree.isWrite (h : MayFree H x fr) : ∀ e ∈ fr, e.isWrite = false := by
  intro e he
  rw [h.eq_free he]
  rfl

theorem named_lookup_dotdot (h : Tree sb s.tab) (hd : (s.node d).type = .dir) : (s.lookup d DOTDOT).map Prod.fst = some (s.ent d 1).inum := by
  have hself := h.self d hd
  have hpar := h.parent d hd
  cases hlook : s.lookup d DOTDOT with
  | none =>
    have hnot := (lookup_eq_none hd).1 hlook 1
    have hname : nameEq DOTDOT (s.ent d 1).name = true := hpar.2
    have hlive : (s.ent d 1).inum ≠ 0 := hpar.1
    simp [Dirent.names, hlive, hname] at hnot
  | some q =>
    obtain ⟨ip, off⟩ := q
    obtain ⟨k, -, hval, hname⟩ := lookup_eq_some hd hlook
    unfold Dirent.names at hname
    simp only [Bool.and_eq_true, decide_eq_true_eq] at hname
    obtain ⟨hlive, hname⟩ := hname
    have hk : k = 1 := by
      by_contra hne
      rcases Nat.lt_or_ge k 2 with hlt | hge
      · have hk0 : k = 0 := by omega
        subst hk0
        have hdot : nameEq DOTDOT DOT = true := nameEq_trans hname (nameEq_comm DOT _ ▸ hself.2)
        exact absurd hdot (by decide)
      · have hnot : nameEq DOTDOT (s.ent d k).name = false := (h.proper d k hge hlive).2
        rw [hname] at hnot
        cases hnot
    subst hk
    rw [← hval]
    rfl

variable {ro : Option ℕ} {major minor : ℤ} {path : List UInt8}

/-- calls that make, name and remove write to directories only -/
theorem CreateEdits.isWrite (h : CreateEdits H s pid path type major minor ro es) : ∀ e ∈ es, e.isWrite = false := by
  cases h with
  | none => nofun
  | found => nofun
  | made ip dp name fr hdir hdp hnone hfree hne hfr =>
    intro e he
    simp only [List.mem_append, List.mem_singleton, List.mem_pair] at he
    rcases he with (((rfl | rfl) | he) | rfl) | he
    · rfl
    · rfl
    · unfold dots at he
      split at he
      · simp only [List.mem_cons, List.not_mem_nil, or_false] at he
        rcases he with rfl | rfl | rfl <;> rfl
      · exact absurd he List.not_mem_nil
    · rfl
    · exact hfr.isWrite e he

variable {old new : List UInt8} {r : ℤ}

theorem LinkEdits.isWrite (h : LinkEdits H s pid old new r es) : ∀ e ∈ es, e.isWrite = false := by
  cases h with
  | none => nofun
  | undone x =>
    intro e he
    rcases List.mem_pair.1 he with rfl | rfl <;> rfl
  | done x dp name fr hold hty hfree hnew hfr =>
    intro e he
    rcases List.mem_append.1 he with he | he
    · rcases List.mem_pair.1 he with rfl | rfl <;> rfl
    · exact hfr.isWrite e he

theorem UnlinkEdits.isWrite (h : UnlinkEdits H s pid path r es) : ∀ e ∈ es, e.isWrite = false := by
  cases h with
  | none => nofun
  | done dp ip off name f1 f2 hdir hdot hdots hdp hent hlink hempty h1 h2 =>
    intro e he
    simp only [List.mem_append, List.mem_singleton] at he
    rcases he with (((rfl | he) | he) | rfl) | he
    · rfl
    · split at he
      · rw [List.mem_singleton.1 he]
        rfl
      · exact absurd he List.not_mem_nil
    · exact h1.isWrite e he
    · rfl
    · exact h2.isWrite e he

/-- what `create` does to the tree -/
theorem CreateEdits.becomes (hn : Named sb s) (hes : CreateEdits H s pid path type major minor ro es) (hty : type ≠ .free)
    (hg : ∀ dp name, s.resolve pid path true = some (dp, name) → s.lookup dp name = Option.none →
      (s.node dp).nlink ≠ 0 ∧ (type = .dir → (s.node dp).nlink < 32767)) : ∀ t', Steps sb es s.tab t' → Becomes sb H G s.tab t' := by
  intro t' ht'
  cases hes with
  | none => exact .nil hn.tree ht'
  | found => exact .nil hn.tree ht'
  | made ip dp name fr hdir hdp hnone hfree hne hfr =>
    obtain ⟨hl, hmax⟩ := hg dp name hdir hnone
    by_cases hdirty : type = .dir
    · subst hdirty
      exact hn.tree.createDir hdp hl (hmax rfl) hne hfr ht'
    · exact hn.tree.createLeaf hdirty hty hl hne hfr ht'

theorem LinkEdits.becomes (hn : Named sb s) (hwf : Wf sb s)
    (hes : LinkEdits H s pid old new r es) (hg : Call.Counted s (.link pid (some old) (some new))) :
    ∀ t', Steps sb es s.tab t' → Becomes sb H G s.tab t' := by
  intro t' ht'
  cases hes with
  | none => exact .nil hn.tree ht'
  | undone x =>
    obtain ⟨_, rfl, _, rfl, rfl⟩ := ht'
    have hback : ((s.tab.setNlink x (short (s.tab.nlink x + 1))).setNlink x
        (short ((s.tab.setNlink x (short (s.tab.nlink x + 1))).nlink x + -1))) = s.tab := by
      have hself : (s.tab.setNlink x (short (s.tab.nlink x + 1))).nlink x = short (s.tab.nlink x + 1) :=
        update_self ..
      have hshort : short (s.tab.nlink x) = s.tab.nlink x := hwf.safe.nlink x
      rw [hself, short_back hshort]
      unfold Tab.setNlink
      simp
    rw [hback]
    exact .refl hn.tree
  | done x dp name fr hold hty hfree hnew hfr =>
    have hdp : (s.node dp).type = .dir := by
      obtain ⟨_, rfl, t2, hent, -⟩ := ht'
      exact hent.1
    have hnone : s.lookup dp name = Option.none := by
      obtain ⟨_, rfl, t2, hent, -⟩ := ht'
      exact (lookup_eq_none hdp).2 hent.2.1
    obtain ⟨hl, hmax⟩ := hg x dp name hold hnew hnone
    exact hn.tree.link hty hfree hl hmax hfr ht'

theorem ent_of_dirEmpty (h : s.DirEmpty x) (hk : 2 ≤ k) : (s.ent x k).inum = 0 := by
  by_contra hlive
  obtain ⟨hdir, hlt⟩ := lt_of_ent hlive
  rw [ent_of_lt hdir hlt] at hlive
  refine hlive (h _ ?_)
  rw [offs_eq, ← List.map_drop, List.range_eq_range', List.drop_range']
  refine List.mem_map.2 ⟨k, List.mem_range'_1.2 ?_, rfl⟩
  have hlt := lt_entries.2 hlt
  omega

theorem UnlinkEdits.becomes (hn : Named sb s) (hwf : Wf sb s) (hes : UnlinkEdits H s pid path r es) :
    ∀ t', Steps sb es s.tab t' → Becomes sb H (Call.Childless s (.unlink pid (some path))) s.tab t' := by
  intro t' ht'
  cases hes with
  | none => exact .nil hn.tree ht'
  | done dp ip off name f1 f2 hdir hdot hdots hdp hent hlink hempty h1 h2 =>
    obtain ⟨k, rfl, hval, hname⟩ := lookup_eq_some hdp hent
    obtain ⟨hsome, hk⟩ := hn.tree.named (t := s.tab) hdp hname hdot hdots
    have hsome : s.tab.graph.ent dp k = some ip := hval ▸ hsome
    refine hn.tree.unlink hwf.safe.nlink hsome hk (fun hisdir j hj => ent_of_dirEmpty (hempty hisdir) hj) h1 h2
      (fun hG hisdir d hd heq => ?_) ht'
    refine hG dp name ip _ hdir hent hisdir d hd ?_
    rw [named_lookup_dotdot hn.tree hd]
    exact congrArg some heq

theorem Outcome.same (h : Outcome sb s es s') (hs : SameDisk s' s'') (hl : s''.logged = s'.logged) : Outcome sb s es s'' := by
  obtain ⟨s0, s1, h0, hzero, hes, h1, hlog⟩ := h
  exact ⟨s0, s1, h0, hzero, hes, h1.trans hs, hl.trans hlog⟩

/-- the tree is in order, and parents have kept their links -/
def Ordered (sb : Superblock) (G : Prop) (s s' : St) : Prop := Named sb s' ∧ (G → s.tab.graph.Up → s'.tab.graph.Up)

theorem Ordered.same (hn : Named sb s) (hs : SameDisk s s') (hcwd : s'.cwd = s.cwd) : Ordered sb G s s' := by
  refine ⟨⟨hs.divides hn.divides, ?_, fun pid c hc => ?_⟩, fun _ hup => ?_⟩
  · rw [hs.tab]
    exact hn.tree
  · rw [hs.node]
    rw [hcwd] at hc
    exact hn.cwds pid c hc
  · rw [hs.tab]
    exact hup

theorem Ordered.trans (h : Ordered sb G s s') (h' : Ordered sb G s' s'') : Ordered sb G s s'' :=
  ⟨h'.1, fun hG hup => h'.2 hG (h.2 hG hup)⟩

/-- the call lets the inode `x` go, which current directories other than those that `H` counts are not -/
theorem Named.drop (hn : Named sb s) (hout : Outcome sb s fr s') (hfr : MayFree H x fr)
    (hcwd : ∀ pid c, s'.cwd pid = some c → (s.node c).type = .dir ∧ (c = x → 0 < H x ∨ fr = [])) : Ordered sb G s s' := by
  have hfr' : MayFree (fun y => if y = x then H x else 1) x fr := hfr.imp_right fun hand => ⟨hand.1, (if_pos rfl).trans hand.2⟩
  refine hn.after (H := fun y => if y = x then H x else 1) hout hfr.isWrite (hn.tree.mayFree hfr') fun pid c hc => ?_
  obtain ⟨hdir, hheld⟩ := hcwd pid c hc
  refine ⟨hdir, ?_⟩
  by_cases hcx : c = x
  · rw [if_pos hcx]
    exact hheld hcx
  · rw [if_neg hcx]
    exact .inl one_pos

theorem fileclose_named (hwf : Wf sb s) (hn : Named sb s) (f : Fin NFILE) : Wp NoBfree (fileclose sb f) (fun _ s' => Ordered sb G s s') s := by
  refine wp_mono (fileclose_spec hwf.safe f) fun _ s' ⟨hc, hs'⟩ => ?_
  split at hs'
  · obtain ⟨fr, hfr, hout⟩ := hs'
    refine hn.drop hout hfr fun pid c hcwd => ?_
    rw [hc] at hcwd
    exact ⟨hn.cwds pid c hcwd, fun heq => .inl (heq ▸ St.holds_cwd (s := s.closed f) hcwd)⟩
  · exact Ordered.same hn hs' hc

theorem close_named (hwf : Wf sb s) (hn : Named sb s) (pid : Fin NPROC) (fd : Fin NOFILE) :
    Wp NoBfree (sysClose sb pid fd) (fun _ s' => Ordered sb G s s') s := by
  unfold sysClose
  refine wp_read.2 ?_
  split
  · exact Ordered.same hn (.refl s) rfl
  · refine wp_write.2 ?_
    have hwf1 : Wf sb (s.setFd pid fd none) := (hwf.tabled.setFd pid fd none).wf
    have hord : Ordered sb G s (s.setFd pid fd none) := Ordered.same hn ⟨rfl, rfl, rfl, rfl⟩ rfl
    exact wp_seq (fileclose_named hwf1 hord.1 _) fun _ s1 hs1 => hord.trans hs1

theorem chdir_named (hwf : Wf sb s) (hn : Named sb s) {c : ℕ} (hcwd : s.cwd pid = some c) (path : Option (List UInt8)) :
    Wp NoBfree (sysChdir sb pid path) (fun _ s' => Ordered sb G s s') s := by
  cases path with
  | none => exact Ordered.same hn ⟨rfl, rfl, rfl, rfl⟩ rfl
  | some path =>
    refine wp_mono (sysChdir_spec hwf.safe hcwd) fun r s' ⟨es, hes, hout⟩ => ?_
    cases hes with
    | none hc => exact Ordered.same hn hout.sameDisk hc
    | done x fr hpath hty hc hfr hkept =>
      refine hn.drop hout hfr fun pid' c' hc' => ?_
      rw [hc] at hc'
      by_cases hpid : pid' = pid
      · subst hpid
        rw [update_self] at hc'
        cases hc'
        exact ⟨hty, fun heq => .inr (hkept heq)⟩
      · rw [update_of_ne hpid] at hc'
        have hstays : (s.setCwd pid none).cwd pid' = some c' := (update_of_ne hpid ..).trans hc'
        exact ⟨hn.cwds pid' c' hc', fun heq => .inl (heq ▸ St.holds_cwd hstays)⟩

theorem exit_named (hwf : Wf sb s) (hn : Named sb s) {c : ℕ} (hcwd : s.cwd pid = some c) :
    Wp NoBfree (exit sb pid) (fun _ s' => Ordered sb G s s') s := by
  unfold FileSys.exit
  refine wp_seq (wp_forEach (I := fun _ s' => (Tabled sb 0 [] [] s' ∧ s'.cwd = s.cwd) ∧ Ordered sb G s s')
    (fun fd fds s1 ⟨⟨hs1, hc₁⟩, hord1⟩ => ?_) _ ⟨⟨hwf.tabled, rfl⟩, Ordered.same hn (.refl s) rfl⟩)
    fun _ s1 ⟨⟨hs1, hc₁⟩, hord1⟩ => ?_
  · refine wp_read.2 ?_
    split
    · exact ⟨⟨hs1, hc₁⟩, hord1⟩
    · refine wp_seq (wp_and (hs1.fileclose _) (fileclose_named (G := G) hs1.wf hord1.1 _)) fun _ s2 ⟨hs2, hord2⟩ => wp_modify.2 ?_
      refine ⟨⟨hs2.1.setFd pid fd none, hs2.2.trans hc₁⟩, hord1.trans (hord2.trans ?_)⟩
      exact Ordered.same hord2.1 ⟨rfl, rfl, rfl, rfl⟩ rfl
  · have hcwd1 : s1.cwd pid = some c := (congrFun hc₁ pid).trans hcwd
    have hdrop := wp_modify.1 (wp_bind.1 (dropRef_spec hs1.wf.safe (St.holds_leave hcwd1)))
    refine wp_write.2 (wp_read.2 ?_)
    simp only [hcwd1, Option.getD_some]
    refine wp_seq (wp_bind.1 hdrop) fun _ s2 hs2 => wp_seq hs2 fun _ s3 ⟨hc3, fr, hfr, hout⟩ => wp_modify.2 ?_
    have hout' : Outcome sb s1 fr (s3.setCwd pid none) := hout.same ⟨rfl, rfl, rfl, rfl⟩ rfl
    refine hord1.trans (hord1.1.drop hout' hfr fun pid' c' hc' => ?_)
    have hpid : pid' ≠ pid := fun heq => by
      have hnone : (s3.setCwd pid none).cwd pid = none := update_self ..
      rw [heq, hnone] at hc'
      cases hc'
    have hsame : (s3.setCwd pid none).cwd pid' = s1.cwd pid' := (update_of_ne hpid ..).trans (congrFun hc3 pid')
    rw [hsame] at hc'
    have hstays : (s1.setCwd pid none).cwd pid' = some c' := (update_of_ne hpid ..).trans hc'
    exact ⟨hord1.1.cwds pid' c' hc', fun heq => .inl (heq ▸ St.holds_cwd hstays)⟩

theorem Ends.ordered (hn : Named sb s) (h : Ends sb s s.holds es s') (hw : ∀ e ∈ es, e.isWrite = false)
    (hes : ∀ t', Steps sb es s.tab t' → Becomes sb s.holds G s.tab t') : Ordered sb G s s' := by
  refine hn.after h.outcome hw (hes s'.tab) fun pid c hc => ?_
  rw [h.cwd] at hc
  exact ⟨hn.cwds pid c hc, .inl (St.holds_cwd hc)⟩

/-- **Every call keeps the tree in order** that enters nothing in a directory without links and counts no link too many. -/
theorem call_named (hsb : sb.Ok) (hwf : Wf sb s) (hn : Named sb s) {c : Call} (hc : c.Enabled s) (hnames : c.names = true)
    (hg : c.Counted s) : Wp NoBfree (c.prog sb) (fun _ s' => Ordered sb (c.Childless s) s s') s := by
  obtain ⟨d, hd⟩ := Option.isSome_iff_exists.1 hc.1
  have hpos := St.holds_start hd
  have hsame : ∀ {G : Prop}, Ordered sb G s s := Ordered.same hn (.refl s) rfl
  cases c with
  | «open» pid omode path =>
    cases path with
    | none => exact hsame
    | some path =>
      refine wp_seq (sysOpen_spec hsb hwf.safe hwf.files hpos omode) fun r s' ⟨hcwd, es, hes, hout⟩ => ?_
      cases hes with
      | plain => exact Ordered.same hn hout.sameDisk hcwd
      | create hmode _ ro es hes =>
        have hbec := hes.becomes (G := Call.Childless s (.open pid omode (some path))) hn (by decide) fun dp name hdir hnone =>
          ⟨hg hmode dp name hdir hnone, fun h => by cases h⟩
        refine hn.after hout hes.isWrite (hbec s'.tab) fun pid c hc => ?_
        rw [hcwd] at hc
        exact ⟨hn.cwds pid c hc, .inl (St.holds_cwd hc)⟩
  | link pid old new =>
    cases old with
    | none => exact hsame
    | some old =>
      cases new with
      | none => exact hsame
      | some new =>
        exact wp_seq (sysLink_spec hsb hwf.safe hpos) fun r s' ⟨es, hes, hout⟩ =>
          hout.ordered hn hes.isWrite (hes.becomes hn hwf hg)
  | unlink pid path =>
    cases path with
    | none => exact hsame
    | some path =>
      exact wp_seq (sysUnlink_spec hsb hwf.safe hpos (.inl (by decide))) fun r s' ⟨es, hes, hout⟩ =>
        hout.ordered hn hes.isWrite (hes.becomes hn hwf)
  | mkdir pid path =>
    cases path with
    | none => exact Ordered.same hn ⟨rfl, rfl, rfl, rfl⟩ rfl
    | some path =>
      refine wp_seq (createCall_spec hsb hwf.safe hpos) fun r s' ⟨ro, es, hes, _, hout⟩ => ?_
      exact hout.ordered hn hes.isWrite (hes.becomes hn (by decide) fun dp name hdir hnone =>
        (hg dp name hdir hnone).imp_right fun hmax _ => hmax)
  | mknod pid major minor path =>
    cases path with
    | none => exact Ordered.same hn ⟨rfl, rfl, rfl, rfl⟩ rfl
    | some path =>
      refine wp_seq (createCall_spec hsb hwf.safe hpos) fun r s' ⟨ro, es, hes, _, hout⟩ => ?_
      exact hout.ordered hn hes.isWrite (hes.becomes hn (by decide) fun dp name hdir hnone =>
        ⟨hg dp name hdir hnone, fun h => by cases h⟩)
  | chdir pid path => exact wp_seq (chdir_named hwf hn hd path) fun _ _ hs' => hs'
  | close pid fd => exact wp_seq (close_named hwf hn pid fd) fun _ _ hs' => hs'
  | exit pid => exact exit_named hwf hn hd
  | dup => cases hnames
  | read => cases hnames
  | write => cases hnames
  | exec => cases hnames
  | fork => cases hnames

theorem callStep_named (hsb : sb.Ok) (c : Call) (hnames : c.names = true) (hg : c.Counted s) (hwf : Wf sb s)
    (hn : Named sb s) : Ordered sb (c.Childless s) s (callStep sb s c) := by
  unfold callStep
  split
  · rename_i hc
    split
    · rename_i r hr
      obtain ⟨_, s', _⟩ := r
      exact wp_ok (Q := fun _ s' => Ordered sb (c.Childless s) s s') (call_named hsb hwf hn hc hnames hg) (solo_exec hr)
    · exact Ordered.same hn (.refl s) rfl
  · exact Ordered.same hn (.refl s) rfl

/-! ## Link counts -/

/-- how many entries a directory has -/
def St.entries (s : St) (d : ℕ) : ℕ := (s.node d).size / DESIZE

/-- a live entry for `y` with a name other than "." and ".." -/
def Dirent.Refers (de : Dirent) (y : ℕ) : Prop :=
  de.inum = y ∧ de.inum ≠ 0 ∧ nameEq de.name DOT = false ∧ nameEq de.name DOTDOT = false

instance (de : Dirent) (y : ℕ) : Decidable (de.Refers y) := by
  unfold Dirent.Refers
  infer_instance

/-- the live entries with a name other than "." and ".." in directories that refer to `y` -/
def St.named (s : St) (sb : Superblock) (y : ℕ) : ℕ :=
  ∑ d ∈ Finset.range sb.ninodes, ((Finset.range (s.entries d)).filter fun k => (s.ent d k).Refers y).card

/-- the directories that are named in `y` -/
def St.subdirs (s : St) (sb : Superblock) (y : ℕ) : ℕ :=
  ((Finset.range sb.ninodes).filter fun d => (s.node d).type = .dir ∧ ∃ k < s.entries y, (s.ent y k).Refers d).card

namespace Named

variable (hn : Named sb s)

include hn

theorem lt_entries (h : (s.ent d k).inum ≠ 0) : k < s.entries d := by
  obtain ⟨hdir, hlt⟩ := lt_of_ent h
  obtain ⟨n, hsize⟩ := hn.divides d hdir
  unfold St.entries
  rw [hsize] at hlt ⊢
  unfold DESIZE at *
  omega

theorem refers_iff : (s.ent d k).Refers y ↔ s.tab.graph.ent d k = some y := by
  rw [graph_ent_some]
  constructor
  · rintro ⟨hval, hlive, hdot, hdots⟩
    have hdir : s.tab.type d = .dir := (lt_of_ent hlive).1
    refine ⟨?_, hval, hval ▸ hlive⟩
    by_contra hlt
    have hcases : k = 0 ∨ k = 1 := by omega
    rcases hcases with rfl | rfl
    · rw [nameEq_comm, show nameEq DOT (s.ent d 0).name = true from (hn.tree.self d hdir).2] at hdot
      cases hdot
    · rw [nameEq_comm, show nameEq DOTDOT (s.ent d 1).name = true from (hn.tree.parent d hdir).2] at hdots
      cases hdots
  · rintro ⟨hk, hval, hne⟩
    have hval : (s.ent d k).inum = y := hval
    have hlive : (s.ent d k).inum ≠ 0 := hval ▸ hne
    obtain ⟨hdot, hdots⟩ := hn.tree.proper d k hk hlive
    refine ⟨hval, hlive, ?_, ?_⟩
    · rw [nameEq_comm]
      exact hdot
    · rw [nameEq_comm]
      exact hdots

/-- what is in use has a number -/
theorem lt_ninodes (h : (s.ent d k).inum ≠ 0) : d < sb.ninodes :=
  (hn.tree.bound d (show (s.node d).type ≠ .free by rw [(lt_of_ent h).1]; decide)).2

theorem edges_ncard : (s.tab.graph.edges y).ncard = s.named sb y := by
  have hset : s.tab.graph.edges y = ↑((Finset.range sb.ninodes).biUnion fun d =>
      ((Finset.range (s.entries d)).filter fun k => (s.ent d k).Refers y).image fun k => (d, k)) := by
    ext ⟨d, k⟩
    rw [NameGraph.mem_edges, ← hn.refers_iff]
    simp only [Finset.coe_biUnion, Set.mem_iUnion, Finset.coe_image, Finset.coe_filter, Finset.mem_range, Set.mem_image,
      Finset.coe_range, Set.mem_Iio]
    constructor
    · intro href
      exact ⟨d, hn.lt_ninodes href.2.1, k, ⟨hn.lt_entries href.2.1, href⟩, rfl⟩
    · rintro ⟨d', -, k', ⟨-, href⟩, heq⟩
      cases heq
      exact href
  rw [hset, Set.ncard_coe_finset, Finset.card_biUnion]
  · refine Finset.sum_congr rfl fun d _ => ?_
    exact Finset.card_image_of_injective _ fun k k' heq => (Prod.ext_iff.1 heq).2
  · intro d _ d' _ hne
    rw [Function.onFun, Finset.disjoint_left]
    intro p hp hp'
    obtain ⟨k, -, rfl⟩ := Finset.mem_image.1 hp
    obtain ⟨k', -, heq⟩ := Finset.mem_image.1 hp'
    exact hne (Prod.ext_iff.1 heq).1.symm

theorem subs_ncard : (s.tab.graph.subs ROOTINO y).ncard = s.subdirs sb y := by
  have hset : s.tab.graph.subs ROOTINO y = ↑((Finset.range sb.ninodes).filter fun d =>
      (s.node d).type = .dir ∧ ∃ k < s.entries y, (s.ent y k).Refers d) := by
    ext d
    rw [Finset.coe_filter]
    constructor
    · rintro ⟨hdir, hne, hl, rfl⟩
      obtain ⟨k, hk⟩ := hn.tree.sound.entered hdir hne hl
      have href := hn.refers_iff.2 hk
      have hty : (s.node d).type = .dir := kind_eq_dir.1 hdir
      refine ⟨Finset.mem_range.2 (hn.tree.bound d (show (s.node d).type ≠ .free by rw [hty]; decide)).2, hty, k, ?_, href⟩
      exact hn.lt_entries href.2.1
    · rintro ⟨-, hdir, k, -, href⟩
      have hent := hn.refers_iff.1 href
      have hkind : s.tab.graph.kind d = .dir := kind_eq_dir.2 hdir
      obtain ⟨hup, hne⟩ := hn.tree.sound.parent y k d hent hkind
      exact ⟨hkind, hne, (hn.tree.sound.links_pos hent).ne', hup⟩
  rw [hset, Set.ncard_coe_finset]
  rfl

theorem nlink_eq (hy : y ≠ ROOTINO) (hty : (s.node y).type ≠ .free) :
    (s.node y).nlink = s.named sb y + if (s.node y).type = .dir then (s.subdirs sb y : ℤ) else 0 := by
  have hcount := hn.tree.sound.count y hy fun hfree => hty (kind_eq_free.1 hfree)
  rw [hn.edges_ncard, hn.subs_ncard] at hcount
  have hiff : s.tab.graph.kind y = .dir ↔ (s.node y).type = .dir := kind_eq_dir
  simp only [hiff] at hcount
  exact hcount

/-- what has links is named -/
theorem entered (hty : (s.node y).type ≠ .free) (hl : 0 < (s.node y).nlink) :
    ∃ d k, (s.node d).type = .dir ∧ k < s.entries d ∧ (s.ent d k).inum = y := by
  have hpos := (hn.tree.bound y hty).1
  have hent : ∀ {d k}, (s.ent d k).inum = y →
      ∃ d k, (s.node d).type = .dir ∧ k < s.entries d ∧ (s.ent d k).inum = y := by
    intro d k hval
    have hlive : (s.ent d k).inum ≠ 0 := by omega
    exact ⟨d, k, (lt_of_ent hlive).1, hn.lt_entries hlive, hval⟩
  by_cases hroot : y = ROOTINO
  · -- the root directory names itself
    subst hroot
    exact hent (hn.tree.self ROOTINO (kind_eq_dir.1 hn.tree.sound.root_dir)).1
  · have hne : (s.tab.graph.edges y).Nonempty := by
      by_cases hdir : (s.node y).type = .dir
      · exact hn.tree.sound.linked y (kind_eq_dir.2 hdir) hroot hl.ne'
      · have hcount := hn.nlink_eq hroot hty
        rw [if_neg hdir, add_zero, ← hn.edges_ncard] at hcount
        refine (Set.ncard_pos (hn.tree.sound.edges_finite y)).1 ?_
        omega
    obtain ⟨⟨d, k⟩, hdk⟩ := hne
    exact hent (graph_ent_some.1 hdk).2.1

theorem namedLinked : s.NamedLinked := by
  intro dp ip off name hdp hlook hdot hdots
  obtain ⟨k, -, hval, hname⟩ := lookup_eq_some hdp hlook
  obtain ⟨hsome, -⟩ := hn.tree.named (t := s.tab) hdp hname hdot hdots
  have hpos := hn.tree.sound.links_pos hsome
  have hval : (s.tab.ent dp k).inum = ip := hval
  rw [hval] at hpos
  exact hpos

end Named

/-- the calls of a run that are about names, and count links -/
def Call.Plain (s : St) (c : Call) : Prop := c.names = true ∧ c.Counted s

theorem run_named (hsb : sb.Ok) (hwf : Wf sb s) (hn : Named sb s) {cs : List Call}
    (hg : Guarded (callStep sb) (fun s c => c.Plain s) s cs) :
    Wf sb (run (callStep sb) s cs) ∧ Named sb (run (callStep sb) s cs) :=
  guarded_inv (I := fun s => Wf sb s ∧ Named sb s) (fun _ c hc hs =>
    ⟨callStep_wf hsb c hs.1, (callStep_named hsb c hc.1 hc.2 hs.1 hs.2).1⟩) s ⟨hwf, hn⟩ cs hg

/-- every panic but "unlink: nlink < 1" -/
def NoUnlinkNlink (e : Panic) : Prop := e ≠ .unlinkNlink

instance : Allows NoUnlinkNlink := ⟨fun _ he => he.2⟩

/-- **Link counts.** After any calls that enter nothing in a directory without links and count no link past 32767, the link
count of every inode but the root is the number of names it has, and of directories in it that have a name there. So an inode
with links has an entry, and `unlink` finds no entry for an inode without. -/
theorem link_counts (hsb : sb.Ok) (hwf : Wf sb s) (hn : Named sb s) {cs : List Call}
    (hg : Guarded (callStep sb) (fun s c => c.Plain s) s cs) (hrun : run (callStep sb) s cs = s') :
    (∀ y, y ≠ ROOTINO → (s'.node y).type ≠ .free →
      (s'.node y).nlink = s'.named sb y + if (s'.node y).type = .dir then (s'.subdirs sb y : ℤ) else 0) ∧
      (∀ y, (s'.node y).type ≠ .free → 0 < (s'.node y).nlink →
        ∃ d k, (s'.node d).type = .dir ∧ k < s'.entries d ∧ (s'.ent d k).inum = y) ∧
      ∀ pid path, (s'.cwd pid).isSome → (sysUnlink sb pid path).solo s' [] ≠ .error (.panic .unlinkNlink) := by
  obtain ⟨hwf', hn'⟩ := run_named hsb hwf hn hg
  rw [hrun] at hwf' hn'
  refine ⟨fun y hy hty => hn'.nlink_eq hy hty, fun y hty hl => hn'.entered hty hl, fun pid path hcwd hpanic => ?_⟩
  obtain ⟨c, hc⟩ := Option.isSome_iff_exists.1 hcwd
  have hpos := St.holds_start hc
  cases path with
  | none => cases hpanic
  | some path =>
    exact wp_error (sysUnlink_spec (E := NoUnlinkNlink) hsb hwf'.safe hpos (.inr hn'.namedLinked)) (solo_panic hpanic) rfl

/-! ## Entries that dangle -/

theorem ent_typed (hn : Named sb s) (hup : s.tab.graph.Up) (hlive : (s.ent d k).inum ≠ 0) : (s.node (s.ent d k).inum).type ≠ .free := by
  have hdir : (s.node d).type = .dir := (lt_of_ent hlive).1
  have hkd : s.tab.graph.kind d = .dir := kind_eq_dir.2 hdir
  have hcases : k = 0 ∨ k = 1 ∨ 2 ≤ k := by omega
  rcases hcases with rfl | rfl | hk
  · have hself : (s.ent d 0).inum = d := (hn.tree.self d hdir).1
    rw [hself, hdir]
    decide
  · have hpar : (s.node (s.ent d 1).inum).type = .dir := kind_eq_dir.1 (hup d hkd).1
    rw [hpar]
    decide
  · intro hfree
    refine hn.tree.sound.closed d k _ (graph_ent_some.2 ⟨hk, rfl, hlive⟩) (kind_eq_free.2 hfree)

theorem Named.closed (hn : Named sb s) (hup : s.tab.graph.Up) : s.Closed := by
  intro x hty off hoff hlive
  obtain ⟨k, rfl, hk⟩ := mem_offs_iff.1 hoff
  rw [← ent_of_lt hty hk] at hlive ⊢
  exact ent_typed hn hup hlive

theorem Named.whole (hn : Named sb s) : s.Whole := hn.divides.whole

/-- a call that keeps parents, too -/
def Call.Keeping (s : St) (c : Call) : Prop := c.Plain s ∧ c.Childless s

/-- every panic but "ilock: no type" -/
def NoIlockNoType (e : Panic) : Prop := e ≠ .ilockNoType

/-- **No entry dangles.** After any calls that besides unlink no directory which is the parent of another, every live entry of
every directory, "." and ".." among them, names an inode that is allocated; and no path leads to one that is not. -/
theorem entries_closed (hsb : sb.Ok) (hwf : Wf sb s) (hn : Named sb s) (hup : s.tab.graph.Up) {cs : List Call}
    (hg : Guarded (callStep sb) (fun s c => c.Keeping s) s cs) (hrun : run (callStep sb) s cs = s') :
    (∀ d k, (s'.node d).type = .dir → k < s'.entries d → (s'.ent d k).inum ≠ 0 →
      (s'.node (s'.ent d k).inum).type ≠ .free) ∧
      ∀ pid path parent, (s'.cwd pid).isSome → (namex sb pid path parent).solo s' [] ≠ .error (.panic .ilockNoType) := by
  obtain ⟨⟨hwf', hn'⟩, hup'⟩ : (Wf sb s' ∧ Named sb s') ∧ s'.tab.graph.Up := by
    rw [← hrun]
    refine guarded_inv (I := fun s => (Wf sb s ∧ Named sb s) ∧ s.tab.graph.Up) (fun u c hc hs => ?_) s ⟨⟨hwf, hn⟩, hup⟩ cs hg
    have hord := callStep_named hsb c hc.1.1 hc.1.2 hs.1.1 hs.1.2
    exact ⟨⟨callStep_wf hsb c hs.1.1, hord.1⟩, hord.2 hc.2 hs.2⟩
  refine ⟨fun d k _ _ hlive => ent_typed hn' hup' hlive, fun pid path parent hcwd hpanic => ?_⟩
  obtain ⟨c, hc⟩ := Option.isSome_iff_exists.1 hcwd
  have hpos := St.holds_start hc
  have hstart : (s'.node (s'.start pid path)).type ≠ .free := by
    have hroot : (s'.node ROOTINO).type = .dir := kind_eq_dir.1 hn'.tree.sound.root_dir
    unfold St.start
    split
    · rw [hroot]
      decide
    · rw [hc, Option.getD_some, hn'.cwds pid c hc]
      decide
  have hlook : Lookable NoIlockNoType s' := ⟨.inr (hn'.closed hup'), .inl (by unfold NoIlockNoType; decide),
    by unfold NoIlockNoType; decide⟩
  exact wp_error (namex_spec hlook (.inr hstart) kept_nil kept_nil hpos hwf'.safe) (solo_panic hpanic) rfl

/-! ## A file system with a root directory -/

def rootSb : Superblock := ⟨44, 10, 8, 30, 2, 32, 33⟩

def rootDinode : Dinode :=
  { Dinode.zero with type := .dir, nlink := 1, size := 32, addrs := fun i => if i = 0 then 34 else 0 }

/-- the root directory has the entries "." and "..", and process 0 is in it -/
def rootFs : St where
  dinode x := if x = 1 then rootDinode else Dinode.zero
  used b := b < 35
  data b o := if b = 34 then (Dirent.bytes ⟨1, DOT⟩ ++ Dirent.bytes ⟨1, DOTDOT⟩).getD o 0 else 0
  icache x := if x = 1 then ⟨1, true, rootDinode⟩ else ⟨0, false, Dinode.zero⟩
  live := 1
  logged := ∅
  outstanding := 0
  cwd pid := if pid = 0 then some 1 else none
  file _ := ⟨.none, 0, false, false, 0, 0⟩
  ofile _ _ := none
  console := []

theorem rootFs_node : rootFs.node y = if y = 1 then rootDinode else Dinode.zero := by
  unfold St.node St.core rootFs
  by_cases hy : y = 1
  · simp [hy]
  · simp [hy]

theorem rootFs_slot (p : ℕ × ℕ) : rootFs.slot p = if p = (1, 0) then 34 else 0 := by
  obtain ⟨y, i⟩ := p
  unfold St.slot
  rw [rootFs_node]
  by_cases hy : y = 1
  · subst hy
    by_cases hi : i = 0
    · subst hi
      rfl
    · have hne : ¬ ((1, i) : ℕ × ℕ) = (1, 0) := fun heq => hi (Prod.ext_iff.1 heq).2
      rw [if_pos rfl, if_neg hne]
      unfold Dinode.slot rootDinode
      simp [hi]
      intro _ _ hnd
      exact absurd hnd (by decide)
  · have hne : ¬ (y, i) = (1, 0) := fun heq => hy (Prod.ext_iff.1 heq).1
    rw [if_neg hy, if_neg hne]
    exact Dinode.slot_zero fun _ => rfl

theorem rootFs_holds (y : ℕ) : rootFs.holds y = if y = 1 then 1 else 0 := by
  have hcwd : ∑ pid, cwdHolds (rootFs.cwd pid) y = if y = 1 then 1 else 0 := by
    rw [Finset.sum_eq_single 0]
    · simp [cwdHolds, rootFs, eq_comm]
    · intro pid _ hpid
      simp [cwdHolds, rootFs, hpid]
    · intro hnot
      exact absurd (Finset.mem_univ _) hnot
  unfold St.holds
  rw [hcwd]
  simp [rootFs, File.holds]

theorem rootFs_wf : Wf rootSb rootFs := by
  have hone : ∀ y, (rootFs.node y).type ≠ .free → y = 1 := fun y hty => by
    by_contra hne
    rw [rootFs_node, if_neg hne] at hty
    exact hty rfl
  have hloaded : ∀ y, rootFs.Loaded y → y = 1 := fun y hl => by
    by_contra hne
    simp [St.Loaded, rootFs, hne] at hl
  refine ⟨⟨⟨⟨by decide, fun p hp => ?_, fun p q hp hpq => ?_, fun b hb => ?_, fun b hb hb' => ?_⟩, fun y _ hty => ?_,
    fun y _ hty => ?_, fun y hl => ?_, fun y _ hl => ?_⟩, .refl _, fun y => ?_, by simp,
    fun y hty hzero => ?_, fun y => ?_⟩, fun f _ => rfl⟩
  · rw [rootFs_slot] at hp ⊢
    split at hp
    · rename_i heq
      rw [if_pos heq]
      decide
    · exact absurd rfl hp
  · rw [rootFs_slot] at hp hpq
    split at hp
    · rename_i heq
      rw [if_pos heq, rootFs_slot] at hpq
      split at hpq
      · rename_i heq'
        rw [heq, heq']
      · cases hpq
    · exact absurd rfl hp
  · have hb : b < 34 := hb
    exact decide_eq_true (show b < 35 by omega)
  · have hb : 34 ≤ b := hb
    constructor
    · intro hused
      have hused : b < 35 := of_decide_eq_true hused
      obtain rfl : b = 34 := by omega
      exact ⟨(1, 0), rfl⟩
    · rintro ⟨p, hp⟩
      rw [rootFs_slot] at hp
      refine decide_eq_true (show b < 35 from ?_)
      split at hp <;> omega
  · rw [rootFs_node, hone y hty]
    decide
  · rw [rootFs_node, hone y hty]
    have hslot : ∀ i, rootDinode.slot rootFs.data i = if i = 0 then 34 else 0 := fun i => by
      have hval := rootFs_slot (1, i)
      unfold St.slot at hval
      rw [rootFs_node] at hval
      simpa using hval
    intro i hi
    rw [if_pos rfl, hslot]
    have hblocks : blocks rootDinode.size = 1 := rfl
    rw [hblocks]
    unfold Needed NDIRECT
    split_ifs <;> omega
  · rw [hloaded y hl]
    decide
  · rw [hloaded y hl]
    rfl
  · rw [rootFs_holds]
    simp only [rootFs]
    split <;> rfl
  · rw [rootFs_node, hone y hty] at hzero
    cases hzero
  · rw [rootFs_node]
    split <;> rfl

theorem rootFs_dir (h : (rootFs.node d).type = .dir) : d = 1 := by
  by_contra hne
  rw [rootFs_node, if_neg hne] at h
  cases h

/-- no names -/
theorem rootFs_none (d : ℕ) (hk : 2 ≤ k) : rootFs.ent d k = ⟨0, []⟩ := by
  refine ent_of_not fun hand => ?_
  have hd := rootFs_dir hand.1
  subst hd
  have hlt : 16 * k < 32 := hand.2
  omega

theorem rootFs_sound : rootFs.tab.graph.Sound ROOTINO := by
  have hnone : ∀ d k, rootFs.tab.graph.ent d k = none := fun d k => by
    by_contra hsome
    obtain ⟨y, hy⟩ := Option.ne_none_iff_exists'.1 hsome
    obtain ⟨hk, hval, hne⟩ := graph_ent_some.1 hy
    have hent : rootFs.tab.ent d k = ⟨0, []⟩ := rootFs_none d hk
    rw [hent] at hval
    exact hne hval.symm
  have hent : ∀ {d k y}, rootFs.tab.graph.ent d k ≠ some y := fun {d k y} => by
    rw [hnone]
    exact Option.some_ne_none y |>.symm
  have hdir : ∀ d, rootFs.tab.graph.kind d = .dir → d = ROOTINO := fun d hd => rootFs_dir (kind_eq_dir.1 hd)
  have hedges : ∀ y, rootFs.tab.graph.edges y = ∅ := fun y => Set.eq_empty_of_forall_notMem fun p hp => hent hp
  have hsubs : rootFs.tab.graph.subs ROOTINO ROOTINO = ∅ :=
    Set.eq_empty_of_forall_notMem fun d hd => hd.2.1 (hdir d hd.1)
  refine ⟨rfl, fun d k y he => absurd he hent, fun d k y he => absurd he hent, ?_, fun d k y he => absurd he hent,
    fun y _ => ?_, fun d hd hne => absurd (hdir d hd) hne, fun d _ _ k => hnone d k, fun y hy hty => ?_, ?_⟩
  · have hempty : {p : ℕ × ℕ | (rootFs.tab.graph.ent p.1 p.2).isSome} = ∅ :=
      Set.eq_empty_of_forall_notMem fun p hp => by
        have hp : (rootFs.tab.graph.ent p.1 p.2).isSome := hp
        rw [hnone] at hp
        cases hp
    rw [hempty]
    exact Set.finite_empty
  · rw [hedges]
    exact Set.subsingleton_empty
  · refine absurd (kind_eq_free.2 ?_) hty
    have hnode : (rootFs.node y).type = .free := by
      rw [rootFs_node, if_neg (show ¬ y = 1 from hy)]
      rfl
    exact hnode
  · rw [hsubs, Set.ncard_empty]
    rfl

theorem rootFs_named : Named rootSb rootFs := by
  refine ⟨fun d hd => ?_, ⟨⟨by decide, fun y hy => ?_, fun d hd k => ?_, fun d hd => ?_, fun d hd => ?_,
    fun d k hk hlive => ?_⟩, rootFs_sound⟩, fun pid c hc => ?_⟩
  · rw [rootFs_dir hd]
    exact ⟨2, rfl⟩
  · have hy1 : y = 1 := by
      by_contra hne
      have hfree : (rootFs.node y).type = .free := by
        rw [rootFs_node, if_neg hne]
        rfl
      exact hy hfree
    rw [hy1]
    decide
  · exact ent_of_not fun hand => hd hand.1
  · have hd1 : d = 1 := rootFs_dir hd
    subst hd1
    decide
  · have hd1 : d = 1 := rootFs_dir hd
    subst hd1
    decide
  · have hent : rootFs.tab.ent d k = ⟨0, []⟩ := rootFs_none d hk
    rw [hent] at hlive
    exact absurd rfl hlive
  · have hc1 : c = 1 := by
      have hval : (if pid = 0 then some 1 else none) = some c := hc
      split at hval
      · exact (Option.some.inj hval).symm
      · cases hval
    rw [hc1]
    rfl

theorem rootFs_up : rootFs.tab.graph.Up := by
  intro d hd
  have hd1 : d = 1 := rootFs_dir (kind_eq_dir.1 hd)
  subst hd1
  have hself : rootFs.tab.graph.up 1 = 1 := by decide
  rw [hself]
  exact ⟨rfl, by decide⟩

/-- a file is made in a directory that has been unlinked, and the directory goes: the file has a link and no name -/
def orphaned : List Call :=
  [.mkdir 0 (some [97]), .chdir 0 (some [97]), .unlink 0 (some [47, 97]), .open 0 512 (some [120]), .chdir 0 (some [47])]

theorem orphaned_counts : (Wf rootSb rootFs ∧ Named rootSb rootFs ∧ ∀ c ∈ orphaned, c.names = true) ∧
    (3 ≠ ROOTINO ∧ ((run (callStep rootSb) rootFs orphaned).node 3).type = .file) ∧
    ((run (callStep rootSb) rootFs orphaned).node 3).nlink = 1 ∧
    (run (callStep rootSb) rootFs orphaned).named rootSb 3 = 0 := by
  refine ⟨⟨rootFs_wf, rootFs_named, by decide⟩, ⟨by decide, ?_⟩, ?_, ?_⟩
  all_goals decide +kernel

theorem rootFs_plain : (Call.mkdir 0 (some [97])).Plain rootFs := by
  refine ⟨rfl, fun dp name hdir _ => ?_⟩
  have hval : rootFs.resolve 0 [97] true = some (1, [97]) := by decide
  rw [hval] at hdir
  cases hdir
  decide

/-- a new directory has one name and nothing in it -/
theorem link_counts_mkdir : ((run (callStep rootSb) rootFs [.mkdir 0 (some [97])]).node 2).nlink =
    (run (callStep rootSb) rootFs [.mkdir 0 (some [97])]).named rootSb 2 +
      (run (callStep rootSb) rootFs [.mkdir 0 (some [97])]).subdirs rootSb 2 := by
  have hg : Guarded (callStep rootSb) (fun s c => c.Plain s) rootFs [.mkdir 0 (some [97])] := ⟨rootFs_plain, trivial⟩
  have hdir : ((run (callStep rootSb) rootFs [.mkdir 0 (some [97])]).node 2).type = .dir := by decide +kernel
  have hcount := (link_counts ⟨by decide, by decide⟩ rootFs_wf rootFs_named hg rfl).1 2 (by decide) (by rw [hdir]; decide)
  rw [if_pos hdir] at hcount
  exact hcount

/-- a directory is unlinked while a process is in it, and then its parent: ".." is left -/
def dangling : List Call :=
  [.mkdir 0 (some [97]), .mkdir 0 (some [97, 47, 98]), .chdir 0 (some [97, 47, 98]), .unlink 0 (some [47, 97, 47, 98]),
    .unlink 0 (some [47, 97])]

theorem dangling_dotdot : (Wf rootSb rootFs ∧ Named rootSb rootFs ∧ rootFs.tab.graph.Up ∧ ∀ c ∈ dangling, c.names = true) ∧
    ((run (callStep rootSb) rootFs dangling).node 3).type = .dir ∧
    1 < (run (callStep rootSb) rootFs dangling).entries 3 ∧
    ((run (callStep rootSb) rootFs dangling).ent 3 1).inum = 2 ∧
    ((run (callStep rootSb) rootFs dangling).node 2).type = .free := by
  refine ⟨⟨rootFs_wf, rootFs_named, rootFs_up, by decide⟩, ?_, ?_, ?_, ?_⟩
  all_goals decide +kernel

/-- the ".." of a new directory -/
theorem entries_closed_mkdir : ((run (callStep rootSb) rootFs [.mkdir 0 (some [97])]).ent 2 1).inum = 1 ∧
    ((run (callStep rootSb) rootFs [.mkdir 0 (some [97])]).node 1).type ≠ .free := by
  have hg : Guarded (callStep rootSb) (fun s c => c.Keeping s) rootFs [.mkdir 0 (some [97])] :=
    ⟨⟨rootFs_plain, trivial⟩, trivial⟩
  have hval : ((run (callStep rootSb) rootFs [.mkdir 0 (some [97])]).ent 2 1).inum = 1 := by decide +kernel
  have hclosed := (entries_closed ⟨by decide, by decide⟩ rootFs_wf rootFs_named rootFs_up hg rfl).1 2 1 (by decide +kernel)
    (by decide +kernel) (by rw [hval]; decide)
  rw [hval] at hclosed
  exact ⟨hval, hclosed⟩

end Xv6.FileSys
