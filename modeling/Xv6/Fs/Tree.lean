/-
The directory tree. The table of directories (`Xv6.Fs.Entries`) is a graph of names (`Xv6.Core.NameGraph`): the entries from
the third on are the names, the second is "..", and the link counts count both.
-/
import Xv6.Core.NameGraph
import Xv6.Fs.Entries

namespace Xv6.FileSys

open Xv6.Core Xv6.Core.Prog

/-! ## The table as a graph -/

def Ty.kind : Ty → Kind
  | .free => .free
  | .dir => .dir
  | .file | .dev => .leaf

/-- entries 0 and 1 are "." and ".." -/
def Tab.graph (t : Tab) : NameGraph ℕ ℕ where
  kind y := (t.type y).kind
  ent d k := if 2 ≤ k ∧ (t.ent d k).inum ≠ 0 then some (t.ent d k).inum else none
  up d := (t.ent d 1).inum
  links := t.nlink

/-- the directories are as `create` makes them -/
structure Shape (sb : Superblock) (t : Tab) : Prop where
  fits : sb.ninodes ≤ 2 ^ 16
  bound : ∀ y, t.type y ≠ .free → 0 < y ∧ y < sb.ninodes
  none : ∀ d, t.type d ≠ .dir → ∀ k, t.ent d k = ⟨0, []⟩
  self : ∀ d, t.type d = .dir → (t.ent d 0).inum = d ∧ nameEq DOT (t.ent d 0).name = true
  parent : ∀ d, t.type d = .dir → (t.ent d 1).inum ≠ 0 ∧ nameEq DOTDOT (t.ent d 1).name = true
  proper : ∀ d k, 2 ≤ k → (t.ent d k).inum ≠ 0 →
    nameEq DOT (t.ent d k).name = false ∧ nameEq DOTDOT (t.ent d k).name = false

/-- and links are counted -/
structure Tree (sb : Superblock) (t : Tab) : Prop extends Shape sb t where
  sound : t.graph.Sound ROOTINO

variable {sb : Superblock} {s0 s s' s'' : St} {x y d dp ip k off : ℕ} {H : ℕ → ℕ} {name : Name} {pid : Fin NPROC} {e : Edit}
  {es fr : List Edit} {t t' : Tab} {de : Dirent} {type : Ty}

theorem kind_eq_dir {c : Ty} : c.kind = .dir ↔ c = .dir := by
  cases c <;> decide

theorem kind_eq_free {c : Ty} : c.kind = .free ↔ c = .free := by
  cases c <;> decide

theorem Tab.ent_setEnt (t : Tab) (d k : ℕ) (de : Dirent) (e j : ℕ) : (t.setEnt d k de).ent e j = if e = d ∧ j = k then de else t.ent e j := by
  unfold Tab.setEnt
  by_cases he : e = d
  · subst he
    simp [update_apply]
  · simp [he]

theorem graph_ent_some : t.graph.ent d k = some y ↔ 2 ≤ k ∧ (t.ent d k).inum = y ∧ y ≠ 0 := by
  unfold Tab.graph
  simp only
  split
  · rename_i hlive
    rw [Option.some_inj]
    exact ⟨fun heq => ⟨hlive.1, heq, heq ▸ hlive.2⟩, fun hand => hand.2.1⟩
  · rename_i hdead
    refine iff_of_false (by simp) fun hand => hdead ⟨hand.1, ?_⟩
    rw [hand.2.1]
    exact hand.2.2

theorem graph_ent_none (h : (t.ent d k).inum = 0) : t.graph.ent d k = none := if_neg fun hlive => hlive.2 h

theorem graph_setNlink (n : ℤ) : (t.setNlink x n).graph = t.graph.setLinks x n := rfl

theorem graph_setType : (t.setType x type).graph = t.graph.setKind x type.kind := by
  refine NameGraph.ext ?_ rfl rfl rfl
  funext y
  unfold Tab.graph Tab.setType NameGraph.setKind
  simp only [update_apply]
  split <;> rfl

/-- a name -/
theorem graph_setEnt (hk : 2 ≤ k) : (t.setEnt d k de).graph = t.graph.setEnt d k (if de.inum ≠ 0 then some de.inum else none) := by
  refine NameGraph.ext rfl ?_ ?_ rfl
  · funext e j
    rw [NameGraph.ent_setEnt]
    unfold Tab.graph
    simp only [Tab.ent_setEnt]
    by_cases hej : e = d ∧ j = k
    · simp [hej, hk]
    · simp [hej]
  · funext e
    unfold Tab.graph
    simp only [Tab.ent_setEnt]
    rw [if_neg fun hand => by omega]
    rfl

/-- "." is no name -/
theorem graph_setEnt_zero : (t.setEnt d 0 de).graph = t.graph := by
  refine NameGraph.ext rfl ?_ ?_ rfl
  · funext e j
    unfold Tab.graph
    simp only [Tab.ent_setEnt]
    by_cases hj : j = 0
    · simp [hj]
    · simp [hj]
  · funext e
    unfold Tab.graph
    simp only [Tab.ent_setEnt]
    rw [if_neg fun hand => by omega]

/-- ".." is the parent -/
theorem graph_setEnt_one : (t.setEnt d 1 de).graph = t.graph.setUp d de.inum := by
  refine NameGraph.ext rfl ?_ ?_ rfl
  · funext e j
    unfold Tab.graph
    simp only [Tab.ent_setEnt]
    by_cases hj : j = 1
    all_goals simp [hj, NameGraph.setUp]
  · funext e
    unfold Tab.graph NameGraph.setUp
    simp only [Tab.ent_setEnt, update_apply]
    by_cases he : e = d
    · simp [he]
    · simp [he]

/-! ## One new entry -/

theorem nameEq_comm (a b : Name) : nameEq a b = nameEq b a := by
  unfold nameEq
  exact BEq.comm

theorem nameEq_strncpy (a b : Name) : nameEq a (strncpy b) = nameEq a b := by
  unfold nameEq
  rw [cstr_strncpy]

theorem nameEq_trans {a b c : Name} (h : nameEq a b = true) (h' : nameEq b c = true) : nameEq a c = true := by
  unfold nameEq at *
  rw [beq_iff_eq] at *
  exact h.trans h'

/-- a name that a directory does not have is another than that of an entry in use -/
theorem nameEq_of_names (hlive : de.inum ≠ 0) (h : de.names name = false) {a : Name} (ha : nameEq a de.name = true) :
    nameEq a name = false := by
  by_contra htrue
  rw [Bool.not_eq_false] at htrue
  unfold Dirent.names at h
  have hname : nameEq name de.name = true := nameEq_trans (nameEq_comm a name ▸ htrue) ha
  simp [hlive, hname] at h

theorem Shape.mod (h : Shape sb t) (hx : t.type x ≠ .free) : x % 2 ^ 16 = x := by
  have hbound := h.bound x hx
  have hfits := h.fits
  exact Nat.mod_eq_of_lt (by omega)

/-- **A new entry** is a name. -/
theorem Shape.enter (h : Shape sb t) (hx : t.type x ≠ .free) (hact : (Edit.enter dp name x).Acts sb t t') :
    ∃ k, 2 ≤ k ∧ t.graph.ent dp k = .none ∧ Shape sb t' ∧ t'.graph = t.graph.setEnt dp k (some x) ∧ t'.type = t.type ∧ t'.nlink = t.nlink := by
  obtain ⟨hdir, hnew, k, hzero, hall, ht'⟩ := hact
  rw [h.mod hx] at ht'
  subst ht'
  have hxpos := (h.bound x hx).1
  obtain ⟨hself, hdot⟩ := h.self dp hdir
  obtain ⟨hpar, hdots⟩ := h.parent dp hdir
  have hdpos := (h.bound dp (by rw [hdir]; decide)).1
  have hk : 2 ≤ k := by
    by_contra hlt
    have hcases : k = 0 ∨ k = 1 := by omega
    rcases hcases with rfl | rfl
    · rw [hself] at hzero
      omega
    · exact hpar hzero
  have hgraph : (t.setEnt dp k ⟨x, strncpy name⟩).graph = t.graph.setEnt dp k (some x) := by
    rw [graph_setEnt hk]
    have hne : x ≠ 0 := by omega
    simp [hne]
  refine ⟨k, hk, graph_ent_none hzero, ⟨h.fits, h.bound, fun d hd j => ?_, fun d hd => ?_, fun d hd => ?_,
    fun d j hj hlive => ?_⟩, hgraph, rfl, rfl⟩
  · rw [Tab.ent_setEnt, if_neg fun hand : d = dp ∧ j = k => hd (hand.1 ▸ hdir)]
    exact h.none d hd j
  · rw [Tab.ent_setEnt, if_neg fun hand => by omega]
    exact h.self d hd
  · rw [Tab.ent_setEnt, if_neg fun hand => by omega]
    exact h.parent d hd
  · rw [Tab.ent_setEnt] at hlive ⊢
    split
    · -- "." and ".." are there, so the new name is another
      rw [nameEq_strncpy, nameEq_strncpy]
      exact ⟨nameEq_of_names (by omega) (hnew 0) hdot, nameEq_of_names hpar (hnew 1) hdots⟩
    · rename_i hne
      rw [if_neg hne] at hlive
      exact h.proper d j hj hlive

/-! ## What the calls do to the tree -/

/-- the table `t` becomes `t'`: the tree stays in order, parents keep their links if `G` holds, and what is held keeps its
type -/
structure Becomes (sb : Superblock) (H : ℕ → ℕ) (G : Prop) (t t' : Tab) : Prop where
  tree : Tree sb t'
  up : G → t.graph.Up → t'.graph.Up
  types : ∀ y, 0 < H y → t.type y ≠ .free → t'.type y = t.type y

variable {G : Prop}

theorem Becomes.refl (h : Tree sb t) : Becomes sb H G t t := ⟨h, fun _ => id, fun _ _ _ => rfl⟩

theorem Becomes.nil (h : Tree sb t) (hst : Steps sb [] t t') : Becomes sb H G t t' := by
  have hsame : t' = t := hst
  rw [hsame]
  exact .refl h

theorem short_eq {n : ℤ} (h : -2 ^ 15 ≤ n) (h' : n < 2 ^ 15) : short n = n := by
  unfold short
  omega

theorem lt_of_short {n : ℤ} (h : short n = n) : -2 ^ 15 ≤ n ∧ n < 2 ^ 15 := by
  unfold short at h
  omega

theorem Tree.nlink_nonneg (h : Tree sb t) (hx : t.type x ≠ .free) : 0 ≤ t.nlink x :=
  h.sound.count_nonneg (fun hfree => hx (kind_eq_free.1 hfree))

theorem Shape.setNlink (h : Shape sb t) (n : ℤ) : Shape sb (t.setNlink x n) :=
  ⟨h.fits, h.bound, h.none, h.self, h.parent, h.proper⟩

/-- **An inode without links is given back.** -/
theorem Tree.free (h : Tree sb t) (hact : (Edit.free x).Acts sb t t') :
    Tree sb t' ∧ (t.graph.Up → t'.graph.Up) ∧ ∀ y, y ≠ x → t'.type y = t.type y := by
  obtain ⟨hzero, rfl⟩ := hact
  have hlinks : t.graph.links x = 0 := hzero
  have hroot : x ≠ ROOTINO := fun heq => by
    have hpos := h.sound.root_pos
    rw [← heq, hlinks] at hpos
    exact lt_irrefl 0 hpos
  obtain ⟨-, hents⟩ := h.sound.bare hroot (.inr hlinks)
  have htype : ∀ y, y ≠ x → ((t.setType x .free).clear x).type y = t.type y := fun y hy => update_of_ne hy ..
  have hfree : ((t.setType x .free).clear x).type x = .free := update_self ..
  have hent : ∀ d, d ≠ x → ((t.setType x .free).clear x).ent d = t.ent d := fun d hd => update_of_ne hd ..
  have hclear : ∀ k, ((t.setType x .free).clear x).ent x k = ⟨0, []⟩ := fun k => by
    unfold Tab.clear
    simp
  -- a directory is another inode
  have hdir : ∀ d, ((t.setType x .free).clear x).type d = .dir → d ≠ x := fun d hd heq => by
    rw [heq, hfree] at hd
    cases hd
  have hgraph : ((t.setType x .free).clear x).graph = t.graph.become x .free 0 := by
    refine NameGraph.ext ?_ ?_ ?_ ?_
    · have hgraph : (t.setType x .free).graph = t.graph.setKind x Ty.free.kind := graph_setType
      have hkind := congrArg NameGraph.kind hgraph
      exact hkind
    · funext d j
      by_cases hd : d = x
      · subst hd
        rw [graph_ent_none (congrArg Dirent.inum (hclear j))]
        exact (hents j).symm
      · unfold Tab.graph
        simp only [hent d hd]
        rfl
    · refine update_eq (congrArg Dirent.inum (hclear 1)) fun d hd => ?_
      unfold Tab.graph
      simp only [hent d hd]
      rfl
    · exact update_eq hzero fun d _ => rfl
  refine ⟨⟨⟨h.fits, fun y hy => ?_, fun d hd k => ?_, fun d hd => ?_, fun d hd => ?_, fun d k hk hlive => ?_⟩, ?_⟩,
    fun hup => ?_, htype⟩
  · have hyx : y ≠ x := fun heq => hy (heq ▸ hfree)
    rw [htype y hyx] at hy
    exact h.bound y hy
  · by_cases hdx : d = x
    · subst hdx
      exact hclear k
    · rw [hent d hdx]
      rw [htype d hdx] at hd
      exact h.none d hd k
  · rw [hent d (hdir d hd)]
    rw [htype d (hdir d hd)] at hd
    exact h.self d hd
  · rw [hent d (hdir d hd)]
    rw [htype d (hdir d hd)] at hd
    exact h.parent d hd
  · have hdx : d ≠ x := fun heq => by
      rw [heq, hclear] at hlive
      exact hlive rfl
    rw [hent d hdx] at hlive ⊢
    exact h.proper d k hk hlive
  · rw [hgraph]
    exact h.sound.become hroot (.inr hlinks)
  · rw [hgraph]
    exact hup.become (.inr hlinks) fun hc => by cases hc

theorem Tree.mayFree (h : Tree sb t) (hfr : MayFree H x fr) (hst : Steps sb fr t t') : Becomes sb H G t t' := by
  rcases hfr with rfl | ⟨rfl, hnone⟩
  · exact .nil h hst
  · obtain ⟨t1, hact, rfl⟩ := hst
    obtain ⟨htree, hup, htypes⟩ := h.free hact
    refine ⟨htree, fun _ => hup, fun y hy _ => htypes y fun heq => ?_⟩
    rw [heq, hnone] at hy
    exact lt_irrefl 0 hy

/-- an inode with links stays -/
theorem MayFree.nil (hfr : MayFree H x fr) (hst : Steps sb fr t t') (hpos : t.nlink x ≠ 0) : t' = t := by
  rcases hfr with rfl | ⟨rfl, -⟩
  · exact hst
  · obtain ⟨t1, hact, -⟩ := hst
    exact absurd hact.1 hpos

/-- **`link`** enters a name for an inode that is no directory. -/
theorem Tree.link (h : Tree sb t) (hdir : t.type x ≠ .dir) (hx : t.type x ≠ .free) (hl : t.nlink dp ≠ 0)
    (hmax : t.nlink x < 32767) (hfr : MayFree H x fr) (hst : Steps sb ([.link x 1, .enter dp name x] ++ fr) t t') : Becomes sb H G t t' := by
  obtain ⟨_, rfl, t2, hent, hrest⟩ := hst
  have hnn := h.nlink_nonneg hx
  rw [short_eq (by omega) (by omega)] at hent
  have hdp : t.type dp = .dir := hent.1
  obtain ⟨k, -, hnone, hshape, hgraph, htype, hnlink⟩ := (h.toShape.setNlink (t.nlink x + 1)).enter hx hent
  have hkx : t.graph.kind x ≠ .dir := fun hk => hdir (kind_eq_dir.1 hk)
  have hkf : t.graph.kind x ≠ .free := fun hk => hx (kind_eq_free.1 hk)
  have hkd : t.graph.kind dp = .dir := kind_eq_dir.2 hdp
  have heq : t2.graph = t.graph.enter dp k x := by
    rw [hgraph, NameGraph.enter_leaf hkx]
    rfl
  have hnil : t' = t2 := hfr.nil hrest (by
    have hself : (t.setNlink x (t.nlink x + 1)).nlink x = t.nlink x + 1 := update_self ..
    rw [hnlink, hself]
    omega)
  subst hnil
  have hroot : x ≠ ROOTINO := fun heq => hkx (heq ▸ h.sound.root_dir)
  refine ⟨⟨hshape, ?_⟩, fun _ hup => ?_, fun y _ _ => congrFun htype y⟩
  · rw [heq]
    exact h.sound.enter hkf hroot (fun hk => absurd hk hkx) hkd hl hnone
  · rw [heq]
    exact hup.enter h.sound hkf hkd hl

/-- a new inode that is no directory -/
theorem Shape.make (h : Shape sb t) (hpos : 0 < ip) (hlt : ip < sb.ninodes) (hfree : t.type ip = .free)
    (hty : type ≠ .dir) : Shape sb (t.setType ip type) := by
  have htype : ∀ y, y ≠ ip → (t.setType ip type).type y = t.type y := fun y hy => update_of_ne hy ..
  have hself : (t.setType ip type).type ip = type := update_self ..
  have hdir : ∀ d, (t.setType ip type).type d = .dir → t.type d = .dir := fun d hd => by
    by_cases hdx : d = ip
    · rw [hdx, hself] at hd
      exact absurd hd hty
    · rw [htype d hdx] at hd
      exact hd
  refine ⟨h.fits, fun y hy => ?_, fun d hd => h.none d fun hdir' => hd ?_, fun d hd => h.self d (hdir d hd),
    fun d hd => h.parent d (hdir d hd), h.proper⟩
  · by_cases hyx : y = ip
    · rw [hyx]
      exact ⟨hpos, hlt⟩
    · rw [htype y hyx] at hy
      exact h.bound y hy
  · rw [htype d fun heq => by rw [heq, hfree] at hdir'; cases hdir']
    exact hdir'

variable {major minor : ℤ}

/-- **`create`** of an inode that is no directory. -/
theorem Tree.createLeaf (h : Tree sb t) (hty : type ≠ .dir) (hfreety : type ≠ .free)
    (hl : t.nlink dp ≠ 0) (hne : ip ≠ dp) (hfr : MayFree H dp fr)
    (hst : Steps sb ([.make ip type, .init ip major minor] ++ dots type dp ip ++ [.enter dp name ip] ++ fr) t t') : Becomes sb H G t t' := by
  have hdots : dots type dp ip = [] := if_neg hty
  rw [hdots] at hst
  obtain ⟨_, ⟨hpos, hlt, hfree, rfl⟩, _, rfl, t2, hent, hrest⟩ := hst
  have hkf : t.graph.kind ip = .free := kind_eq_free.2 hfree
  have hself : (t.setType ip type).type ip = type := update_self ..
  have hdp : t.type dp = .dir := by
    have hdir := hent.1
    have hsame : (t.setType ip type).type dp = t.type dp := update_of_ne hne.symm ..
    exact hsame ▸ hdir
  have hshape := (((h.toShape.make hpos hlt hfree hty).setNlink (x := ip) 0).setNlink (x := ip) 1)
  obtain ⟨k, -, hnone, hshape, hgraph, htype, hnlink⟩ := hshape.enter (x := ip) (by rw [← hself] at hfreety; exact hfreety) hent
  have hroot : ip ≠ ROOTINO := fun heq => by
    have hdir := h.sound.root_dir
    rw [← heq, hkf] at hdir
    cases hdir
  have hkind : (t.graph.become ip type.kind 0).kind ip = type.kind := update_self ..
  have hkd : (t.graph.become ip type.kind 0).kind dp = .dir :=
    (update_of_ne hne.symm ..).trans (kind_eq_dir.2 hdp)
  have hld : (t.graph.become ip type.kind 0).links dp ≠ 0 := by
    have heq : (t.graph.become ip type.kind 0).links dp = t.nlink dp := update_of_ne hne.symm ..
    rw [heq]
    exact hl
  have hleaf : (t.graph.become ip type.kind 0).kind ip ≠ .dir := fun hk => hty (kind_eq_dir.1 (hkind ▸ hk))
  have hnotfree : (t.graph.become ip type.kind 0).kind ip ≠ .free := fun hk => hfreety (kind_eq_free.1 (hkind ▸ hk))
  have heq : t2.graph = (t.graph.become ip type.kind 0).enter dp k ip := by
    rw [hgraph, NameGraph.enter_leaf hleaf, graph_setNlink, graph_setNlink, graph_setType]
    -- the parent of a free inode is 0 already
    have hup : t.graph.up = Function.update t.graph.up ip 0 :=
      update_eq (congrArg Dirent.inum (h.none ip (by rw [hfree]; decide) 1)) fun _ _ => rfl
    refine NameGraph.ext rfl rfl hup ?_
    unfold NameGraph.become NameGraph.setLinks NameGraph.setEnt
    simp only [update_self, update_idem, zero_add]
    rfl
  have hnil : t' = t2 := hfr.nil hrest (by
    rw [hnlink]
    have h1 : ((t.setType ip type).setNlink ip 0).nlink dp = t.nlink dp := update_of_ne hne.symm ..
    have h2 : (((t.setType ip type).setNlink ip 0).setNlink ip 1).nlink dp = t.nlink dp :=
      (update_of_ne hne.symm ..).trans h1
    rw [h2]
    exact hl)
  subst hnil
  have hbec := h.sound.become (c := type.kind) (p := 0) hroot (.inl hkf)
  refine ⟨⟨hshape, ?_⟩, fun _ hup => ?_, fun y _ hy => ?_⟩
  · rw [heq]
    exact hbec.enter hnotfree hroot (fun hk => absurd hk hleaf) hkd hld hnone
  · rw [heq]
    refine (hup.become (.inl hkf) fun hc => absurd (kind_eq_dir.1 hc) hty).enter hbec hnotfree hkd hld
  · have hyx : y ≠ ip := fun heq => by
      rw [heq] at hy
      exact hy hfree
    rw [htype]
    exact update_of_ne hyx ..

/-- the first empty place -/
theorem Edit.Acts.place {inum n : ℕ} (hact : (Edit.enter dp name inum).Acts sb t t') (hzero : (t.ent dp n).inum = 0)
    (hlive : ∀ j < n, (t.ent dp j).inum ≠ 0) : t' = t.setEnt dp n ⟨inum % 2 ^ 16, strncpy name⟩ := by
  obtain ⟨-, -, k, hk, hall, rfl⟩ := hact
  have hkn : k = n := by
    rcases lt_trichotomy k n with hlt | heq | hgt
    · exact absurd hk (hlive k hlt)
    · exact heq
    · exact absurd hzero (hall n hgt)
  rw [hkn]

/-- a new directory with its two entries -/
def Tab.newDir (t : Tab) (ip dp : ℕ) : Tab :=
  ((t.setType ip .dir).setEnt ip 0 ⟨ip, strncpy DOT⟩).setEnt ip 1 ⟨dp, strncpy DOTDOT⟩

theorem Shape.newDir (h : Shape sb t) (hpos : 0 < ip) (hlt : ip < sb.ninodes) (hfree : t.type ip = .free) (hdp : dp ≠ 0) :
    Shape sb (t.newDir ip dp) := by
  have htype : ∀ y, y ≠ ip → (t.newDir ip dp).type y = t.type y := fun y hy => update_of_ne hy ..
  have hself : (t.newDir ip dp).type ip = .dir := update_self ..
  have hent : ∀ d k, d ≠ ip → (t.newDir ip dp).ent d k = t.ent d k := fun d k hd => by
    unfold Tab.newDir
    rw [Tab.ent_setEnt, Tab.ent_setEnt, if_neg fun hand => hd hand.1, if_neg fun hand => hd hand.1]
    rfl
  have hent0 : (t.newDir ip dp).ent ip 0 = ⟨ip, strncpy DOT⟩ := by
    unfold Tab.newDir
    rw [Tab.ent_setEnt, Tab.ent_setEnt, if_neg (by simp), if_pos ⟨rfl, rfl⟩]
  have hent1 : (t.newDir ip dp).ent ip 1 = ⟨dp, strncpy DOTDOT⟩ := by
    unfold Tab.newDir
    rw [Tab.ent_setEnt, if_pos ⟨rfl, rfl⟩]
  have hent2 : ∀ k, 2 ≤ k → (t.newDir ip dp).ent ip k = ⟨0, []⟩ := fun k hk => by
    unfold Tab.newDir
    rw [Tab.ent_setEnt, Tab.ent_setEnt, if_neg fun hand => by omega, if_neg fun hand => by omega]
    exact h.none ip (by rw [hfree]; decide) k
  refine ⟨h.fits, fun y hy => ?_, fun d hd k => ?_, fun d hd => ?_, fun d hd => ?_, fun d k hk hlive => ?_⟩
  · by_cases hyx : y = ip
    · rw [hyx]
      exact ⟨hpos, hlt⟩
    · rw [htype y hyx] at hy
      exact h.bound y hy
  · have hdx : d ≠ ip := fun heq => hd (heq ▸ hself)
    rw [hent d k hdx]
    rw [htype d hdx] at hd
    exact h.none d hd k
  · by_cases hdx : d = ip
    · subst hdx
      rw [hent0, nameEq_strncpy]
      exact ⟨rfl, rfl⟩
    · rw [hent d 0 hdx]
      rw [htype d hdx] at hd
      exact h.self d hd
  · by_cases hdx : d = ip
    · subst hdx
      rw [hent1, nameEq_strncpy]
      exact ⟨hdp, rfl⟩
    · rw [hent d 1 hdx]
      rw [htype d hdx] at hd
      exact h.parent d hd
  · have hdx : d ≠ ip := fun heq => by
      rw [heq, hent2 k hk] at hlive
      exact hlive rfl
    rw [hent d k hdx] at hlive ⊢
    exact h.proper d k hk hlive

/-- **`create`** of a directory. -/
theorem Tree.createDir (h : Tree sb t) (hdp : t.type dp = .dir) (hl : t.nlink dp ≠ 0)
    (hmax : t.nlink dp < 32767) (hne : ip ≠ dp) (hfr : MayFree H dp fr)
    (hst : Steps sb ([.make ip .dir, .init ip major minor] ++ dots .dir dp ip ++ [.enter dp name ip] ++ fr) t t') : Becomes sb H G t t' := by
  obtain ⟨_, ⟨hpos, hlt, hfree, rfl⟩, _, rfl, _, rfl, t1, hdot, t2, hdots, t3, hent, hrest⟩ := hst
  have hdfree : t.type dp ≠ .free := by
    rw [hdp]
    decide
  have hdpos := (h.bound dp hdfree).1
  have hnn := h.nlink_nonneg hdfree
  have hkf : t.graph.kind ip = .free := kind_eq_free.2 hfree
  have hempty : ∀ k, (t.ent ip k).inum = 0 := fun k => congrArg Dirent.inum (h.none ip (by rw [hfree]; decide) k)
  have hmod : ip % 2 ^ 16 = ip := Nat.mod_eq_of_lt (hlt.trans_le h.fits)
  -- the link count of the parent
  have hcount : (((t.setType ip .dir).setNlink ip 0).setNlink ip 1).nlink dp = t.nlink dp :=
    (update_of_ne hne.symm ..).trans (update_of_ne hne.symm ..)
  rw [hcount, short_eq (by omega) (by omega)] at hdot
  -- the entries of the new directory
  have ht1 := hdot.place (n := 0) (hempty 0) fun j hj => absurd hj (Nat.not_lt_zero j)
  rw [hmod] at ht1
  subst ht1
  have ht2 := hdots.place (n := 1) (by
    rw [Tab.ent_setEnt, if_neg (by simp)]
    exact hempty 1) fun j hj => by
      rw [Tab.ent_setEnt, if_pos ⟨rfl, by omega⟩]
      exact hpos.ne'
  rw [h.toShape.mod hdfree] at ht2
  have ht2 : t2 = (((t.newDir ip dp).setNlink ip 0).setNlink ip 1).setNlink dp (t.nlink dp + 1) := ht2
  have hshape := (((h.toShape.newDir hpos hlt hfree hdpos.ne').setNlink (x := ip) 0).setNlink (x := ip) 1).setNlink
    (x := dp) (t.nlink dp + 1)
  rw [← ht2] at hshape
  have hself : t2.type ip = .dir := by
    rw [ht2]
    exact update_self ..
  obtain ⟨k, -, hnone, hshape', hgraph, htype, hnlink⟩ := hshape.enter (by rw [hself]; decide) hent
  have hroot : ip ≠ ROOTINO := fun heq => by
    have hdir := h.sound.root_dir
    rw [← heq, hkf] at hdir
    cases hdir
  have hkind : (t.graph.become ip .dir dp).kind ip = .dir := update_self ..
  have hup : (t.graph.become ip .dir dp).up ip = dp := update_self ..
  have hlinks : (t.graph.become ip .dir dp).links ip = 0 := update_self ..
  have hkd : (t.graph.become ip .dir dp).kind dp = .dir := (update_of_ne hne.symm ..).trans (kind_eq_dir.2 hdp)
  have hld : (t.graph.become ip .dir dp).links dp = t.nlink dp := update_of_ne hne.symm ..
  have hgraph2 : t2.graph =
      ((((t.graph.setKind ip .dir).setUp ip dp).setLinks ip 0).setLinks ip 1).setLinks dp (t.nlink dp + 1) := by
    rw [ht2, graph_setNlink, graph_setNlink, graph_setNlink]
    unfold Tab.newDir
    rw [graph_setEnt_one, graph_setEnt_zero, graph_setType]
    rfl
  have heq : t3.graph = (t.graph.become ip .dir dp).enter dp k ip := by
    rw [hgraph, hgraph2]
    refine NameGraph.ext rfl rfl rfl ?_
    unfold NameGraph.enter NameGraph.back
    rw [if_pos hkind, hlinks, hld]
    unfold NameGraph.become NameGraph.setLinks NameGraph.setEnt
    funext y
    simp only [update_apply]
    by_cases hy : y = dp
    · simp [hy, hne.symm]
    · simp [hy]
  have hnil : t' = t3 := hfr.nil hrest (by
    have hval : t2.nlink dp = t.nlink dp + 1 := by
      rw [ht2]
      exact update_self ..
    rw [hnlink, hval]
    omega)
  subst hnil
  have hbec := h.sound.become (c := .dir) (p := dp) hroot (.inl hkf)
  have hnone' : (t.graph.become ip .dir dp).ent dp k = none := by
    rw [hgraph2] at hnone
    exact hnone
  refine ⟨⟨hshape', ?_⟩, fun _ hgup => ?_, fun y _ hy => ?_⟩
  · rw [heq]
    refine hbec.enter (by rw [hkind]; decide) hroot (fun _ => ⟨hlinks, hup⟩) hkd ?_ hnone'
    rw [hld]
    exact hl
  · rw [heq]
    refine (hgup.become (.inl hkf) fun _ => ⟨kind_eq_dir.2 hdp, hl⟩).enter hbec (by rw [hkind]; decide) hkd ?_
    rw [hld]
    exact hl
  · have hyx : y ≠ ip := fun heq => by
      rw [heq] at hy
      exact hy hfree
    rw [htype, ht2]
    exact update_of_ne hyx ..

theorem Becomes.trans {t1 : Tab} (h : Becomes sb H G t t1) (h' : Becomes sb H G t1 t') : Becomes sb H G t t' :=
  ⟨h'.tree, fun hG hup => h'.up hG (h.up hG hup), fun y hy hty => by
    have heq := h.types y hy hty
    rw [h'.types y hy (heq ▸ hty), heq]⟩

/-- a name goes -/
theorem Shape.erase (h : Shape sb t) (hk : 2 ≤ k) (hdp : t.type dp = .dir) : Shape sb (t.setEnt dp k .cleared) := by
  refine ⟨h.fits, h.bound, fun d hd j => ?_, fun d hd => ?_, fun d hd => ?_, fun d j hj hlive => ?_⟩
  · rw [Tab.ent_setEnt, if_neg fun hand : d = dp ∧ j = k => hd (hand.1 ▸ hdp)]
    exact h.none d hd j
  · rw [Tab.ent_setEnt, if_neg fun hand => by omega]
    exact h.self d hd
  · rw [Tab.ent_setEnt, if_neg fun hand => by omega]
    exact h.parent d hd
  · rw [Tab.ent_setEnt] at hlive ⊢
    split at hlive
    · exact absurd rfl hlive
    · rename_i hne
      rw [if_neg hne]
      exact h.proper d j hj hlive

/-- an entry with another name than "." and ".." is a name -/
theorem Shape.named (h : Shape sb t) (hdp : t.type dp = .dir) (hname : (t.ent dp k).names name = true)
    (hdot : ¬ nameEq name DOT = true) (hdots : ¬ nameEq name DOTDOT = true) : t.graph.ent dp k = some (t.ent dp k).inum ∧ 2 ≤ k := by
  unfold Dirent.names at hname
  simp only [Bool.and_eq_true, decide_eq_true_eq] at hname
  obtain ⟨hlive, hname⟩ := hname
  have hk : 2 ≤ k := by
    by_contra hlt
    have hcases : k = 0 ∨ k = 1 := by omega
    rcases hcases with rfl | rfl
    · exact hdot (nameEq_trans hname (nameEq_comm DOT _ ▸ (h.self dp hdp).2))
    · exact hdots (nameEq_trans hname (nameEq_comm DOTDOT _ ▸ (h.parent dp hdp).2))
  exact ⟨graph_ent_some.2 ⟨hk, rfl, hlive⟩, hk⟩

/-- **`unlink`** takes a name away, and the inode with it if that was its last link. -/
theorem Tree.unlink {f1 f2 : List Edit} (h : Tree sb t) (hshort : ∀ y, short (t.nlink y) = t.nlink y)
    (hent : t.graph.ent dp k = some ip) (hk : 2 ≤ k) (hempty : t.type ip = .dir → ∀ j, 2 ≤ j → (t.ent ip j).inum = 0)
    (h₁ : MayFree H dp f1) (h₂ : MayFree H ip f2) (hG : G → t.type ip = .dir → ∀ d, t.type d = .dir → (t.ent d 1).inum ≠ ip)
    (hst : Steps sb ([.erase dp (DESIZE * k)] ++ (if t.type ip = .dir then [.link dp (-1)] else []) ++ f1 ++
      [.link ip (-1)] ++ f2) t t') : Becomes sb H G t t' := by
  have hkd := h.sound.dirs dp k ip hent
  have hdp : t.type dp = .dir := kind_eq_dir.1 hkd
  have hnone : t.graph.kind ip = .dir → ∀ j, t.graph.ent ip j = none := fun hdir j => by
    by_contra hsome
    obtain ⟨y, hy⟩ := Option.ne_none_iff_exists'.1 hsome
    obtain ⟨hj, hval, hne⟩ := graph_ent_some.1 hy
    exact hne (hval ▸ hempty (kind_eq_dir.1 hdir) j hj)
  have hleft := h.sound.leave_left hent hnone
  have hpos : 0 < t.nlink ip := h.sound.links_pos hent
  have hdx : dp ≠ ip := fun heq => by
    subst heq
    rw [hnone hkd k] at hent
    cases hent
  obtain ⟨-, hip⟩ := lt_of_short (hshort ip)
  obtain ⟨-, hdlt⟩ := lt_of_short (hshort dp)
  -- everything but the end: the entry and both link counts
  have hleave : ∃ t1, Steps sb f2 t1 t' ∧ Shape sb t1 ∧ t1.graph = t.graph.leave dp k ip ∧ t1.type = t.type := by
    obtain ⟨t4, hst4, hf2⟩ := steps_append.1 hst
    obtain ⟨t3, hst3, _, rfl, rfl⟩ := steps_append.1 hst4
    obtain ⟨t2, hst2, hf1⟩ := steps_append.1 hst3
    obtain ⟨t1, ⟨_, ⟨k', hk', rfl⟩, rfl⟩, hlink⟩ := steps_append.1 hst2
    have hkk : k' = k := (Nat.eq_of_mul_eq_mul_left (by decide) hk').symm
    subst hkk
    have hshape := h.toShape.erase hk hdp
    have hgraph : (t.setEnt dp k' .cleared).graph = t.graph.setEnt dp k' none := graph_setEnt hk
    by_cases hdir : t.type ip = .dir
    · have hkx : t.graph.kind ip = .dir := kind_eq_dir.2 hdir
      rw [if_pos hdir] at hlink
      obtain ⟨_, rfl, rfl⟩ := hlink
      have hback : t.graph.back ip = 1 := if_pos hkx
      have hlinks : t.graph.links dp = t.nlink dp := rfl
      rw [hback, hlinks] at hleft
      have hval : short ((t.setEnt dp k' .cleared).nlink dp + -1) = t.nlink dp - 1 := short_eq
        (show -2 ^ 15 ≤ t.nlink dp + -1 by omega) (show t.nlink dp + -1 < 2 ^ 15 by omega)
      have hnil := h₁.nil hf1 (by
        have hself : ∀ n, ((t.setEnt dp k' .cleared).setNlink dp n).nlink dp = n := fun n => update_self ..
        rw [hself, hval]
        exact hleft.ne')
      subst hnil
      rw [hval] at hf2
      have hother : ((t.setEnt dp k' .cleared).setNlink dp (t.nlink dp - 1)).nlink ip = t.nlink ip :=
        update_of_ne hdx.symm ..
      rw [hother, short_eq (by omega) (by omega)] at hf2
      refine ⟨_, hf2, (hshape.setNlink _).setNlink _, ?_, rfl⟩
      rw [graph_setNlink, graph_setNlink, hgraph]
      unfold NameGraph.leave
      rw [hback]
      rfl
    · have hkx : t.graph.kind ip ≠ .dir := fun hk => hdir (kind_eq_dir.1 hk)
      rw [if_neg hdir] at hlink
      have hlink : t2 = t.setEnt dp k' .cleared := hlink
      subst hlink
      have hback : t.graph.back ip = 0 := if_neg hkx
      rw [hback, sub_zero] at hleft
      have hnil := h₁.nil hf1 hleft.ne'
      subst hnil
      have hval : short ((t.setEnt dp k' .cleared).nlink ip + -1) = t.nlink ip - 1 := short_eq
        (show -2 ^ 15 ≤ t.nlink ip + -1 by omega) (show t.nlink ip + -1 < 2 ^ 15 by omega)
      rw [hval] at hf2
      refine ⟨_, hf2, hshape.setNlink _, ?_, rfl⟩
      rw [graph_setNlink, hgraph, NameGraph.leave_leaf hkx]
      rfl
  obtain ⟨t1, hf2, hshape, hgraph, htype⟩ := hleave
  have htree : Tree sb t1 := ⟨hshape, hgraph ▸ h.sound.leave hent hnone⟩
  have hbec : Becomes sb H G t t1 := by
    refine ⟨htree, fun hG' hup => ?_, fun y _ _ => congrFun htype y⟩
    rw [hgraph]
    exact hup.leave h.sound hent hnone fun hkx e he => hG hG' (kind_eq_dir.1 hkx) e (kind_eq_dir.1 he)
  exact hbec.trans (htree.mayFree h₂ hf2)

end Xv6.FileSys
