/-
A file system as a graph of names. A directory has named entries, each of which refers to a node, and a parent; every node
counts the links to it: the entries that refer to it, and for a directory the subdirectories that are linked.

A node without links may stay as long as somebody holds it. A directory that has lost its entry in its parent is empty, and
stays so as long as nothing is entered in it (`Sound.unlinked`), which is why `Sound.enter` asks for a directory with links.
-/
import Mathlib
import Xv6.Core.Run

namespace Xv6.Core

inductive Kind
  | free
  | dir
  | leaf
  deriving DecidableEq

/-- nodes `ι`, places of entries in a directory `κ` -/
@[ext]
structure NameGraph (ι κ : Type) where
  kind : ι → Kind
  ent : ι → κ → Option ι
  up : ι → ι
  links : ι → ℤ

namespace NameGraph

variable {ι κ : Type}

/-- the entries that refer to `y` -/
def edges (G : NameGraph ι κ) (y : ι) : Set (ι × κ) := {p | G.ent p.1 p.2 = some y}

/-- the linked subdirectories of `y` -/
def subs (G : NameGraph ι κ) (root y : ι) : Set ι := {d | G.kind d = .dir ∧ d ≠ root ∧ G.links d ≠ 0 ∧ G.up d = y}

/-- links are counted -/
structure Sound (root : ι) (G : NameGraph ι κ) : Prop where
  root_dir : G.kind root = .dir
  dirs : ∀ d k y, G.ent d k = some y → G.kind d = .dir
  closed : ∀ d k y, G.ent d k = some y → G.kind y ≠ .free
  finite : {p : ι × κ | (G.ent p.1 p.2).isSome}.Finite
  parent : ∀ d k y, G.ent d k = some y → G.kind y = .dir → G.up y = d ∧ y ≠ root
  single : ∀ y, G.kind y = .dir → (G.edges y).Subsingleton
  linked : ∀ d, G.kind d = .dir → d ≠ root → G.links d ≠ 0 → (G.edges d).Nonempty
  unlinked : ∀ d, G.kind d = .dir → G.links d = 0 → ∀ k, G.ent d k = none
  count : ∀ y, y ≠ root → G.kind y ≠ .free →
    G.links y = (G.edges y).ncard + if G.kind y = .dir then ((G.subs root y).ncard : ℤ) else 0
  root_count : G.links root = 1 + (G.subs root root).ncard

variable {G G' : NameGraph ι κ} {root d x y p : ι} {k : κ} {v : Option ι} {n : ℤ} {c : Kind}

@[simp] theorem mem_edges {q : ι × κ} : q ∈ G.edges y ↔ G.ent q.1 q.2 = some y := Iff.rfl

theorem mem_subs : d ∈ G.subs root y ↔ G.kind d = .dir ∧ d ≠ root ∧ G.links d ≠ 0 ∧ G.up d = y := Iff.rfl

theorem subs_congr (h : ∀ d, (G'.kind d = .dir ∧ d ≠ root ∧ G'.links d ≠ 0 ∧ G'.up d = y) ↔
    (G.kind d = .dir ∧ d ≠ root ∧ G.links d ≠ 0 ∧ G.up d = y)) : G'.subs root y = G.subs root y :=
  Set.ext h

namespace Sound

theorem edges_finite (h : G.Sound root) (y : ι) : (G.edges y).Finite :=
  h.finite.subset fun p hp => by
    have hp : G.ent p.1 p.2 = some y := hp
    simp [hp]

/-- a linked directory is entered in its parent -/
theorem entered (h : G.Sound root) (hd : G.kind d = .dir) (hne : d ≠ root) (hl : G.links d ≠ 0) :
    ∃ k, G.ent (G.up d) k = some d := by
  obtain ⟨⟨e, j⟩, hej⟩ := h.linked d hd hne hl
  have hej : G.ent e j = some d := hej
  rw [(h.parent e j d hej hd).1]
  exact ⟨j, hej⟩

theorem subs_finite (h : G.Sound root) (y : ι) : (G.subs root y).Finite := by
  refine (h.finite.image fun p => (G.ent p.1 p.2).getD root).subset fun d hd => ?_
  obtain ⟨hdir, hne, hl, -⟩ := hd
  obtain ⟨j, hj⟩ := h.entered hdir hne hl
  exact ⟨(G.up d, j), by simp [hj], by simp [hj]⟩

theorem count_nonneg (h : G.Sound root) (hy : G.kind y ≠ .free) : 0 ≤ G.links y := by
  by_cases hr : y = root
  · rw [hr, h.root_count]
    omega
  · rw [h.count y hr hy]
    split <;> omega

theorem edges_pos (h : G.Sound root) (he : G.ent d k = some x) : 0 < (G.edges x).ncard :=
  (Set.ncard_pos (h.edges_finite x)).2 ⟨(d, k), he⟩

theorem root_pos (h : G.Sound root) : 0 < G.links root := by
  rw [h.root_count]
  omega

/-- what an entry refers to has a link -/
theorem links_pos (h : G.Sound root) (he : G.ent d k = some x) : 0 < G.links x := by
  by_cases hr : x = root
  · rw [hr]
    exact h.root_pos
  · have hpos := h.edges_pos he
    rw [h.count x hr (h.closed d k x he)]
    split <;> omega

/-- a directory with an entry has links -/
theorem dir_linked (h : G.Sound root) (he : G.ent d k = some x) : G.links d ≠ 0 := by
  intro hzero
  rw [h.unlinked d (h.dirs d k x he) hzero k] at he
  cases he

/-- nothing refers to a node that is free, and no linked directory is in it -/
theorem free_edges (h : G.Sound root) (hx : G.kind x = .free) : G.edges x = ∅ :=
  Set.eq_empty_of_forall_notMem fun p hp => h.closed p.1 p.2 x hp hx

end Sound

/-- a directory without links has no entries and no linked subdirectories, and nothing refers to a node without links -/
theorem Sound.bare (h : G.Sound root) (hne : x ≠ root) (hx : G.kind x = .free ∨ G.links x = 0) :
    G.edges x = ∅ ∧ ∀ k, G.ent x k = none := by
  have hedges : G.edges x = ∅ := by
    by_cases hfree : G.kind x = .free
    · exact h.free_edges hfree
    · have hzero := hx.resolve_left hfree
      rw [h.count x hne hfree] at hzero
      refine (Set.ncard_eq_zero (h.edges_finite x)).1 ?_
      split at hzero <;> omega
  refine ⟨hedges, fun k => ?_⟩
  by_contra hsome
  obtain ⟨y, hy⟩ := Option.ne_none_iff_exists'.1 hsome
  have hdir := h.dirs x k y hy
  rcases hx with hfree | hzero
  · rw [hdir] at hfree
    cases hfree
  · exact h.dir_linked hy hzero

/-! ## Operations -/

variable [DecidableEq ι] [DecidableEq κ]

def setKind (G : NameGraph ι κ) (x : ι) (c : Kind) : NameGraph ι κ := { G with kind := Function.update G.kind x c }

def setEnt (G : NameGraph ι κ) (d : ι) (k : κ) (v : Option ι) : NameGraph ι κ :=
  { G with ent := Function.update G.ent d (Function.update (G.ent d) k v) }

def setUp (G : NameGraph ι κ) (x p : ι) : NameGraph ι κ := { G with up := Function.update G.up x p }

def setLinks (G : NameGraph ι κ) (x : ι) (n : ℤ) : NameGraph ι κ := { G with links := Function.update G.links x n }

/-- a node without links becomes something else -/
def become (G : NameGraph ι κ) (x : ι) (c : Kind) (p : ι) : NameGraph ι κ := ((G.setKind x c).setUp x p).setLinks x 0

/-- a link from the subdirectory to its parent -/
def back (G : NameGraph ι κ) (x : ι) : ℤ := if G.kind x = .dir then 1 else 0

/-- a new entry for `x` -/
def enter (G : NameGraph ι κ) (d : ι) (k : κ) (x : ι) : NameGraph ι κ :=
  ((G.setEnt d k (some x)).setLinks d (G.links d + G.back x)).setLinks x (G.links x + 1)

/-- the entry for `x` goes -/
def leave (G : NameGraph ι κ) (d : ι) (k : κ) (x : ι) : NameGraph ι κ :=
  ((G.setEnt d k none).setLinks d (G.links d - G.back x)).setLinks x (G.links x - 1)

theorem ent_setEnt (e : ι) (j : κ) : (G.setEnt d k v).ent e j = if e = d ∧ j = k then v else G.ent e j := by
  unfold setEnt
  by_cases he : e = d
  · subst he
    simp [update_apply]
  · simp [he]

/-- a node that is no directory counts its own link only -/
theorem enter_leaf (hx : G.kind x ≠ .dir) : G.enter d k x = (G.setLinks x (G.links x + 1)).setEnt d k (some x) := by
  refine NameGraph.ext rfl rfl rfl ?_
  unfold enter back setLinks setEnt
  simp only [if_neg hx, add_zero, update_eq_self]

theorem leave_leaf (hx : G.kind x ≠ .dir) : G.leave d k x = (G.setEnt d k none).setLinks x (G.links x - 1) := by
  refine NameGraph.ext rfl rfl rfl ?_
  unfold leave back setLinks setEnt
  simp only [if_neg hx, sub_zero, update_eq_self]

theorem edges_new (hnone : G.ent d k = none) : (G.setEnt d k (some x)).edges y = if y = x then insert (d, k) (G.edges x) else G.edges y := by
  ext ⟨e, j⟩
  rw [mem_edges, ent_setEnt]
  by_cases hp : e = d ∧ j = k
  · obtain ⟨rfl, rfl⟩ := hp
    by_cases hy : y = x
    · simp [hy]
    · simp [hy, hnone, Ne.symm hy]
  · rw [if_neg hp]
    by_cases hy : y = x
    · subst hy
      simp [hp]
    · simp [hy]

theorem edges_gone (hsome : G.ent d k = some x) : (G.setEnt d k none).edges y = if y = x then G.edges x \ {(d, k)} else G.edges y := by
  ext ⟨e, j⟩
  rw [mem_edges, ent_setEnt]
  by_cases hp : e = d ∧ j = k
  · obtain ⟨rfl, rfl⟩ := hp
    by_cases hy : y = x
    · simp [hy]
    · simp [hy, hsome, Ne.symm hy]
  · rw [if_neg hp]
    by_cases hy : y = x
    · subst hy
      simp [hp]
    · simp [hy]

namespace Sound

theorem finite_setEnt (h : G.Sound root) : {q : ι × κ | ((G.setEnt d k v).ent q.1 q.2).isSome}.Finite := by
  refine (h.finite.insert (d, k)).subset fun q hq => ?_
  have hq : ((G.setEnt d k v).ent q.1 q.2).isSome := hq
  rw [ent_setEnt] at hq
  split at hq
  · rename_i heq
    exact .inl (Prod.ext heq.1 heq.2)
  · exact .inr hq

omit [DecidableEq κ] in
/-- **A node without links becomes something else.** -/
theorem become (h : G.Sound root) (hne : x ≠ root) (hx : G.kind x = .free ∨ G.links x = 0) : (G.become x c p).Sound root := by
  obtain ⟨hedges, hents⟩ := h.bare hne hx
  have hkind : ∀ e, e ≠ x → (G.become x c p).kind e = G.kind e := fun e he => update_of_ne he ..
  have hlinks : ∀ e, e ≠ x → (G.become x c p).links e = G.links e := fun e he => update_of_ne he ..
  have hup : ∀ e, e ≠ x → (G.become x c p).up e = G.up e := fun e he => update_of_ne he ..
  have hzero : (G.become x c p).links x = 0 := update_self ..
  -- `x` is neither a source nor a target of entries
  have hsrc : ∀ e j y, G.ent e j = some y → e ≠ x ∧ y ≠ x := by
    intro e j y he
    refine ⟨fun heq => ?_, fun heq => ?_⟩
    · rw [heq, hents j] at he
      cases he
    · have hmem : (e, j) ∈ G.edges x := heq ▸ he
      rw [hedges] at hmem
      exact hmem
  have hsubs : ∀ y, (G.become x c p).subs root y = G.subs root y := fun y => subs_congr fun e => by
    by_cases he : e = x
    · subst he
      refine iff_of_false (fun hall => hall.2.2.1 hzero) fun hall => ?_
      rcases hx with hfree | hl
      · rw [hall.1] at hfree
        cases hfree
      · exact hall.2.2.1 hl
    · rw [hkind e he, hlinks e he, hup e he]
  have hroot := hkind root hne.symm
  refine ⟨hroot.trans h.root_dir, fun e j y he => ?_, fun e j y he => ?_, h.finite, fun e j y he hy => ?_, fun y hy => ?_,
    fun e he hner hle => ?_, fun e he hle j => ?_, fun y hney hy => ?_, ?_⟩
  · rw [hkind e (hsrc e j y he).1]
    exact h.dirs e j y he
  · rw [hkind y (hsrc e j y he).2]
    exact h.closed e j y he
  · rw [hkind y (hsrc e j y he).2] at hy
    rw [hup y (hsrc e j y he).2]
    exact h.parent e j y he hy
  · by_cases hyx : y = x
    · rw [hyx]
      exact hedges ▸ Set.subsingleton_empty
    · rw [hkind y hyx] at hy
      exact h.single y hy
  · have hex : e ≠ x := fun heq => hle (heq ▸ hzero)
    rw [hkind e hex] at he
    rw [hlinks e hex] at hle
    exact h.linked e he hner hle
  · by_cases hex : e = x
    · rw [hex]
      exact hents j
    · rw [hkind e hex] at he
      rw [hlinks e hex] at hle
      exact h.unlinked e he hle j
  · rw [hsubs]
    by_cases hyx : y = x
    · subst hyx
      have hnone : (G.subs root y).ncard = 0 := by
        refine (Set.ncard_eq_zero (h.subs_finite y)).2 (Set.eq_empty_of_forall_notMem fun e he => ?_)
        obtain ⟨hdir, hner, hl, rfl⟩ := he
        obtain ⟨j, hj⟩ := h.entered hdir hner hl
        rw [hents j] at hj
        cases hj
      have hcard : ((G.become y c p).edges y).ncard = 0 := (Set.ncard_eq_zero (h.edges_finite y)).2 hedges
      rw [hzero, hnone, hcard]
      simp
    · rw [hlinks y hyx, hkind y hyx]
      rw [hkind y hyx] at hy
      exact h.count y hney hy
  · rw [hlinks root hne.symm, hsubs]
    exact h.root_count

omit [DecidableEq ι] [DecidableEq κ] in
/-- the subdirectories of two graphs that differ in the links of `x` only, which is none of them in the first one -/
theorem subs_more (G G' : NameGraph ι κ) (hkind : G'.kind = G.kind) (hup : G'.up = G.up)
    (hlinks : ∀ e, e ≠ x → (G'.links e ≠ 0 ↔ G.links e ≠ 0)) (hne : x ≠ root)
    (hdir : G.kind x = .dir → G.links x = 0 ∧ G'.links x ≠ 0 ∧ G.up x = d) (hfin : (G.subs root y).Finite ∨ (G'.subs root y).Finite)
    [Decidable (y = d)] : ((G'.subs root y).ncard : ℤ) = (G.subs root y).ncard + if y = d then G.back x else 0 := by
  have hmem : ∀ e, e ≠ x → (e ∈ G'.subs root y ↔ e ∈ G.subs root y) := fun e hex => by
    rw [mem_subs, mem_subs, hkind, hup, hlinks e hex]
  by_cases hcase : G.kind x = .dir ∧ y = d
  · obtain ⟨hxdir, rfl⟩ := hcase
    obtain ⟨hzero, hnz, hupx⟩ := hdir hxdir
    have heq : G'.subs root y = insert x (G.subs root y) := by
      ext e
      by_cases hex : e = x
      · subst hex
        exact iff_of_true (mem_subs.2 ⟨hkind ▸ hxdir, hne, hnz, hup ▸ hupx⟩) (.inl rfl)
      · rw [hmem e hex]
        simp [hex]
    have hfin' := hfin.elim id fun hfin => (heq ▸ hfin).subset (Set.subset_insert x _)
    rw [heq, Set.ncard_insert_of_notMem (fun hin => hin.2.2.1 hzero) hfin', if_pos rfl]
    simp [back, hxdir]
  · have heq : G'.subs root y = G.subs root y := by
      ext e
      by_cases hex : e = x
      · subst hex
        refine iff_of_false (fun hin => hcase ⟨hkind ▸ hin.1, ?_⟩) fun hin => hin.2.2.1 (hdir hin.1).1
        rw [← hin.2.2.2, hup]
        exact (hdir (hkind ▸ hin.1)).2.2
      · exact hmem e hex
    rw [heq]
    by_cases hy : y = d
    · have hxdir : G.kind x ≠ .dir := fun hxdir => hcase ⟨hxdir, hy⟩
      simp [back, hxdir]
    · simp [hy]

/-- **A new entry** for a node that is no directory, or for a new directory in its parent. -/
theorem enter (h : G.Sound root) (hx : G.kind x ≠ .free) (hne : x ≠ root) (hdir : G.kind x = .dir → G.links x = 0 ∧ G.up x = d)
    (hd : G.kind d = .dir) (hl : G.links d ≠ 0) (hnone : G.ent d k = none) : (G.enter d k x).Sound root := by
  have hdx : d ≠ x := fun heq => by
    subst heq
    exact hl (hdir hd).1
  have hdpos : 0 < G.links d := lt_of_le_of_ne (h.count_nonneg (by rw [hd]; decide)) hl.symm
  have hback : 0 ≤ G.back x := by
    unfold back
    split <;> decide
  have hent : ∀ e j, (G.enter d k x).ent e j = if e = d ∧ j = k then some x else G.ent e j := fun e j => ent_setEnt e j
  have hedges : ∀ y, (G.enter d k x).edges y = if y = x then insert (d, k) (G.edges x) else G.edges y := fun y =>
    edges_new hnone
  have hlinksx : (G.enter d k x).links x = G.links x + 1 := update_self ..
  have hlinksd : (G.enter d k x).links d = G.links d + G.back x :=
    (update_of_ne hdx ..).trans (update_self ..)
  have hlinks : ∀ e, e ≠ x → e ≠ d → (G.enter d k x).links e = G.links e := fun e hex hed =>
    (update_of_ne hex ..).trans (update_of_ne hed ..)
  have hxnn := h.count_nonneg hx
  have hnot : (d, k) ∉ G.edges x := fun hmem => by
    rw [mem_edges, hnone] at hmem
    cases hmem
  have hsubs : ∀ y, (((G.enter d k x).subs root y).ncard : ℤ) = (G.subs root y).ncard + if y = d then G.back x else 0 := by
    intro y
    refine subs_more G (G.enter d k x) rfl rfl (fun e hex => ?_) hne (fun hxdir => ⟨(hdir hxdir).1, ?_, (hdir hxdir).2⟩) (.inl (h.subs_finite y))
    · by_cases hed : e = d
      · subst hed
        exact iff_of_true (by omega) hl
      · rw [hlinks e hex hed]
    · rw [hlinksx]
      omega
  refine ⟨h.root_dir, fun e j y he => ?_, fun e j y he => ?_, h.finite_setEnt, fun e j y he hy => ?_, fun y hy => ?_,
    fun e he hner hle => ?_, fun e he hle j => ?_, fun y hney hy => ?_, ?_⟩
  · rw [hent] at he
    split at he
    · rename_i heq
      rw [heq.1]
      exact hd
    · exact h.dirs e j y he
  · rw [hent] at he
    split at he
    · cases he
      exact hx
    · exact h.closed e j y he
  · rw [hent] at he
    split at he
    · rename_i heq
      cases he
      rw [heq.1]
      exact ⟨(hdir hy).2, hne⟩
    · exact h.parent e j y he hy
  · rw [hedges]
    split
    · rename_i hyx
      rw [(h.bare hne (.inr (hdir (hyx ▸ hy)).1)).1, insert_empty_eq]
      exact Set.subsingleton_singleton
    · exact h.single y hy
  · rw [hedges]
    split
    · exact ⟨(d, k), .inl rfl⟩
    · rename_i hex
      refine h.linked e he hner ?_
      by_cases hed : e = d
      · rw [hed]
        exact hl
      · rw [hlinks e hex hed] at hle
        exact hle
  · have hex : e ≠ x := fun heq => by
      rw [heq, hlinksx] at hle
      omega
    have hed : e ≠ d := fun heq => by
      rw [heq, hlinksd] at hle
      omega
    rw [hlinks e hex hed] at hle
    rw [hent, if_neg fun heq => hed heq.1]
    exact h.unlinked e he hle j
  · have hkind : (G.enter d k x).kind y = G.kind y := rfl
    rw [hkind] at hy ⊢
    have hcount := h.count y hney hy
    rw [hedges, hsubs]
    by_cases hyx : y = x
    · subst hyx
      rw [if_pos rfl, Set.ncard_insert_of_notMem hnot (h.edges_finite y), if_neg hdx.symm, hlinksx, hcount, add_zero]
      push_cast
      ring
    · rw [if_neg hyx]
      by_cases hyd : y = d
      · subst hyd
        rw [if_pos rfl, if_pos hd, hlinksd, hcount, if_pos hd]
        ring
      · rw [if_neg hyd, hlinks y hyx hyd, hcount, add_zero]
  · rw [hsubs]
    by_cases hrd : root = d
    · subst hrd
      rw [if_pos rfl, hlinksd, h.root_count]
      ring
    · rw [if_neg hrd, hlinks root hne.symm hrd, h.root_count, add_zero]

omit [DecidableEq ι] [DecidableEq κ] in
/-- an empty directory has one link, and is a subdirectory of the one it is entered in -/
theorem empty_dir (h : G.Sound root) (hsome : G.ent d k = some x) (hxdir : G.kind x = .dir)
    (hempty : ∀ j, G.ent x j = none) : x ≠ root ∧ G.links x = 1 ∧ x ∈ G.subs root d := by
  obtain ⟨hup, hne⟩ := h.parent d k x hsome hxdir
  have hsubs : (G.subs root x).ncard = 0 := by
    refine (Set.ncard_eq_zero (h.subs_finite x)).2 (Set.eq_empty_of_forall_notMem fun e he => ?_)
    obtain ⟨hdir, hner, hle, rfl⟩ := he
    obtain ⟨j, hj⟩ := h.entered hdir hner hle
    rw [hempty j] at hj
    cases hj
  have hone : (G.edges x).ncard = 1 := by
    rw [(h.single x hxdir).eq_singleton_of_mem (show (d, k) ∈ G.edges x from hsome), Set.ncard_singleton]
  have hlinks : G.links x = 1 := by
    rw [h.count x hne (by rw [hxdir]; decide), if_pos hxdir, hsubs, hone]
    rfl
  exact ⟨hne, hlinks, hxdir, hne, by rw [hlinks]; decide, hup⟩

omit [DecidableEq ι] [DecidableEq κ] in
theorem target_ne_root (h : G.Sound root) (hsome : G.ent d k = some x) : x ≠ root := by
  intro heq
  exact (h.parent d k x hsome (heq ▸ h.root_dir)).2 heq

omit [DecidableEq ι] [DecidableEq κ] in
/-- the parent keeps a link: its own entry, or being the root -/
theorem leave_left (h : G.Sound root) (hsome : G.ent d k = some x) (hempty : G.kind x = .dir → ∀ j, G.ent x j = none) :
    0 < G.links d - G.back x := by
  have hd := h.dirs d k x hsome
  have hl := h.dir_linked hsome
  unfold back
  split
  · rename_i hxdir
    have hsub : 0 < (G.subs root d).ncard :=
      (Set.ncard_pos (h.subs_finite d)).2 ⟨x, (h.empty_dir hsome hxdir (hempty hxdir)).2.2⟩
    by_cases hroot : d = root
    · rw [hroot, h.root_count]
      rw [hroot] at hsub
      omega
    · have hedge : 0 < (G.edges d).ncard := (Set.ncard_pos (h.edges_finite d)).2 (h.linked d hd hroot hl)
      rw [h.count d hroot (by rw [hd]; decide), if_pos hd]
      omega
  · rw [sub_zero]
    exact lt_of_le_of_ne (h.count_nonneg (by rw [hd]; decide)) hl.symm

/-- **An entry goes**: of a node that is no directory, or of an empty directory. -/
theorem leave (h : G.Sound root) (hsome : G.ent d k = some x) (hempty : G.kind x = .dir → ∀ j, G.ent x j = none) :
    (G.leave d k x).Sound root := by
  have hd := h.dirs d k x hsome
  have hl := h.dir_linked hsome
  have hdx : d ≠ x := fun heq => by
    subst heq
    rw [hempty hd k] at hsome
    cases hsome
  have hent : ∀ e j, (G.leave d k x).ent e j = if e = d ∧ j = k then none else G.ent e j := fun e j => ent_setEnt e j
  have hold : ∀ e j y, (G.leave d k x).ent e j = some y → G.ent e j = some y := by
    intro e j y he
    rw [hent] at he
    split at he
    · cases he
    · exact he
  have hedges : ∀ y, (G.leave d k x).edges y = if y = x then G.edges x \ {(d, k)} else G.edges y := fun y =>
    edges_gone hsome
  have hlinksx : (G.leave d k x).links x = G.links x - 1 := update_self ..
  have hlinksd : (G.leave d k x).links d = G.links d - G.back x :=
    (update_of_ne hdx ..).trans (update_self ..)
  have hlinks : ∀ e, e ≠ x → e ≠ d → (G.leave d k x).links e = G.links e := fun e hex hed =>
    (update_of_ne hex ..).trans (update_of_ne hed ..)
  have hcard : (G.edges x).ncard = (G.edges x \ {(d, k)}).ncard + 1 :=
    (Set.ncard_sdiff_singleton_add_one (show (d, k) ∈ G.edges x from hsome) (h.edges_finite x)).symm
  have hdirx := fun hxdir : G.kind x = .dir => h.empty_dir hsome hxdir (hempty hxdir)
  have hne := h.target_ne_root hsome
  have hdleft := h.leave_left hsome hempty
  have hsubs : ∀ y, (((G.leave d k x).subs root y).ncard : ℤ) = (G.subs root y).ncard - if y = d then G.back x else 0 := by
    intro y
    refine eq_sub_of_add_eq (Eq.symm (subs_more (G.leave d k x) G rfl rfl (fun e hex => ?_) hne (fun hxdir => ?_) (.inr (h.subs_finite y))))
    · by_cases hed : e = d
      · subst hed
        exact iff_of_true hl (by omega)
      · rw [hlinks e hex hed]
    · have hone := (hdirx hxdir).2.1
      rw [hlinksx, hone]
      exact ⟨rfl, one_ne_zero, (h.parent d k x hsome hxdir).1⟩
  refine ⟨h.root_dir, fun e j y he => h.dirs e j y (hold e j y he), fun e j y he => h.closed e j y (hold e j y he),
    h.finite_setEnt, fun e j y he => h.parent e j y (hold e j y he), fun y hy => ?_, fun e he hner hle => ?_,
    fun e he hle j => ?_, fun y hney hy => ?_, ?_⟩
  · rw [hedges]
    split
    · rename_i hyx
      rw [hyx] at hy
      exact (h.single x hy).anti Set.sdiff_subset
    · exact h.single y hy
  · rw [hedges]
    by_cases hex : e = x
    · rw [hex, hlinksx, (hdirx (hex ▸ he)).2.1] at hle
      exact absurd rfl hle
    · rw [if_neg hex]
      refine h.linked e he hner ?_
      by_cases hed : e = d
      · rw [hed]
        exact hl
      · rw [hlinks e hex hed] at hle
        exact hle
  · rw [hent]
    split
    · rfl
    · by_cases hex : e = x
      · rw [hex]
        exact hempty (hex ▸ he) j
      · have hed : e ≠ d := fun heq => by
          rw [heq, hlinksd] at hle
          omega
        rw [hlinks e hex hed] at hle
        exact h.unlinked e he hle j
  · have hkind : (G.leave d k x).kind y = G.kind y := rfl
    rw [hkind] at hy ⊢
    have hcount := h.count y hney hy
    rw [hedges, hsubs]
    by_cases hyx : y = x
    · subst hyx
      rw [if_pos rfl, if_neg hdx.symm, hlinksx, hcount, hcard, sub_zero]
      push_cast
      ring
    · rw [if_neg hyx]
      by_cases hyd : y = d
      · subst hyd
        rw [if_pos rfl, if_pos hd, hlinksd, hcount, if_pos hd]
        ring
      · rw [if_neg hyd, hlinks y hyx hyd, hcount, sub_zero]
  · rw [hsubs]
    by_cases hrd : root = d
    · subst hrd
      rw [if_pos rfl, hlinksd, h.root_count]
      ring
    · rw [if_neg hrd, hlinks root hne.symm hrd, h.root_count, sub_zero]

end Sound

/-! ## Parents -/

/-- the parent of every directory is a directory with links; so it stays -/
def Up (G : NameGraph ι κ) : Prop := ∀ e, G.kind e = .dir → G.kind (G.up e) = .dir ∧ G.links (G.up e) ≠ 0

omit [DecidableEq κ] in
theorem Up.become (hu : G.Up) (hx : G.kind x = .free ∨ G.links x = 0) (hp : c = .dir → G.kind p = .dir ∧ G.links p ≠ 0) :
    (G.become x c p).Up := by
  -- a directory with links is not `x`
  have hstay : ∀ e, G.kind e = .dir ∧ G.links e ≠ 0 → (G.become x c p).kind e = .dir ∧ (G.become x c p).links e ≠ 0 := by
    intro e he
    have hex : e ≠ x := fun heq => by
      rw [heq] at he
      rcases hx with hfree | hzero
      · rw [he.1] at hfree
        cases hfree
      · exact he.2 hzero
    have hkind : (G.become x c p).kind e = G.kind e := update_of_ne hex ..
    have hlinks : (G.become x c p).links e = G.links e := update_of_ne hex ..
    rw [hkind, hlinks]
    exact he
  intro e he
  by_cases hex : e = x
  · subst hex
    have hkind : (G.become e c p).kind e = c := update_self ..
    have hup : (G.become e c p).up e = p := update_self ..
    rw [hup]
    exact hstay p (hp (hkind ▸ he))
  · have hkind : (G.become x c p).kind e = G.kind e := update_of_ne hex ..
    have hup : (G.become x c p).up e = G.up e := update_of_ne hex ..
    rw [hup]
    exact hstay _ (hu e (hkind ▸ he))

theorem Up.enter (hu : G.Up) (h : G.Sound root) (hx : G.kind x ≠ .free) (hd : G.kind d = .dir) (hl : G.links d ≠ 0) : (G.enter d k x).Up := by
  intro e he
  obtain ⟨hdir, hlinks⟩ := hu e he
  refine ⟨hdir, ?_⟩
  have hup : (G.enter d k x).up e = G.up e := rfl
  have hback : 0 ≤ G.back x := by
    unfold back
    split <;> decide
  have hxnn := h.count_nonneg hx
  have hdnn := h.count_nonneg (y := d) (by rw [hd]; decide)
  rw [hup]
  unfold NameGraph.enter setLinks
  simp only [update_apply]
  split
  · omega
  · split
    · omega
    · exact hlinks

theorem Up.leave (hu : G.Up) (h : G.Sound root) (hsome : G.ent d k = some x)
    (hempty : G.kind x = .dir → ∀ j, G.ent x j = none) (hno : G.kind x = .dir → ∀ e, G.kind e = .dir → G.up e ≠ x) : (G.leave d k x).Up := by
  intro e he
  obtain ⟨hdir, hlinks⟩ := hu e he
  refine ⟨hdir, ?_⟩
  have hup : (G.leave d k x).up e = G.up e := rfl
  have hleft := h.leave_left hsome hempty
  rw [hup]
  unfold NameGraph.leave setLinks
  simp only [update_apply]
  split
  · rename_i heq
    exact absurd heq (hno (heq ▸ hdir) e he)
  · split
    · exact hleft.ne'
    · exact hlinks

end NameGraph

end Xv6.Core
