/-
Path names. `components` are the non-empty pieces of a path between slashes, cut to `DIRSIZ` bytes, and `follow` looks them up one after the
other. This is what `namei` and `nameiparent` do, whatever slashes there are at the ends and in between.
-/
import Xv6.Fs.Held
import Xv6.Fs.TreeCalls

namespace Xv6.FileSys

open Xv6.Core Xv6.Core.Prog

/-! ## Components -/

/-- the non-empty pieces between slashes, cut to `DIRSIZ` bytes -/
def components (path : List UInt8) : List Name := ((path.splitOn SLASH).filter (· ≠ [])).map (·.take DIRSIZ)

variable {path p rest : List UInt8} {name : Name}

theorem components_slash (path : List UInt8) : components (SLASH :: path) = components path := by
  have hsplit : (SLASH :: path).splitOn SLASH = [] :: path.splitOn SLASH :=
    List.splitOnP_append_cons_of_forall_mem (p := (· == SLASH)) (fun x hx => absurd hx List.not_mem_nil) SLASH
      (beq_self_eq_true SLASH) path
  rw [components, hsplit, List.filter_cons_of_neg (by simp), components]

theorem components_dropWhile (path : List UInt8) : components (path.dropWhile (· = SLASH)) = components path := by
  induction path with
  | nil => rfl
  | cons c path ih =>
    by_cases hc : c = SLASH
    · rw [List.dropWhile_cons_of_pos (by simp [hc]), ih, hc, components_slash]
    · rw [List.dropWhile_cons_of_neg (by simp [hc])]

/-- an element and the end of the path -/
theorem components_last (hne : p ≠ []) (h : SLASH ∉ p) : components p = [p.take DIRSIZ] := by
  have hsplit : p.splitOn SLASH = [p] := List.splitOnP_eq_singleton fun x hx => beq_false_of_ne fun hs : x = SLASH => h (hs ▸ hx)
  rw [components, hsplit, List.filter_cons_of_pos (by simpa using hne)]
  rfl

/-- an element and a slash -/
theorem components_elem (hne : p ≠ []) (h : SLASH ∉ p) (rest : List UInt8) :
    components (p ++ SLASH :: rest) = p.take DIRSIZ :: components rest := by
  have hsplit : (p ++ SLASH :: rest).splitOn SLASH = p :: rest.splitOn SLASH :=
    List.splitOnP_append_cons_of_forall_mem (fun x hx => beq_false_of_ne fun hs : x = SLASH => h (hs ▸ hx)) SLASH
      (beq_self_eq_true SLASH) rest
  rw [components, hsplit, List.filter_cons_of_pos (by simpa using hne), components]
  rfl

/-- a path that does not start with a slash and has no components is empty -/
theorem components_eq_nil (hhead : path.head? ≠ some SLASH) : components path = [] ↔ path = [] := by
  refine ⟨fun h => ?_, fun h => h ▸ rfl⟩
  cases path with
  | nil => rfl
  | cons c path =>
    exfalso
    have hc : c ≠ SLASH := by simpa using hhead
    by_cases hs : SLASH ∈ c :: path
    · obtain ⟨p, rest, heq, hp⟩ := List.eq_append_cons_of_mem hs
      have hne : p ≠ [] := by
        rintro rfl
        exact hc (List.cons.inj heq).1
      rw [heq, components_elem hne hp] at h
      cases h
    · rw [components_last (by simp) hs] at h
      cases h

theorem head_dropWhile (path : List UInt8) : (path.dropWhile (· = SLASH)).head? ≠ some SLASH := by
  intro h
  have hnot := List.head?_dropWhile_not (fun c : UInt8 => decide (c = SLASH)) path
  rw [h] at hnot
  simp at hnot

theorem skipelem_none (h : skipelem path = none) : components path = [] := by
  unfold skipelem at h
  rw [← components_dropWhile path]
  cases hp : path.dropWhile (· = SLASH) with
  | nil => rfl
  | cons c p =>
    rw [hp] at h
    cases h

/-- `skipelem` takes off the first component; what is left is empty if it was the last -/
theorem skipelem_some (h : skipelem path = some (name, rest)) :
    components path = name :: components rest ∧ (rest = [] ↔ components rest = []) := by
  unfold skipelem at h
  have hhead := head_dropWhile path
  rw [← components_dropWhile path]
  cases hp : path.dropWhile (· = SLASH) with
  | nil =>
    rw [hp] at h
    cases h
  | cons c p =>
    rw [hp] at h hhead
    have hc : c ≠ SLASH := by simpa using hhead
    cases h
    refine ⟨?_, (components_eq_nil (head_dropWhile _)).symm⟩
    rw [components_dropWhile]
    by_cases hs : SLASH ∈ c :: p
    · obtain ⟨e, r, heq, he⟩ := List.eq_append_cons_of_mem hs
      have hne : e ≠ [] := by
        rintro rfl
        exact hc (List.cons.inj heq).1
      have hall : ∀ x ∈ e, decide (x ≠ SLASH) = true := fun x hx => decide_eq_true fun hx' => he (hx' ▸ hx)
      rw [heq, components_elem hne he, List.takeWhile_append_of_pos hall, List.dropWhile_append_of_pos hall,
        List.takeWhile_cons_of_neg (by simp), List.dropWhile_cons_of_neg (by simp), List.append_nil, components_slash]
    · have hall : ∀ x ∈ c :: p, decide (x ≠ SLASH) = true := fun x hx => decide_eq_true fun hx' => hs (hx' ▸ hx)
      rw [components_last (by simp) hs, List.takeWhile_eq_self_iff.2 hall, List.dropWhile_eq_nil_iff.2 hall]
      rfl

/-! ## Following names -/

/-- the inode that a directory binds a name to -/
def St.binding (s : St) (d : ℕ) (name : Name) : Option ℕ := (s.lookup d name).map Prod.fst

/-- the names looked up one after the other, each in a directory -/
def St.follow (s : St) : ℕ → List Name → Option ℕ
  | ip, [] => some ip
  | ip, name :: names => if (s.node ip).type = .dir then (s.binding ip name).bind fun next => s.follow next names else none

/-- all names but the last; what they lead to is to be a directory -/
def St.followParent (s : St) (ip : ℕ) (names : List Name) : Option (ℕ × Name) :=
  names.getLast?.bind fun last => (s.follow ip names.dropLast).bind fun dp =>
    if (s.node dp).type = .dir then some (dp, last) else none

variable {sb : Superblock} {s : St} {ip : ℕ} {names : List Name} {E : Panic → Prop}

theorem followParent_one : s.followParent ip [name] = if (s.node ip).type = .dir then some (ip, name) else none := rfl

theorem followParent_cons (hne : names ≠ []) : s.followParent ip (name :: names) =
    if (s.node ip).type = .dir then (s.binding ip name).bind fun next => s.followParent next names else none := by
  unfold St.followParent
  rw [List.getLast?_cons_of_ne_nil hne, List.dropLast_cons_of_ne_nil hne]
  obtain ⟨last, hlast⟩ := Option.ne_none_iff_exists'.1 fun h => hne (List.getLast?_eq_none_iff.1 h)
  rw [hlast]
  simp only [Option.bind_some, St.follow]
  split
  · rw [Option.bind_assoc]
  · rfl

/-- where it fails: the names before lead to an inode that is no directory, or that has no such entry -/
theorem follow_eq_none : s.follow ip names = none ↔ ∃ before name after y, names = before ++ name :: after ∧
    s.follow ip before = some y ∧ ((s.node y).type ≠ .dir ∨ s.binding y name = none) := by
  induction names generalizing ip with
  | nil =>
    refine ⟨nofun, ?_⟩
    rintro ⟨before, name, after, y, heq, -⟩
    exact absurd heq (by simp)
  | cons name names ih =>
    constructor
    · intro h
      unfold St.follow at h
      split at h
      · rename_i hdir
        cases hb : s.binding ip name with
        | none => exact ⟨[], name, names, ip, rfl, rfl, .inr hb⟩
        | some next =>
          rw [hb, Option.bind_some] at h
          obtain ⟨before, name', after, y, rfl, hy, hfail⟩ := ih.1 h
          refine ⟨name :: before, name', after, y, rfl, ?_, hfail⟩
          unfold St.follow
          rw [if_pos hdir, hb, Option.bind_some]
          exact hy
      · rename_i hdir
        exact ⟨[], name, names, ip, rfl, rfl, .inl hdir⟩
    · rintro ⟨before, name', after, y, heq, hy, hfail⟩
      unfold St.follow
      cases before with
      | nil =>
        cases heq
        cases hy
        rcases hfail with hdir | hb
        · rw [if_neg hdir]
        · rw [hb]
          simp
      | cons first before =>
        cases heq
        unfold St.follow at hy
        split at hy
        · rename_i hdir
          rw [if_pos hdir]
          cases hb : s.binding ip name with
          | none => rfl
          | some next =>
            rw [hb, Option.bind_some] at hy
            exact ih.2 ⟨before, name', after, y, rfl, hy, hfail⟩
        · cases hy

/-- the loop of `namex` follows the components -/
theorem walk_follow (fuel : ℕ) (hfuel : path.length < fuel) :
    (s.walk false fuel ip path name).map Prod.fst = s.follow ip (components path) := by
  induction fuel generalizing ip path name with
  | zero => exact absurd hfuel (Nat.not_lt_zero _)
  | succ fuel ih =>
    unfold St.walk
    cases hskip : skipelem path with
    | none =>
      rw [skipelem_none hskip]
      rfl
    | some elem =>
      obtain ⟨name', path'⟩ := elem
      have hshort := skipelem_length hskip
      rw [(skipelem_some hskip).1, St.follow]
      by_cases hdir : (s.node ip).type = .dir
      · rw [if_pos hdir]
        simp only [hdir, ne_eq, not_true_eq_false, if_false, Bool.false_eq_true, false_and]
        unfold St.binding
        cases s.lookup ip name' with
        | none => rfl
        | some q => exact ih (by omega)
      · rw [if_neg hdir]
        simp only [ne_eq, hdir, not_false_eq_true, if_true]
        rfl

/-- and stops one level early for the parent -/
theorem walk_parent (fuel : ℕ) (hfuel : path.length < fuel) : s.walk true fuel ip path name = s.followParent ip (components path) := by
  induction fuel generalizing ip path name with
  | zero => exact absurd hfuel (Nat.not_lt_zero _)
  | succ fuel ih =>
    unfold St.walk
    cases hskip : skipelem path with
    | none =>
      rw [skipelem_none hskip]
      rfl
    | some elem =>
      obtain ⟨name', path'⟩ := elem
      have hshort := skipelem_length hskip
      obtain ⟨hcomp, hlast⟩ := skipelem_some hskip
      rw [hcomp]
      by_cases hend : path' = []
      · rw [hlast.1 hend, followParent_one]
        by_cases hdir : (s.node ip).type = .dir
        · rw [if_pos hdir]
          simp only [hdir, hend, ne_eq, not_true_eq_false, if_false, true_and, if_true]
        · rw [if_neg hdir]
          simp only [hdir, ne_eq, not_false_eq_true, if_true]
      · rw [followParent_cons fun h => hend (hlast.2 h)]
        simp only [hend, ne_eq, and_false, if_false]
        by_cases hdir : (s.node ip).type = .dir
        · rw [if_pos hdir, if_neg (not_not.2 hdir)]
          unfold St.binding
          cases s.lookup ip name' with
          | none => rfl
          | some q => exact ih (by omega)
        · rw [if_neg hdir, if_pos hdir]

/-! ## `namei` and `nameiparent` -/

/-- by itself the program returns `r` with nothing on the disk changed and no lock held, or it stops as the inode cache has no entry left -/
def Yields {α : Type} (p : FsM α) (r : α) (s : St) : Prop :=
  (∃ s', p.solo s [] = .ok (r, s', []) ∧ Quiet s s') ∨ (NINODE < s.live + 2 ∧ p.solo s [] = .error (.panic .iget))

/-- the two entries that a look-up needs are not there -/
def Full (s : St) (e : Panic) : Prop := e = .iget ∧ NINODE < s.live + 2

theorem Yields.of_swp {α : Type} {p : FsM α} {r : α}
    (h : Swp (Full s) False p (fun r' s' l' => (r' = r ∧ Quiet s s') ∧ (l' : Multiset ℕ) = 0) s []) : Yields p r s := by
  rcases swp_ends h with ⟨r', s', l', hp, ⟨hr, hq⟩, hl⟩ | ⟨e, hp, he, hfull⟩
  · rw [hr, (Multiset.coe_eq_zero l').1 hl] at hp
    exact .inl ⟨s', hp, hq⟩
  · exact .inr ⟨hfull, he ▸ hp⟩

variable {pid : Fin NPROC} {c : ℕ}

/-- in a tree where every entry leads to an inode, only the cache can stop a look-up -/
theorem namex_resolve (hwf : Wf sb s) (hwhole : s.Whole) (hclosed : s.Closed) (hcwd : s.cwd pid = some c)
    (hstart : (s.node (s.start pid path)).type ≠ .free) (parent : Bool) :
    Wp (Full s) (namex sb pid path parent) (fun r s' => r = s.resolve pid path parent ∧ Quiet s s') s := by
  have hpos := St.holds_start hcwd
  have hroom : Full s .iget ∨ s.live + Multiset.card (0 : Multiset ℕ) + 1 < NINODE := by
    rcases Nat.lt_or_ge NINODE (s.live + 2) with hfull | hroom
    · exact .inl ⟨rfl, hfull⟩
    · exact .inr hroom
  refine wp_mono (namex_counts (.inr hclosed) (.inr hwhole) hroom (.inr hstart) kept_nil kept_nil hpos hwf.safe (.inr rfl)) ?_
  intro r s' ⟨hr, hs'⟩
  exact ⟨hr, hs'.quiet⟩

/-- the parent is missing where there is no name, where the names before the last fail, or where it is no directory -/
theorem followParent_eq_none : s.followParent ip names = none ↔ names = [] ∨ ∃ before name after y,
    names = before ++ name :: after ∧ s.follow ip before = some y ∧ ((s.node y).type ≠ .dir ∨ after ≠ [] ∧ s.binding y name = none) := by
  rcases names.eq_nil_or_concat' with rfl | ⟨front, last, rfl⟩
  · exact ⟨fun _ => .inl rfl, fun _ => rfl⟩
  have hparent : s.followParent ip (front ++ [last]) = (s.follow ip front).bind fun dp =>
      if (s.node dp).type = .dir then some (dp, last) else none := by
    unfold St.followParent
    rw [List.getLast?_concat, List.dropLast_concat]
    rfl
  rw [hparent]
  constructor
  · intro h
    refine .inr ?_
    cases hf : s.follow ip front with
    | none =>
      obtain ⟨before, name, after, y, rfl, hy, hfail⟩ := follow_eq_none.1 hf
      refine ⟨before, name, after ++ [last], y, by simp, hy, hfail.imp_right fun hb => ⟨by simp, hb⟩⟩
    | some dp =>
      rw [hf, Option.bind_some] at h
      refine ⟨front, last, [], dp, rfl, hf, .inl fun hdir => ?_⟩
      rw [if_pos hdir] at h
      cases h
  · rintro (hnil | ⟨before, name, after, y, heq, hy, hfail⟩)
    · exact absurd hnil (by simp)
    rcases after.eq_nil_or_concat' with rfl | ⟨mid, last', rfl⟩
    · obtain ⟨rfl, heq⟩ := List.append_inj' heq rfl
      rw [hy, Option.bind_some, if_neg]
      exact hfail.resolve_right fun hand => hand.1 rfl
    · have hfront : front = before ++ name :: mid := by
        have hsnoc : before ++ name :: (mid ++ [last']) = (before ++ name :: mid) ++ [last'] := by simp
        rw [hsnoc] at heq
        exact (List.append_inj' heq rfl).1
      have hnone : s.follow ip front = none :=
        follow_eq_none.2 ⟨before, name, mid, y, hfront, hy, hfail.imp_right And.right⟩
      rw [hnone]
      rfl

/-- **Path resolution.** `namei` follows the components from the root or from the directory of the process, and fails exactly where an
    inode on the way is no directory or has no entry for the next component; `nameiparent` follows all but the last, which it returns
    with the directory -/
theorem path_resolution (hwf : Wf sb s) (hwhole : s.Whole) (hclosed : s.Closed) (hroot : (s.node ROOTINO).type ≠ .free)
    (hcwd : s.cwd pid = some c) (hc : (s.node c).type ≠ .free) (path : List UInt8) :
    ∃ start, start = (if path.head? = some SLASH then ROOTINO else c) ∧
      Yields (namei sb pid path) (s.follow start (components path)) s ∧
      (s.follow start (components path) = none ↔ ∃ before name after y, components path = before ++ name :: after ∧
        s.follow start before = some y ∧ ((s.node y).type ≠ .dir ∨ s.binding y name = none)) ∧
      Yields (nameiparent sb pid path) (s.followParent start (components path)) s ∧
      (s.followParent start (components path) = none ↔ components path = [] ∨ ∃ before name after y,
        components path = before ++ name :: after ∧ s.follow start before = some y ∧
          ((s.node y).type ≠ .dir ∨ after ≠ [] ∧ s.binding y name = none)) := by
  have hstart : s.start pid path = if path.head? = some SLASH then ROOTINO else c := by
    unfold St.start
    rw [hcwd, Option.getD_some]
  have hty : (s.node (s.start pid path)).type ≠ .free := by
    rw [hstart]
    split
    · exact hroot
    · exact hc
  refine ⟨s.start pid path, hstart, .of_swp (swp_of ?_ namei_keeps), follow_eq_none, .of_swp (swp_of ?_ namex_keeps),
    followParent_eq_none⟩
  · unfold namei
    refine wp_seq (namex_resolve hwf hwhole hclosed hcwd hty false) fun r s' ⟨hr, hs'⟩ => ?_
    refine ⟨?_, hs'⟩
    rw [hr]
    exact walk_follow _ (Nat.lt_succ_self _)
  · refine wp_mono (namex_resolve hwf hwhole hclosed hcwd hty true) fun r s' ⟨hr, hs'⟩ => ?_
    refine ⟨?_, hs'⟩
    rw [hr]
    exact walk_parent _ (Nat.lt_succ_self _)

/-- "..//./" leads from the root to the root, by two components -/
theorem path_resolution_root : Yields (namei rootSb 0 [46, 46, 47, 47, 46, 47]) (some 1) rootFs ∧
    Yields (nameiparent rootSb 0 [46, 46, 47, 47, 46, 47]) (some (1, [46])) rootFs := by
  have hdir : (rootFs.node 1).type ≠ .free := by decide
  have hcwd : rootFs.cwd 0 = some 1 := rfl
  have hclosed : rootFs.Closed := rootFs_named.closed rootFs_up
  obtain ⟨start, hstart, hnamei, -, hparent, -⟩ :=
    path_resolution rootFs_wf rootFs_named.whole hclosed hdir hcwd hdir [46, 46, 47, 47, 46, 47]
  subst hstart
  exact ⟨hnamei, hparent⟩

end Xv6.FileSys
