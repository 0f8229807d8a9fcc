/-
Calls as lists of changes to the disk. Looking up and locking leave the disk alone, so what a call does is the list of its
writes: entries of directories, link counts, new inodes and inodes that are given back.
-/
import Xv6.Fs.Names

namespace Xv6.FileSys

open Xv6.Core Xv6.Core.Prog
/-! ## Changes -/

/-- a change to the disk -/
inductive Edit
  /-- bytes of a file -/
  | write (x off : ℕ) (src : List UInt8)
  /-- a new entry of a directory, at the first empty place -/
  | enter (dp : ℕ) (name : Name) (inum : ℕ)
  /-- the entry at an offset is cleared -/
  | erase (dp off : ℕ)
  /-- the link count changes by `n` -/
  | link (x : ℕ) (n : ℤ)
  /-- a free inode gets a type -/
  | make (x : ℕ) (type : Ty)
  /-- a new inode gets its device numbers and one link -/
  | init (x : ℕ) (major minor : ℤ)
  /-- an inode without links is given back -/
  | free (x : ℕ)

/-- the link count changed by `n` -/
def Dinode.addLink (d : Dinode) (n : ℤ) : Dinode := { d with nlink := short (d.nlink + n) }

/-- a new inode with its device numbers and one link -/
def Dinode.init (d : Dinode) (major minor : ℤ) : Dinode := { d with major := major, minor := minor, nlink := 1 }

/-- from `s` the change leads to `s'` -/
def Edit.Does (sb : Superblock) (s s' : St) : Edit → Prop
  | .write x off src => s.Loaded x ∧ off ≤ (s.core x).size ∧ Written sb x off src s s'
  | .enter dp name inum => s.Loaded dp ∧ (s.core dp).type = .dir ∧ s.lookup dp name = none ∧
      Written sb dp (s.emptyOff dp) (Dirent.bytes ⟨inum, strncpy name⟩) s s'
  | .erase dp off => s.Loaded dp ∧ (s.core dp).type = .dir ∧ off ∈ offs (s.core dp).size ∧
      Written sb dp off (Dirent.bytes ⟨0, []⟩) s s'
  | .link x n => s.Loaded x ∧ s' = s.update sb x ((s.core x).addLink n)
  | .make x type => x ∈ List.range' 1 (sb.ninodes - 1) ∧ (s.dinode x).type = .free ∧ s' = s.typed sb x type
  | .init x major minor => s.Loaded x ∧ s' = s.update sb x ((s.core x).init major minor)
  | .free x => s.Loaded x ∧ (s.core x).nlink = 0 ∧ (s.icache x).ref = 1 ∧ Freed sb x s s'

/-- the changes lead from one state to the other; between them only the inode cache changes -/
def Edits (sb : Superblock) : List Edit → St → St → Prop
  | [], s, s' => Quiet s s'
  | e :: es, s, s' => ∃ s₁ s₂, Quiet s s₁ ∧ Good sb ∅ s₁ ∧ e.Does sb s₁ s₂ ∧ Edits sb es s₂ s'

variable {sb : Superblock} {s₀ s s' s'' : St} {x y dp ip off : ℕ} {H : ℕ → ℕ} {R : Multiset ℕ} {L F : List ℕ}
  {name : Name} {pid : Fin NPROC} {e : Edit} {es : List Edit}

theorem Edits.quiet (h : Edits sb es s s') (hq : Quiet s' s'') : Edits sb es s s'' := by
  induction es generalizing s with
  | nil => exact Quiet.trans h hq
  | cons e es ih =>
    obtain ⟨s₁, s₂, h₁, hgood, h₂, h3⟩ := h
    exact ⟨s₁, s₂, h₁, hgood, h₂, ih h3⟩

theorem Edits.snoc (h : Edits sb es s s') (hgood : Good sb ∅ s') (he : e.Does sb s' s'') : Edits sb (es ++ [e]) s s'' := by
  induction es generalizing s with
  | nil => exact ⟨s', s'', h, hgood, he, .refl s''⟩
  | cons e' es ih =>
    obtain ⟨s₁, s₂, h₁, hgood, h₂, h3⟩ := h
    exact ⟨s₁, s₂, h₁, hgood, h₂, ih h3⟩

/-- no change touches the tables -/
theorem Edit.Does.tables (h : e.Does sb s s') : s'.cwd = s.cwd ∧ s'.file = s.file ∧ s'.ofile = s.ofile := by
  cases e with
  | write x off src => exact ⟨h.2.2.cwd, h.2.2.file, h.2.2.ofile⟩
  | enter dp name inum => exact ⟨h.2.2.2.cwd, h.2.2.2.file, h.2.2.2.ofile⟩
  | erase dp off => exact ⟨h.2.2.2.cwd, h.2.2.2.file, h.2.2.2.ofile⟩
  | link x n =>
    obtain ⟨-, rfl⟩ := h
    exact ⟨rfl, rfl, rfl⟩
  | make x type =>
    obtain ⟨-, -, rfl⟩ := h
    exact ⟨rfl, rfl, rfl⟩
  | init x major minor =>
    obtain ⟨-, rfl⟩ := h
    exact ⟨rfl, rfl, rfl⟩
  | free x => exact ⟨h.2.2.2.cwd, h.2.2.2.file, h.2.2.2.ofile⟩

theorem Edits.tables (h : Edits sb es s s') : s'.cwd = s.cwd ∧ s'.file = s.file ∧ s'.ofile = s.ofile := by
  induction es generalizing s with
  | nil => exact ⟨Quiet.cwd h, Quiet.file h, Quiet.ofile h⟩
  | cons e es ih =>
    obtain ⟨s₁, s₂, h₁, -, h₂, h3⟩ := h
    obtain ⟨hc, hf, ho⟩ := h₂.tables
    obtain ⟨hc', hf', ho'⟩ := ih h3
    exact ⟨hc'.trans (hc.trans h₁.cwd), hf'.trans (hf.trans h₁.file), ho'.trans (ho.trans h₁.ofile)⟩

/-! ## What paths and names depend on -/

theorem Quiet.dirent (h : Quiet s s') : s'.dirent = s.dirent := by
  funext dp off
  unfold St.dirent
  rw [h.byte]

theorem Quiet.lookup (h : Quiet s s') : s'.lookup = s.lookup := by
  funext dp name
  unfold St.lookup
  rw [h.dirent, h.node]

theorem Quiet.emptyOff (h : Quiet s s') : s'.emptyOff = s.emptyOff := by
  funext dp
  unfold St.emptyOff
  rw [h.dirent, h.node]

/-- a path goes through the types of inodes and the entries of directories -/
theorem walk_congr (hty : ∀ y, (s'.node y).type = (s.node y).type) (hlook : s'.lookup = s.lookup) (parent : Bool)
    (fuel : ℕ) : s'.walk parent fuel = s.walk parent fuel := by
  induction fuel with
  | zero => rfl
  | succ fuel ih =>
    funext ip path name
    unfold St.walk
    rw [ih, hlook, hty]

theorem resolve_congr (hty : ∀ y, (s'.node y).type = (s.node y).type) (hlook : s'.lookup = s.lookup)
    (hcwd : s'.cwd = s.cwd) : s'.resolve = s.resolve := by
  funext pid path parent
  unfold St.resolve St.start
  rw [walk_congr hty hlook, hcwd]

theorem Quiet.resolve (h : Quiet s s') : s'.resolve = s.resolve :=
  resolve_congr (fun y => by rw [h.node]) h.lookup h.cwd

/-- link counts and device numbers do not matter -/
theorem resolve_update {d : Dinode} (hl : s.Loaded x) (hty : d.type = (s.core x).type) (haddr : d.addrs = (s.core x).addrs)
    (hsize : d.size = (s.core x).size) : (s.update sb x d).resolve = s.resolve := by
  have hnode : ∀ y, ((s.update sb x d).node y).type = (s.node y).type ∧
      ((s.update sb x d).node y).size = (s.node y).size := by
    intro y
    by_cases hy : y = x
    · subst hy
      rw [St.node_of_loaded (St.loaded_update.2 hl), St.core_update, St.node_of_loaded hl]
      exact ⟨hty, hsize⟩
    · have heq : (s.update sb x d).node y = s.node y :=
        St.node_congr (St.icache_setInode hy) (update_of_ne hy ..)
      rw [heq]
      exact ⟨rfl, rfl⟩
  have hbyte : ∀ y, (s.update sb x d).byte y = s.byte y := by
    intro y
    funext o
    unfold St.byte
    rw [St.slot_update hl hty haddr]
    rfl
  refine resolve_congr (fun y => (hnode y).1) ?_ rfl
  funext dp name
  unfold St.lookup St.dirent
  rw [hbyte, (hnode dp).2]

/-! ## While a call runs -/

/-- every panic but "freeing free block" -/
def NoBfree (e : Panic) : Prop := e ≠ .bfree

instance : DecidablePred NoBfree := fun e => inferInstanceAs (Decidable (e ≠ .bfree))

/-- a call may stop with any panic but "freeing free block" and "unlink: nlink < 1" -/
class Allows (E : Panic → Prop) : Prop where
  all : ∀ e, e ≠ .bfree ∧ e ≠ .unlinkNlink → E e

instance : Allows NoBfree := ⟨fun _ he => he.1⟩

theorem allowed {E : Panic → Prop} [Allows E] {e : Panic} (he : e ≠ .bfree ∧ e ≠ .unlinkNlink) : E e := Allows.all e he

/-- the call has made the changes `es` since `s₀`, and owns what `Safe` says -/
structure Running (sb : Superblock) (s₀ : St) (es : List Edit) (H : ℕ → ℕ) (R : Multiset ℕ) (L F : List ℕ) (s : St) :
    Prop where
  safe : Safe sb s H R L F s
  edits : Edits sb es s₀ s

/-- the last reference to `x` may give it back, if nobody else holds it -/
def MayFree (H : ℕ → ℕ) (x : ℕ) (fr : List Edit) : Prop := fr = [] ∨ (fr = [.free x] ∧ H x = 0)

-- what stops a call is a parameter of this section, also where nothing does
set_option linter.unusedSectionVars false

variable {E : Panic → Prop} [Allows E]

theorem lookable (s : St) : Lookable E s := ⟨.inl (allowed (by decide)), .inl (allowed (by decide)), allowed (by decide)⟩

theorem writable (s : St) : Writable E s := ⟨allowed (by decide), allowed (by decide), .inl (allowed (by decide)), .inl (allowed (by decide)),
  allowed (by decide)⟩

theorem kept_nil : Kept H R [] := nofun

theorem kept_self : Kept H {x} [x] := fun _ hy => .inr (Multiset.mem_singleton.2 (List.mem_singleton.1 hy))

variable {L' : List ℕ}

/-- a part that leaves the disk alone -/
theorem Running.step {R' : Multiset ℕ} (h : Running sb s₀ es H R L F s) (hs : Safe sb s H R' L' F s') :
    Running sb s₀ es H R' L' F s' :=
  ⟨hs.base, h.edits.quiet hs.quiet⟩

theorem Running.mono (h : Running sb s₀ es H R L F s) (hL : ∀ y ∈ L', y ∈ L) :
    Running sb s₀ es H R L' F s :=
  ⟨h.safe.mono hL, h.edits⟩

/-- before the first change -/
theorem Running.quiet (h : Running sb s₀ [] H R L F s) : Quiet s₀ s := h.edits

theorem Running.ilock (h : Running sb s₀ es H R L F s) (hx : 0 < H x ∨ x ∈ R) :
    Wp E (ilock x) (fun _ s' => Running sb s₀ es H R (x :: L) F s') s :=
  wp_mono (ilock_spec (.inl (allowed (by decide))) h.safe hx) fun _ _ hs' => h.step hs'

theorem Running.iunlock (h : Running sb s₀ es H R L F s) (hx : 0 < H x ∨ x ∈ R) :
    Wp E (iunlock x) (fun _ s' => Running sb s₀ es H R L F s') s :=
  wp_mono (iunlock_spec h.safe hx) fun _ _ hs' => h.step hs'

/-- an inode that was only looked at -/
theorem Running.iunlockputQuiet (h : Running sb s₀ es H (x ::ₘ R) (x :: L) F s) (hF : Kept H R F) (hL : Kept H R L) :
    Wp E (iunlockput sb x) (fun _ s' => Running sb s₀ es H R L F s') s :=
  wp_mono (iunlockput_quiet h.safe hF hL) fun _ _ hs' => h.step hs'

variable {F' : List ℕ}

theorem Running.iput (h : Running sb s₀ es H (x ::ₘ R) L F s) (hx : x ∈ F → x ∈ L)
    (hL : ∀ y ∈ L', y ∈ L ∧ (y = x → 0 < H x ∨ x ∈ R)) (hF : ∀ y ∈ F, (y = x → x ∈ R) → y ∈ F') :
    Wp E (iput sb x) (fun _ s' => ∃ fr, MayFree H x fr ∧ Running sb s₀ (es ++ fr) H R L' F' s') s := by
  refine wp_mono (iput_any h.safe hx hL hF) fun _ s' ⟨hsafe, hs'⟩ => ?_
  rcases hs' with hq | ⟨hl, hlink, href, hH, hfreed⟩
  · refine ⟨[], .inl rfl, hsafe, ?_⟩
    rw [List.append_nil]
    exact h.edits.quiet hq
  · exact ⟨[.free x], .inr ⟨rfl, hH⟩, hsafe, h.edits.snoc h.safe.good ⟨hl, hlink, href, hfreed⟩⟩

theorem Running.iunlockput (h : Running sb s₀ es H (x ::ₘ R) L F s) (hx : x ∈ F → x ∈ L)
    (hL : ∀ y ∈ L', y ∈ L ∧ (y = x → 0 < H x ∨ x ∈ R)) (hF : ∀ y ∈ F, (y = x → x ∈ R) → y ∈ F') :
    Wp E (iunlockput sb x) (fun _ s' => ∃ fr, MayFree H x fr ∧ Running sb s₀ (es ++ fr) H R L' F' s') s :=
  wp_seq (h.iunlock (.inr (Multiset.mem_cons_self ..))) fun _ _ hs1 => hs1.iput hx hL hF

/-- the only inode of the call goes, whatever has happened to its links -/
theorem Running.iputOnly (h : Running sb s₀ es H {x} L F s) (hx : x ∈ F → x ∈ L) (hF : ∀ y ∈ F, y = x) :
    Wp E (FileSys.iput sb x) (fun _ s' => ∃ fr, MayFree H x fr ∧ Running sb s₀ (es ++ fr) H 0 [] [] s') s :=
  Running.iput h hx nofun fun y hy hR => absurd (hR (hF y hy)) (Multiset.notMem_zero x)

theorem Running.iunlockputOnly (h : Running sb s₀ es H {x} L F s) (hx : x ∈ F → x ∈ L) (hF : ∀ y ∈ F, y = x) :
    Wp E (FileSys.iunlockput sb x) (fun _ s' => ∃ fr, MayFree H x fr ∧ Running sb s₀ (es ++ fr) H 0 [] [] s') s :=
  wp_seq (h.iunlock (.inr (Multiset.mem_singleton_self x))) fun _ _ hs1 => hs1.iputOnly hx hF

/-- the only inode of the call, which was only looked at -/
theorem Running.iunlockputLooked (h : Running sb s₀ es H {x} (x :: L) [] s) :
    Wp E (FileSys.iunlockput sb x) (fun _ s' => Running sb s₀ es H 0 [] [] s') s :=
  Running.iunlockputQuiet (L := []) (h.mono fun y hy => by
    rw [List.mem_singleton.1 hy]
    exact List.mem_cons_self) kept_nil kept_nil

theorem Running.addLink (h : Running sb s₀ es H R L F s) (hx : x ∈ L) (n : ℤ)
    (hF : ∀ y, y ≠ x → y ∈ F → y ∈ F') (hlink : short ((s.node x).nlink + n) = 0 → 0 < H x ∨ x ∈ F') :
    Wp E (addLink sb x n) (fun _ s' => Running sb s₀ (es ++ [.link x n]) H R L F' s') s := by
  have hl := h.safe.loaded x hx
  rw [St.node_of_loaded hl] at hlink
  exact ⟨h.safe.update hx rfl rfl rfl (short_idem _) hF hlink, h.edits.snoc h.safe.good ⟨hl, rfl⟩⟩

/-- the inode is the call's business until it is let go -/
theorem Running.addLinkOpen (h : Running sb s₀ es H R L F s) (hx : x ∈ L) (n : ℤ) :
    Wp E (FileSys.addLink sb x n) (fun _ s' => Running sb s₀ (es ++ [.link x n]) H R L (x :: F) s') s :=
  h.addLink hx n (fun _ _ hy => List.mem_cons_of_mem x hy) fun _ => .inr List.mem_cons_self

/-- `dirlookup`, also where it panics because there is no directory -/
theorem Running.dirlookup (h : Running sb s₀ es H R L F s) (hx : x ∈ L) :
    Wp E (dirlookup sb x name) (fun r s' => (r = s.lookup x name ∧ (s.node x).type = .dir) ∧
      Running sb s₀ es H (found r R) L F s') s := by
  by_cases hty : (s.node x).type = .dir
  · exact wp_mono (dirlookup_spec (.inl (allowed (by decide))) (allowed (by decide)) h.safe hx hty) fun _ _ hs' =>
      ⟨⟨hs'.1, hty⟩, h.step hs'.2⟩
  · unfold FileSys.dirlookup
    refine wp_read.2 ?_
    rw [h.safe.core hx, if_neg hty]
    exact wp_panic.2 (allowed (by decide))

theorem Running.dirlink (hsb : sb.Ok) (h : Running sb s₀ es H R L F s) (hx : x ∈ L) (hF : Kept H R F) (hL : Kept H R L)
    (inum : ℕ) : Wp E (dirlink sb x name inum) (fun r s' =>
      if r then Running sb s₀ (es ++ [.enter x name inum]) H R L F s' else Running sb s₀ es H R L F s') s := by
  by_cases hty : (s.node x).type = .dir
  · refine wp_mono (dirlink_spec hsb (writable s) h.safe hx hty hF hL) fun r s' hs' => ?_
    rcases hs' with ⟨rfl, -, hs'⟩ | ⟨rfl, hnone, hs', s₁, hq, hs1, hw⟩
    · exact h.step hs'
    · have hl := hs1.loaded x hx
      have hdir : (s₁.core x).type = .dir := by
        rw [hs1.core hx]
        exact hty
      refine ⟨hs', (h.edits.quiet hq).snoc hs1.good ⟨hl, hdir, ?_, ?_⟩⟩
      · rw [hq.lookup]
        exact hnone
      · rw [hq.emptyOff]
        exact hw
  · unfold FileSys.dirlink
    refine wp_bind.2 ?_
    unfold FileSys.dirlookup
    refine wp_read.2 ?_
    rw [h.safe.core hx, if_neg hty]
    exact wp_panic.2 (allowed (by decide))

theorem Running.namex (h : Running sb s₀ es H R L F s) (hcwd : 0 < H ((s₀.cwd pid).getD 0)) (hF : Kept H R F)
    (hL : Kept H R L) (path : List UInt8) (parent : Bool) : Wp E (namex sb pid path parent) (fun r s' => r = s.resolve pid path parent ∧
      Running sb s₀ es H (led r R) L F s') s := by
  rw [← h.edits.tables.1] at hcwd
  exact wp_mono (namex_spec (lookable s) (.inl (allowed (by decide))) hF hL hcwd h.safe) fun _ _ hs' => ⟨hs'.1, h.step hs'.2⟩

theorem Running.namei (h : Running sb s₀ es H R L F s) (hcwd : 0 < H ((s₀.cwd pid).getD 0)) (hF : Kept H R F)
    (hL : Kept H R L) (path : List UInt8) : Wp E (namei sb pid path) (fun r s' => r = (s.resolve pid path false).map Prod.fst ∧
      Running sb s₀ es H (r.elim R (· ::ₘ R)) L F s') s := by
  rw [← h.edits.tables.1] at hcwd
  exact wp_mono (namei_spec (lookable s) (.inl (allowed (by decide))) hF hL hcwd h.safe) fun _ _ hs' => ⟨hs'.1, h.step hs'.2⟩

/-! ## The ends of calls -/

/-- after `begin_op` -/
def St.begun (s : St) : St := { s with outstanding := s.outstanding + 1, logged := ∅ }

/-- after `end_op` -/
def St.ended (s : St) : St := { s with outstanding := s.outstanding - 1 }

/-- the file system behind the tables is the same -/
theorem Safe.tables {s₀ : St} (h : Safe sb s₀ H R L F s) (hc : s'.icache = s.icache) (hd : s'.dinode = s.dinode)
    (hu : s'.used = s.used) (hdata : s'.data = s.data) : Safe sb s' H R L F s' := by
  have hnode : ∀ y, s'.node y = s.node y := fun y => St.node_congr (congrFun hc y) (congrFun hd y)
  refine ⟨h.good.of_node hnode hdata hu fun y hl => ?_, .refl s', fun y => ?_, fun y hy => ?_, fun y => ?_, fun y => ?_⟩
  · have hcore : s'.core y = s.core y := congrArg Inode.d (congrFun hc y)
    rw [hcore, hd]
    exact h.loaded_ok ((St.loaded_congr (congrFun hc y)).1 hl)
  · rw [hc]
    exact h.ref y
  · exact (St.loaded_congr (congrFun hc y)).2 (h.loaded y hy)
  · rw [hnode, St.loaded_congr (congrFun hc y)]
    exact h.linked y
  · rw [hnode]
    exact h.nlink y

theorem resolve_begun : s.begun.resolve = s.resolve := resolve_congr (fun _ => rfl) rfl rfl

theorem Safe.begin (h : Safe sb s₀ H R L F s) : Running sb s.begun [] H R L F s.begun :=
  ⟨h.tables rfl rfl rfl rfl, .refl _⟩

/-- the call has made the changes `es` between `begin_op` and `end_op` and has let everything go -/
def Ends (sb : Superblock) (s : St) (H : ℕ → ℕ) (es : List Edit) (s' : St) : Prop :=
  ∃ s₁, Running sb s.begun es H 0 [] [] s₁ ∧ s' = s₁.ended

theorem Running.endOp (h : Running sb s.begun es H 0 [] [] s') : Wp E endOp (fun _ => Ends sb s H es) s' :=
  ⟨s', h, rfl⟩

/-- the call ends with a result -/
theorem Running.endWith {α : Type} {P : α → List Edit → Prop} (h : Running sb s.begun es H 0 [] [] s') (r : α)
    (hr : P r es) : Wp E (do
      FileSys.endOp
      return r) (fun r s'' => ∃ es, P r es ∧ Ends sb s H es s'') s' :=
  wp_seq h.endOp fun _ _ hs => ⟨es, hr, hs⟩

/-! ## `link` -/

theorem short_back {n : ℤ} (h : short n = n) : short (short (n + 1) + -1) = n := by
  unfold short at *
  omega

/-- what one change of a link count leaves -/
theorem Edits.nlink_link {n : ℤ} (h : Edits sb [.link x n] s s') : (s'.node x).nlink = short ((s.node x).nlink + n) := by
  obtain ⟨s₁, s₂, hq, -, ⟨hl, rfl⟩, hq'⟩ := h
  rw [Quiet.node hq', St.node_of_loaded (St.loaded_update.2 hl), St.core_update, ← hq.node, St.node_of_loaded hl]
  rfl

theorem Edits.resolve_link {n : ℤ} (h : Edits sb [.link x n] s s') : s'.resolve = s.resolve := by
  obtain ⟨s₁, s₂, hq, -, ⟨hl, rfl⟩, hq'⟩ := h
  have hup : (s₁.update sb x ((s₁.core x).addLink n)).resolve = s₁.resolve := resolve_update hl rfl rfl rfl
  have hq' : Quiet (s₁.update sb x ((s₁.core x).addLink n)) s' := hq'
  rw [hq'.resolve, hup, hq.resolve]

/-- what `link` does to the disk: nothing, or a link count up and down again, or a new entry for the inode -/
inductive LinkEdits (H : ℕ → ℕ) (s : St) (pid : Fin NPROC) (old new : List UInt8) : ℤ → List Edit → Prop
  | none : LinkEdits H s pid old new (-1) []
  | undone (x : ℕ) : LinkEdits H s pid old new (-1) [.link x 1, .link x (-1)]
  | done (x dp : ℕ) (name : Name) (fr : List Edit) (hold : (s.resolve pid old false).map Prod.fst = some x)
      (hty : (s.node x).type ≠ .dir) (hfree : (s.node x).type ≠ .free) (hnew : s.resolve pid new true = some (dp, name))
      (hfr : MayFree H x fr) :
      LinkEdits H s pid old new 0 ([.link x 1, .enter dp name x] ++ fr)

variable {old new : List UInt8}

theorem linkBad_spec (h : Running sb s.begun [.link x 1] H {x} [x] [x] s')
    (hzero : (s.node x).nlink = 0 → 0 < H x) (hshort : short (s.node x).nlink = (s.node x).nlink) :
    Wp E (linkBad sb x) (fun r s'' => ∃ es, LinkEdits H s pid old new r es ∧ Ends sb s H es s'') s' := by
  have hlink : (s'.node x).nlink = short ((s.node x).nlink + 1) := h.edits.nlink_link
  unfold FileSys.linkBad
  refine wp_seq (h.ilock (.inr (Multiset.mem_singleton_self x))) fun _ s₁ hs1 => ?_
  have hlink1 : (s₁.node x).nlink = short ((s.node x).nlink + 1) := hs1.edits.nlink_link
  have hdown : Wp E (addLink sb x (-1)) (fun _ s'' =>
      Running sb s.begun [.link x 1, .link x (-1)] H {x} [x, x] [] s'') s₁ := by
    refine hs1.addLink List.mem_cons_self (-1) (fun y hy hmem => absurd (List.mem_singleton.1 hmem) hy) fun hback => ?_
    rw [hlink1, short_back hshort] at hback
    exact .inl (hzero hback)
  refine wp_seq hdown fun _ s₂ hs2 => ?_
  refine wp_seq hs2.iunlockputLooked fun _ s3 hs3 => ?_
  exact hs3.endWith (-1) (LinkEdits.undone x)

theorem linkNew_spec (hsb : sb.Ok) (h : Running sb s.begun [.link x 1] H {x} [x] [x] s')
    (hzero : (s.node x).nlink = 0 → 0 < H x) (hshort : short (s.node x).nlink = (s.node x).nlink)
    (hcwd : 0 < H ((s.cwd pid).getD 0)) (hold : (s.resolve pid old false).map Prod.fst = some x)
    (hty : (s.node x).type ≠ .dir) (hfree : (s.node x).type ≠ .free) :
    Wp E (linkNew sb pid x new) (fun r s'' => ∃ es, LinkEdits H s pid old new r es ∧ Ends sb s H es s'') s' := by
  unfold FileSys.linkNew
  refine wp_seq (h.namex hcwd kept_self kept_self new true) fun r s₁ ⟨hr, hs1⟩ => ?_
  rw [h.edits.resolve_link, resolve_begun] at hr
  cases r with
  | none => exact linkBad_spec hs1 hzero hshort
  | some q =>
    have hs1 : Running sb s.begun [.link x 1] H (q.1 ::ₘ {x}) [x] [x] s₁ := hs1
    have hF : Kept H (q.1 ::ₘ {x}) [x] := kept_self.cons
    have hL : Kept H (q.1 ::ₘ {x}) [q.1, x] := by
      intro y hy
      rcases List.mem_cons.1 hy with rfl | hy
      · exact .inr (Multiset.mem_cons_self ..)
      · exact hF y hy
    refine wp_seq (hs1.ilock (.inr (Multiset.mem_cons_self ..))) fun _ s₂ hs2 => ?_
    refine wp_seq (hs2.dirlink hsb List.mem_cons_self hF hL x) fun r s3 hs3 => ?_
    cases r with
    | true =>
      have hs3 : Running sb s.begun [.link x 1, .enter q.1 q.2 x] H (q.1 ::ₘ {x}) [q.1, x] [x] s3 := hs3
      refine wp_seq (hs3.iunlockputQuiet kept_self kept_self) fun _ s4 hs4 => ?_
      refine wp_seq (hs4.iputOnly id fun y hy => List.mem_singleton.1 hy) fun _ s5 ⟨fr, hfr, hs5⟩ => ?_
      exact hs5.endWith 0 (LinkEdits.done x q.1 q.2 fr hold hty hfree hr.symm hfr)
    | false =>
      have hs3 : Running sb s.begun [.link x 1] H (q.1 ::ₘ {x}) [q.1, x] [x] s3 := hs3
      refine wp_seq (hs3.iunlockputQuiet kept_self kept_self) fun _ s4 hs4 => ?_
      exact linkBad_spec hs4 hzero hshort

/-- **`link`** -/
theorem sysLink_spec (hsb : sb.Ok) (h : Safe sb s₀ H 0 [] [] s) (hcwd : 0 < H ((s.cwd pid).getD 0)) :
    Wp E (sysLink sb pid (some old) (some new)) (fun r s' => ∃ es, LinkEdits H s pid old new r es ∧ Ends sb s H es s') s := by
  unfold sysLink
  refine wp_write.2 ?_
  have hs1 : Running sb s.begun [] H 0 [] [] s.begun := h.begin
  refine wp_seq (hs1.namei hcwd kept_nil kept_nil old) fun r s₂ ⟨hr, hs2⟩ => ?_
  rw [resolve_begun] at hr
  cases r with
  | none => exact hs2.endWith (-1) LinkEdits.none
  | some x =>
    have hs2 : Running sb s.begun [] H {x} [] [] s₂ := hs2
    refine wp_seq (hs2.ilock (.inr (Multiset.mem_singleton_self x))) fun _ s3 hs3 => wp_read.2 ?_
    have hcore : s3.core x = s.node x := by
      rw [hs3.safe.core List.mem_cons_self, hs3.quiet.node]
      rfl
    rw [hcore]
    split
    · refine wp_seq hs3.iunlockputLooked fun _ s4 hs4 => ?_
      exact hs4.endWith (-1) LinkEdits.none
    · rename_i hty
      refine wp_seq (hs3.addLinkOpen List.mem_cons_self 1) fun _ s4 hs4 => ?_
      refine wp_seq (hs4.iunlock (.inr (Multiset.mem_singleton_self x))) fun _ s5 hs5 => ?_
      have hfree : (s.node x).type ≠ .free := hcore ▸ hs3.safe.good.typ x (hs3.safe.loaded x List.mem_cons_self)
      refine linkNew_spec hsb hs5 (fun hzero => ?_) (h.nlink x) hcwd hr.symm hty hfree
      exact ((h.linked x hfree hzero).resolve_right List.not_mem_nil).1

/-! ## `unlink` -/

theorem Written.nlink_type {src : List UInt8} (h : Written sb x off src s s') (hl : s.Loaded x) (y : ℕ) :
    (s'.node y).nlink = (s.node y).nlink ∧ (s'.node y).type = (s.node y).type := by
  by_cases hy : y = x
  · subst hy
    rw [St.node_of_loaded ((h.loaded y).2 hl), h.core, St.node_of_loaded hl]
    exact ⟨rfl, rfl⟩
  · rw [St.node_congr (h.cache y hy) (h.disk y hy)]
    exact ⟨rfl, rfl⟩

theorem Running.erase (hsb : sb.Ok) (h : Running sb s₀ es H R L F s) (hx : dp ∈ L) (hty : (s.node dp).type = .dir)
    (hoff : off ∈ offs (s.node dp).size) : Wp E (writei sb dp (Dirent.bytes ⟨0, []⟩) off) (fun r s' => r = none ∨
      (r = some DESIZE ∧ (∀ y, (s'.node y).type = (s.node y).type) ∧ Running sb s₀ (es ++ [.erase dp off]) H R L F s')) s := by
  have hl := h.safe.loaded dp hx
  rw [St.node_of_loaded hl] at hty hoff
  have hdev : (s.core dp).type ≠ .dev := by
    rw [hty]
    decide
  refine wp_mono (writei_spec hsb h.safe.good hl hdev (.inl (allowed (by decide)))) fun r s' hs' => ?_
  rcases hs' with ⟨-, rfl, -⟩ | ⟨-, rfl, hw⟩
  · exact .inl rfl
  · rw [Dirent.length_bytes]
    exact .inr ⟨rfl, fun y => (hw.nlink_type hl y).2, h.safe.written hx hw, h.edits.snoc h.safe.good ⟨hl, hty, hoff, hw⟩⟩

theorem Running.emptyFrom (h : Running sb s₀ es H R L F s) (hx : x ∈ L) (hty : (s.node x).type = .dir) (os : List ℕ)
    (hos : ∀ off ∈ os, off ∈ offs (s.node x).size) : Wp E (emptyFrom sb x os) (fun r s' =>
      (r = true → ∀ off ∈ os, (s.dirent x off).inum = 0) ∧ s' = s) s := by
  induction os with
  | nil => exact ⟨nofun, rfl⟩
  | cons off os ih =>
    have hoff := hos off List.mem_cons_self
    unfold FileSys.emptyFrom
    refine wp_seq (readDirent_spec h.safe hx hty (.inl (allowed (by decide))) (mem_offs hoff)) fun de s' ⟨hde, hs'⟩ => ?_
    subst hde hs'
    split
    · rename_i hzero
      refine wp_mono (ih fun o ho => hos o (List.mem_cons_of_mem off ho)) fun r s' ⟨hr, hs'⟩ => ⟨fun htrue o ho => ?_, hs'⟩
      rcases List.mem_cons.1 ho with rfl | ho
      · exact hzero
      · exact hr htrue o ho
    · exact ⟨fun hfalse => absurd hfalse Bool.false_ne_true, rfl⟩

/-- nothing but "." and ".." -/
def St.DirEmpty (s : St) (x : ℕ) : Prop := ∀ off ∈ (offs (s.node x).size).drop 2, (s.dirent x off).inum = 0

/-- what is named other than "." and ".." has a link -/
def St.NamedLinked (s : St) : Prop := ∀ dp ip off name, (s.node dp).type = .dir → s.lookup dp name = some (ip, off) →
  ¬ nameEq name DOT = true → ¬ nameEq name DOTDOT = true → 1 ≤ (s.node ip).nlink

/-- what `unlink` does to the disk: nothing, or the entry goes, and links with it -/
inductive UnlinkEdits (H : ℕ → ℕ) (s : St) (pid : Fin NPROC) (path : List UInt8) : ℤ → List Edit → Prop
  | none : UnlinkEdits H s pid path (-1) []
  | done (dp ip off : ℕ) (name : Name) (f₁ f₂ : List Edit) (hdir : s.resolve pid path true = some (dp, name))
      (hdot : ¬ nameEq name DOT = true) (hdots : ¬ nameEq name DOTDOT = true) (hdp : (s.node dp).type = .dir)
      (hent : s.lookup dp name = some (ip, off)) (hlink : 1 ≤ (s.node ip).nlink)
      (hempty : (s.node ip).type = .dir → s.DirEmpty ip) (h₁ : MayFree H dp f₁) (h₂ : MayFree H ip f₂) :
      UnlinkEdits H s pid path 0 ([.erase dp off] ++ (if (s.node ip).type = .dir then [.link dp (-1)] else []) ++ f₁ ++
        [.link ip (-1)] ++ f₂)

variable {path : List UInt8}

/-- the end of `unlink`, from the state in which the links of the directory are settled -/
theorem unlinkEnd_spec (h : Running sb s.begun es H (ip ::ₘ {dp}) [ip, dp] F s') (hF : ∀ y ∈ F, y = dp) :
    Wp E (do
      iunlockput sb dp
      addLink sb ip (-1)
      iunlockput sb ip
      endOp
      return (0 : ℤ)) (fun r s'' => r = 0 ∧ ∃ f₁ f₂, MayFree H dp f₁ ∧ MayFree H ip f₂ ∧
        Ends sb s H (es ++ f₁ ++ [.link ip (-1)] ++ f₂) s'') s' := by
  have hdp : dp ∈ [ip, dp] := List.mem_cons_of_mem _ (List.mem_singleton_self dp)
  have hswap : Running sb s.begun es H (dp ::ₘ {ip}) [ip, dp] F s' := by
    rw [← Multiset.cons_zero ip, Multiset.cons_swap, Multiset.cons_zero]
    exact h
  have hput : Wp E (iunlockput sb dp) (fun _ s'' => ∃ fr, MayFree H dp fr ∧
      Running sb s.begun (es ++ fr) H {ip} [ip] [ip] s'') s' := by
    refine hswap.iunlockput (fun _ => hdp) (fun y hy => ?_) fun y hy hR => ?_
    · have hy := List.mem_singleton.1 hy
      exact ⟨hy ▸ List.mem_cons_self, fun heq => .inr (Multiset.mem_singleton.2 (heq.symm.trans hy))⟩
    · have hyip := Multiset.mem_singleton.1 (hR (hF y hy))
      rw [hF y hy, hyip]
      exact List.mem_singleton_self ip
  refine wp_seq hput fun _ s₁ ⟨f₁, hf1, hs1⟩ => ?_
  refine wp_seq (hs1.addLinkOpen List.mem_cons_self (-1)) fun _ s₂ hs2 => ?_
  refine wp_seq (hs2.iunlockputOnly (fun _ => List.mem_cons_self) fun y hy => by simpa using hy)
    fun _ s3 ⟨f₂, hf2, hs3⟩ => ?_
  exact wp_seq hs3.endOp fun _ s4 hs4 => ⟨rfl, f₁, f₂, hf1, hf2, hs4⟩

theorem unlinkEntry_spec (hsb : sb.Ok) (h : Running sb s.begun [] H (ip ::ₘ {dp}) [ip, dp] [] s')
    (hdir : s.resolve pid path true = some (dp, name)) (hdot : ¬ nameEq name DOT = true)
    (hdots : ¬ nameEq name DOTDOT = true) (hdp : (s.node dp).type = .dir) (hent : s.lookup dp name = some (ip, off))
    (hlink : 1 ≤ (s.node ip).nlink) (hempty : (s.node ip).type = .dir → s.DirEmpty ip) : Wp E (unlinkEntry sb dp ip off)
      (fun r s'' => ∃ es, UnlinkEdits H s pid path r es ∧ Ends sb s H es s'') s' := by
  have hmem : dp ∈ [ip, dp] := List.mem_cons_of_mem _ (List.mem_singleton_self dp)
  have hnode : s'.node = s.node := h.quiet.node
  have hoff : off ∈ offs (s.node dp).size := by
    unfold St.lookup at hent
    obtain ⟨o, hfind, heq⟩ := Option.map_eq_some_iff.1 hent
    cases heq
    exact List.mem_of_find?_eq_some hfind
  unfold unlinkEntry
  refine wp_seq (h.erase hsb hmem (hnode ▸ hdp) (hnode ▸ hoff)) fun r s₁ hr => ?_
  rcases hr with rfl | ⟨rfl, htype, hs1⟩
  · exact wp_panic.2 (allowed (by decide))
  simp only [ne_eq, not_true_eq_false, if_false]
  refine wp_read.2 ?_
  have hcore : (s₁.core ip).type = (s.node ip).type := by
    rw [← hnode, ← htype, St.node_of_loaded (hs1.safe.loaded ip List.mem_cons_self)]
  rw [hcore]
  have hs1 : Running sb s.begun [.erase dp off] H (ip ::ₘ {dp}) [ip, dp] [] s₁ := hs1
  split
  · rename_i hisdir
    refine wp_seq (hs1.addLinkOpen hmem (-1)) fun _ s₂ hs2 => ?_
    refine wp_mono (unlinkEnd_spec hs2 fun y hy => List.mem_singleton.1 hy) fun r s3 ⟨hr, f₁, f₂, hf1, hf2, hs3⟩ => ?_
    subst hr
    have hdone := UnlinkEdits.done dp ip off name f₁ f₂ hdir hdot hdots hdp hent hlink hempty hf1 hf2
    rw [if_pos hisdir] at hdone
    exact ⟨_, hdone, hs3⟩
  · rename_i hisdir
    refine wp_mono (unlinkEnd_spec hs1 nofun)
      fun r s3 ⟨hr, f₁, f₂, hf1, hf2, hs3⟩ => ?_
    subst hr
    have hdone := UnlinkEdits.done dp ip off name f₁ f₂ hdir hdot hdots hdp hent hlink hempty hf1 hf2
    rw [if_neg hisdir, List.append_nil] at hdone
    exact ⟨_, hdone, hs3⟩

theorem unlinkBad_spec (h : Running sb s.begun [] H {dp} (dp :: L) [] s') :
    Wp E (unlinkBad sb dp) (fun r s'' => ∃ es, UnlinkEdits H s pid path r es ∧ Ends sb s H es s'') s' := by
  unfold unlinkBad
  refine wp_seq h.iunlockputLooked fun _ s₁ hs1 => ?_
  exact hs1.endWith (-1) UnlinkEdits.none

theorem unlinkName_spec (hsb : sb.Ok) (h : Running sb s.begun [] H {dp} [] [] s')
    (hdir : s.resolve pid path true = some (dp, name)) (hE : E .unlinkNlink ∨ s.NamedLinked) :
    Wp E (unlinkName sb dp name) (fun r s'' => ∃ es, UnlinkEdits H s pid path r es ∧ Ends sb s H es s'') s' := by
  unfold unlinkName
  refine wp_seq (h.ilock (.inr (Multiset.mem_singleton_self dp))) fun _ s₁ hs1 => ?_
  split
  · exact unlinkBad_spec hs1
  rename_i hdots
  rw [not_or] at hdots
  have hlook : s₁.lookup = s.lookup := hs1.quiet.lookup
  have hnode1 : s₁.node = s.node := hs1.quiet.node
  refine wp_seq (hs1.dirlookup List.mem_cons_self) fun r s₂ ⟨⟨hr, hdp⟩, hs2⟩ => ?_
  rw [hlook] at hr
  rw [hnode1] at hdp
  cases r with
  | none => exact unlinkBad_spec hs2
  | some q =>
    have hs2 : Running sb s.begun [] H (q.1 ::ₘ {dp}) [dp] [] s₂ := hs2
    refine wp_seq (hs2.ilock (.inr (Multiset.mem_cons_self ..))) fun _ s3 hs3 => wp_read.2 ?_
    have hnode : s3.node = s.node := hs3.quiet.node
    have hcore : s3.core q.1 = s.node q.1 := by
      rw [hs3.safe.core List.mem_cons_self, hnode]
    rw [hcore]
    split
    · rename_i hlink
      refine wp_panic.2 (hE.resolve_right fun hall => ?_)
      have hpos := hall dp q.1 q.2 name hdp hr.symm hdots.1 hdots.2
      omega
    rename_i hlink
    have hlink : 1 ≤ (s.node q.1).nlink := by omega
    split
    · rename_i hisdir
      refine wp_seq (p := isdirempty sb q.1) (Q := fun r s' => (r = true → s.DirEmpty q.1) ∧ s' = s3) ?_
        fun r s4 ⟨hempty, hs4⟩ => ?_
      · unfold isdirempty
        refine wp_read.2 ?_
        rw [hcore]
        refine wp_mono (hs3.emptyFrom List.mem_cons_self (hnode ▸ hisdir) _ fun off ho => ?_) fun r s' ⟨hr, hs'⟩ =>
          ⟨fun htrue off ho => ?_, hs'⟩
        · rw [hnode]
          exact List.mem_of_mem_drop ho
        · have hdirent : s3.dirent = s.dirent := hs3.quiet.dirent
          rw [← hdirent]
          exact hr htrue off ho
      · subst hs4
        cases r with
        | true => exact unlinkEntry_spec hsb hs3 hdir hdots.1 hdots.2 hdp hr.symm hlink fun _ => hempty rfl
        | false =>
          refine wp_seq (hs3.iunlockputQuiet kept_nil kept_self) fun _ s5 hs5 => ?_
          exact unlinkBad_spec hs5
    · rename_i hisdir
      exact unlinkEntry_spec hsb hs3 hdir hdots.1 hdots.2 hdp hr.symm hlink fun h => absurd h hisdir

/-- **`unlink`** -/
theorem sysUnlink_spec (hsb : sb.Ok) (h : Safe sb s₀ H 0 [] [] s) (hcwd : 0 < H ((s.cwd pid).getD 0))
    (hE : E .unlinkNlink ∨ s.NamedLinked) : Wp E (sysUnlink sb pid (some path))
      (fun r s' => ∃ es, UnlinkEdits H s pid path r es ∧ Ends sb s H es s') s := by
  unfold sysUnlink
  refine wp_write.2 ?_
  have hs1 : Running sb s.begun [] H 0 [] [] s.begun := h.begin
  refine wp_seq (hs1.namex hcwd kept_nil kept_nil path true) fun r s₂ ⟨hr, hs2⟩ => ?_
  rw [resolve_begun] at hr
  cases r with
  | none => exact Running.endWith hs2 (-1) UnlinkEdits.none
  | some q => exact unlinkName_spec hsb hs2 hr.symm hE

/-! ## `create` -/

/-- the links and entries of a new directory -/
def dots (type : Ty) (dp ip : ℕ) : List Edit :=
  if type = .dir then [.link dp 1, .enter ip DOT ip, .enter ip DOTDOT dp] else []

/-- what `create` does to the disk: nothing, or it makes an inode and enters it -/
inductive CreateEdits (H : ℕ → ℕ) (s : St) (pid : Fin NPROC) (path : List UInt8) (type : Ty) (major minor : ℤ) :
    Option ℕ → List Edit → Prop
  | none (hwhy : ∀ dp name, s.resolve pid path true = some (dp, name) → s.lookup dp name ≠ none) :
      CreateEdits H s pid path type major minor none []
  | found (ip dp off : ℕ) (name : Name) (hdir : s.resolve pid path true = some (dp, name))
      (hent : s.lookup dp name = some (ip, off)) (hty : type = .file) (hfile : (s.node ip).type = .file) :
      CreateEdits H s pid path type major minor (some ip) []
  | made (ip dp : ℕ) (name : Name) (fr : List Edit) (hdir : s.resolve pid path true = some (dp, name))
      (hdp : (s.node dp).type = .dir) (hnone : s.lookup dp name = none) (hfree : (s.dinode ip).type = .free)
      (hne : ip ≠ dp) (hfr : MayFree H dp fr) :
      CreateEdits H s pid path type major minor (some ip)
        ([.make ip type, .init ip major minor] ++ dots type dp ip ++ [.enter dp name ip] ++ fr)

variable {type : Ty} {major minor : ℤ}

theorem Running.ialloc (h : Running sb s₀ es H R L F s) (type : Ty) :
    Wp E (ialloc sb type) (fun x s' => (s.dinode x).type = .free ∧
      Running sb s₀ (es ++ [.make x type]) H (x ::ₘ R) L (x :: F) s') s :=
  wp_mono (ialloc_spec (allowed (by decide)) (allowed (by decide)) h.safe) fun x s' ⟨hx, hfree, hs'⟩ =>
    ⟨hfree, hs'.base, (h.edits.snoc (e := .make x type) h.safe.good ⟨hx, hfree, rfl⟩).quiet hs'.quiet⟩

/-- `major`, `minor` and one link -/
theorem Running.init (h : Running sb s₀ es H R L F s) (hx : x ∈ L) (major minor : ℤ)
    (hF : ∀ y, y ≠ x → y ∈ F → y ∈ F') :
    Running sb s₀ (es ++ [.init x major minor]) H R L F' (s.update sb x ((s.core x).init major minor)) :=
  ⟨h.safe.update hx rfl rfl rfl rfl hF fun hzero => absurd hzero one_ne_zero,
    h.edits.snoc h.safe.good ⟨h.safe.loaded x hx, rfl⟩⟩

theorem createDots_spec (hsb : sb.Ok) (h : Running sb s₀ es H (ip ::ₘ {dp}) [ip, dp] [] s) :
    Wp E (createDots sb dp ip) (fun _ s' =>
      Running sb s₀ (es ++ [.link dp 1, .enter ip DOT ip, .enter ip DOTDOT dp]) H (ip ::ₘ {dp}) [ip, dp] [dp] s') s := by
  have hdp : dp ∈ [ip, dp] := List.mem_cons_of_mem _ (List.mem_singleton_self dp)
  have hL : Kept H (ip ::ₘ {dp}) [ip, dp] := fun y hy => .inr (by simpa using hy)
  have hF : Kept H (ip ::ₘ {dp}) [dp] := fun y hy => hL y (by simpa using Or.inr (List.mem_singleton.1 hy))
  unfold createDots
  refine wp_seq (h.addLinkOpen hdp 1) fun _ s₁ hs1 => ?_
  refine wp_seq (hs1.dirlink hsb List.mem_cons_self hF hL ip) fun r s₂ hs2 => ?_
  cases r with
  | false => exact wp_panic.2 (allowed (by decide))
  | true =>
    have hs2 : Running sb s₀ (es ++ [.link dp 1] ++ [.enter ip DOT ip]) H (ip ::ₘ {dp}) [ip, dp] [dp] s₂ := hs2
    refine wp_seq (hs2.dirlink hsb List.mem_cons_self hF hL dp) fun r s3 hs3 => ?_
    cases r with
    | false => exact wp_panic.2 (allowed (by decide))
    | true =>
      have hs3 : Running sb s₀ (es ++ [.link dp 1] ++ [.enter ip DOT ip] ++ [.enter ip DOTDOT dp]) H (ip ::ₘ {dp}) [ip, dp]
        [dp] s3 := hs3
      rw [List.append_assoc, List.append_assoc] at hs3
      exact hs3

/-- the end of `create`, from the state in which the new inode is complete -/
theorem createEnd_spec (hsb : sb.Ok) (h : Running sb s₀ es H (ip ::ₘ {dp}) [ip, dp] F s) (hF : ∀ y ∈ F, y = dp)
    (hne : ip ≠ dp) :
    Wp E (do
      if ← dirlink sb dp name ip then
        iunlockput sb dp
        return ip
      else panic .createDirlink) (fun r s' => r = ip ∧ ∃ fr, MayFree H dp fr ∧
        Running sb s₀ (es ++ [.enter dp name ip] ++ fr) H {ip} [ip] [] s') s := by
  have hdp : dp ∈ [ip, dp] := List.mem_cons_of_mem _ (List.mem_singleton_self dp)
  have hL : Kept H (ip ::ₘ {dp}) [ip, dp] := fun y hy => .inr (by simpa using hy)
  have hKF : Kept H (ip ::ₘ {dp}) F := fun y hy => hL y (hF y hy ▸ hdp)
  refine wp_seq (h.dirlink hsb hdp hKF hL ip) fun r s₁ hs1 => ?_
  cases r with
  | false => exact wp_panic.2 (allowed (by decide))
  | true =>
    have hswap : Running sb s₀ (es ++ [.enter dp name ip]) H (dp ::ₘ {ip}) [ip, dp] F s₁ := by
      rw [← Multiset.cons_zero ip, Multiset.cons_swap, Multiset.cons_zero]
      exact hs1
    have hput : Wp E (iunlockput sb dp) (fun _ s' => ∃ fr, MayFree H dp fr ∧
        Running sb s₀ (es ++ [.enter dp name ip] ++ fr) H {ip} [ip] [] s') s₁ := by
      refine hswap.iunlockput (fun _ => hdp) (fun y hy => ?_) fun y hy hR => ?_
      · have hy := List.mem_singleton.1 hy
        exact ⟨hy ▸ List.mem_cons_self, fun heq => absurd (hy.symm.trans heq) hne⟩
      · exact absurd (Multiset.mem_singleton.1 (hR (hF y hy))).symm hne
    exact wp_seq hput fun _ s₂ hs2 => ⟨rfl, hs2⟩

theorem createNew_spec (hsb : sb.Ok) (h : Running sb s₀ [] H {dp} [dp] [] s) :
    Wp E (createNew sb dp name type major minor) (fun ip s' => (s.dinode ip).type = .free ∧ ip ≠ dp ∧ ∃ fr, MayFree H dp fr ∧ Running sb s₀
        ([.make ip type, .init ip major minor] ++ dots type dp ip ++ [.enter dp name ip] ++ fr) H {ip} [ip] [] s') s := by
  have hloaded := h.safe.loaded_ok (h.safe.loaded dp List.mem_cons_self)
  unfold createNew
  refine wp_seq (h.ialloc type) fun ip s₁ ⟨hfree, hs1⟩ => ?_
  have hne : ip ≠ dp := by
    rintro rfl
    rw [hloaded.2] at hloaded
    exact hloaded.1 hfree
  refine wp_seq (hs1.ilock (.inr (Multiset.mem_cons_self ..))) fun _ s₂ hs2 => ?_
  refine wp_bind.2 (wp_modify.2 (wp_write.2 ?_))
  have hs3 : Running sb s₀ [.make ip type, .init ip major minor] H (ip ::ₘ {dp}) [ip, dp] []
      (s₂.update sb ip ((s₂.core ip).init major minor)) :=
    hs2.init List.mem_cons_self major minor fun y hy hmem => absurd (List.mem_singleton.1 hmem) hy
  unfold dots
  split
  · refine wp_seq (createDots_spec hsb hs3) fun _ s4 hs4 => ?_
    refine wp_mono (createEnd_spec hsb hs4 (fun y hy => List.mem_singleton.1 hy) hne) fun r s5 ⟨hr, hs5⟩ => ?_
    subst hr
    exact ⟨hfree, hne, hs5⟩
  · refine wp_mono (createEnd_spec hsb hs3 nofun hne) fun r s5 ⟨hr, hs5⟩ => ?_
    subst hr
    exact ⟨hfree, hne, hs5⟩

/-- **`create`**; the inode that it gives is locked. -/
theorem create_spec (hsb : sb.Ok) (h : Running sb s.begun [] H 0 [] [] s') (hcwd : 0 < H ((s.cwd pid).getD 0)) :
    Wp E (create sb pid path type major minor) (fun r s'' => ∃ es, CreateEdits H s pid path type major minor r es ∧
      Running sb s.begun es H (r.elim 0 fun ip => {ip}) (r.elim [] fun ip => [ip]) [] s'') s' := by
  have hres : s'.resolve = s.resolve := h.quiet.resolve.trans resolve_begun
  unfold create
  refine wp_seq (h.namex hcwd kept_nil kept_nil path true) fun r s₁ ⟨hr, hs1⟩ => ?_
  rw [hres] at hr
  cases r with
  | none => exact ⟨[], .none fun dp name hdir => by simp [← hr] at hdir, hs1⟩
  | some q =>
    have hs1 : Running sb s.begun [] H {q.1} [] [] s₁ := hs1
    refine wp_seq (hs1.ilock (.inr (Multiset.mem_singleton_self _))) fun _ s₂ hs2 => ?_
    have hlook : s₂.lookup = s.lookup := hs2.quiet.lookup
    have hnode : s₂.node = s.node := hs2.quiet.node
    refine wp_seq (hs2.dirlookup List.mem_cons_self) fun r s3 ⟨⟨hr3, hdp⟩, hs3⟩ => ?_
    rw [hlook] at hr3
    rw [hnode] at hdp
    cases r with
    | none =>
      have hs3 : Running sb s.begun [] H {q.1} [q.1] [] s3 := hs3
      refine wp_seq (createNew_spec hsb hs3) fun ip s4 ⟨hfree, hne, fr, hfr, hs4⟩ => ?_
      have hdisk : s3.dinode = s.dinode := hs3.quiet.disk
      rw [hdisk] at hfree
      exact ⟨_, .made ip q.1 q.2 fr hr.symm hdp hr3.symm hfree hne hfr, hs4⟩
    | some p =>
      have hswap : Running sb s.begun [] H (q.1 ::ₘ {p.1}) [q.1] [] s3 := by
        rw [← Multiset.cons_zero p.1, Multiset.cons_swap, Multiset.cons_zero]
        exact hs3
      refine wp_seq (hswap.iunlockputQuiet kept_nil kept_nil) fun _ s4 hs4 => ?_
      refine wp_seq (hs4.ilock (.inr (Multiset.mem_singleton_self _))) fun _ s5 hs5 => wp_read.2 ?_
      have hcore : s5.core p.1 = s.node p.1 := by
        rw [hs5.safe.core List.mem_cons_self, hs5.quiet.node]
        rfl
      rw [hcore]
      split
      · rename_i hfile
        exact ⟨[], .found p.1 q.1 p.2 q.2 hr.symm hr3.symm hfile.1 hfile.2, hs5⟩
      · refine wp_seq hs5.iunlockputLooked fun _ s6 hs6 => ⟨[], .none fun dp name hdir => ?_, hs6⟩
        rw [← hr] at hdir
        cases hdir
        rw [← hr3]
        exact Option.some_ne_none p

/-! ## Contents -/

theorem Running.readi (h : Running sb s₀ es H R L F s) (hx : x ∈ L) (hp : 0 < H x ∨ x ∈ R) (off n : ℕ) :
    Wp E (readi sb x off n) (fun _ s' => Running sb s₀ es H R L F s') s := by
  by_cases hdev : (s.core x).type = .dev
  · unfold FileSys.readi
    refine wp_read.2 ?_
    rw [if_pos hdev]
    split
    · refine wp_seq (h.iunlock hp) fun _ s₁ hs1 => ?_
      refine wp_bind.2 (wp_atomic.2 ?_)
      have hs2 : Running sb s₀ es H R L F { s₁ with console := s₁.console.tail } :=
        ⟨hs1.safe.tables rfl rfl rfl rfl, hs1.edits.quiet ⟨rfl, rfl, rfl, rfl, rfl, rfl, rfl, rfl, rfl⟩⟩
      refine wp_seq (hs2.ilock hp) fun _ s3 hs3 => ?_
      exact hs3.mono fun y hy => List.mem_cons_of_mem x hy
    · exact h
  · refine wp_mono (readi_spec h.safe.good (Set.notMem_empty x) (h.safe.loaded x hx) hdev off n) fun r s' hs' => ?_
    rw [hs'.1]
    exact h

/-- `writei`: nothing, or the bytes are there -/
theorem Running.writei (hsb : sb.Ok) (h : Running sb s₀ es H R L F s) (hx : x ∈ L) (hp : 0 < H x ∨ x ∈ R)
    (src : List UInt8) (off : ℕ) : Wp E (writei sb x src off) (fun _ s' => ∃ w, (w = [] ∨ w = [.write x off src]) ∧
      Running sb s₀ (es ++ w) H R L F s') s := by
  have hnone : ∀ {s' : St}, Running sb s₀ es H R L F s' → ∃ w, (w = [] ∨ w = [.write x off src]) ∧
      Running sb s₀ (es ++ w) H R L F s' := by
    intro s' hs'
    refine ⟨[], .inl rfl, ?_⟩
    rw [List.append_nil]
    exact hs'
  by_cases hdev : (s.core x).type = .dev
  · unfold FileSys.writei
    refine wp_read.2 ?_
    rw [if_pos hdev]
    split
    · refine wp_seq (h.iunlock hp) fun _ s₁ hs1 => wp_seq (hs1.ilock hp) fun _ s₂ hs2 => ?_
      exact hnone (hs2.mono fun y hy => List.mem_cons_of_mem x hy)
    · exact hnone h
  · have hl := h.safe.loaded x hx
    refine wp_mono (writei_spec hsb h.safe.good hl hdev (.inl (allowed (by decide)))) fun r s' hs' => ?_
    rcases hs' with ⟨-, -, rfl⟩ | ⟨hok, -, hw⟩
    · exact hnone h
    · have hoff : off ≤ (s.core x).size := not_lt.1 fun hlt => hok (.inl hlt)
      exact ⟨_, .inr rfl, h.safe.written hx hw, h.edits.snoc h.safe.good ⟨hl, hoff, hw⟩⟩

theorem Running.loaduvm (hx : x ∈ L) (hp : 0 < H x ∨ x ∈ R) (offset sz : ℕ) (is : List ℕ) (h : Running sb s₀ es H R L F s) :
    Wp E (loaduvm sb x offset sz is) (fun _ s' => Running sb s₀ es H R L F s') s := by
  induction is generalizing s with
  | nil => exact h
  | cons i is ih =>
    unfold FileSys.loaduvm
    refine wp_seq (h.readi hx hp _ _) fun r s₁ hs1 => ?_
    split
    · exact ih hs1
    · exact hs1

theorem Running.loadSegments (hx : x ∈ L) (hp : 0 < H x ∨ x ∈ R) (phoff : ℕ) (mem : ExecMem) (is : List ℕ)
    (h : Running sb s₀ es H R L F s) : Wp E (loadSegments sb x phoff mem is) (fun _ s' => Running sb s₀ es H R L F s') s := by
  induction is generalizing s with
  | nil => exact h
  | cons i is ih =>
    unfold FileSys.loadSegments
    refine wp_seq (h.readi hx hp _ _) fun r s₁ hs1 => ?_
    cases r with
    | none => exact hs1
    | some b =>
      simp only
      split
      · exact hs1
      split
      · exact ih hs1
      split
      · exact hs1
      split
      · exact hs1
      refine wp_seq (hs1.loaduvm hx hp _ _ _) fun r s₂ hs2 => ?_
      split
      · exact ih hs2
      · exact hs2

/-- **`exec`** leaves the disk alone. -/
theorem exec_spec (h : Safe sb s₀ H 0 [] [] s) (hcwd : 0 < H ((s.cwd pid).getD 0)) (path : List UInt8) (mem : ExecMem) :
    Wp E (exec sb pid path mem) (fun _ => Ends sb s H []) s := by
  unfold FileSys.exec
  refine wp_write.2 ?_
  have hs1 : Running sb s.begun [] H 0 [] [] s.begun := h.begin
  refine wp_seq (hs1.namei hcwd kept_nil kept_nil path) fun r s₂ ⟨_, hs2⟩ => ?_
  cases r with
  | none => exact wp_seq (Running.endOp hs2) fun _ s3 hs3 => hs3
  | some x =>
    have hs2 : Running sb s.begun [] H {x} [] [] s₂ := hs2
    have hp : 0 < H x ∨ x ∈ ({x} : Multiset ℕ) := .inr (Multiset.mem_singleton_self x)
    refine wp_seq (hs2.ilock hp) fun _ s3 hs3 => ?_
    refine wp_seq (p := execLoad sb x mem) (Q := fun _ s' => Running sb s.begun [] H {x} [x] [] s') ?_ fun r s4 hs4 => ?_
    · unfold execLoad
      refine wp_seq (hs3.readi List.mem_cons_self hp _ _) fun r s4 hs4 => ?_
      cases r with
      | none => exact hs4
      | some b =>
        simp only
        split
        · exact hs4
        · exact hs4.loadSegments List.mem_cons_self hp _ mem _
    · refine wp_seq hs4.iunlockputLooked fun _ s5 hs5 => ?_
      exact wp_seq hs5.endOp fun _ s6 hs6 => hs6

end Xv6.FileSys
