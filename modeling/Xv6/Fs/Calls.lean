/-
The file system calls as steps. A call runs by itself, with the locks it takes; one that panics or hangs has no state after
it. Between calls the references to inodes are those of current directories and open files.
-/
import Xv6.Core.RefCount
import Xv6.Core.Run
import Xv6.Fs.Edits

namespace Xv6.FileSys

open Xv6.Core Xv6.Core.Prog

/-! ## Calls -/

inductive Call
  | open (pid : Fin NPROC) (omode : ℕ) (path : Option (List UInt8))
  | link (pid : Fin NPROC) (old new : Option (List UInt8))
  | unlink (pid : Fin NPROC) (path : Option (List UInt8))
  | mkdir (pid : Fin NPROC) (path : Option (List UInt8))
  | mknod (pid : Fin NPROC) (major minor : ℤ) (path : Option (List UInt8))
  | chdir (pid : Fin NPROC) (path : Option (List UInt8))
  | dup (pid : Fin NPROC) (fd : Fin NOFILE)
  | read (pid : Fin NPROC) (fd : Fin NOFILE) (n : ℕ)
  | write (pid : Fin NPROC) (fd : Fin NOFILE) (src : List UInt8)
  | close (pid : Fin NPROC) (fd : Fin NOFILE)
  | exec (pid : Fin NPROC) (path : List UInt8) (mem : ExecMem)
  | fork (pid child : Fin NPROC)
  | exit (pid : Fin NPROC)

namespace Call

/-- the process that calls -/
def pid : Call → Fin NPROC
  | .open pid _ _ | .link pid _ _ | .unlink pid _ | .mkdir pid _ | .mknod pid _ _ _ | .chdir pid _ | .dup pid _
  | .read pid _ _ | .write pid _ _ | .close pid _ | .exec pid _ _ | .fork pid _ | .exit pid => pid

/-- the process exists, and a new one gets an entry of the table that is free -/
def Enabled (c : Call) (s : St) : Prop :=
  (s.cwd c.pid).isSome ∧
    match c with
    | .fork _ child => s.cwd child = none
    | _ => True

instance (c : Call) (s : St) : Decidable (c.Enabled s) := by
  unfold Enabled
  cases c <;> infer_instance

/-- leave the result aside -/
def drop {α : Type} (p : FsM α) : FsM Unit := do
  let _ ← p
  pure ()

def prog (sb : Superblock) : Call → FsM Unit
  | .open pid omode path => drop (sysOpen sb pid omode path)
  | .link pid old new => drop (sysLink sb pid old new)
  | .unlink pid path => drop (sysUnlink sb pid path)
  | .mkdir pid path => drop (sysMkdir sb pid path)
  | .mknod pid major minor path => drop (sysMknod sb pid major minor path)
  | .chdir pid path => drop (sysChdir sb pid path)
  | .dup pid fd => drop (sysDup pid fd)
  | .read pid fd n => drop (sysRead sb pid fd n)
  | .write pid fd src => drop (sysWrite sb pid fd src)
  | .close pid fd => drop (sysClose sb pid fd)
  | .exec pid path mem => drop (FileSys.exec sb pid path mem)
  | .fork pid child => forkFiles pid child
  | .exit pid => FileSys.exit sb pid

end Call

/-- a call from beginning to end, where it has one -/
def callStep (sb : Superblock) (s : St) (c : Call) : St :=
  if c.Enabled s then
    match (c.prog sb).solo s [] with
    | .ok r => r.2.1
    | .error _ => s
  else s

/-! ## References between calls -/

/-- is it a reference to inode `x`? -/
def File.holds (f : File) (x : ℕ) : ℕ := if 0 < f.ref ∧ f.type = .inode ∧ f.ip = x then 1 else 0

def cwdHolds (c : Option ℕ) (x : ℕ) : ℕ := if c = some x then 1 else 0

/-- the references of current directories and open files -/
def St.holds (s : St) (x : ℕ) : ℕ := ∑ pid, cwdHolds (s.cwd pid) x + ∑ f, (s.file f).holds x

/-- free entries of the file table have no type -/
def St.Files (s : St) : Prop := ∀ f, (s.file f).ref = 0 → (s.file f).type = .none

/-- **A well-formed file system**, between calls. -/
structure Wf (sb : Superblock) (s : St) : Prop where
  safe : Safe sb s s.holds 0 [] [] s
  files : s.Files

variable {sb : Superblock} {T s0 s s' : St} {x y off : ℕ} {H : ℕ → ℕ} {R : Multiset ℕ} {L F : List ℕ} {name : Name}
  {pid : Fin NPROC}

variable {c : ℕ}

/-- a process holds its directory -/
theorem St.holds_cwd (h : s.cwd pid = some c) : 0 < s.holds c := by
  unfold St.holds
  have hle := Finset.single_le_sum (f := fun pid => cwdHolds (s.cwd pid) c) (fun _ _ => Nat.zero_le _) (Finset.mem_univ pid)
  have hone : cwdHolds (s.cwd pid) c = 1 := if_pos h
  omega

theorem St.holds_start (h : s.cwd pid = some c) : 0 < s.holds ((s.cwd pid).getD 0) := by
  rw [h]
  exact St.holds_cwd h

variable {f : Fin NFILE}

theorem St.holds_file (h : 0 < (s.file f).ref) (ht : (s.file f).type = .inode) : 0 < s.holds (s.file f).ip := by
  unfold St.holds
  have hle := Finset.single_le_sum (f := fun g => (s.file g).holds (s.file f).ip) (fun _ _ => Nat.zero_le _)
    (Finset.mem_univ f)
  have hone : (s.file f).holds (s.file f).ip = 1 := if_pos ⟨h, ht, rfl⟩
  omega

theorem St.holds_setFile (f : Fin NFILE) (e : File) (x : ℕ) : (s.setFile f e).holds x + (s.file f).holds x = s.holds x + e.holds x := by
  have hsum := sum_update s.file (fun g => g.holds x) f e
  unfold St.holds St.setFile
  simp only
  omega

theorem cwdHolds_some (c y : ℕ) : cwdHolds (some c) y = Multiset.count y {c} := by
  rw [Multiset.count_singleton]
  simp [cwdHolds, eq_comm]

theorem cwdHolds_none (y : ℕ) : cwdHolds none y = 0 := if_neg (by simp)

theorem St.holds_setCwd (pid : Fin NPROC) (c : Option ℕ) (x : ℕ) :
    (s.setCwd pid c).holds x + cwdHolds (s.cwd pid) x = s.holds x + cwdHolds c x := by
  have hsum := sum_update s.cwd (fun c => cwdHolds c x) pid c
  unfold St.holds St.setCwd
  simp only
  omega

/-- the reference of a process to its directory -/
theorem St.holds_leave (h : s.cwd pid = some c) (y : ℕ) : s.holds y = (s.setCwd pid none).holds y + Multiset.count y {c} := by
  have hsum := St.holds_setCwd (s := s) pid none y
  rw [h, cwdHolds_some, cwdHolds_none] at hsum
  omega

/-! ## While a call runs -/

/-- the call owns what `Safe` says, and the tables are those of `T` -/
structure Calm (sb : Superblock) (T : St) (H : ℕ → ℕ) (R : Multiset ℕ) (L F : List ℕ) (s : St) : Prop where
  safe : Safe sb s H R L F s
  cwd : s.cwd = T.cwd
  file : s.file = T.file
  ofile : s.ofile = T.ofile

/-- a part that leaves the disk alone -/
theorem Calm.quiet {α : Type} {p : FsM α} {R' : α → Multiset ℕ} {L' : α → List ℕ} (h : Calm sb T H R L F s)
    (hp : Wp NoBfree p (fun a s' => Safe sb s H (R' a) (L' a) F s') s) :
    Wp NoBfree p (fun a s' => Calm sb T H (R' a) (L' a) F s') s :=
  wp_mono hp fun _ _ hs' => ⟨hs'.base, hs'.quiet.cwd.trans h.cwd, hs'.quiet.file.trans h.file, hs'.quiet.ofile.trans h.ofile⟩

variable {L' : List ℕ}

theorem Calm.mono (h : Calm sb T H R L F s) (hL : ∀ y ∈ L', y ∈ L) : Calm sb T H R L' F s :=
  ⟨h.safe.mono hL, h.cwd, h.file, h.ofile⟩

theorem Calm.beginOp (h : Calm sb T H R L F s) : Wp NoBfree beginOp (fun _ s' => Calm sb T H R L F s') s :=
  ⟨h.safe.tables rfl rfl rfl rfl, h.cwd, h.file, h.ofile⟩

theorem Calm.endOp (h : Calm sb T H R L F s) : Wp NoBfree endOp (fun _ s' => Calm sb T H R L F s') s :=
  ⟨h.safe.tables rfl rfl rfl rfl, h.cwd, h.file, h.ofile⟩

theorem Calm.ilock (h : Calm sb T H R L F s) (hx : 0 < H x ∨ x ∈ R) :
    Wp NoBfree (ilock x) (fun _ s' => Calm sb T H R (x :: L) F s') s :=
  h.quiet (ilock_spec (.inl (by decide)) h.safe hx)

theorem Calm.iunlock (h : Calm sb T H R L F s) (hx : 0 < H x ∨ x ∈ R) :
    Wp NoBfree (iunlock x) (fun _ s' => Calm sb T H R L F s') s :=
  h.quiet (iunlock_spec h.safe hx)

variable {F' : List ℕ}

theorem Calm.iput (h : Calm sb T H (x ::ₘ R) L F s) (hx : x ∈ F → x ∈ L)
    (hL : ∀ y ∈ L', y ∈ L ∧ (y = x → 0 < H x ∨ x ∈ R)) (hF : ∀ y ∈ F, (y = x → x ∈ R) → y ∈ F') :
    Wp NoBfree (iput sb x) (fun _ s' => Calm sb T H R L' F' s') s := by
  refine wp_mono (iput_any h.safe hx hL hF) fun _ s' ⟨hsafe, hs'⟩ => ?_
  rcases hs' with hq | ⟨-, -, -, -, hfreed⟩
  · exact ⟨hsafe, hq.cwd.trans h.cwd, hq.file.trans h.file, hq.ofile.trans h.ofile⟩
  · exact ⟨hsafe, hfreed.cwd.trans h.cwd, hfreed.file.trans h.file, hfreed.ofile.trans h.ofile⟩

variable {es : List Edit} {H' : ℕ → ℕ}

/-- the tables are those of the beginning, whatever has been done to the disk -/
theorem Running.calm {R' : Multiset ℕ} (h : Running sb s0 es H R L F s) (hT : Calm sb T H' R' L' F' s0) : Calm sb T H R L F s := by
  obtain ⟨hc, hf, ho⟩ := h.edits.tables
  exact ⟨h.safe, hc.trans hT.cwd, hf.trans hT.file, ho.trans hT.ofile⟩

theorem Calm.running (h : Calm sb T H R L F s) : Running sb s [] H R L F s := ⟨h.safe, .refl s⟩

theorem Calm.readi (h : Calm sb T H R L F s) (hx : x ∈ L) (hp : 0 < H x ∨ x ∈ R) (off n : ℕ) :
    Wp NoBfree (readi sb x off n) (fun _ s' => Calm sb T H R L F s') s :=
  wp_mono (h.running.readi hx hp off n) fun _ _ hs' => hs'.calm h

theorem Calm.writei (hsb : sb.Ok) (h : Calm sb T H R L F s) (hx : x ∈ L) (hp : 0 < H x ∨ x ∈ R) (src : List UInt8)
    (off : ℕ) : Wp NoBfree (writei sb x src off) (fun _ s' => Calm sb T H R L F s') s :=
  wp_mono (h.running.writei hsb hx hp src off) fun _ _ ⟨_, _, hs'⟩ => hs'.calm h

theorem Calm.namei (h : Calm sb T H R L F s) (hcwd : 0 < H ((T.cwd pid).getD 0)) (hF : Kept H R F) (hL : Kept H R L)
    (path : List UInt8) :
    Wp NoBfree (namei sb pid path) (fun r s' => Calm sb T H (r.elim R (· ::ₘ R)) L F s') s := by
  rw [← h.cwd] at hcwd
  exact h.quiet (wp_mono (namei_spec (lookable s) (.inl (by decide)) hF hL hcwd h.safe) fun _ _ hs' => hs'.2)

/-! ## The calls -/

/-- a call that has let everything go -/
abbrev Calm.Done (sb : Superblock) (T : St) (H : ℕ → ℕ) (s : St) : Prop := Calm sb T H 0 [] [] s

/-- the only inode of the call goes, whatever has happened to its links -/
theorem Calm.iputOnly (h : Calm sb T H {x} L F s) (hx : x ∈ F → x ∈ L) (hF : ∀ y ∈ F, y = x) :
    Wp NoBfree (FileSys.iput sb x) (fun _ s' => Calm.Done sb T H s') s :=
  Calm.iput h hx nofun fun y hy hR => absurd (hR (hF y hy)) (Multiset.notMem_zero x)

theorem Calm.iunlockputOnly (h : Calm sb T H {x} L F s) (hx : x ∈ F → x ∈ L) (hF : ∀ y ∈ F, y = x) :
    Wp NoBfree (FileSys.iunlockput sb x) (fun _ s' => Calm.Done sb T H s') s :=
  wp_seq (h.iunlock (.inr (Multiset.mem_singleton_self x))) fun _ _ hs1 => hs1.iputOnly hx hF

/-- the only inode of the call was only looked at -/
theorem Calm.iunlockputLooked (h : Calm sb T H {x} L [] s) :
    Wp NoBfree (FileSys.iunlockput sb x) (fun _ s' => Calm.Done sb T H s') s :=
  h.iunlockputOnly nofun nofun

theorem Calm.begun (h : Calm.Done sb T H s) : Calm.Done sb T H s.begun :=
  ⟨h.safe.tables rfl rfl rfl rfl, h.cwd, h.file, h.ofile⟩

theorem Ends.calm (h : Ends sb s H es s') (hT : Calm.Done sb T H s) : Calm.Done sb T H s' := by
  obtain ⟨s1, hs1, rfl⟩ := h
  have hcalm := hs1.calm hT.begun
  exact ⟨hcalm.safe.tables rfl rfl rfl rfl, hcalm.cwd, hcalm.file, hcalm.ofile⟩

theorem Calm.link (hsb : sb.Ok) (h : Calm.Done sb s H s) (hcwd : 0 < H ((s.cwd pid).getD 0)) (old new : Option (List UInt8)) :
    Wp NoBfree (sysLink sb pid old new) (fun _ s' => Calm.Done sb s H s') s := by
  cases old with
  | none => exact h
  | some old =>
    cases new with
    | none => exact h
    | some new => exact wp_mono (sysLink_spec hsb h.safe hcwd) fun _ _ ⟨_, _, hs'⟩ => hs'.calm h

theorem Calm.unlink (hsb : sb.Ok) (h : Calm.Done sb s H s) (hcwd : 0 < H ((s.cwd pid).getD 0)) (path : Option (List UInt8)) :
    Wp NoBfree (sysUnlink sb pid path) (fun _ s' => Calm.Done sb s H s') s := by
  cases path with
  | none => exact h
  | some path => exact wp_mono (sysUnlink_spec hsb h.safe hcwd (.inl (by decide))) fun _ _ ⟨_, _, hs'⟩ => hs'.calm h

theorem Calm.create (hsb : sb.Ok) (h : Calm.Done sb s H s) (hcwd : 0 < H ((s.cwd pid).getD 0)) (path : List UInt8) (type : Ty)
    (major minor : ℤ) : Wp NoBfree (create sb pid path type major minor) (fun r s' =>
      Calm sb s H (r.elim 0 fun ip => {ip}) (r.elim [] fun ip => [ip]) [] s') s.begun :=
  wp_mono (create_spec hsb h.safe.begin hcwd) fun _ _ ⟨_, _, hs'⟩ => hs'.calm h.begun

theorem Calm.createEnd {r : Option ℕ} (h : Calm sb T H (r.elim 0 fun ip => {ip}) (r.elim [] fun ip => [ip]) [] s) :
    Wp NoBfree (createEnd sb r) (fun _ s' => Calm.Done sb T H s') s := by
  cases r with
  | none => exact wp_seq (Calm.endOp h) fun _ s1 hs1 => hs1
  | some ip =>
    have h : Calm sb T H {ip} [ip] [] s := h
    refine wp_seq h.iunlockputLooked fun _ s1 hs1 => ?_
    exact wp_seq hs1.endOp fun _ s2 hs2 => hs2

theorem Calm.mkdir (hsb : sb.Ok) (h : Calm.Done sb s H s) (hcwd : 0 < H ((s.cwd pid).getD 0)) (path : Option (List UInt8)) :
    Wp NoBfree (sysMkdir sb pid path) (fun _ s' => Calm.Done sb s H s') s := by
  unfold sysMkdir
  split
  · exact wp_seq h.beginOp fun _ s1 hs1 => Calm.createEnd (r := none) hs1
  · refine wp_write.2 ?_
    exact wp_seq (h.create hsb hcwd _ _ _ _) fun r s2 hs2 => Calm.createEnd hs2

theorem Calm.mknod (hsb : sb.Ok) (h : Calm.Done sb s H s) (hcwd : 0 < H ((s.cwd pid).getD 0)) (major minor : ℤ)
    (path : Option (List UInt8)) : Wp NoBfree (sysMknod sb pid major minor path) (fun _ s' => Calm.Done sb s H s') s := by
  unfold sysMknod
  split
  · exact wp_seq h.beginOp fun _ s1 hs1 => Calm.createEnd (r := none) hs1
  · refine wp_write.2 ?_
    exact wp_seq (h.create hsb hcwd _ _ _ _) fun r s2 hs2 => Calm.createEnd hs2

/-! ## Tables -/

/-- the tables change, and `H` with them -/
theorem Calm.retable (h : Calm sb T H R L F s) {s' : St} (hc : s'.icache = s.icache) (hd : s'.dinode = s.dinode)
    (hu : s'.used = s.used) (hdata : s'.data = s.data) : Calm sb s' H R L F s' :=
  ⟨h.safe.tables hc hd hu hdata, rfl, rfl, rfl⟩

theorem Calm.take (h : Calm sb T H R L F s) (hsum : ∀ y, H y = H' y + Multiset.count y {x}) :
    ∃ L' F', (x ∈ F' → x ∈ F ∨ x ∈ L') ∧ (∀ y ∈ F', y = x ∨ y ∈ F) ∧ (∀ y ∈ L, y ∈ L') ∧
      Calm sb T H' (x ::ₘ R) L' F' s := by
  obtain ⟨L', F', hx, hF, hL, hsafe⟩ := h.safe.take hsum
  exact ⟨L', F', hx, hF, hL, hsafe, h.cwd, h.file, h.ofile⟩

/-- the call hands over a reference to an inode that it has read -/
theorem Calm.give (h : Calm sb T H (x ::ₘ R) L F s) (hx : x ∈ F → x ∈ L)
    (hsum : ∀ y, H' y = H y + Multiset.count y {x}) (hF : ∀ y ∈ F, y = x ∨ y ∈ F') : Calm sb T H' R L F' s := by
  refine ⟨⟨h.safe.good, h.safe.quiet, fun y => ?_, h.safe.loaded, fun y hty hzero => ?_, h.safe.nlink⟩, h.cwd, h.file,
    h.ofile⟩
  · rw [h.safe.ref, hsum, Multiset.count_cons, Multiset.count_singleton]
    omega
  · rcases h.safe.linked y hty hzero with hy | hy
    · refine .inl ⟨?_, hy.2⟩
      rw [hsum]
      omega
    · refine (hF y hy).imp_left fun hyx => ?_
      rw [hyx, hsum, Multiset.count_singleton_self]
      exact ⟨by omega, h.safe.loaded x (hx (hyx ▸ hy))⟩

/-- the file table is in order and `H` counts its references and those of the directories -/
structure Tabled (sb : Superblock) (R : Multiset ℕ) (L F : List ℕ) (s : St) : Prop where
  calm : Calm sb s s.holds R L F s
  files : s.Files

theorem Wf.tabled (h : Wf sb s) : Tabled sb 0 [] [] s := ⟨⟨h.safe, rfl, rfl, rfl⟩, h.files⟩

theorem Tabled.wf (h : Tabled sb 0 [] [] s) : Wf sb s := ⟨h.calm.safe, h.files⟩

theorem Calm.holds_eq (h : Calm sb T H R L F s) : s.holds = T.holds := by
  funext x
  unfold St.holds
  rw [h.cwd, h.file]

/-- a part of the call that leaves the tables alone -/
theorem Tabled.of_calm (hT : T.Files) (h : Calm sb T T.holds R L F s) : Tabled sb R L F s := by
  refine ⟨⟨?_, rfl, rfl, rfl⟩, fun f => ?_⟩
  · rw [h.holds_eq]
    exact h.safe
  · rw [h.file]
    exact hT f

theorem Tabled.lift {α : Type} {p : FsM α} {R' : α → Multiset ℕ} {L' F' : α → List ℕ} (h : Tabled sb R L F s)
    (hp : Calm sb s s.holds R L F s → Wp NoBfree p (fun a s' => Calm sb s s.holds (R' a) (L' a) (F' a) s') s) :
    Wp NoBfree p (fun a s' => Tabled sb (R' a) (L' a) (F' a) s') s :=
  wp_mono (hp h.calm) fun _ _ hs' => .of_calm h.files hs'

variable {e : File}

/-- the free entries still have no type -/
theorem St.Files.setFile (h : s.Files) (he : e.ref = 0 → e.type = .none) :
    (s.setFile f e).Files := by
  intro g hg
  by_cases hgf : g = f
  · subst hgf
    have heq : (s.setFile g e).file g = e := update_self ..
    rw [heq] at hg ⊢
    exact he hg
  · have heq : (s.setFile f e).file g = s.file g := update_of_ne hgf ..
    rw [heq] at hg ⊢
    exact h g hg

/-- the change does not touch what the entry refers to -/
theorem Tabled.setFile (h : Tabled sb R L F s) (he : e.ref = 0 → e.type = .none)
    (hsame : ∀ y, e.holds y = (s.file f).holds y) : Tabled sb R L F (s.setFile f e) := by
  have hholds : (s.setFile f e).holds = s.holds := by
    funext y
    have hsum := St.holds_setFile (s := s) f e y
    rw [hsame] at hsum
    omega
  refine ⟨?_, h.files.setFile he⟩
  rw [hholds]
  exact h.calm.retable rfl rfl rfl rfl

theorem Tabled.setFd (h : Tabled sb R L F s) (pid : Fin NPROC) (fd : Fin NOFILE) (v : Option (Fin NFILE)) :
    Tabled sb R L F (s.setFd pid fd v) :=
  ⟨⟨h.calm.safe.tables rfl rfl rfl rfl, rfl, rfl, rfl⟩, h.files⟩

theorem Tabled.filealloc (h : Tabled sb R L F s) : Wp NoBfree filealloc (fun r s' => Tabled sb R L F s' ∧
    ∀ f, r = some f → (s'.file f).ref = 1 ∧ (s'.file f).type = .none) s := by
  unfold FileSys.filealloc
  refine wp_atomic.2 ?_
  cases hfind : (List.finRange NFILE).find? fun i => (s.file i).ref = 0 with
  | none => exact ⟨h, fun f hf => by cases hf⟩
  | some g =>
    have hzero : (s.file g).ref = 0 := by simpa using List.find?_some hfind
    have hnone := h.files g hzero
    refine ⟨h.setFile (fun h => absurd h one_ne_zero) fun y => ?_, fun f hf => ?_⟩
    · simp [File.holds, hnone]
    · obtain rfl : g = f := Option.some.inj hf
      have heq : (s.setFile g { s.file g with ref := 1 }).file g = { s.file g with ref := 1 } := update_self ..
      rw [heq]
      exact ⟨rfl, hnone⟩

theorem Tabled.fdalloc (h : Tabled sb R L F s) (pid : Fin NPROC) (f : Fin NFILE) :
    Wp NoBfree (fdalloc pid f) (fun _ s' => Tabled sb R L F s' ∧ s'.file = s.file) s := by
  unfold FileSys.fdalloc
  refine wp_atomic.2 ?_
  split
  · exact ⟨h.setFd _ _ _, rfl⟩
  · exact ⟨h, rfl⟩

theorem Tabled.filedup (h : Tabled sb R L F s) (f : Fin NFILE) : Wp NoBfree (filedup f) (fun _ s' => Tabled sb R L F s') s := by
  unfold FileSys.filedup
  refine wp_read.2 ?_
  split
  · exact wp_panic.2 (by decide)
  · rename_i hpos
    refine h.setFile (fun h => absurd h (Nat.succ_ne_zero _)) fun y => ?_
    have hpos : 0 < (s.file f).ref := by omega
    simp [File.holds, hpos]

/-- an open file on an inode is one reference to it -/
theorem File.holds_inode (hpos : 0 < e.ref) (htype : e.type = .inode) (y : ℕ) : e.holds y = Multiset.count y {e.ip} := by
  rw [Multiset.count_singleton]
  simp [File.holds, hpos, htype, eq_comm]

theorem File.holds_other (h : e.type ≠ .inode) (y : ℕ) : e.holds y = 0 := by
  simp [File.holds, h]

/-- the reference of an open file to its inode -/
theorem St.holds_closed (hpos : 0 < (s.file f).ref) (htype : (s.file f).type = .inode)
    (he : e.type = .none) (y : ℕ) : s.holds y = (s.setFile f e).holds y + Multiset.count y {(s.file f).ip} := by
  have hsum := St.holds_setFile (s := s) f e y
  rw [File.holds_inode hpos htype, File.holds_other (by rw [he]; decide), Nat.add_zero] at hsum
  exact hsum.symm

/-- the file's reference becomes the call's -/
theorem Tabled.closed (h : Tabled sb 0 [] [] s) (hpos : 0 < (s.file f).ref) (htype : (s.file f).type = .inode) (he : e.type = .none) :
    ∃ L F, ((s.file f).ip ∈ F → (s.file f).ip ∈ L) ∧ (∀ y ∈ F, y = (s.file f).ip) ∧ Tabled sb {(s.file f).ip} L F (s.setFile f e) := by
  have hcalm : Calm sb (s.setFile f e) s.holds 0 [] [] (s.setFile f e) := h.calm.retable rfl rfl rfl rfl
  obtain ⟨L, F, hx, hF, -, hmid⟩ := hcalm.take (St.holds_closed hpos htype he)
  exact ⟨L, F, fun hmem => (hx hmem).resolve_left List.not_mem_nil, fun y hy => (hF y hy).resolve_right List.not_mem_nil,
    hmid, h.files.setFile fun _ => he⟩

/-- the call's reference becomes the file's -/
theorem Tabled.opened (h : Tabled sb {x} [x] [] s) (hnone : (s.file f).type = .none)
    (hpos : 0 < e.ref) (htype : e.type = .inode) (hip : e.ip = x) : Tabled sb 0 [] [] (s.setFile f e) := by
  have hsum : ∀ y, (s.setFile f e).holds y = s.holds y + Multiset.count y {x} := by
    intro y
    have hsum := St.holds_setFile (s := s) f e y
    rw [File.holds_inode hpos htype, File.holds_other (by rw [hnone]; decide), hip, Nat.add_zero] at hsum
    exact hsum
  have hcalm : Calm sb (s.setFile f e) s.holds (x ::ₘ 0) [x] [] (s.setFile f e) := h.calm.retable rfl rfl rfl rfl
  have hmid : Calm sb (s.setFile f e) (s.setFile f e).holds 0 [x] [] (s.setFile f e) :=
    hcalm.give nofun hsum nofun
  exact ⟨hmid.mono nofun, h.files.setFile fun hzero => absurd hzero hpos.ne'⟩

/-- `fileclose` of a file that is not on an inode -/
theorem Tabled.fileclose_other (h : Tabled sb R L F s) (f : Fin NFILE) (htype : (s.file f).type ≠ .inode) :
    Wp NoBfree (fileclose sb f) (fun _ s' => Tabled sb R L F s' ∧ s'.cwd = s.cwd) s := by
  unfold FileSys.fileclose
  refine wp_read.2 ?_
  split
  · exact wp_panic.2 (by decide)
  rename_i hpos
  split
  · rename_i hmany
    refine wp_modify.2 ⟨h.setFile (fun href => ?_) fun y => ?_, rfl⟩
    · simp only at href
      omega
    · rw [File.holds_other htype, File.holds_other]
      exact htype
  · refine wp_bind.2 (wp_modify.2 ⟨h.setFile (fun _ => rfl) fun y => ?_, rfl⟩)
    rw [File.holds_other htype, File.holds_other]
    exact fun heq => by cases heq

/-- `fileclose`: the last reference to a file on an inode drops one to the inode -/
theorem Tabled.fileclose (h : Tabled sb 0 [] [] s) (f : Fin NFILE) :
    Wp NoBfree (fileclose sb f) (fun _ s' => Tabled sb 0 [] [] s' ∧ s'.cwd = s.cwd) s := by
  by_cases htype : (s.file f).type = .inode
  · unfold FileSys.fileclose
    refine wp_read.2 ?_
    split
    · exact wp_panic.2 (by decide)
    rename_i hpos
    split
    · rename_i hmany
      refine wp_modify.2 ⟨h.setFile (fun hzero => ?_) fun y => ?_, rfl⟩
      · simp only at hzero
        omega
      · have h1 : 0 < (s.file f).ref - 1 := by omega
        have h2 : 0 < (s.file f).ref := by omega
        simp [File.holds, h1, h2]
    refine wp_write.2 ?_
    obtain ⟨L, F, hx, hF, hmid⟩ := h.closed (f := f) (e := { s.file f with ref := 0, type := .none }) (by omega) htype rfl
    refine wp_seq hmid.calm.beginOp fun _ s1 hs1 => ?_
    refine wp_seq (hs1.iputOnly hx hF) fun _ s2 hs2 => ?_
    exact wp_mono hs2.endOp fun _ s3 hs3 => ⟨.of_calm hmid.files hs3, hs3.cwd⟩
  · exact h.fileclose_other f htype

theorem Calm.openBad (h : Calm sb T H {x} [x] [] s) : Wp NoBfree (openBad sb x) (fun _ s' => Calm.Done sb T H s') s := by
  unfold FileSys.openBad
  refine wp_seq h.iunlockputLooked fun _ s1 hs1 => ?_
  exact wp_seq hs1.endOp fun _ s2 hs2 => hs2

theorem Tabled.openInode (h : Tabled sb {x} [x] [] s) (pid : Fin NPROC) (omode : ℕ) :
    Wp NoBfree (openInode sb pid x omode) (fun _ s' => Tabled sb 0 [] [] s') s := by
  unfold FileSys.openInode
  refine wp_seq h.filealloc fun r s1 ⟨hs1, hr⟩ => ?_
  cases r with
  | none => exact hs1.lift fun hc => hc.openBad
  | some f =>
    obtain ⟨href, htype⟩ := hr f rfl
    refine wp_seq (hs1.fdalloc pid f) fun r s2 ⟨hs2, hfile⟩ => ?_
    rw [← hfile] at href htype
    cases r with
    | none =>
      refine wp_seq (hs2.fileclose_other f (by rw [htype]; decide)) fun _ s3 hs3 => ?_
      exact hs3.1.lift fun hc => hc.openBad
    | some fd =>
      refine wp_seq (hs2.calm.iunlock (.inr (Multiset.mem_singleton_self x))) fun _ s3 hs3 => ?_
      refine wp_seq hs3.endOp fun _ s4 hs4 => wp_write.2 ?_
      have hs5 := Tabled.of_calm hs2.files hs4
      rw [← hs4.file] at href htype
      exact hs5.opened htype (by simp [href]) rfl rfl

theorem Tabled.open (hsb : sb.Ok) (h : Tabled sb 0 [] [] s) (hcwd : 0 < s.holds ((s.cwd pid).getD 0)) (omode : ℕ)
    (path : Option (List UInt8)) : Wp NoBfree (sysOpen sb pid omode path) (fun _ s' => Tabled sb 0 [] [] s') s := by
  unfold sysOpen
  split
  · exact h
  refine wp_write.2 ?_
  have hs1 := h.calm.begun
  split
  · refine wp_seq (h.calm.create hsb hcwd _ _ _ _) fun r s2 hs2 => ?_
    cases r with
    | none => exact wp_seq (Calm.endOp hs2) fun _ s3 hs3 => .of_calm h.files hs3
    | some x => exact (Tabled.of_calm h.files hs2).openInode pid omode
  · refine wp_seq (hs1.namei hcwd kept_nil kept_nil _) fun r s2 hs2 => ?_
    cases r with
    | none => exact wp_seq (Calm.endOp hs2) fun _ s3 hs3 => .of_calm h.files hs3
    | some x =>
      have hs2 : Calm sb s s.holds {x} [] [] s2 := hs2
      refine wp_seq (hs2.ilock (.inr (Multiset.mem_singleton_self x))) fun _ s3 hs3 => wp_read.2 ?_
      split
      · refine wp_seq (Calm.iunlockputLooked hs3) fun _ s4 hs4 => ?_
        exact wp_seq hs4.endOp fun _ s5 hs5 => .of_calm h.files hs5
      · exact (Tabled.of_calm h.files hs3).openInode pid omode

theorem Tabled.close (h : Tabled sb 0 [] [] s) (pid : Fin NPROC) (fd : Fin NOFILE) :
    Wp NoBfree (sysClose sb pid fd) (fun _ s' => Tabled sb 0 [] [] s') s := by
  unfold sysClose
  refine wp_read.2 ?_
  split
  · exact h
  · refine wp_write.2 ?_
    exact wp_seq ((h.setFd pid fd none).fileclose _) fun _ s1 hs1 => hs1.1

theorem Tabled.dup (h : Tabled sb 0 [] [] s) (pid : Fin NPROC) (fd : Fin NOFILE) :
    Wp NoBfree (sysDup pid fd) (fun _ s' => Tabled sb 0 [] [] s') s := by
  unfold sysDup
  refine wp_read.2 ?_
  split
  · exact h
  · refine wp_seq (h.fdalloc pid _) fun r s1 ⟨hs1, _⟩ => ?_
    cases r with
    | none => exact hs1
    | some fd' => exact wp_seq (hs1.filedup _) fun _ s2 hs2 => hs2

/-- the offset of a file changes -/
theorem Tabled.setOff (h : Tabled sb R L F s) (f : Fin NFILE) (off : ℕ) :
    Tabled sb R L F (s.setFile f { s.file f with off := off }) :=
  h.setFile (h.files f) fun _ => rfl

/-- an open file on an inode holds it -/
theorem Tabled.ip_held (h : Tabled sb R L F s) (htype : (s.file f).type = .inode) :
    0 < s.holds (s.file f).ip :=
  St.holds_file (Nat.pos_of_ne_zero fun hzero => by rw [h.files f hzero] at htype; cases htype) htype

theorem iunlock_file (f : Fin NFILE) : Wp NoBfree (FileSys.iunlock x) (fun _ s' => s'.file f = s.file f) s := by
  unfold FileSys.iunlock
  refine wp_read.2 ?_
  split
  · exact wp_panic.2 (by decide)
  · exact rfl

/-- the end of a read or a chunk of a write: the offset moves on and the inode is unlocked -/
theorem Calm.iunlockOff (h : Calm sb T T.holds 0 L [] s) (hT : T.Files) (f : Fin NFILE) (off : ℕ)
    (hheld : 0 < T.holds (T.file f).ip) : Wp NoBfree (FileSys.iunlock (T.file f).ip) (fun _ s' => Tabled sb 0 [] [] s')
      (s.setFile f { s.file f with off := off }) := by
  have hcalm : Calm sb T T.holds 0 [] [] s := h.mono nofun
  have hs := (Tabled.of_calm hT hcalm).setOff f off
  refine hs.lift fun hc => hc.iunlock (.inl ?_)
  have hholds : (s.setFile f { s.file f with off := off }).holds = s.holds := by
    funext y
    have hsum := St.holds_setFile (s := s) f { s.file f with off := off } y
    exact Nat.add_right_cancel hsum
  rw [hholds, h.holds_eq]
  exact hheld

theorem Tabled.fileread (h : Tabled sb 0 [] [] s) (htype : (s.file f).type = .inode) (n : ℕ) :
    Wp NoBfree (fileread sb f n) (fun _ s' => Tabled sb 0 [] [] s') s := by
  have hheld := h.ip_held htype
  unfold FileSys.fileread
  refine wp_read.2 ?_
  split
  · refine wp_seq (h.calm.ilock (.inl hheld)) fun _ s1 hs1 => wp_read.2 ?_
    rw [hs1.file]
    refine wp_seq (hs1.readi List.mem_cons_self (.inl hheld) _ n) fun r s2 hs2 => wp_write.2 ?_
    exact wp_seq (hs2.iunlockOff h.files f _ hheld) fun _ s4 hs4 => hs4
  · exact h

theorem Tabled.writeChunk (hsb : sb.Ok) (h : Tabled sb 0 [] [] s) (htype : (s.file f).type = .inode)
    (src : List UInt8) : Wp NoBfree (writeChunk sb f src) (fun _ s' => Tabled sb 0 [] [] s' ∧ (s'.file f).type = .inode) s := by
  have hheld := h.ip_held htype
  unfold FileSys.writeChunk
  refine wp_seq h.calm.beginOp fun _ s1 hs1 => wp_read.2 ?_
  rw [hs1.file]
  refine wp_seq (hs1.ilock (.inl hheld)) fun _ s2 hs2 => wp_read.2 ?_
  rw [hs2.file]
  refine wp_seq (hs2.writei hsb List.mem_cons_self (.inl hheld) src _) fun r s3 hs3 => wp_write.2 ?_
  have hfile : ((s3.setFile f { s3.file f with off := uint ((s3.file f).off + r.getD 0) }).file f).type = .inode := by
    simp [St.setFile, hs3.file, htype]
  refine wp_seq (wp_and (hs3.iunlockOff h.files f _ hheld) (iunlock_file f)) fun _ s4 ⟨hs4, hf4⟩ => ?_
  refine wp_seq hs4.calm.endOp fun _ s5 hs5 => ⟨.of_calm hs4.files hs5, ?_⟩
  rw [hs5.file, hf4]
  exact hfile

theorem Tabled.filewriteLoop (hsb : sb.Ok) (fuel : ℕ) : ∀ (s : St) (src : List UInt8), Tabled sb 0 [] [] s → (s.file f).type = .inode →
      Wp NoBfree (filewriteLoop sb f fuel src) (fun _ s' => Tabled sb 0 [] [] s') s := by
  induction fuel with
  | zero =>
    intro s src h _
    exact h
  | succ fuel ih =>
    intro s src h htype
    unfold FileSys.filewriteLoop
    split
    · exact h
    refine wp_seq (h.writeChunk hsb htype _) fun r s1 ⟨hs1, htype1⟩ => ?_
    cases r with
    | none => exact hs1
    | some n =>
      simp only
      split
      · exact wp_panic.2 (by decide)
      · exact ih s1 _ hs1 htype1

theorem Tabled.write (hsb : sb.Ok) (h : Tabled sb 0 [] [] s) (pid : Fin NPROC) (fd : Fin NOFILE) (src : List UInt8) :
    Wp NoBfree (sysWrite sb pid fd src) (fun _ s' => Tabled sb 0 [] [] s') s := by
  unfold sysWrite
  refine wp_read.2 ?_
  split
  · exact h
  split
  · rename_i htype
    unfold filewrite
    refine wp_read.2 ?_
    split
    · refine wp_seq (Tabled.filewriteLoop hsb _ s src h htype) fun r s1 hs1 => ?_
      cases r with
      | true => exact hs1
      | false => exact hs1
    · exact h
  · exact h

theorem Tabled.read (h : Tabled sb 0 [] [] s) (pid : Fin NPROC) (fd : Fin NOFILE) (n : ℕ) :
    Wp NoBfree (sysRead sb pid fd n) (fun _ s' => Tabled sb 0 [] [] s') s := by
  unfold sysRead
  refine wp_read.2 ?_
  split
  · exact h
  split
  · rename_i htype
    exact h.fileread htype n
  · exact h

theorem Calm.chdirTo (h : Calm sb s0 s0.holds {x} [] [] s) (hfiles : s0.Files) (hcwd : s0.cwd pid = some c) :
    Wp NoBfree (chdirTo sb pid x) (fun _ s' => Tabled sb 0 [] [] s') s := by
  unfold FileSys.chdirTo
  refine wp_seq (h.ilock (.inr (Multiset.mem_singleton_self x))) fun _ s1 hs1 => wp_read.2 ?_
  split
  · refine wp_seq hs1.iunlockputLooked fun _ s2 hs2 => ?_
    exact wp_seq hs2.endOp fun _ s3 hs3 => .of_calm hfiles hs3
  rw [hs1.cwd, hcwd]
  refine wp_seq (hs1.iunlock (.inr (Multiset.mem_singleton_self x))) fun _ s2 hs2 => ?_
  -- the old directory is the call's now, and goes
  have hsum := St.holds_leave hcwd
  obtain ⟨L, F, hx, hF, hL, hmid⟩ := hs2.take hsum
  have hput : Wp NoBfree (FileSys.iput sb c) (fun _ s' => Calm sb s0 (s0.setCwd pid none).holds {x} [x] [x] s') s2 := by
    refine hmid.iput (fun hmem => (hx hmem).resolve_left List.not_mem_nil) (fun y hy => ⟨hL y hy, fun heq => ?_⟩)
      fun y hy hR => ?_
    · exact .inr (Multiset.mem_singleton.2 (heq.symm.trans (List.mem_singleton.1 hy)))
    · have hyc := (hF y hy).resolve_right List.not_mem_nil
      exact List.mem_singleton.2 (hyc.trans (Multiset.mem_singleton.1 (hR hyc)))
  refine wp_seq hput fun _ s3 hs3 => wp_seq hs3.endOp fun _ s4 hs4 => wp_write.2 ?_
  have hsum' : ∀ y, (s4.setCwd pid (some x)).holds y = (s0.setCwd pid none).holds y + Multiset.count y {x} := by
    intro y
    have h1 := St.holds_setCwd (s := s4) pid (some x) y
    have h2 := hsum y
    rw [hs4.cwd, hs4.holds_eq, hcwd, cwdHolds_some, cwdHolds_some] at h1
    omega
  have hcalm : Calm sb (s4.setCwd pid (some x)) (s0.setCwd pid none).holds (x ::ₘ 0) [x] [x] (s4.setCwd pid (some x)) :=
    hs4.retable rfl rfl rfl rfl
  refine ⟨(hcalm.give id hsum' fun y hy => .inl (List.mem_singleton.1 hy)).mono
    nofun, fun f => ?_⟩
  exact hs4.file ▸ hfiles f

theorem Tabled.chdir (h : Tabled sb 0 [] [] s) (hcwd : s.cwd pid = some c) (path : Option (List UInt8)) :
    Wp NoBfree (sysChdir sb pid path) (fun _ s' => Tabled sb 0 [] [] s') s := by
  have hpos := St.holds_start hcwd
  unfold sysChdir
  split
  · exact wp_seq h.calm.beginOp fun _ s1 hs1 => wp_seq hs1.endOp fun _ s2 hs2 => .of_calm h.files hs2
  · refine wp_seq h.calm.beginOp fun _ s1 hs1 => ?_
    refine wp_seq (hs1.namei hpos kept_nil kept_nil _) fun r s2 hs2 => ?_
    cases r with
    | none => exact wp_seq (Calm.endOp hs2) fun _ s3 hs3 => .of_calm h.files hs3
    | some x => exact Calm.chdirTo hs2 h.files hcwd

/-! ## `exec`, `fork` and `exit` -/

theorem Calm.exec (h : Calm.Done sb s H s) (hcwd : 0 < H ((s.cwd pid).getD 0)) (path : List UInt8) (mem : ExecMem) :
    Wp NoBfree (exec sb pid path mem) (fun _ s' => Calm.Done sb s H s') s :=
  wp_mono (exec_spec h.safe hcwd path mem) fun _ _ hs' => hs'.calm h

theorem filedup_cwd (f : Fin NFILE) : Wp NoBfree (FileSys.filedup f) (fun _ s' => s'.cwd = s.cwd) s := by
  unfold FileSys.filedup
  refine wp_read.2 ?_
  split
  · exact wp_panic.2 (by decide)
  · exact rfl

theorem Tabled.fork (h : Tabled sb 0 [] [] s) (hcwd : s.cwd pid = some c) {child : Fin NPROC}
    (hchild : s.cwd child = none) : Wp NoBfree (forkFiles pid child) (fun _ s' => Tabled sb 0 [] [] s') s := by
  unfold forkFiles
  refine wp_seq (wp_forEach (I := fun _ s' => Tabled sb 0 [] [] s' ∧ s'.cwd = s.cwd) (fun fd fds s1 ⟨hs1, hc1⟩ => ?_)
    (List.finRange NOFILE) ⟨h, rfl⟩) fun _ s1 ⟨hs1, hc1⟩ => wp_read.2 ?_
  · refine wp_read.2 ?_
    split
    · exact ⟨hs1, hc1⟩
    · refine wp_seq (wp_and (hs1.filedup _) (filedup_cwd _)) fun _ s2 ⟨hs2, hc2⟩ => wp_modify.2 ?_
      exact ⟨hs2.setFd child fd _, hc2.trans hc1⟩
  · rw [hc1, hcwd]
    have hpos : 0 < s1.holds c := St.holds_cwd ((congrFun hc1 pid).trans hcwd)
    refine wp_seq (hs1.calm.quiet (idup_spec hs1.calm.safe (.inl hpos))) fun _ s2 hs2 => wp_modify.2 ?_
    rw [hs2.cwd, hc1, hcwd]
    have hsum : ∀ y, (s2.setCwd child (some c)).holds y = s1.holds y + Multiset.count y {c} := by
      intro y
      have hsum := St.holds_setCwd (s := s2) child (some c) y
      rw [hs2.cwd, hs2.holds_eq, hc1, hchild, cwdHolds_some, cwdHolds_none, Nat.add_zero] at hsum
      exact hsum
    have hcalm : Calm sb (s2.setCwd child (some c)) s1.holds (c ::ₘ 0) [] [] (s2.setCwd child (some c)) :=
      hs2.retable rfl rfl rfl rfl
    refine ⟨hcalm.give id hsum nofun, fun f => ?_⟩
    exact hs2.file ▸ hs1.files f

/-- the loop of `exit`: the files go one by one -/
theorem Tabled.exitFiles (h : Tabled sb 0 [] [] s) (pid : Fin NPROC) :
    Wp NoBfree (forEach (fun fd => do
      let s ← get
      match s.ofile pid fd with
      | none => pure ()
      | some f =>
        FileSys.fileclose sb f
        modify fun s => s.setFd pid fd none) (List.finRange NOFILE))
      (fun _ s' => Tabled sb 0 [] [] s' ∧ s'.cwd = s.cwd) s := by
  refine wp_forEach (I := fun _ s' => Tabled sb 0 [] [] s' ∧ s'.cwd = s.cwd) (fun fd fds s1 ⟨hs1, hc1⟩ => ?_) _ ⟨h, rfl⟩
  refine wp_read.2 ?_
  split
  · exact ⟨hs1, hc1⟩
  · refine wp_seq (hs1.fileclose _) fun _ s2 hs2 => wp_modify.2 ?_
    exact ⟨hs2.1.setFd pid fd none, hs2.2.trans hc1⟩

theorem Tabled.exit (h : Tabled sb 0 [] [] s) (hcwd : s.cwd pid = some c) : Wp NoBfree (exit sb pid) (fun _ s' => Tabled sb 0 [] [] s') s := by
  unfold FileSys.exit
  refine wp_seq (h.exitFiles pid) fun _ s1 ⟨hs1, hc1⟩ => ?_
  refine wp_seq hs1.calm.beginOp fun _ s2 hs2 => wp_read.2 ?_
  rw [hs2.cwd, hc1, hcwd]
  have hsum := St.holds_leave ((congrFun hc1 pid).trans hcwd)
  obtain ⟨L, F, hx, hF, -, hmid⟩ := hs2.take hsum
  refine wp_seq (hmid.iputOnly (fun hmem => (hx hmem).resolve_left List.not_mem_nil)
    fun y hy => (hF y hy).resolve_right List.not_mem_nil) fun _ s3 hs3 => ?_
  refine wp_seq hs3.endOp fun _ s4 hs4 => wp_modify.2 ?_
  have hholds : (s4.setCwd pid none).holds = (s1.setCwd pid none).holds := by
    funext y
    unfold St.holds St.setCwd
    simp only [hs4.cwd, hs4.file]
  refine ⟨?_, fun f => hs4.file ▸ hs1.files f⟩
  rw [hholds]
  exact hs4.retable rfl rfl rfl rfl

/-! ## Every call -/

/-- **Every call keeps the file system well-formed**, and stops in no case because a free block is freed. -/
theorem call_wf (hsb : sb.Ok) (h : Wf sb s) {c : Call} (hc : c.Enabled s) : Wp NoBfree (c.prog sb) (fun _ s' => Wf sb s') s := by
  obtain ⟨d, hd⟩ := Option.isSome_iff_exists.1 hc.1
  have hpos := St.holds_start hd
  have ht := h.tabled
  have hdone : ∀ {s'}, Calm.Done sb s s.holds s' → Wf sb s' := fun hs' => (Tabled.of_calm h.files hs').wf
  cases c with
  | «open» pid omode path => exact wp_seq (ht.open hsb hpos omode path) fun _ _ hs' => hs'.wf
  | link pid old new => exact wp_seq (ht.calm.link hsb hpos old new) fun _ _ hs' => hdone hs'
  | unlink pid path => exact wp_seq (ht.calm.unlink hsb hpos path) fun _ _ hs' => hdone hs'
  | mkdir pid path => exact wp_seq (ht.calm.mkdir hsb hpos path) fun _ _ hs' => hdone hs'
  | mknod pid major minor path => exact wp_seq (ht.calm.mknod hsb hpos major minor path) fun _ _ hs' => hdone hs'
  | chdir pid path => exact wp_seq (ht.chdir hd path) fun _ _ hs' => hs'.wf
  | dup pid fd => exact wp_seq (ht.dup pid fd) fun _ _ hs' => hs'.wf
  | read pid fd n => exact wp_seq (ht.read pid fd n) fun _ _ hs' => hs'.wf
  | write pid fd src => exact wp_seq (ht.write hsb pid fd src) fun _ _ hs' => hs'.wf
  | close pid fd => exact wp_seq (ht.close pid fd) fun _ _ hs' => hs'.wf
  | exec pid path mem => exact wp_seq (ht.calm.exec hpos path mem) fun _ _ hs' => hdone hs'
  | fork pid child => exact wp_mono (ht.fork hd hc.2) fun _ _ hs' => hs'.wf
  | exit pid => exact wp_mono (ht.exit hd) fun _ _ hs' => hs'.wf

theorem callStep_wf (hsb : sb.Ok) (c : Call) (h : Wf sb s) : Wf sb (callStep sb s c) := by
  unfold callStep
  split
  · rename_i hc
    split
    · rename_i r hr
      obtain ⟨_, s', _⟩ := r
      exact wp_ok (Q := fun _ s' => Wf sb s') (call_wf hsb h hc) (solo_exec hr)
    · exact h
  · exact h

/-- **Block ownership.** After any sequence of calls on a well-formed file system, every block number that an allocated inode
or its indirect block holds is a data block and occurs once, and the free map marks exactly the other blocks of the disk and
those. So a block that `balloc` finds is nobody's, and no call stops with "freeing free block". -/
theorem block_ownership (hsb : sb.Ok) (hs : Wf sb s) (cs : List Call) :
    (∀ p, (run (callStep sb) s cs).slot p ≠ 0 →
      (sb.datastart ≤ (run (callStep sb) s cs).slot p ∧ (run (callStep sb) s cs).slot p < sb.size) ∧
        ∀ q, (run (callStep sb) s cs).slot q = (run (callStep sb) s cs).slot p → q = p) ∧
      (∀ b < sb.size, (run (callStep sb) s cs).used b = true ↔
        b < sb.datastart ∨ ∃ p, (run (callStep sb) s cs).slot p = b) ∧
      (∀ b, (run (callStep sb) s cs).freeBlock sb = some b → ∀ p, (run (callStep sb) s cs).slot p ≠ b) ∧
      ∀ c : Call, c.Enabled (run (callStep sb) s cs) →
        (c.prog sb).solo (run (callStep sb) s cs) [] ≠ .error (.panic .bfree) := by
  have hwf : Wf sb (run (callStep sb) s cs) := run_inv (fun s c hs => callStep_wf hsb c hs) s hs cs
  generalize run (callStep sb) s cs = s' at hwf
  have hgood := hwf.safe.good
  refine ⟨fun p hp => ⟨hgood.pool.range p hp, fun q hq => (hgood.pool.inj p q hp hq.symm).symm⟩, fun b hb => ?_,
    fun b hb p => ?_, fun c hc hpanic => ?_⟩
  · rcases lt_or_ge b sb.datastart with hlt | hge
    · exact iff_of_true (hgood.pool.low b hlt) (.inl hlt)
    · rw [hgood.pool.mark b hge hb]
      exact ⟨.inr, fun hor => hor.resolve_left hge.not_gt⟩
  · refine hgood.free_ne ⟨?_, ?_⟩ p
    · simpa using List.find?_some hb
    · exact List.mem_range.1 (List.mem_of_find?_eq_some hb)
  · exact wp_error (call_wf hsb hwf hc) (solo_panic hpanic) rfl

/-- an empty root directory, where process 0 is -/
def tinyRoot : St := (oneInode .dir).setCwd 0 (some 1)

theorem tinyRoot_holds (x : ℕ) : tinyRoot.holds x = if x = 1 then 1 else 0 := by
  have hsum := St.holds_setCwd (s := oneInode .dir) 0 (some 1) x
  have hzero : (oneInode .dir).holds x = 0 := by
    simp [St.holds, oneInode, cwdHolds, File.holds]
  have hcwd : (oneInode .dir).cwd 0 = none := rfl
  rw [hzero, hcwd, cwdHolds_none, cwdHolds_some, Multiset.count_singleton, zero_add, add_zero] at hsum
  exact hsum

theorem tinyRoot_wf : Wf tinySb tinyRoot := by
  have hsafe : Safe tinySb (oneInode .dir) (fun x => if x = 1 then 1 else 0) 0 [] [] (oneInode .dir) := by
    refine ⟨oneInode_good (by decide), .refl _, fun x => ?_, nofun, fun y hty _ => ?_,
      fun y => ?_⟩
    · simp only [oneInode]
      split <;> rfl
    · have hy : y = 1 := by
        by_contra hne
        rw [oneInode_node, if_neg hne] at hty
        exact hty rfl
      subst hy
      exact .inl ⟨by decide, by decide, rfl⟩
    · rw [oneInode_node]
      split <;> rfl
  refine ⟨?_, fun _ _ => rfl⟩
  rw [funext tinyRoot_holds]
  exact hsafe.tables rfl rfl rfl rfl

/-- the first data block after a directory has been made -/
theorem block_ownership_mkdir : (run (callStep tinySb) tinyRoot [.mkdir 0 (some [97])]).used tinySb.datastart = true ↔
    tinySb.datastart < tinySb.datastart ∨ ∃ p, (run (callStep tinySb) tinyRoot [.mkdir 0 (some [97])]).slot p = tinySb.datastart :=
  (block_ownership ⟨by decide, by decide⟩ tinyRoot_wf _).2.1 tinySb.datastart (by decide)

/-- **References between calls.** After any sequence of calls the cache counts exactly the open files and current directories on each
inode, and an inode without links is still there only if one of them holds it. -/
theorem reference_counts (hsb : sb.Ok) (hs : Wf sb s) (cs : List Call) (x : ℕ) :
    ((run (callStep sb) s cs).icache x).ref = (run (callStep sb) s cs).holds x ∧
      (((run (callStep sb) s cs).node x).type ≠ .free → ((run (callStep sb) s cs).node x).nlink = 0 →
        0 < (run (callStep sb) s cs).holds x) := by
  have hsafe := (run_inv (I := Wf sb) (fun s c hs => callStep_wf hsb c hs) s hs cs).safe
  refine ⟨by simpa using hsafe.ref x, fun hty hzero => ?_⟩
  exact ((hsafe.linked x hty hzero).resolve_right (List.not_mem_nil)).1

theorem reference_counts_mkdir : ((run (callStep tinySb) tinyRoot [.mkdir 0 (some [97])]).icache 1).ref =
    (run (callStep tinySb) tinyRoot [.mkdir 0 (some [97])]).holds 1 :=
  (reference_counts ⟨by decide, by decide⟩ tinyRoot_wf _ 1).1

end Xv6.FileSys
