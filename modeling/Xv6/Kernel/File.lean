/-
Open files, pipes and the in-memory inodes (`file.c`, `pipe.c`, `fs.c`), as far as their reference counts go.

The tables have the source's sizes and are searched from the front. What is on the disk is not modelled: which inode
a name leads to is an argument (`Path`), and the disk side of `iput` is left out. Locks are left out, since a whole
system call is one step.
-/
import Xv6.Kernel.Basic

namespace Xv6.Kernel

/-! ## Inodes -/

/-- an entry of the inode cache -/
structure Inode where
  inum : ℕ
  ref : ℤ

/-- what a file refers to; `FD_NONE` is `none` -/
inductive FileType
  | none
  | pipe (page : ℕ)
  | inode (ip : Fin NINODE)
  deriving DecidableEq

/-- an entry of the file table -/
structure File where
  ref : ℤ
  type : FileType
  writable : Bool

/-- the ends of a pipe that are open -/
structure Pipe where
  readopen : Bool
  writeopen : Bool

/-- the file table, the inode cache and the pipes, these by the page they live in -/
structure Files where
  file : Fin NFILE → File
  inode : Fin NINODE → Inode
  pipe : ℕ → Option Pipe

/-- the inode number of the root directory -/
def ROOTINO : ℕ := 1

/-- `ip->ref += n` -/
def addRef (n : ℤ) (ip : Fin NINODE) (c : Fin NINODE → Inode) : Fin NINODE → Inode :=
  Function.update c ip { c ip with ref := (c ip).ref + n }

/-- find the inode, or recycle the first entry that is not in use -/
def iget (inum : ℕ) (c : Fin NINODE → Inode) : Except Panic (Fin NINODE × (Fin NINODE → Inode)) :=
  match (List.finRange NINODE).find? fun i => decide (0 < (c i).ref ∧ (c i).inum = inum) with
  | some ip => .ok (ip, addRef 1 ip c)
  | none =>
    match (List.finRange NINODE).find? fun i => decide ((c i).ref = 0) with
    | some empty => .ok (empty, Function.update c empty ⟨inum, 1⟩)
    | none => .error .iget

def idup (ip : Fin NINODE) (c : Fin NINODE → Inode) : Fin NINODE → Inode := addRef 1 ip c

def iput (ip : Fin NINODE) (c : Fin NINODE → Inode) : Fin NINODE → Inode := addRef (-1) ip c

/-- the check of `ilock` -/
def ilock (ip : Fin NINODE) (c : Fin NINODE → Inode) : Except Panic Unit :=
  if (c ip).ref < 1 then .error .ilock else .ok ()

/-- a path name and what the directories on the disk make of it: the inode numbers its elements lead to in turn, and
whether the last step finds its inode -/
structure Path where
  abs : Bool
  elems : List ℕ
  found : Bool

/-- one round of the loop of `namex`: the next inode is looked up while the directory is held -/
def namexStep (st : Fin NINODE × (Fin NINODE → Inode)) (inum : ℕ) : Except Panic (Fin NINODE × (Fin NINODE → Inode)) := do
  let (ip, c) := st
  ilock ip c
  let (next, c) ← iget inum c
  return (next, iput ip c)

/-- the inode a path starts from -/
def namexStart (path : Path) (cwd : Option (Fin NINODE)) (c : Fin NINODE → Inode) :
    Except Panic (Fin NINODE × (Fin NINODE → Inode)) :=
  if path.abs then iget ROOTINO c
  else
    match cwd with
    | none => .error .fault
    | some ip => .ok (ip, idup ip c)

/-- look up a path; also what `create` does, whose last element is the inode it finds or allocates -/
def namex (path : Path) (cwd : Option (Fin NINODE)) (c : Fin NINODE → Inode) :
    Except Panic (Option (Fin NINODE) × (Fin NINODE → Inode)) := do
  let start ← namexStart path cwd c
  let (ip, c) ← path.elems.foldlM namexStep start
  if path.found then return (some ip, c)
  else
    ilock ip c
    return (none, iput ip c)

/-! ## Files -/

def filealloc (fs : Files) : Option (Fin NFILE) × Files :=
  match (List.finRange NFILE).find? fun f => decide ((fs.file f).ref = 0) with
  | some f => (some f, { fs with file := Function.update fs.file f { fs.file f with ref := 1 } })
  | none => (none, fs)

def filedup (f : Fin NFILE) (fs : Files) : Except Panic Files :=
  if (fs.file f).ref < 1 then .error .filedup
  else .ok { fs with file := Function.update fs.file f { fs.file f with ref := (fs.file f).ref + 1 } }

/-- close one end; a pipe without open ends gives its page back -/
def pipeclose (p : ℕ) (writable : Bool) (fs : Files) : Except Panic Files :=
  match fs.pipe p with
  | none => .error .fault
  | some pi =>
    let pi := if writable then { pi with writeopen := false } else { pi with readopen := false }
    let pi := if pi.readopen = false ∧ pi.writeopen = false then none else some pi
    .ok { fs with pipe := Function.update fs.pipe p pi }

def fileclose (f : Fin NFILE) (fs : Files) : Except Panic Files :=
  let ff := fs.file f
  if ff.ref < 1 then .error .fileclose
  else if 0 < ff.ref - 1 then
    .ok { fs with file := Function.update fs.file f { ff with ref := ff.ref - 1 } }
  else
    let fs := { fs with file := Function.update fs.file f { ff with ref := 0, type := .none } }
    match ff.type with
    | .pipe p => pipeclose p ff.writable fs
    | .inode ip => .ok { fs with inode := iput ip fs.inode }
    | .none => .ok fs

/-! ## What happens to the counts -/

theorem find?_finRange {n : ℕ} {p : Fin n → Bool} {i : Fin n} (h : (List.finRange n).find? p = some i) : p i = true :=
  List.find?_some h

/-- a search from the front finds the first -/
theorem find?_finRange_first {n : ℕ} {p : Fin n → Bool} {i : Fin n} (hi : p i = true) (hlt : ∀ j < i, p j = false) :
    (List.finRange n).find? p = some i := by
  rw [List.find?_eq_some_iff_getElem]
  refine ⟨hi, i, by simp, by simp, fun j hj => ?_⟩
  simpa using hlt ⟨j, hj.trans i.isLt⟩ hj

theorem addRef_ref (n : ℤ) (ip : Fin NINODE) (c : Fin NINODE → Inode) (i : Fin NINODE) :
    (addRef n ip c i).ref = (c i).ref + if i = ip then n else 0 := by
  unfold addRef
  by_cases h : i = ip
  · subst h
    simp
  · simp [h]

variable {inum : ℕ} {c c' : Fin NINODE → Inode} {ip : Fin NINODE}

theorem iget_spec (h : iget inum c = .ok (ip, c')) (i : Fin NINODE) : (c' i).ref = (c i).ref + if i = ip then 1 else 0 := by
  unfold iget at h
  split at h
  · cases h
    exact addRef_ref 1 _ c i
  · split at h
    · rename_i he
      cases h
      have hz : (c ip).ref = 0 := by simpa using find?_finRange he
      by_cases hi : i = ip
      · subst hi
        simp [hz]
      · simp [hi]
    · cases h

/-- a round moves one reference from the entry the walk stands on to the next one -/
theorem namexStep_spec {ip' : Fin NINODE} (h : namexStep (ip, c) inum = .ok (ip', c')) (i : Fin NINODE) :
    (c' i).ref + (if i = ip then 1 else 0) = (c i).ref + if i = ip' then 1 else 0 := by
  unfold namexStep at h
  obtain ⟨-, -, h⟩ := bind_ok h
  obtain ⟨⟨next, c1⟩, hg, h⟩ := bind_ok h
  cases h
  rw [iput, addRef_ref, iget_spec hg]
  split <;> omega

variable {path : Path} {cwd : Option (Fin NINODE)}

theorem namexStart_spec (h : namexStart path cwd c = .ok (ip, c')) (i : Fin NINODE) : (c' i).ref = (c i).ref + if i = ip then 1 else 0 := by
  unfold namexStart at h
  split at h
  · exact iget_spec h i
  · split at h
    · cases h
    · cases h
      exact addRef_ref 1 _ c i

/-- **Paths.** A lookup leaves one reference, on the entry it returns. -/
theorem namex_spec {r : Option (Fin NINODE)}
    (h : namex path cwd c = .ok (r, c')) (i : Fin NINODE) : (c' i).ref = (c i).ref + if some i = r then 1 else 0 := by
  unfold namex at h
  obtain ⟨⟨ip0, c0⟩, hs, h⟩ := bind_ok h
  obtain ⟨⟨ip, c1⟩, hw, h⟩ := bind_ok h
  have hwalk : (c1 i).ref = (c i).ref + if i = ip then 1 else 0 := by
    refine foldlM_inv (I := fun st => (st.2 i).ref = (c i).ref + if i = st.1 then 1 else 0) ?_ hw ?_
    · rintro ⟨ip, c⟩ inum ⟨ip', c'⟩ hstep hI
      have h1 := namexStep_spec hstep i
      simp only at hI ⊢
      omega
    · exact namexStart_spec hs i
  simp only at h
  split at h
  · cases h
    simpa using hwalk
  · obtain ⟨-, -, h⟩ := bind_ok h
    cases h
    rw [iput, addRef_ref, hwalk]
    simp only [reduceCtorEq, if_false]
    split <;> omega

variable {fs fs' : Files}

/-- a new file has one reference; no file lost its count -/
theorem filealloc_spec {r : Option (Fin NFILE)} (h : filealloc fs = (r, fs')) :
    (r = none ∧ fs' = fs) ∨ ∃ f, r = some f ∧ (fs.file f).ref = 0 ∧
      fs' = { fs with file := Function.update fs.file f { fs.file f with ref := 1 } } := by
  unfold filealloc at h
  split at h
  · rename_i f hf
    cases h
    exact .inr ⟨f, rfl, by simpa using find?_finRange hf, rfl⟩
  · cases h
    exact .inl ⟨rfl, rfl⟩

theorem filedup_spec {f : Fin NFILE} (h : filedup f fs = .ok fs') :
    1 ≤ (fs.file f).ref ∧
      fs' = { fs with file := Function.update fs.file f { fs.file f with ref := (fs.file f).ref + 1 } } := by
  unfold filedup at h
  split at h
  · cases h
  · cases h
    exact ⟨by omega, rfl⟩

theorem pipeclose_spec {p : ℕ} {writable : Bool} (h : pipeclose p writable fs = .ok fs') : fs'.file = fs.file ∧ fs'.inode = fs.inode := by
  unfold pipeclose at h
  split at h <;> cases h
  exact ⟨rfl, rfl⟩

/-- the entry of the inode cache a file holds a reference to -/
def File.holds (f : File) (ip : Fin NINODE) : ℕ := if 0 < f.ref ∧ f.type = .inode ip then 1 else 0

/-- **Closing.** One reference of the file is taken back; the last one takes the file's reference to its inode along. -/
theorem fileclose_spec {f : Fin NFILE} (h : fileclose f fs = .ok fs') :
    1 ≤ (fs.file f).ref ∧
    (∃ t, fs'.file = Function.update fs.file f { fs.file f with ref := (fs.file f).ref - 1, type := t } ∧
      ((fs.file f).ref = 1 → t = .none) ∧ (1 < (fs.file f).ref → t = (fs.file f).type)) ∧
    ∀ i, (fs'.inode i).ref + (fs.file f).holds i = (fs.inode i).ref + (fs'.file f).holds i := by
  unfold fileclose at h
  simp only at h
  split at h
  · cases h
  split at h
  · rename_i h1 h2
    cases h
    refine ⟨by omega, ⟨(fs.file f).type, rfl, by omega, fun _ => rfl⟩, fun i => ?_⟩
    have h3 : 0 < (fs.file f).ref := by omega
    have h4 : 1 < (fs.file f).ref := by omega
    simp [File.holds, h3, h4]
  · rename_i h1 h2
    have hone : (fs.file f).ref = 1 := by omega
    have hone' : (fs.file f).ref - 1 = 0 := by omega
    have hfile : ∀ fs' : Files, fs'.file = Function.update fs.file f { fs.file f with ref := 0, type := .none } →
        ∃ t, fs'.file = Function.update fs.file f { fs.file f with ref := (fs.file f).ref - 1, type := t } ∧
          ((fs.file f).ref = 1 → t = .none) ∧ (1 < (fs.file f).ref → t = (fs.file f).type) := by
      intro fs' hfs
      exact ⟨.none, by rw [hone', hfs], fun _ => rfl, by omega⟩
    refine ⟨by omega, ?_⟩
    split at h
    · rename_i p hp
      obtain ⟨hf, hi⟩ := pipeclose_spec h
      refine ⟨hfile fs' hf, fun i => ?_⟩
      simp [hf, hi, File.holds, hp]
    · rename_i ip hp
      cases h
      refine ⟨hfile _ rfl, fun i => ?_⟩
      simp only [iput, addRef_ref, File.holds, Function.update_self, hp, FileType.inode.injEq, hone]
      by_cases hi : i = ip
      · simp [hi]
      · simp [hi, Ne.symm hi]
    · rename_i hp
      cases h
      refine ⟨hfile _ rfl, fun i => ?_⟩
      simp [File.holds, hp]

end Xv6.Kernel
