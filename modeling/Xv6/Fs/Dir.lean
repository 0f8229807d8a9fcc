/-
Directories and path names (`fs.c` from `namecmp` on) and the system calls on them (`sysfile.c`, `file.c`, and what `fork`, `exec` and `exit` do with inodes and files), as programs over the inode layer.

A name is the bytes before the NUL. A directory is read and written one `struct dirent` of 16 bytes at a time. System calls
get the number of the process that calls and their string arguments as the bytes before the NUL, `none` where `argstr`
fails. Where the memory of a process decides what happens, the outcome is an argument.
-/
import Xv6.Fs.Inode

namespace Xv6.FileSys

open Xv6.Core Xv6.Core.Prog
open Xv6.Kernel (PGSIZE)

/-! ## Directory entries -/

def DIRSIZ : ℕ := 14

/-- the bytes of a string, up to the first NUL -/
abbrev Name := List UInt8

/-- `struct dirent` -/
structure Dirent where
  inum : ℕ
  name : List UInt8
  deriving DecidableEq, Repr

/-- `sizeof(struct dirent)` -/
def DESIZE : ℕ := 16

/-- the 16 bytes read as a `struct dirent` -/
def Dirent.ofBytes (b : List UInt8) : Dirent where
  inum := (b.getD 0 0).toNat + 2 ^ 8 * (b.getD 1 0).toNat
  name := (b.drop 2).take DIRSIZ

/-- the bytes of a `struct dirent`; the number is a `ushort` -/
def Dirent.bytes (de : Dirent) : List UInt8 :=
  [UInt8.ofNat de.inum, UInt8.ofNat (de.inum / 2 ^ 8)] ++ (de.name ++ List.replicate DIRSIZ 0).take DIRSIZ

/-- the string that at most `DIRSIZ` bytes hold -/
def cstr (b : List UInt8) : Name := (b.take DIRSIZ).takeWhile (· ≠ 0)

/-- `namecmp(s, t) == 0` -/
def nameEq (s t : List UInt8) : Bool := cstr s == cstr t

/-- `strncpy(de.name, name, DIRSIZ)` -/
def strncpy (name : List UInt8) : List UInt8 := (cstr name ++ List.replicate DIRSIZ 0).take DIRSIZ

def DOT : Name := [46]
def DOTDOT : Name := [46, 46]

/-- the values `off` takes in `for(off = 0; off < size; off += sizeof(de))` -/
def offs (size : ℕ) : List ℕ := (List.range ((size + DESIZE - 1) / DESIZE)).map (DESIZE * ·)

variable (sb : Superblock)

/-- read the entry at `off`, or panic -/
def readDirent (dp off : ℕ) (e : Panic) : FsM Dirent := do
  match ← readi sb dp off DESIZE with
  | some b => if b.length = DESIZE then return .ofBytes b else panic e
  | none => panic e

/-- the loop of `dirlookup` -/
def lookupLoop (dp : ℕ) (name : Name) : List ℕ → FsM (Option (ℕ × ℕ))
  | [] => return none
  | off :: rest => do
    let de ← readDirent sb dp off .dirlookupRead
    if de.inum = 0 then lookupLoop dp name rest
    else if nameEq name de.name then
      iget de.inum
      return some (de.inum, off)
    else lookupLoop dp name rest

/-- look for a directory entry in a directory: its inode, with a reference, and its offset -/
def dirlookup (dp : ℕ) (name : Name) : FsM (Option (ℕ × ℕ)) := do
  let s ← get
  if (s.core dp).type = .dir then lookupLoop sb dp name (offs (s.core dp).size) else panic .dirlookupNotDir

/-- the second loop of `dirlink`: the offset of an empty entry, or of the end -/
def emptyLoop (dp : ℕ) (last : ℕ) : List ℕ → FsM ℕ
  | [] => return last
  | off :: rest => do
    let de ← readDirent sb dp off .dirlinkRead
    if de.inum = 0 then return off else emptyLoop dp last rest

/-- write a new directory entry into the directory; `false` is the result -1 -/
def dirlink (dp : ℕ) (name : Name) (inum : ℕ) : FsM Bool := do
  match ← dirlookup sb dp name with
  | some (ip, _) =>
    iput sb ip
    return false
  | none =>
    let s ← get
    let off ← emptyLoop sb dp (DESIZE * (offs (s.core dp).size).length) (offs (s.core dp).size)
    match ← writei sb dp (Dirent.bytes ⟨inum, strncpy name⟩) off with
    | some n => if n = DESIZE then return true else panic .dirlink
    | none => panic .dirlink

/-! ## Paths -/

def SLASH : UInt8 := 47

/-- copy the next path element; what is left of the path has no leading slashes -/
def skipelem (path : List UInt8) : Option (Name × List UInt8) :=
  match path.dropWhile (· = SLASH) with
  | [] => none
  | p => some ((p.takeWhile (· ≠ SLASH)).take DIRSIZ, (p.dropWhile (· ≠ SLASH)).dropWhile (· = SLASH))

/-- the loop of `namex`. An element is a byte at least, so the length of the path is rounds enough. -/
def namexLoop (parent : Bool) : ℕ → ℕ → List UInt8 → Name → FsM (Option (ℕ × Name))
  | 0, _, _, _ => return none
  | fuel + 1, ip, path, name =>
    match skipelem path with
    | none =>
      if parent then do
        iput sb ip
        return none
      else return some (ip, name)
    | some (name, path) => do
      ilock ip
      let s ← get
      if (s.core ip).type ≠ .dir then
        iunlockput sb ip
        return none
      else if parent ∧ path = [] then
        -- stop one level early
        iunlock ip
        return some (ip, name)
      else
        match ← dirlookup sb ip name with
        | none =>
          iunlockput sb ip
          return none
        | some (next, _) =>
          iunlockput sb ip
          namexLoop parent fuel next path name

/-- look up and return the inode for a path name, or for its parent with the last element -/
def namex (pid : Fin NPROC) (path : List UInt8) (parent : Bool) : FsM (Option (ℕ × Name)) := do
  let s ← get
  let ip ←
    if path.head? = some SLASH then do
      iget ROOTINO
      pure ROOTINO
    else do
      let ip := ((s.cwd pid).getD 0)
      idup ip
      pure ip
  namexLoop sb parent (path.length + 1) ip path []

def namei (pid : Fin NPROC) (path : List UInt8) : FsM (Option ℕ) := do
  let r ← namex sb pid path false
  return r.map Prod.fst

def nameiparent (pid : Fin NPROC) (path : List UInt8) : FsM (Option (ℕ × Name)) := namex sb pid path true

/-! ## `log.c` -/

/-- `begin_op`: the blocks of a new operation are counted from here -/
def beginOp : FsM Unit := modify fun s => { s with outstanding := s.outstanding + 1, logged := ∅ }

def endOp : FsM Unit := modify fun s => { s with outstanding := s.outstanding - 1 }

/-! ## `file.c` -/

/-- allocate a file structure -/
def filealloc : FsM (Option (Fin NFILE)) := atomic fun s =>
  match (List.finRange NFILE).find? fun i => (s.file i).ref = 0 with
  | some f => (s.setFile f { s.file f with ref := 1 }, some f)
  | none => (s, none)

/-- increment the reference count of a file -/
def filedup (f : Fin NFILE) : FsM Unit := do
  let s ← get
  if (s.file f).ref < 1 then panic .filedup
  else modify fun s => s.setFile f { s.file f with ref := (s.file f).ref + 1 }

/-- one reference to the file less; the last one gives up the inode, in an operation of its own -/
def fileclose (f : Fin NFILE) : FsM Unit := do
  let s ← get
  if (s.file f).ref < 1 then panic .fileclose
  else if 1 < (s.file f).ref then
    modify fun s => s.setFile f { s.file f with ref := (s.file f).ref - 1 }
  else
    modify fun s => s.setFile f { s.file f with ref := 0, type := .none }
    if (s.file f).type = .inode then
      beginOp
      iput sb (s.file f).ip
      endOp
    else pure ()

/-- `fileread` on an inode; `none` is the result -1 -/
def fileread (f : Fin NFILE) (n : ℕ) : FsM (Option (List UInt8)) := do
  let s ← get
  if (s.file f).readable then
    ilock (s.file f).ip
    let s ← get
    let r ← readi sb (s.file f).ip (s.file f).off n
    modify fun s => s.setFile f { s.file f with off := uint ((s.file f).off + (r.getD []).length) }
    iunlock (s.file f).ip
    return r
  else return none

/-- `((MAXOPBLOCKS-1-1-2) / 2) * 512` -/
def MAXWRITE : ℕ := (10 - 1 - 1 - 2) / 2 * 512

/-- one round of the loop of `filewrite`, an operation of its own -/
def writeChunk (f : Fin NFILE) (src : List UInt8) : FsM (Option ℕ) := do
  beginOp
  let s ← get
  ilock (s.file f).ip
  let s ← get
  let r ← writei sb (s.file f).ip src (s.file f).off
  modify fun s => s.setFile f { s.file f with off := uint ((s.file f).off + r.getD 0) }
  iunlock (s.file f).ip
  endOp
  return r

/-- the loop of `filewrite` -/
def filewriteLoop (f : Fin NFILE) : ℕ → List UInt8 → FsM Bool
  | 0, src => return src.isEmpty
  | fuel + 1, src =>
    if src.isEmpty then return true
    else do
      match ← writeChunk sb f (src.take MAXWRITE) with
      | none => return false
      | some r => if r ≠ (src.take MAXWRITE).length then panic .filewrite else filewriteLoop f fuel (src.drop MAXWRITE)

/-- `filewrite` on an inode -/
def filewrite (f : Fin NFILE) (src : List UInt8) : FsM ℤ := do
  let s ← get
  if (s.file f).writable then
    if ← filewriteLoop sb f src.length src then return src.length else return -1
  else return -1

/-! ## `sysfile.c` -/

/-- allocate a file descriptor for the given file -/
def fdalloc (pid : Fin NPROC) (f : Fin NFILE) : FsM (Option (Fin NOFILE)) := atomic fun s =>
  match (List.finRange NOFILE).find? fun fd => (s.ofile pid fd).isNone with
  | some fd => (s.setFd pid fd (some f), some fd)
  | none => (s, none)

def sysDup (pid : Fin NPROC) (fd : Fin NOFILE) : FsM ℤ := do
  let s ← get
  match s.ofile pid fd with
  | none => return -1
  | some f =>
    match ← fdalloc pid f with
    | none => return -1
    | some fd' =>
      filedup f
      return fd'

def sysRead (pid : Fin NPROC) (fd : Fin NOFILE) (n : ℕ) : FsM (Option (List UInt8)) := do
  let s ← get
  match s.ofile pid fd with
  | none => return none
  | some f => if (s.file f).type = .inode then fileread sb f n else return none

def sysWrite (pid : Fin NPROC) (fd : Fin NOFILE) (src : List UInt8) : FsM ℤ := do
  let s ← get
  match s.ofile pid fd with
  | none => return -1
  | some f => if (s.file f).type = .inode then filewrite sb f src else return -1

def sysClose (pid : Fin NPROC) (fd : Fin NOFILE) : FsM ℤ := do
  let s ← get
  match s.ofile pid fd with
  | none => return -1
  | some f =>
    modify fun s => s.setFd pid fd none
    fileclose sb f
    return 0

/-- `ip->nlink += n` and `iupdate(ip)` -/
def addLink (x : ℕ) (n : ℤ) : FsM Unit := do
  modify fun s => s.setCore x { s.core x with nlink := short ((s.core x).nlink + n) }
  iupdate sb x

/-- the label `bad` of `sys_link` -/
def linkBad (ip : ℕ) : FsM ℤ := do
  ilock ip
  addLink sb ip (-1)
  iunlockput sb ip
  endOp
  return -1

/-- `sys_link` once the inode has one link more -/
def linkNew (pid : Fin NPROC) (ip : ℕ) (new : List UInt8) : FsM ℤ := do
  match ← nameiparent sb pid new with
  | none => linkBad sb ip
  | some (dp, name) =>
    ilock dp
    if ← dirlink sb dp name ip then
      iunlockput sb dp
      iput sb ip
      endOp
      return 0
    else
      iunlockput sb dp
      linkBad sb ip

/-- create the path `new` as a link to the same inode as `old` -/
def sysLink (pid : Fin NPROC) : Option (List UInt8) → Option (List UInt8) → FsM ℤ
  | some old, some new => do
    beginOp
    match ← namei sb pid old with
    | none =>
      endOp
      return -1
    | some ip =>
      ilock ip
      let s ← get
      if (s.core ip).type = .dir then
        iunlockput sb ip
        endOp
        return -1
      else
        addLink sb ip 1
        iunlock ip
        linkNew sb pid ip new
  | _, _ => return -1

/-- the loop of `isdirempty` -/
def emptyFrom (dp : ℕ) : List ℕ → FsM Bool
  | [] => return true
  | off :: rest => do
    let de ← readDirent sb dp off .isdirempty
    if de.inum = 0 then emptyFrom dp rest else return false

/-- is the directory empty except for "." and ".."? -/
def isdirempty (dp : ℕ) : FsM Bool := do
  let s ← get
  emptyFrom sb dp ((offs (s.core dp).size).drop 2)

/-- the label `bad` of `sys_unlink` -/
def unlinkBad (dp : ℕ) : FsM ℤ := do
  iunlockput sb dp
  endOp
  return -1

/-- the end of `sys_unlink`: the entry at `off` and its inode have been found and may go -/
def unlinkEntry (dp ip off : ℕ) : FsM ℤ := do
  match ← writei sb dp (Dirent.bytes ⟨0, []⟩) off with
  | none => panic .unlinkWritei
  | some n =>
    if n ≠ DESIZE then panic .unlinkWritei
    else
      let s ← get
      if (s.core ip).type = .dir then addLink sb dp (-1) else pure ()
      iunlockput sb dp
      addLink sb ip (-1)
      iunlockput sb ip
      endOp
      return 0

/-- `sys_unlink` once the directory is known -/
def unlinkName (dp : ℕ) (name : Name) : FsM ℤ := do
  ilock dp
  -- cannot unlink "." or ".."
  if nameEq name DOT ∨ nameEq name DOTDOT then unlinkBad sb dp
  else
    match ← dirlookup sb dp name with
    | none => unlinkBad sb dp
    | some (ip, off) =>
      ilock ip
      let s ← get
      if (s.core ip).nlink < 1 then panic .unlinkNlink
      else if (s.core ip).type = .dir then
        if ← isdirempty sb ip then unlinkEntry sb dp ip off
        else
          iunlockput sb ip
          unlinkBad sb dp
      else unlinkEntry sb dp ip off

def sysUnlink (pid : Fin NPROC) : Option (List UInt8) → FsM ℤ
  | none => return -1
  | some path => do
    beginOp
    match ← nameiparent sb pid path with
    | none =>
      endOp
      return -1
    | some (dp, name) => unlinkName sb dp name

/-- the "." and ".." of a new directory -/
def createDots (dp ip : ℕ) : FsM Unit := do
  addLink sb dp 1
  if ← dirlink sb ip DOT ip then
    if ← dirlink sb ip DOTDOT dp then return () else panic .createDots
  else panic .createDots

/-- `create` once the name is known to be new -/
def createNew (dp : ℕ) (name : Name) (type : Ty) (major minor : ℤ) : FsM ℕ := do
  let ip ← ialloc sb type
  ilock ip
  modify fun s => s.setCore ip { s.core ip with major := major, minor := minor, nlink := 1 }
  iupdate sb ip
  if type = .dir then createDots sb dp ip else pure ()
  if ← dirlink sb dp name ip then
    iunlockput sb dp
    return ip
  else panic .createDirlink

/-- the result is locked -/
def create (pid : Fin NPROC) (path : List UInt8) (type : Ty) (major minor : ℤ) : FsM (Option ℕ) := do
  match ← nameiparent sb pid path with
  | none => return none
  | some (dp, name) =>
    ilock dp
    match ← dirlookup sb dp name with
    | some (ip, _) =>
      iunlockput sb dp
      ilock ip
      let s ← get
      if type = .file ∧ (s.core ip).type = .file then return some ip
      else
        iunlockput sb ip
        return none
    | none =>
      let ip ← createNew sb dp name type major minor
      return some ip

def O_RDONLY : ℕ := 0

/-- `omode & O_CREATE` -/
def creates (omode : ℕ) : Bool := omode.testBit 9

/-- `!(omode & O_WRONLY)` -/
def reads (omode : ℕ) : Bool := !omode.testBit 0

/-- `(omode & O_WRONLY) || (omode & O_RDWR)` -/
def writes (omode : ℕ) : Bool := omode.testBit 0 || omode.testBit 1

/-- the end of `sys_open` without a file structure or a descriptor -/
def openBad (ip : ℕ) : FsM ℤ := do
  iunlockput sb ip
  endOp
  return -1

/-- the end of `sys_open`: the inode is locked -/
def openInode (pid : Fin NPROC) (ip omode : ℕ) : FsM ℤ := do
  match ← filealloc with
  | none => openBad sb ip
  | some f =>
    match ← fdalloc pid f with
    | none =>
      fileclose sb f
      openBad sb ip
    | some fd =>
      iunlock ip
      endOp
      modify fun s => s.setFile f ⟨.inode, (s.file f).ref, reads omode, writes omode, ip, 0⟩
      return fd

def sysOpen (pid : Fin NPROC) (omode : ℕ) : Option (List UInt8) → FsM ℤ
  | none => return -1
  | some path => do
    beginOp
    if creates omode then
      match ← create sb pid path .file 0 0 with
      | none =>
        endOp
        return -1
      | some ip => openInode sb pid ip omode
    else
      match ← namei sb pid path with
      | none =>
        endOp
        return -1
      | some ip =>
        ilock ip
        let s ← get
        if (s.core ip).type = .dir ∧ omode ≠ O_RDONLY then
          iunlockput sb ip
          endOp
          return -1
        else openInode sb pid ip omode

/-- the end of `sys_mkdir` and `sys_mknod` -/
def createEnd (r : Option ℕ) : FsM ℤ := do
  match r with
  | none =>
    endOp
    return -1
  | some ip =>
    iunlockput sb ip
    endOp
    return 0

def sysMkdir (pid : Fin NPROC) : Option (List UInt8) → FsM ℤ
  | none => do
    beginOp
    createEnd sb none
  | some path => do
    beginOp
    let r ← create sb pid path .dir 0 0
    createEnd sb r

def sysMknod (pid : Fin NPROC) (major minor : ℤ) : Option (List UInt8) → FsM ℤ
  | none => do
    beginOp
    createEnd sb none
  | some path => do
    beginOp
    let r ← create sb pid path .dev (short major) (short minor)
    createEnd sb r

/-- `sys_chdir` once the inode is known -/
def chdirTo (pid : Fin NPROC) (ip : ℕ) : FsM ℤ := do
  ilock ip
  let s ← get
  if (s.core ip).type ≠ .dir then
    iunlockput sb ip
    endOp
    return -1
  else
    iunlock ip
    iput sb ((s.cwd pid).getD 0)
    endOp
    modify fun s => s.setCwd pid (some ip)
    return 0

def sysChdir (pid : Fin NPROC) : Option (List UInt8) → FsM ℤ
  | none => do
    beginOp
    endOp
    return -1
  | some path => do
    beginOp
    match ← namei sb pid path with
    | none =>
      endOp
      return -1
    | some ip => chdirTo sb pid ip

/-! ## `exec`, `fork` and `exit` -/

def ELF_MAGIC : ℕ := 0x464C457F
def ELF_PROG_LOAD : ℕ := 1

/-- what the memory of a process does to its `exec` -/
structure ExecMem where
  setupkvm : Bool
  /-- `allocuvm` for a program header -/
  allocuvm : ℕ → Bool
  /-- the two pages of the stack, and the arguments on it -/
  stack : Bool

/-- bytes that have been read, as a `struct` -/
def record (b : List UInt8) : Data := fun i => b.getD i 0

/-- `loaduvm`: read the segment a page at a time -/
def loaduvm (ip offset sz : ℕ) : List ℕ → FsM Bool
  | [] => return true
  | i :: rest => do
    let r ← readi sb ip (uint (offset + i)) (min (sz - i) PGSIZE)
    if (r.map List.length) = some (min (sz - i) PGSIZE) then loaduvm ip offset sz rest else return false

/-- the values `i` takes in `for(i = 0; i < sz; i += PGSIZE)` -/
def pages (sz : ℕ) : List ℕ := (List.range ((sz + PGSIZE - 1) / PGSIZE)).map (PGSIZE * ·)

/-- the loop of `exec` over the program headers; `false` is `goto bad` -/
def loadSegments (ip phoff : ℕ) (mem : ExecMem) : List ℕ → FsM Bool
  | [] => return true
  | i :: rest => do
    match ← readi sb ip (uint (phoff + 32 * i)) 32 with
    | none => return false
    | some b =>
      let ph := word (record b)
      if b.length ≠ 32 then return false
      else if ph 0 ≠ ELF_PROG_LOAD then loadSegments ip phoff mem rest
      -- `memsz < filesz`, `vaddr + memsz < vaddr`
      else if ph 5 < ph 4 ∨ uint (ph 2 + ph 5) < ph 2 then return false
      else if !mem.allocuvm i ∨ ph 2 % PGSIZE ≠ 0 then return false
      else if ← loaduvm sb ip (ph 1) (ph 4) (pages (ph 4)) then loadSegments ip phoff mem rest
      else return false

/-- check the ELF header and load the program into memory -/
def execLoad (ip : ℕ) (mem : ExecMem) : FsM Bool := do
  match ← readi sb ip 0 52 with
  | none => return false
  | some b =>
    let elf := word (record b)
    if b.length ≠ 52 ∨ elf 0 ≠ ELF_MAGIC ∨ !mem.setupkvm then return false
    else loadSegments sb ip (elf 7) mem (List.range (elf 11 % 2 ^ 16))

/-- `exec`; from the stack on it has given the inode up -/
def exec (pid : Fin NPROC) (path : List UInt8) (mem : ExecMem) : FsM ℤ := do
  beginOp
  match ← namei sb pid path with
  | none =>
    endOp
    return -1
  | some ip =>
    ilock ip
    let ok ← execLoad sb ip mem
    iunlockput sb ip
    endOp
    return if ok && mem.stack then 0 else -1

/-- the files and the directory of a new process -/
def forkFiles (pid child : Fin NPROC) : FsM Unit := do
  forEach (fun fd => do
    let s ← get
    match s.ofile pid fd with
    | none => pure ()
    | some f =>
      filedup f
      modify fun s => s.setFd child fd (some f))
    (List.finRange NOFILE)
  let s ← get
  idup ((s.cwd pid).getD 0)
  modify fun s => s.setCwd child (s.cwd pid)

/-- `exit` of a process that is not a thread: all its files and its directory are let go -/
def exit (pid : Fin NPROC) : FsM Unit := do
  forEach (fun fd => do
    let s ← get
    match s.ofile pid fd with
    | none => pure ()
    | some f =>
      fileclose sb f
      modify fun s => s.setFd pid fd none)
    (List.finRange NOFILE)
  beginOp
  let s ← get
  iput sb ((s.cwd pid).getD 0)
  endOp
  modify fun s => s.setCwd pid none

end Xv6.FileSys
