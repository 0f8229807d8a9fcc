/-
The inode layer of the file system (`fs.c` up to `writei`), each function as a program that acts on the shared state and
takes inode locks.

The blocks are seen through the buffer cache. Inode blocks and the free map are kept as what they hold: `dinode` is the
on-disk inode of each number and `used` the free map, while `data` is the bytes of every other block. A step between
`bread` and `brelse` of one buffer is one atomic act. `logged` is the set of blocks given to `log_write` since `begin_op`.

There is one device. The cache holds at most one entry for an inode number, so it is kept by number: `ref = 0` says that
there is none, and `live` counts the entries in use. An inode's sleep lock goes by the same number.

`node` is the inode as the kernel sees it: the entry in the cache if it has been read, and the one on the disk otherwise.
-/
import Xv6.Core.Prog
import Xv6.Kernel.Basic

namespace Xv6.FileSys

open Xv6.Core Xv6.Core.Prog
export Xv6.Kernel (NPROC NOFILE NFILE NINODE)

/-! ## `fs.h` -/

def ROOTINO : ℕ := 1
def BSIZE : ℕ := 512
def NDIRECT : ℕ := 12
/-- `BSIZE / sizeof(uint)` -/
def NINDIRECT : ℕ := 128
def MAXFILE : ℕ := NDIRECT + NINDIRECT
/-- inodes per block -/
def IPB : ℕ := 8
/-- bitmap bits per block -/
def BPB : ℕ := BSIZE * 8

structure Superblock where
  size : ℕ
  nblocks : ℕ
  ninodes : ℕ
  nlog : ℕ
  logstart : ℕ
  inodestart : ℕ
  bmapstart : ℕ

/-- block containing inode `i` -/
def IBLOCK (i : ℕ) (sb : Superblock) : ℕ := i / IPB + sb.inodestart

/-- block of free map containing bit for block `b` -/
def BBLOCK (b : ℕ) (sb : Superblock) : ℕ := b / BPB + sb.bmapstart

/-- the type of an inode; 0 is a free one -/
inductive Ty
  | free
  | dir
  | file
  | dev
  deriving DecidableEq, Repr

/-- `struct dinode`, and the part of `struct inode` that is a copy of it -/
structure Dinode where
  type : Ty
  major : ℤ
  minor : ℤ
  nlink : ℤ
  size : ℕ
  addrs : ℕ → ℕ

/-- a zeroed inode -/
def Dinode.zero : Dinode := ⟨.free, 0, 0, 0, 0, fun _ => 0⟩

/-- `addrs[i] = b` -/
def Dinode.setAddr (d : Dinode) (i b : ℕ) : Dinode := { d with addrs := Function.update d.addrs i b }

/-- `struct inode` -/
structure Inode where
  ref : ℕ
  valid : Bool
  d : Dinode

/-- the bytes of a block -/
abbrev Data := ℕ → UInt8

inductive FileTy
  | none
  | pipe
  | inode
  deriving DecidableEq, Repr

/-- `struct file`; the pipe of an open pipe is left out -/
structure File where
  type : FileTy
  ref : ℕ
  readable : Bool
  writable : Bool
  ip : ℕ
  off : ℕ

/-- an unsigned 32-bit value -/
def uint (n : ℕ) : ℕ := n % 2 ^ 32

/-- a signed 16-bit value -/
def short (n : ℤ) : ℤ := (n + 2 ^ 15) % 2 ^ 16 - 2 ^ 15

/-- the word `a[j]` of a block read as `uint *a` -/
def word (b : Data) (j : ℕ) : ℕ :=
  (b (4 * j)).toNat + 2 ^ 8 * (b (4 * j + 1)).toNat + 2 ^ 16 * (b (4 * j + 2)).toNat + 2 ^ 24 * (b (4 * j + 3)).toNat

def setWord (b : Data) (j v : ℕ) : Data :=
  Function.update (Function.update (Function.update (Function.update b (4 * j) (UInt8.ofNat v))
    (4 * j + 1) (UInt8.ofNat (v / 2 ^ 8))) (4 * j + 2) (UInt8.ofNat (v / 2 ^ 16))) (4 * j + 3) (UInt8.ofNat (v / 2 ^ 24))

/-- bytes written into a block from `off` on -/
def setBytes (b : Data) (off : ℕ) (src : List UInt8) : Data :=
  fun i => if off ≤ i then (src[i - off]?).getD (b i) else b i

/-! ## State -/

structure St where
  dinode : ℕ → Dinode
  used : ℕ → Bool
  data : ℕ → Data
  icache : ℕ → Inode
  live : ℕ
  logged : Finset ℕ
  /-- the file system calls that are executing (`log.outstanding`) -/
  outstanding : ℕ
  cwd : Fin NPROC → Option ℕ
  file : Fin NFILE → File
  ofile : Fin NPROC → Fin NOFILE → Option (Fin NFILE)
  /-- what the console is going to deliver, one line a read -/
  console : List (List UInt8)

/-- the panics of the file system -/
inductive Panic
  /-- "balloc: out of blocks" -/
  | balloc
  /-- "freeing free block" -/
  | bfree
  /-- "ialloc: no inodes" -/
  | ialloc
  /-- "iget: no inodes" -/
  | iget
  /-- "ilock" -/
  | ilock
  /-- "ilock: no type" -/
  | ilockNoType
  /-- "iunlock" -/
  | iunlock
  /-- "bmap: out of range" -/
  | bmap
  /-- "dirlookup not DIR" -/
  | dirlookupNotDir
  /-- "dirlookup read" -/
  | dirlookupRead
  /-- "dirlink read" -/
  | dirlinkRead
  /-- "dirlink" -/
  | dirlink
  /-- "isdirempty: readi" -/
  | isdirempty
  /-- "unlink: nlink < 1" -/
  | unlinkNlink
  /-- "unlink: writei" -/
  | unlinkWritei
  /-- "create dots" -/
  | createDots
  /-- "create: dirlink" -/
  | createDirlink
  /-- "filedup" -/
  | filedup
  /-- "fileclose" -/
  | fileclose
  /-- "short filewrite" -/
  | filewrite
  deriving DecidableEq

/-- programs of the file system; inode locks go by inode number -/
abbrev FsM (α : Type) : Type := Prog St Panic ℕ α

namespace St

variable (s : St)

/-- the fields of `ip` -/
def core (x : ℕ) : Dinode := (s.icache x).d

/-- the inode as the kernel sees it -/
def node (x : ℕ) : Dinode := if 0 < (s.icache x).ref ∧ (s.icache x).valid then s.core x else s.dinode x

def logWrite (b : ℕ) : St := { s with logged := insert b s.logged }

def setUsed (b : ℕ) (v : Bool) : St := { s with used := Function.update s.used b v }

def setData (b : ℕ) (d : Data) : St := { s with data := Function.update s.data b d }

def setDinode (x : ℕ) (d : Dinode) : St := { s with dinode := Function.update s.dinode x d }

def setInode (x : ℕ) (e : Inode) : St := { s with icache := Function.update s.icache x e }

def setCore (x : ℕ) (d : Dinode) : St := s.setInode x { s.icache x with d := d }

def setRef (x : ℕ) (n : ℕ) : St := s.setInode x { s.icache x with ref := n }

def setValid (x : ℕ) (v : Bool) : St := s.setInode x { s.icache x with valid := v }

/-- `ip->addrs[i] = b` -/
def setAddr (x i b : ℕ) : St := s.setCore x ((s.core x).setAddr i b)

def setFile (f : Fin NFILE) (e : File) : St := { s with file := Function.update s.file f e }

/-- `myproc()->ofile[fd] = v` -/
def setFd (pid : Fin NPROC) (fd : Fin NOFILE) (v : Option (Fin NFILE)) : St :=
  { s with ofile := Function.update s.ofile pid (Function.update (s.ofile pid) fd v) }

def setCwd (pid : Fin NPROC) (v : Option ℕ) : St := { s with cwd := Function.update s.cwd pid v }

end St

variable (sb : Superblock)

/-! ## Blocks -/

/-- zero a block -/
def bzero (bno : ℕ) : FsM Unit := modify fun s => (s.setData bno fun _ => 0).logWrite bno

/-- the first block that the free map does not mark -/
def St.freeBlock (s : St) : Option ℕ := (List.range sb.size).find? fun b => !s.used b

/-- allocate a zeroed disk block -/
def balloc : FsM ℕ := do
  let r ← atomic fun s =>
    match s.freeBlock sb with
    | some b => ((s.setUsed b true).logWrite (BBLOCK b sb), some b)
    | none => (s, none)
  match r with
  | some b =>
    bzero b
    return b
  | none => panic .balloc

/-- free a disk block -/
def bfree (b : ℕ) : FsM Unit := do
  let ok ← atomic fun s => if s.used b then ((s.setUsed b false).logWrite (BBLOCK b sb), true) else (s, false)
  if ok then return () else panic .bfree

/-! ## Inodes -/

/-- copy a modified in-memory inode to disk -/
def iupdate (x : ℕ) : FsM Unit := modify fun s => (s.setDinode x (s.core x)).logWrite (IBLOCK x sb)

/-- find the inode with number `x` in the cache, or give it an entry -/
def iget (x : ℕ) : FsM Unit := do
  let ok ← atomic fun s =>
    if 0 < (s.icache x).ref then (s.setRef x ((s.icache x).ref + 1), true)
    else if s.live < NINODE then
      ({ s.setInode x { s.icache x with ref := 1, valid := false } with live := s.live + 1 }, true)
    else (s, false)
  if ok then return () else panic .iget

/-- the search of `ialloc`, one inode block at a time -/
def iallocFrom (type : Ty) : List ℕ → FsM ℕ
  | [] => panic .ialloc
  | x :: rest => do
    let found ← atomic fun s =>
      if (s.dinode x).type = .free then
        ((s.setDinode x { Dinode.zero with type := type }).logWrite (IBLOCK x sb), true)
      else (s, false)
    if found then
      iget x
      return x
    else iallocFrom type rest

/-- allocate an inode and mark it as allocated by giving it type `type` -/
def ialloc (type : Ty) : FsM ℕ := iallocFrom sb type (List.range' 1 (sb.ninodes - 1))

/-- increment reference count -/
def idup (x : ℕ) : FsM Unit := modify fun s => s.setRef x ((s.icache x).ref + 1)

/-- lock the given inode, reading it from disk if necessary -/
def ilock (x : ℕ) : FsM Unit := do
  let s ← get
  if (s.icache x).ref < 1 then panic .ilock
  else
    acquire x
    let s ← get
    if (s.icache x).valid then return ()
    else
      modify fun s => s.setInode x { s.icache x with valid := true, d := s.dinode x }
      let s ← get
      if (s.core x).type = .free then panic .ilockNoType else return ()

/-- unlock the given inode; that it is held is checked where locks are -/
def iunlock (x : ℕ) : FsM Unit := do
  let s ← get
  if (s.icache x).ref < 1 then panic .iunlock else release x

/-- `if((addr = ip->addrs[i]) == 0) ip->addrs[i] = addr = balloc(ip->dev)` -/
def allocAddr (x i : ℕ) : FsM ℕ := do
  let s ← get
  if (s.core x).addrs i = 0 then
    let b ← balloc sb
    modify fun s => s.setAddr x i b
    return b
  else return (s.core x).addrs i

/-- the disk block address of the nth block in the inode; if there is no such block, `bmap` allocates one -/
def bmap (x bn : ℕ) : FsM ℕ :=
  if bn < NDIRECT then allocAddr sb x bn
  else if bn - NDIRECT < NINDIRECT then do
    let addr ← allocAddr sb x NDIRECT
    let s ← get
    if word (s.data addr) (bn - NDIRECT) = 0 then
      let b ← balloc sb
      modify fun s => (s.setData addr (setWord (s.data addr) (bn - NDIRECT) b)).logWrite addr
      return b
    else return word (s.data addr) (bn - NDIRECT)
  else panic .bmap

/-- free the block of a direct address -/
def truncDirect (x i : ℕ) : FsM Unit := do
  let s ← get
  if (s.core x).addrs i = 0 then return ()
  else
    bfree sb ((s.core x).addrs i)
    modify fun s => s.setAddr x i 0

/-- free the block an indirect block names -/
def truncIndirect (addr j : ℕ) : FsM Unit := do
  let s ← get
  if word (s.data addr) j = 0 then return () else bfree sb (word (s.data addr) j)

/-- discard the contents -/
def itrunc (x : ℕ) : FsM Unit := do
  forEach (truncDirect sb x) (List.range NDIRECT)
  let s ← get
  if (s.core x).addrs NDIRECT = 0 then pure ()
  else
    forEach (truncIndirect sb ((s.core x).addrs NDIRECT)) (List.range NINDIRECT)
    bfree sb ((s.core x).addrs NDIRECT)
    modify fun s => s.setAddr x NDIRECT 0
  modify fun s => s.setCore x { s.core x with size := 0 }
  iupdate sb x

/-- one reference less; the last one gives up the entry -/
def St.unref (s : St) (x : ℕ) : St :=
  { s.setRef x ((s.icache x).ref - 1) with live := if (s.icache x).ref = 1 then s.live - 1 else s.live }

/-- drop a reference; free the inode if that was the last one and it has no links -/
def iput (x : ℕ) : FsM Unit := do
  acquire x
  let s ← get
  if (s.icache x).valid ∧ (s.core x).nlink = 0 then
    let s ← get
    if (s.icache x).ref = 1 then
      itrunc sb x
      modify fun s => s.setCore x { s.core x with type := .free }
      iupdate sb x
      modify fun s => s.setValid x false
    else pure ()
  else pure ()
  release x
  modify fun s => s.unref x

def iunlockput (x : ℕ) : FsM Unit := do
  iunlock x
  iput sb x

/-! ## Inode content -/

/-- the major number of the console, the only device -/
def CONSOLE : ℤ := 1

/-- `consoleread`: the inode is unlocked while the reader waits -/
def consoleread (x n : ℕ) : FsM (Option (List UInt8)) := do
  iunlock x
  let line ← atomic fun s => ({ s with console := s.console.tail }, s.console.head?)
  ilock x
  return line.map fun l => l.take n

/-- the loop of `readi`: `n` bytes are left, from `off` on -/
def readLoop (x : ℕ) : ℕ → ℕ → ℕ → FsM (List UInt8)
  | 0, _, _ => return []
  | fuel + 1, off, n =>
    if n = 0 then return []
    else do
      let addr ← bmap sb x (off / BSIZE)
      let s ← get
      let m := min n (BSIZE - off % BSIZE)
      let rest ← readLoop x fuel (off + m) (n - m)
      return (List.range m).map (fun i => s.data addr (off % BSIZE + i)) ++ rest

/-- read data from inode; `none` is the result -1. A round reads a byte at least, so `n` rounds are enough. -/
def readi (x off n : ℕ) : FsM (Option (List UInt8)) := do
  let s ← get
  if (s.core x).type = .dev then
    if (s.core x).major = CONSOLE then consoleread x n else return none
  else if (s.core x).size < off ∨ uint (off + n) < off then return none
  else
    let n := if (s.core x).size < off + n then (s.core x).size - off else n
    let bytes ← readLoop sb x n off n
    return some bytes

/-- the loop of `writei`: the bytes that are left go to `off` -/
def writeLoop (x : ℕ) : ℕ → ℕ → List UInt8 → FsM Unit
  | 0, _, _ => return ()
  | fuel + 1, off, src =>
    if src.length = 0 then return ()
    else do
      let addr ← bmap sb x (off / BSIZE)
      let m := min src.length (BSIZE - off % BSIZE)
      modify fun s => (s.setData addr (setBytes (s.data addr) (off % BSIZE) (src.take m))).logWrite addr
      writeLoop x fuel (off + m) (src.drop m)

/-- write data to inode; `none` is the result -1 -/
def writei (x : ℕ) (src : List UInt8) (off : ℕ) : FsM (Option ℕ) := do
  let s ← get
  if (s.core x).type = .dev then
    if (s.core x).major = CONSOLE then
      -- `consolewrite` unlocks the inode while it prints
      iunlock x
      ilock x
      return some src.length
    else return none
  else if (s.core x).size < off ∨ uint (off + src.length) < off then return none
  else if MAXFILE * BSIZE < off + src.length then return none
  else
    writeLoop sb x src.length off src
    if 0 < src.length ∧ (s.core x).size < off + src.length then
      modify fun s => s.setCore x { s.core x with size := off + src.length }
      iupdate sb x
    else pure ()
    return some src.length

end Xv6.FileSys
