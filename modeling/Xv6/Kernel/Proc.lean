/-
The process table and the system calls on it (`proc.c`, `exec.c`, `sysfile.c`, `sysproc.c`).

The machine is up in some state, or it has stopped in a panic. Each operation is a scheduling decision, or one system
call of a running process or thread, done in one step; `wait` that has to wait puts its caller to sleep and is called
again when the caller runs. Any number of processes run at once, so the operations of a run interleave in any order.

Pages are named by the request that returned them (`Core.Names`), and a page directory is found under the name of its
page until it is given to `freevm`: a pointer to a directory that was freed is a name under which nothing is found.

Left out: trap frames, names, kernel stacks' contents, the contents of user pages, files and pipes, and the locks that
make the calls exclude each other.
-/
import Xv6.Core.Run
import Xv6.Kernel.Exec
import Xv6.Kernel.File

namespace Xv6.Kernel

open Xv6.Core

/-! ## State -/

inductive ProcState
  | unused
  | embryo
  | sleeping
  | runnable
  | running
  | zombie
  deriving DecidableEq, Repr

/-- per-process state; a null pointer is `none` -/
structure Proc where
  sz : ℕ
  pgdir : Option ℕ
  kstack : Option ℕ
  state : ProcState
  pid : ℕ
  parent : Option (Fin NPROC)
  chan : Option (Fin NPROC)
  killed : Bool
  ofile : Fin NOFILE → Option (Fin NFILE)
  cwd : Option (Fin NINODE)
  isthread : Bool
  /-- the process is inside `wait` -/
  waiting : Bool

structure St where
  proc : Fin NPROC → Proc
  nextpid : ℕ
  /-- the page directories in use, by the page they live in -/
  dir : ℕ → Option Dir
  mem : Names
  fs : Files

/-- RUNNABLE, RUNNING or SLEEPING -/
def Proc.Live (p : Proc) : Prop := p.state = .runnable ∨ p.state = .running ∨ p.state = .sleeping

instance (p : Proc) : Decidable p.Live := inferInstanceAs (Decidable (_ ∨ _))

/-- `userinit` takes the first entry of the table -/
def initproc : Fin NPROC := 0

namespace St

def setProc (s : St) (i : Fin NPROC) (p : Proc) : St := { s with proc := Function.update s.proc i p }

/-- the directory of a process, which must be there to be used -/
def pgdir (s : St) (p : Fin NPROC) : Except Panic (ℕ × Dir) :=
  match (s.proc p).pgdir with
  | none => .error .fault
  | some d =>
    match s.dir d with
    | none => .error .fault
    | some D => .ok (d, D)

/-- `freevm(p->pgdir)` -/
def freevm (s : St) (p : Fin NPROC) : Except Panic St :=
  match (s.proc p).pgdir with
  | none => .error .freevm
  | some d =>
    match s.dir d with
    | none => .error .fault
    | some D => .ok { s with dir := Function.update s.dir d none, mem := Kernel.freevm d D s.mem }

/-- `kfree(p->kstack)` -/
def freeStack (s : St) (p : Fin NPROC) : St :=
  match (s.proc p).kstack with
  | none => s
  | some ks => { s with mem := Pager.free ks s.mem }

/-- the entry `allocproc` takes -/
def unusedSlot (s : St) : Option (Fin NPROC) := (List.finRange NPROC).find? fun i => decide ((s.proc i).state = .unused)

end St

/-! ## `proc.c` -/

def allocproc (s : St) : Option (Fin NPROC) × St :=
  match s.unusedSlot with
  | none => (none, s)
  | some np =>
    let p := { s.proc np with state := .embryo, pid := s.nextpid }
    let s := { s with nextpid := s.nextpid + 1 }
    match Pager.alloc s.mem with
    | (none, mem) => (none, { s.setProc np { p with kstack := none, state := .unused } with mem := mem })
    | (some ks, mem) => (some np, { s.setProc np { p with kstack := some ks, isthread := false } with mem := mem })

/-- what `growproc` asks of the directory: the new size, or 0 -/
def resize (D : Dir) (sz : ℕ) (n : ℤ) (mem : Names) : Except Panic (ℕ × Dir × Names) :=
  let newsz := ((sz + n) % 2 ^ 32).toNat
  if 0 < n then allocuvm D sz newsz mem else .ok (deallocuvm D sz newsz mem)

/-- false is -1 -/
def growproc (s : St) (p : Fin NPROC) (n : ℤ) : Except Panic (Bool × St) :=
  if n = 0 then .ok (true, s)
  else do
    let (d, D) ← s.pgdir p
    let (sz, D, mem) ← resize D (s.proc p).sz n s.mem
    let s := { s with dir := Function.update s.dir d (some D), mem := mem }
    if sz = 0 then return (false, s) else return (true, s.setProc p { s.proc p with sz := sz })

/-- one round of the loop of `fork` over the parent's descriptors -/
def dupStep (parent : Fin NOFILE → Option (Fin NFILE)) (st : Files × (Fin NOFILE → Option (Fin NFILE)))
    (i : Fin NOFILE) : Except Panic (Files × (Fin NOFILE → Option (Fin NFILE))) :=
  let (fs, ofile) := st
  match parent i with
  | none => .ok (fs, ofile)
  | some f => do
    let fs ← filedup f fs
    return (fs, Function.update ofile i (some f))

/-- descriptors and current directory for a child in entry `np`, each with a reference of its own; an entry of the
child's `ofile` is written where the parent's is not null -/
def inherit (s : St) (p np : Fin NPROC) : Except Panic (Files × (Fin NOFILE → Option (Fin NFILE)) × Fin NINODE) := do
  let (fs, ofile) ← (List.finRange NOFILE).foldlM (dupStep (s.proc p).ofile) (s.fs, (s.proc np).ofile)
  match (s.proc p).cwd with
  | none => .error .fault
  | some cwd => return ({ fs with inode := idup cwd fs.inode }, ofile, cwd)

/-- what `fork` does with the entry `np` it was given -/
def forkInto (l : Link) (s : St) (p np : Fin NPROC) : Except Panic (Option ℕ × St) := do
  let (_, D) ← s.pgdir p
  let (copy, mem) ← copyuvm l D (s.proc p).sz s.mem
  let s := { s with mem := mem }
  match copy with
  | none => return (none, (s.freeStack np).setProc np { s.proc np with pgdir := none, kstack := none, state := .unused })
  | some (d, D) =>
    let (fs, ofile, cwd) ← inherit s p np
    let child := { s.proc np with
      pgdir := some d, sz := (s.proc p).sz, parent := some p, ofile := ofile, cwd := some cwd, state := .runnable }
    return (some child.pid, { s.setProc np child with dir := Function.update s.dir d (some D), fs := fs })

/-- the child's pid, or -1 -/
def fork (l : Link) (s : St) (p : Fin NPROC) : Except Panic (Option ℕ × St) :=
  match allocproc s with
  | (none, s) => .ok (none, s)
  | (some np, s) => forkInto l s p np

/-- the thread's pid, or -1; address space, descriptors and directory are shared without being counted -/
def clone (s : St) (p : Fin NPROC) : Option ℕ × St :=
  match allocproc s with
  | (none, s) => (none, s)
  | (some np, s) =>
    let child := { s.proc np with
      pgdir := (s.proc p).pgdir, sz := (s.proc p).sz, parent := some p, isthread := true,
      ofile := (s.proc p).ofile, cwd := (s.proc p).cwd, state := .runnable }
    (some child.pid, s.setProc np child)

/-- wake up every process sleeping on `chan` -/
def wakeup1 (chan : Option (Fin NPROC)) (proc : Fin NPROC → Proc) : Fin NPROC → Proc := fun i =>
  if (proc i).state = .sleeping ∧ (proc i).chan = chan then { proc i with state := .runnable } else proc i

/-- one round of the loop of `exit` that passes children to init -/
def reparentStep (p : Fin NPROC) (proc : Fin NPROC → Proc) (i : Fin NPROC) : Fin NPROC → Proc :=
  if (proc i).parent = some p then
    let proc := Function.update proc i { proc i with parent := some initproc }
    if (proc i).state = .zombie then wakeup1 (some initproc) proc else proc
  else proc

/-- close the descriptor and clear its entry -/
def closeFd (s : St) (p : Fin NPROC) (fd : Fin NOFILE) : Except Panic St :=
  match (s.proc p).ofile fd with
  | none => .ok s
  | some f => do
    let fs ← fileclose f s.fs
    return { s.setProc p { s.proc p with ofile := Function.update (s.proc p).ofile fd none } with fs := fs }

/-- `iput(curproc->cwd)` -/
def iputCwd (s : St) (p : Fin NPROC) : Except Panic St :=
  match (s.proc p).cwd with
  | none => .error .fault
  | some cwd => .ok { s with fs := { s.fs with inode := iput cwd s.fs.inode } }

/-- a thread keeps its descriptors and releases nothing -/
def exitFiles (s : St) (p : Fin NPROC) : Except Panic St :=
  if (s.proc p).isthread then .ok s
  else do
    let s ← (List.finRange NOFILE).foldlM (fun s fd => closeFd s p fd) s
    iputCwd s p

def exit (s : St) (p : Fin NPROC) : Except Panic St :=
  if p = initproc then .error .initExiting
  else do
    let s ← exitFiles s p
    let s := s.setProc p { s.proc p with cwd := none }
    let proc := wakeup1 (s.proc p).parent s.proc
    let proc := (List.finRange NPROC).foldl (reparentStep p) proc
    return { s with proc := Function.update proc p { proc p with state := .zombie } }

/-- the child `wait` would reap -/
def zombieChild (s : St) (p : Fin NPROC) : Option (Fin NPROC) :=
  (List.finRange NPROC).find? fun q => decide ((s.proc q).parent = some p ∧ (s.proc q).state = .zombie)

/-- `if(!(p->isthread)) freevm(p->pgdir)` -/
def St.freeImage (s : St) (q : Fin NPROC) : Except Panic St := if (s.proc q).isthread then .ok s else s.freevm q

/-- the child's pid, or -1, or nothing yet -/
def wait (s : St) (p : Fin NPROC) : Except Panic (Option ℕ × St) :=
  match zombieChild s p with
  | some q => do
    let s ← (s.freeStack q).freeImage q
    let pid := (s.proc q).pid
    let s := s.setProc q { s.proc q with kstack := none, pid := 0, parent := none, killed := false, state := .unused }
    return (some pid, s.setProc p { s.proc p with waiting := false })
  | none =>
    if (∀ q, (s.proc q).parent ≠ some p) ∨ (s.proc p).killed = true then
      .ok (none, s.setProc p { s.proc p with waiting := false })
    else .ok (none, s.setProc p { s.proc p with state := .sleeping, chan := some p, waiting := true })

/-- false is -1 -/
def kill (s : St) (pid : ℕ) : Bool × St :=
  match (List.finRange NPROC).find? fun q => decide ((s.proc q).pid = pid) with
  | none => (false, s)
  | some q =>
    let p := { s.proc q with killed := true }
    (true, s.setProc q (if p.state = .sleeping then { p with state := .runnable } else p))

/-! ## `exec.c` -/

/-- what `exec` meets: the path, whether the file starts with an ELF header, its segments, and whether the arguments fit -/
structure Program where
  path : Path
  elf : Bool
  segs : List Seg
  args : Bool

/-- false is -1 -/
def exec (l : Link) (s : St) (p : Fin NPROC) (prog : Program) : Except Panic (Bool × St) := do
  let (ip, inode) ← namex prog.path (s.proc p).cwd s.fs.inode
  let s := { s with fs := { s.fs with inode := inode } }
  match ip with
  | none => return (false, s)
  | some ip =>
    ilock ip inode
    let s := { s with fs := { s.fs with inode := iput ip inode } }
    if prog.elf = false then return (false, s)
    else
      let (img, mem) ← image l prog.segs prog.args s.mem
      let s := { s with mem := mem }
      match img with
      | none => return (false, s)
      | some (d, D, sz) =>
        -- commit to the user image, then free the old one
        let s' ← s.freevm p
        return (true, { s'.setProc p { s'.proc p with pgdir := some d, sz := sz } with
          dir := Function.update s'.dir d (some D) })

/-! ## `sysfile.c` -/

/-- the first free descriptor takes the file -/
def fdalloc (s : St) (p : Fin NPROC) (f : Fin NFILE) : Option (Fin NOFILE × St) :=
  match (List.finRange NOFILE).find? fun fd => decide ((s.proc p).ofile fd = none) with
  | none => none
  | some fd => some (fd, s.setProc p { s.proc p with ofile := Function.update (s.proc p).ofile fd (some f) })

def sysDup (s : St) (p : Fin NPROC) (fd : Fin NOFILE) : Except Panic St :=
  match (s.proc p).ofile fd with
  | none => .ok s
  | some f =>
    match fdalloc s p f with
    | none => .ok s
    | some (_, s) => do
      let fs ← filedup f s.fs
      return { s with fs := fs }

/-- `typeOk` says that the inode may be opened in the mode asked for -/
def sysOpen (s : St) (p : Fin NPROC) (path : Path) (typeOk writable : Bool) : Except Panic St := do
  let (ip, inode) ← namex path (s.proc p).cwd s.fs.inode
  let s := { s with fs := { s.fs with inode := inode } }
  match ip with
  | none => return s
  | some ip =>
    ilock ip inode
    let bad := fun s : St => { s with fs := { s.fs with inode := iput ip s.fs.inode } }
    if typeOk = false then return bad s
    else
      match filealloc s.fs with
      | (none, _) => return bad s
      | (some f, fs) =>
        let s := { s with fs := fs }
        match fdalloc s p f with
        | none =>
          let fs ← fileclose f s.fs
          return bad { s with fs := fs }
        | some (_, s) =>
          let file := { s.fs.file f with type := .inode ip, writable := writable }
          return { s with fs := { s.fs with file := Function.update s.fs.file f file } }

/-- two files on a new pipe, or nothing -/
def pipealloc (s : St) : Except Panic (Option (Fin NFILE × Fin NFILE) × St) :=
  match filealloc s.fs with
  | (none, _) => .ok (none, s)
  | (some f0, fs) =>
    match filealloc fs with
    | (none, fs) => do
      let fs ← fileclose f0 fs
      return (none, { s with fs := fs })
    | (some f1, fs) =>
      match Pager.alloc s.mem with
      | (none, mem) => do
        let fs ← fileclose f0 fs
        let fs ← fileclose f1 fs
        return (none, { s with fs := fs, mem := mem })
      | (some page, mem) =>
        let file := Function.update fs.file f0 { fs.file f0 with type := .pipe page, writable := false }
        let file := Function.update file f1 { file f1 with type := .pipe page, writable := true }
        .ok (some (f0, f1), { s with
          fs := { fs with file := file, pipe := Function.update fs.pipe page (some ⟨true, true⟩) }, mem := mem })

def sysPipe (s : St) (p : Fin NPROC) : Except Panic St := do
  let (files, s) ← pipealloc s
  match files with
  | none => return s
  | some (rf, wf) =>
    let bad := fun s : St => do
      let fs ← fileclose rf s.fs
      let fs ← fileclose wf fs
      return { s with fs := fs }
    match fdalloc s p rf with
    | none => bad s
    | some (fd0, s) =>
      match fdalloc s p wf with
      | none => bad (s.setProc p { s.proc p with ofile := Function.update (s.proc p).ofile fd0 none })
      | some (_, s) => return s

/-- `isDir` says that the inode is a directory -/
def sysChdir (s : St) (p : Fin NPROC) (path : Path) (isDir : Bool) : Except Panic St := do
  let (ip, inode) ← namex path (s.proc p).cwd s.fs.inode
  let s := { s with fs := { s.fs with inode := inode } }
  match ip with
  | none => return s
  | some ip =>
    ilock ip inode
    if isDir = false then return { s with fs := { s.fs with inode := iput ip inode } }
    else
      let s ← iputCwd s p
      return s.setProc p { s.proc p with cwd := some ip }

/-! ## Steps -/

inductive Call
  | fork
  | clone
  | exit
  | wait
  | kill (pid : ℕ)
  | exec (prog : Program)
  | sbrk (n : ℤ)
  | openFile (path : Path) (typeOk writable : Bool)
  | close (fd : Fin NOFILE)
  | dup (fd : Fin NOFILE)
  | pipe
  | chdir (path : Path) (isDir : Bool)

inductive Act
  | schedule (p : Fin NPROC)
  | yield (p : Fin NPROC)
  | call (p : Fin NPROC) (c : Call)

inductive Machine
  | up (s : St)
  | halted (why : Panic)

/-- a system call by `p` -/
def syscall (l : Link) (s : St) (p : Fin NPROC) : Call → Except Panic St
  | .fork => Prod.snd <$> fork l s p
  | .clone => .ok (clone s p).2
  | .exit => exit s p
  | .wait => Prod.snd <$> wait s p
  | .kill pid => .ok (kill s pid).2
  | .exec prog => Prod.snd <$> exec l s p prog
  | .sbrk n => Prod.snd <$> growproc s p n
  | .openFile path typeOk writable => sysOpen s p path typeOk writable
  | .close fd => closeFd s p fd
  | .dup fd => sysDup s p fd
  | .pipe => sysPipe s p
  | .chdir path isDir => sysChdir s p path isDir

def Call.isWait : Call → Bool
  | .wait => true
  | _ => false

/-- a process calls while it runs; inside `wait` it goes on with that -/
def CanCall (s : St) (p : Fin NPROC) (c : Call) : Prop :=
  (s.proc p).state = .running ∧ ((s.proc p).waiting = true → c.isWait = true)

instance (s : St) (p : Fin NPROC) (c : Call) : Decidable (CanCall s p c) := inferInstanceAs (Decidable (_ ∧ _))

/-- one operation; one that is not possible changes nothing -/
def act (l : Link) (s : St) : Act → Except Panic St
  | .schedule p =>
    .ok (if (s.proc p).state = .runnable then s.setProc p { s.proc p with state := .running, chan := none } else s)
  | .yield p => .ok (if (s.proc p).state = .running then s.setProc p { s.proc p with state := .runnable } else s)
  | .call p c => if CanCall s p c then syscall l s p c else .ok s

/-- a call that does not return stops the machine -/
def Machine.of : Except Panic St → Machine
  | .error why => .halted why
  | .ok s => .up s

def step (l : Link) : Machine → Act → Machine
  | .halted why, _ => .halted why
  | .up s, o => .of (act l s o)

/-! ## The first process -/

/-- an entry as the kernel image has it -/
def Proc.zero : Proc := ⟨0, none, none, .unused, 0, none, none, false, fun _ => none, none, false, false⟩

/-- before the first process, with memory to spare -/
def St.zero : St :=
  { proc := fun _ => .zero, nextpid := 1, dir := fun _ => none, mem := ⟨0, fun _ => true⟩
    fs := { file := fun _ => ⟨0, .none, false⟩, inode := fun _ => ⟨0, 0⟩, pipe := fun _ => none } }

/-- the path "/" -/
def Path.root : Path := ⟨true, [], true⟩

def userinit (l : Link) (s : St) : Except Panic St :=
  match allocproc s with
  | (none, _) => .error .fault
  | (some p, s) => do
    let (kvm, mem) ← setupkvm l s.mem
    match kvm with
    | none => .error .userinit
    | some (d, D) =>
      let (D, mem) ← inituvm D l.initcodeSize mem
      let (cwd, inode) ← namex .root none s.fs.inode
      return { s.setProc p { s.proc p with pgdir := some d, sz := PGSIZE, cwd := cwd, state := .runnable } with
        dir := Function.update s.dir d (some D), mem := mem, fs := { s.fs with inode := inode } }

/-- from now on `avail` says which requests to the allocator find a page -/
def St.setAvail (s : St) (avail : ℕ → Bool) : St := { s with mem := { s.mem with avail := avail } }

/-- the machine after boot -/
def start (l : Link) (avail : ℕ → Bool) : Machine := .of ((userinit l .zero).map fun s => s.setAvail avail)

/-- the state after boot, up to the pages that boot has used -/
def booted (d : ℕ) (D : Dir) (mem : Names) : St :=
  { proc := Function.update (fun _ => .zero) initproc { Proc.zero with
      pgdir := some d, sz := PGSIZE, kstack := some 0, pid := 1, cwd := some 0, state := .runnable }
    nextpid := 2, dir := Function.update (fun _ => none) d (some D), mem := mem
    fs := { St.zero.fs with inode := Function.update St.zero.fs.inode 0 ⟨ROOTINO, 1⟩ } }

end Xv6.Kernel
