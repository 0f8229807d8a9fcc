/-
Page tables (`vm.c`): a page directory, the functions that build, grow, shrink, copy and free one, and what each does
to the set of mapped pages.

A directory is a value `Dir`: a partial map from directory indexes to page-table pages, each a partial map from table
indexes to entries. An entry that is absent is one without `PTE_P`. The functions take the directory and the allocator
and return both. `kfree` never panics on the pages passed to it here: they all come from `kalloc`.
-/
import Xv6.Core.Pager
import Xv6.Kernel.Basic

namespace Xv6.Kernel

open Xv6.Core

/-! ## Directories -/

/-- `PTE_W` and `PTE_U` -/
structure Perm where
  w : Bool
  u : Bool
  deriving DecidableEq, Repr

/-- a present page-table entry -/
structure Pte where
  page : ℕ
  perm : Perm
  deriving DecidableEq, Repr

/-- a page-table page and the entries present in it -/
structure Table where
  page : ℕ
  pte : ℕ → Option Pte

/-- a page directory: the page-table pages present in it -/
abbrev Dir := ℕ → Option Table

/-- the entry for `va`, if it is present -/
def entry (D : Dir) (va : ℕ) : Option Pte := (D (PDX va)).bind fun t => t.pte (PTX va)

/-- `*pte = e` for the entry of `va` -/
def setPte (D : Dir) (va : ℕ) (e : Option Pte) : Dir :=
  match D (PDX va) with
  | none => D
  | some t => Function.update D (PDX va) (some { t with pte := Function.update t.pte (PTX va) e })

section Functions

variable {A : Type} [Pager A]

/-- the address of the entry for `va`, given as what the entry holds; `none` is the null pointer -/
def walkpgdir (D : Dir) (va : ℕ) (alloc : Bool) (a : A) : Option (Option Pte) × Dir × A :=
  match D (PDX va) with
  | some t => (some (t.pte (PTX va)), D, a)
  | none =>
    if alloc then
      match Pager.alloc a with
      | (none, a) => (none, D, a)
      | (some pgtab, a) => (some none, Function.update D (PDX va) (some ⟨pgtab, fun _ => none⟩), a)
    else (none, D, a)

/-- one round of the loop of `mappages` -/
def mapPage (D : Dir) (va pa : ℕ) (perm : Perm) (a : A) : Except Panic (Bool × Dir × A) :=
  match walkpgdir D va true a with
  | (none, D, a) => .ok (false, D, a)
  | (some (some _), _, _) => .error .remap
  | (some none, D, a) => .ok (true, setPte D va (some ⟨pa, perm⟩), a)

/-- the loop of `mappages` with `k` rounds to go after this one: `a == last` when `k` is 0 -/
def mapLoop : ℕ → Dir → ℕ → ℕ → Perm → A → Except Panic (Bool × Dir × A)
  | 0, D, va, pa, perm, a => mapPage D va pa perm a
  | k + 1, D, va, pa, perm, a =>
    match mapPage D va pa perm a with
    | .error e => .error e
    | .ok (false, D, a) => .ok (false, D, a)
    | .ok (true, D, a) => mapLoop k D (va + PGSIZE) (pa + 1) perm a

/-- create entries for the `size` bytes at `va` that refer to the pages from number `pa` on; false is -1 -/
def mappages (D : Dir) (va size pa : ℕ) (perm : Perm) (a : A) : Except Panic (Bool × Dir × A) :=
  mapLoop ((PGROUNDDOWN (va + size - 1) - PGROUNDDOWN va) / PGSIZE) D (PGROUNDDOWN va) pa perm a

/-- the loop of `deallocuvm` at address `va` -/
def deallocLoop (oldsz va : ℕ) (D : Dir) (a : A) : Dir × A :=
  if va < oldsz then
    match walkpgdir D va false a with
    | (none, D, a) => deallocLoop oldsz (PGADDR (PDX va + 1) 0 0 - PGSIZE + PGSIZE) D a
    | (some (some e), D, a) => deallocLoop oldsz (va + PGSIZE) (setPte D va none) (Pager.free e.page a)
    | (some none, D, a) => deallocLoop oldsz (va + PGSIZE) D a
  else (D, a)
termination_by oldsz - va
decreasing_by all_goals simp only [PDX, PGADDR, PGSIZE]; omega

/-- the new size, the directory and the allocator -/
def deallocuvm (D : Dir) (oldsz newsz : ℕ) (a : A) : ℕ × Dir × A :=
  if oldsz ≤ newsz then (oldsz, D, a) else (newsz, deallocLoop oldsz (PGROUNDUP newsz) D a)

/-- the loop of `allocuvm` at address `va` -/
def allocLoop (oldsz newsz va : ℕ) (D : Dir) (a : A) : Except Panic (ℕ × Dir × A) :=
  if va < newsz then
    match Pager.alloc a with
    | (none, a) => .ok (0, (deallocuvm D newsz oldsz a).2)
    | (some mem, a) =>
      match mappages D va PGSIZE mem ⟨true, true⟩ a with
      | .error e => .error e
      | .ok (false, D, a) =>
        let (_, D, a) := deallocuvm D newsz oldsz a
        .ok (0, D, Pager.free mem a)
      | .ok (true, D, a) => allocLoop oldsz newsz (va + PGSIZE) D a
  else .ok (newsz, D, a)
termination_by newsz - va
decreasing_by simp only [PGSIZE]; omega

/-- the new size or 0, the directory and the allocator -/
def allocuvm (D : Dir) (oldsz newsz : ℕ) (a : A) : Except Panic (ℕ × Dir × A) :=
  if KERNBASE ≤ newsz then .ok (0, D, a)
  else if newsz < oldsz then .ok (oldsz, D, a)
  else allocLoop oldsz newsz (PGROUNDUP oldsz) D a

/-- free the user pages, the page-table pages and the directory itself -/
def freevm (pgdir : ℕ) (D : Dir) (a : A) : A :=
  let (_, D, a) := deallocuvm D KERNBASE 0 a
  let a := (List.range NPDENTRIES).foldl (fun a i => match D i with
    | some t => Pager.free t.page a
    | none => a) a
  Pager.free pgdir a

/-- a row of the table of kernel mappings -/
structure Kmap where
  virt : ℕ
  physStart : ℕ
  physEnd : ℕ
  perm : Perm

/-- `phys_end - phys_start` in 32 bits: the last row ends at 0, the end of the address space -/
def Kmap.size (k : Kmap) : ℕ := (k.physEnd + 2 ^ 32 - k.physStart) % 2 ^ 32

/-- what the linker decides: the kernel's data starts on a page boundary, above the kernel's text and inside memory, and
the first program is smaller than a page -/
structure Link where
  data : ℕ
  aligned : data % PGSIZE = 0
  above : KERNLINK < data
  below : data < KERNBASE + PHYSTOP
  initcodeSize : ℕ
  initcodeSize_lt : initcodeSize < PGSIZE

/-- the addresses of a kernel -/
def kernelLink : Link := ⟨0x80108000, by decide, by decide, by decide, 44, by decide⟩

def kmap (l : Link) : List Kmap :=
  [⟨KERNBASE, 0, EXTMEM, ⟨true, false⟩⟩,
   ⟨KERNLINK, KERNLINK - KERNBASE, l.data - KERNBASE, ⟨false, false⟩⟩,
   ⟨l.data, l.data - KERNBASE, PHYSTOP, ⟨true, false⟩⟩,
   ⟨DEVSPACE, DEVSPACE, 0, ⟨true, false⟩⟩]

/-- one round of the loop of `setupkvm`; nothing is mapped after a failure -/
def kmapStep (r : Except Panic (Bool × Dir × A)) (k : Kmap) : Except Panic (Bool × Dir × A) :=
  match r with
  | .ok (true, D, a) => mappages D k.virt k.size (k.physStart / PGSIZE) k.perm a
  | r => r

/-- a directory with the kernel mappings, under the name of its page -/
def setupkvm (l : Link) (a : A) : Except Panic (Option (ℕ × Dir) × A) :=
  match Pager.alloc a with
  | (none, a) => .ok (none, a)
  | (some pgdir, a) =>
    if DEVSPACE < KERNBASE + PHYSTOP then .error .phystop
    else
      match (kmap l).foldl kmapStep (.ok (true, fun _ => none, a)) with
      | .error e => .error e
      | .ok (false, D, a) => .ok (none, freevm pgdir D a)
      | .ok (true, D, a) => .ok (some (pgdir, D), a)

/-- the loop of `copyuvm` at address `i`; false is `goto bad` -/
def copyLoop (src : Dir) (sz i : ℕ) (D : Dir) (a : A) : Except Panic (Bool × Dir × A) :=
  if i < sz then
    match walkpgdir src i false a with
    | (none, _, _) => .error .copyuvmPte
    | (some none, _, _) => .error .copyuvmPage
    | (some (some e), _, a) =>
      match Pager.alloc a with
      | (none, a) => .ok (false, D, a)
      | (some mem, a) =>
        match mappages D i PGSIZE mem e.perm a with
        | .error e => .error e
        | .ok (false, D, a) => .ok (false, D, Pager.free mem a)
        | .ok (true, D, a) => copyLoop src sz (i + PGSIZE) D a
  else .ok (true, D, a)
termination_by sz - i
decreasing_by simp only [PGSIZE]; omega

/-- a copy of a directory for a child -/
def copyuvm (l : Link) (src : Dir) (sz : ℕ) (a : A) : Except Panic (Option (ℕ × Dir) × A) :=
  match setupkvm l a with
  | .error e => .error e
  | .ok (none, a) => .ok (none, a)
  | .ok (some (d, D), a) =>
    match copyLoop src sz 0 D a with
    | .error e => .error e
    | .ok (false, D, a) => .ok (none, freevm d D a)
    | .ok (true, D, a) => .ok (some (d, D), a)

/-- map one page at address 0 for the first program; the answers of `kalloc` and `mappages` are not looked at -/
def inituvm (D : Dir) (sz : ℕ) (a : A) : Except Panic (Dir × A) :=
  if PGSIZE ≤ sz then .error .inituvm
  else
    match Pager.alloc a with
    | (none, _) => .error .fault
    | (some mem, a) =>
      match mappages D 0 PGSIZE mem ⟨true, true⟩ a with
      | .error e => .error e
      | .ok (_, D, a) => .ok (D, a)

/-- the loop of `loaduvm` at offset `i`; `readi i` says that the file has the bytes for it -/
def loadLoop (D : Dir) (addr sz : ℕ) (readi : ℕ → Bool) (i : ℕ) : Except Panic Bool :=
  if i < sz then
    match D (PDX (addr + i)) with
    | none => .error .loaduvmExists
    | some _ => if readi i then loadLoop D addr sz readi (i + PGSIZE) else .ok false
  else .ok true
termination_by sz - i
decreasing_by simp only [PGSIZE]; omega

/-- load a program segment; false is -1 -/
def loaduvm (D : Dir) (addr sz : ℕ) (readi : ℕ → Bool) : Except Panic Bool :=
  if addr % PGSIZE ≠ 0 then .error .loaduvmAligned else loadLoop D addr sz readi 0

/-- clear `PTE_U` on a page -/
def clearpteu (D : Dir) (uva : ℕ) : Except Panic Dir :=
  match D (PDX uva) with
  | none => .error .clearpteu
  | some t => .ok (setPte D uva ((t.pte (PTX uva)).map fun e => { e with perm := { e.perm with u := false } }))

end Functions

end Xv6.Kernel
