/-
`exec` on a file of any bytes (`exec.c`, `elf.h`).

The file is given by its bytes, or is missing (`namei` fails). The program headers are read at `phoff` and every 32 bytes after it, in 32
bits, wherever that is; a header or a page of a segment that the file does not have in full ends the call. What loading and `kalloc` put
into pages is left out: `mem` is memory when the arguments are pushed, and the result holds for all of them.
-/
import Xv6.Kernel.Argv

namespace Xv6.Kernel

open Xv6.Core

/-! ## The file -/

/-- `readi` on a regular file of these bytes; `none` is -1 -/
def readFile (file : List UInt8) (off n : ℕ) : Option (List UInt8) :=
  if file.length < off ∨ (off + n) % 2 ^ 32 < off then none else some ((file.drop off).take n)

/-- the bytes, if there are `n` of them -/
def readAll (file : List UInt8) (off n : ℕ) : Option (List UInt8) :=
  match readFile file off n with
  | some b => if b.length = n then some b else none
  | none => none

/-- the `uint` at offset `i` of a structure -/
def uintAt (b : List UInt8) (i : ℕ) : ℕ := ofLe32 (b.getD i 0) (b.getD (i + 1) 0) (b.getD (i + 2) 0) (b.getD (i + 3) 0)

/-- the `ushort` at offset `i` of a structure -/
def ushortAt (b : List UInt8) (i : ℕ) : ℕ := (b.getD i 0).toNat + 2 ^ 8 * (b.getD (i + 1) 0).toNat

def ELF_MAGIC : ℕ := 0x464C457F

/-- the fields of `struct elfhdr` that are used -/
structure Elfhdr where
  magic : ℕ
  entry : ℕ
  phoff : ℕ
  phnum : ℕ

/-- `sizeof(struct elfhdr)` -/
def ELFSIZE : ℕ := 52

def Elfhdr.ofBytes (b : List UInt8) : Elfhdr := ⟨uintAt b 0, uintAt b 24, uintAt b 28, ushortAt b 44⟩

/-- `sizeof(struct proghdr)` -/
def PHSIZE : ℕ := 32

def ELF_PROG_LOAD : ℕ := 1

/-- the program header at `off`, with what the file has for its pages -/
def segAt (file : List UInt8) (off : ℕ) : Seg :=
  match readAll file off PHSIZE with
  | none => ⟨false, false, 0, 0, 0, by decide, by decide, fun _ => false⟩
  | some b =>
    { header := true
      load := uintAt b 0 = ELF_PROG_LOAD
      memsz := uintAt b 20
      filesz := uintAt b 16
      vaddr := uintAt b 8
      memsz_lt := ofLe32_lt _ _ _ _
      vaddr_lt := ofLe32_lt _ _ _ _
      readi := fun i => (readAll file ((uintAt b 4 + i) % 2 ^ 32) (min (uintAt b 16 - i) PGSIZE)).isSome }

/-- the program headers, in order -/
def segsOf (file : List UInt8) (elf : Elfhdr) : List Seg :=
  (List.range elf.phnum).map fun i => segAt file ((elf.phoff + PHSIZE * i) % 2 ^ 32)

/-! ## `exec` -/

/-- the fields of the caller's trap frame that `exec` sets -/
structure Tf where
  eip : ℕ
  esp : ℕ

/-- what `exec` replaces in the caller -/
structure Caller where
  pgdir : ℕ
  dir : Dir
  sz : ℕ
  tf : Tf
  name : List UInt8

/-- the path after its last slash, cut to what fits in `p->name` with a NUL -/
def progName (path : List UInt8) : List UInt8 := ((path.reverse.takeWhile (· ≠ 47)).reverse).take 15

variable {A : Type} [Pager A] {l : Link}

/-- `exec` once the file header has been accepted; false is -1 -/
def execImage (l : Link) (path file : List UInt8) (elf : Elfhdr) (argv : List (List UInt8)) (c : Caller) (a : A) (mem : Mem) :
    Except Panic (Bool × Caller × A × Mem) :=
  match image l (segsOf file elf) true a with
  | .error e => .error e
  | .ok (none, a) => .ok (false, c, a, mem)
  | .ok (some (d, D, sz), a) =>
    match pushStack D sz argv mem with
    | .error e => .error e
    | .ok (none, mem) => .ok (false, c, freevm d D a, mem)
    | .ok (some sp, mem) => .ok (true, ⟨d, D, sz, ⟨elf.entry, sp⟩, progName path⟩, freevm c.pgdir c.dir a, mem)

/-- `exec`, for the file that the path names, if it names one -/
def execFile (l : Link) (path : List UInt8) (file : Option (List UInt8)) (argv : List (List UInt8)) (c : Caller) (a : A) (mem : Mem) :
    Except Panic (Bool × Caller × A × Mem) :=
  match file with
  | none => .ok (false, c, a, mem)
  | some file =>
    match readAll file 0 ELFSIZE with
    | none => .ok (false, c, a, mem)
    | some b =>
      if (Elfhdr.ofBytes b).magic ≠ ELF_MAGIC then .ok (false, c, a, mem)
      else execImage l path file (.ofBytes b) argv c a mem

/-- without the arguments the image is given up -/
theorem image_false {segs : List Seg} {a a' : A} {d sz : ℕ} {D : Dir} (h : image l segs true a = .ok (some (d, D, sz), a')) :
    image l segs false a = .ok (none, freevm d D a') := by
  unfold image at h ⊢
  split at h
  · cases h
  · cases h
  split at h
  · cases h
  · cases h
  split at h
  · cases h
  · cases h
  · cases h
    rfl

/-- **The process table's view.** The call does what `image` does when it is told whether the arguments fit. -/
theorem execImage_image {path file : List UInt8} {elf : Elfhdr} {argv : List (List UInt8)} {c c' : Caller} {a a' : A} {mem mem' : Mem}
    {b : Bool} (h : execImage l path file elf argv c a mem = .ok (b, c', a', mem')) :
    (b = false ∧ ∃ args, image l (segsOf file elf) args a = .ok (none, a')) ∨
    (b = true ∧ ∃ a1, image l (segsOf file elf) true a = .ok (some (c'.pgdir, c'.dir, c'.sz), a1) ∧ a' = freevm c.pgdir c.dir a1) := by
  unfold execImage at h
  split at h
  · cases h
  · rename_i himage
    cases h
    exact .inl ⟨rfl, true, himage⟩
  rename_i himage
  split at h
  · cases h
  · cases h
    exact .inl ⟨rfl, false, image_false himage⟩
  · cases h
    exact .inr ⟨rfl, _, himage, rfl⟩

/-! ## Every file -/

/-- the strings are together shorter than the image that the file gives, if it gives one -/
def ShorterThanImage (l : Link) (file : List UInt8) (argv : List (List UInt8)) (a : A) : Prop :=
  ∀ b d D sz a', readAll file 0 ELFSIZE = some b → image l (segsOf file (.ofBytes b)) true a = .ok (some (d, D, sz), a') →
    (argv.map List.length).sum < sz

variable {file : List UInt8} {argv : List (List UInt8)} {a : Frames}

/-- how a call ends: it succeeds, or nothing has changed -/
def AllOrNothing (c : Caller) (a : Frames) (r : Except Panic (Bool × Caller × Frames × Mem)) : Prop :=
  ∃ b c' a' mem', r = .ok (b, c', a', mem') ∧ (b = false → c' = c ∧ a'.pool = a.pool)

theorem execImage_any (hnodup : a.free.Nodup) (path : List UInt8) {elf : Elfhdr} (hargc : argv.length < MAXARG)
    (hlen : ∀ d D sz a', image l (segsOf file elf) true a = .ok (some (d, D, sz), a') → (argv.map List.length).sum < sz)
    (c : Caller) (mem : Mem) : AllOrNothing c a (execImage l path file elf argv c a mem) := by
  unfold execImage
  rcases image_mapped l (segsOf file elf) true a with ⟨a1, himage, -⟩ | ⟨d, D, sz, _, a1, himage, -⟩
  · rw [himage]
    exact ⟨false, c, a1, mem, rfl, fun _ => ⟨rfl, (add_zero _).symm.trans (image_pool himage)⟩⟩
  · obtain ⟨r, mem1, hpush, -⟩ := (image_new himage).pushStack (image_proper hnodup himage) hargc (hlen _ _ _ _ himage) mem
    simp only [himage, hpush]
    cases r with
    | none =>
      have hpool := image_pool himage
      have hpages : imagePages (some (d, D, sz)) = {d} + dirPages D := rfl
      rw [hpages] at hpool
      exact ⟨false, c, _, mem1, rfl, fun _ => ⟨rfl, by rw [freevm_pool, hpool]⟩⟩
    | some sp => exact ⟨true, _, _, mem1, rfl, nofun⟩

/-- **`exec` on any file.** For every path, every file or none, and every list of fewer than `MAXARG` strings that are together shorter
than the new image, whatever requests for pages are refused: no panic is reached and no null pointer is used, and `exec` returns 0, or
returns -1 with the caller's address space, size, trap frame and name as they were and every page that it took free again. -/
theorem exec_any_file (l : Link) (path : List UInt8) (file : Option (List UInt8)) (argv : List (List UInt8))
    (hargc : argv.length < MAXARG) (c : Caller) (a : Frames) (hnodup : a.free.Nodup)
    (hlen : ∀ f ∈ file, ShorterThanImage l f argv a) (mem : Mem) :
    ∃ b c' a' mem', execFile l path file argv c a mem = .ok (b, c', a', mem') ∧ (b = false → c' = c ∧ a'.pool = a.pool) := by
  have hback : AllOrNothing c a (.ok (false, c, a, mem)) := ⟨false, c, a, mem, rfl, fun _ => ⟨rfl, rfl⟩⟩
  change AllOrNothing c a (execFile l path file argv c a mem)
  cases file with
  | none => exact hback
  | some f =>
    unfold execFile
    dsimp only
    cases hhead : readAll f 0 ELFSIZE with
    | none => exact hback
    | some b =>
      dsimp only
      split
      · exact hback
      · exact execImage_any hnodup path hargc (fun d D sz a' => hlen f rfl b d D sz a' hhead) c mem

/-- the header of a program without segments -/
def emptyElf : List UInt8 := [0x7f, 0x45, 0x4c, 0x46] ++ List.replicate 48 0

/-- a program without segments, started as `ls` -/
theorem exec_any_file_empty : ∃ b c' a' mem',
    execFile kernelLink [108, 115] (some emptyElf) [[108, 115]] ⟨0, fun _ => none, 0, ⟨0, 0⟩, []⟩ (pagesBelow 600000) (fun _ _ => 0) =
      .ok (b, c', a', mem') ∧
    (b = false → c' = ⟨0, fun _ => none, 0, ⟨0, 0⟩, []⟩ ∧ a'.pool = (pagesBelow 600000).pool) := by
  refine exec_any_file kernelLink [108, 115] (some emptyElf) [[108, 115]] (by decide) _ _ (pagesBelow_nodup 600000) ?_ _
  intro f _ b d D sz a' _ himage
  have hlarge := (image_new himage).large
  have hsum : (List.map List.length [([108, 115] : List UInt8)]).sum = 2 := rfl
  rw [hsum]
  simp only [PGSIZE] at hlarge
  omega

end Xv6.Kernel
