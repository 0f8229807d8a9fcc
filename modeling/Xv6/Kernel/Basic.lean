/-
Constants and panics of the kernel (`param.h`, `memlayout.h`, `mmu.h`).

A kernel function either returns or stops the machine. It stops by calling `panic`, or by using memory it has no claim
to: a null pointer, or a page directory that was given back to the allocator.
-/
import Xv6.Core.Run

namespace Xv6.Kernel

/-! ## `param.h` -/

/-- maximum number of processes -/
abbrev NPROC : ℕ := 64

instance NPROC_neZero : NeZero NPROC := ⟨nofun⟩

/-- open files per process -/
abbrev NOFILE : ℕ := 16

/-- open files per system -/
abbrev NFILE : ℕ := 100

/-- maximum number of active i-nodes -/
abbrev NINODE : ℕ := 50

/-- max exec arguments -/
def MAXARG : ℕ := 32

/-! ## `memlayout.h` -/

def EXTMEM : ℕ := 0x100000
def PHYSTOP : ℕ := 0xE000000
def DEVSPACE : ℕ := 0xFE000000
def KERNBASE : ℕ := 0x80000000
def KERNLINK : ℕ := KERNBASE + EXTMEM

/-! ## `mmu.h`: a linear address is directory index, table index and offset -/

def PGSIZE : ℕ := 4096
def NPDENTRIES : ℕ := 1024

/-- page directory index; the mask of the macro changes nothing, since a linear address has 32 bits -/
def PDX (va : ℕ) : ℕ := va / 2 ^ 22

/-- page table index -/
def PTX (va : ℕ) : ℕ := va / 2 ^ 12 % 1024

/-- construct a linear address from indexes and offset -/
def PGADDR (d t o : ℕ) : ℕ := d * 2 ^ 22 + t * 2 ^ 12 + o

def PGROUNDUP (sz : ℕ) : ℕ := (sz + PGSIZE - 1) % 2 ^ 32 / PGSIZE * PGSIZE
def PGROUNDDOWN (a : ℕ) : ℕ := a / PGSIZE * PGSIZE

/-! ## How the machine stops -/

/-- the panics the modelled functions can reach, and the use of memory that is not there -/
inductive Panic
  /-- "remap" -/
  | remap
  /-- "PHYSTOP too high" -/
  | phystop
  /-- "inituvm: more than a page" -/
  | inituvm
  /-- "loaduvm: addr must be page aligned" -/
  | loaduvmAligned
  /-- "loaduvm: address should exist" -/
  | loaduvmExists
  /-- "clearpteu" -/
  | clearpteu
  /-- "copyuvm: pte should exist" -/
  | copyuvmPte
  /-- "copyuvm: page not present" -/
  | copyuvmPage
  /-- "freevm: no pgdir" -/
  | freevm
  /-- "userinit: out of memory?" -/
  | userinit
  /-- "init exiting" -/
  | initExiting
  /-- "filedup" -/
  | filedup
  /-- "fileclose" -/
  | fileclose
  /-- "iget: no inodes" -/
  | iget
  /-- "ilock" -/
  | ilock
  /-- a null pointer or a page directory that was freed -/
  | fault
  deriving DecidableEq, Repr

variable {ε α β : Type}

variable {x : Except ε α} {f : α → Except ε β} {b : β}

/-- a computation that returned: its first part returned, and so did the rest -/
theorem bind_ok (h : x >>= f = .ok b) : ∃ a, x = .ok a ∧ f a = .ok b := by
  cases x with
  | error e => exact absurd h (by simp [bind, Except.bind])
  | ok a => exact ⟨a, rfl, h⟩

theorem snd_ok {x : Except Panic (α × β)} (h : Prod.snd <$> x = .ok b) : ∃ a, x = .ok (a, b) := by
  cases x with
  | error e => cases h
  | ok r =>
    cases h
    exact ⟨r.1, rfl⟩

theorem ok_bind (a : α) (f : α → Except ε β) : (Except.ok a >>= f) = f a := rfl

/-- a computation that panicked: its first part did, or the rest -/
theorem bind_error {e : ε} (h : x >>= f = .error e) :
    x = .error e ∨ ∃ a, x = .ok a ∧ f a = .error e := by
  cases x with
  | error e' =>
    cases h
    exact .inl rfl
  | ok a => exact .inr ⟨a, rfl, h⟩

variable {σ ι : Type}

/-- a loop panics as one of its rounds does -/
theorem foldlM_error {f : σ → ι → Except Panic σ} {P : Panic → Prop}
    (hf : ∀ s i e, f s i = .error e → P e) {l : List ι} {s : σ} {e : Panic} (h : l.foldlM f s = .error e) : P e := by
  induction l generalizing s with
  | nil => cases h
  | cons i l ih =>
    rw [List.foldlM_cons] at h
    rcases bind_error h with h | ⟨s1, -, h⟩
    · exact hf s i e h
    · exact ih h

/-- what every round of a loop keeps, the loop keeps -/
theorem foldlM_inv {f : σ → ι → Except Panic σ} {I : σ → Prop}
    (hf : ∀ s i s', f s i = .ok s' → I s → I s') {l : List ι} {s s' : σ} (h : l.foldlM f s = .ok s') (hs : I s) : I s' := by
  induction l generalizing s with
  | nil =>
    cases h
    exact hs
  | cons i l ih =>
    rw [List.foldlM_cons] at h
    obtain ⟨s1, h1, h⟩ := bind_ok h
    exact ih h (hf s i s1 h1 hs)

/-- the same with an invariant that depends on the rounds that are left -/
theorem foldlM_rest {f : σ → ι → Except Panic σ} {I : List ι → σ → Prop}
    (hf : ∀ i l s s', f s i = .ok s' → I (i :: l) s → I l s') {l : List ι} {s s' : σ} (h : l.foldlM f s = .ok s') (hs : I l s) : I [] s' := by
  induction l generalizing s with
  | nil =>
    cases h
    exact hs
  | cons i l ih =>
    rw [List.foldlM_cons] at h
    obtain ⟨s1, h1, h⟩ := bind_ok h
    exact ih h (hf i l s s1 h1 hs)

end Xv6.Kernel
