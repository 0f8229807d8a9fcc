/-
The arguments of system calls (`syscall.c`, and what the calls of `sysfile.c` and `sysproc.c` fetch).

Arguments are words on the user's stack, and some of them point to strings or buffers. Every sum is in 32 bits and the program chooses
all operands. A process is seen through its size, its stack pointer, its memory, and which of its descriptors are open; the memory is the
whole address space, as far as the checks go, so that a read too far is a read and not an accident of the model.
-/
import Xv6.Core.Bytes
import Xv6.Core.Fetch
import Xv6.Kernel.Basic

namespace Xv6.Kernel.SysArgs

open Xv6.Core Xv6.Core.Fetch

/-- the process that makes the call -/
structure User where
  sz : ℕ
  esp : ℕ
  mem : ℕ → UInt8
  /-- the descriptors that are open -/
  ofile : Fin NOFILE → Bool

variable (u : User)

/-! ## `syscall.c` -/

/-- the word at `addr`, as 32 bits; `none` is -1 -/
def fetchint (addr : ℕ) : Fetch ℕ :=
  if u.sz ≤ addr ∨ u.sz < (addr + 4) % 2 ^ 32 then fail
  else
    ⟨[addr, addr + 1, addr + 2, addr + 3],
      some (ofLe32 (u.mem addr) (u.mem (addr + 1)) (u.mem (addr + 2)) (u.mem (addr + 3)))⟩

/-- the loop of `fetchstr` with at most `n` bytes to go, from `s` on: the distance of the first NUL -/
def scan : ℕ → ℕ → Fetch ℕ
  | 0, _ => fail
  | n + 1, s =>
    if u.mem s = 0 then ⟨[s], some 0⟩
    else ⟨s :: (scan n (s + 1)).reads, (scan n (s + 1)).val.map (· + 1)⟩

/-- the string at `addr`, as its address and length -/
def fetchstr (addr : ℕ) : Fetch (ℕ × ℕ) :=
  if u.sz ≤ addr then fail
  else do
    let n ← scan u (u.sz - addr) addr
    return (addr, n)

/-- fetch the nth 32-bit system call argument -/
def argint (n : ℕ) : Fetch ℕ := fetchint u ((u.esp + 4 + 4 * n) % 2 ^ 32)

/-- the signed reading of 32 bits -/
def int (w : ℕ) : ℤ := if w < 2 ^ 31 then w else w - 2 ^ 32

/-- fetch the nth argument as a pointer to a block of memory of `size` bytes -/
def argptr (n : ℕ) (size : ℤ) : Fetch ℕ := do
  let i ← argint u n
  if size < 0 ∨ u.sz ≤ i ∨ (u.sz : ℤ) < (i + size) % 2 ^ 32 then fail else return i

/-- fetch the nth argument as a string pointer -/
def argstr (n : ℕ) : Fetch (ℕ × ℕ) := do
  let addr ← argint u n
  fetchstr u addr

/-! ## What the system calls fetch -/

/-- a range of user memory: its first address and its length -/
abbrev Range := ℕ × ℕ

/-- the bytes of a string, its NUL included -/
def strRange (s : ℕ × ℕ) : Range := (s.1, s.2 + 1)

/-- fetch the nth argument as a file descriptor -/
def argfd (n : ℕ) : Fetch Unit := do
  let fd ← argint u n
  if h : fd < NOFILE then (if u.ofile ⟨fd, h⟩ then return () else fail) else fail

/-- `sizeof(struct stat)` -/
def STATSIZE : ℤ := 20

/-- the loop of `sys_exec` over the pointers at `uargv`, the one at `i` next; `fuel` entries of `argv` are left -/
def argvLoop (uargv : ℕ) : ℕ → ℕ → Fetch (List (ℕ × ℕ))
  | 0, _ => fail
  | fuel + 1, i => do
    let uarg ← fetchint u ((uargv + 4 * i) % 2 ^ 32)
    if uarg = 0 then return []
    else do
      let arg ← fetchstr u uarg
      let args ← argvLoop uargv fuel (i + 1)
      return arg :: args

/-- `sys_exec`: the path and the argument strings -/
def sysExec : Fetch ((ℕ × ℕ) × List (ℕ × ℕ)) := do
  let path ← argstr u 0
  let uargv ← argint u 1
  let argv ← argvLoop u uargv MAXARG 0
  return (path, argv)

inductive Call
  | fork | exit | wait | pipe | read | kill | exec | fstat | chdir | dup | getpid | sbrk | sleep | uptime | openFile | write | mknod
  | unlink | link | mkdir | close | clone
  deriving DecidableEq, Repr

/-- `sys_read` and `sys_write`: the length is the third argument -/
def argbuf : Fetch (List Range) := do
  argfd u 0
  let n ← argint u 2
  let p ← argptr u 1 (int n)
  return [(p, (int n).toNat)]

/-- one string, and no more -/
def argpath : Fetch (List Range) := do
  let path ← argstr u 0
  return [strRange path]

/-- the fetches of a system call: the ranges of memory that it is then given to use -/
def fetchArgs : Call → Fetch (List Range)
  | .fork | .exit | .wait | .getpid | .uptime => return []
  | .kill | .sbrk | .sleep => do
    let _ ← argint u 0
    return []
  | .dup | .close => do
    argfd u 0
    return []
  | .clone => do
    let _ ← argint u 0
    let _ ← argint u 1
    return []
  | .pipe => do
    let fd ← argptr u 0 8
    return [(fd, 8)]
  | .read | .write => argbuf u
  | .fstat => do
    argfd u 0
    let st ← argptr u 1 STATSIZE
    return [(st, STATSIZE.toNat)]
  | .unlink | .mkdir | .chdir => argpath u
  | .openFile => do
    let r ← argpath u
    let _ ← argint u 1
    return r
  | .mknod => do
    let r ← argpath u
    let _ ← argint u 1
    let _ ← argint u 2
    return r
  | .link => do
    let old ← argstr u 0
    let new ← argstr u 1
    return [strRange old, strRange new]
  | .exec => do
    let (path, argv) ← sysExec u
    return strRange path :: argv.map strRange

/-! ## When a fetch succeeds -/

variable {u} {addr n : ℕ}

theorem fetchint_isSome (hsz : u.sz ≤ KERNBASE) : (fetchint u addr).val.isSome = true ↔ addr + 4 ≤ u.sz := by
  simp only [KERNBASE] at hsz
  unfold fetchint
  split
  · simp only [fail, Option.isSome_none, Bool.false_eq_true, false_iff]
    omega
  · simp only [Option.isSome_some, true_iff]
    omega

variable {s k : ℕ}

theorem scan_eq_some : (scan u n s).val = some k ↔ k < n ∧ u.mem (s + k) = 0 ∧ ∀ j < k, u.mem (s + j) ≠ 0 := by
  induction n generalizing s k with
  | zero =>
    constructor
    · nofun
    · rintro ⟨hlt, -⟩
      exact absurd hlt (Nat.not_lt_zero k)
  | succ n ih =>
    unfold scan
    split
    · rename_i hnul
      constructor
      · intro h
        cases h
        exact ⟨Nat.succ_pos n, hnul, nofun⟩
      · rintro ⟨-, -, hbefore⟩
        cases k with
        | zero => rfl
        | succ k => exact absurd hnul (hbefore 0 (Nat.succ_pos k))
    · rename_i hnul
      cases k with
      | zero =>
        constructor
        · intro h
          obtain ⟨k, -, hk⟩ := Option.map_eq_some_iff.1 h
          cases hk
        · rintro ⟨-, h, -⟩
          exact absurd h hnul
      | succ k =>
        have hrest := ih (s := s + 1) (k := k)
        have hmap : ((scan u n (s + 1)).val.map (· + 1)) = some (k + 1) ↔ (scan u n (s + 1)).val = some k := by
          rw [Option.map_eq_some_iff]
          constructor
          · rintro ⟨j, hj, hjk⟩
            rwa [← Nat.succ.inj hjk]
          · intro h
            exact ⟨k, h, rfl⟩
        rw [hmap, hrest, Nat.succ_lt_succ_iff, Nat.add_assoc, Nat.add_comm 1]
        refine and_congr_right fun _ => and_congr_right fun _ => ⟨fun h j hj => ?_, fun h j hj => ?_⟩
        · cases j with
          | zero => exact hnul
          | succ j =>
            have hj' := h j (Nat.lt_of_succ_lt_succ hj)
            rwa [Nat.add_assoc, Nat.add_comm 1] at hj'
        · rw [Nat.add_assoc, Nat.add_comm 1]
          exact h (j + 1) (Nat.succ_lt_succ hj)

/-- the string ends at the first NUL below the size -/
theorem fetchstr_eq_some {p : ℕ} :
    (fetchstr u addr).val = some (p, k) ↔ p = addr ∧ addr + k < u.sz ∧ u.mem (addr + k) = 0 ∧ ∀ j < k, u.mem (addr + j) ≠ 0 := by
  unfold fetchstr
  split
  · constructor
    · nofun
    · rintro ⟨-, h, -⟩
      omega
  · rw [val_bind, Option.bind_eq_some_iff]
    constructor
    · rintro ⟨k', hk, hpure⟩
      cases hpure
      obtain ⟨hlt, hrest⟩ := scan_eq_some.1 hk
      exact ⟨rfl, by omega, hrest⟩
    · rintro ⟨rfl, hlt, hrest⟩
      exact ⟨k, scan_eq_some.2 ⟨by omega, hrest⟩, rfl⟩

/-- a NUL below the size is enough: the first one ends the string -/
theorem fetchstr_isSome : (fetchstr u addr).val.isSome = true ↔ ∃ p, addr ≤ p ∧ p < u.sz ∧ u.mem p = 0 := by
  rw [Option.isSome_iff_exists]
  constructor
  · rintro ⟨⟨p, k⟩, h⟩
    obtain ⟨-, hlt, hnul, -⟩ := fetchstr_eq_some.1 h
    exact ⟨addr + k, Nat.le_add_right _ _, hlt, hnul⟩
  · rintro ⟨p, hle, hlt, hnul⟩
    have hex : ∃ k, u.mem (addr + k) = 0 := ⟨p - addr, by rwa [Nat.add_sub_cancel' hle]⟩
    refine ⟨(addr, Nat.find hex), fetchstr_eq_some.2 ⟨rfl, ?_, Nat.find_spec hex, fun j hj => Nat.find_min hex hj⟩⟩
    have hmin := Nat.find_min' hex (show u.mem (addr + (p - addr)) = 0 by rwa [Nat.add_sub_cancel' hle])
    omega

theorem argptr_eq_some (hsz : u.sz ≤ KERNBASE) {size : ℤ} (hsize : size < 2 ^ 31) {p : ℕ} :
    (argptr u n size).val = some p ↔ (argint u n).val = some p ∧ 0 ≤ size ∧ p < u.sz ∧ p + size ≤ u.sz := by
  simp only [KERNBASE] at hsz
  unfold argptr
  rw [val_bind, Option.bind_eq_some_iff]
  constructor
  · rintro ⟨i, hi, hrest⟩
    split at hrest
    · cases hrest
    · cases hrest
      exact ⟨hi, by omega, by omega, by omega⟩
  · rintro ⟨hi, hpos, hlt, hend⟩
    refine ⟨p, hi, ?_⟩
    rw [if_neg (by omega)]
    rfl

/-! ## What is read, and what is handed on -/

theorem within_fetchint (hsz : u.sz ≤ KERNBASE) : Within u.sz (fetchint u addr) fun _ => True := by
  refine ⟨fun x hx => ?_, fun _ _ => trivial⟩
  have hsome : (fetchint u addr).val.isSome = true ↔ addr + 4 ≤ u.sz := fetchint_isSome hsz
  unfold fetchint at hx hsome
  split at hx
  · cases hx
  · rename_i hin
    rw [if_neg hin] at hsome
    have hend := hsome.1 rfl
    simp only [List.mem_cons, List.not_mem_nil, or_false] at hx
    omega

theorem within_argint (hsz : u.sz ≤ KERNBASE) : Within u.sz (argint u n) fun _ => True := within_fetchint hsz

theorem scan_reads : ∀ x ∈ (scan u n s).reads, x < s + n := by
  induction n generalizing s with
  | zero => nofun
  | succ n ih =>
    intro x hx
    unfold scan at hx
    split at hx
    · rw [List.mem_singleton.1 hx]
      omega
    · rcases List.mem_cons.1 hx with rfl | hx
      · omega
      · have := ih x hx
        omega

/-- the whole string, with its NUL, lies below the size -/
theorem within_fetchstr : Within u.sz (fetchstr u addr) fun s => s.1 + s.2 + 1 ≤ u.sz := by
  refine ⟨fun x hx => ?_, fun s hs => ?_⟩
  · unfold fetchstr at hx
    split at hx
    · cases hx
    · have hscan : Within u.sz (scan u (u.sz - addr) addr) fun _ => True := by
        refine ⟨fun y hy => ?_, fun _ _ => trivial⟩
        have := scan_reads y hy
        omega
      exact (within_bind hscan fun k _ => within_pure (Q := fun _ => True) trivial).reads x hx
  · obtain ⟨rfl, hlt, -⟩ := fetchstr_eq_some.1 hs
    exact hlt

theorem within_argstr (hsz : u.sz ≤ KERNBASE) : Within u.sz (argstr u n) fun s => s.1 + s.2 + 1 ≤ u.sz :=
  within_bind (within_argint hsz) fun _ _ => within_fetchstr

theorem within_argptr (hsz : u.sz ≤ KERNBASE) {size : ℤ} (hsize : size < 2 ^ 31) :
    Within u.sz (argptr u n size) fun p => p + size.toNat ≤ u.sz := by
  refine ⟨?_, fun p hp => ?_⟩
  · refine (within_bind (R := fun _ => True) (within_argint hsz) fun i _ => ?_).reads
    split
    · exact within_fail
    · exact within_pure trivial
  · obtain ⟨-, hpos, -, hend⟩ := (argptr_eq_some hsz hsize).1 hp
    omega

theorem within_argfd (hsz : u.sz ≤ KERNBASE) : Within u.sz (argfd u n) fun _ => True := by
  refine within_bind (within_argint hsz) fun fd _ => ?_
  split
  · split
    · exact within_pure trivial
    · exact within_fail
  · exact within_fail

/-- every range lies below the size -/
def Below (sz : ℕ) (rs : List Range) : Prop := ∀ r ∈ rs, r.1 + r.2 ≤ sz

theorem Below.nil {sz : ℕ} : Below sz [] := nofun

theorem Below.cons {sz : ℕ} {r : Range} {rs : List Range} (h : r.1 + r.2 ≤ sz) (hs : Below sz rs) : Below sz (r :: rs) := by
  intro r' hr'
  rcases List.mem_cons.1 hr' with rfl | hr'
  · exact h
  · exact hs r' hr'

theorem int_lt (hn : n < 2 ^ 32) : int n < 2 ^ 31 := by
  unfold int
  split <;> omega

theorem fetchint_lt {w : ℕ} (h : w ∈ (fetchint u addr).val) : w < 2 ^ 32 := by
  unfold fetchint at h
  split at h
  · cases h
  · cases h
    exact ofLe32_lt _ _ _ _

theorem within_argbuf (hsz : u.sz ≤ KERNBASE) : Within u.sz (argbuf u) (Below u.sz) := by
  have hlen : Within u.sz (argint u 2) fun n => n < 2 ^ 32 := ⟨(within_argint hsz).reads, fun w hw => fetchint_lt hw⟩
  refine within_bind (within_argfd hsz) fun _ _ => within_bind hlen fun n hn => ?_
  refine within_bind (within_argptr hsz (int_lt hn)) fun p hp => within_pure ?_
  exact .cons hp .nil

theorem within_argpath (hsz : u.sz ≤ KERNBASE) : Within u.sz (argpath u) (Below u.sz) :=
  within_bind (within_argstr hsz) fun _ hs => within_pure (.cons hs .nil)

/-- the loop over the pointers -/
theorem within_argvLoop (hsz : u.sz ≤ KERNBASE) (uargv fuel i : ℕ) :
    Within u.sz (argvLoop u uargv fuel i) fun args => args.length < fuel ∧ Below u.sz (args.map strRange) := by
  induction fuel generalizing i with
  | zero => exact within_fail
  | succ fuel ih =>
    refine within_bind (within_fetchint hsz) fun uarg _ => ?_
    split
    · exact within_pure ⟨Nat.succ_pos fuel, .nil⟩
    · refine within_bind within_fetchstr fun arg harg => within_bind (ih (i + 1)) fun args hargs => within_pure ?_
      refine ⟨Nat.succ_lt_succ hargs.1, ?_⟩
      rw [List.map_cons]
      exact .cons harg hargs.2

theorem within_sysExec (hsz : u.sz ≤ KERNBASE) : Within u.sz (sysExec u) fun r =>
    r.2.length < MAXARG ∧ Below u.sz (strRange r.1 :: r.2.map strRange) := by
  refine within_bind (within_argstr hsz) fun path hpath => within_bind (within_argint hsz) fun uargv _ => ?_
  refine within_bind (within_argvLoop hsz uargv MAXARG 0) fun argv hargv => within_pure ?_
  exact ⟨hargv.1, .cons hpath hargv.2⟩

/-- **Every system call** reads below the size, and is given ranges below it. -/
theorem fetchArgs_within (hsz : u.sz ≤ KERNBASE) (c : Call) : Within u.sz (fetchArgs u c) (Below u.sz) := by
  have hint : ∀ n, Within u.sz (argint u n) fun _ => True := fun n => within_argint hsz
  cases c with
  | fork => exact within_pure .nil
  | exit => exact within_pure .nil
  | wait => exact within_pure .nil
  | getpid => exact within_pure .nil
  | uptime => exact within_pure .nil
  | kill => exact within_bind (hint 0) fun _ _ => within_pure .nil
  | sbrk => exact within_bind (hint 0) fun _ _ => within_pure .nil
  | sleep => exact within_bind (hint 0) fun _ _ => within_pure .nil
  | dup => exact within_bind (within_argfd hsz) fun _ _ => within_pure .nil
  | close => exact within_bind (within_argfd hsz) fun _ _ => within_pure .nil
  | clone => exact within_bind (hint 0) fun _ _ => within_bind (hint 1) fun _ _ => within_pure .nil
  | pipe => exact within_bind (within_argptr hsz (by decide)) fun _ h => within_pure (.cons h .nil)
  | read => exact within_argbuf hsz
  | write => exact within_argbuf hsz
  | fstat =>
    refine within_bind (within_argfd hsz) fun _ _ => within_bind (within_argptr hsz (by decide)) fun _ h => within_pure ?_
    exact .cons h .nil
  | unlink => exact within_argpath hsz
  | mkdir => exact within_argpath hsz
  | chdir => exact within_argpath hsz
  | openFile => exact within_bind (within_argpath hsz) fun _ h => within_bind (hint 1) fun _ _ => within_pure h
  | mknod =>
    refine within_bind (within_argpath hsz) fun _ h => within_bind (hint 1) fun _ _ => ?_
    exact within_bind (hint 2) fun _ _ => within_pure h
  | link =>
    refine within_bind (within_argstr hsz) fun _ h => within_bind (within_argstr hsz) fun _ h' => within_pure ?_
    exact .cons h (.cons h' .nil)
  | exec => exact within_bind (within_sysExec hsz) fun _ h => within_pure h.2

/-- **Argument checks.** For every process of at most `KERNBASE` bytes, every stack pointer and memory: `fetchint`, `argptr` and
`fetchstr` succeed just when what they are asked for lies below the size, in integers; and every byte that a system call reads to get
its arguments, or is given to use, lies below the size. -/
theorem argument_checks (u : User) (hsz : u.sz ≤ KERNBASE) :
    (∀ addr < 2 ^ 32, (fetchint u addr).val.isSome = true ↔ addr + 4 ≤ u.sz) ∧
    (∀ (n : ℕ) (size : ℤ), -2 ^ 31 ≤ size → size < 2 ^ 31 → ∀ p,
      (argptr u n size).val = some p ↔ (argint u n).val = some p ∧ 0 ≤ size ∧ p < u.sz ∧ p + size ≤ u.sz) ∧
    (∀ addr < 2 ^ 32, ((fetchstr u addr).val.isSome = true ↔ ∃ p, addr ≤ p ∧ p < u.sz ∧ u.mem p = 0) ∧
      ∀ p k, (fetchstr u addr).val = some (p, k) →
        p = addr ∧ addr + k < u.sz ∧ u.mem (addr + k) = 0 ∧ ∀ j < k, u.mem (addr + j) ≠ 0) ∧
    ∀ c : Call, (∀ x ∈ (fetchArgs u c).reads, x < u.sz) ∧
      ∀ rs, (fetchArgs u c).val = some rs → ∀ r ∈ rs, ∀ i < r.2, r.1 + i < u.sz := by
  refine ⟨fun addr _ => fetchint_isSome hsz, fun n size _ hsize p => argptr_eq_some hsz hsize, fun addr _ => ?_, fun c => ?_⟩
  · exact ⟨fetchstr_isSome, fun p k h => fetchstr_eq_some.1 h⟩
  · have hw := fetchArgs_within hsz c
    refine ⟨hw.reads, fun rs hrs r hr i hi => ?_⟩
    have := hw.val rs hrs r hr
    omega

/-- a process with one page whose stack pointer is just below the top of the address space -/
def hostile : User := ⟨4096, 0xFFFFFFFC, fun _ => 0, fun _ => false⟩

theorem argument_checks_hostile :
    ((fetchint hostile 4093).val.isSome = true ↔ 4093 + 4 ≤ 4096) ∧ ∀ x ∈ (fetchArgs hostile .exec).reads, x < 4096 := by
  have h := argument_checks hostile (by decide)
  exact ⟨h.1 4093 (by decide), (h.2.2.2 .exec).1⟩

end Xv6.Kernel.SysArgs
