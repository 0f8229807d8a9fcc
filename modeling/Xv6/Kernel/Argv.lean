/-
The arguments on the stack of a new image (`exec.c`): the strings from the end of the stack page downward, each at a multiple of four,
and below them the words of `ustack`: a fake return address, `argc`, the address of the array of pointers, and that array with a 0 at
its end.

`exec` has no check of its own that this fits. Whatever does not fit runs into the page below the stack, which is not for the user, and
`copyout` refuses. A string so long that the stack pointer wraps would go elsewhere in memory; where the strings are together shorter
than the image, it ends up in the last page of the address space, which is the kernel's.
-/
import Xv6.Kernel.Copyout
import Xv6.Kernel.Image

namespace Xv6.Kernel

open Xv6.Core

/-! ## `exec.c` -/

/-- `a - n` in 32 bits -/
def sub32 (a n : ℕ) : ℕ := (a + 2 ^ 32 - n % 2 ^ 32) % 2 ^ 32

/-- the loop over `argv`: `ptrs` are the entries of `ustack` from the fourth on, so there are `argc` of them. `none` is `goto bad`. -/
def pushArgs (D : Dir) : List (List UInt8) → List ℕ → ℕ → Mem → Except Panic (Option (ℕ × List ℕ) × Mem)
  | [], ptrs, sp, mem => .ok (some (sp, ptrs), mem)
  | arg :: args, ptrs, sp, mem =>
    if MAXARG ≤ ptrs.length then .ok (none, mem)
    else
      let sp := sub32 sp (arg.length + 1) / 4 * 4
      match copyout D sp (arg ++ [0]) mem with
      | .error e => .error e
      | .ok (false, mem) => .ok (none, mem)
      | .ok (true, mem) => pushArgs D args (ptrs ++ [sp]) sp mem

/-- the arguments of a program on the stack below `sz`; the result is the stack pointer -/
def pushStack (D : Dir) (sz : ℕ) (argv : List (List UInt8)) (mem : Mem) : Except Panic (Option ℕ × Mem) :=
  match pushArgs D argv [] sz mem with
  | .error e => .error e
  | .ok (none, mem) => .ok (none, mem)
  | .ok (some (sp, ptrs), mem) =>
    let argc := ptrs.length
    let ustack := [0xffffffff, argc, sub32 sp ((argc + 1) * 4)] ++ ptrs ++ [0]
    let sp := sub32 sp ((3 + argc + 1) * 4)
    match copyout D sp (ustack.flatMap le32) mem with
    | .error e => .error e
    | .ok (false, mem) => .ok (none, mem)
    | .ok (true, mem) => .ok (some sp, mem)

/-! ## Memory as the image sees it -/

variable {D : Dir} {mem mem' : Mem} {va vb sz sp : ℕ} {src bs : List UInt8}

def byteAt (D : Dir) (mem : Mem) (va : ℕ) : Option UInt8 := (entry D va).map fun e => mem e.page (va % PGSIZE)

def wordAt (D : Dir) (mem : Mem) (va : ℕ) : Option ℕ :=
  match byteAt D mem va, byteAt D mem (va + 1), byteAt D mem (va + 2), byteAt D mem (va + 3) with
  | some b₀, some b₁, some b₂, some b₃ => some (ofLe32 b₀ b₁ b₂ b₃)
  | _, _, _, _ => none

/-- the bytes from `va` on -/
def Holds (D : Dir) (mem : Mem) (va : ℕ) (bs : List UInt8) : Prop :=
  ∀ i b, bs[i]? = some b → byteAt D mem (va + i) = some b

variable {xs ys : List UInt8}

theorem Holds.left (h : Holds D mem va (xs ++ ys)) : Holds D mem va xs := by
  intro i b hb
  apply h i b
  rw [List.getElem?_append_left (List.getElem?_eq_some_iff.1 hb).1]
  exact hb

theorem Holds.right (h : Holds D mem va (xs ++ ys)) : Holds D mem (va + xs.length) ys := by
  intro i b hb
  rw [Nat.add_assoc]
  apply h
  rw [List.getElem?_append_right (Nat.le_add_right _ _), Nat.add_sub_cancel_left]
  exact hb

/-- a list of words in memory -/
theorem Holds.word {ws : List ℕ} (h : Holds D mem va (ws.flatMap le32)) {i w : ℕ} (hw : ws[i]? = some w) (hlt : w < 2 ^ 32) :
    wordAt D mem (va + 4 * i) = some w := by
  induction ws generalizing va i with
  | nil => cases hw
  | cons v ws ih =>
    rw [List.flatMap_cons] at h
    cases i with
    | zero =>
      cases hw
      have hbytes := h.left
      have h0 := hbytes 0 _ rfl
      have h1 := hbytes 1 _ rfl
      have h2 := hbytes 2 _ rfl
      have h3 := hbytes 3 _ rfl
      rw [Nat.add_zero] at h0
      rw [Nat.mul_zero, Nat.add_zero, wordAt, h0, h1, h2, h3]
      exact congrArg some (ofLe32_le32 hlt)
    | succ i =>
      have hrest := ih h.right hw
      have hlen : (le32 v).length = 4 := rfl
      rwa [hlen, Nat.add_assoc, Nat.add_comm 4, ← Nat.mul_succ] at hrest

theorem Copied.holds (h : Copied D va src mem mem') : Holds D mem' va src := by
  intro i b hb
  obtain ⟨hi, rfl⟩ := List.getElem?_eq_some_iff.1 hb
  obtain ⟨e, he, -⟩ := h.user i hi
  have hbyte := h.bytes i hi e he
  rw [byteAt, he, Option.map_some, hbyte]
  rfl

/-- a copy leaves the bytes of other addresses -/
theorem Copied.keeps (hD : Proper D) (h : Copied D va src mem mem') (hout : va + src.length ≤ vb ∨ vb + bs.length ≤ va)
    (hlow : vb + bs.length ≤ KERNBASE) (hb : Holds D mem vb bs) : Holds D mem' vb bs := by
  intro j b hj
  have hold := hb j b hj
  have hlt := (List.getElem?_eq_some_iff.1 hj).1
  unfold byteAt at hold ⊢
  cases he : entry D (vb + j) with
  | none =>
    rw [he] at hold
    cases hold
  | some e =>
    rw [he, Option.map_some] at hold
    rw [Option.map_some, ← hold]
    refine congrArg some (h.frame _ _ fun i hi e' he' hpage hoff => ?_)
    have hsame := hD.distinct _ _ e' e (hD.low _ (h.user i hi)) (by omega) he' he hpage
    simp only [PGSIZE] at hsame hoff
    omega

/-! ## The stack page -/

/-- a copy that stays in the stack page succeeds -/
theorem NewImage.copies (hI : NewImage D sz) (hD : Proper D) (va : ℕ) (src : List UInt8) (hlo : sz - PGSIZE ≤ va)
    (hhi : va + src.length ≤ sz) (mem : Mem) : ∃ mem', copyout D va src mem = .ok (true, mem') ∧ Copied D va src mem mem' := by
  have hlarge := hI.large
  have hsmall := hI.small
  have haligned := hI.aligned
  have huser : ∀ i < src.length, User D (va + i) := by
    intro i hi
    apply hI.stack.congr
    simp only [PGSIZE] at hlo haligned hlarge ⊢
    omega
  have hva : va < 2 ^ 32 := by
    simp only [KERNBASE] at hsmall
    omega
  have hend := copyout_outcome hD hva src mem
  generalize copyout D va src mem = r at hend
  cases hend with
  | copied h => exact ⟨_, rfl, h⟩
  | refused hi before here table => exact absurd (huser _ hi) here
  | fault hi before here =>
    have htable := (huser _ hi).table
    rw [here] at htable
    cases htable

/-- a copy that meets a page not for the user, with page tables up to there, is refused -/
theorem copyout_refused (hD : Proper D) (hva : va < 2 ^ 32) (hwalk : Walkable D va src.length) {i : ℕ} (hi : i < src.length)
    (hnot : ¬ User D (va + i)) (mem : Mem) : ∃ mem', copyout D va src mem = .ok (false, mem') := by
  have hend := copyout_outcome hD hva src mem
  have hsome := hend.walkable.2 hwalk
  generalize copyout D va src mem = r at hend hsome
  cases hend with
  | copied h => exact absurd (h.user i hi) hnot
  | refused hi before here table => exact ⟨_, rfl⟩
  | fault hi before here =>
    obtain ⟨b, mem', he, -⟩ := hsome
    cases he

/-- every address of the image has a page table -/
theorem NewImage.walkable (hI : NewImage D sz) {len : ℕ} (h : va + len ≤ sz) : Walkable D va len := by
  intro i hi _
  exact table_of_entry_isSome (hI.mapped.isSome_of_lt hI.small.le (by omega))

/-- a range that starts below the stack page and ends in it, or just below, is refused at the guard page -/
theorem NewImage.guarded (hI : NewImage D sz) (hD : Proper D) (va : ℕ) (src : List UInt8) (hlo : va < sz - PGSIZE)
    (hhi : va + src.length ≤ sz) (hend : sz - 2 * PGSIZE < va + src.length) (hne : 0 < src.length) (mem : Mem) :
    ∃ mem', copyout D va src mem = .ok (false, mem') := by
  have hlarge := hI.large
  have hsmall := hI.small
  have haligned := hI.aligned
  have hguard : ∀ vb, sz - 2 * PGSIZE ≤ vb → vb < sz - PGSIZE → ¬ User D vb := by
    intro vb h1 h2 hu
    apply hI.guard
    apply hu.congr
    simp only [PGSIZE] at h1 h2 haligned hlarge ⊢
    omega
  have hva : va < 2 ^ 32 := by
    simp only [KERNBASE] at hsmall
    omega
  by_cases hin : sz - 2 * PGSIZE ≤ va
  · exact copyout_refused hD hva (hI.walkable hhi) hne (hguard va hin hlo) mem
  · refine copyout_refused hD hva (hI.walkable hhi) (i := sz - 2 * PGSIZE - va) (by omega) (hguard _ ?_ ?_) mem
    · omega
    · simp only [PGSIZE] at hlarge hin ⊢
      omega

/-- the last pages of the address space are the kernel's -/
theorem NewImage.wrapped (hI : NewImage D sz) (hD : Proper D) (src : List UInt8) (hlo : DEVSPACE ≤ va) (hhi : va < 2 ^ 32)
    (hne : 0 < src.length) (mem : Mem) : ∃ mem', copyout D va src mem = .ok (false, mem') := by
  have hnot : ¬ User D va := by
    intro hu
    have hlow := hD.low va hu
    simp only [KERNBASE, DEVSPACE] at hlow hlo
    omega
  refine copyout_refused hD hhi (fun i hi before => ?_) hne hnot mem
  cases i with
  | zero => exact table_of_entry_isSome (hI.half.devices va hlo hhi)
  | succ i => exact absurd (before 0 (Nat.succ_pos i)) hnot

/-! ## The strings -/

/-- the space a string takes, its NUL included -/
def slot (arg : List UInt8) : ℕ := (arg.length + 1 + 3) / 4 * 4

/-- the space that strings take -/
def slots (args : List (List UInt8)) : ℕ := (args.map slot).sum

/-- where the strings go, from `sp` downward -/
def places : ℕ → List (List UInt8) → List ℕ
  | _, [] => []
  | sp, arg :: args => (sp - slot arg) :: places (sp - slot arg) args

theorem slots_cons (arg : List UInt8) (args : List (List UInt8)) : slots (arg :: args) = slot arg + slots args := by
  simp [slots]

theorem length_places (sp : ℕ) (args : List (List UInt8)) : (places sp args).length = args.length := by
  induction args generalizing sp with
  | nil => rfl
  | cons arg args ih => rw [places, List.length_cons, List.length_cons, ih]

/-- the pointer after a string that does not wrap it -/
theorem sub32_slot {arg : List UInt8} (hsp : sp % 4 = 0) (hlt : sp < 2 ^ 32) (hle : arg.length + 1 ≤ sp) :
    sub32 sp (arg.length + 1) / 4 * 4 = sp - slot arg := by
  simp only [sub32, slot]
  omega

/-- where strings are in memory -/
def Strings (D : Dir) (mem : Mem) (ptrs : List ℕ) (args : List (List UInt8)) : Prop :=
  List.Forall₂ (fun p arg => Holds D mem p (arg ++ [0])) ptrs args

/-- **There is space.** The strings are pushed, and what was above stays. -/
theorem pushArgs_fits (hI : NewImage D sz) (hD : Proper D) (args : List (List UInt8)) (ptrs : List ℕ) (sp : ℕ)
    (hsp : sp % 4 = 0) (hfit : sz - PGSIZE + slots args ≤ sp) (hle : sp ≤ sz) (hargc : ptrs.length + args.length ≤ MAXARG) (mem : Mem) :
    ∃ mem', pushArgs D args ptrs sp mem = .ok (some (sp - slots args, ptrs ++ places sp args), mem') ∧
      Strings D mem' (places sp args) args ∧ ∀ vb bs, sp ≤ vb → vb + bs.length ≤ sz → Holds D mem vb bs → Holds D mem' vb bs := by
  have hsmall := hI.small
  induction args generalizing ptrs sp mem with
  | nil =>
    refine ⟨mem, ?_, .nil, fun _ _ _ _ h => h⟩
    rw [pushArgs, slots, places, List.map_nil, List.sum_nil, Nat.sub_zero, List.append_nil]
  | cons arg args ih =>
    rw [slots_cons] at hfit ⊢
    rw [List.length_cons] at hargc
    have hslot : arg.length + 1 ≤ slot arg := by
      simp only [slot]
      omega
    have hnext : sub32 sp (arg.length + 1) / 4 * 4 = sp - slot arg :=
      sub32_slot hsp (by simp only [KERNBASE] at hsmall; omega) (by omega)
    have hlen : (arg ++ [0]).length = arg.length + 1 := by simp
    obtain ⟨mem1, hcopy, hcopied⟩ := hI.copies hD (sp - slot arg) (arg ++ [0]) (by omega) (by omega) mem
    obtain ⟨mem2, hrest, hstrings, hkeep⟩ := ih (ptrs ++ [sp - slot arg]) (sp - slot arg)
      (by simp only [slot]; omega) (by omega) (by omega) (by rw [List.length_append, List.length_singleton]; omega) mem1
    refine ⟨mem2, ?_, .cons ?_ hstrings, fun vb bs hvb hbs h => ?_⟩
    · rw [pushArgs, if_neg (by omega), hnext]
      simp only [hcopy, hrest, places, Nat.sub_sub, List.append_assoc, List.singleton_append]
    · exact hkeep _ _ le_rfl (by omega) hcopied.holds
    · exact hkeep vb bs (by omega) hbs (hcopied.keeps hD (.inl (by omega)) (by omega) h)

/-- **There is none.** Some string is refused; `hbound` says that the pointer has not come far enough to wrap into the middle. -/
theorem pushArgs_overflow (hI : NewImage D sz) (hD : Proper D) (args : List (List UInt8)) (ptrs : List ℕ) (sp : ℕ)
    (hsp : sp % 4 = 0) (hbase : sz - PGSIZE ≤ sp) (hle : sp ≤ sz) (hover : sp < sz - PGSIZE + slots args)
    (hargc : ptrs.length + args.length ≤ MAXARG) (hbound : (args.map List.length).sum < sp + 4 * ptrs.length) (mem : Mem) :
    ∃ mem', pushArgs D args ptrs sp mem = .ok (none, mem') := by
  have hsmall := hI.small
  have hlarge := hI.large
  induction args generalizing ptrs sp mem with
  | nil =>
    rw [slots, List.map_nil, List.sum_nil] at hover
    omega
  | cons arg args ih =>
    rw [slots_cons] at hover
    rw [List.length_cons] at hargc
    rw [List.map_cons, List.sum_cons] at hbound
    have hlen : (arg ++ [0]).length = arg.length + 1 := by simp
    have hslot : arg.length + 1 ≤ slot arg ∧ slot arg ≤ arg.length + 4 := by
      simp only [slot]
      omega
    rw [pushArgs, if_neg (by omega)]
    by_cases hwrap : arg.length + 1 ≤ sp
    · rw [sub32_slot hsp (by simp only [KERNBASE] at hsmall; omega) hwrap]
      by_cases hroom : sz - PGSIZE + slot arg ≤ sp
      · obtain ⟨mem1, hcopy, -⟩ := hI.copies hD (sp - slot arg) (arg ++ [0]) (by omega) (by omega) mem
        simp only [hcopy]
        exact ih _ _ (by simp only [slot]; omega) (by omega) (by omega) (by omega)
          (by rw [List.length_append, List.length_singleton]; omega)
          (by rw [List.length_append, List.length_singleton]; omega) mem1
      · have hend : slot arg ≤ sp := by
          simp only [slot]
          omega
        obtain ⟨mem1, hcopy⟩ := hI.guarded hD (sp - slot arg) (arg ++ [0]) (by omega) (by omega)
          (by simp only [PGSIZE] at hlarge hbase ⊢; omega) (by omega) mem
        exact ⟨mem1, by simp only [hcopy]⟩
    · have hwrapped : DEVSPACE ≤ sub32 sp (arg.length + 1) / 4 * 4 ∧ sub32 sp (arg.length + 1) / 4 * 4 < 2 ^ 32 := by
        simp only [sub32, DEVSPACE, MAXARG, KERNBASE] at hargc hsmall ⊢
        omega
      obtain ⟨mem1, hcopy⟩ := hI.wrapped hD (arg ++ [0]) hwrapped.1 hwrapped.2 (by omega) mem
      exact ⟨mem1, by simp only [hcopy]⟩

/-! ## The whole stack -/

/-- the pieces of the stack, as address and length: three words, the array of pointers, and the strings -/
def pieces (sp av : ℕ) (ptrs : List ℕ) (argv : List (List UInt8)) : List (ℕ × ℕ) :=
  (sp, 12) :: (av, 4 * (argv.length + 1)) :: List.zipWith (fun p arg => (p, arg.length + 1)) ptrs argv

/-- the stack as a program expects it -/
structure StackLayout (D : Dir) (sz sp av : ℕ) (ptrs : List ℕ) (argv : List (List UInt8)) (mem : Mem) : Prop where
  argc : wordAt D mem (sp + 4) = some argv.length
  array : wordAt D mem (sp + 8) = some av
  entries : ∀ i p, ptrs[i]? = some p → wordAt D mem (av + 4 * i) = some p
  last : wordAt D mem (av + 4 * argv.length) = some 0
  strings : Strings D mem ptrs argv
  /-- all of it lies in the last page of the image, which is for the user, above the one that is not -/
  inside : ∀ r ∈ pieces sp av ptrs argv, sz - PGSIZE ≤ r.1 ∧ r.1 + r.2 ≤ sz
  apart : (pieces sp av ptrs argv).Pairwise fun r r' => r.1 + r.2 ≤ r'.1 ∨ r'.1 + r'.2 ≤ r.1

variable {args : List (List UInt8)}

theorem places_inside (sp : ℕ) (hle : slots args ≤ sp) :
    ∀ r ∈ List.zipWith (fun p (arg : List UInt8) => (p, arg.length + 1)) (places sp args) args, sp - slots args ≤ r.1 ∧ r.1 + r.2 ≤ sp := by
  induction args generalizing sp with
  | nil => nofun
  | cons arg args ih =>
    rw [slots_cons] at hle ⊢
    intro r hr
    rw [places, List.zipWith_cons_cons, List.mem_cons] at hr
    rcases hr with rfl | hr
    · simp only [slot] at hle ⊢
      omega
    · have := ih (sp - slot arg) (by omega) r hr
      omega

theorem places_apart (hle : slots args ≤ sp) :
    (List.zipWith (fun p (arg : List UInt8) => (p, arg.length + 1)) (places sp args) args).Pairwise
      fun r r' => r.1 + r.2 ≤ r'.1 ∨ r'.1 + r'.2 ≤ r.1 := by
  induction args generalizing sp with
  | nil => exact .nil
  | cons arg args ih =>
    rw [slots_cons] at hle
    rw [places, List.zipWith_cons_cons]
    refine .cons (fun r hr => .inr ?_) (ih (by omega))
    exact (places_inside _ (by omega) r hr).2

/-- a copy below the strings leaves them -/
theorem Strings.keeps (hD : Proper D) {ptrs : List ℕ} (h : Strings D mem ptrs args)
    (hc : Copied D va src mem mem') (hin : ∀ r ∈ List.zipWith (fun p (arg : List UInt8) => (p, arg.length + 1)) ptrs args,
      va + src.length ≤ r.1 ∧ r.1 + r.2 ≤ KERNBASE) : Strings D mem' ptrs args := by
  induction h with
  | nil => exact .nil
  | @cons p arg ptrs args hp hrest ih =>
    rw [List.zipWith_cons_cons] at hin
    obtain ⟨hlo, hhi⟩ := hin _ List.mem_cons_self
    refine .cons (hc.keeps hD (.inl hlo) ?_ hp) (ih fun r hr => hin r (List.mem_cons_of_mem _ hr))
    rw [List.length_append, List.length_singleton]
    exact hhi

theorem length_le32s (ws : List ℕ) : (ws.flatMap le32).length = 4 * ws.length := by
  induction ws with
  | nil => rfl
  | cons w ws ih =>
    rw [List.flatMap_cons, List.length_append, ih, List.length_cons]
    change 4 + _ = _
    omega

/-- `ustack`, for strings at `ptrs` and the array of pointers at `av` -/
def ustack (av : ℕ) (ptrs : List ℕ) : List ℕ := [0xffffffff, ptrs.length, av] ++ ptrs ++ [0]

theorem length_ustack (av : ℕ) (ptrs : List ℕ) : (ustack av ptrs).length = 4 + ptrs.length := by
  simp only [ustack, List.length_append, List.length_cons, List.length_nil]
  omega

variable {argv : List (List UInt8)}

/-- the words below the strings, once they are in memory -/
theorem StackLayout.of_holds {ptrs : List ℕ} (hptrs : ptrs.length = argv.length)
    (hargc : argv.length < 2 ^ 32) (hlt : ∀ p ∈ ptrs, p < 2 ^ 32) (hav : sp + 12 < 2 ^ 32)
    (hwords : Holds D mem sp ((ustack (sp + 12) ptrs).flatMap le32)) (hstrings : Strings D mem ptrs argv)
    (hinside : ∀ r ∈ pieces sp (sp + 12) ptrs argv, sz - PGSIZE ≤ r.1 ∧ r.1 + r.2 ≤ sz)
    (hapart : (pieces sp (sp + 12) ptrs argv).Pairwise fun r r' => r.1 + r.2 ≤ r'.1 ∨ r'.1 + r'.2 ≤ r.1) :
    StackLayout D sz sp (sp + 12) ptrs argv mem := by
  have hshift : ∀ i, sp + 12 + 4 * i = sp + 4 * (3 + i) := by
    intro i
    omega
  refine ⟨?_, ?_, fun i p hp => ?_, ?_, hstrings, hinside, hapart⟩
  · exact hwords.word (i := 1) (congrArg some hptrs) hargc
  · exact hwords.word (i := 2) rfl hav
  · rw [hshift]
    have hi := (List.getElem?_eq_some_iff.1 hp).1
    refine hwords.word ?_ (hlt p (List.mem_of_getElem? hp))
    rw [ustack, List.append_assoc, List.getElem?_append_right (by simp), List.getElem?_append_left (by simpa using hi)]
    simpa using hp
  · rw [hshift, ← hptrs]
    refine hwords.word ?_ (by decide)
    have hlen : ([0xffffffff, ptrs.length, sp + 12] ++ ptrs).length = 3 + ptrs.length := by
      simp only [List.length_append, List.length_cons, List.length_nil]
    rw [ustack, List.getElem?_append_right hlen.le, hlen, Nat.sub_self]
    rfl

/-- the stack of any new image -/
theorem NewImage.pushStack (hI : NewImage D sz) (hD : Proper D) (hargc : argv.length < MAXARG)
    (hlen : (argv.map List.length).sum < sz) (mem : Mem) :
    ∃ r mem', pushStack D sz argv mem = .ok (r, mem') ∧ (r.isSome = true ↔ slots argv + 4 * (4 + argv.length) ≤ PGSIZE) ∧
      ∀ sp ∈ r, ∃ av ptrs, StackLayout D sz sp av ptrs argv mem' := by
  have hsmall := hI.small
  have hlarge := hI.large
  have haligned := hI.aligned
  have hsz : sz % 4 = 0 := by
    simp only [PGSIZE] at haligned
    omega
  unfold Kernel.pushStack
  by_cases hfit : slots argv ≤ PGSIZE
  · obtain ⟨mem1, hpush, hstrings, -⟩ := pushArgs_fits hI hD argv [] sz hsz (by omega) le_rfl
      (by rw [List.length_nil]; omega) mem
    have hlength := length_places sz argv
    -- nothing wraps here: there are at least two pages, and the words take a small part of one
    have hwords : 4 * (4 + argv.length) ≤ sz - slots argv := by
      simp only [PGSIZE, MAXARG] at hlarge hfit hargc
      omega
    have hav : sub32 (sz - slots argv) ((argv.length + 1) * 4) = sz - slots argv - 4 * (4 + argv.length) + 12 := by
      simp only [sub32, KERNBASE] at hsmall ⊢
      omega
    have hsp : sub32 (sz - slots argv) ((3 + argv.length + 1) * 4) = sz - slots argv - 4 * (4 + argv.length) := by
      simp only [sub32, KERNBASE] at hsmall ⊢
      omega
    simp only [hpush, List.nil_append, hlength, hav, hsp]
    generalize hbottom : sz - slots argv - 4 * (4 + argv.length) = sp at *
    have hsrc : ((ustack (sp + 12) (places sz argv)).flatMap le32).length = 4 * (4 + argv.length) := by
      rw [length_le32s, length_ustack, hlength]
    have hustack : [0xffffffff, argv.length, sp + 12] ++ places sz argv ++ [0] = ustack (sp + 12) (places sz argv) := by
      rw [ustack, hlength]
    rw [hustack]
    by_cases hall : slots argv + 4 * (4 + argv.length) ≤ PGSIZE
    · obtain ⟨mem2, hcopy, hcopied⟩ := hI.copies hD sp ((ustack (sp + 12) (places sz argv)).flatMap le32)
        (by omega) (by omega) mem1
      have hin := @places_inside argv sz (by omega)
      refine ⟨some sp, mem2, by simp only [hcopy], ?_, fun sp' hsp' => ?_⟩
      · simp only [Option.isSome_some, hall]
      cases hsp'
      have hpieces : ∀ r ∈ pieces sp (sp + 12) (places sz argv) argv, sz - PGSIZE ≤ r.1 ∧ r.1 + r.2 ≤ sz := by
        intro r hr
        rcases List.mem_cons.1 hr with rfl | hr
        · dsimp only
          omega
        rcases List.mem_cons.1 hr with rfl | hr
        · dsimp only
          omega
        · have := hin r hr
          omega
      refine ⟨sp + 12, places sz argv, .of_holds hlength ?_ ?_ ?_ hcopied.holds ?_ hpieces ?_⟩
      · simp only [MAXARG] at hargc
        omega
      · intro p hp
        obtain ⟨i, hi, rfl⟩ := List.mem_iff_getElem.1 hp
        have hr := hin ((places sz argv)[i], argv[i].length + 1) (by
          rw [List.mem_iff_getElem]
          exact ⟨i, by rw [List.length_zipWith]; omega, List.getElem_zipWith⟩)
        simp only [KERNBASE] at hsmall hr
        omega
      · simp only [KERNBASE] at hsmall
        omega
      · exact hstrings.keeps hD hcopied fun r hr => by have := hin r hr; omega
      · refine .cons (fun r hr => .inl ?_) (.cons (fun r hr => .inl ?_) (places_apart (by omega)))
        · rcases List.mem_cons.1 hr with rfl | hr
          · exact le_rfl
          · have := hin r hr
            dsimp only
            omega
        · have := hin r hr
          dsimp only
          omega
    · obtain ⟨mem2, hcopy⟩ := hI.guarded hD sp ((ustack (sp + 12) (places sz argv)).flatMap le32)
        (by omega) (by omega) (by simp only [PGSIZE] at hlarge hfit ⊢; omega) (by omega) mem1
      refine ⟨none, mem2, by simp only [hcopy], ?_, by simp⟩
      simp only [Option.isSome_none, Bool.false_eq_true, false_iff]
      exact hall
  · obtain ⟨mem1, hpush⟩ := pushArgs_overflow hI hD argv [] sz hsz (by omega) le_rfl (by omega)
      (by rw [List.length_nil]; omega) (by rw [List.length_nil]; omega) mem
    refine ⟨none, mem1, by simp only [hpush], ?_, by simp⟩
    simp only [Option.isSome_none, Bool.false_eq_true, false_iff]
    omega

/-- **The argument stack.** The directory is one that `exec` has built, from any file and with any requests for pages refused; `argv`
has fewer than `MAXARG` strings, together shorter than the image. The stack is built just when the strings, each rounded up to a
multiple of four, and the `4 + argc` words fit in a page, and then it is laid out as a program expects it. -/
theorem argument_stack (l : Link) (segs : List Seg) (a a' : Frames) (hnodup : a.free.Nodup) (d : ℕ) (D : Dir) (sz : ℕ)
    (himage : image l segs true a = .ok (some (d, D, sz), a')) (argv : List (List UInt8)) (hargc : argv.length < MAXARG)
    (hlen : (argv.map List.length).sum < sz) (mem : Mem) :
    ∃ r mem', pushStack D sz argv mem = .ok (r, mem') ∧ (r.isSome = true ↔ slots argv + 4 * (4 + argv.length) ≤ PGSIZE) ∧
      ∀ sp ∈ r, ∃ av ptrs, StackLayout D sz sp av ptrs argv mem' :=
  (image_new himage).pushStack (image_proper hnodup himage) hargc hlen mem

/-- `ls -l` for a program without segments -/
theorem argument_stack_ls : ∃ d D f', image kernelLink [] true (pagesBelow 600000) = .ok (some (d, D, 2 * PGSIZE), f') ∧
    ∃ r mem', pushStack D (2 * PGSIZE) [[108, 115], [45, 108]] (fun _ _ => 0) = .ok (r, mem') ∧
      (r.isSome = true ↔ slots [[108, 115], [45, 108]] + 4 * (4 + 2) ≤ PGSIZE) ∧
      ∀ sp ∈ r, ∃ av ptrs, StackLayout D (2 * PGSIZE) sp av ptrs [[108, 115], [45, 108]] mem' := by
  have hlen : NPDENTRIES + KERNBASE / PGSIZE + 2 < (pagesBelow 600000).free.length := by
    unfold pagesBelow
    rw [List.length_range]
    decide
  obtain ⟨d, D, f', himage⟩ := image_enough kernelLink (f := pagesBelow 600000) (fun _ => rfl) hlen
  exact ⟨d, D, f', himage, argument_stack kernelLink [] _ f' (pagesBelow_nodup 600000) d D _ himage [[108, 115], [45, 108]]
    (by decide) (by decide) _⟩

end Xv6.Kernel
