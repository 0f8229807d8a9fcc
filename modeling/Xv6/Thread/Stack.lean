/-
The stacks of threads (`libthread.c`). `thread_create` takes the stack of the new thread from `malloc`; the thread gives
it back itself, in `thread_routine`, by calling `free` while it still runs on it, and calls `exit` after that. `malloc` and
`free` are atomic steps; the main thread and the created ones take theirs in any order, and any of them may use `malloc`
and `free` for blocks of its own.

A stack that has been given back is free memory until its thread is gone. If `malloc` is called meanwhile, it can return
that very block.
-/
import Xv6.Core.Run
import Xv6.User.Umalloc

namespace Xv6.Stack

open Xv6.Core Xv6.Umalloc
open Xv6.Kernel (KERNBASE PGSIZE)

/-! ## Model -/

/-- a program as `exec` lays it out: the static header `base` and the first break, which is above the page of address 0 -/
structure Image where
  base : ℕ
  brk : ℕ
  base_pos : 0 < base
  base_lt : base < brk
  page_le : PGSIZE ≤ brk
  brk_lt : brk < KERNBASE

/-- where a created thread is -/
inductive Pc
  /-- not created yet -/
  | unborn
  /-- in its routine -/
  | running
  /-- after `free(stack)` -/
  | freed
  /-- it has entered `exit` -/
  | exiting
  deriving DecidableEq

/-- the heap; the created threads by number, with the address `thread_create` got for each one's stack; the blocks that
callers other than `thread_create` hold -/
structure St where
  heap : Heap
  next : ℕ
  stack : ℕ → ℕ
  pc : ℕ → Pc
  held : Finset ℕ

inductive Act
  /-- the main thread calls `thread_create`; `room` is what the kernel would grant, `cloned` whether `clone` succeeds -/
  | create (room : ℕ) (cloned : Bool)
  /-- some other caller of `malloc` -/
  | malloc (room nbytes : ℕ)
  /-- a caller frees a block it holds -/
  | free (ap : ℕ)
  /-- a thread returns from its routine and calls `free(stack)` -/
  | finish (i : ℕ)
  /-- a thread enters `exit` -/
  | exit (i : ℕ)

def init (I : Image) : St :=
  { heap := { mem := fun _ => ⟨0, 0⟩, freep := 0, brk := I.brk }, next := 0, stack := fun _ => 0, pc := fun _ => .unborn,
    held := ∅ }

/-- the stack size of `thread_create` -/
def STACKSIZE : ℕ := 4096

def St.setHeap (s : St) (m : Heap) : St := { s with heap := m }

/-- a new thread with its stack -/
def St.started (s : St) (stack : ℕ) : St :=
  { s with
    next := s.next + 1
    stack := Function.update s.stack s.next stack
    pc := Function.update s.pc s.next .running }

/-- `thread_create` after its `malloc`; it looks at neither the pointer nor the result of `clone` -/
def St.created (s : St) (cloned : Bool) (r : Heap × ℕ) : St :=
  if cloned then (s.setHeap r.1).started r.2 else s.setHeap r.1

def St.hold (s : St) (ap : ℕ) : St := { s with held := insert ap s.held }

def St.malloced (s : St) (r : Heap × ℕ) : St := if r.2 = 0 then s.setHeap r.1 else (s.setHeap r.1).hold r.2

def St.drop (s : St) (ap : ℕ) : St := { s with held := s.held.erase ap }

def St.goto (s : St) (i : ℕ) (l : Pc) : St := { s with pc := Function.update s.pc i l }

/-- one step. A call that does not return leaves the state as it is. -/
def step (I : Image) (s : St) : Act → St
  | .create room cloned => (malloc I.base room s.heap STACKSIZE).elim s (s.created cloned)
  | .malloc room nbytes => (malloc I.base room s.heap nbytes).elim s s.malloced
  | .free ap =>
    if ap ∈ s.held then (free s.heap ap).elim s (s.drop ap).setHeap else s
  | .finish i =>
    if s.pc i = .running then
      -- `free(0)` reads a header at the top of the address space; the fault makes the kernel end the thread
      if s.stack i = 0 then s.goto i .exiting
      else (free s.heap (s.stack i)).elim s (s.goto i .freed).setHeap
    else s
  | .exit i => if s.pc i = .running ∨ s.pc i = .freed then s.goto i .exiting else s

/-- a created thread that has not entered `exit` -/
def St.Alive (s : St) (i : ℕ) : Prop := s.pc i = .running ∨ s.pc i = .freed

/-- a request whose size, rounded up and with its header, is a positive `int` -/
def Small (nbytes : ℕ) : Prop := nbytes + 16 ≤ 2 ^ 31

instance : DecidablePred Small := fun nbytes => inferInstanceAs (Decidable (nbytes + 16 ≤ 2 ^ 31))

/-- the requests of a step are small -/
def Act.Ok : Act → Prop
  | .malloc _ nbytes => Small nbytes
  | _ => True

/-! ## The blocks of the threads -/

/-- the thread has a stack from `malloc` and has not given it back -/
def St.Owns (s : St) (i : ℕ) : Prop := s.pc i = .running ∧ s.stack i ≠ 0

structure Inv (I : Image) (s : St) (U : Finset ℕ) : Prop where
  ready : Ready I.base I.brk s.heap U
  held : ∀ ap ∈ s.held, ∃ b ∈ U, ap = b + 8
  stack : ∀ i, s.Owns i → ∃ b ∈ U, s.stack i = b + 8 ∧ s.heap.size b = nunits STACKSIZE
  apart : ∀ i j, s.Owns i → s.Owns j → s.stack i = s.stack j → i = j
  apart_held : ∀ i, s.Owns i → s.stack i ∉ s.held
  unborn : ∀ i, s.next ≤ i → s.pc i = .unborn

variable {I : Image} {s : St} {U : Finset ℕ} {room nbytes ap i : ℕ} {m' : Heap}

theorem init_inv (I : Image) : Inv I (init I) ∅ where
  ready := .inl ⟨rfl, rfl, I.base_pos, I.base_lt, le_rfl, I.brk_lt⟩
  held := by simp [init]
  stack i hi := by simp [init, St.Owns] at hi
  apart i j hi := by simp [init, St.Owns] at hi
  apart_held i hi := by simp [init, St.Owns] at hi
  unborn i _ := rfl

theorem nunits_small (h : Small nbytes) : 8 * nunits nbytes < 2 ^ 31 ∧ nbytes + 8 ≤ 8 * nunits nbytes := by
  have hword : word (nbytes + 8 - 1) = nbytes + 7 := word_of_lt (by unfold Small at h; omega)
  unfold Small at h
  unfold nunits
  rw [hword]
  omega

/-- nobody's block -/
def St.Fresh (s : St) (ap : ℕ) : Prop := (∀ i, s.Owns i → s.stack i ≠ ap) ∧ ap ∉ s.held

/-- the heap changes, and every block that somebody has stays in use -/
theorem Inv.setHeap (h : Inv I s U) {U' : Finset ℕ} (hready : Ready I.base I.brk m' U')
    (hsub : ∀ b ∈ U, ¬ s.Fresh (b + 8) → b ∈ U' ∧ m'.size b = s.heap.size b) : Inv I (s.setHeap m') U' where
  ready := hready
  held ap hap := by
    obtain ⟨b, hb, rfl⟩ := h.held ap hap
    exact ⟨b, (hsub b hb fun hfresh => hfresh.2 hap).1, rfl⟩
  stack i hi := by
    obtain ⟨b, hb, heq, hlen⟩ := h.stack i hi
    obtain ⟨hb', hsize⟩ := hsub b hb fun hfresh => hfresh.1 i hi heq
    exact ⟨b, hb', heq, hsize.trans hlen⟩
  apart := h.apart
  apart_held := h.apart_held
  unborn := h.unborn

variable {b : ℕ}

theorem Inv.fresh (h : Inv I s U) (hb : b ∉ U) : s.Fresh (b + 8) := by
  refine ⟨fun i hi heq => ?_, fun hmem => ?_⟩
  · obtain ⟨u, hu, hstack, -⟩ := h.stack i hi
    rw [hstack] at heq
    exact hb (Nat.add_right_cancel heq ▸ hu)
  · obtain ⟨u, hu, heq⟩ := h.held _ hmem
    exact hb (Nat.add_right_cancel heq ▸ hu)

/-- what `malloc` does: the block it returns is in use from now on, and was nobody's -/
theorem Inv.malloc (h : Inv I s U) (hsmall : Small nbytes) (room : ℕ) : ∃ m' ap U',
    malloc I.base room s.heap nbytes = some (m', ap) ∧ Inv I (s.setHeap m') U' ∧
      (ap ≠ 0 → s.Fresh ap ∧ ∃ b ∈ U', ap = b + 8 ∧ m'.size b = nunits nbytes) := by
  obtain ⟨m', ap, hmalloc, hmalloced, hsize⟩ := malloc_spec room h.ready (nunits_small hsmall).1
  cases hmalloced with
  | null F alloc =>
    exact ⟨m', 0, U, hmalloc, h.setHeap (.inr ⟨F, alloc⟩) fun b hb _ => ⟨hb, hsize b hb⟩, fun hne => absurd rfl hne⟩
  | block F b fresh alloc size =>
    refine ⟨m', b + 8, insert b U, hmalloc, h.setHeap (.inr ⟨F, alloc⟩) fun u hu _ => ?_, fun _ => ?_⟩
    · exact ⟨Finset.mem_insert_of_mem hu, hsize u hu⟩
    · exact ⟨h.fresh fresh, b, Finset.mem_insert_self .., rfl, size⟩

/-- what `free` does to a block that has become nobody's -/
theorem Inv.free (h : Inv I s U) (hb : b ∈ U) (hfresh : s.Fresh (b + 8)) :
    ∃ m' U', free s.heap (b + 8) = some m' ∧ Inv I (s.setHeap m') U' := by
  rcases h.ready with ⟨-, rfl, -⟩ | ⟨F, halloc⟩
  · exact absurd hb (Finset.notMem_empty b)
  · obtain ⟨m', F', hfree, hfreed⟩ := free_spec halloc hb
    refine ⟨m', U.erase b, hfree, h.setHeap (.inr ⟨F', hfreed.alloc⟩) fun u hu hown => ?_⟩
    have hu' : u ∈ U.erase b := Finset.mem_erase.2 ⟨fun heq => hown (heq ▸ hfresh), hu⟩
    exact ⟨hu', hfreed.keep u hu'⟩

@[simp] theorem St.goto_pc (s : St) (i : ℕ) (l : Pc) : (s.goto i l).pc = Function.update s.pc i l := rfl

/-- a thread leaves its routine -/
theorem St.Owns.of_goto {l : Pc} (hl : l ≠ .running) {j : ℕ} (hj : (s.goto i l).Owns j) : j ≠ i ∧ s.Owns j := by
  obtain ⟨hpc, hstack⟩ := hj
  rw [St.goto_pc] at hpc
  by_cases hji : j = i
  · rw [hji, update_self] at hpc
    exact absurd hpc hl
  · rw [update_of_ne hji] at hpc
    exact ⟨hji, hpc, hstack⟩

theorem Inv.goto (h : Inv I s U) {l : Pc} (hl : l ≠ .running) (hi : s.pc i ≠ .unborn) : Inv I (s.goto i l) U where
  ready := h.ready
  held := h.held
  stack j hj := h.stack j (hj.of_goto hl).2
  apart j k hj hk := h.apart j k (hj.of_goto hl).2 (hk.of_goto hl).2
  apart_held j hj := h.apart_held j (hj.of_goto hl).2
  unborn j hj := by
    have hji : j ≠ i := fun heq => hi (heq ▸ h.unborn j hj)
    rw [St.goto_pc, update_of_ne hji]
    exact h.unborn j hj

/-- a new thread gets nobody's block, or no block at all -/
theorem Inv.started (h : Inv I s U)
    (hap : ap ≠ 0 → s.Fresh ap ∧ ∃ b ∈ U, ap = b + 8 ∧ s.heap.size b = nunits STACKSIZE) : Inv I (s.started ap) U := by
  have hnew : (s.started ap).stack s.next = ap := update_self ..
  have hold : ∀ {j}, j ≠ s.next → (s.started ap).Owns j → s.Owns j ∧ (s.started ap).stack j = s.stack j := by
    intro j hj ⟨hpc, hne⟩
    have hstack : (s.started ap).stack j = s.stack j := update_of_ne hj ..
    have hpc' : (s.started ap).pc j = s.pc j := update_of_ne hj ..
    exact ⟨⟨hpc'.symm.trans hpc, hstack ▸ hne⟩, hstack⟩
  have hfresh : (s.started ap).Owns s.next → s.Fresh ap ∧ ∃ b ∈ U, ap = b + 8 ∧ s.heap.size b = nunits STACKSIZE :=
    fun hown => hap (hnew ▸ hown.2)
  refine ⟨h.ready, h.held, fun j hj => ?_, fun j k hj hk heq => ?_, fun j hj => ?_, fun j hj => ?_⟩
  · by_cases hjn : j = s.next
    · subst hjn
      rw [hnew]
      exact (hfresh hj).2
    · rw [(hold hjn hj).2]
      exact h.stack j (hold hjn hj).1
  · by_cases hjn : j = s.next
    · by_cases hkn : k = s.next
      · rw [hjn, hkn]
      · rw [(hold hkn hk).2, hjn, hnew] at heq
        subst hjn
        exact absurd heq.symm ((hfresh hj).1.1 k (hold hkn hk).1)
    · by_cases hkn : k = s.next
      · rw [(hold hjn hj).2, hkn, hnew] at heq
        subst hkn
        exact absurd heq ((hfresh hk).1.1 j (hold hjn hj).1)
      · rw [(hold hjn hj).2, (hold hkn hk).2] at heq
        exact h.apart j k (hold hjn hj).1 (hold hkn hk).1 heq
  · by_cases hjn : j = s.next
    · subst hjn
      rw [hnew]
      exact (hfresh hj).1.2
    · rw [(hold hjn hj).2]
      exact h.apart_held j (hold hjn hj).1
  · have hlt : s.next < j := hj
    exact (update_of_ne hlt.ne' ..).trans (h.unborn j hlt.le)

theorem Inv.hold (h : Inv I s U) (hfresh : s.Fresh ap) (hb : b ∈ U) (heq : ap = b + 8) : Inv I (s.hold ap) U where
  ready := h.ready
  held ap' hap' := by
    rcases Finset.mem_insert.1 hap' with rfl | hmem
    · exact ⟨b, hb, heq⟩
    · exact h.held ap' hmem
  stack := h.stack
  apart := h.apart
  apart_held i hi hmem := by
    rcases Finset.mem_insert.1 hmem with hap' | hmem
    · exact hfresh.1 i hi hap'
    · exact h.apart_held i hi hmem
  unborn := h.unborn

theorem Inv.drop (h : Inv I s U) (ap : ℕ) : Inv I (s.drop ap) U where
  ready := h.ready
  held ap' hap' := h.held ap' (Finset.mem_of_mem_erase hap')
  stack := h.stack
  apart := h.apart
  apart_held i hi hmem := h.apart_held i hi (Finset.mem_of_mem_erase hmem)
  unborn := h.unborn

/-! ## The steps -/

theorem step_inv {o : Act} (ho : o.Ok) (h : ∃ U, Inv I s U) : ∃ U, Inv I (step I s o) U := by
  obtain ⟨U, h⟩ := h
  cases o with
  | create room cloned =>
    obtain ⟨m', ap, U', hmalloc, hinv, hap⟩ := h.malloc (show Small STACKSIZE by decide) room
    refine ⟨U', ?_⟩
    simp only [step, hmalloc, Option.elim_some, St.created]
    split
    · exact hinv.started hap
    · exact hinv
  | malloc room nbytes =>
    obtain ⟨m', ap, U', hmalloc, hinv, hap⟩ := h.malloc ho room
    refine ⟨U', ?_⟩
    simp only [step, hmalloc, Option.elim_some, St.malloced]
    split
    · exact hinv
    · rename_i hne
      obtain ⟨hfresh, b, hb, heq, -⟩ := hap hne
      exact hinv.hold hfresh hb heq
  | free ap =>
    simp only [step]
    split
    · rename_i hmem
      obtain ⟨b, hb, rfl⟩ := h.held ap hmem
      have hfresh : (s.drop (b + 8)).Fresh (b + 8) :=
        ⟨fun i hi heq => h.apart_held i hi (heq ▸ hmem), Finset.notMem_erase (b + 8) s.held⟩
      obtain ⟨m', U', hfree, hinv⟩ := (h.drop (b + 8)).free hb hfresh
      refine ⟨U', ?_⟩
      rw [show free s.heap (b + 8) = some m' from hfree]
      exact hinv
    · exact ⟨U, h⟩
  | finish i =>
    simp only [step]
    split
    · rename_i hrun
      have hborn : s.pc i ≠ .unborn := by
        rw [hrun]
        decide
      split
      · exact ⟨U, h.goto (by decide) hborn⟩
      · rename_i hne
        obtain ⟨b, hb, hstack, -⟩ := h.stack i ⟨hrun, hne⟩
        have hfresh : (s.goto i .freed).Fresh (b + 8) := by
          refine ⟨fun j hj heq => ?_, hstack ▸ h.apart_held i ⟨hrun, hne⟩⟩
          obtain ⟨hji, hown⟩ := hj.of_goto (by decide)
          exact hji (h.apart j i hown ⟨hrun, hne⟩ (heq.trans hstack.symm))
        obtain ⟨m', U', hfree, hinv⟩ := (h.goto (by decide) hborn).free hb hfresh
        refine ⟨U', ?_⟩
        rw [hstack, show free s.heap (b + 8) = some m' from hfree]
        exact hinv
    · exact ⟨U, h⟩
  | exit i =>
    simp only [step]
    split
    · rename_i halive
      refine ⟨U, h.goto (by decide) fun hunborn => ?_⟩
      rw [hunborn] at halive
      simp at halive
    · exact ⟨U, h⟩

theorem run_inv (I : Image) {os : List Act} (hos : ∀ o ∈ os, o.Ok) : ∃ U, Inv I (run (step I) (init I) os) U := by
  refine guarded_inv (I := fun s => ∃ U, Inv I s U) (fun s o ho h => step_inv ho h) (init I) ⟨∅, init_inv I⟩ os
    (guarded_of_forall _ fun o ho _ => hos o ho)

/-! ## Stacks and new blocks -/

/-- the bytes a caller may use lie inside the block -/
theorem payload_subset {m : Heap} {n : ℕ} (hn : n + 8 ≤ m.len b) : Set.Ico (b + 8) (b + 8 + n) ⊆ bytes m.len b :=
  Set.Ico_subset_Ico (Nat.le_add_right b 8) (by omega)

/-- the block is apart from the stack of every thread that is in its routine -/
theorem Inv.disjoint (h : Inv I s U) (hfresh : s.Fresh ap) (hb : b ∈ U) (heq : ap = b + 8)
    (hsize : nbytes + 8 ≤ s.heap.len b) (hi : s.pc i = .running) :
    Disjoint (Set.Ico ap (ap + nbytes)) (Set.Ico (s.stack i) (s.stack i + STACKSIZE)) := by
  rcases h.ready with ⟨-, rfl, -⟩ | ⟨F, halloc⟩
  · exact absurd hb (Finset.notMem_empty b)
  by_cases hnull : s.stack i = 0
  · -- the page of address 0 is below the heap
    have hlow := halloc.blocks.low b (.inr hb) (halloc.blocks.ne_base hb)
    have hpage := I.page_le
    simp only [PGSIZE] at hpage
    rw [hnull, Set.Ico_disjoint_Ico, STACKSIZE]
    omega
  · obtain ⟨u, hu, hstack, hlen⟩ := h.stack i ⟨hi, hnull⟩
    have hne : b ≠ u := fun hbu => hfresh.1 i ⟨hi, hnull⟩ (by rw [hstack, heq, hbu])
    have hunits : STACKSIZE + 8 ≤ s.heap.len u := by
      rw [Heap.len, hlen]
      decide
    rw [heq, hstack]
    exact (halloc.blocks.apart (.inr hb) (.inr hu) hne).mono (payload_subset hsize) (payload_subset hunits)

/-- **A stack is kept as long as its thread.** `malloc` returns; and when no created thread stands between its `free` and
its `exit`, the block is apart from the stack of every created thread that has not entered `exit`. -/
theorem stack_kept (I : Image) (os : List Act) (hos : ∀ o ∈ os, o.Ok) (room nbytes : ℕ) (hsmall : Small nbytes)
    (hquiet : ∀ i, (run (step I) (init I) os).pc i ≠ .freed) :
    ∃ m' ap, malloc I.base room (run (step I) (init I) os).heap nbytes = some (m', ap) ∧
      (ap ≠ 0 → ∀ i, (run (step I) (init I) os).Alive i → Disjoint (Set.Ico ap (ap + nbytes))
        (Set.Ico ((run (step I) (init I) os).stack i) ((run (step I) (init I) os).stack i + STACKSIZE))) := by
  obtain ⟨U, h⟩ := run_inv I hos
  generalize run (step I) (init I) os = s at hquiet h
  obtain ⟨m', ap, U', hmalloc, hinv, hap⟩ := h.malloc hsmall room
  refine ⟨m', ap, hmalloc, fun hne i halive => ?_⟩
  obtain ⟨hfresh, b, hb, heq, hsize⟩ := hap hne
  refine hinv.disjoint (i := i) hfresh hb heq ?_ (halive.resolve_right (hquiet i))
  have hlen := (nunits_small hsmall).2
  rw [← hsize] at hlen
  exact hlen

/-- an image of two pages and a stack -/
def twoPages : Image where
  base := 0x900
  brk := 3 * PGSIZE
  base_pos := by decide
  base_lt := by decide
  page_le := by decide
  brk_lt := by decide

/-- one thread is in its routine when the main thread creates the next -/
theorem stack_kept_two : ∃ m' ap, malloc twoPages.base (2 ^ 20)
    (run (step twoPages) (init twoPages) [.create (2 ^ 20) true]).heap STACKSIZE = some (m', ap) ∧
      (ap ≠ 0 → ∀ i, (run (step twoPages) (init twoPages) [.create (2 ^ 20) true]).Alive i →
        Disjoint (Set.Ico ap (ap + STACKSIZE))
          (Set.Ico ((run (step twoPages) (init twoPages) [.create (2 ^ 20) true]).stack i)
            ((run (step twoPages) (init twoPages) [.create (2 ^ 20) true]).stack i + STACKSIZE))) := by
  refine stack_kept twoPages [.create (2 ^ 20) true] (by simp [Act.Ok]) (2 ^ 20) STACKSIZE (by decide) fun i => ?_
  simp only [run_cons, run_nil, step]
  cases malloc twoPages.base (2 ^ 20) (init twoPages).heap STACKSIZE with
  | none => exact Pc.noConfusion
  | some r =>
    by_cases hi : i = 0
    · subst hi
      exact Pc.noConfusion
    · have hpc : ((init twoPages).created true r).pc i = .unborn := update_of_ne hi ..
      rw [Option.elim_some, hpc]
      exact Pc.noConfusion

/-- **The next thread gets the stack of one that still runs.** The first thread has called `free` and not yet `exit`; the
block `thread_create` gets from `malloc` is the stack that thread is on. -/
theorem stack_reused : (run (step twoPages) (init twoPages) [.create (2 ^ 20) true, .finish 0]).Alive 0 ∧
    ∃ m' ap, malloc twoPages.base (2 ^ 20)
        (run (step twoPages) (init twoPages) [.create (2 ^ 20) true, .finish 0]).heap STACKSIZE = some (m', ap) ∧ ap ≠ 0 ∧
      ¬ Disjoint (Set.Ico ap (ap + STACKSIZE))
        (Set.Ico ((run (step twoPages) (init twoPages) [.create (2 ^ 20) true, .finish 0]).stack 0)
          ((run (step twoPages) (init twoPages) [.create (2 ^ 20) true, .finish 0]).stack 0 + STACKSIZE)) := by
  have hpc : (run (step twoPages) (init twoPages) [.create (2 ^ 20) true, .finish 0]).pc 0 = .freed := by
    decide +kernel
  have hstack : (run (step twoPages) (init twoPages) [.create (2 ^ 20) true, .finish 0]).stack 0 = 0xa000 := by
    decide +kernel
  have hmalloc : (malloc twoPages.base (2 ^ 20)
      (run (step twoPages) (init twoPages) [.create (2 ^ 20) true, .finish 0]).heap STACKSIZE).map Prod.snd =
        some 0xa000 := by
    decide +kernel
  obtain ⟨⟨m', ap⟩, hm, hap⟩ := Option.map_eq_some_iff.1 hmalloc
  obtain rfl : ap = 0xa000 := hap
  refine ⟨.inr hpc, m', 0xa000, hm, by decide, ?_⟩
  rw [hstack, Set.not_disjoint_iff]
  exact ⟨0xa000, by decide, by decide⟩

end Xv6.Stack
