/-
`malloc` in a process of this kernel: the user library's allocator (`umalloc.c`) with `sbrk` as `sys_sbrk` and `growproc` are.

The state is the kernel's and the library's; the break that the library sees is the size the kernel keeps for the process. Between the calls
of the process the kernel may do anything else that leaves the size and the pages of the process alone.

- `malloc`: the library's function with the kernel behind it. `Linked`: the two sides agree, and the pages below the size are mapped.
-/
import Xv6.Kernel.Sbrk
import Xv6.Kernel.SysArgs
import Xv6.User.Allocator

namespace Xv6.Process

open Xv6.Core Xv6.Umalloc
open Xv6.Kernel (NPROC KERNBASE PGSIZE Mapped)
open Xv6.Kernel.SysArgs (int)

/-! ## Model -/

/-- a process: the kernel's side and the library's -/
structure Sys where
  ks : Kernel.St
  heap : Heap

/-- the system call, with the size that it leaves as the new break; `none` is a panic -/
def sbrk (p : Fin NPROC) (x : Sys) (n : ℕ) : Option (Option ℕ × Sys) :=
  match Kernel.sysSbrk x.ks p (int n) with
  | .ok (r, ks) => some (r, ⟨ks, x.heap.setBrk (ks.proc p).sz⟩)
  | .error _ => none

/-- `morecore`; `none` is a call that does not return, and the address 0 is the null pointer -/
def morecore (p : Fin NPROC) (x : Sys) (nu : ℕ) : Option (Sys × ℕ) :=
  let nu := if nu < 4096 then 4096 else nu
  match sbrk p x (word (nu * 8)) with
  | none => none
  | some (none, x) => some (x, 0)
  | some (some hp, x) => (free (x.heap.setSize hp nu) (padd hp 1)).map fun h => (⟨x.ks, h⟩, h.freep)

/-- the loop of `malloc` -/
def mallocLoop (p : Fin NPROC) (nunits : ℕ) : ℕ → Sys → ℕ → Option (Sys × ℕ)
  | 0, _, _ => none
  | fuel + 1, x, prevp =>
    if nunits ≤ x.heap.size (x.heap.ptr prevp) then
      some (⟨x.ks, (x.heap.take nunits prevp).1⟩, (x.heap.take nunits prevp).2)
    else if x.heap.ptr prevp = x.heap.freep then
      (morecore p x nunits).bind fun r => if r.2 = 0 then some (r.1, 0) else mallocLoop p nunits fuel r.1 r.2
    else mallocLoop p nunits fuel x (x.heap.ptr prevp)

def malloc (base : ℕ) (p : Fin NPROC) (x : Sys) (nbytes : ℕ) : Option (Sys × ℕ) :=
  mallocLoop p (nunits nbytes) (2 * x.heap.brk + 4) ⟨x.ks, x.heap.start base⟩ (x.heap.start base).freep

structure St where
  ks : Kernel.St
  alloc : Allocator.St

inductive Op
  | malloc (nbytes : ℕ)
  | free (ap : ℕ)
  /-- other processes run -/
  | other (ks : Kernel.St)

def St.malloced (s : St) (nbytes : ℕ) (r : Sys × ℕ) : St := ⟨r.1.ks, s.alloc.malloced nbytes (r.1.heap, r.2)⟩

def step (base : ℕ) (p : Fin NPROC) (s : St) : Op → St
  | .malloc nbytes => (malloc base p ⟨s.ks, s.alloc.heap⟩ nbytes).elim ⟨s.ks, s.alloc.spin⟩ (s.malloced nbytes)
  | .free ap => ⟨s.ks, Allocator.step base s.alloc (.free ap)⟩
  | .other ks => ⟨ks, s.alloc⟩

/-- no call has been made -/
def init (mem : ℕ → Header) (ks : Kernel.St) (p : Fin NPROC) : St := ⟨ks, Allocator.init mem (ks.proc p).sz⟩

/-- the pages below the size of the process are mapped -/
def Pages (ks : Kernel.St) (p : Fin NPROC) : Prop :=
  ∃ d D, ks.pgdir p = .ok (d, D) ∧ Mapped D (ks.proc p).sz ∧ (ks.proc p).sz < KERNBASE

/-- requests are small, only live blocks are freed, and others leave the process's memory alone -/
def Ok (p : Fin NPROC) (s : St) : Op → Prop
  | .malloc nbytes => 8 * ((nbytes + 8 - 1) / 8 + 1) < 2 ^ 31
  | .free ap => ap ∈ s.alloc.live.map Prod.fst
  | .other ks => (ks.proc p).sz = (s.ks.proc p).sz ∧ Pages ks p

/-! ## The kernel behind `sbrk` -/

variable {base lo k : ℕ} {p : Fin NPROC} {x : Sys} {F U : Finset ℕ}

/-- the two sides agree about the break -/
structure Linked (p : Fin NPROC) (x : Sys) : Prop where
  pages : Pages x.ks p
  brk : x.heap.brk = (x.ks.proc p).sz

/-- what the kernel can answer to a request for `n` bytes -/
inductive Answer (p : Fin NPROC) (x : Sys) (n : ℕ) : Prop
  | refused (ks : Kernel.St) (hs : sbrk p x n = some (none, ⟨ks, x.heap⟩)) (hl : Linked p ⟨ks, x.heap⟩)
  | granted (ks : Kernel.St) (hs : sbrk p x n = some (some x.heap.brk, ⟨ks, x.heap.setBrk (x.heap.brk + n)⟩))
      (hfit : x.heap.brk + n < KERNBASE) (hl : Linked p ⟨ks, x.heap.setBrk (x.heap.brk + n)⟩)

theorem sbrk_eq {n r d : ℕ} {D D' : Kernel.Dir} {mem : Names} (hpos : 0 < n) (hn : n < 2 ^ 31) (hd : x.ks.pgdir p = .ok (d, D))
    (hr : Kernel.resize D (x.ks.proc p).sz n x.ks.mem = .ok (r, D', mem)) :
    sbrk p x n = some (if r = 0 then none else some (x.ks.proc p).sz,
      ⟨x.ks.resized p d D' mem r, x.heap.setBrk (if r = 0 then (x.ks.proc p).sz else r)⟩) := by
  have hint : int n = n := if_pos hn
  have hgrow : Kernel.growproc x.ks p n = .ok (decide (r ≠ 0), x.ks.resized p d D' mem r) :=
    Kernel.growproc_eq (by omega) hd hr
  have hsys : Kernel.sysSbrk x.ks p n = .ok (if r = 0 then none else some (x.ks.proc p).sz, x.ks.resized p d D' mem r) := by
    unfold Kernel.sysSbrk
    rw [hgrow]
    by_cases hz : r = 0
    · simp only [hz]
      rfl
    · simp only [Kernel.ok_bind, ne_eq, hz, not_false_eq_true, decide_true, if_true, if_false]
      rfl
  unfold sbrk
  rw [hint, hsys]
  simp only [Kernel.resized_sz]

theorem answer (h : Linked p x) {n : ℕ} (hpos : 0 < n) (hn : n < 2 ^ 31) : Answer p x n := by
  obtain ⟨⟨d, D, hd, hm, hlt⟩, hbrk⟩ := h
  obtain ⟨r, D', mem, hr, hres⟩ := Kernel.resize_grow hm hlt (n := n) (by omega) (by omega) x.ks.mem
  have hsbrk := sbrk_eq hpos hn hd hr
  have hd' : (x.ks.resized p d D' mem r).pgdir p = .ok (d, D') := Kernel.resized_pgdir hd
  have hsz : ((x.ks.resized p d D' mem r).proc p).sz = if r = 0 then (x.ks.proc p).sz else r := Kernel.resized_sz
  rcases hres with ⟨rfl, hm'⟩ | ⟨hsize, hfit, hm'⟩
  · rw [if_pos rfl, if_pos rfl, ← hbrk] at hsbrk
    rw [if_pos rfl] at hsz
    refine .refused _ hsbrk ⟨⟨d, D', hd', ?_, ?_⟩, ?_⟩
    · rw [hsz]
      exact hm'
    · rw [hsz]
      exact hlt
    · rw [hsz]
      exact hbrk
  · have hr : r = x.heap.brk + n := by omega
    rw [if_neg (by omega), if_neg (by omega), hr, ← hbrk] at hsbrk
    rw [if_neg (by omega)] at hsz
    rw [hr] at hsz hd'
    refine .granted _ hsbrk (hr ▸ hfit) ⟨⟨d, D', hd', ?_, ?_⟩, ?_⟩
    · rw [hsz, ← hr]
      exact hm'
    · rw [hsz, ← hr]
      exact hfit
    · exact hsz.symm

/-! ## A call is a call of the library's `malloc` -/

theorem mallocLoop_scan (p : Fin NPROC) (k fuel : ℕ) (x : Sys) (q : ℕ) : mallocLoop p k fuel x q =
    (x.heap.scan k fuel q).bind (Sum.elim (fun q => some (⟨x.ks, (x.heap.take k q).1⟩, (x.heap.take k q).2)) fun fuel' =>
      (morecore p x k).bind fun r => if r.2 = 0 then some (r.1, 0) else mallocLoop p k fuel' r.1 r.2) := by
  induction fuel generalizing q with
  | zero => rfl
  | succ fuel ih =>
    by_cases hfit : k ≤ x.heap.size (x.heap.ptr q)
    · rw [mallocLoop, if_pos hfit, Heap.scan, if_pos hfit]
      rfl
    by_cases hround : x.heap.ptr q = x.heap.freep
    · rw [mallocLoop, if_neg hfit, if_pos hround, Heap.scan, if_neg hfit, if_pos hround]
      rfl
    · rw [mallocLoop, if_neg hfit, if_neg hround, Heap.scan, if_neg hfit, if_neg hround]
      exact ih _

variable {m : Heap} {ap : ℕ}

theorem free_brk {m' : Heap} (h : free m ap = some m') : m'.brk = m.brk := by
  simp only [free, Option.map_eq_some_iff] at h
  obtain ⟨q, -, rfl⟩ := h
  rw [Heap.brk_setFreep, Heap.brk_linkPrev, Heap.brk_linkNext]

/-- the room that the kernel has for a request of `nu` units -/
def room (p : Fin NPROC) (x : Sys) (nu : ℕ) : ℕ :=
  match sbrk p x (word ((if nu < 4096 then 4096 else nu) * 8)) with
  | some (some _, _) => KERNBASE
  | _ => 0

/-- what the library's `morecore` does, this one does -/
theorem morecore_sim (h : Linked p x) (hk : 8 * k < 2 ^ 31) (hm : Umalloc.morecore (room p x k) x.heap k = some (m, ap)) : ∃ ks, morecore p x k = some (⟨ks, m⟩, ap) ∧ Linked p ⟨ks, m⟩ := by
  obtain ⟨nu, hnu⟩ : ∃ nu, (if k < 4096 then 4096 else k) = nu := ⟨_, rfl⟩
  have hbig : 4096 ≤ nu ∧ nu * 8 < 2 ^ 31 := by
    split_ifs at hnu <;> omega
  have hword : word (nu * 8) = nu * 8 := word_of_lt (by omega)
  unfold Umalloc.morecore room at hm
  unfold morecore
  simp only [hnu, hword] at hm ⊢
  cases answer h (show 0 < nu * 8 by omega) hbig.2 with
  | refused ks hs hl =>
    have hnone : Umalloc.sbrk 0 x.heap (nu * 8) = none := by
      rw [Umalloc.sbrk, if_neg (by omega), if_pos hbig.2, if_neg (by omega)]
    simp only [hs, hnone] at hm ⊢
    cases hm
    exact ⟨ks, rfl, hl⟩
  | granted ks hs hfit hl =>
    have hsome : Umalloc.sbrk KERNBASE x.heap (nu * 8) = some (x.heap.setBrk (x.heap.brk + nu * 8), x.heap.brk) := by
      rw [Umalloc.sbrk, if_neg (by omega), if_pos hbig.2, if_pos ⟨hfit.le, hfit⟩]
    simp only [hs, hsome] at hm ⊢
    obtain ⟨m', hfree, heq⟩ := Option.map_eq_some_iff.1 hm
    cases heq
    refine ⟨ks, ?_, hl.pages, ?_⟩
    · simp only [hfree, Option.map_some]
    · exact (free_brk hfree).trans hl.brk

/-- what the loop of the library's `malloc` does, this one does -/
theorem loop_sim (h : Linked p x) (ha : Alloc base lo x.heap F U) (hk : 8 * k < 2 ^ 31) (hm : Umalloc.mallocLoop (room p x k) k (2 * x.heap.brk + 4) x.heap x.heap.freep = some (m, ap)) :
    ∃ ks, mallocLoop p k (2 * x.heap.brk + 4) x x.heap.freep = some (⟨ks, m⟩, ap) ∧ Linked p ⟨ks, m⟩ := by
  rw [Umalloc.mallocLoop_scan] at hm
  rw [mallocLoop_scan]
  rcases ha.search k with ⟨q, hq, hfit, hscan⟩ | ⟨fuel, hfuel, hscan⟩
  · rw [hscan] at hm ⊢
    have hm : x.heap.take k q = (m, ap) := Option.some.inj hm
    refine ⟨x.ks, ?_, h.pages, ?_⟩
    · simp only [Option.bind_some, Sum.elim_inl, hm]
    · have hbrk := Heap.brk_take x.heap k q
      rw [hm] at hbrk
      exact hbrk.trans h.brk
  · rw [hscan, Option.bind_some, Sum.elim_inr] at hm ⊢
    rcases morecore_spec (room p x k) ha hk with hmore | ⟨m1, F1, hmore, ha1, hcard, ⟨a, haF, hfit⟩, -, -⟩
    · obtain ⟨ks, hcore, hl⟩ := morecore_sim h hk hmore
      rw [hmore] at hm
      cases hm
      exact ⟨ks, by rw [hcore]; rfl, hl⟩
    · obtain ⟨ks, hcore, hl⟩ := morecore_sim h hk hmore
      -- the new block is found without a second request
      obtain ⟨q, hq, hqfit, hscan1⟩ := ha1.found haF hfit (show F1.card < fuel by omega)
      rw [hmore, Option.bind_some, if_neg ha1.freep_ne, Umalloc.mallocLoop_scan, hscan1] at hm
      rw [hcore, Option.bind_some, if_neg ha1.freep_ne, mallocLoop_scan, hscan1]
      have hm : m1.take k q = (m, ap) := Option.some.inj hm
      refine ⟨ks, ?_, hl.pages, ?_⟩
      · simp only [Option.bind_some, Sum.elim_inl, hm]
      · have hbrk := Heap.brk_take m1 k q
        rw [hm] at hbrk
        exact hbrk.trans hl.brk

variable {a : Allocator.St} {ks : Kernel.St} {nbytes : ℕ}

/-- **A call of `malloc`** with the kernel behind it is one of the library's `malloc` with the room that the kernel has. -/
theorem malloc_sim (hinv : Allocator.Inv base lo a F U) (h : Linked p ⟨ks, a.heap⟩) (hsmall : 8 * nunits nbytes < 2 ^ 31) : ∃ m ap ks',
      Umalloc.malloc base (room p ⟨ks, a.heap.start base⟩ (nunits nbytes)) a.heap nbytes = some (m, ap) ∧
      malloc base p ⟨ks, a.heap⟩ nbytes = some (⟨ks', m⟩, ap) ∧ Linked p ⟨ks', m⟩ := by
  obtain ⟨F0, halloc, -, -, hbrk, -⟩ := hinv.start
  have hstart : Linked p ⟨ks, a.heap.start base⟩ := ⟨h.pages, hbrk.trans h.brk⟩
  obtain ⟨m, F', U', ap, hloop, -⟩ := halloc.loop (room p ⟨ks, a.heap.start base⟩ (nunits nbytes)) hsmall
  obtain ⟨ks', hres, hl⟩ := loop_sim hstart halloc hsmall hloop
  dsimp only at hres
  rw [hbrk] at hloop hres
  exact ⟨m, ap, ks', hloop, hres, hl⟩

/-! ## Runs -/

/-- the blocks are in order, and the kernel and the library agree about the break -/
structure Inv (base lo : ℕ) (p : Fin NPROC) (s : St) : Prop where
  blocks : ∃ F U, Allocator.Inv base lo s.alloc F U
  linked : Linked p ⟨s.ks, s.alloc.heap⟩

variable {s : St}

theorem Inv.of (hblocks : ∃ F U, Allocator.Inv base lo a F U) (hpages : Pages ks p)
    (hbrk : a.heap.brk = (ks.proc p).sz) : Inv base lo p ⟨ks, a⟩ := ⟨hblocks, hpages, hbrk⟩

theorem Inv.malloc (h : Inv base lo p s) (hsmall : 8 * ((nbytes + 8 - 1) / 8 + 1) < 2 ^ 31) :
    Inv base lo p (step base p s (.malloc nbytes)) := by
  obtain ⟨F, U, hinv⟩ := h.blocks
  have hunits : 8 * nunits nbytes < 2 ^ 31 := by
    rw [Allocator.nunits_eq hsmall]
    exact hsmall
  obtain ⟨m, ap, ks', hlib, hres, hl⟩ := malloc_sim hinv h.linked hunits
  have hstep : step base p s (.malloc nbytes) = ⟨ks', s.alloc.malloced nbytes (m, ap)⟩ := by
    unfold step
    dsimp only
    rw [hres]
    rfl
  have hblocks := hinv.malloc hsmall (room p ⟨s.ks, s.alloc.heap.start base⟩ (nunits nbytes))
  rw [Allocator.step, hlib] at hblocks
  rw [hstep]
  exact ⟨hblocks, hl⟩

/-- a call of `free` leaves the break alone, also one that does not return -/
theorem freed_brk (base : ℕ) (a : Allocator.St) (ap : ℕ) : (Allocator.step base a (.free ap)).heap.brk = a.heap.brk := by
  have hbrk : ∀ r, Umalloc.free a.heap ap = r → (r.elim a.spin (a.freed ap)).heap.brk = a.heap.brk := by
    intro r hr
    cases r with
    | none => rfl
    | some m => exact free_brk hr
  rw [Allocator.step]
  exact hbrk _ rfl

theorem Inv.free (h : Inv base lo p s) (hap : ap ∈ s.alloc.live.map Prod.fst) : Inv base lo p (step base p s (.free ap)) := by
  obtain ⟨F, U, hinv⟩ := h.blocks
  have hblocks := hinv.free hap
  have hbrk := (freed_brk base s.alloc ap).trans h.linked.brk
  rw [step]
  exact .of hblocks h.linked.pages hbrk

theorem step_inv (h : Inv base lo p s) {op : Op} (hok : Ok p s op) : Inv base lo p (step base p s op) := by
  cases op with
  | malloc nbytes => exact h.malloc hok
  | free ap => exact h.free hok
  | other ks => exact ⟨h.blocks, hok.2, h.linked.brk.trans hok.1.symm⟩

theorem init_inv (mem : ℕ → Header) (hpages : Pages ks p) (hpos : 0 < base) (hlt : base < (ks.proc p).sz)
    (hd : 8 ∣ (ks.proc p).sz) : Inv base (ks.proc p).sz p (init mem ks p) := by
  obtain ⟨d, D, hdir, hm, hsz⟩ := hpages
  exact ⟨⟨∅, ∅, Allocator.init_inv mem hpos hlt hsz hd⟩, ⟨d, D, hdir, hm, hsz⟩, rfl⟩

/-- the bytes that a caller has been promised -/
def promised (x : ℕ × ℕ) : Set ℕ := Set.Ico x.1 (x.1 + x.2)

/-- each live block is a used block of the library with room for its bytes behind the header -/
theorem promised_subset (h : Allocator.Inv base lo a F U) {x : ℕ × ℕ} (hx : x ∈ a.live) :
    Alloc base lo a.heap F U ∧ x.1 - 8 ∈ U ∧ promised x ⊆ bytes a.heap.len (x.1 - 8) := by
  obtain ⟨b, hb, hxb, hlen⟩ := h.live x hx
  have hsub : x.1 - 8 = b := by omega
  rw [hsub]
  refine ⟨?_, hb, fun o ho => ⟨?_, ?_⟩⟩
  · rcases h.listed with ⟨-, -, hU, -⟩ | halloc
    · rw [hU] at hb
      cases hb
    · exact halloc
  · have hlo : x.1 ≤ o := ho.1
    omega
  · have hhi : o < x.1 + x.2 := ho.2
    omega

theorem Inv.below (h : Inv base lo p s) {x : ℕ × ℕ} (hx : x ∈ s.alloc.live) : x.1 + x.2 ≤ (s.ks.proc p).sz := by
  obtain ⟨F, U, hinv⟩ := h.blocks
  obtain ⟨b, hb, hxb, hlen⟩ := hinv.live x hx
  obtain ⟨halloc, hU, -⟩ := promised_subset hinv hx
  have hhigh := halloc.blocks.high b (.inr hb)
  have hbrk : s.alloc.heap.brk = (s.ks.proc p).sz := h.linked.brk
  omega

theorem Inv.apart (h : Inv base lo p s) : s.alloc.live.Pairwise fun x y => Disjoint (promised x) (promised y) := by
  obtain ⟨F, U, hinv⟩ := h.blocks
  have hne : s.alloc.live.Pairwise fun x y => x.1 ≠ y.1 := List.pairwise_map.1 hinv.nodup
  refine hne.imp_of_mem fun {x y} hx hy hxy => ?_
  obtain ⟨halloc, hxU, hxs⟩ := promised_subset hinv hx
  obtain ⟨-, hyU, hys⟩ := promised_subset hinv hy
  obtain ⟨b, -, hxb, -⟩ := hinv.live x hx
  obtain ⟨c, -, hyc, -⟩ := hinv.live y hy
  exact (halloc.blocks.apart (.inr hxU) (.inr hyU) (by omega)).mono hxs hys

/-- **`malloc` in a process.** In every run of `malloc` with small requests and `free` of live blocks, whatever memory the kernel has and
    whatever other processes do: every call returns, the bytes promised to a caller are below the size of the process, whose pages are
    mapped, and no two callers have been promised the same byte -/
theorem malloc_memory (base : ℕ) (p : Fin NPROC) (ks : Kernel.St) (hpages : Pages ks p) (hpos : 0 < base)
    (hlt : base < (ks.proc p).sz) (hd : 8 ∣ (ks.proc p).sz) (mem : ℕ → Header) (ops : List Op)
    (h : Guarded (step base p) (Ok p) (init mem ks p) ops) :
    (run (step base p) (init mem ks p) ops).alloc.spins = false ∧
    Pages (run (step base p) (init mem ks p) ops).ks p ∧
    (∀ x ∈ (run (step base p) (init mem ks p) ops).alloc.live,
      x.1 + x.2 ≤ ((run (step base p) (init mem ks p) ops).ks.proc p).sz) ∧
    (run (step base p) (init mem ks p) ops).alloc.live.Pairwise fun x y => Disjoint (promised x) (promised y) := by
  have hinv : Inv base (ks.proc p).sz p (run (step base p) (init mem ks p) ops) :=
    guarded_inv (I := Inv base (ks.proc p).sz p) (fun _ _ hok hinv => step_inv hinv hok) _ (init_inv mem hpages hpos hlt hd) ops h
  obtain ⟨F, U, hblocks⟩ := hinv.blocks
  exact ⟨hblocks.returns, hinv.linked.pages, fun x hx => hinv.below hx, hinv.apart⟩

/-! ## The first process -/

section First

open Xv6.Kernel (initproc booted booted_pgdir booted_sz start_eq xv6)

variable {d : ℕ} {D : Kernel.Dir} {mem : Names}

theorem booted_pages (hm : Mapped D PGSIZE) : Pages (booted d D mem) initproc := by
  refine ⟨d, D, booted_pgdir d D mem, ?_, ?_⟩
  · rw [booted_sz]
    exact hm
  · rw [booted_sz]
    decide

/-- with memory enough the kernel grants what `morecore` asks for at least -/
theorem booted_room (hm : Mapped D PGSIZE) (n : ℕ) (h : Heap) : room initproc ⟨booted d D ⟨n, fun _ => true⟩, h⟩ 1 = KERNBASE := by
  have hgrow : ∃ D' mem', Kernel.resize D PGSIZE 32768 ⟨n, fun _ => true⟩ = .ok (36864, D', mem') := by
    rcases Kernel.allocuvm_mapped hm (by decide) 36864 (⟨n, fun _ => true⟩ : Names) with ⟨_, _, _, _, _, hdry⟩ | ⟨D', mem', hr, -⟩
    · exact absurd (hdry.resolve_left (by decide)) (Names.not_dry fun _ => rfl)
    · exact ⟨D', mem', hr⟩
  obtain ⟨D', mem', hr⟩ := hgrow
  have hsbrk := sbrk_eq (x := ⟨booted d D ⟨n, fun _ => true⟩, h⟩) (n := 32768) (by decide) (by decide) (booted_pgdir d D _)
    (by rw [booted_sz]; exact hr)
  unfold room
  rw [show word ((if 1 < 4096 then 4096 else 1) * 8) = 32768 by decide, hsbrk]
  rfl

/-- two small requests of the first process -/
theorem malloc_memory_first : ∃ ks, Kernel.start xv6 (fun n => decide (n < 100)) = .up ks ∧
    ∀ x ∈ (run (step 8 initproc) (init (fun _ => ⟨0, 0⟩) ks initproc) [.malloc 20, .malloc 100]).alloc.live, x.1 + x.2 ≤
      ((run (step 8 initproc) (init (fun _ => ⟨0, 0⟩) ks initproc) [.malloc 20, .malloc 100]).ks.proc initproc).sz := by
  obtain ⟨d, n, D, hs, hm, -⟩ := start_eq xv6 fun n => decide (n < 100)
  have hsmall : 8 * ((20 + 8 - 1) / 8 + 1) < 2 ^ 31 ∧ 8 * ((100 + 8 - 1) / 8 + 1) < 2 ^ 31 := by decide
  refine ⟨_, hs, (malloc_memory 8 initproc _ (booted_pages hm) (by decide) ?_ ?_ (fun _ => ⟨0, 0⟩) [.malloc 20, .malloc 100]
    ⟨hsmall.1, hsmall.2, trivial⟩).2.2.1⟩
  · rw [booted_sz]
    decide
  · rw [booted_sz]
    decide

/-- the heap of the first process -/
theorem init_heap (d : ℕ) (D : Kernel.Dir) (mem : Names) :
    (init (fun _ => ⟨0, 0⟩) (booted d D mem) initproc).alloc.heap = ⟨fun _ => ⟨0, 0⟩, 0, 4096⟩ := by
  simp only [init, Allocator.init, booted_sz, PGSIZE]

/-- the first process asks for 2^32 - 1 bytes: the units wrap to one, and the block is at the break -/
theorem malloc_wraps : ∃ ks, Kernel.start xv6 (fun _ => true) = .up ks ∧
    (run (step 8 initproc) (init (fun _ => ⟨0, 0⟩) ks initproc) [.malloc (2 ^ 32 - 1)]).alloc.live = [(36864, 2 ^ 32 - 1)] ∧
    ((run (step 8 initproc) (init (fun _ => ⟨0, 0⟩) ks initproc) [.malloc (2 ^ 32 - 1)]).ks.proc initproc).sz = 36864 := by
  obtain ⟨d, n, D, hs, hm, -⟩ := start_eq xv6 fun _ => true
  refine ⟨_, hs, ?_⟩
  have hinv : Inv 8 _ initproc (init (fun _ => ⟨0, 0⟩) (booted d D ⟨n, fun _ => true⟩) initproc) :=
    init_inv (fun _ => ⟨0, 0⟩) (booted_pages hm) (by decide) (by rw [booted_sz]; decide) (by rw [booted_sz]; decide)
  obtain ⟨F, U, hblocks⟩ := hinv.blocks
  have hunits : nunits (2 ^ 32 - 1) = 1 := by decide
  obtain ⟨m, ap, ks', hlib, hres, hl⟩ := malloc_sim hblocks hinv.linked (show 8 * nunits (2 ^ 32 - 1) < 2 ^ 31 by decide)
  rw [hunits] at hlib
  change Umalloc.malloc 8 (room initproc ⟨booted d D ⟨n, fun _ => true⟩, _⟩ 1) _ _ = _ at hlib
  rw [booted_room hm, init_heap] at hlib
  have hgives : (Umalloc.malloc 8 KERNBASE ⟨fun _ => ⟨0, 0⟩, 0, 4096⟩ (2 ^ 32 - 1)).map (fun r => (r.2, r.1.brk)) =
      some (36864, 36864) := by decide +kernel
  rw [hlib] at hgives
  simp only [Option.map_some, Option.some.injEq, Prod.mk.injEq] at hgives
  obtain ⟨rfl, hbrk⟩ := hgives
  have hstep : run (step 8 initproc) (init (fun _ => ⟨0, 0⟩) (booted d D ⟨n, fun _ => true⟩) initproc) [.malloc (2 ^ 32 - 1)] =
      (init (fun _ => ⟨0, 0⟩) (booted d D ⟨n, fun _ => true⟩) initproc).malloced (2 ^ 32 - 1) (⟨ks', m⟩, 36864) := by
    simp only [run, List.foldl_cons, List.foldl_nil, step]
    rw [hres]
    rfl
  rw [hstep]
  exact ⟨rfl, hl.brk.symm.trans hbrk⟩

end First

end Xv6.Process
