/-
The user library's memory allocator, `umalloc.c`: `free`, `morecore` and `malloc` over the headers in memory.

Addresses and words have 32 bits. The heap is the part of memory that holds headers, together with `freep` and the
process's break; `base` is the address of the static header `base`. `sbrk` grants memory at the break as long as it stays
below `room`, which the kernel decides anew at each call of `malloc`.

The abstract side is `Alloc`: finite sets `F` of free and `U` of used blocks, the free ones linked in a ring in address
order and no two of them touching.
-/
import Xv6.Core.Blocks
import Xv6.Core.Ring
import Xv6.Kernel.Basic

namespace Xv6.Umalloc

open Xv6.Core
open Xv6.Kernel (KERNBASE)
/-! ## Memory -/

/-- a 32-bit word -/
def word (n : ℕ) : ℕ := n % 2 ^ 32

/-- `union header` -/
structure Header where
  ptr : ℕ
  size : ℕ
  deriving DecidableEq, Repr

/-- the headers in memory, `freep`, and the process's break -/
structure Heap where
  mem : ℕ → Header
  freep : ℕ
  brk : ℕ

namespace Heap

def ptr (h : Heap) (a : ℕ) : ℕ := (h.mem a).ptr

def size (h : Heap) (a : ℕ) : ℕ := (h.mem a).size

/-- the bytes a block takes, its header included -/
def len (h : Heap) (a : ℕ) : ℕ := 8 * h.size a

def setPtr (h : Heap) (a v : ℕ) : Heap := { h with mem := Function.update h.mem a { h.mem a with ptr := v } }

def setFreep (h : Heap) (p : ℕ) : Heap := { h with freep := p }

def setBrk (h : Heap) (n : ℕ) : Heap := { h with brk := n }

def setSize (h : Heap) (a n : ℕ) : Heap := { h with mem := Function.update h.mem a { h.mem a with size := n } }

variable (h : Heap) (a v n : ℕ)

@[simp] theorem ptr_setPtr : (h.setPtr a v).ptr = update h.ptr a v := by
  funext b
  by_cases hb : b = a
  · subst hb
    simp [ptr, setPtr]
  · simp [ptr, setPtr, hb]

@[simp] theorem size_setPtr : (h.setPtr a v).size = h.size := by
  funext b
  by_cases hb : b = a
  · subst hb
    simp [size, setPtr]
  · simp [size, setPtr, hb]

@[simp] theorem len_setPtr : (h.setPtr a v).len = h.len := by
  funext b
  simp [len]

@[simp] theorem ptr_setSize : (h.setSize a n).ptr = h.ptr := by
  funext b
  by_cases hb : b = a
  · subst hb
    simp [ptr, setSize]
  · simp [ptr, setSize, hb]

@[simp] theorem size_setSize : (h.setSize a n).size = update h.size a n := by
  funext b
  by_cases hb : b = a
  · subst hb
    simp [size, setSize]
  · simp [size, setSize, hb]

@[simp] theorem len_setSize : (h.setSize a n).len = update h.len a (8 * n) := by
  funext b
  by_cases hb : b = a
  · subst hb
    simp [len]
  · simp [len, hb]

@[simp] theorem brk_setPtr : (h.setPtr a v).brk = h.brk := rfl
@[simp] theorem brk_setSize : (h.setSize a n).brk = h.brk := rfl
@[simp] theorem freep_setPtr : (h.setPtr a v).freep = h.freep := rfl
@[simp] theorem freep_setSize : (h.setSize a n).freep = h.freep := rfl
@[simp] theorem ptr_setFreep : (h.setFreep a).ptr = h.ptr := rfl
@[simp] theorem size_setFreep : (h.setFreep a).size = h.size := rfl
@[simp] theorem len_setFreep : (h.setFreep a).len = h.len := rfl
@[simp] theorem brk_setFreep : (h.setFreep a).brk = h.brk := rfl
@[simp] theorem freep_setFreep : (h.setFreep a).freep = a := rfl
@[simp] theorem ptr_setBrk : (h.setBrk n).ptr = h.ptr := rfl
@[simp] theorem size_setBrk : (h.setBrk n).size = h.size := rfl
@[simp] theorem len_setBrk : (h.setBrk n).len = h.len := rfl
@[simp] theorem brk_setBrk : (h.setBrk n).brk = n := rfl
@[simp] theorem freep_setBrk : (h.setBrk n).freep = h.freep := rfl

end Heap

/-- `p + n` for a `Header *p` -/
def padd (p n : ℕ) : ℕ := word (p + 8 * n)

/-- `(Header*)ap - 1` -/
def header (ap : ℕ) : ℕ := word (ap + (2 ^ 32 - 8))

/-! ## `free` -/

/-- the loop of `free` stops at `p`: the block at `bp` belongs after it -/
def Heap.Stops (h : Heap) (bp p : ℕ) : Prop :=
  (bp > p ∧ bp < h.ptr p) ∨ (p ≥ h.ptr p ∧ (bp > p ∨ bp < h.ptr p))

instance (h : Heap) (bp : ℕ) : DecidablePred (h.Stops bp) := fun p => by
  unfold Heap.Stops
  infer_instance

/-- the block at `bp` takes in the one after `p` if it ends there, and is linked to what follows -/
def Heap.linkNext (h : Heap) (bp p : ℕ) : Heap :=
  if padd bp (h.size bp) = h.ptr p then
    (h.setSize bp (word (h.size bp + h.size (h.ptr p)))).setPtr bp (h.ptr (h.ptr p))
  else h.setPtr bp (h.ptr p)

/-- the block at `p` takes in the one at `bp` if it ends there, or is linked to it -/
def Heap.linkPrev (h : Heap) (bp p : ℕ) : Heap :=
  if padd p (h.size p) = bp then
    (h.setSize p (word (h.size p + h.size bp))).setPtr p (h.ptr bp)
  else h.setPtr p bp

/-- `free`. The loop goes round the list once at most; `none` would be a loop that does not end. -/
def free (h : Heap) (ap : ℕ) : Option Heap :=
  let bp := header ap
  (seek h.ptr (h.Stops bp) (h.brk + 1) h.freep).map fun p => ((h.linkNext bp p).linkPrev bp p).setFreep p

/-! ## `malloc` -/

/-- `sys_sbrk` and `growproc`: the argument is an `int`, and the old break is returned. The break rises if the kernel has
room for it; a negative argument lowers it, unless the sum wraps round to an address above. -/
def sbrk (room : ℕ) (h : Heap) (n : ℕ) : Option (Heap × ℕ) :=
  if n = 0 then some (h, h.brk)
  else if n < 2 ^ 31 then
    if h.brk + n ≤ room ∧ h.brk + n < KERNBASE then some (h.setBrk (h.brk + n), h.brk) else none
  else
    let newsz := word (h.brk + n)
    if h.brk ≤ newsz then some (h, h.brk)
    else if newsz = 0 then none
    else some (h.setBrk newsz, h.brk)

/-- `morecore`; the outer `none` is a `free` that does not end, the address 0 is the null pointer -/
def morecore (room : ℕ) (h : Heap) (nu : ℕ) : Option (Heap × ℕ) :=
  let nu := if nu < 4096 then 4096 else nu
  match sbrk room h (word (nu * 8)) with
  | none => some (h, 0)
  | some (h, hp) => (free (h.setSize hp nu) (padd hp 1)).map fun h => (h, h.freep)

/-- the block after `prevp` is large enough: unlink it, or cut the units off its tail -/
def Heap.take (h : Heap) (nunits prevp : ℕ) : Heap × ℕ :=
  let p := h.ptr prevp
  if h.size p = nunits then ((h.setPtr prevp (h.ptr p)).setFreep prevp, padd p 1)
  else
    let q := padd p (h.size p - nunits)
    (((h.setSize p (h.size p - nunits)).setSize q nunits).setFreep prevp, padd q 1)

/-- the loop of `malloc`, `p` being `prevp->s.ptr` at its head -/
def mallocLoop (room nunits : ℕ) : ℕ → Heap → ℕ → Option (Heap × ℕ)
  | 0, _, _ => none
  | fuel + 1, h, prevp =>
    let p := h.ptr prevp
    if nunits ≤ h.size p then some (h.take nunits prevp)
    else if p = h.freep then
      (morecore room h nunits).bind fun r => if r.2 = 0 then some (r.1, 0) else mallocLoop room nunits fuel r.1 r.2
    else mallocLoop room nunits fuel h p

/-- the units of a request, the header's included -/
def nunits (nbytes : ℕ) : ℕ := word (nbytes + 8 - 1) / 8 + 1

/-- the first call sets up the list of `base` alone -/
def Heap.start (base : ℕ) (h : Heap) : Heap :=
  if h.freep = 0 then ((h.setPtr base base).setSize base 0).setFreep base else h

/-- `malloc`. Twice round the list is enough; `none` would be a loop that does not end. -/
def malloc (base room : ℕ) (h : Heap) (nbytes : ℕ) : Option (Heap × ℕ) :=
  mallocLoop room (nunits nbytes) (2 * h.brk + 4) (h.start base) (h.start base).freep

/-! ## The blocks -/

/-- the free blocks `F` are linked in a ring through `base` in address order, none touches another, and the used blocks
`U` lie apart from them -/
structure Alloc (base lo : ℕ) (h : Heap) (F U : Finset ℕ) : Prop where
  ring : Ring h.ptr F
  freep : h.freep ∈ F
  blocks : Blocks base lo h.brk h.len F U
  spaced : Spaced h.len F
  base_pos : 0 < base
  lo_le : lo ≤ h.brk
  brk_lt : h.brk < KERNBASE

variable {base lo room p b : ℕ} {m m' : Heap} {F U : Finset ℕ}

theorem word_of_lt {n : ℕ} (hn : n < 2 ^ 32) : word n = n := Nat.mod_eq_of_lt hn

theorem padd_of_lt {n : ℕ} (hn : p + 8 * n < 2 ^ 32) : padd p n = p + 8 * n := word_of_lt hn

theorem header_eq (hb : b < 2 ^ 32) : header (b + 8) = b := by
  simp only [header, word]
  omega

theorem Alloc.lt_brk (h : Alloc base lo m F U) {a : ℕ} (ha : a ∈ F ∨ a ∈ U) : a < m.brk := by
  by_cases hab : a = base
  · exact hab ▸ h.blocks.base_lt.trans_le h.lo_le
  · have hpos := h.blocks.pos a ha hab
    have hhigh := h.blocks.high a ha
    omega

theorem Alloc.card_lt (h : Alloc base lo m F U) : F.card ≤ m.brk := by
  have hsub : F ⊆ Finset.range m.brk := fun a ha => Finset.mem_range.2 (h.lt_brk (.inl ha))
  exact (Finset.card_le_card hsub).trans (Finset.card_range _).le

/-- where a block ends, as the code computes it -/
theorem end_eq (h : Blocks base lo m.brk m.len F U) (hbrk : m.brk < KERNBASE) {a : ℕ} (ha : a ∈ F ∨ a ∈ U) :
    padd a (m.size a) = a + m.len a := by
  apply padd_of_lt
  have hhigh := h.high a ha
  simp only [Heap.len, KERNBASE] at hhigh hbrk
  omega

/-- two blocks of which one ends where the other begins have few units enough together -/
theorem sum_eq (h : Blocks base lo m.brk m.len F U) (hbrk : m.brk < KERNBASE) {a c : ℕ} (hc : c ∈ F ∨ c ∈ U)
    (hend : a + m.len a = c) : word (m.size a + m.size c) = m.size a + m.size c := by
  apply word_of_lt
  have hhigh := h.high c hc
  simp only [Heap.len, KERNBASE] at hhigh hbrk hend
  omega

theorem Heap.len_add (m : Heap) (a c : ℕ) : 8 * (m.size a + m.size c) = m.len a + m.len c := Nat.mul_add ..

/-! ## `free` puts the block back -/

/-- the loop of `free` finds the free block after which the new one belongs -/
theorem Alloc.seek (h : Alloc base lo m F U) (hb : b ∈ U) :
    ∃ p ∈ F, p < b ∧ (∀ c ∈ F, c ≤ p ∨ b < c) ∧ seek m.ptr (m.Stops b) (m.brk + 1) m.freep = some p := by
  have hne : ∀ c ∈ F, c ≠ b := fun c hc heq => h.blocks.disjoint c hc (heq ▸ hb)
  have hbase : base < b := h.blocks.base_lt.trans_le (h.blocks.low b (.inr hb) (h.blocks.ne_base hb))
  obtain ⟨q, hq, hqb, hmax⟩ := exists_below h.blocks.sentinel hbase
  have hstop : m.Stops b q := by
    obtain ⟨hn, ⟨hlt, -⟩ | ⟨hle, -⟩⟩ := h.ring q hq
    · refine .inl ⟨hqb, lt_of_le_of_ne ?_ (hne _ hn).symm⟩
      by_contra! hlt'
      exact absurd (hmax _ hn hlt') hlt.not_ge
    · exact .inr ⟨hle _ hn, .inl hqb⟩
  have hfuel : steps F q m.freep < m.brk + 1 := by
    have hsteps := steps_le (F := F) q m.freep
    have hcard := h.card_lt
    omega
  obtain ⟨p, hp, hPp, hseek⟩ := h.ring.seek hq hstop h.freep hfuel
  -- whatever made the loop stop, `p` is the greatest free block below `b`
  obtain ⟨hn, hafter⟩ := h.ring p hp
  have hpb : p < b := by
    rcases hPp with ⟨hlt, -⟩ | ⟨hle, hlt | hlt⟩
    · exact hlt
    · exact hlt
    · rcases hafter with ⟨hlt', -⟩ | ⟨-, hmin⟩
      · exact absurd hle hlt'.not_ge
      · exact absurd (hbase.trans hlt) (hmin base h.blocks.sentinel).not_gt
  refine ⟨p, hp, hpb, fun c hc => ?_, hseek⟩
  by_contra! hcon
  obtain ⟨hpc, hcb⟩ := hcon
  rcases hafter with ⟨hlt, hmin⟩ | ⟨hle, -⟩
  · rcases hPp with ⟨-, hbn⟩ | ⟨hle, -⟩
    · exact absurd (hmin c hc hpc) (by omega)
    · exact absurd hle hlt.not_ge
  · exact absurd (hle c hc) hpc.not_ge

/-- half way through `free`: the ring would be whole if `p` pointed to the new block, and only these two may touch -/
structure Half (base lo : ℕ) (h : Heap) (p b : ℕ) (F U : Finset ℕ) : Prop where
  pred : p ∈ F
  new : b ∈ F
  lt : p < b
  ring : Ring (Function.update h.ptr p b) F
  blocks : Blocks base lo h.brk h.len F U
  spaced : SpacedBut p b h.len F
  base_pos : 0 < base
  lo_le : lo ≤ h.brk
  brk_lt : h.brk < KERNBASE

theorem Alloc.linkNext (h : Alloc base lo m F U) (hb : b ∈ U) (hp : p ∈ F) (hpb : p < b) (hgap : ∀ c ∈ F, c ≤ p ∨ b < c) :
    ∃ F' ⊆ insert b F, Half base lo (m.linkNext b p) p b F' (U.erase b) ∧ m.size b ≤ (m.linkNext b p).size b ∧
      (∀ u, u ≠ b → (m.linkNext b p).size u = m.size u) ∧ Kept 8 base m.len F U (m.linkNext b p).len F' (U.erase b) := by
  have hblocks := h.blocks.release hb
  have hkept : Kept 8 base m.len F U m.len (insert b F) (U.erase b) := release_kept hb
  have hbF : b ∉ F := fun hbF => h.blocks.disjoint b hbF hb
  have hring := h.ring.insert hp hpb hgap
  have hq := h.ring.mem hp
  have hqb : m.ptr p ≠ b := fun heq => hbF (heq ▸ hq)
  unfold Heap.linkNext
  rw [end_eq h.blocks h.brk_lt (.inr hb)]
  split
  · rename_i hend
    have hpq : m.ptr p ≠ p := fun heq => by omega
    have hbne : b ≠ base := h.blocks.ne_base hb
    rw [sum_eq h.blocks h.brk_lt (.inl hq) hend]
    refine ⟨(insert b F).erase (m.ptr p), Finset.erase_subset .., ⟨Finset.mem_erase.2 ⟨hpq.symm, Finset.mem_insert_of_mem hp⟩,
      Finset.mem_erase.2 ⟨hqb.symm, Finset.mem_insert_self b F⟩, hpb, ?_, ?_, ?_, h.base_pos, h.lo_le, h.brk_lt⟩,
      ?_, fun u hu => ?_, ?_⟩
    · have hnext : update (update m.ptr b (m.ptr p)) p b b = m.ptr p := by
        rw [update_of_ne hpb.ne', update_self]
      have herase := hring.erase (Finset.mem_insert_self b F) (hnext.trans_ne hqb)
      rw [hnext, update_of_ne hpq, update_of_ne hqb] at herase
      apply herase.congr
      intro a _
      simp only [Heap.ptr_setPtr, Heap.ptr_setSize, update_apply]
      split_ifs <;> first | rfl | omega
    · rw [Heap.len_setPtr, Heap.len_setSize, Heap.len_add]
      exact hblocks.join (Finset.mem_insert_self b F) hbne (Finset.mem_insert_of_mem hq) hend
    · rw [Heap.len_setPtr, Heap.len_setSize, Heap.len_add]
      exact h.spaced.joinNext hblocks hp hpb hgap hq hend
    · rw [Heap.size_setPtr, Heap.size_setSize, update_self]
      exact Nat.le_add_right ..
    · rw [Heap.size_setPtr, Heap.size_setSize, update_of_ne hu]
    · rw [Heap.len_setPtr, Heap.len_setSize, Heap.len_add]
      exact hkept.trans (join_kept (Finset.mem_insert_self b F) (Finset.mem_insert_of_mem hq) hend hqb.symm
        (hblocks.disjoint _ (Finset.mem_insert_of_mem hq)))
  · rename_i hend
    refine ⟨insert b F, subset_rfl, ⟨Finset.mem_insert_of_mem hp, Finset.mem_insert_self b F, hpb, ?_, ?_, ?_, h.base_pos,
      h.lo_le, h.brk_lt⟩, ?_, fun u hu => ?_, ?_⟩
    · rw [Heap.ptr_setPtr]
      exact hring
    · rw [Heap.len_setPtr]
      exact hblocks
    · rw [Heap.len_setPtr]
      refine h.spaced.put hblocks hp hpb hgap fun hmem => ?_
      -- a free block that begins where the new one ends would be the one after `p`
      have hpos := h.blocks.pos b (.inr hb) (h.blocks.ne_base hb)
      obtain ⟨-, ⟨hlt, hmin⟩ | ⟨hmax, -⟩⟩ := h.ring p hp
      · have hle := hmin _ hmem (by omega)
        have hge := h.blocks.order b (m.ptr p) (.inr hb) (.inl hq) ((hgap _ hq).resolve_left hlt.not_ge)
        omega
      · have hle := hmax _ hmem
        omega
    · rw [Heap.size_setPtr]
    · rw [Heap.size_setPtr]
    · rw [Heap.len_setPtr]
      exact hkept

theorem Half.linkPrev (h : Half base lo m p b F U) : ∃ F' ⊆ F, Alloc base lo ((m.linkPrev b p).setFreep p) F' U ∧
    (∃ a ∈ F', m.size b ≤ (m.linkPrev b p).size a) ∧ (∀ u ∈ U, (m.linkPrev b p).size u = m.size u) ∧
    Kept 8 base m.len F U (m.linkPrev b p).len F' U := by
  have hnext : update m.ptr p b p = b := update_self ..
  unfold Heap.linkPrev
  rw [end_eq h.blocks h.brk_lt (.inl h.pred)]
  split
  · rename_i hend
    have hpne : p ≠ base := fun heq => by
      have hlen := h.blocks.sentinel_len
      have hlt := h.lt
      rw [heq] at hend hlt
      omega
    rw [sum_eq h.blocks h.brk_lt (.inl h.new) hend]
    have hpF : p ∈ F.erase b := Finset.mem_erase.2 ⟨h.lt.ne, h.pred⟩
    refine ⟨F.erase b, Finset.erase_subset .., ⟨?_, hpF, ?_, ?_, h.base_pos, h.lo_le, h.brk_lt⟩, ⟨p, hpF, ?_⟩,
      fun u hu => ?_, ?_⟩
    · have herase := h.ring.erase h.pred (hnext.trans_ne h.lt.ne')
      rw [hnext, update_of_ne h.lt.ne', update_idem] at herase
      rw [Heap.ptr_setFreep, Heap.ptr_setPtr, Heap.ptr_setSize]
      exact herase
    · rw [Heap.len_setFreep, Heap.len_setPtr, Heap.len_setSize, Heap.len_add]
      exact h.blocks.join h.pred hpne h.new hend
    · rw [Heap.len_setFreep, Heap.len_setPtr, Heap.len_setSize, Heap.len_add]
      exact h.spaced.joinPrev h.new hend
    · rw [Heap.size_setPtr, Heap.size_setSize, update_self]
      exact Nat.le_add_left ..
    · have hup : u ≠ p := fun heq => h.blocks.disjoint p h.pred (heq ▸ hu)
      rw [Heap.size_setPtr, Heap.size_setSize, update_of_ne hup]
    · rw [Heap.len_setPtr, Heap.len_setSize, Heap.len_add]
      exact join_kept h.pred h.new hend h.lt.ne (h.blocks.disjoint b h.new)
  · rename_i hend
    refine ⟨F, subset_rfl, ⟨?_, h.pred, ?_, ?_, h.base_pos, h.lo_le, h.brk_lt⟩, ⟨b, h.new, ?_⟩, fun u _ => ?_, ?_⟩
    · rw [Heap.ptr_setFreep, Heap.ptr_setPtr]
      exact h.ring
    · rw [Heap.len_setFreep, Heap.len_setPtr]
      exact h.blocks
    · rw [Heap.len_setFreep, Heap.len_setPtr]
      exact h.spaced.spaced h.blocks hend
    · rw [Heap.size_setPtr]
    · rw [Heap.size_setPtr]
    · rw [Heap.len_setPtr]
      exact .rfl

@[simp] theorem Heap.brk_linkNext : (m.linkNext b p).brk = m.brk := by
  unfold linkNext
  split <;> rfl

@[simp] theorem Heap.brk_linkPrev : (m.linkPrev b p).brk = m.brk := by
  unfold linkPrev
  split <;> rfl

theorem free_eq {ap : ℕ} (hb : header ap = b) (hseek : seek m.ptr (m.Stops b) (m.brk + 1) m.freep = some p) :
    free m ap = some (((m.linkNext b p).linkPrev b p).setFreep p) := by
  subst hb
  simp only [free, hseek, Option.map_some]

/-- what `free` of the block at `b` does: it is among the free ones, alone or as part of another -/
structure Freed (base lo : ℕ) (m m' : Heap) (b : ℕ) (F F' U : Finset ℕ) : Prop where
  alloc : Alloc base lo m' F' (U.erase b)
  sub : F' ⊆ insert b F
  brk : m'.brk = m.brk
  back : ∃ a ∈ F', m.size b ≤ m'.size a
  keep : ∀ u ∈ U.erase b, m'.size u = m.size u

/-- `free` of a used block returns, and the blocks are made of the same bytes -/
theorem free_kept (h : Alloc base lo m F U) (hb : b ∈ U) : ∃ m' F', free m (b + 8) = some m' ∧ Freed base lo m m' b F F' U ∧
    Kept 8 base m.len F U m'.len F' (U.erase b) := by
  have hheader : header (b + 8) = b := by
    have hlt := h.lt_brk (.inr hb)
    have hbrk := h.brk_lt
    simp only [KERNBASE] at hbrk
    exact header_eq (by omega)
  obtain ⟨p, hp, hpb, hgap, hseek⟩ := h.seek hb
  obtain ⟨F1, hsub1, hhalf, hgrown, hsize1, hkept1⟩ := h.linkNext hb hp hpb hgap
  obtain ⟨F2, hsub2, halloc, ⟨a, ha, hback⟩, hsize2, hkept2⟩ := hhalf.linkPrev
  refine ⟨((m.linkNext b p).linkPrev b p).setFreep p, F2, free_eq hheader hseek,
    ⟨halloc, hsub2.trans hsub1, ?_, ⟨a, ha, hgrown.trans hback⟩, fun u hu => ?_⟩, hkept1.trans hkept2⟩
  · calc ((m.linkNext b p).linkPrev b p).brk = (m.linkNext b p).brk := Heap.brk_linkPrev
      _ = m.brk := Heap.brk_linkNext
  · calc ((m.linkNext b p).linkPrev b p).size u = (m.linkNext b p).size u := hsize2 u hu
      _ = m.size u := hsize1 u (Finset.ne_of_mem_erase hu)

/-- **`free` of a used block** returns, and the block is free. -/
theorem free_spec (h : Alloc base lo m F U) (hb : b ∈ U) : ∃ m' F', free m (b + 8) = some m' ∧ Freed base lo m m' b F F' U := by
  obtain ⟨m', F', hfree, hfreed, -⟩ := free_kept h hb
  exact ⟨m', F', hfree, hfreed⟩

/-! ## `malloc` takes a block out -/

/-- a block large enough is taken: the whole of it, or the units at its end -/
theorem Alloc.take (h : Alloc base lo m F U) {k : ℕ} (hk : 0 < k) (hp : p ∈ F) (hfit : k ≤ m.size (m.ptr p)) :
    ∃ b F', (m.take k p).2 = b + 8 ∧ b ∉ U ∧ Alloc base lo (m.take k p).1 F' (insert b U) ∧
      (m.take k p).1.size b = k ∧ (∀ u ∈ U, (m.take k p).1.size u = m.size u) ∧ Kept 8 base m.len F U (m.take k p).1.len F' (insert b U) := by
  have hq := h.ring.mem hp
  have hqU := h.blocks.disjoint _ hq
  have hqne : m.ptr p ≠ base := fun heq => by
    have hlen := h.blocks.sentinel_len
    rw [heq] at hfit
    simp only [Heap.len] at hlen
    omega
  have hbase := h.blocks.base_lt.trans_le (h.blocks.low _ (.inl hq) hqne)
  have hhigh := h.blocks.high _ (.inl hq)
  have hbrk := h.brk_lt
  have hpq : m.ptr p ≠ p := by
    intro heq
    obtain ⟨-, ⟨hlt, -⟩ | ⟨-, hmin⟩⟩ := h.ring p hp
    · exact hlt.ne' heq
    · exact absurd (hmin base h.blocks.sentinel) hbase.not_ge
  simp only [Heap.len, KERNBASE] at hhigh hbrk
  by_cases hexact : m.size (m.ptr p) = k
  · have htake : m.take k p = ((m.setPtr p (m.ptr (m.ptr p))).setFreep p, padd (m.ptr p) 1) := if_pos hexact
    rw [htake]
    refine ⟨m.ptr p, F.erase (m.ptr p), padd_of_lt (by omega), hqU, ⟨?_, Finset.mem_erase.2 ⟨hpq.symm, hp⟩, ?_, ?_,
      h.base_pos, h.lo_le, h.brk_lt⟩, ?_, fun u _ => ?_, ?_⟩
    · rw [Heap.ptr_setFreep, Heap.ptr_setPtr]
      exact h.ring.erase hp hpq
    · rw [Heap.len_setFreep, Heap.len_setPtr]
      exact h.blocks.take hq hqne
    · rw [Heap.len_setFreep, Heap.len_setPtr]
      exact h.spaced.mono (F.erase_subset (m.ptr p)) fun a _ => le_rfl
    · rw [Heap.size_setFreep, Heap.size_setPtr]
      exact hexact
    · rw [Heap.size_setFreep, Heap.size_setPtr]
    · rw [Heap.len_setFreep, Heap.len_setPtr]
      exact take_kept hq
  · obtain ⟨j, hj⟩ : ∃ j, m.size (m.ptr p) = j + k := ⟨m.size (m.ptr p) - k, by omega⟩
    have hcut : padd (m.ptr p) (m.size (m.ptr p) - k) = m.ptr p + 8 * j := by
      rw [hj, Nat.add_sub_cancel]
      exact padd_of_lt (by omega)
    have htake : m.take k p =
        (((m.setSize (m.ptr p) j).setSize (m.ptr p + 8 * j) k).setFreep p, padd (m.ptr p + 8 * j) 1) := by
      rw [← hcut]
      unfold Heap.take
      rw [if_neg hexact, hj, Nat.add_sub_cancel]
    have hlen : m.len (m.ptr p) - 8 * j = 8 * k := by
      simp only [Heap.len]
      omega
    have hsplit := h.blocks.split hq (k := 8 * j) (by omega) (by simp only [Heap.len]; omega)
    have hkept := h.blocks.split_kept hq (k := 8 * j) (by omega) (by simp only [Heap.len]; omega) (Nat.dvd_mul_right 8 j)
    rw [hlen] at hsplit hkept
    have hnew : m.ptr p + 8 * j ∉ U := fun hmem => by
      have horder := h.blocks.order _ _ (.inl hq) (.inr hmem) (by omega)
      simp only [Heap.len] at horder
      omega
    have hnewF : m.ptr p + 8 * j ∉ F := fun hmem => hsplit.disjoint _ hmem (Finset.mem_insert_self ..)
    rw [htake]
    refine ⟨m.ptr p + 8 * j, F, padd_of_lt (by omega), hnew, ⟨?_, hp, ?_, ?_, h.base_pos, h.lo_le, h.brk_lt⟩, ?_,
      fun u hu => ?_, ?_⟩
    · rw [Heap.ptr_setFreep, Heap.ptr_setSize, Heap.ptr_setSize]
      exact h.ring
    · rw [Heap.len_setFreep, Heap.len_setSize, Heap.len_setSize]
      exact hsplit
    · rw [Heap.len_setFreep, Heap.len_setSize, Heap.len_setSize]
      refine h.spaced.mono subset_rfl fun a ha => ?_
      have hane : a ≠ m.ptr p + 8 * j := fun heq => hnewF (heq ▸ ha)
      rw [update_of_ne hane]
      by_cases hap : a = m.ptr p
      · subst hap
        rw [update_self]
        simp only [Heap.len]
        omega
      · rw [update_of_ne hap]
    · rw [Heap.size_setFreep, Heap.size_setSize, update_self]
    · have huq : u ≠ m.ptr p := fun heq => hqU (heq ▸ hu)
      have hun : u ≠ m.ptr p + 8 * j := fun heq => hnew (heq ▸ hu)
      rw [Heap.size_setFreep, Heap.size_setSize, update_of_ne hun, Heap.size_setSize, update_of_ne huq]
    · rw [Heap.len_setFreep, Heap.len_setSize, Heap.len_setSize]
      exact hkept

/-! ## `malloc` finds a block -/

/-- the search from `prevp` on: the block before one that is large enough, or the rounds left when the search is back at `freep` -/
def Heap.scan (k : ℕ) (m : Heap) : ℕ → ℕ → Option (ℕ ⊕ ℕ)
  | 0, _ => none
  | fuel + 1, prevp =>
    if k ≤ m.size (m.ptr prevp) then some (.inl prevp)
    else if m.ptr prevp = m.freep then some (.inr fuel)
    else m.scan k fuel (m.ptr prevp)

/-- the loop of `malloc` is a search, and memory is asked for when it has found nothing -/
theorem mallocLoop_scan (room k fuel : ℕ) (m : Heap) (p : ℕ) : mallocLoop room k fuel m p =
    (m.scan k fuel p).bind (Sum.elim (fun q => some (m.take k q)) fun fuel' => (morecore room m k).bind fun r =>
      if r.2 = 0 then some (r.1, 0) else mallocLoop room k fuel' r.1 r.2) := by
  induction fuel generalizing p with
  | zero => rfl
  | succ fuel ih =>
    by_cases hfit : k ≤ m.size (m.ptr p)
    · rw [mallocLoop, if_pos hfit, Heap.scan, if_pos hfit]
      rfl
    by_cases hround : m.ptr p = m.freep
    · rw [mallocLoop, if_neg hfit, if_pos hround, Heap.scan, if_neg hfit, if_pos hround]
      rfl
    · rw [mallocLoop, if_neg hfit, if_neg hround, Heap.scan, if_neg hfit, if_neg hround]
      exact ih _

/-- some free block is large enough: the search comes to one before it is back at `freep` -/
theorem Alloc.found (h : Alloc base lo m F U) {k a fuel : ℕ} (ha : a ∈ F) (hfit : k ≤ m.size a) (hfuel : F.card < fuel) :
    ∃ q ∈ F, k ≤ m.size (m.ptr q) ∧ m.scan k fuel m.freep = some (.inl q) := by
  obtain ⟨b, hb, hba⟩ := h.ring.pred ha
  -- from a place no further from `b` than `freep` is
  have key : ∀ fuel p, p ∈ F → steps F b p ≤ steps F b m.freep → steps F b p < fuel →
      ∃ q ∈ F, k ≤ m.size (m.ptr q) ∧ m.scan k fuel p = some (.inl q) := by
    intro fuel
    induction fuel with
    | zero => exact fun p _ _ hlt => absurd hlt (Nat.not_lt_zero _)
    | succ fuel ih =>
      intro p hp hle hlt
      by_cases hpfit : k ≤ m.size (m.ptr p)
      · exact ⟨p, hp, hpfit, if_pos hpfit⟩
      · have hpb : p ≠ b := fun heq => hpfit (by rw [heq, hba]; exact hfit)
        have hnear := h.ring.steps_lt hp hb hpb
        have hround : m.ptr p ≠ m.freep := fun heq => by
          rw [heq] at hnear
          omega
        obtain ⟨q, hq, hqfit, hscan⟩ := ih (m.ptr p) (h.ring.mem hp) (by omega) (by omega)
        refine ⟨q, hq, hqfit, ?_⟩
        calc m.scan k (fuel + 1) p = m.scan k fuel (m.ptr p) := by
              rw [Heap.scan, if_neg hpfit, if_neg hround]
          _ = some (.inl q) := hscan
  exact key fuel m.freep h.freep le_rfl ((steps_le b m.freep).trans_lt hfuel)

/-- no free block is large enough: the search goes round once -/
theorem Alloc.notFound (h : Alloc base lo m F U) {k : ℕ} (hfit : ∀ a ∈ F, m.size a < k) (fuel : ℕ) :
    ∃ fuel' ≥ fuel, m.scan k (F.card + 1 + fuel) m.freep = some (.inr fuel') := by
  obtain ⟨b, hb, hback⟩ := h.ring.pred h.freep
  have key : ∀ n p, p ∈ F → steps F b p < n → ∃ fuel' ≥ fuel, m.scan k (n + fuel) p = some (.inr fuel') := by
    intro n
    induction n with
    | zero => exact fun p _ hlt => absurd hlt (Nat.not_lt_zero _)
    | succ n ih =>
      intro p hp hlt
      have hpfit : ¬ k ≤ m.size (m.ptr p) := (hfit _ (h.ring.mem hp)).not_ge
      rw [Nat.add_right_comm, Heap.scan, if_neg hpfit]
      by_cases hround : m.ptr p = m.freep
      · exact ⟨n + fuel, Nat.le_add_left .., if_pos hround⟩
      · have hnear := h.ring.steps_lt hp hb fun heq => hround (heq ▸ hback)
        obtain ⟨fuel', hge, hscan⟩ := ih (m.ptr p) (h.ring.mem hp) (by omega)
        exact ⟨fuel', hge, (if_neg hround).trans hscan⟩
  exact key (F.card + 1) m.freep h.freep (Nat.lt_succ_of_le (steps_le b m.freep))

/-- within the rounds of `malloc` the search ends, at a block or back at `freep` with rounds enough for a second search -/
theorem Alloc.search (h : Alloc base lo m F U) (k : ℕ) :
    (∃ q ∈ F, k ≤ m.size (m.ptr q) ∧ m.scan k (2 * m.brk + 4) m.freep = some (.inl q)) ∨
      ∃ fuel, F.card + 1 < fuel ∧ m.scan k (2 * m.brk + 4) m.freep = some (.inr fuel) := by
  have hcard := h.card_lt
  by_cases hfit : ∃ a ∈ F, k ≤ m.size a
  · obtain ⟨a, ha, hfit⟩ := hfit
    exact .inl (h.found ha hfit (by omega))
  · push Not at hfit
    obtain ⟨fuel, hfuel, hscan⟩ := h.notFound hfit (2 * m.brk + 3 - F.card)
    have hsum : F.card + 1 + (2 * m.brk + 3 - F.card) = 2 * m.brk + 4 := by omega
    rw [hsum] at hscan
    exact .inr ⟨fuel, by omega, hscan⟩

/-- the blocks are made of the bytes they had and of those between the old break and the new one -/
structure Grown (base : ℕ) (m : Heap) (F U : Finset ℕ) (m' : Heap) (F' U' : Finset ℕ) : Prop where
  brk : 8 ∣ m.brk → 8 ∣ m'.brk
  covers : ∀ x, Covers m'.len F' U' x ↔ Covers m.len F U x ∨ x ∈ Set.Ico m.brk m'.brk
  aligned : 8 ∣ m.brk → Aligned 8 base F U → Aligned 8 base F' U'

theorem Grown.of_kept {F' U' : Finset ℕ} (h : Kept 8 base m.len F U m'.len F' U') (hbrk : m'.brk = m.brk) : Grown base m F U m' F' U' := by
  refine ⟨fun hd => hbrk ▸ hd, fun x => ?_, fun _ => h.aligned⟩
  rw [h.covers, hbrk, Set.Ico_self]
  exact (or_iff_left id).symm

theorem Grown.trans_kept {m1 : Heap} {F1 U1 F' U' : Finset ℕ} (h : Grown base m F U m1 F1 U1)
    (hk : Kept 8 base m1.len F1 U1 m'.len F' U') (hbrk : m'.brk = m1.brk) : Grown base m F U m' F' U' := by
  refine ⟨fun hd => hbrk ▸ h.brk hd, fun x => ?_, fun hd ha => hk.aligned (h.aligned hd ha)⟩
  rw [hk.covers, h.covers, hbrk]

variable (room) in
/-- what `morecore` does: the null pointer and nothing changed, or a free block of the size asked for -/
theorem morecore_spec (h : Alloc base lo m F U) {k : ℕ} (hk : 8 * k < 2 ^ 31) :
    morecore room m k = some (m, 0) ∨ ∃ m' F', morecore room m k = some (m', m'.freep) ∧ Alloc base lo m' F' U ∧
      F'.card ≤ F.card + 1 ∧ (∃ a ∈ F', k ≤ m'.size a) ∧ (∀ u ∈ U, m'.size u = m.size u) ∧ Grown base m F U m' F' U := by
  obtain ⟨nu, hnu⟩ : ∃ nu, (if k < 4096 then 4096 else k) = nu := ⟨_, rfl⟩
  have hbig : k ≤ nu ∧ 4096 ≤ nu ∧ nu * 8 < 2 ^ 31 := by
    split_ifs at hnu <;> omega
  have hword : word (nu * 8) = nu * 8 := word_of_lt (by omega)
  have hnew : m.brk ∉ U := fun hmem => (h.lt_brk (.inr hmem)).false
  have hnewF : m.brk ∉ F := fun hmem => (h.lt_brk (.inl hmem)).false
  unfold morecore
  simp only [hnu, hword]
  by_cases hroom : m.brk + nu * 8 ≤ room ∧ m.brk + nu * 8 < KERNBASE
  · have hsbrk : sbrk room m (nu * 8) = some (m.setBrk (m.brk + nu * 8), m.brk) := by
      rw [sbrk, if_neg (by omega), if_pos hbig.2.2, if_pos hroom]
    -- the new memory is a used block until it is freed
    have hgrow : Alloc base lo ((m.setBrk (m.brk + nu * 8)).setSize m.brk nu) F (insert m.brk U) := by
      refine ⟨?_, h.freep, ?_, ?_, h.base_pos, h.lo_le.trans (Nat.le_add_right ..), hroom.2⟩
      · rw [Heap.ptr_setSize, Heap.ptr_setBrk]
        exact h.ring
      · rw [Heap.len_setSize, Heap.len_setBrk, Heap.brk_setSize, Heap.brk_setBrk, Nat.mul_comm nu 8]
        exact h.blocks.grow h.lo_le (by omega)
      · rw [Heap.len_setSize, Heap.len_setBrk]
        refine h.spaced.mono subset_rfl fun a ha => ?_
        rw [update_of_ne (ne_of_mem_of_not_mem ha hnewF)]
    have hpadd : padd m.brk 1 = m.brk + 8 := by
      have hbrk := h.brk_lt
      simp only [KERNBASE] at hbrk
      exact padd_of_lt (by omega)
    obtain ⟨m', F', hfree, hfreed, hkept⟩ := free_kept hgrow (Finset.mem_insert_self ..)
    have halloc := hfreed.alloc
    have hkeep := hfreed.keep
    have hbrk : m'.brk = m.brk + nu * 8 := hfreed.brk
    rw [Finset.erase_insert hnew] at halloc hkeep hkept
    refine .inr ⟨m', F', ?_, halloc, ?_, ?_, fun u hu => ?_, ⟨fun hd => ?_, fun x => ?_, fun hd ha => hkept.aligned ?_⟩⟩
    · rw [hsbrk]
      simp only [hpadd, hfree, Option.map_some]
    · calc F'.card ≤ (insert m.brk F).card := Finset.card_le_card hfreed.sub
        _ ≤ F.card + 1 := Finset.card_insert_le ..
    · obtain ⟨a, ha, hback⟩ := hfreed.back
      rw [Heap.size_setSize, update_self] at hback
      exact ⟨a, ha, hbig.1.trans hback⟩
    · rw [hkeep u hu, Heap.size_setSize, Heap.size_setBrk, update_of_ne (ne_of_mem_of_not_mem hu hnew)]
    · rw [hbrk]
      exact Dvd.dvd.add hd (Nat.dvd_mul_left 8 nu)
    · rw [hkept.covers, Heap.len_setSize, Heap.len_setBrk, covers_grow (not_or.2 ⟨hnewF, hnew⟩), hbrk, Nat.mul_comm nu 8]
    · rintro a (ha' | ha') hne
      · exact ha a (.inl ha') hne
      · rcases Finset.mem_insert.1 ha' with rfl | ha'
        · exact hd
        · exact ha a (.inr ha') hne
  · have hsbrk : sbrk room m (nu * 8) = none := by
      rw [sbrk, if_neg (by omega), if_pos hbig.2.2, if_neg hroom]
    rw [hsbrk]
    exact .inl rfl

/-- before the first `malloc` there is nothing, and from then on the blocks are in order -/
def Ready (base lo : ℕ) (m : Heap) (U : Finset ℕ) : Prop :=
  (m.freep = 0 ∧ U = ∅ ∧ 0 < base ∧ base < lo ∧ lo ≤ m.brk ∧ m.brk < KERNBASE) ∨ ∃ F, Alloc base lo m F U

theorem Heap.start_of_ne (hne : m.freep ≠ 0) : m.start base = m := if_neg hne

/-- after the first call `base` is alone in the list -/
theorem start_alloc (hfreep : m.freep = 0) (hpos : 0 < base) (hlt : base < lo) (hlo : lo ≤ m.brk) (hbrk : m.brk < KERNBASE) :
    Alloc base lo (m.start base) {base} ∅ ∧ (m.start base).len base = 0 := by
  have hstart : m.start base = ((m.setPtr base base).setSize base 0).setFreep base := if_pos hfreep
  have hlen : ((m.setPtr base base).setSize base 0).len base = 0 := by
    rw [Heap.len_setSize, update_self]
  have hmem : ∀ a, a ∈ ({base} : Finset ℕ) ∨ a ∈ (∅ : Finset ℕ) → a = base := by simp
  rw [hstart]
  refine ⟨⟨?_, Finset.mem_singleton_self base, ?_, ?_, hpos, hlo, hbrk⟩, hlen⟩
  · apply Ring.singleton
    rw [Heap.ptr_setFreep, Heap.ptr_setSize, Heap.ptr_setPtr, update_self]
  · rw [Heap.len_setFreep]
    refine ⟨Finset.mem_singleton_self base, hlen, by simp, hlt, fun a ha hne => absurd (hmem a ha) hne,
      fun a ha hne => absurd (hmem a ha) hne, fun a ha => ?_, fun a b ha hb hab => ?_⟩
    · rw [hmem a ha, hlen]
      exact (hlt.trans_le hlo).le
    · rw [hmem a ha, hmem b hb] at hab
      exact absurd hab (lt_irrefl _)
  · intro a ha b hb hab
    rw [Finset.mem_singleton.1 ha, Finset.mem_singleton.1 hb] at hab
    exact absurd hab (lt_irrefl _)

theorem Alloc.freep_ne (h : Alloc base lo m F U) : m.freep ≠ 0 := by
  have hle := h.blocks.base_le (.inl h.freep)
  have hpos := h.base_pos
  omega

theorem Ready.start (h : Ready base lo m U) : ∃ F, Alloc base lo (m.start base) F U ∧ (m.start base).brk = m.brk ∧
    ∀ u ∈ U, (m.start base).size u = m.size u := by
  rcases h with ⟨hfreep, rfl, hpos, hlt, hlo, hbrk⟩ | ⟨F, h⟩
  · refine ⟨{base}, (start_alloc hfreep hpos hlt hlo hbrk).1, ?_, by simp⟩
    unfold Heap.start
    rw [if_pos hfreep]
    rfl
  · rw [Heap.start_of_ne h.freep_ne]
    exact ⟨F, h, rfl, fun _ _ => rfl⟩

theorem nunits_pos (nbytes : ℕ) : 0 < nunits nbytes := Nat.succ_pos _

/-- what `malloc` returns: the null pointer, or a block that was not in use, with the units asked for -/
inductive Malloced (base lo nbytes : ℕ) (U : Finset ℕ) (m' : Heap) : ℕ → Prop
  | null (F : Finset ℕ) (alloc : Alloc base lo m' F U) : Malloced base lo nbytes U m' 0
  | block (F : Finset ℕ) (b : ℕ) (fresh : b ∉ U) (alloc : Alloc base lo m' F (insert b U)) (size : m'.size b = nunits nbytes) :
    Malloced base lo nbytes U m' (b + 8)

/-- the same, with the free blocks `F` and the used blocks that there are afterwards -/
inductive Gives (base lo nbytes : ℕ) (U : Finset ℕ) (m' : Heap) (F : Finset ℕ) : Finset ℕ → ℕ → Prop
  | null (alloc : Alloc base lo m' F U) : Gives base lo nbytes U m' F U 0
  | block (b : ℕ) (fresh : b ∉ U) (alloc : Alloc base lo m' F (insert b U)) (size : m'.size b = nunits nbytes) :
    Gives base lo nbytes U m' F (insert b U) (b + 8)

@[simp] theorem Heap.brk_take (m : Heap) (k p : ℕ) : (m.take k p).1.brk = m.brk := by
  unfold take
  dsimp only
  split <;> rfl

/-- the block that the search has found is taken -/
theorem Alloc.gives (h : Alloc base lo m F U) {nbytes q : ℕ} (hq : q ∈ F) (hfit : nunits nbytes ≤ m.size (m.ptr q)) :
    ∃ F' U', Gives base lo nbytes U (m.take (nunits nbytes) q).1 F' U' (m.take (nunits nbytes) q).2 ∧
      (∀ u ∈ U, (m.take (nunits nbytes) q).1.size u = m.size u) ∧ Kept 8 base m.len F U (m.take (nunits nbytes) q).1.len F' U' := by
  obtain ⟨b, F', hap, hfresh, halloc, hsize, hkeep, hkept⟩ := h.take (nunits_pos nbytes) hq hfit
  refine ⟨F', insert b U, ?_, hkeep, hkept⟩
  rw [hap]
  exact .block b hfresh halloc hsize

variable (room) in
/-- the loop of `malloc` returns the null pointer or a block, from whichever blocks there are -/
theorem Alloc.loop (h : Alloc base lo m F U) {nbytes : ℕ} (hsmall : 8 * nunits nbytes < 2 ^ 31) :
    ∃ m' F' U' ap, mallocLoop room (nunits nbytes) (2 * m.brk + 4) m m.freep = some (m', ap) ∧
      Gives base lo nbytes U m' F' U' ap ∧ (∀ u ∈ U, m'.size u = m.size u) ∧ Grown base m F U m' F' U' := by
  rw [mallocLoop_scan]
  rcases h.search (nunits nbytes) with ⟨q, hq, hfit, hscan⟩ | ⟨fuel, hfuel, hscan⟩
  · obtain ⟨F', U', hgives, hkeep, hkept⟩ := h.gives hq hfit
    rw [hscan]
    exact ⟨_, F', U', _, rfl, hgives, hkeep, .of_kept hkept (Heap.brk_take m _ q)⟩
  · rw [hscan]
    rcases morecore_spec room h hsmall with hmore | ⟨m1, F1, hmore, halloc1, hcard1, ⟨a, ha, hfit1⟩, hkeep1, hgrown⟩
    · refine ⟨m, F, U, 0, ?_, .null h, fun _ _ => rfl, .of_kept .rfl rfl⟩
      simp only [Option.bind_some, Sum.elim_inr, hmore, if_true]
    · obtain ⟨q, hq, hfit, hscan1⟩ := halloc1.found ha hfit1 (show F1.card < fuel by omega)
      obtain ⟨F', U', hgives, hkeep, hkept⟩ := halloc1.gives hq hfit
      refine ⟨_, F', U', _, ?_, hgives, fun u hu => (hkeep u hu).trans (hkeep1 u hu),
        hgrown.trans_kept hkept (Heap.brk_take m1 _ q)⟩
      rw [Option.bind_some, Sum.elim_inr, hmore, Option.bind_some, if_neg halloc1.freep_ne, mallocLoop_scan, hscan1]
      rfl

variable (room) in
/-- **`malloc`** returns the null pointer or a block apart from every used one, and leaves the used ones as they are. -/
theorem malloc_spec (h : Ready base lo m U) {nbytes : ℕ} (hsmall : 8 * nunits nbytes < 2 ^ 31) :
    ∃ m' ap, malloc base room m nbytes = some (m', ap) ∧ Malloced base lo nbytes U m' ap ∧ ∀ u ∈ U, m'.size u = m.size u := by
  obtain ⟨F, halloc, hbrk, hstart⟩ := h.start
  obtain ⟨m', F', U', ap, hloop, hgives, hkeep, -⟩ := halloc.loop room hsmall
  rw [hbrk] at hloop
  refine ⟨m', ap, hloop, ?_, fun u hu => (hkeep u hu).trans (hstart u hu)⟩
  cases hgives with
  | null hnull => exact .null F' hnull
  | block b hfresh hblock hsize => exact .block F' b hfresh hblock hsize

end Xv6.Umalloc
