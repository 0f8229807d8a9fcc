/-
Runs of the user library's allocator: any sequence of `malloc` and of `free` of blocks that have been returned and not freed, from a
process whose list is not set up yet.

`sbrk` grants what the kernel has room for, which may be nothing, at the break. Between the calls the break may be raised by anybody
else, so that memory that is granted lies anywhere above what has been granted before.

History, which the code does not read: `live` are the blocks that callers have, with what they asked for, `got` the stretches of memory
that `malloc` has got from `sbrk`, and `spins` says that a call has not returned.
-/
import Xv6.Core.Run
import Xv6.User.Umalloc

namespace Xv6.Allocator

open Xv6.Core Xv6.Umalloc
open Xv6.Kernel (KERNBASE)

/-! ## Model -/

structure St where
  heap : Heap
  live : List (ℕ × ℕ)
  got : List (ℕ × ℕ)
  spins : Bool

inductive Op
  /-- the kernel has memory up to `room` -/
  | malloc (room nbytes : ℕ)
  | free (ap : ℕ)
  /-- somebody else raises the break -/
  | sbrk (brk : ℕ)

/-- a call of `malloc` has returned `r.2` -/
def St.malloced (s : St) (nbytes : ℕ) (r : Heap × ℕ) : St :=
  { s with
    heap := r.1
    live := if r.2 = 0 then s.live else (r.2, nbytes) :: s.live
    got := (s.heap.brk, r.1.brk) :: s.got }

def St.freed (s : St) (ap : ℕ) (m : Heap) : St := { s with heap := m, live := s.live.filter fun x => x.1 ≠ ap }

def St.spin (s : St) : St := { s with spins := true }

def step (base : ℕ) (s : St) : Op → St
  | .malloc room nbytes => (malloc base room s.heap nbytes).elim s.spin (s.malloced nbytes)
  | .free ap => (free s.heap ap).elim s.spin (s.freed ap)
  | .sbrk brk => { s with heap := s.heap.setBrk brk }

/-- no call has been made -/
def init (mem : ℕ → Header) (brk : ℕ) : St := ⟨⟨mem, 0, brk⟩, [], [], false⟩

/-- requests are small, only live blocks are freed, and the break stays aligned and below the kernel -/
def Ok (s : St) : Op → Prop
  | .malloc _ nbytes => 8 * ((nbytes + 8 - 1) / 8 + 1) < 2 ^ 31
  | .free ap => ap ∈ s.live.map Prod.fst
  | .sbrk brk => s.heap.brk ≤ brk ∧ brk < KERNBASE ∧ 8 ∣ brk

instance Ok.decidable (s : St) : ∀ op, Decidable (Ok s op)
  | .malloc _ nbytes => inferInstanceAs (Decidable (8 * ((nbytes + 8 - 1) / 8 + 1) < 2 ^ 31))
  | .free ap => inferInstanceAs (Decidable (ap ∈ s.live.map Prod.fst))
  | .sbrk brk => inferInstanceAs (Decidable (s.heap.brk ≤ brk ∧ brk < KERNBASE ∧ 8 ∣ brk))

/-! ## Invariant -/

/-- the list is set up, or there is nothing yet -/
def Listed (base lo : ℕ) (m : Heap) (F U : Finset ℕ) : Prop :=
  (m.freep = 0 ∧ F = ∅ ∧ U = ∅ ∧ 0 < base ∧ base < lo ∧ lo ≤ m.brk ∧ m.brk < KERNBASE) ∨ Alloc base lo m F U

/-- `F` are the free blocks and `U` the used ones -/
structure Inv (base lo : ℕ) (s : St) (F U : Finset ℕ) : Prop where
  listed : Listed base lo s.heap F U
  live : ∀ x ∈ s.live, ∃ b ∈ U, x.1 = b + 8 ∧ x.2 + 8 ≤ s.heap.len b
  used : ∀ b ∈ U, b + 8 ∈ s.live.map Prod.fst
  nodup : (s.live.map Prod.fst).Nodup
  brk : 8 ∣ s.heap.brk
  aligned : Aligned 8 base F U
  got : ∀ x, Covers s.heap.len F U x ↔ ∃ r ∈ s.got, x ∈ Set.Ico r.1 r.2
  returns : s.spins = false

variable {base lo room nbytes : ℕ} {s : St} {F U : Finset ℕ}

theorem init_inv (mem : ℕ → Header) (hpos : 0 < base) (hlt : base < lo) (hlo : lo < KERNBASE) (hd : 8 ∣ lo) :
    Inv base lo (init mem lo) ∅ ∅ := by
  refine ⟨.inl ⟨rfl, rfl, rfl, hpos, hlt, le_rfl, hlo⟩, nofun, nofun, List.nodup_nil, hd, nofun, fun x => ⟨?_, nofun⟩, rfl⟩
  rintro ⟨a, ha | ha, -⟩ <;> cases ha

/-- what the first call sets up has no bytes -/
theorem Inv.start (h : Inv base lo s F U) : ∃ F', Alloc base lo (s.heap.start base) F' U ∧ Aligned 8 base F' U ∧
    (∀ x, Covers (s.heap.start base).len F' U x ↔ Covers s.heap.len F U x) ∧ (s.heap.start base).brk = s.heap.brk ∧
    ∀ u ∈ U, (s.heap.start base).len u = s.heap.len u := by
  rcases h.listed with ⟨hfreep, rfl, rfl, hpos, hlt, hlo, hbrk⟩ | halloc
  · obtain ⟨halloc, hlen⟩ := start_alloc hfreep hpos hlt hlo hbrk
    refine ⟨{base}, halloc, ?_, fun x => ⟨?_, ?_⟩, ?_, nofun⟩
    · rintro a (ha | ha) hne
      · exact absurd (Finset.mem_singleton.1 ha) hne
      · cases ha
    · rintro ⟨a, ha | ha, hx⟩
      · rw [Finset.mem_singleton.1 ha, bytes, hlen, Nat.add_zero, Set.Ico_self] at hx
        cases hx
      · cases ha
    · rintro ⟨a, ha | ha, -⟩ <;> cases ha
    · unfold Heap.start
      rw [if_pos hfreep]
      rfl
  · rw [Heap.start_of_ne halloc.freep_ne]
    exact ⟨F, halloc, h.aligned, fun _ => Iff.rfl, rfl, fun _ _ => rfl⟩

theorem nunits_eq (hsmall : 8 * ((nbytes + 8 - 1) / 8 + 1) < 2 ^ 31) : nunits nbytes = (nbytes + 8 - 1) / 8 + 1 := by
  unfold nunits
  rw [word_of_lt (by omega)]

/-- **`malloc`** returns, and keeps the invariant. -/
theorem Inv.malloc (h : Inv base lo s F U) (hsmall : 8 * ((nbytes + 8 - 1) / 8 + 1) < 2 ^ 31) (room : ℕ) :
    ∃ F' U', Inv base lo (step base s (.malloc room nbytes)) F' U' := by
  have hunits := nunits_eq hsmall
  obtain ⟨F0, halloc, halign, hcovers, hbrk, hlen⟩ := h.start
  have hsmall' : 8 * nunits nbytes < 2 ^ 31 := by
    rw [hunits]
    exact hsmall
  obtain ⟨m, F', U', ap, hloop, hgives, hkeep, hgrown⟩ := halloc.loop room hsmall'
  rw [hbrk] at hloop
  have hmalloc : Umalloc.malloc base room s.heap nbytes = some (m, ap) := hloop
  have hstep : step base s (.malloc room nbytes) = s.malloced nbytes (m, ap) := by
    unfold step
    dsimp only
    rw [hmalloc]
    rfl
  have hbrk' : 8 ∣ m.brk := hgrown.brk (hbrk ▸ h.brk)
  have haligned : Aligned 8 base F' U' := hgrown.aligned (hbrk ▸ h.brk) halign
  have hlens : ∀ u ∈ U, m.len u = s.heap.len u := fun u hu => by
    unfold Heap.len at hlen ⊢
    rw [hkeep u hu]
    exact hlen u hu
  have hgot : ∀ x, Covers m.len F' U' x ↔ ∃ r ∈ (s.heap.brk, m.brk) :: s.got, x ∈ Set.Ico r.1 r.2 := by
    intro x
    rw [hgrown.covers, hcovers, h.got, hbrk, List.exists_mem_cons_iff, or_comm]
  rw [hstep]
  unfold St.malloced
  cases hgives with
  | null hnull =>
    refine ⟨F', U, .inr hnull, fun x hx => ?_, h.used, h.nodup, hbrk', haligned, hgot, h.returns⟩
    obtain ⟨b, hb, hx1, hx2⟩ := h.live x hx
    exact ⟨b, hb, hx1, (hlens b hb).symm ▸ hx2⟩
  | block b hfresh hblock hsize =>
    rw [if_neg (Nat.succ_ne_zero _)]
    refine ⟨F', insert b U, .inr hblock, fun x hx => ?_, fun c hc => ?_, ?_, hbrk', haligned, hgot, h.returns⟩
    · rcases List.mem_cons.1 hx with rfl | hx
      · refine ⟨b, Finset.mem_insert_self b U, rfl, ?_⟩
        unfold Heap.len
        rw [hsize, hunits]
        dsimp only
        omega
      · obtain ⟨c, hc, hx1, hx2⟩ := h.live x hx
        exact ⟨c, Finset.mem_insert_of_mem hc, hx1, (hlens c hc).symm ▸ hx2⟩
    · rcases Finset.mem_insert.1 hc with rfl | hc
      · exact List.mem_cons_self
      · exact List.mem_cons_of_mem _ (h.used c hc)
    · refine List.nodup_cons.2 ⟨fun hmem => ?_, h.nodup⟩
      obtain ⟨x, hx, hxb⟩ := List.mem_map.1 hmem
      obtain ⟨c, hc, hx1, -⟩ := h.live x hx
      have hcb : c = b := by
        dsimp only at hxb
        omega
      exact hfresh (hcb ▸ hc)

/-- **`free`** of a live block returns, and keeps the invariant. -/
theorem Inv.free (h : Inv base lo s F U) {ap : ℕ} (hap : ap ∈ s.live.map Prod.fst) : ∃ F' U', Inv base lo (step base s (.free ap)) F' U' := by
  obtain ⟨x, hx, rfl⟩ := List.mem_map.1 hap
  obtain ⟨b, hb, hxb, -⟩ := h.live x hx
  have halloc : Alloc base lo s.heap F U := by
    rcases h.listed with ⟨-, -, hU, -⟩ | halloc
    · rw [hU] at hb
      cases hb
    · exact halloc
  obtain ⟨m, F', hfree, hfreed, hkept⟩ := free_kept halloc hb
  have hstep : step base s (.free x.1) = s.freed x.1 m := by
    unfold step
    dsimp only
    rw [hxb, hfree]
    rfl
  have hlens : ∀ u ∈ U.erase b, m.len u = s.heap.len u := fun u hu => by
    unfold Heap.len
    rw [hfreed.keep u hu]
  rw [hstep]
  unfold St.freed
  refine ⟨F', U.erase b, .inr hfreed.alloc, fun y hy => ?_, fun c hc => ?_, ?_, hfreed.brk.symm ▸ h.brk, hkept.aligned h.aligned,
    fun y => (hkept.covers y).trans (h.got y), h.returns⟩
  · obtain ⟨hy, hne⟩ := List.mem_filter.1 hy
    have hne : y.1 ≠ x.1 := by simpa using hne
    obtain ⟨c, hc, hy1, hy2⟩ := h.live y hy
    have hmem : c ∈ U.erase b := Finset.mem_erase.2 ⟨fun heq => hne (by rw [hy1, hxb, heq]), hc⟩
    exact ⟨c, hmem, hy1, (hlens c hmem).symm ▸ hy2⟩
  · obtain ⟨hne, hc⟩ := Finset.mem_erase.1 hc
    obtain ⟨y, hy, hyc⟩ := List.mem_map.1 (h.used c hc)
    refine List.mem_map.2 ⟨y, List.mem_filter.2 ⟨hy, ?_⟩, hyc⟩
    have hyx : y.1 ≠ x.1 := by
      rw [hyc, hxb]
      omega
    simpa using hyx
  · have hsub : (s.live.filter fun y => y.1 ≠ x.1).Sublist s.live := List.filter_sublist
    exact h.nodup.sublist (hsub.map Prod.fst)

theorem Inv.sbrk (h : Inv base lo s F U) {brk : ℕ} (hle : s.heap.brk ≤ brk) (hlt : brk < KERNBASE) (hd : 8 ∣ brk) :
    Inv base lo (step base s (.sbrk brk)) F U := by
  refine ⟨?_, h.live, h.used, h.nodup, hd, h.aligned, h.got, h.returns⟩
  rcases h.listed with ⟨hfreep, hF, hU, hpos, hbase, hlo, -⟩ | halloc
  · exact .inl ⟨hfreep, hF, hU, hpos, hbase, hlo.trans hle, hlt⟩
  · have hb := halloc.blocks
    exact .inr ⟨halloc.ring, halloc.freep, ⟨hb.sentinel, hb.sentinel_len, hb.disjoint, hb.base_lt, hb.low, hb.pos,
      fun a ha => (hb.high a ha).trans hle, hb.order⟩, halloc.spaced, halloc.base_pos, halloc.lo_le.trans hle, hlt⟩

theorem step_inv (h : ∃ F U, Inv base lo s F U) {op : Op} (hok : Ok s op) : ∃ F U, Inv base lo (step base s op) F U := by
  obtain ⟨F, U, h⟩ := h
  cases op with
  | malloc room nbytes =>
    unfold Ok at hok
    exact h.malloc hok room
  | free ap => exact h.free hok
  | sbrk brk =>
    unfold Ok at hok
    exact ⟨F, U, h.sbrk hok.1 hok.2.1 hok.2.2⟩

theorem run_inv_init (mem : ℕ → Header) (hpos : 0 < base) (hlt : base < lo) (hlo : lo < KERNBASE) (hd : 8 ∣ lo) {ops : List Op}
    (h : Guarded (step base) Ok (init mem lo) ops) : ∃ F U, Inv base lo (run (step base) (init mem lo) ops) F U :=
  guarded_inv (I := fun s => ∃ F U, Inv base lo s F U) (fun _ _ hok hinv => step_inv hinv hok) (init mem lo)
    ⟨∅, ∅, init_inv mem hpos hlt hlo hd⟩ ops h

/-- **The allocator.** After every sequence of `malloc` with small requests and `free` of live blocks, whatever `sbrk` grants: every call
has returned, and there are free blocks `F` such that
- nothing has been set up, and `F` is empty, or `base` and `freep` are in `F`, and the pointers link `F` to a ring: from each block to the
  next one in address order, and from the last one to the first;
- each free block ends below the next one begins;
- the block of a caller starts at an aligned address and has at least the bytes asked for after its header, and has no byte in common
  with the block of another caller or a free block;
- a byte is in the memory got from `sbrk` exactly if it is in the block of a caller or in a free block. -/
theorem umalloc_sound (base lo : ℕ) (hpos : 0 < base) (hlt : base < lo) (hlo : lo < KERNBASE) (hd : 8 ∣ lo) (mem : ℕ → Header)
    (ops : List Op) (h : Guarded (step base) Ok (init mem lo) ops) :
    (run (step base) (init mem lo) ops).spins = false ∧
    ∃ F : Finset ℕ,
      (((run (step base) (init mem lo) ops).heap.freep = 0 ∧ F = ∅) ∨
        (base ∈ F ∧ (run (step base) (init mem lo) ops).heap.freep ∈ F)) ∧
      Ring (run (step base) (init mem lo) ops).heap.ptr F ∧
      Spaced (run (step base) (init mem lo) ops).heap.len F ∧
      (∀ x ∈ (run (step base) (init mem lo) ops).live, 8 ≤ x.1 ∧ 8 ∣ x.1 ∧
        x.2 + 8 ≤ (run (step base) (init mem lo) ops).heap.len (x.1 - 8) ∧
        (∀ y ∈ (run (step base) (init mem lo) ops).live, y.1 ≠ x.1 →
          Disjoint (bytes (run (step base) (init mem lo) ops).heap.len (x.1 - 8))
            (bytes (run (step base) (init mem lo) ops).heap.len (y.1 - 8))) ∧
        ∀ a ∈ F, Disjoint (bytes (run (step base) (init mem lo) ops).heap.len (x.1 - 8))
          (bytes (run (step base) (init mem lo) ops).heap.len a)) ∧
      ((run (step base) (init mem lo) ops).live.map Prod.fst).Nodup ∧
      ∀ b, (∃ r ∈ (run (step base) (init mem lo) ops).got, r.1 ≤ b ∧ b < r.2) ↔
        (∃ x ∈ (run (step base) (init mem lo) ops).live, b ∈ bytes (run (step base) (init mem lo) ops).heap.len (x.1 - 8)) ∨
        ∃ a ∈ F, b ∈ bytes (run (step base) (init mem lo) ops).heap.len a := by
  obtain ⟨F, U, hinv⟩ := run_inv_init mem hpos hlt hlo hd h
  generalize run (step base) (init mem lo) ops = s at hinv
  have halloc : ∀ x ∈ s.live, Alloc base lo s.heap F U := fun x hx => by
    obtain ⟨b, hb, -⟩ := hinv.live x hx
    rcases hinv.listed with ⟨-, -, hU, -⟩ | halloc
    · rw [hU] at hb
      cases hb
    · exact halloc
  have hblock : ∀ x ∈ s.live, x.1 - 8 ∈ U ∧ x.1 = x.1 - 8 + 8 ∧ x.2 + 8 ≤ s.heap.len (x.1 - 8) := fun x hx => by
    obtain ⟨b, hb, hxb, hlen⟩ := hinv.live x hx
    have hsub : x.1 - 8 = b := by omega
    rw [hsub]
    exact ⟨hb, hxb, hlen⟩
  refine ⟨hinv.returns, F, ?_, ?_, ?_, fun x hx => ?_, hinv.nodup, fun b => ?_⟩
  · exact hinv.listed.imp (fun hl => ⟨hl.1, hl.2.1⟩) fun ha => ⟨ha.blocks.sentinel, ha.freep⟩
  · rcases hinv.listed with ⟨-, rfl, -⟩ | ha
    · exact nofun
    · exact ha.ring
  · rcases hinv.listed with ⟨-, rfl, -⟩ | ha
    · exact nofun
    · exact ha.spaced
  · have ha := halloc x hx
    obtain ⟨hmem, heq, hlen⟩ := hblock x hx
    have hdvd := hinv.aligned (x.1 - 8) (.inr hmem) (ha.blocks.ne_base hmem)
    refine ⟨by omega, by omega, hlen, fun y hy hne => ?_, fun a haF => ?_⟩
    · obtain ⟨hymem, hyeq, -⟩ := hblock y hy
      exact ha.blocks.apart (.inr hmem) (.inr hymem) (by omega)
    · exact ha.blocks.apart (.inr hmem) (.inl haF) fun heq' => ha.blocks.disjoint a haF (heq' ▸ hmem)
  · refine ((hinv.got b).symm).trans ⟨?_, ?_⟩
    · rintro ⟨a, ha | ha, hb⟩
      · exact .inr ⟨a, ha, hb⟩
      · obtain ⟨x, hx, hxa⟩ := List.mem_map.1 (hinv.used a ha)
        have hsub : x.1 - 8 = a := by omega
        exact .inl ⟨x, hx, hsub.symm ▸ hb⟩
    · rintro (⟨x, hx, hb⟩ | ⟨a, ha, hb⟩)
      · exact ⟨x.1 - 8, .inr (hblock x hx).1, hb⟩
      · exact ⟨a, .inl ha, hb⟩

/-- two requests, of which the first is freed; then the kernel has no room -/
def mixedOps : List Op :=
  [.malloc 100000 20, .malloc 100000 100, .free 32808, .sbrk 40000, .malloc 0 50000]

theorem umalloc_sound_mixed :
    ((run (step 8) (init (fun _ => ⟨0, 0⟩) 64) mixedOps).spins = false) ∧
    (run (step 8) (init (fun _ => ⟨0, 0⟩) 64) mixedOps).live.length = 1 :=
  ⟨(umalloc_sound 8 64 (by decide) (by decide) (by decide) (by decide) (fun _ => ⟨0, 0⟩) mixedOps (by decide +kernel)).1,
    by decide +kernel⟩

end Xv6.Allocator
