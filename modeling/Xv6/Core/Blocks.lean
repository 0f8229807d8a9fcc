/-
Blocks of memory, each named by the address it starts at: the free ones `F`, the used ones `U`, and how long each is. One
free block is a sentinel of length 0 below all others, which start at `lo` or above.
-/
import Xv6.Core.Run

namespace Xv6.Core

variable {base lo top : ℕ} {len : ℕ → ℕ} {F U : Finset ℕ} {a b n : ℕ}

/-- the free and the used blocks lie apart between `lo` and the top, but for the sentinel below -/
structure Blocks (base lo top : ℕ) (len : ℕ → ℕ) (F U : Finset ℕ) : Prop where
  sentinel : base ∈ F
  sentinel_len : len base = 0
  disjoint : ∀ a ∈ F, a ∉ U
  base_lt : base < lo
  low : ∀ a, a ∈ F ∨ a ∈ U → a ≠ base → lo ≤ a
  pos : ∀ a, a ∈ F ∨ a ∈ U → a ≠ base → 0 < len a
  high : ∀ a, a ∈ F ∨ a ∈ U → a + len a ≤ top
  order : ∀ a b, a ∈ F ∨ a ∈ U → b ∈ F ∨ b ∈ U → a < b → a + len a ≤ b

/-- the bytes of the block at `a` -/
def bytes (len : ℕ → ℕ) (a : ℕ) : Set ℕ := Set.Ico a (a + len a)

/-! ## What an allocator does -/

theorem Blocks.base_le (h : Blocks base lo top len F U) (ha : a ∈ F ∨ a ∈ U) : base ≤ a := by
  by_cases hab : a = base
  · exact hab.ge
  · exact (h.base_lt.trans_le (h.low a ha hab)).le

theorem Blocks.ne_base (h : Blocks base lo top len F U) (ha : a ∈ U) : a ≠ base :=
  fun heq => h.disjoint base h.sentinel (heq ▸ ha)

/-- two blocks have no byte in common -/
theorem Blocks.apart (h : Blocks base lo top len F U) (ha : a ∈ F ∨ a ∈ U) (hb : b ∈ F ∨ b ∈ U) (hne : a ≠ b) :
    Disjoint (bytes len a) (bytes len b) := by
  rw [Set.disjoint_left]
  intro x hxa hxb
  obtain ⟨hax, hxa⟩ := Set.mem_Ico.1 hxa
  obtain ⟨hbx, hxb⟩ := Set.mem_Ico.1 hxb
  rcases lt_or_gt_of_ne hne with hlt | hgt
  · have := h.order a b ha hb hlt
    omega
  · have := h.order b a hb ha hgt
    omega

/-- a used block becomes a free one -/
theorem Blocks.release (h : Blocks base lo top len F U) (hb : b ∈ U) : Blocks base lo top len (insert b F) (U.erase b) := by
  have hsub : ∀ a, a ∈ insert b F ∨ a ∈ U.erase b → a ∈ F ∨ a ∈ U := by
    rintro a (ha | ha)
    · rcases Finset.mem_insert.1 ha with rfl | ha
      · exact .inr hb
      · exact .inl ha
    · exact .inr (Finset.mem_of_mem_erase ha)
  refine ⟨Finset.mem_insert_of_mem h.sentinel, h.sentinel_len, fun a ha haU => ?_, h.base_lt, fun a ha => h.low a (hsub a ha),
    fun a ha => h.pos a (hsub a ha), fun a ha => h.high a (hsub a ha),
    fun a c ha hc => h.order a c (hsub a ha) (hsub c hc)⟩
  obtain ⟨hne, haU⟩ := Finset.mem_erase.1 haU
  exact h.disjoint a ((Finset.mem_insert.1 ha).resolve_left hne) haU

/-- a free block becomes a used one -/
theorem Blocks.take (h : Blocks base lo top len F U) (hb : b ∈ F) (hne : b ≠ base) : Blocks base lo top len (F.erase b) (insert b U) := by
  have hsub : ∀ a, a ∈ F.erase b ∨ a ∈ insert b U → a ∈ F ∨ a ∈ U := by
    rintro a (ha | ha)
    · exact .inl (Finset.mem_of_mem_erase ha)
    · rcases Finset.mem_insert.1 ha with rfl | ha
      · exact .inl hb
      · exact .inr ha
  refine ⟨Finset.mem_erase.2 ⟨hne.symm, h.sentinel⟩, h.sentinel_len, fun a ha haU => ?_, h.base_lt,
    fun a ha => h.low a (hsub a ha), fun a ha => h.pos a (hsub a ha), fun a ha => h.high a (hsub a ha),
    fun a c ha hc => h.order a c (hsub a ha) (hsub c hc)⟩
  obtain ⟨hab, haF⟩ := Finset.mem_erase.1 ha
  exact h.disjoint a haF ((Finset.mem_insert.1 haU).resolve_left hab)

/-- the first `k` bytes of a free block stay free and the rest of it is used -/
theorem Blocks.split (h : Blocks base lo top len F U) (ha : a ∈ F) {k : ℕ} (hk : 0 < k) (hka : k < len a) :
    Blocks base lo top (update (update len a k) (a + k) (len a - k)) F (insert (a + k) U) := by
  have hne : a ≠ base := fun heq => by
    have := h.sentinel_len
    rw [← heq] at this
    omega
  have hbase := h.base_lt.trans_le (h.low a (.inl ha) hne)
  -- no block starts inside the one that is split
  have hout : ∀ c, c ∈ F ∨ c ∈ U → c < a + k → c ≤ a := by
    intro c hc hlt
    by_contra! hac
    have := h.order a c (.inl ha) hc hac
    omega
  have hnew : ¬ (a + k ∈ F ∨ a + k ∈ U) := fun hmem => by
    have := h.order a (a + k) (.inl ha) hmem (by omega)
    omega
  have hlen : ∀ c, c ≠ a → c ≠ a + k →
      update (update len a k) (a + k) (len a - k) c = len c := fun c hca hck => by
    rw [update_of_ne hck, update_of_ne hca]
  have hlena : update (update len a k) (a + k) (len a - k) a = k := by
    rw [update_of_ne (by omega), update_self]
  have hlenk : update (update len a k) (a + k) (len a - k) (a + k) = len a - k :=
    update_self ..
  have hcases : ∀ c, c ∈ F ∨ c ∈ insert (a + k) U → c = a + k ∨ c = a ∨ ((c ∈ F ∨ c ∈ U) ∧ c ≠ a ∧ c ≠ a + k) := by
    intro c hc
    by_cases hck : c = a + k
    · exact .inl hck
    by_cases hca : c = a
    · exact .inr (.inl hca)
    · exact .inr (.inr ⟨hc.imp id fun hc => (Finset.mem_insert.1 hc).resolve_left hck, hca, hck⟩)
  refine ⟨h.sentinel, ?_, fun c hc hcU => ?_, h.base_lt, fun c hc hcb => ?_, fun c hc hcb => ?_, fun c hc => ?_,
    fun c d hc hd hcd => ?_⟩
  · rw [hlen base hne.symm (by omega)]
    exact h.sentinel_len
  · rcases Finset.mem_insert.1 hcU with rfl | hcU
    · exact hnew (.inl hc)
    · exact h.disjoint c hc hcU
  · rcases hcases c hc with rfl | rfl | ⟨hc, -⟩
    · exact (h.low a (.inl ha) hne).trans (Nat.le_add_right a k)
    · exact h.low c (.inl ha) hne
    · exact h.low c hc hcb
  · rcases hcases c hc with rfl | rfl | ⟨hc, hca, hck⟩
    · rw [hlenk]
      omega
    · rw [hlena]
      exact hk
    · rw [hlen c hca hck]
      exact h.pos c hc hcb
  · have hatop := h.high a (.inl ha)
    rcases hcases c hc with rfl | rfl | ⟨hc, hca, hck⟩
    · rw [hlenk]
      omega
    · rw [hlena]
      omega
    · rw [hlen c hca hck]
      exact h.high c hc
  · rcases hcases c hc with rfl | rfl | ⟨hc', hca, hck⟩
    · rw [hlenk]
      rcases hcases d hd with rfl | rfl | ⟨hd', -, -⟩
      · exact absurd hcd (lt_irrefl _)
      · omega
      · have := h.order a d (.inl ha) hd' (by omega)
        omega
    · rw [hlena]
      rcases hcases d hd with rfl | rfl | ⟨hd', -, -⟩
      · exact le_rfl
      · exact absurd hcd (lt_irrefl _)
      · have := h.order c d (.inl ha) hd' hcd
        omega
    · rw [hlen c hca hck]
      rcases hcases d hd with rfl | rfl | ⟨hd', -, -⟩
      · have hle := hout c hc' hcd
        have := h.order c a hc' (.inl ha) (lt_of_le_of_ne hle hca)
        omega
      · exact h.order c d hc' (.inl ha) hcd
      · exact h.order c d hc' hd' hcd

/-- a free block takes in the one that begins where it ends -/
theorem Blocks.join (h : Blocks base lo top len F U) (ha : a ∈ F) (hne : a ≠ base) (hb : b ∈ F) (hab : a + len a = b) :
    Blocks base lo top (update len a (len a + len b)) (F.erase b) U := by
  have hpos := h.pos a (.inl ha) hne
  have hbase := h.base_lt.trans_le (h.low a (.inl ha) hne)
  have hsub : ∀ c, c ∈ F.erase b ∨ c ∈ U → (c ∈ F ∨ c ∈ U) ∧ c ≠ b := by
    rintro c (hc | hc)
    · exact ⟨.inl (Finset.mem_of_mem_erase hc), Finset.ne_of_mem_erase hc⟩
    · exact ⟨.inr hc, fun heq => h.disjoint b hb (heq ▸ hc)⟩
  have hself : update len a (len a + len b) a = len a + len b := update_self ..
  have hlen : ∀ c, c ≠ a → update len a (len a + len b) c = len c := fun c hc => update_of_ne hc ..
  refine ⟨Finset.mem_erase.2 ⟨by omega, h.sentinel⟩, ?_, fun c hc => h.disjoint c (Finset.mem_of_mem_erase hc),
    h.base_lt, fun c hc => h.low c (hsub c hc).1, fun c hc hcb => ?_, fun c hc => ?_, fun c d hc hd hcd => ?_⟩
  · rw [hlen base hne.symm]
    exact h.sentinel_len
  · by_cases hca : c = a
    · rw [hca, hself]
      omega
    · rw [hlen c hca]
      exact h.pos c (hsub c hc).1 hcb
  · by_cases hca : c = a
    · rw [hca, hself]
      have := h.high b (.inl hb)
      omega
    · rw [hlen c hca]
      exact h.high c (hsub c hc).1
  · by_cases hca : c = a
    · rw [hca, hself]
      rw [hca] at hcd
      obtain ⟨hd, hdb⟩ := hsub d hd
      have had := h.order a d (.inl ha) hd hcd
      have := h.order b d (.inl hb) hd (by omega)
      omega
    · rw [hlen c hca]
      exact h.order c d (hsub c hc).1 (hsub d hd).1 hcd

/-- new memory at the top is a used block -/
theorem Blocks.grow (h : Blocks base lo top len F U) (hlo : lo ≤ top) (hn : 0 < n) :
    Blocks base lo (top + n) (update len top n) F (insert top U) := by
  have hbase : base < top := h.base_lt.trans_le hlo
  have hbelow : ∀ c, c ∈ F ∨ c ∈ U → c < top := by
    intro c hc
    by_cases hcb : c = base
    · exact hcb ▸ hbase
    · have hpos := h.pos c hc hcb
      have hhigh := h.high c hc
      omega
  have hself : update len top n top = n := update_self ..
  have hlen : ∀ c, c ≠ top → update len top n c = len c := fun c hc => update_of_ne hc ..
  have hcases : ∀ c, c ∈ F ∨ c ∈ insert top U → c = top ∨ ((c ∈ F ∨ c ∈ U) ∧ c < top) := by
    rintro c (hc | hc)
    · exact .inr ⟨.inl hc, hbelow c (.inl hc)⟩
    · exact (Finset.mem_insert.1 hc).imp id fun hc => ⟨.inr hc, hbelow c (.inr hc)⟩
  refine ⟨h.sentinel, ?_, fun c hc hcU => ?_, h.base_lt, fun c hc hcb => ?_, fun c hc hcb => ?_, fun c hc => ?_,
    fun c d hc hd hcd => ?_⟩
  · rw [hlen base hbase.ne]
    exact h.sentinel_len
  · rcases Finset.mem_insert.1 hcU with rfl | hcU
    · exact absurd (hbelow c (.inl hc)) (lt_irrefl c)
    · exact h.disjoint c hc hcU
  · rcases hcases c hc with rfl | ⟨hc', -⟩
    · exact hlo
    · exact h.low c hc' hcb
  · rcases hcases c hc with rfl | ⟨hc', hlt⟩
    · rw [hself]
      exact hn
    · rw [hlen c hlt.ne]
      exact h.pos c hc' hcb
  · rcases hcases c hc with rfl | ⟨hc', hlt⟩
    · rw [hself]
    · rw [hlen c hlt.ne]
      have hhigh := h.high c hc'
      omega
  · rcases hcases c hc with rfl | ⟨hc', hlt⟩
    · rcases hcases d hd with rfl | ⟨-, hdlt⟩
      · exact absurd hcd (lt_irrefl _)
      · omega
    · rw [hlen c hlt.ne]
      rcases hcases d hd with rfl | ⟨hd', -⟩
      · exact h.high c hc'
      · exact h.order c d hc' hd' hcd

/-! ## What an allocator keeps -/

/-- byte `x` is in some block -/
def Covers (len : ℕ → ℕ) (F U : Finset ℕ) (x : ℕ) : Prop := ∃ a, (a ∈ F ∨ a ∈ U) ∧ x ∈ bytes len a

/-- blocks other than the sentinel start at multiples of `d` -/
def Aligned (d base : ℕ) (F U : Finset ℕ) : Prop := ∀ a, a ∈ F ∨ a ∈ U → a ≠ base → d ∣ a

/-- the blocks are made of the same bytes as before, and aligned if they were -/
structure Kept (d base : ℕ) (len : ℕ → ℕ) (F U : Finset ℕ) (len' : ℕ → ℕ) (F' U' : Finset ℕ) : Prop where
  covers : ∀ x, Covers len' F' U' x ↔ Covers len F U x
  aligned : Aligned d base F U → Aligned d base F' U'

variable {d : ℕ} {len' len'' : ℕ → ℕ} {F' F'' U' U'' : Finset ℕ}

theorem Kept.rfl : Kept d base len F U len F U := ⟨fun _ => Iff.rfl, id⟩

theorem Kept.trans (h : Kept d base len F U len' F' U') (h' : Kept d base len' F' U' len'' F'' U'') :
    Kept d base len F U len'' F'' U'' :=
  ⟨fun x => (h'.covers x).trans (h.covers x), fun ha => h'.aligned (h.aligned ha)⟩

/-- blocks that only change sides -/
theorem Kept.of_mem (h : ∀ a, a ∈ F' ∨ a ∈ U' ↔ a ∈ F ∨ a ∈ U) : Kept d base len F U len F' U' :=
  ⟨fun _ => exists_congr fun a => and_congr_left fun _ => h a, fun ha a hmem => ha a ((h a).1 hmem)⟩

theorem release_kept (hb : b ∈ U) : Kept d base len F U len (insert b F) (U.erase b) := by
  refine .of_mem fun a => ?_
  simp only [Finset.mem_insert, Finset.mem_erase]
  by_cases hab : a = b
  · subst hab
    simp [hb]
  · simp [hab]

theorem take_kept (hb : b ∈ F) : Kept d base len F U len (F.erase b) (insert b U) := by
  refine .of_mem fun a => ?_
  simp only [Finset.mem_insert, Finset.mem_erase]
  by_cases hab : a = b
  · subst hab
    simp [hb]
  · simp [hab]

theorem Blocks.split_kept (h : Blocks base lo top len F U) (ha : a ∈ F) {k : ℕ} (hk : 0 < k) (hka : k < len a) (hd : d ∣ k) :
    Kept d base len F U (update (update len a k) (a + k) (len a - k)) F (insert (a + k) U) := by
  have hne : a ≠ base := fun heq => by
    have := h.sentinel_len
    rw [← heq] at this
    omega
  have hnew : ¬ (a + k ∈ F ∨ a + k ∈ U) := fun hmem => by
    have := h.order a (a + k) (.inl ha) hmem (by omega)
    omega
  have hsub : ∀ c, c ∈ F ∨ c ∈ insert (a + k) U → c = a + k ∨ (c ≠ a + k ∧ (c ∈ F ∨ c ∈ U)) := by
    intro c hc
    by_cases hck : c = a + k
    · exact .inl hck
    · exact .inr ⟨hck, hc.imp_right fun hc => (Finset.mem_insert.1 hc).resolve_left hck⟩
  have hsup : ∀ c, c ∈ F ∨ c ∈ U → c ≠ a + k ∧ (c ∈ F ∨ c ∈ insert (a + k) U) := fun c hc =>
    ⟨fun heq => hnew (heq ▸ hc), hc.imp_right Finset.mem_insert_of_mem⟩
  have hlena : update (update len a k) (a + k) (len a - k) a = k := by
    rw [update_of_ne (by omega), update_self]
  refine ⟨fun x => ⟨?_, ?_⟩, fun hal c hc hcb => ?_⟩
  · rintro ⟨c, hc, hx⟩
    simp only [bytes, Set.mem_Ico] at hx
    rcases hsub c hc with rfl | ⟨hck, hc⟩
    · rw [update_self] at hx
      exact ⟨a, .inl ha, Set.mem_Ico.2 ⟨by omega, by omega⟩⟩
    · by_cases hca : c = a
      · rw [hca, hlena] at hx
        exact ⟨a, .inl ha, Set.mem_Ico.2 ⟨hx.1, by omega⟩⟩
      · rw [update_of_ne hck, update_of_ne hca] at hx
        exact ⟨c, hc, Set.mem_Ico.2 hx⟩
  · rintro ⟨c, hc, hx⟩
    simp only [bytes, Set.mem_Ico] at hx
    obtain ⟨hck, hc'⟩ := hsup c hc
    by_cases hca : c = a
    · subst hca
      -- the byte is in the first part or in the second one
      by_cases hxk : x < c + k
      · exact ⟨c, hc', by rw [bytes, hlena]; exact Set.mem_Ico.2 ⟨hx.1, hxk⟩⟩
      · refine ⟨c + k, .inr (Finset.mem_insert_self ..), ?_⟩
        rw [bytes, update_self]
        exact Set.mem_Ico.2 ⟨by omega, by omega⟩
    · refine ⟨c, hc', ?_⟩
      rw [bytes, update_of_ne hck, update_of_ne hca]
      exact Set.mem_Ico.2 hx
  · rcases hsub c hc with rfl | ⟨-, hc⟩
    · exact Dvd.dvd.add (hal a (.inl ha) hne) hd
    · exact hal c hc hcb

theorem join_kept (ha : a ∈ F) (hb : b ∈ F) (hab : a + len a = b) (hne : a ≠ b) (hU : b ∉ U) :
    Kept d base len F U (update len a (len a + len b)) (F.erase b) U := by
  have hsub : ∀ c, c ∈ F.erase b ∨ c ∈ U → (c ∈ F ∨ c ∈ U) ∧ c ≠ b := by
    rintro c (hc | hc)
    · exact ⟨.inl (Finset.mem_of_mem_erase hc), Finset.ne_of_mem_erase hc⟩
    · exact ⟨.inr hc, fun heq => hU (heq ▸ hc)⟩
  have hsup : ∀ c, c ∈ F ∨ c ∈ U → c ≠ b → c ∈ F.erase b ∨ c ∈ U := fun c hc hcb =>
    hc.imp_left fun hc => Finset.mem_erase.2 ⟨hcb, hc⟩
  refine ⟨fun x => ⟨?_, ?_⟩, fun hal c hc => hal c (hsub c hc).1⟩
  · rintro ⟨c, hc, hx⟩
    by_cases hca : c = a
    · subst hca
      rw [bytes, update_self, Set.mem_Ico] at hx
      by_cases hxb : x < b
      · exact ⟨c, .inl ha, Set.mem_Ico.2 ⟨hx.1, by omega⟩⟩
      · exact ⟨b, .inl hb, Set.mem_Ico.2 ⟨by omega, by omega⟩⟩
    · rw [bytes, update_of_ne hca] at hx
      exact ⟨c, (hsub c hc).1, hx⟩
  · rintro ⟨c, hc, hx⟩
    rw [bytes, Set.mem_Ico] at hx
    have hmem : a ∈ F.erase b ∨ a ∈ U := hsup a (.inl ha) hne
    by_cases hcb : c = b
    · subst hcb
      refine ⟨a, hmem, ?_⟩
      rw [bytes, update_self]
      exact Set.mem_Ico.2 ⟨by omega, by omega⟩
    · by_cases hca : c = a
      · subst hca
        refine ⟨c, hmem, ?_⟩
        rw [bytes, update_self]
        exact Set.mem_Ico.2 ⟨hx.1, by omega⟩
      · refine ⟨c, hsup c hc hcb, ?_⟩
        rw [bytes, update_of_ne hca]
        exact Set.mem_Ico.2 hx

/-- new memory at the top comes with its bytes -/
theorem covers_grow (htop : ¬ (top ∈ F ∨ top ∈ U)) (x : ℕ) :
    Covers (update len top n) F (insert top U) x ↔ Covers len F U x ∨ x ∈ Set.Ico top (top + n) := by
  have hlen : ∀ c, c ∈ F ∨ c ∈ U → update len top n c = len c := fun c hc =>
    update_of_ne (fun heq : c = top => htop (heq ▸ hc)) _ _
  refine ⟨?_, ?_⟩
  · rintro ⟨c, hc, hx⟩
    by_cases hct : c = top
    · subst hct
      rw [bytes, update_self] at hx
      exact .inr hx
    · have hc' : c ∈ F ∨ c ∈ U := hc.imp_right fun hc => (Finset.mem_insert.1 hc).resolve_left hct
      rw [bytes, hlen c hc'] at hx
      exact .inl ⟨c, hc', hx⟩
  · rintro (⟨c, hc, hx⟩ | hx)
    · refine ⟨c, hc.imp_right Finset.mem_insert_of_mem, ?_⟩
      rw [bytes, hlen c hc]
      exact hx
    · refine ⟨top, .inr (Finset.mem_insert_self ..), ?_⟩
      rw [bytes, update_self]
      exact hx

/-! ## Blocks that touch -/

/-- no free block ends where another begins -/
def Spaced (len : ℕ → ℕ) (F : Finset ℕ) : Prop := ∀ a ∈ F, ∀ b ∈ F, a < b → a + len a < b

/-- the same, but for one pair -/
def SpacedBut (p x : ℕ) (len : ℕ → ℕ) (F : Finset ℕ) : Prop :=
  ∀ a ∈ F, ∀ b ∈ F, a < b → a + len a < b ∨ (a = p ∧ b = x)

theorem Spaced.mono {F' : Finset ℕ} {len' : ℕ → ℕ} (hs : Spaced len F) (hF : F' ⊆ F) (hlen : ∀ a ∈ F', len' a ≤ len a) :
    Spaced len' F' := fun a ha b hb hab => (Nat.add_le_add_left (hlen a ha) a).trans_lt (hs a (hF ha) b (hF hb) hab)

variable {p x : ℕ}

/-- a free block below the place after `p` ends before it, if it is not `p` itself -/
theorem Spaced.before (hs : Spaced len F) (hp : p ∈ F) (hpx : p < x) (hgap : ∀ c ∈ F, c ≤ p ∨ x < c)
    (ha : a ∈ F) (hax : a < x) : a + len a < x ∨ (a = p ∧ x = x) := by
  rcases ((hgap a ha).resolve_right hax.not_gt).eq_or_lt with hap | hlt
  · exact .inr ⟨hap, rfl⟩
  · exact .inl ((hs a ha p hp hlt).trans hpx)

/-- a block that does not touch the next one goes in after `p` -/
theorem Spaced.put (hs : Spaced len F) (h : Blocks base lo top len (insert x F) U) (hp : p ∈ F) (hpx : p < x)
    (hgap : ∀ c ∈ F, c ≤ p ∨ x < c) (hend : x + len x ∉ F) : SpacedBut p x len (insert x F) := by
  intro a ha b hb hab
  have hle := h.order a b (.inl ha) (.inl hb) hab
  rcases Finset.mem_insert.1 ha with rfl | haF
  · rcases Finset.mem_insert.1 hb with rfl | hbF
    · exact absurd hab (lt_irrefl _)
    · exact .inl (lt_of_le_of_ne hle fun heq => hend (heq ▸ hbF))
  · rcases Finset.mem_insert.1 hb with rfl | hbF
    · exact hs.before hp hpx hgap haF hab
    · exact .inl (hs a haF b hbF hab)

/-- a block that touches the next one goes in after `p` and takes it in -/
theorem Spaced.joinNext {q : ℕ} (hs : Spaced len F) (h : Blocks base lo top len (insert x F) U) (hp : p ∈ F)
    (hpx : p < x) (hgap : ∀ c ∈ F, c ≤ p ∨ x < c) (hq : q ∈ F) (hend : x + len x = q) :
    SpacedBut p x (update len x (len x + len q)) ((insert x F).erase q) := by
  intro a ha b hb hab
  obtain ⟨-, ha⟩ := Finset.mem_erase.1 ha
  obtain ⟨hbq, hb⟩ := Finset.mem_erase.1 hb
  have hle := h.order a b (.inl ha) (.inl hb) hab
  by_cases hax : a = x
  · rw [hax, update_self]
    rw [hax] at hle hab
    have hbF := (Finset.mem_insert.1 hb).resolve_left hab.ne'
    have := hs q hq b hbF (by omega)
    omega
  · rw [update_of_ne hax]
    have haF := (Finset.mem_insert.1 ha).resolve_left hax
    rcases Finset.mem_insert.1 hb with rfl | hbF
    · exact hs.before hp hpx hgap haF hab
    · exact .inl (hs a haF b hbF hab)

/-- the pair does not touch after all -/
theorem SpacedBut.spaced (hs : SpacedBut p x len F) (h : Blocks base lo top len F U) (hne : p + len p ≠ x) : Spaced len F := by
  intro a ha b hb hab
  rcases hs a ha b hb hab with hlt | ⟨rfl, rfl⟩
  · exact hlt
  · exact lt_of_le_of_ne (h.order a b (.inl ha) (.inl hb) hab) hne

/-- the pair touches and becomes one block -/
theorem SpacedBut.joinPrev (hs : SpacedBut p x len F) (hx : x ∈ F) (hend : p + len p = x) :
    Spaced (update len p (len p + len x)) (F.erase x) := by
  intro a ha b hb hab
  obtain ⟨-, ha⟩ := Finset.mem_erase.1 ha
  obtain ⟨hbx, hb⟩ := Finset.mem_erase.1 hb
  have hlt := (hs a ha b hb hab).resolve_right fun heq => hbx heq.2
  by_cases hap : a = p
  · rw [hap, update_self]
    rw [hap] at hlt
    have := (hs x hx b hb (by omega)).resolve_right fun heq => hbx heq.2
    omega
  · rw [update_of_ne hap]
    exact hlt

end Xv6.Core
