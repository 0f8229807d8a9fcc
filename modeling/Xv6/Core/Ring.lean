/-
Circular lists in order. `next` takes every member of the finite set `F` to the member after it, and the greatest one to
the least: the list is sorted and wraps round once.

- `After F a b`: going round the members of `F` from `a`, the next one met is `b`.
- `Ring next F`: `next` goes round `F`. `Ring.insert` and `Ring.erase` are the two ways to relink it.
-/
import Xv6.Core.Run

namespace Xv6.Core

variable {α : Type*} [LinearOrder α] {F : Finset α} {next next' : α → α} {a b c x : α}

/-! ## The member after -/

/-- the next member of `F` met from `a`: the least one above it, or the least one of all when none is above it -/
def After (F : Finset α) (a b : α) : Prop :=
  b ∈ F ∧ ((a < b ∧ ∀ c ∈ F, a < c → b ≤ c) ∨ ((∀ c ∈ F, c ≤ a) ∧ ∀ c ∈ F, b ≤ c))

theorem After.unique (hb : After F a b) (hc : After F a c) : b = c := by
  obtain ⟨hbF, ⟨hab, hb⟩ | ⟨ha, hb⟩⟩ := hb
  · obtain ⟨hcF, ⟨hac, hc⟩ | ⟨ha, -⟩⟩ := hc
    · exact le_antisymm (hb c hcF hac) (hc b hbF hab)
    · exact absurd hab (ha b hbF).not_gt
  · obtain ⟨hcF, ⟨hac, -⟩ | ⟨-, hc⟩⟩ := hc
    · exact absurd hac (ha c hcF).not_gt
    · exact le_antisymm (hb c hcF) (hc b hbF)

/-- every member is after some member -/
theorem exists_after (hb : b ∈ F) : ∃ a ∈ F, After F a b := by
  by_cases hlow : ∃ c ∈ F, c < b
  · obtain ⟨c, hc, hcb⟩ := hlow
    -- the greatest member below `b`
    obtain ⟨a, ha, hmax⟩ := (F.filter (· < b)).exists_maximal ⟨c, Finset.mem_filter.2 ⟨hc, hcb⟩⟩
    obtain ⟨haF, hab⟩ := Finset.mem_filter.1 ha
    refine ⟨a, haF, hb, .inl ⟨hab, fun d hd had => ?_⟩⟩
    by_contra! hdb
    exact absurd had (not_lt.2 (hmax (Finset.mem_filter.2 ⟨hd, hdb⟩) had.le))
  · push Not at hlow
    obtain ⟨a, ha, hmax⟩ := F.exists_maximal ⟨b, hb⟩
    exact ⟨a, ha, hb, .inr ⟨fun c hc => (le_total c a).elim id (hmax hc), hlow⟩⟩

/-- there is a member at which `x` would stand: the greatest one below it -/
theorem exists_below (ha : a ∈ F) (hax : a < x) : ∃ p ∈ F, p < x ∧ ∀ c ∈ F, c < x → c ≤ p := by
  obtain ⟨p, hp, hmax⟩ := (F.filter (· < x)).exists_maximal ⟨a, Finset.mem_filter.2 ⟨ha, hax⟩⟩
  obtain ⟨hpF, hpx⟩ := Finset.mem_filter.1 hp
  exact ⟨p, hpF, hpx, fun c hc hcx => (le_total c p).elim id (hmax (Finset.mem_filter.2 ⟨hc, hcx⟩))⟩

/-! ## Rings -/

/-- `next` goes round the members of `F` in order -/
def Ring (next : α → α) (F : Finset α) : Prop := ∀ a ∈ F, After F a (next a)

theorem Ring.mem (h : Ring next F) (ha : a ∈ F) : next a ∈ F := (h a ha).1

theorem Ring.congr (h : Ring next F) (heq : ∀ a ∈ F, next' a = next a) : Ring next' F := by
  intro a ha
  rw [heq a ha]
  exact h a ha

theorem Ring.singleton (h : next a = a) : Ring next {a} := by
  intro b hb
  rw [Finset.mem_singleton.1 hb, h]
  exact ⟨Finset.mem_singleton_self a, .inr ⟨by simp, by simp⟩⟩

/-- every member is led to -/
theorem Ring.pred (h : Ring next F) (hb : b ∈ F) : ∃ a ∈ F, next a = b := by
  obtain ⟨a, ha, hab⟩ := exists_after hb
  exact ⟨a, ha, (h a ha).unique hab⟩

/-- a new member goes in after the greatest one below it -/
theorem Ring.insert (h : Ring next F) (ha : a ∈ F) (hax : a < x) (hgap : ∀ c ∈ F, c ≤ a ∨ x < c) :
    Ring (update (update next x (next a)) a x) (insert x F) := by
  intro b hb
  by_cases hba : b = a
  · subst hba
    rw [update_self]
    refine ⟨Finset.mem_insert_self x F, .inl ⟨hax, fun c hc hbc => ?_⟩⟩
    rcases Finset.mem_insert.1 hc with rfl | hc
    · exact le_rfl
    · exact ((hgap c hc).resolve_left hbc.not_ge).le
  rw [update_of_ne hba]
  by_cases hbx : b = x
  · subst hbx
    rw [update_self]
    obtain ⟨hn, ⟨han, hmin⟩ | ⟨hmax, hmin⟩⟩ := h a ha
    · have hbn : b < next a := (hgap _ hn).resolve_left han.not_ge
      refine ⟨Finset.mem_insert_of_mem hn, .inl ⟨hbn, fun c hc hbc => ?_⟩⟩
      rcases Finset.mem_insert.1 hc with rfl | hc
      · exact absurd hbc (lt_irrefl c)
      · exact hmin c hc (hax.trans hbc)
    · refine ⟨Finset.mem_insert_of_mem hn, .inr ⟨fun c hc => ?_, fun c hc => ?_⟩⟩
      · rcases Finset.mem_insert.1 hc with rfl | hc
        · exact le_rfl
        · exact (hmax c hc).trans hax.le
      · rcases Finset.mem_insert.1 hc with rfl | hc
        · exact (hmin a ha).trans hax.le
        · exact hmin c hc
  · rw [update_of_ne hbx]
    have hbF := (Finset.mem_insert.1 hb).resolve_left hbx
    obtain ⟨hn, ⟨hbn, hmin⟩ | ⟨hmax, hmin⟩⟩ := h b hbF
    · refine ⟨Finset.mem_insert_of_mem hn, .inl ⟨hbn, fun c hc hbc => ?_⟩⟩
      rcases Finset.mem_insert.1 hc with rfl | hc
      · -- `b` is below the new member, so it is below `a`, and what follows `b` is not above `a`
        have hba' : b < a := lt_of_le_of_ne ((hgap b hbF).resolve_right hbc.not_gt) hba
        exact (hmin a ha hba').trans hax.le
      · exact hmin c hc hbc
    · have hbx' : x < b := (hgap b hbF).resolve_left fun hle => hba (le_antisymm hle (hmax a ha))
      refine ⟨Finset.mem_insert_of_mem hn, .inr ⟨fun c hc => ?_, fun c hc => ?_⟩⟩
      · rcases Finset.mem_insert.1 hc with rfl | hc
        · exact hbx'.le
        · exact hmax c hc
      · rcases Finset.mem_insert.1 hc with rfl | hc
        · exact (hmin a ha).trans hax.le
        · exact hmin c hc

/-- the member after `a` goes out -/
theorem Ring.erase (h : Ring next F) (ha : a ∈ F) (hne : next a ≠ a) : Ring (update next a (next (next a))) (F.erase (next a)) := by
  obtain ⟨hn, hafter⟩ := h a ha
  obtain ⟨hnn, hafter'⟩ := h (next a) hn
  intro b hb
  obtain ⟨hbn, hbF⟩ := Finset.mem_erase.1 hb
  by_cases hba : b = a
  · subst hba
    rw [update_self]
    have hnne : next (next b) ≠ next b := by
      rcases hafter' with ⟨hlt, -⟩ | ⟨hmax, hmin⟩
      · exact hlt.ne'
      · exact fun heq => hne (le_antisymm (heq ▸ hmin b ha) (hmax b ha))
    refine ⟨Finset.mem_erase.2 ⟨hnne, hnn⟩, ?_⟩
    rcases hafter with ⟨hbn', hmin⟩ | ⟨hmax, hmin⟩
    · rcases hafter' with ⟨hlt, hmin'⟩ | ⟨hmax', hmin'⟩
      · refine .inl ⟨hbn'.trans hlt, fun c hc hbc => ?_⟩
        obtain ⟨hcn, hcF⟩ := Finset.mem_erase.1 hc
        exact hmin' c hcF (lt_of_le_of_ne (hmin c hcF hbc) (Ne.symm hcn))
      · refine .inr ⟨fun c hc => ?_, fun c hc => hmin' c (Finset.mem_of_mem_erase hc)⟩
        obtain ⟨hcn, hcF⟩ := Finset.mem_erase.1 hc
        by_contra! hbc
        exact hcn (le_antisymm (hmax' c hcF) (hmin c hcF hbc))
    · refine .inr ⟨fun c hc => hmax c (Finset.mem_of_mem_erase hc), fun c hc => ?_⟩
      obtain ⟨hcn, hcF⟩ := Finset.mem_erase.1 hc
      rcases hafter' with ⟨-, hmin'⟩ | ⟨hmax', -⟩
      · exact hmin' c hcF (lt_of_le_of_ne (hmin c hcF) (Ne.symm hcn))
      · exact absurd (le_antisymm (hmax' c hcF) (hmin c hcF)) hcn
  · rw [update_of_ne hba]
    obtain ⟨hn', hafterb⟩ := h b hbF
    -- only `a` leads to the member that goes out
    have hne' : next b ≠ next a := by
      intro heq
      rcases hafterb with ⟨hlt, hminb⟩ | ⟨hmaxb, hminb⟩
      · rcases hafter with ⟨hlta, hmina⟩ | ⟨hmaxa, hmina⟩
        · rcases lt_or_gt_of_ne hba with hlt' | hgt'
          · exact absurd (hminb a ha hlt') (heq ▸ hlta).not_ge
          · exact absurd (hmina b hbF hgt') (heq ▸ hlt).not_ge
        · exact absurd (hmina b hbF) (heq ▸ hlt).not_ge
      · rcases hafter with ⟨hlta, -⟩ | ⟨hmaxa, -⟩
        · exact absurd (hminb a ha) (heq ▸ hlta).not_ge
        · exact hba (le_antisymm (hmaxa b hbF) (hmaxb a ha))
    refine ⟨Finset.mem_erase.2 ⟨hne', hn'⟩, ?_⟩
    rcases hafterb with ⟨hlt, hmin⟩ | ⟨hmax, hmin⟩
    · exact .inl ⟨hlt, fun c hc => hmin c (Finset.mem_of_mem_erase hc)⟩
    · exact .inr ⟨fun c hc => hmax c (Finset.mem_of_mem_erase hc), fun c hc => hmin c (Finset.mem_of_mem_erase hc)⟩

/-! ## Searching a ring -/

/-- follow `next` from `a` until the condition holds, for at most so many members -/
def seek {β : Type*} (next : β → β) (P : β → Prop) [DecidablePred P] : ℕ → β → Option β
  | 0, _ => none
  | n + 1, a => if P a then some a else seek next P n (next a)

/-- how far it is from `a` to `b` -/
def steps (F : Finset α) (b a : α) : ℕ :=
  if a ≤ b then (F.filter fun c => a < c ∧ c ≤ b).card
  else (F.filter fun c => a < c ∨ c ≤ b).card

theorem steps_le (b a : α) : steps F b a ≤ F.card := by
  unfold steps
  split_ifs <;> exact Finset.card_filter_le _ _

/-- one step along the ring is one step nearer to any other member -/
theorem Ring.steps_lt (h : Ring next F) (ha : a ∈ F) (hb : b ∈ F) (hne : a ≠ b) : steps F b (next a) < steps F b a := by
  obtain ⟨hn, hafter⟩ := h a ha
  have hself : ¬ (next a < next a) := lt_irrefl _
  unfold steps
  rcases hafter with ⟨hlt, hmin⟩ | ⟨hmax, hmin⟩
  · by_cases hab : a ≤ b
    · have hnb : next a ≤ b := hmin b hb (lt_of_le_of_ne hab hne)
      rw [if_pos hab, if_pos hnb]
      apply Finset.card_lt_card
      refine Finset.ssubset_iff_of_subset ?_ |>.2 ⟨next a, ?_, ?_⟩
      · exact Finset.monotone_filter_right _ fun c _ hc => ⟨hlt.trans hc.1, hc.2⟩
      · exact Finset.mem_filter.2 ⟨hn, hlt, hnb⟩
      · exact fun hmem => hself (Finset.mem_filter.1 hmem).2.1
    · have hba : b < a := not_le.1 hab
      rw [if_neg hab, if_neg (hba.trans hlt).not_ge]
      apply Finset.card_lt_card
      refine Finset.ssubset_iff_of_subset ?_ |>.2 ⟨next a, ?_, ?_⟩
      · exact Finset.monotone_filter_right _ fun c _ hc => hc.imp hlt.trans id
      · exact Finset.mem_filter.2 ⟨hn, .inl hlt⟩
      · intro hmem
        rcases (Finset.mem_filter.1 hmem).2 with hlt' | hle
        · exact hself hlt'
        · exact absurd (hba.trans hlt) hle.not_gt
  · have hba : b < a := lt_of_le_of_ne (hmax b hb) (Ne.symm hne)
    have hnb : next a ≤ b := hmin b hb
    rw [if_neg hba.not_ge, if_pos hnb]
    apply Finset.card_lt_card
    refine Finset.ssubset_iff_of_subset ?_ |>.2 ⟨next a, ?_, ?_⟩
    · exact Finset.monotone_filter_right _ fun c _ hc => .inr hc.2
    · exact Finset.mem_filter.2 ⟨hn, .inr hnb⟩
    · exact fun hmem => hself (Finset.mem_filter.1 hmem).2.1

/-- **The search ends.** When some member meets the condition, following the ring from any member comes to one that does,
and no further round is needed. -/
theorem Ring.seek (h : Ring next F) {P : α → Prop} [DecidablePred P] (hb : b ∈ F) (hP : P b) {n : ℕ} (ha : a ∈ F)
    (hn : steps F b a < n) : ∃ p ∈ F, P p ∧ seek next P n a = some p := by
  induction n generalizing a with
  | zero => exact absurd hn (Nat.not_lt_zero _)
  | succ n ih =>
    by_cases hPa : P a
    · exact ⟨a, ha, hPa, if_pos hPa⟩
    · have hne : a ≠ b := fun heq => hPa (heq ▸ hP)
      have hlt := h.steps_lt ha hb hne
      obtain ⟨p, hp, hPp, hseek⟩ := ih (h.mem ha) (by omega)
      exact ⟨p, hp, hPp, (if_neg hPa).trans hseek⟩

end Xv6.Core
