/-
Page allocators. An allocator hands out pages, or says that it has none left, and takes pages back. Code written over
an allocator is followed through the states the allocator passes on the way.

- `Uses a b`: the allocator got from `a` to `b` by some calls.
- `Dry a`: some calls from `a` on lead to a request that fails. A function over the allocator that reports "out of
  memory" is one that shows `Dry`.
- `Names.next_le`, `Names.lt_next`: names grow; `Names.not_dry`: with pages enough, no request fails.
-/
import Mathlib

namespace Xv6.Core

/-- a page allocator with state `A` -/
class Pager (A : Type) where
  alloc : A → Option ℕ × A
  free : ℕ → A → A

section

variable {A : Type} [Pager A]

/-- the allocator gets from one state to the other by requests and releases -/
inductive Uses : A → A → Prop
  | refl (a : A) : Uses a a
  | alloc {a b : A} (h : Uses a b) : Uses a (Pager.alloc b).2
  | free {a b : A} (n : ℕ) (h : Uses a b) : Uses a (Pager.free n b)

theorem Uses.trans {a b c : A} (h : Uses a b) (k : Uses b c) : Uses a c := by
  induction k with
  | refl => exact h
  | alloc _ ih => exact ih.alloc
  | free n _ ih => exact ih.free n

theorem Uses.of_alloc {a b c : A} {r : Option ℕ} (h : Uses a b) (e : Pager.alloc b = (r, c)) : Uses a c := by
  have hc : c = (Pager.alloc b).2 := by rw [e]
  exact hc ▸ h.alloc

/-- some request from `a` on fails -/
def Dry (a : A) : Prop := ∃ b, Uses a b ∧ (Pager.alloc b).1 = none

theorem Dry.of_uses {a b : A} (h : Uses a b) (d : Dry b) : Dry a := by
  obtain ⟨c, hc, hn⟩ := d
  exact ⟨c, h.trans hc, hn⟩

theorem Dry.of_alloc {a b : A} (e : Pager.alloc a = (none, b)) : Dry a :=
  ⟨a, .refl a, by rw [e]⟩

end

/-! ## Pages named by request -/

/-- the number of requests so far, and which requests find a page -/
structure Names where
  next : ℕ
  avail : ℕ → Bool

/-- the request answers with its own number; a name is never used twice, so a release has nothing to do -/
instance : Pager Names where
  alloc a := (if a.avail a.next then some a.next else none, { a with next := a.next + 1 })
  free _ a := a

namespace Names

variable {a b : Names}

theorem next_le (h : Uses a b) : a.next ≤ b.next := by
  induction h with
  | refl => exact le_refl _
  | alloc _ ih => exact ih.trans (Nat.le_succ _)
  | free _ _ ih => exact ih

theorem avail_eq (h : Uses a b) : b.avail = a.avail := by
  induction h with
  | refl => rfl
  | alloc _ ih => exact ih
  | free _ _ ih => exact ih

/-- a page that was just handed out bears a name not used before, and every later request another one -/
theorem lt_next {n : ℕ} (e : Pager.alloc a = (some n, b)) : n = a.next ∧ n < b.next := by
  simp only [Pager.alloc, Prod.mk.injEq] at e
  obtain ⟨hn, rfl⟩ := e
  split at hn
  · cases hn
    exact ⟨rfl, Nat.lt_succ_self _⟩
  · exact absurd hn (by simp)

theorem alloc_of_avail (h : ∀ n, a.avail n = true) : Pager.alloc a = (some a.next, { a with next := a.next + 1 }) := by
  simp [Pager.alloc, h]

theorem not_dry (h : ∀ n, a.avail n = true) : ¬ Dry a := by
  rintro ⟨b, hb, hn⟩
  have hb' : ∀ n, b.avail n = true := by
    rw [avail_eq hb]
    exact h
  rw [alloc_of_avail hb'] at hn
  exact absurd hn (by simp)

end Names

/-! ## A list of free pages -/

/-- the free pages, the number of requests so far, and which of them may be granted -/
structure Frames where
  free : List ℕ
  next : ℕ
  grants : ℕ → Bool

instance : Pager Frames where
  alloc a :=
    match a.free with
    | [] => (none, { a with next := a.next + 1 })
    | p :: ps => if a.grants a.next = true then (some p, { a with free := ps, next := a.next + 1 }) else (none, { a with next := a.next + 1 })
  free p a := { a with free := p :: a.free }

namespace Frames

/-- the free pages, in no order -/
def pool (a : Frames) : Multiset ℕ := a.free

variable {a a' : Frames} {p : ℕ}

theorem pool_alloc (h : Pager.alloc a = (some p, a')) : a.pool = {p} + a'.pool := by
  obtain ⟨l, k, g⟩ := a
  cases l with
  | nil => cases h
  | cons q l =>
    simp only [Pager.alloc] at h
    split at h
    · cases h
      rfl
    · cases h

theorem pool_dry (h : Pager.alloc a = (none, a')) : a'.pool = a.pool := by
  obtain ⟨l, k, g⟩ := a
  cases l with
  | nil =>
    cases h
    rfl
  | cons q l =>
    simp only [Pager.alloc] at h
    split at h
    · cases h
    · cases h
      rfl

theorem pool_free (p : ℕ) (a : Frames) : (Pager.free p a).pool = {p} + a.pool := rfl

end Frames

end Xv6.Core
