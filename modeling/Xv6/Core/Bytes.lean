/-
Memory as pages of bytes, and what a copy of a byte string to a place in a page leaves.
-/
import Xv6.Core.Run

namespace Xv6.Core

variable {off i o : ℕ} {src : List UInt8}

/-- the string `src` written over the bytes from `off` on -/
def put (b : ℕ → UInt8) (off : ℕ) (src : List UInt8) : ℕ → UInt8 :=
  fun o => if off ≤ o then (src[o - off]?).getD (b o) else b o

theorem put_inside (b : ℕ → UInt8) (h : i < src.length) : put b off src (off + i) = src.get ⟨i, h⟩ := by
  unfold put
  rw [if_pos (Nat.le_add_right off i), Nat.add_sub_cancel_left, List.getElem?_eq_getElem h]
  rfl

theorem put_outside (b : ℕ → UInt8) (h : o < off ∨ off + src.length ≤ o) : put b off src o = b o := by
  unfold put
  split
  · rw [List.getElem?_eq_none (by omega)]
    rfl
  · rfl

/-- the bytes of every page -/
abbrev Mem := ℕ → ℕ → UInt8

namespace Mem

variable {p q : ℕ}

/-- the string `src` written into page `p` from offset `off` on -/
def store (m : Mem) (p off : ℕ) (src : List UInt8) : Mem := Function.update m p (put (m p) off src)

theorem store_inside (m : Mem) (p : ℕ) (h : i < src.length) : m.store p off src p (off + i) = src.get ⟨i, h⟩ := by
  unfold store
  rw [update_self]
  exact put_inside (m p) h

theorem store_outside (m : Mem) (h : q = p → o < off ∨ off + src.length ≤ o) : m.store p off src q o = m q o := by
  unfold store
  by_cases hq : q = p
  · rw [hq, update_self]
    exact put_outside (m p) (h hq)
  · rw [update_of_ne hq]

end Mem

/-! ## Words -/

/-- the bytes of a 32-bit word, the lowest first -/
def le32 (v : ℕ) : List UInt8 :=
  [UInt8.ofNat v, UInt8.ofNat (v / 2 ^ 8), UInt8.ofNat (v / 2 ^ 16), UInt8.ofNat (v / 2 ^ 24)]

/-- the word that four bytes are -/
def ofLe32 (b₀ b₁ b₂ b₃ : UInt8) : ℕ := b₀.toNat + 2 ^ 8 * b₁.toNat + 2 ^ 16 * b₂.toNat + 2 ^ 24 * b₃.toNat

theorem ofLe32_lt (b₀ b₁ b₂ b₃ : UInt8) : ofLe32 b₀ b₁ b₂ b₃ < 2 ^ 32 := by
  have h0 := b₀.toNat_lt
  have h1 := b₁.toNat_lt
  have h2 := b₂.toNat_lt
  have h3 := b₃.toNat_lt
  unfold ofLe32
  omega

theorem ofLe32_le32 {v : ℕ} (h : v < 2 ^ 32) :
    ofLe32 (UInt8.ofNat v) (UInt8.ofNat (v / 2 ^ 8)) (UInt8.ofNat (v / 2 ^ 16)) (UInt8.ofNat (v / 2 ^ 24)) = v := by
  unfold ofLe32
  simp only [UInt8.toNat_ofNat']
  omega

end Xv6.Core
