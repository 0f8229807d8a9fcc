/-
Computations that read a memory at addresses of their choice and may give up. What they have read counts whether they give up or not.

- `Within lim m Q`: every address read is below `lim`, and a result has `Q`. `within_pure`, `within_fail`, `within_bind`.
-/
import Mathlib

namespace Xv6.Core

/-- a result or none, and the addresses that were read for it -/
structure Fetch (α : Type) where
  reads : List ℕ
  val : Option α

namespace Fetch

variable {α β : Type} {lim : ℕ} {m : Fetch α} {f : α → Fetch β} {Q Q' : α → Prop} {R : β → Prop}

/-- give up -/
def fail : Fetch α := ⟨[], none⟩

def bind (m : Fetch α) (f : α → Fetch β) : Fetch β :=
  match m.val with
  | none => ⟨m.reads, none⟩
  | some a => ⟨m.reads ++ (f a).reads, (f a).val⟩

instance : Monad Fetch where
  pure a := ⟨[], some a⟩
  bind := bind

theorem val_bind (m : Fetch α) (f : α → Fetch β) : (m >>= f).val = m.val.bind fun a => (f a).val := by
  change (bind m f).val = _
  unfold bind
  cases m.val with
  | none => rfl
  | some a => rfl

/-- only addresses below `lim` are read, and a result has `Q` -/
structure Within (lim : ℕ) (m : Fetch α) (Q : α → Prop) : Prop where
  reads : ∀ x ∈ m.reads, x < lim
  val : ∀ a ∈ m.val, Q a

theorem within_pure {a : α} (h : Q a) : Within lim (pure a) Q := by
  refine ⟨nofun, fun b hb => ?_⟩
  cases hb
  exact h

theorem within_fail : Within lim fail Q := ⟨nofun, nofun⟩

theorem within_bind (h : Within lim m Q) (hf : ∀ a, Q a → Within lim (f a) R) : Within lim (m >>= f) R := by
  change Within lim (bind m f) R
  unfold bind
  cases hv : m.val with
  | none => exact ⟨h.reads, nofun⟩
  | some a =>
    have hrest := hf a (h.val a hv)
    refine ⟨fun x hx => ?_, hrest.val⟩
    rcases List.mem_append.1 hx with hx | hx
    · exact h.reads x hx
    · exact hrest.reads x hx

end Fetch

end Xv6.Core
