/-
Reference counts. Holders `h` have claims `w h r` on resources `r`, and the claims are backed when the count of each
resource is at least the number of claims on it, for any finite set of holders. Several users may share one holder's
claims.

- `Backed.le`: a claimed resource has a positive count.
-/
import Xv6.Core.Run

namespace Xv6.Core

variable {H R : Type*} {w w' : H → R → ℕ} {ref ref' : R → ℤ}

/-- the count of each resource covers the claims on it -/
def Backed (w : H → R → ℕ) (ref : R → ℤ) : Prop := ∀ r (S : Finset H), ((∑ h ∈ S, w h r : ℕ) : ℤ) ≤ ref r

theorem Backed.le (b : Backed w ref) (h : H) (r : R) : (w h r : ℤ) ≤ ref r := by
  simpa using b r {h}

/-- **One holder changes its claims.** -/
theorem Backed.change [DecidableEq H] (b : Backed w ref) (h : H) (hw : ∀ i, i ≠ h → w' i = w i)
    (hr : ∀ r, ref r + w' h r ≤ ref' r + w h r) : Backed w' ref' := by
  intro r S
  have hrest : ∑ i ∈ S.erase h, w' i r = ∑ i ∈ S.erase h, w i r :=
    Finset.sum_congr rfl fun i hi => by rw [hw i (Finset.ne_of_mem_erase hi)]
  have hnotin : h ∉ S.erase h := Finset.notMem_erase h S
  -- the other holders of `S`, with and without `h`
  have hold := b r (insert h (S.erase h))
  rw [Finset.sum_insert hnotin] at hold
  have hnew : ∑ i ∈ S, w' i r ≤ w' h r + ∑ i ∈ S.erase h, w' i r := by
    rw [← Finset.sum_insert (f := fun i => w' i r) hnotin]
    exact Finset.sum_le_sum_of_subset (Finset.insert_erase_subset h S)
  have hc := hr r
  omega

/-- counts may grow without anyone claiming more -/
theorem Backed.mono (b : Backed w ref) (hr : ∀ r, ref r ≤ ref' r) : Backed w ref' :=
  fun r S => (b r S).trans (hr r)

/-- a sum over a table of which one entry changes -/
theorem sum_update {ι α : Type*} [Fintype ι] [DecidableEq ι] (o : ι → α) (φ : α → ℕ) (i : ι) (a : α) :
    ∑ j, φ (update o i a j) + φ (o i) = ∑ j, φ (o j) + φ a := by
  have hold := Finset.add_sum_erase Finset.univ (fun j => φ (o j)) (Finset.mem_univ i)
  have hnew := Finset.add_sum_erase Finset.univ (fun j => φ (update o i a j)) (Finset.mem_univ i)
  have hrest : ∑ j ∈ Finset.univ.erase i, φ (update o i a j) = ∑ j ∈ Finset.univ.erase i, φ (o j) :=
    Finset.sum_congr rfl fun j hj => by rw [update_of_ne (Finset.ne_of_mem_erase hj)]
  rw [update_self] at hnew
  omega

end Xv6.Core
