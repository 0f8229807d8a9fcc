/-
The inode locks that the functions of `fs.c` take and give back. They are followed without the state: `m` are the locks held before, and
`h` says whether a function may wait for a lock that the process itself holds.

- `readi_keeps`, `writei_keeps`: the console gives the lock of its inode back while it waits, and takes it again.
- `dirlookup_keeps`, `namex_keeps`: a search holds one lock at a time, so it cannot hang.
-/
import Xv6.Core.Held
import Xv6.Fs.Names

namespace Xv6.FileSys

open Xv6.Core Xv6.Core.Prog

variable {sb : Superblock} {h : Prop} {m : Multiset ℕ} {x d off n bn i inum : ℕ} {name : Name}

/-! ## Blocks -/

theorem balloc_keeps : Keeps h m (balloc sb) := by
  unfold balloc
  refine keeps_bind keeps_atomic fun r => ?_
  cases r with
  | none => exact keeps_panic
  | some b => exact keeps_bind keeps_modify fun _ => keeps_pure

theorem bfree_keeps (b : ℕ) : Keeps h m (bfree sb b) := by
  unfold bfree
  refine keeps_bind keeps_atomic fun ok => ?_
  split
  · exact keeps_pure
  · exact keeps_panic

theorem iupdate_keeps : Keeps h m (iupdate sb x) := keeps_modify

theorem allocAddr_keeps : Keeps h m (allocAddr sb x i) := by
  unfold allocAddr
  refine keeps_read fun s => ?_
  split
  · exact keeps_bind balloc_keeps fun _ => keeps_bind keeps_modify fun _ => keeps_pure
  · exact keeps_pure

theorem bmap_keeps : Keeps h m (bmap sb x bn) := by
  unfold bmap
  split
  · exact allocAddr_keeps
  split
  · refine keeps_bind allocAddr_keeps fun addr => keeps_read fun s => ?_
    split
    · exact keeps_bind balloc_keeps fun _ => keeps_bind keeps_modify fun _ => keeps_pure
    · exact keeps_pure
  · exact keeps_panic

theorem truncDirect_keeps : Keeps h m (truncDirect sb x i) := by
  unfold truncDirect
  refine keeps_read fun s => ?_
  split
  · exact keeps_pure
  · exact keeps_bind (bfree_keeps _) fun _ => keeps_modify

theorem truncIndirect_keeps {addr : ℕ} : Keeps h m (truncIndirect sb addr i) := by
  unfold truncIndirect
  refine keeps_read fun s => ?_
  split
  · exact keeps_pure
  · exact bfree_keeps _

theorem itrunc_keeps : Keeps h m (itrunc sb x) := by
  unfold itrunc
  refine keeps_bind (keeps_forEach (fun _ => truncDirect_keeps) _) fun _ => keeps_read fun s => ?_
  have hsize : Keeps h m (do
      modify fun s : St => s.setCore x { s.core x with size := 0 }
      iupdate sb x) := keeps_bind keeps_modify fun _ => iupdate_keeps
  split
  · exact hsize
  · refine keeps_bind (keeps_forEach (fun _ => truncIndirect_keeps) _) fun _ => ?_
    exact keeps_bind (bfree_keeps _) fun _ => keeps_bind keeps_modify fun _ => hsize

/-! ## Inodes -/

theorem iget_keeps : Keeps h m (iget x) := by
  unfold iget
  refine keeps_bind keeps_atomic fun ok => ?_
  split
  · exact keeps_pure
  · exact keeps_panic

theorem ilock_locks (hx : h ∨ x ∉ m) : Locks h m (ilock x) fun _ m' => x ∉ m ∧ m' = x ::ₘ m := by
  unfold ilock
  refine locks_read fun s => ?_
  split
  · exact locks_panic
  refine locks_bind (locks_acquire (Q := fun _ m' => x ∉ m ∧ m' = x ::ₘ m) hx fun hnot => ⟨hnot, rfl⟩) ?_
  rintro _ m' ⟨hnot, rfl⟩
  refine locks_read fun s => ?_
  split
  · exact locks_pure ⟨hnot, rfl⟩
  refine locks_keeps keeps_modify fun _ => locks_read fun s => ?_
  split
  · exact locks_panic
  · exact locks_pure ⟨hnot, rfl⟩

theorem iunlock_locks (hx : h ∨ x ∈ m) : Locks h m (iunlock x) fun _ m' => x ∈ m ∧ m' = m.erase x := by
  unfold iunlock
  refine locks_read fun s => ?_
  split
  · exact locks_panic
  · exact locks_release hx fun hmem => ⟨hmem, rfl⟩

theorem iput_keeps (hx : h ∨ x ∉ m) : Keeps h m (iput sb x) := by
  unfold iput
  refine locks_bind (locks_acquire (Q := fun _ m' => m' = x ::ₘ m) hx fun _ => rfl) ?_
  rintro _ m' rfl
  -- the rest, once the lock is to be given back
  have hend : Locks h (x ::ₘ m) (do
      release x
      modify fun s => s.unref x : FsM Unit) fun _ m' => m' = m := by
    refine locks_bind (locks_release (Q := fun _ m' => m' = m) (.inr (Multiset.mem_cons_self x m)) fun _ => ?_) ?_
    · exact Multiset.erase_cons_head x m
    · rintro _ m' rfl
      exact keeps_modify
  refine locks_read fun s => ?_
  split
  · refine locks_read fun s => ?_
    split
    · refine locks_keeps itrunc_keeps fun _ => locks_keeps keeps_modify fun _ => ?_
      exact locks_keeps iupdate_keeps fun _ => locks_keeps keeps_modify fun _ => hend
    · exact hend
  · exact hend

theorem iunlockput_locks (hx : h ∨ x ∉ m) : Locks h (x ::ₘ m) (iunlockput sb x) fun _ m' => m' = m := by
  unfold iunlockput
  refine locks_bind (iunlock_locks (.inr (Multiset.mem_cons_self x m))) ?_
  rintro _ m' ⟨-, rfl⟩
  rw [Multiset.erase_cons_head]
  exact iput_keeps hx

/-! ## Contents -/

/-- the console gives the lock back and takes it again -/
theorem relock_keeps {α β : Type} {p : FsM α} {g : α → FsM β} (hx : h ∨ m.count x = 1) (hp : ∀ m', Keeps h m' p)
    (hg : ∀ r, Keeps h m (g r)) : Keeps h m (do
      iunlock x
      let r ← p
      ilock x
      g r) := by
  have hmem : h ∨ x ∈ m := hx.imp_right fun hone => Multiset.count_pos.1 (by omega)
  have hnot : h ∨ x ∉ m.erase x := hx.imp_right fun hone => by
    rw [← Multiset.count_eq_zero, Multiset.count_erase_self]
    omega
  refine locks_bind (iunlock_locks hmem) ?_
  rintro _ m' ⟨hmem, rfl⟩
  refine locks_keeps (hp _) fun r => locks_bind (ilock_locks hnot) ?_
  rintro _ m' ⟨-, rfl⟩
  rw [Multiset.cons_erase hmem]
  exact hg r

theorem readLoop_keeps (fuel : ℕ) : Keeps h m (readLoop sb x fuel off n) := by
  induction fuel generalizing off n with
  | zero => exact keeps_pure
  | succ fuel ih =>
    unfold readLoop
    split
    · exact keeps_pure
    · exact keeps_bind bmap_keeps fun _ => keeps_read fun _ => keeps_bind ih fun _ => keeps_pure

theorem readi_keeps (hx : h ∨ m.count x = 1) : Keeps h m (readi sb x off n) := by
  unfold readi
  refine keeps_read fun s => ?_
  split
  · split
    · exact relock_keeps hx (fun _ => keeps_atomic) fun _ => keeps_pure
    · exact keeps_pure
  split
  · exact keeps_pure
  · exact keeps_bind (readLoop_keeps _) fun _ => keeps_pure

theorem writeLoop_keeps (fuel : ℕ) {src : List UInt8} : Keeps h m (writeLoop sb x fuel off src) := by
  induction fuel generalizing off src with
  | zero => exact keeps_pure
  | succ fuel ih =>
    unfold writeLoop
    split
    · exact keeps_pure
    · exact keeps_bind bmap_keeps fun _ => keeps_bind keeps_modify fun _ => ih

theorem writei_keeps {src : List UInt8} (hx : h ∨ m.count x = 1) : Keeps h m (writei sb x src off) := by
  unfold writei
  refine keeps_read fun s => ?_
  split
  · split
    · exact relock_keeps (p := pure ()) hx (fun _ => keeps_pure) fun _ => keeps_pure
    · exact keeps_pure
  split
  · exact keeps_pure
  split
  · exact keeps_pure
  refine keeps_bind (writeLoop_keeps _) fun _ => ?_
  split
  · exact keeps_bind keeps_modify fun _ => keeps_bind iupdate_keeps fun _ => keeps_pure
  · exact keeps_pure

/-! ## Directories -/

theorem readDirent_keeps {e : Panic} (hd : h ∨ m.count d = 1) : Keeps h m (readDirent sb d off e) := by
  unfold readDirent
  refine keeps_bind (readi_keeps hd) fun r => ?_
  cases r with
  | none => exact keeps_panic
  | some b =>
    dsimp only
    split
    · exact keeps_pure
    · exact keeps_panic

theorem lookupLoop_keeps (hd : h ∨ m.count d = 1) (os : List ℕ) : Keeps h m (lookupLoop sb d name os) := by
  induction os with
  | nil => exact keeps_pure
  | cons off os ih =>
    unfold lookupLoop
    refine keeps_bind (readDirent_keeps hd) fun de => ?_
    split
    · exact ih
    split
    · exact keeps_bind iget_keeps fun _ => keeps_pure
    · exact ih

theorem dirlookup_keeps (hd : h ∨ m.count d = 1) : Keeps h m (dirlookup sb d name) := by
  unfold dirlookup
  refine keeps_read fun s => ?_
  split
  · exact lookupLoop_keeps hd _
  · exact keeps_panic

theorem emptyLoop_keeps {last : ℕ} (hd : h ∨ m.count d = 1) (os : List ℕ) : Keeps h m (emptyLoop sb d last os) := by
  induction os with
  | nil => exact keeps_pure
  | cons off os ih =>
    unfold emptyLoop
    refine keeps_bind (readDirent_keeps hd) fun de => ?_
    split
    · exact keeps_pure
    · exact ih

theorem dirlinkNew_keeps (hd : h ∨ m.count d = 1) : Keeps h m (dirlinkNew sb d name inum) := by
  unfold dirlinkNew
  refine keeps_read fun s => keeps_bind (emptyLoop_keeps hd _) fun off => keeps_bind (writei_keeps hd) fun r => ?_
  cases r with
  | none => exact keeps_panic
  | some n =>
    dsimp only
    split
    · exact keeps_pure
    · exact keeps_panic

/-! ## Paths -/

variable {path : List UInt8}

/-- **One lock at a time.** The loop of `namex` holds no lock when it goes on to the next inode. -/
theorem namexLoop_keeps (parent : Bool) (fuel : ℕ) {ip : ℕ} : Keeps h 0 (namexLoop sb parent fuel ip path name) := by
  induction fuel generalizing ip path name with
  | zero => exact keeps_pure
  | succ fuel ih =>
    have hput : ∀ {α : Type} {p : FsM α}, Keeps h 0 p → Locks h (ip ::ₘ 0) (do
        iunlockput sb ip
        p) fun _ m' => m' = 0 := by
      intro α p hp
      refine locks_bind (iunlockput_locks (.inr (Multiset.notMem_zero ip))) ?_
      rintro _ m' rfl
      exact hp
    unfold namexLoop
    cases hskip : skipelem path with
    | none =>
      dsimp only
      split
      · exact keeps_bind (iput_keeps (.inr (Multiset.notMem_zero ip))) fun _ => keeps_pure
      · exact keeps_pure
    | some elem =>
      obtain ⟨name', path'⟩ := elem
      dsimp only
      refine locks_bind (ilock_locks (.inr (Multiset.notMem_zero ip))) ?_
      rintro _ m' ⟨-, rfl⟩
      refine locks_read fun s => ?_
      split
      · exact hput keeps_pure
      split
      · refine locks_bind (iunlock_locks (.inr (Multiset.mem_cons_self ip 0))) ?_
        rintro _ m' ⟨-, rfl⟩
        exact locks_pure (Multiset.erase_cons_head ip 0)
      · refine locks_keeps (dirlookup_keeps (.inr (by simp))) fun r => ?_
        cases r with
        | none => exact hput keeps_pure
        | some q => exact hput ih

theorem namex_keeps {pid : Fin NPROC} {parent : Bool} : Keeps h 0 (namex sb pid path parent) := by
  unfold namex
  refine keeps_read fun s => ?_
  split
  · exact keeps_bind iget_keeps fun _ => namexLoop_keeps _ _
  · exact keeps_bind keeps_modify fun _ => namexLoop_keeps _ _

theorem namei_keeps {pid : Fin NPROC} : Keeps h 0 (namei sb pid path) :=
  keeps_bind namex_keeps fun _ => keeps_pure

end Xv6.FileSys
