/-
Descriptors and current directories shared by `clone`.

`clone` copies `ofile` and `cwd` without counting the new references, and `exit` of a thread gives none back; `close`,
`chdir` and the `exit` of a process always do. So the references of a process and its threads are those of one group,
the entries with one page directory, and a member may only give back a reference that no other member still uses.
-/
import Xv6.Core.RefCount
import Xv6.Kernel.Inherit

namespace Xv6.Kernel

open Xv6.Core

/-! ## Counting descriptors -/

theorem openCount_update (o : Fin NOFILE → Option (Fin NFILE)) (fd : Fin NOFILE) (a : Option (Fin NFILE))
    (f : Fin NFILE) : openCount (update o fd a) f + (if o fd = some f then 1 else 0) =
      openCount o f + if a = some f then 1 else 0 :=
  sum_update o (fun b => if b = some f then 1 else 0) fd a

variable {o : Fin NOFILE → Option (Fin NFILE)}

theorem openCount_eq_zero {f : Fin NFILE} (h : ∀ fd, o fd ≠ some f) :
    openCount o f = 0 :=
  Finset.sum_eq_zero fun fd _ => if_neg (h fd)

theorem openCount_pos {f : Fin NFILE} {fd : Fin NOFILE} (h : o fd = some f) :
    1 ≤ openCount o f := by
  have hle : (if o fd = some f then 1 else 0) ≤ openCount o f :=
    Finset.single_le_sum (f := fun fd => if o fd = some f then 1 else 0) (fun _ _ => Nat.zero_le _) (Finset.mem_univ fd)
  rwa [if_pos h] at hle

theorem exists_of_openCount_pos {f : Fin NFILE} (h : openCount o f ≠ 0) : ∃ fd, o fd = some f := by
  by_contra hne
  exact h (openCount_eq_zero fun fd hfd => hne ⟨fd, hfd⟩)

/-! ## Claims of groups -/

/-- groups have claims `w` on files and `v` on inodes, an open file has one on its inode, and the counts cover them
besides `x` and `y` -/
structure Claims (proc : Fin NPROC → Proc) (file : Fin NFILE → File) (inode : Fin NINODE → Inode) (x : Fin NFILE → ℕ)
    (y : Fin NINODE → ℕ) (w : Option ℕ → Fin NFILE → ℕ) (v : Option ℕ → Fin NINODE → ℕ) : Prop where
  files : Backed w fun f => (file f).ref - x f
  inodes : Backed (Sum.elim v fun f => (file f).holds) fun ip => (inode ip).ref - y ip
  closed : ∀ f, (file f).ref = 0 → (file f).type = .none
  ofile : ∀ i, (proc i).Live → ∀ f, openCount (proc i).ofile f ≤ w (proc i).pgdir f
  cwd : ∀ i, (proc i).Live → ∃ ip, (proc i).cwd = some ip ∧ 1 ≤ v (proc i).pgdir ip

def Refs (proc : Fin NPROC → Proc) (file : Fin NFILE → File) (inode : Fin NINODE → Inode) (x : Fin NFILE → ℕ)
    (y : Fin NINODE → ℕ) : Prop := ∃ w v, Claims proc file inode x y w v

section

variable {proc proc' : Fin NPROC → Proc} {file : Fin NFILE → File} {inode inode' : Fin NINODE → Inode}
  {x x' : Fin NFILE → ℕ} {y y' : Fin NINODE → ℕ} {w w' : Option ℕ → Fin NFILE → ℕ} {v v' : Option ℕ → Fin NINODE → ℕ}

/-- what a member of a group with claims `W` and `V` may have -/
def Within (q : Proc) (W : Fin NFILE → ℕ) (V : Fin NINODE → ℕ) : Prop :=
  (∀ f, openCount q.ofile f ≤ W f) ∧ ∃ ip, q.cwd = some ip ∧ 1 ≤ V ip

/-- the entry holds the same references -/
def Same (q q' : Proc) : Prop := q'.Live → q.Live ∧ q'.pgdir = q.pgdir ∧ q'.ofile = q.ofile ∧ q'.cwd = q.cwd

variable {q : Proc} {W : Fin NFILE → ℕ} {V : Fin NINODE → ℕ}

theorem Same.within {q' : Proc} (h : Same q q') (hl : q'.Live) (hq : Within q W V) : Within q' W V := by
  obtain ⟨-, -, ho, hc⟩ := h hl
  unfold Within
  rw [ho, hc]
  exact hq

theorem Claims.within (h : Claims proc file inode x y w v) {i : Fin NPROC} (hi : (proc i).Live) :
    Within (proc i) (w (proc i).pgdir) (v (proc i).pgdir) := ⟨h.ofile i hi, h.cwd i hi⟩

/-- **One group changes its claims.** It now has claims `W` and `V`, enough for entry `p` and for the other members. -/
theorem Claims.regroup (h : Claims proc file inode x y w v) (p : Fin NPROC) (g : Option ℕ) (hsame : ∀ i, i ≠ p → Same (proc i) (proc' i))
    (hself : (proc' p).Live → (proc' p).pgdir = g ∧ Within (proc' p) W V)
    (hpeer : ∀ i, i ≠ p → (proc i).Live → (proc i).pgdir = g → Within (proc i) W V)
    (hx : ∀ f, x' f + W f ≤ x f + w g f) (hy : ∀ ip, y' ip + V ip ≤ y ip + v g ip) :
    Claims proc' file inode x' y' (update w g W) (update v g V) := by
  have hall : ∀ i, (proc' i).Live →
      Within (proc' i) (update w g W (proc' i).pgdir) (update v g V (proc' i).pgdir) := by
    intro i hi
    by_cases hip : i = p
    · subst hip
      obtain ⟨hg, hin⟩ := hself hi
      rw [hg, update_self, update_self]
      exact hin
    · obtain ⟨hl, hd, -⟩ := hsame i hip hi
      refine (hsame i hip).within hi ?_
      rw [hd]
      by_cases hgi : (proc i).pgdir = g
      · rw [hgi, update_self, update_self]
        exact hpeer i hip hl hgi
      · rw [update_of_ne hgi, update_of_ne hgi]
        exact h.within hl
  refine ⟨h.files.change g (fun g' hg => update_of_ne hg _ _) fun f => ?_,
    h.inodes.change (.inl g) (fun i hi => ?_) fun ip => ?_, h.closed, fun i hi => (hall i hi).1, fun i hi => (hall i hi).2⟩
  · have := hx f
    rw [update_self]
    omega
  · cases i with
    | inl g' =>
      have hne : g' ≠ g := fun he => hi (he ▸ rfl)
      simp only [Sum.elim_inl, update_of_ne hne]
    | inr f => rfl
  · have := hy ip
    simp only [Sum.elim_inl, update_self]
    omega

/-- entries that are live have been so before, with the same references -/
theorem Refs.procs (h : Refs proc file inode x y) (hp : ∀ i, Same (proc i) (proc' i)) : Refs proc' file inode x y := by
  obtain ⟨w, v, h⟩ := h
  have hall : ∀ i, (proc' i).Live → Within (proc' i) (w (proc' i).pgdir) (v (proc' i).pgdir) := by
    intro i hi
    obtain ⟨hl, hd, -⟩ := hp i hi
    rw [hd]
    exact (hp i).within hi (h.within hl)
  exact ⟨w, v, h.files, h.inodes, h.closed, fun i hi => (hall i hi).1, fun i hi => (hall i hi).2⟩

/-! ## Inodes -/

/-- counts of inodes move together with what is set aside -/
theorem Refs.inodes (h : Refs proc file inode x y)
    (hi : ∀ ip, (inode ip).ref + y' ip ≤ (inode' ip).ref + y ip) : Refs proc file inode' x y' := by
  obtain ⟨w, v, h⟩ := h
  refine ⟨w, v, h.files, h.inodes.mono fun ip => ?_, h.closed, h.ofile, h.cwd⟩
  have := hi ip
  omega

variable {c : Option (Fin NINODE)}

theorem Refs.namex_some (h : Refs proc file inode x y) {path : Path} {ip : Fin NINODE}
    (hn : namex path c inode = .ok (some ip, inode')) : Refs proc file inode' x (y + Pi.single ip 1) := by
  refine h.inodes fun i => ?_
  rw [namex_spec hn i]
  simp only [Pi.add_apply, Pi.single_apply, Option.some.injEq]
  split <;> simp
  omega

theorem Refs.namex_none (h : Refs proc file inode x y) {path : Path} (hn : namex path c inode = .ok (none, inode')) : Refs proc file inode' x y := by
  refine h.inodes fun i => ?_
  rw [namex_spec hn i]
  simp

theorem Refs.iput {ip : Fin NINODE} (h : Refs proc file inode x (y + Pi.single ip 1)) : Refs proc file (iput ip inode) x y := by
  refine h.inodes fun i => ?_
  rw [Kernel.iput, addRef_ref]
  simp only [Pi.add_apply, Pi.single_apply]
  split <;> push_cast <;> omega

/-! ## Files -/

/-- a count of a file moves together with what is set aside; the file keeps or has no inode -/
theorem Refs.setFile (h : Refs proc file inode x y) {f : Fin NFILE} {ff : File}
    (hr : ∀ g, (file g).ref + x' g ≤ (update file f ff g).ref + x g)
    (hh : ∀ ip, (inode ip).ref + y' ip + ff.holds ip ≤ (inode' ip).ref + y ip + (file f).holds ip)
    (hc : ff.ref = 0 → ff.type = .none) : Refs proc (update file f ff) inode' x' y' := by
  obtain ⟨w, v, h⟩ := h
  refine ⟨w, v, h.files.mono fun g => ?_, h.inodes.change (.inr f) (fun i hi => ?_) fun ip => ?_, fun g hg => ?_, h.ofile,
    h.cwd⟩
  · have := hr g
    omega
  · cases i with
    | inl g => rfl
    | inr g =>
      have hne : g ≠ f := fun he => hi (he ▸ rfl)
      simp only [Sum.elim_inr, update_of_ne hne]
  · have := hh ip
    simp only [Sum.elim_inr, update_self]
    omega
  · by_cases hgf : g = f
    · subst hgf
      rw [update_self] at hg ⊢
      exact hc hg
    · rw [update_of_ne hgf] at hg ⊢
      exact h.closed g hg

/-- more references to several files -/
theorem Refs.addRefs (h : Refs proc file inode x y) (c : Fin NFILE → ℕ) :
    Refs proc (fun f => { file f with ref := (file f).ref + c f }) inode (x + c) y := by
  obtain ⟨w, v, h⟩ := h
  have hnonneg : ∀ f, 0 ≤ (file f).ref := by
    intro f
    have := h.files.le none f
    omega
  have hholds : ∀ f, ({ file f with ref := (file f).ref + c f } : File).holds = (file f).holds := by
    intro f
    funext ip
    have hf := hnonneg f
    by_cases hz : (file f).ref = 0
    · simp [File.holds, h.closed f hz]
    · have h1 : 0 < (file f).ref := by omega
      have h2 : 0 < (file f).ref + c f := by omega
      simp [File.holds, h1, h2]
  refine ⟨w, v, h.files.mono fun f => ?_, ?_, fun f hf => h.closed f ?_, h.ofile, h.cwd⟩
  · simp only [Pi.add_apply]
    push_cast
    omega
  · simp only [hholds]
    exact h.inodes
  · have := hnonneg f
    simp only at hf
    omega

variable {fs fs' : Files}

/-- another reference to an open file -/
theorem Refs.filedup {f : Fin NFILE} (h : Refs proc fs.file fs.inode x y)
    (hd : filedup f fs = .ok fs') : Refs proc fs'.file fs'.inode (x + Pi.single f 1) y := by
  obtain ⟨hpos, rfl⟩ := filedup_spec hd
  refine h.setFile (fun g => ?_) (fun ip => ?_) (fun hz => ?_)
  · by_cases hg : g = f
    · subst hg
      simp
      omega
    · simp [hg]
  · have h1 : 0 < (fs.file f).ref := by omega
    have h2 : 0 < (fs.file f).ref + 1 := by omega
    simp [File.holds, h1, h2]
  · simp only at hz
    omega

/-- a file that was not in use gets its first reference -/
theorem Refs.filealloc (fs : Files) {f : Fin NFILE} (h : Refs proc fs.file fs.inode x y) (ha : filealloc fs = (some f, fs')) :
    Refs proc fs'.file fs'.inode (x + Pi.single f 1) y ∧ (fs'.file f).ref = 1 ∧ (fs'.file f).type = .none := by
  rcases filealloc_spec ha with ⟨hr, -⟩ | ⟨_, hr, hz, rfl⟩
  · cases hr
  cases hr
  have htype : (fs.file f).type = .none := by
    obtain ⟨w, v, h⟩ := h
    exact h.closed f hz
  refine ⟨h.setFile (fun g => ?_) (fun ip => ?_) (fun hz => ?_), by simp, by simpa using htype⟩
  · by_cases hg : g = f
    · subst hg
      simp [hz]
    · simp [hg]
  · simp [File.holds, htype]
  · cases hz

/-- a reference is given back -/
theorem Refs.fileclose {f : Fin NFILE} (h : Refs proc fs.file fs.inode (x + Pi.single f 1) y)
    (hc : fileclose f fs = .ok fs') : Refs proc fs'.file fs'.inode x y := by
  obtain ⟨hpos, ⟨t, hfile, hlast, -⟩, hinode⟩ := fileclose_spec hc
  rw [hfile] at hinode ⊢
  refine h.setFile (fun g => ?_) (fun ip => ?_) (fun hz => hlast (by simp only at hz; omega))
  · by_cases hg : g = f
    · subst hg
      simp
    · simp [hg]
  · have := hinode ip
    rw [update_self] at this
    omega

/-- an open file takes over a reference to an inode -/
theorem Refs.setInode {f : Fin NFILE} {ip : Fin NINODE} (h : Refs proc file inode x (y + Pi.single ip 1))
    (hr : (file f).ref = 1) (ht : (file f).type = .none) (writable : Bool) :
    Refs proc (update file f { file f with type := .inode ip, writable := writable }) inode x y := by
  refine h.setFile (fun g => ?_) (fun i => ?_) (fun hz => ?_)
  · by_cases hg : g = f
    · subst hg
      simp
    · simp [hg]
  · simp only [File.holds, ht, hr, Pi.add_apply, Pi.single_apply, FileType.inode.injEq]
    by_cases hi : i = ip
    · simp [hi]
    · simp [hi, Ne.symm hi]
  · simp only [hr] at hz
    cases hz

/-- an open file without an inode becomes an end of a pipe -/
theorem Refs.setPipe {f : Fin NFILE} {page : ℕ} (h : Refs proc file inode x y) (hr : (file f).ref = 1)
    (ht : (file f).type = .none) (writable : Bool) :
    Refs proc (update file f { file f with type := .pipe page, writable := writable }) inode x y := by
  refine h.setFile (fun g => ?_) (fun i => ?_) (fun hz => ?_)
  · by_cases hg : g = f
    · subst hg
      simp
    · simp [hg]
  · simp [File.holds, ht]
  · simp only [hr] at hz
    cases hz

/-! ## Entries of the table -/

/-- another live entry on the directory of `p` -/
def Peer (proc : Fin NPROC → Proc) (p i : Fin NPROC) : Prop :=
  i ≠ p ∧ (proc i).Live ∧ (proc i).pgdir = (proc p).pgdir

variable {p np : Fin NPROC} {fd : Fin NOFILE} {f : Fin NFILE} {ip old : Fin NINODE}

theorem same_refl (q : Proc) : Same q q := fun h => ⟨h, rfl, rfl, rfl⟩

theorem same_update (q : Proc) {i : Fin NPROC} (hi : i ≠ p) : Same (proc i) (update proc p q i) := by
  rw [update_of_ne hi]
  exact same_refl _

/-- a descriptor takes over a reference -/
theorem Refs.take (h : Refs proc file inode (x + Pi.single f 1) y) (hfd : (proc p).ofile fd = none) :
    Refs (update proc p { proc p with ofile := update (proc p).ofile fd (some f) }) file inode x y := by
  obtain ⟨w, v, h⟩ := h
  refine ⟨_, _, h.regroup p (proc p).pgdir (W := w (proc p).pgdir + Pi.single f 1) (V := v (proc p).pgdir)
    (fun i hi => same_update _ hi) (fun hl => ?_) (fun i hi hl hd => ?_) (fun g => ?_) (fun _ => le_refl _)⟩
  · rw [update_self] at hl ⊢
    obtain ⟨ho, hc⟩ := h.within (i := p) hl
    refine ⟨rfl, fun g => ?_, hc⟩
    have hcount := openCount_update (proc p).ofile fd (some f) g
    have hold := ho g
    simp only [hfd, Pi.add_apply, Pi.single_apply, Option.some.injEq, reduceCtorEq, if_false,
      eq_comm (a := g)] at hcount ⊢
    omega
  · obtain ⟨ho, hc⟩ := h.within hl
    rw [hd] at ho hc
    exact ⟨fun g => (ho g).trans (by simp), hc⟩
  · simp only [Pi.add_apply]
    omega

/-- a descriptor is cleared: its reference is free to be given back when no other member uses the file -/
theorem Refs.drop (h : Refs proc file inode x y) (hp : (proc p).Live) (hfd : (proc p).ofile fd = some f)
    (hs : ∀ i, Peer proc p i → ∀ fd', (proc i).ofile fd' ≠ some f) :
    Refs (update proc p { proc p with ofile := update (proc p).ofile fd none }) file inode
      (x + Pi.single f 1) y := by
  obtain ⟨w, v, h⟩ := h
  obtain ⟨ho, hc⟩ := h.within hp
  have hpos : 1 ≤ w (proc p).pgdir f := (openCount_pos hfd).trans (ho f)
  refine ⟨_, _, h.regroup p (proc p).pgdir (W := fun g => w (proc p).pgdir g - if g = f then 1 else 0)
    (V := v (proc p).pgdir) (fun i hi => same_update _ hi) (fun hl => ?_) (fun i hi hl hd => ?_) (fun g => ?_)
    (fun _ => le_refl _)⟩
  · rw [update_self] at hl ⊢
    refine ⟨rfl, fun g => ?_, hc⟩
    have hcount := openCount_update (proc p).ofile fd none g
    have hold := ho g
    simp only [hfd, Option.some.injEq, reduceCtorEq, if_false, eq_comm (a := f)] at hcount ⊢
    omega
  · obtain ⟨hoi, hci⟩ := h.within hl
    rw [hd] at hoi hci
    refine ⟨fun g => ?_, hci⟩
    by_cases hg : g = f
    · subst hg
      rw [openCount_eq_zero (hs i ⟨hi, hl, hd⟩)]
      exact Nat.zero_le _
    · simpa [hg] using hoi g
  · simp only [Pi.add_apply, Pi.single_apply]
    by_cases hg : g = f
    · subst hg
      simp only [if_true]
      omega
    · simp [hg]

/-- an entry stops being live: its references are free to be given back when no other member uses them -/
theorem Refs.die (h : Refs proc file inode x y) (hp : (proc p).Live) (hcwd : (proc p).cwd = some old)
    (hfiles : ∀ i, Peer proc p i → ∀ fd f, (proc p).ofile fd = some f → ∀ fd', (proc i).ofile fd' ≠ some f)
    (hdirs : ∀ i, Peer proc p i → (proc i).cwd ≠ some old) (hdead : ¬ (proc' p).Live) (hsame : ∀ i, i ≠ p → Same (proc i) (proc' i)) :
    Refs proc' file inode (x + openCount (proc p).ofile) (y + Pi.single old 1) := by
  obtain ⟨w, v, h⟩ := h
  obtain ⟨ho, ip, hip, hv⟩ := h.within hp
  obtain rfl : ip = old := Option.some.inj (hip.symm.trans hcwd)
  refine ⟨_, _, h.regroup p (proc p).pgdir (W := fun g => w (proc p).pgdir g - openCount (proc p).ofile g)
    (V := fun i => v (proc p).pgdir i - if i = ip then 1 else 0) hsame (fun hl => absurd hl hdead)
    (fun i hi hl hd => ?_) (fun g => ?_) (fun i => ?_)⟩
  · obtain ⟨hoi, c, hci, hvi⟩ := h.within hl
    rw [hd] at hoi hvi
    refine ⟨fun g => ?_, c, hci, ?_⟩
    · by_cases hz : openCount (proc p).ofile g = 0
      · simpa [hz] using hoi g
      · obtain ⟨fd, hfd⟩ := exists_of_openCount_pos hz
        rw [openCount_eq_zero (hfiles i ⟨hi, hl, hd⟩ fd g hfd)]
        exact Nat.zero_le _
    · have hne : c ≠ ip := by
        rintro rfl
        exact hdirs i ⟨hi, hl, hd⟩ hci
      simpa [hne] using hvi
  · have := ho g
    simp only [Pi.add_apply]
    omega
  · simp only [Pi.add_apply, Pi.single_apply]
    by_cases hi : i = ip
    · subst hi
      simp only [if_true]
      omega
    · simp [hi]

/-- an entry changes its directory -/
theorem Refs.chdir (h : Refs proc file inode x (y + Pi.single ip 1)) (hp : (proc p).Live) (hcwd : (proc p).cwd = some old)
    (hdirs : ∀ i, Peer proc p i → (proc i).cwd ≠ some old) :
    Refs (update proc p { proc p with cwd := some ip }) file inode x (y + Pi.single old 1) := by
  obtain ⟨w, v, h⟩ := h
  obtain ⟨ho, c, hc, hv⟩ := h.within hp
  obtain rfl : c = old := Option.some.inj (hc.symm.trans hcwd)
  refine ⟨_, _, h.regroup p (proc p).pgdir (W := w (proc p).pgdir)
    (V := fun i => v (proc p).pgdir i + (if i = ip then 1 else 0) - if i = c then 1 else 0)
    (fun i hi => same_update _ hi) (fun hl => ?_) (fun i hi hl hd => ?_) (fun _ => le_refl _) (fun i => ?_)⟩
  · rw [update_self] at hl ⊢
    refine ⟨rfl, ho, ip, rfl, ?_⟩
    by_cases he : ip = c
    · subst he
      simpa using hv
    · simp [he]
  · obtain ⟨hoi, c', hci, hvi⟩ := h.within hl
    rw [hd] at hoi hvi
    have hne : c' ≠ c := by
      rintro rfl
      exact hdirs i ⟨hi, hl, hd⟩ hci
    refine ⟨hoi, c', hci, ?_⟩
    simp only [hne, if_false]
    omega
  · simp only [Pi.add_apply, Pi.single_apply]
    by_cases hi : i = c
    · subst hi
      simp only [if_true]
      omega
    · simp only [hi, if_false]
      omega

/-- a child takes over the references made for it -/
theorem Refs.child {o : Fin NOFILE → Option (Fin NFILE)}
    (h : Refs proc file inode (x + openCount o) (y + Pi.single ip 1)) (ho : q.ofile = o) (hc : q.cwd = some ip) :
    Refs (update proc np q) file inode x y := by
  obtain ⟨w, v, h⟩ := h
  refine ⟨_, _, h.regroup np q.pgdir (W := w q.pgdir + openCount o) (V := v q.pgdir + Pi.single ip 1)
    (fun i hi => same_update _ hi) (fun hl => ?_) (fun i hi hl hd => ?_) (fun g => ?_) (fun i => ?_)⟩
  · rw [update_self]
    refine ⟨rfl, fun g => ?_, ip, hc, ?_⟩
    · rw [ho]
      simp
    · simp
  · obtain ⟨hoi, c, hci, hvi⟩ := h.within hl
    rw [hd] at hoi hvi
    exact ⟨fun g => (hoi g).trans (by simp), c, hci, hvi.trans (by simp)⟩
  all_goals
    simp only [Pi.add_apply]
    omega

/-- a thread uses the references of its creator -/
theorem Refs.thread (h : Refs proc file inode x y) (hp : (proc p).Live) (hd : q.pgdir = (proc p).pgdir)
    (ho : q.ofile = (proc p).ofile) (hc : q.cwd = (proc p).cwd) : Refs (update proc np q) file inode x y := by
  obtain ⟨w, v, h⟩ := h
  refine ⟨_, _, h.regroup np q.pgdir (W := w q.pgdir) (V := v q.pgdir) (fun i hi => same_update _ hi) (fun hl => ?_)
    (fun i hi hl hd => ?_) (fun _ => le_refl _) (fun _ => le_refl _)⟩
  · rw [update_self]
    refine ⟨rfl, ?_⟩
    unfold Within
    rw [ho, hc, hd]
    exact h.within hp
  · rw [← hd]
    exact h.within hl

end

/-! ## System calls -/

variable {s s' : St} {p : Fin NPROC}

/-- between two calls nothing is set aside -/
def Held (s : St) : Prop := Refs s.proc s.fs.file s.fs.inode 0 0

theorem fdalloc_spec {f : Fin NFILE} {fd : Fin NOFILE} (h : fdalloc s p f = some (fd, s')) :
    (s.proc p).ofile fd = none ∧
      s' = s.setProc p { s.proc p with ofile := update (s.proc p).ofile fd (some f) } := by
  unfold fdalloc at h
  split at h
  · cases h
  · rename_i hfd
    cases h
    exact ⟨by simpa using find?_finRange hfd, rfl⟩

theorem sysDup_held {fd : Fin NOFILE} (h : Held s) (hs : sysDup s p fd = .ok s') : Held s' := by
  unfold sysDup at hs
  split at hs
  · cases hs
    exact h
  split at hs
  · cases hs
    exact h
  · rename_i s1 hfd
    obtain ⟨fs, hdup, hs⟩ := bind_ok hs
    cases hs
    obtain ⟨hfree, rfl⟩ := fdalloc_spec hfd
    exact (Refs.filedup h hdup).take hfree

/-- the descriptor is cleared first, then the reference is given back -/
theorem closeFd_held {fd : Fin NOFILE} (h : Held s) (hp : (s.proc p).Live)
    (hok : ∀ f, (s.proc p).ofile fd = some f → ∀ i, Peer s.proc p i → ∀ fd', (s.proc i).ofile fd' ≠ some f)
    (hs : closeFd s p fd = .ok s') : Held s' := by
  unfold closeFd at hs
  split at hs
  · cases hs
    exact h
  · rename_i f hf
    obtain ⟨fs, hclose, hs⟩ := bind_ok hs
    cases hs
    exact (Refs.drop h hp hf (hok f hf)).fileclose hclose

theorem sysOpen_held {path : Path} {typeOk writable : Bool} (h : Held s) (hs : sysOpen s p path typeOk writable = .ok s') : Held s' := by
  unfold sysOpen at hs
  obtain ⟨⟨r, inode⟩, hn, hs⟩ := bind_ok hs
  cases r with
  | none =>
    cases hs
    exact Refs.namex_none h hn
  | some ip =>
    have h1 := Refs.namex_some h hn
    obtain ⟨-, -, hs⟩ := bind_ok hs
    simp only at hs
    split at hs
    · cases hs
      exact h1.iput
    split at hs
    · cases hs
      exact h1.iput
    · rename_i f fs ha
      obtain ⟨h2, href, htype⟩ := Refs.filealloc { s.fs with inode := inode } h1 ha
      split at hs
      · obtain ⟨fs', hc, hs⟩ := bind_ok hs
        cases hs
        exact (h2.fileclose hc).iput
      · rename_i s1 hfd
        cases hs
        obtain ⟨hfree, rfl⟩ := fdalloc_spec hfd
        exact (h2.take hfree).setInode href htype writable

theorem sysChdir_held {path : Path} {isDir : Bool} (h : Held s) (hp : (s.proc p).Live)
    (hok : ∀ i, Peer s.proc p i → (s.proc i).cwd ≠ (s.proc p).cwd) (hs : sysChdir s p path isDir = .ok s') : Held s' := by
  unfold sysChdir at hs
  obtain ⟨⟨r, inode⟩, hn, hs⟩ := bind_ok hs
  cases r with
  | none =>
    cases hs
    exact Refs.namex_none h hn
  | some ip =>
    have h1 := Refs.namex_some h hn
    obtain ⟨-, -, hs⟩ := bind_ok hs
    simp only at hs
    split at hs
    · cases hs
      exact h1.iput
    · obtain ⟨s1, hput, hs⟩ := bind_ok hs
      cases hs
      unfold iputCwd at hput
      split at hput
      · cases hput
      · rename_i old hold
        cases hput
        exact (h1.chdir hp hold fun i hi => hold ▸ hok i hi).iput

/-- two files with a reference each, both set aside -/
theorem pipealloc_held {r : Option (Fin NFILE × Fin NFILE)} (h : Held s) (hs : pipealloc s = .ok (r, s')) :
    s'.proc = s.proc ∧ (r = none → Held s') ∧
    ∀ f0 f1, r = some (f0, f1) → Refs s'.proc s'.fs.file s'.fs.inode (0 + Pi.single f1 1 + Pi.single f0 1) 0 := by
  unfold pipealloc at hs
  split at hs
  · cases hs
    exact ⟨rfl, fun _ => h, by simp⟩
  rename_i f0 fs0 ha0
  obtain ⟨h0, href0, htype0⟩ := Refs.filealloc _ h ha0
  split at hs
  · rename_i fs1 ha1
    rcases filealloc_spec ha1 with ⟨-, rfl⟩ | ⟨_, hr, -⟩
    · obtain ⟨fs', hc, hs⟩ := bind_ok hs
      cases hs
      exact ⟨rfl, fun _ => h0.fileclose hc, by simp⟩
    · cases hr
  rename_i f1 fs1 ha1
  obtain ⟨h1, href1, htype1⟩ := Refs.filealloc _ h0 ha1
  have hcomm : (0 + Pi.single f0 1 + Pi.single f1 1 : Fin NFILE → ℕ) = 0 + Pi.single f1 1 + Pi.single f0 1 :=
    add_right_comm _ _ _
  rw [hcomm] at h1
  split at hs
  · obtain ⟨fs2, hc0, hs⟩ := bind_ok hs
    obtain ⟨fs3, hc1, hs⟩ := bind_ok hs
    cases hs
    exact ⟨rfl, fun _ => (h1.fileclose hc0).fileclose hc1, by simp⟩
  · cases hs
    refine ⟨rfl, by simp, ?_⟩
    rintro _ _ ⟨rfl, rfl⟩
    -- the second file is not the first, which is in use
    rcases filealloc_spec ha1 with ⟨hr, -⟩ | ⟨_, hr, hz, rfl⟩
    · cases hr
    cases hr
    have hne : f0 ≠ f1 := by
      rintro rfl
      rw [hz] at href0
      cases href0
    have href0' : (update fs0.file f1 { fs0.file f1 with ref := 1 } f0).ref = 1 := by
      rw [update_of_ne hne]
      exact href0
    have htype0' : (update fs0.file f1 { fs0.file f1 with ref := 1 } f0).type = .none := by
      rw [update_of_ne hne]
      exact htype0
    refine (h1.setPipe href0' htype0' false).setPipe ?_ ?_ true
    · rw [update_of_ne hne.symm]
      exact href1
    · rw [update_of_ne hne.symm]
      exact htype1

theorem sysPipe_held (h : Held s) (hs : sysPipe s p = .ok s') : Held s' := by
  unfold sysPipe at hs
  obtain ⟨⟨r, s1⟩, ha, hs⟩ := bind_ok hs
  obtain ⟨-, hnone, hsome⟩ := pipealloc_held h ha
  rcases r with _ | ⟨rf, wf⟩
  · cases hs
    exact hnone rfl
  have h1 := hsome rf wf rfl
  simp only at hs
  split at hs
  · obtain ⟨fs, hc, hs⟩ := bind_ok hs
    obtain ⟨fs', hc', hs⟩ := bind_ok hs
    cases hs
    exact (h1.fileclose hc).fileclose hc'
  · rename_i fd0 s2 hfd
    obtain ⟨hfree, rfl⟩ := fdalloc_spec hfd
    split at hs
    · -- the descriptor that was taken is cleared again
      obtain ⟨fs, hc, hs⟩ := bind_ok hs
      obtain ⟨fs', hc', hs⟩ := bind_ok hs
      cases hs
      have hundo : update (s1.proc p).ofile fd0 none = (s1.proc p).ofile :=
        Function.update_eq_self_iff.2 hfree.symm
      have h2 := (h1.fileclose hc).fileclose hc'
      simpa only [Held, setProc_proc, update_self, update_idem, hundo, update_eq_self] using h2
    · rename_i hfd1
      cases hs
      obtain ⟨hfree1, rfl⟩ := fdalloc_spec hfd1
      exact (h1.take hfree).take hfree1

/-- what a process that exits gives back, with the process already dead -/
theorem exitFiles_held {proc : Fin NPROC → Proc} (ht : (s.proc p).isthread = false) {old : Fin NINODE} (hcwd : (s.proc p).cwd = some old)
    (h : Refs proc s.fs.file s.fs.inode (0 + openCount (s.proc p).ofile) (0 + Pi.single old 1))
    (hs : exitFiles s p = .ok s') : Refs proc s'.fs.file s'.fs.inode 0 0 := by
  unfold exitFiles at hs
  simp only [ht, Bool.false_eq_true, if_false] at hs
  obtain ⟨s1, hclose, hs⟩ := bind_ok hs
  -- after each round the references of the remaining descriptors are set aside
  have hloop : (s1.proc p).cwd = some old ∧
      Refs proc s1.fs.file s1.fs.inode (0 + openCount (s1.proc p).ofile) (0 + Pi.single old 1) := by
    refine foldlM_inv (I := fun t : St => (t.proc p).cwd = some old ∧
      Refs proc t.fs.file t.fs.inode (0 + openCount (t.proc p).ofile) (0 + Pi.single old 1)) ?_ hclose ⟨hcwd, h⟩
    rintro t fd t' hstep ⟨hc, ht⟩
    unfold closeFd at hstep
    split at hstep
    · cases hstep
      exact ⟨hc, ht⟩
    · rename_i f hf
      obtain ⟨fs, hfc, hstep⟩ := bind_ok hstep
      cases hstep
      have hcount : openCount (t.proc p).ofile =
          openCount (update (t.proc p).ofile fd none) + Pi.single f 1 := by
        funext g
        have := openCount_update (t.proc p).ofile fd none g
        simp only [hf, Option.some.injEq, reduceCtorEq, if_false, add_zero, eq_comm (a := f)] at this
        simp only [Pi.add_apply, Pi.single_apply]
        omega
      rw [hcount, ← add_assoc] at ht
      refine ⟨by simpa using hc, ?_⟩
      simpa only [setProc_proc, update_self] using ht.fileclose hfc
  obtain ⟨hc, h1⟩ := hloop
  have hzero : openCount (s1.proc p).ofile = 0 := by
    funext f
    exact openCount_eq_zero fun fd => by simp [closeAll_ofile hclose fd]
  rw [hzero, add_zero] at h1
  unfold iputCwd at hs
  simp only [hc] at hs
  cases hs
  exact h1.iput

theorem Soft.same {a b : Proc} (h : Soft a b) : Same a b := by
  intro hb
  have hl : a.Live := h.live_iff.1 hb
  obtain ⟨par, st, rfl, -⟩ := h
  exact ⟨hl, rfl, rfl, rfl⟩

theorem not_live_of_zombie {q : Proc} (h : q.state = .zombie) : ¬ q.Live := by
  rintro (h' | h' | h') <;> rw [h] at h' <;> cases h'

theorem exit_held (h : Held s) (hp : (s.proc p).Live)
    (hok : (s.proc p).isthread = false → ∀ i, Peer s.proc p i → (s.proc i).cwd ≠ (s.proc p).cwd ∧
      ∀ fd f, (s.proc p).ofile fd = some f → ∀ fd', (s.proc i).ofile fd' ≠ some f) (hs : exit s p = .ok s') : Held s' := by
  obtain ⟨s1, hf, hx⟩ := exit_cases hs
  have honly := exitFiles_only hf
  have hdead : ¬ (s'.proc p).Live := by
    obtain ⟨par, hself⟩ := hx.self
    exact not_live_of_zombie (by rw [hself])
  have hsame : ∀ i, i ≠ p → Same (s.proc i) (s'.proc i) := by
    intro i hi
    rw [← honly.others i hi]
    exact (hx.others i hi).same
  unfold Held
  rw [hx.fs]
  cases ht : (s.proc p).isthread with
  | true =>
    rcases exitFiles_ofile hf with ⟨-, rfl⟩ | ⟨hn, -⟩
    · refine Refs.procs h fun i => ?_
      by_cases hi : i = p
      · exact fun hl => absurd (hi ▸ hl) hdead
      · exact hsame i hi
    · rw [ht] at hn
      cases hn
  | false =>
    obtain ⟨old, hcwd⟩ : ∃ old, (s.proc p).cwd = some old := by
      obtain ⟨w, v, hcl⟩ := h
      obtain ⟨ip, hip, -⟩ := hcl.cwd p hp
      exact ⟨ip, hip⟩
    have hdie := Refs.die h hp hcwd (fun i hi => (hok ht i hi).2) (fun i hi => hcwd ▸ (hok ht i hi).1) hdead hsame
    exact exitFiles_held ht hcwd hdie hf

variable {l : Link} {d : ℕ} {D : Dir}

theorem Forked.held {np : Fin NPROC} (f : Forked l s s' p np d D) (h : Held s)
    (hok : ∀ fd, (s.proc p).ofile fd = none → (s.proc np).ofile fd = none) : Held s' := by
  obtain ⟨e, hin, hcwd⟩ := f.files
  obtain ⟨hofile, hfile, hinode, -, -⟩ := inherit_spec hin
  have hcopy : (s'.proc np).ofile = (s.proc p).ofile := (f.copies.2 hok).1
  have hproc : s'.proc = update s.proc np (s'.proc np) := by
    funext i
    by_cases hi : i = np
    · rw [hi, update_self]
    · rw [update_of_ne hi, f.others i hi]
  have hfiles : s'.fs.file = fun g => { s.fs.file g with ref := (s.fs.file g).ref + openCount (s.proc p).ofile g } :=
    funext hfile
  have hidup : Refs s.proc s'.fs.file s'.fs.inode (0 + openCount (s.proc p).ofile) (0 + Pi.single e 1) := by
    rw [hfiles, hinode]
    refine (Refs.addRefs h _).inodes fun ip => ?_
    rw [idup, addRef_ref]
    simp only [Pi.add_apply, Pi.single_apply, Pi.zero_apply]
    split <;> simp
  unfold Held
  rw [hproc]
  exact hidup.child hcopy hcwd

theorem Cloned.held {np : Fin NPROC} (c : Cloned s s' p np) (h : Held s) (hp : (s.proc p).Live) : Held s' := by
  have hproc : s'.proc = update s.proc np (s'.proc np) := by
    funext i
    by_cases hi : i = np
    · rw [hi, update_self]
    · rw [update_of_ne hi, c.others i hi]
  unfold Held
  rw [hproc, c.fs]
  exact Refs.thread h hp c.pgdir c.ofile c.cwd

theorem kill_same (s : St) (pid : ℕ) (i : Fin NPROC) : Same (s.proc i) ((kill s pid).2.proc i) := by
  unfold kill
  split
  · exact same_refl _
  · rename_i q hq
    by_cases hi : i = q
    · subst hi
      simp only [setProc_proc, update_self]
      split
      · rename_i hs
        exact fun _ => ⟨.inr (.inr hs), rfl, rfl, rfl⟩
      · exact same_refl _
    · exact same_update _ hi

theorem Idle.same (h : Idle s s') (i : Fin NPROC) : Same (s.proc i) (s'.proc i) := by
  rcases h.proc i with he | ⟨-, hu, -⟩
  · rw [he]
    exact same_refl _
  · exact fun hl => absurd hl (not_live_of_unused hu)

theorem Reaped.same {q : Fin NPROC} (h : Reaped s s' p q) (i : Fin NPROC) : Same (s.proc i) (s'.proc i) := by
  by_cases hq : i = q
  · exact fun hl => absurd hl (not_live_of_unused (hq ▸ h.state))
  by_cases hp : i = p
  · subst hp
    rw [h.self]
    exact same_refl _
  · rw [h.others i hp hq]
    exact same_refl _

theorem Resized.same {n : ℤ} {sz : ℕ} {D' : Dir} (h : Resized s s' p n d D D' sz) (i : Fin NPROC) : Same (s.proc i) (s'.proc i) := by
  by_cases hp : i = p
  · subst hp
    rw [h.self]
    split <;> exact fun hl => ⟨hl, rfl, rfl, rfl⟩
  · rw [h.others i hp]
    exact same_refl _

/-- only the state of a live entry changes -/
theorem same_setState (hp : (s.proc p).Live) (st : ProcState) (ch : Option (Fin NPROC)) (wt : Bool) (i : Fin NPROC) :
    Same (s.proc i) ((s.setProc p { s.proc p with state := st, chan := ch, waiting := wt }).proc i) := by
  by_cases hi : i = p
  · subst hi
    rw [setProc_proc, update_self]
    exact fun _ => ⟨hp, rfl, rfl, rfl⟩
  · exact same_update _ hi

/-! ## Runs -/

/-- a call gives back only references that no other live entry on the caller's directory uses, and `fork` takes no
entry with leftovers where the parent's table is null; an image is not replaced -/
def ReleaseOk (s : St) (p : Fin NPROC) : Call → Prop
  | .close fd => ∀ f, (s.proc p).ofile fd = some f → ∀ i, Peer s.proc p i → ∀ fd', (s.proc i).ofile fd' ≠ some f
  | .chdir _ _ => ∀ i, Peer s.proc p i → (s.proc i).cwd ≠ (s.proc p).cwd
  | .exit => (s.proc p).isthread = false → ∀ i, Peer s.proc p i → (s.proc i).cwd ≠ (s.proc p).cwd ∧
      ∀ fd f, (s.proc p).ofile fd = some f → ∀ fd', (s.proc i).ofile fd' ≠ some f
  | .fork => ∀ np, s.unusedSlot = some np → ∀ fd, (s.proc p).ofile fd = none → (s.proc np).ofile fd = none
  | .exec _ => False
  | _ => True

def ReleasesUnshared : Machine → Act → Prop
  | .up s, .call p c => CanCall s p c → ReleaseOk s p c
  | _, _ => True

theorem syscall_held {c : Call} (h : Held s) (hc : CanCall s p c) (hok : ReleaseOk s p c) (hs : syscall l s p c = .ok s') : Held s' := by
  have hp : (s.proc p).state = .running := hc.1
  have hl : (s.proc p).Live := .inr (.inl hp)
  cases c with
  | fork =>
    obtain ⟨r, hs⟩ := snd_ok hs
    rcases fork_cases hp hs with ⟨-, hi⟩ | ⟨np, d, D, -, hf⟩
    · unfold Held
      rw [hi.fs]
      exact Refs.procs h hi.same
    · exact hf.held h (hok np hf.slot)
  | clone =>
    have he : clone s p = ((clone s p).1, s') := by rw [← Except.ok.inj hs]
    rcases clone_cases hp he with ⟨-, hi⟩ | ⟨np, -, hcl⟩
    · unfold Held
      rw [hi.fs]
      exact Refs.procs h hi.same
    · exact hcl.held h hl
  | exit => exact exit_held h hl hok hs
  | wait =>
    obtain ⟨r, hs⟩ := snd_ok hs
    rcases wait_cases hp hs with ⟨q, hr⟩ | ⟨st, ch, wt, rfl, -⟩
    · unfold Held
      rw [hr.fs]
      exact Refs.procs h hr.same
    · exact Refs.procs h (same_setState hl st ch wt)
  | kill pid =>
    cases hs
    have hfs : (kill s pid).2.fs = s.fs := by
      unfold kill
      split <;> rfl
    unfold Held
    rw [hfs]
    exact Refs.procs h (kill_same s pid)
  | exec prog => exact absurd hok id
  | sbrk n =>
    obtain ⟨r, hs⟩ := snd_ok hs
    rcases growproc_cases hs with rfl | ⟨d, D, D', sz, hn, hr⟩
    · exact h
    · unfold Held
      rw [hr.fs]
      exact Refs.procs h hr.same
  | openFile path typeOk writable => exact sysOpen_held h hs
  | close fd => exact closeFd_held h hl hok hs
  | dup fd => exact sysDup_held h hs
  | pipe => exact sysPipe_held h hs
  | chdir path isDir => exact sysChdir_held h hl hok hs

theorem step_held {m : Machine} {o : Act} (h : m.All Held) (hg : ReleasesUnshared m o) : (step l m o).All Held := by
  refine h.step fun s s' hm hs ha => ?_
  rcases act_cases ha with rfl | ⟨p, st, ch, hl, -, rfl⟩ | ⟨p, c, rfl, hc, hcall⟩
  · exact hs
  · exact Refs.procs hs (same_setState hl st ch _)
  · rw [hm] at hg
    exact syscall_held hs hc (hg hc) hcall

theorem start_held (l : Link) (avail : ℕ → Bool) : (start l avail).All Held := by
  obtain ⟨d, n, D, hs, -, -⟩ := start_eq l avail
  intro s h
  rw [hs] at h
  cases h
  have hcount : openCount Proc.zero.ofile = 0 := by
    funext f
    exact openCount_eq_zero fun fd => by simp [Proc.zero]
  -- without the first process nobody has a claim, and its directory is set aside
  have hnone : Refs (fun _ => Proc.zero) St.zero.fs.file (update St.zero.fs.inode 0 ⟨ROOTINO, 1⟩)
      (0 + openCount Proc.zero.ofile) (0 + Pi.single 0 1) := by
    rw [hcount]
    refine ⟨0, 0, fun f S => by simp [St.zero], fun ip S => ?_, fun _ _ => rfl, fun i hi => ?_, fun i hi => ?_⟩
    · have hsum : ∑ h ∈ S, Sum.elim (0 : Option ℕ → Fin NINODE → ℕ) (fun f => (St.zero.fs.file f).holds) h ip = 0 := by
        refine Finset.sum_eq_zero fun h _ => ?_
        cases h with
        | inl g => rfl
        | inr f => simp [File.holds, St.zero]
      rw [hsum]
      by_cases hip : ip = 0
      · simp [hip]
      · simp [hip, St.zero]
    all_goals exact absurd hi (not_live_of_unused rfl)
  exact hnone.child rfl rfl

/-- **No dangling references.** In every run in which references are given back only when no other live entry on the
directory uses them, and no child gets leftovers, the descriptors of every live entry refer to files that are open and
its current directory to an inode that is in use. -/
theorem no_dangling (l : Link) (avail : ℕ → Bool) (ops : List Act) (s : St) (i : Fin NPROC)
    (hg : Guarded (step l) ReleasesUnshared (start l avail) ops) (hs : run (step l) (start l avail) ops = .up s)
    (hi : (s.proc i).Live) :
    (∀ fd f, (s.proc i).ofile fd = some f → 1 ≤ (s.fs.file f).ref) ∧
    ∃ ip, (s.proc i).cwd = some ip ∧ 1 ≤ (s.fs.inode ip).ref := by
  have h : Held s := guarded_inv (fun _ _ hg h => step_held h hg) _ (start_held l avail) ops hg s hs
  obtain ⟨w, v, hc⟩ := h
  obtain ⟨ho, ip, hip, hv⟩ := hc.within hi
  refine ⟨fun fd f hfd => ?_, ip, hip, ?_⟩
  · have h1 := (openCount_pos hfd).trans (ho f)
    have h2 := hc.files.le (s.proc i).pgdir f
    simp only [Pi.zero_apply] at h2
    omega
  · have h2 := hc.inodes.le (.inl (s.proc i).pgdir) ip
    simp only [Sum.elim_inl, Pi.zero_apply] at h2
    omega

/-- init opens a file and clones a thread -/
def shareOps : List Act :=
  [.schedule 0, .call 0 (.openFile ⟨true, [2], true⟩ true false), .call 0 .clone, .schedule 1]

theorem no_dangling_share : ∃ s, run (step xv6) (start xv6 fun _ => true) shareOps = .up s ∧ (s.proc 1).Live ∧
    (s.proc 1).ofile 0 = some 0 ∧ (∀ fd f, (s.proc 1).ofile fd = some f → 1 ≤ (s.fs.file f).ref) ∧
    ∃ ip, (s.proc 1).cwd = some ip ∧ 1 ≤ (s.fs.inode ip).ref := by
  obtain ⟨d, n, D, hstart, -, -⟩ := start_eq xv6 fun _ => true
  obtain ⟨s, hrun, hl, hfd⟩ : ∃ s, run (step xv6) (start xv6 fun _ => true) shareOps = .up s ∧
      (s.proc 1).state = .running ∧ (s.proc 1).ofile 0 = some 0 := by
    rw [hstart]
    exact ⟨_, rfl, rfl, rfl⟩
  have hg : Guarded (step xv6) ReleasesUnshared (start xv6 fun _ => true) shareOps := by
    refine guarded_of_forall _ fun o ho m => ?_
    simp only [shareOps, List.mem_cons, List.not_mem_nil, or_false] at ho
    rcases ho with rfl | rfl | rfl | rfl <;> cases m <;> simp [ReleasesUnshared, ReleaseOk]
  have hlive : (s.proc 1).Live := .inr (.inl hl)
  exact ⟨s, hrun, hlive, hfd, no_dangling xv6 _ shareOps s 1 hg hrun hlive⟩

/-- the creator closes the descriptor: its thread is left with a file that is not in use -/
theorem close_under_thread : ∃ s, run (step xv6) (start xv6 fun _ => true) (shareOps ++ [.call 0 (.close 0)]) = .up s ∧
    (s.proc 1).Live ∧ (s.proc 1).ofile 0 = some 0 ∧ (s.fs.file 0).ref = 0 := by
  obtain ⟨d, n, D, hstart, -, -⟩ := start_eq xv6 fun _ => true
  rw [hstart]
  exact ⟨_, rfl, .inr (.inl rfl), rfl, rfl⟩

end Xv6.Kernel
