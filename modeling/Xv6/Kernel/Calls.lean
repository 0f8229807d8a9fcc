/-
What the system calls can do to the process table, said once per call.

- `allocproc_cases`, `fork_cases`, `clone_cases`: nothing but an unused entry changes, or one unused entry becomes a
  child (`Forked`, `Cloned`).
- `exit_cases`: the caller becomes a ZOMBIE (`Exited`); others are at most woken up or get another parent (`Soft`).
- `exec_cases`, `growproc_cases`: the caller's directory is replaced, or another one is put in its place.
- `start_eq`: the state after boot.
-/
import Xv6.Kernel.Proc

namespace Xv6.Kernel

open Xv6.Core

variable {s s' : St} {p : Fin NPROC}

@[simp]
theorem setProc_proc (i : Fin NPROC) (q : Proc) : (s.setProc i q).proc = update s.proc i q := rfl

@[simp]
theorem setProc_dir (i : Fin NPROC) (q : Proc) : (s.setProc i q).dir = s.dir := rfl

@[simp]
theorem setProc_mem (i : Fin NPROC) (q : Proc) : (s.setProc i q).mem = s.mem := rfl

@[simp]
theorem setProc_fs (i : Fin NPROC) (q : Proc) : (s.setProc i q).fs = s.fs := rfl

@[simp]
theorem freeStack_proc (i : Fin NPROC) : (s.freeStack i).proc = s.proc := by
  unfold St.freeStack
  split <;> rfl

@[simp]
theorem freeStack_dir (i : Fin NPROC) : (s.freeStack i).dir = s.dir := by
  unfold St.freeStack
  split <;> rfl

@[simp]
theorem freeStack_mem (i : Fin NPROC) : (s.freeStack i).mem = s.mem := by
  unfold St.freeStack
  split <;> rfl

@[simp]
theorem freeStack_fs (i : Fin NPROC) : (s.freeStack i).fs = s.fs := by
  unfold St.freeStack
  split <;> rfl

variable {np : Fin NPROC}

theorem unusedSlot_state (h : s.unusedSlot = some np) : (s.proc np).state = .unused := by
  simpa using find?_finRange h

/-! ## `allocproc` and its callers -/

/-- nothing changed but the number and the stack of an unused entry -/
structure Idle (s s' : St) : Prop where
  proc : ∀ i, s'.proc i = s.proc i ∨
    (s.proc i).state = .unused ∧ (s'.proc i).state = .unused ∧ (s'.proc i).ofile = (s.proc i).ofile
  dir : s'.dir = s.dir
  fs : s'.fs = s.fs
  next : s.mem.next ≤ s'.mem.next

theorem Idle.refl (s : St) : Idle s s := ⟨fun _ => .inl rfl, rfl, rfl, le_refl _⟩

/-- an unused entry is taken: it has a number and a stack, and what earlier users left in it -/
structure Taken (s s' : St) (np : Fin NPROC) : Prop where
  slot : s.unusedSlot = some np
  proc : ∃ ks, s'.proc = Function.update s.proc np { s.proc np with
    state := .embryo, pid := s.nextpid, kstack := some ks, isthread := false }
  dir : s'.dir = s.dir
  fs : s'.fs = s.fs
  next : s.mem.next ≤ s'.mem.next

theorem allocproc_cases {r : Option (Fin NPROC)} (h : allocproc s = (r, s')) :
    (r = none ∧ Idle s s') ∨ ∃ np, r = some np ∧ Taken s s' np := by
  unfold allocproc at h
  split at h
  · cases h
    exact .inl ⟨rfl, .refl s⟩
  rename_i np hnp
  have hstate := unusedSlot_state hnp
  simp only at h
  split at h
  · rename_i mem hm
    cases h
    refine .inl ⟨rfl, fun i => ?_, rfl, rfl, Names.next_le (.of_alloc (.refl _) hm)⟩
    by_cases hi : i = np
    · subst hi
      exact .inr ⟨hstate, by simp, by simp⟩
    · exact .inl (by simp [hi])
  · rename_i ks mem hm
    cases h
    exact .inr ⟨np, rfl, hnp, ⟨ks, rfl⟩, rfl, rfl, Names.next_le (.of_alloc (.refl _) hm)⟩

/-- a child process: a copy of the address space under a fresh name `d`, and counted references -/
structure Forked (l : Link) (s s' : St) (p np : Fin NPROC) (d : ℕ) (D : Dir) : Prop where
  slot : s.unusedSlot = some np
  others : ∀ i, i ≠ np → s'.proc i = s.proc i
  state : (s'.proc np).state = .runnable
  isthread : (s'.proc np).isthread = false
  pgdir : (s'.proc np).pgdir = some d
  sz : (s'.proc np).sz = (s.proc p).sz
  files : ∃ e, inherit s p np = .ok (s'.fs, (s'.proc np).ofile, e) ∧ (s'.proc np).cwd = some e
  dir : s'.dir = Function.update s.dir d (some D)
  copy : ∃ (d0 : ℕ) (D0 : Dir) (m m' : Names), (s.proc p).pgdir = some d0 ∧ s.dir d0 = some D0 ∧
    copyuvm l D0 (s.proc p).sz m = .ok (some (d, D), m')
  lo : s.mem.next ≤ d
  hi : d < s'.mem.next

/-- a thread: everything is shared with its creator -/
structure Cloned (s s' : St) (p np : Fin NPROC) : Prop where
  slot : s.unusedSlot = some np
  others : ∀ i, i ≠ np → s'.proc i = s.proc i
  state : (s'.proc np).state = .runnable
  isthread : (s'.proc np).isthread = true
  pgdir : (s'.proc np).pgdir = (s.proc p).pgdir
  sz : (s'.proc np).sz = (s.proc p).sz
  ofile : (s'.proc np).ofile = (s.proc p).ofile
  cwd : (s'.proc np).cwd = (s.proc p).cwd
  dir : s'.dir = s.dir
  fs : s'.fs = s.fs
  next : s.mem.next ≤ s'.mem.next

theorem pgdir_ok {d : ℕ} {D : Dir} (h : s.pgdir p = .ok (d, D)) : (s.proc p).pgdir = some d ∧ s.dir d = some D := by
  unfold St.pgdir at h
  split at h
  · cases h
  split at h
  · cases h
  · rename_i hD
    cases h
    exact ⟨‹_›, hD⟩

theorem Taken.ne (h : Taken s s' np) (hp : (s.proc p).state = .running) : p ≠ np := by
  rintro rfl
  rw [unusedSlot_state h.slot] at hp
  cases hp

theorem Taken.caller (h : Taken s s' np) (hp : (s.proc p).state = .running) : s'.proc p = s.proc p := by
  obtain ⟨ks, hproc⟩ := h.proc
  rw [hproc, update_of_ne (h.ne hp)]

variable {r : Option ℕ}

theorem clone_cases (hp : (s.proc p).state = .running) (h : clone s p = (r, s')) :
    (r = none ∧ Idle s s') ∨ ∃ np, r.isSome ∧ Cloned s s' p np := by
  unfold clone at h
  rcases ha : allocproc s with ⟨_ | np, s1⟩
  · rw [ha] at h
    cases h
    rcases allocproc_cases ha with ⟨-, hi⟩ | ⟨_, hr, -⟩
    · exact .inl ⟨rfl, hi⟩
    · cases hr
  · rw [ha] at h
    cases h
    rcases allocproc_cases ha with ⟨hr, -⟩ | ⟨_, hr, ht⟩
    · cases hr
    cases hr
    obtain ⟨ks, hproc⟩ := ht.proc
    have hcaller := ht.caller hp
    refine .inr ⟨np, rfl, ht.slot, fun i hi => ?_, ?_, ?_, ?_, ?_, ?_, ?_, ht.dir, ht.fs, ht.next⟩
    · simp [hi, hproc]
    all_goals simp [hcaller]

theorem inherit_congr (hp : s'.proc p = s.proc p) (ho : (s'.proc np).ofile = (s.proc np).ofile)
    (hfs : s'.fs = s.fs) : inherit s' p np = inherit s p np := by
  unfold inherit
  rw [hp, ho, hfs]

variable {l : Link}

theorem fork_cases (hp : (s.proc p).state = .running) (h : fork l s p = .ok (r, s')) :
    (r = none ∧ Idle s s') ∨ ∃ np d D, r.isSome ∧ Forked l s s' p np d D := by
  unfold fork at h
  rcases ha : allocproc s with ⟨_ | np, s1⟩
  · rw [ha] at h
    cases h
    rcases allocproc_cases ha with ⟨-, hi⟩ | ⟨_, hr, -⟩
    · exact .inl ⟨rfl, hi⟩
    · cases hr
  · rw [ha] at h
    rcases allocproc_cases ha with ⟨hr, -⟩ | ⟨_, hr, ht⟩
    · cases hr
    cases hr
    obtain ⟨ks, hproc⟩ := ht.proc
    have hcaller := ht.caller hp
    unfold forkInto at h
    obtain ⟨⟨d0, D0⟩, hpg, h⟩ := bind_ok h
    obtain ⟨hd0, hD0⟩ := pgdir_ok hpg
    obtain ⟨⟨copy, mem⟩, hcopy, h⟩ := bind_ok h
    rw [hcaller] at hcopy hd0
    rw [ht.dir] at hD0
    simp only at h
    rcases copyuvm_uses hcopy with ⟨rfl, hu⟩ | ⟨d, D, m1, rfl, halloc, hu⟩
    · -- no memory: the entry is given back
      cases h
      refine .inl ⟨rfl, fun i => ?_, by simp [ht.dir], by simp [ht.fs], ?_⟩
      · by_cases hi : i = np
        · subst hi
          exact .inr ⟨unusedSlot_state ht.slot, by simp, by simp [hproc]⟩
        · exact .inl (by simp [hi, hproc])
      · simpa using ht.next.trans (Names.next_le hu)
    · obtain ⟨⟨fs, ofile, e⟩, hin, h⟩ := bind_ok h
      cases h
      obtain ⟨hname, hlt⟩ := Names.lt_next halloc
      have hin' : inherit s p np = .ok (fs, ofile, e) := by
        rw [← hin]
        exact (inherit_congr hcaller (by simp [hproc]) ht.fs).symm
      refine .inr ⟨np, d, D, rfl, ht.slot, fun i hi => ?_, ?_, ?_, ?_, ?_, ⟨e, ?_, ?_⟩, ?_, ?_, ?_, ?_⟩
      · simp [hi, hproc]
      · simp
      · simp [hproc]
      · simp
      · simp [hcaller]
      · simpa using hin'
      · simp
      · simp [ht.dir]
      · exact ⟨d0, D0, _, _, hd0, hD0, hcopy⟩
      · rw [hname]
        exact ht.next
      · exact lt_of_lt_of_le hlt (Names.next_le hu)

/-- with memory to spare, `fork` succeeds once the child's files are in order -/
theorem fork_succeeds {d : ℕ} {D : Dir} (hp : (s.proc p).state = .running)
    (hslot : s.unusedSlot = some np) (hav : ∀ n, s.mem.avail n = true) (hd : (s.proc p).pgdir = some d)
    (hD : s.dir d = some D) (hmap : Mapped D (s.proc p).sz) (hsz : (s.proc p).sz ≤ KERNBASE)
    (hin : ∃ r, inherit s p np = .ok r) : ∃ s' pid, fork l s p = .ok (some pid, s') := by
  obtain ⟨⟨fs, ofile, cwd⟩, hin⟩ := hin
  rcases ha : allocproc s with ⟨r, s1⟩
  have hr : r = some np := by
    simp only [allocproc, hslot, Names.alloc_of_avail hav] at ha
    cases ha
    rfl
  subst hr
  rcases allocproc_cases ha with ⟨hr, -⟩ | ⟨_, hr, ht⟩
  · cases hr
  cases hr
  have hcaller := ht.caller hp
  have hav1 : ∀ n, s1.mem.avail n = true := by
    simp only [allocproc, hslot, Names.alloc_of_avail hav] at ha
    cases ha
    exact hav
  have hpg : s1.pgdir p = .ok (d, D) := by simp only [St.pgdir, hcaller, ht.dir, hd, hD]
  rcases copyuvm_mapped hmap hsz l s1.mem with ⟨_, _, _, hdry⟩ | ⟨d', D', a1, mem, hc, -⟩
  · exact absurd hdry (Names.not_dry hav1)
  have hin1 : inherit { s1 with mem := mem } p np = .ok (fs, ofile, cwd) := by
    obtain ⟨ks, hproc⟩ := ht.proc
    rw [← hin]
    exact inherit_congr hcaller (by simp [hproc]) ht.fs
  simp only [fork, ha, forkInto, hpg, ok_bind, hcaller, hc, hin1]
  exact ⟨_, _, rfl⟩

/-! ## Calls on files -/

/-- nothing changed but the caller's descriptors and directory, the files and the allocator -/
structure OnlyFiles (s s' : St) (p : Fin NPROC) : Prop where
  others : ∀ i, i ≠ p → s'.proc i = s.proc i
  self : ∃ o c, s'.proc p = { s.proc p with ofile := o, cwd := c }
  dir : s'.dir = s.dir
  next : s.mem.next ≤ s'.mem.next

theorem OnlyFiles.refl (s : St) (p : Fin NPROC) : OnlyFiles s s p :=
  ⟨fun _ _ => rfl, ⟨_, _, rfl⟩, rfl, le_refl _⟩

theorem OnlyFiles.trans {s1 : St} (h : OnlyFiles s s1 p) (k : OnlyFiles s1 s' p) : OnlyFiles s s' p := by
  obtain ⟨o, c, h2⟩ := h.self
  obtain ⟨o', c', k2⟩ := k.self
  refine ⟨fun i hi => (k.others i hi).trans (h.others i hi), ⟨o', c', ?_⟩, k.dir.trans h.dir, h.next.trans k.next⟩
  rw [k2, h2]

/-- a change of the file tables alone -/
theorem OnlyFiles.of_fs (s : St) (p : Fin NPROC) (fs : Files) : OnlyFiles s { s with fs := fs } p :=
  ⟨fun _ _ => rfl, ⟨_, _, rfl⟩, rfl, le_refl _⟩

/-- a change of the caller's descriptors and directory -/
theorem OnlyFiles.of_proc (s : St) (p : Fin NPROC) (o : Fin NOFILE → Option (Fin NFILE)) (c : Option (Fin NINODE)) :
    OnlyFiles s (s.setProc p { s.proc p with ofile := o, cwd := c }) p :=
  ⟨fun i hi => by simp [hi], ⟨o, c, by simp⟩, rfl, le_refl _⟩

variable {fd : Fin NOFILE}

theorem closeFd_only (h : closeFd s p fd = .ok s') : OnlyFiles s s' p := by
  unfold closeFd at h
  split at h
  · cases h
    exact .refl _ p
  · obtain ⟨fs, -, h⟩ := bind_ok h
    cases h
    exact (OnlyFiles.of_proc s p _ _).trans (.of_fs _ p fs)

theorem iputCwd_only (h : iputCwd s p = .ok s') : OnlyFiles s s' p := by
  unfold iputCwd at h
  split at h
  · cases h
  · cases h
    exact .of_fs s p _

theorem fdalloc_only {f : Fin NFILE} (h : fdalloc s p f = some (fd, s')) : OnlyFiles s s' p := by
  unfold fdalloc at h
  split at h
  · cases h
  · cases h
    exact .of_proc s p _ _

theorem sysDup_only (h : sysDup s p fd = .ok s') : OnlyFiles s s' p := by
  unfold sysDup at h
  split at h
  · cases h
    exact .refl _ p
  split at h
  · cases h
    exact .refl _ p
  · rename_i hfd
    obtain ⟨fs, -, h⟩ := bind_ok h
    cases h
    exact (fdalloc_only hfd).trans (.of_fs _ p fs)

theorem sysOpen_only {path : Path} {typeOk writable : Bool} (h : sysOpen s p path typeOk writable = .ok s') : OnlyFiles s s' p := by
  unfold sysOpen at h
  obtain ⟨⟨ip, inode⟩, -, h⟩ := bind_ok h
  cases ip with
  | none =>
    cases h
    exact .of_fs s p _
  | some ip =>
    obtain ⟨-, -, h⟩ := bind_ok h
    simp only at h
    split at h
    · cases h
      exact .of_fs s p _
    split at h
    · cases h
      exact .of_fs s p _
    split at h
    · obtain ⟨fs, -, h⟩ := bind_ok h
      cases h
      exact .of_fs s p _
    · rename_i hfd
      cases h
      exact ((OnlyFiles.of_fs s p _).trans (fdalloc_only hfd)).trans (.of_fs _ p _)

theorem pipealloc_only {r : Option (Fin NFILE × Fin NFILE)} (h : pipealloc s = .ok (r, s')) : OnlyFiles s s' p := by
  have hmem : ∀ (fs : Files) (mem : Names), s.mem.next ≤ mem.next → OnlyFiles s { s with fs := fs, mem := mem } p :=
    fun _ _ hn => ⟨fun _ _ => rfl, ⟨_, _, rfl⟩, rfl, hn⟩
  unfold pipealloc at h
  split at h
  · cases h
    exact .refl _ p
  split at h
  · obtain ⟨fs, -, h⟩ := bind_ok h
    cases h
    exact .of_fs s p fs
  split at h
  · rename_i hm
    obtain ⟨fs, -, h⟩ := bind_ok h
    obtain ⟨fs', -, h⟩ := bind_ok h
    cases h
    exact hmem _ _ (Names.next_le (.of_alloc (.refl _) hm))
  · rename_i hm
    cases h
    exact hmem _ _ (Names.next_le (.of_alloc (.refl _) hm))

theorem sysPipe_only (h : sysPipe s p = .ok s') : OnlyFiles s s' p := by
  unfold sysPipe at h
  obtain ⟨⟨r, s1⟩, halloc, h⟩ := bind_ok h
  have h1 : OnlyFiles s s1 p := pipealloc_only halloc
  have hbad : ∀ {s2 s3 : St} {rf wf : Fin NFILE}, OnlyFiles s1 s2 p → (do
      let fs ← fileclose rf s2.fs
      let fs ← fileclose wf fs
      return { s2 with fs := fs }) = (.ok s3 : Except Panic St) → OnlyFiles s1 s3 p := by
    intro s2 s3 rf wf h2 h
    obtain ⟨fs, -, h⟩ := bind_ok h
    obtain ⟨fs', -, h⟩ := bind_ok h
    cases h
    exact h2.trans (.of_fs s2 p fs')
  rcases r with _ | ⟨rf, wf⟩
  · cases h
    exact h1
  · simp only at h
    split at h
    · exact h1.trans (hbad (.refl s1 p) h)
    · rename_i hfd
      split at h
      · exact h1.trans (hbad ((fdalloc_only hfd).trans (.of_proc _ p _ _)) h)
      · rename_i hfd1
        cases h
        exact h1.trans ((fdalloc_only hfd).trans (fdalloc_only hfd1))

theorem sysChdir_only {path : Path} {isDir : Bool} (h : sysChdir s p path isDir = .ok s') : OnlyFiles s s' p := by
  unfold sysChdir at h
  obtain ⟨⟨ip, inode⟩, -, h⟩ := bind_ok h
  cases ip with
  | none =>
    cases h
    exact .of_fs s p _
  | some ip =>
    obtain ⟨-, -, h⟩ := bind_ok h
    simp only at h
    split at h
    · cases h
      exact .of_fs s p _
    · obtain ⟨s1, hput, h⟩ := bind_ok h
      cases h
      exact ((OnlyFiles.of_fs s p _).trans (iputCwd_only hput)).trans (.of_proc s1 p _ _)

/-! ## `exit` -/

/-- at most a new parent, or woken up -/
def Soft (a b : Proc) : Prop :=
  ∃ par st, b = { a with parent := par, state := st } ∧ (st = a.state ∨ a.state = .sleeping ∧ st = .runnable)

theorem Soft.refl (a : Proc) : Soft a a := ⟨a.parent, a.state, rfl, .inl rfl⟩

theorem Soft.trans {a b c : Proc} (h : Soft a b) (k : Soft b c) : Soft a c := by
  obtain ⟨par, st, rfl, hst⟩ := h
  obtain ⟨par', st', rfl, hst'⟩ := k
  refine ⟨par', st', rfl, ?_⟩
  rcases hst with rfl | ⟨hs, rfl⟩
  · exact hst'
  · rcases hst' with rfl | ⟨hs', -⟩
    · exact .inr ⟨hs, rfl⟩
    · exact absurd hs' (by simp)

theorem wakeup1_soft (chan : Option (Fin NPROC)) (proc : Fin NPROC → Proc) (i : Fin NPROC) : Soft (proc i) (wakeup1 chan proc i) := by
  unfold wakeup1
  split
  · rename_i h
    exact ⟨_, .runnable, rfl, .inr ⟨h.1, rfl⟩⟩
  · exact .refl _

theorem reparentStep_soft (q : Fin NPROC) (proc : Fin NPROC → Proc) (j i : Fin NPROC) : Soft (proc i) (reparentStep q proc j i) := by
  have hupd : Soft (proc i) (update proc j { proc j with parent := some initproc } i) := by
    by_cases hi : i = j
    · subst hi
      rw [update_self]
      exact ⟨_, _, rfl, .inl rfl⟩
    · rw [update_of_ne hi]
      exact .refl _
  unfold reparentStep
  split
  · simp only
    split
    · exact hupd.trans (wakeup1_soft _ _ i)
    · exact hupd
  · exact .refl _

theorem reparent_soft (q : Fin NPROC) (l : List (Fin NPROC)) (proc : Fin NPROC → Proc) (i : Fin NPROC) :
    Soft (proc i) (l.foldl (reparentStep q) proc i) := by
  induction l generalizing proc with
  | nil => exact .refl _
  | cons j l ih => exact (reparentStep_soft q proc j i).trans (ih _)

variable {proc : Fin NPROC → Proc}

theorem wakeup1_id (h : ∀ i, (proc i).state ≠ .sleeping) (chan : Option (Fin NPROC)) : wakeup1 chan proc = proc := by
  funext i
  simp [wakeup1, h i]

theorem reparent_id (h : ∀ i, (proc i).parent ≠ some p) (l : List (Fin NPROC)) : l.foldl (reparentStep p) proc = proc := by
  induction l with
  | nil => rfl
  | cons i l ih =>
    have hi : reparentStep p proc i = proc := by simp [reparentStep, h i]
    rw [List.foldl_cons, hi, ih]

/-- a thread without children exits while nobody sleeps -/
theorem exit_thread (hp : p ≠ initproc) (ht : (s.proc p).isthread = true) (hs : ∀ i, (s.proc i).state ≠ .sleeping)
    (hc : ∀ i, (s.proc i).parent ≠ some p) :
    exit s p = .ok (s.setProc p { s.proc p with cwd := none, state := .zombie }) := by
  have hs' : ∀ i, ((s.setProc p { s.proc p with cwd := none }).proc i).state ≠ .sleeping := by
    intro i
    by_cases hi : i = p
    · simpa [hi] using hs p
    · simpa [hi] using hs i
  have hc' : ∀ i, ((s.setProc p { s.proc p with cwd := none }).proc i).parent ≠ some p := by
    intro i
    by_cases hi : i = p
    · simpa [hi] using hc p
    · simpa [hi] using hc i
  have hf : exitFiles s p = .ok s := by simp [exitFiles, ht]
  unfold exit
  rw [if_neg hp, hf, ok_bind]
  simp only [wakeup1_id hs', reparent_id hc']
  simp only [setProc_proc, update_self, update_idem]
  rfl

/-- the caller became a ZOMBIE without a directory, others are at most woken up or have a new parent -/
structure Exited (s s' : St) (p : Fin NPROC) : Prop where
  others : ∀ i, i ≠ p → Soft (s.proc i) (s'.proc i)
  self : ∃ par, s'.proc p = { s.proc p with cwd := none, parent := par, state := .zombie }
  dir : s'.dir = s.dir
  mem : s'.mem = s.mem
  fs : s'.fs = s.fs

theorem exitFiles_only (h : exitFiles s p = .ok s') : OnlyFiles s s' p := by
  unfold exitFiles at h
  split at h
  · cases h
    exact .refl _ p
  · obtain ⟨s1, hclose, h⟩ := bind_ok h
    refine OnlyFiles.trans (foldlM_inv (I := fun t => OnlyFiles s t p) ?_ hclose (.refl s p)) (iputCwd_only h)
    exact fun t fd t' ht ho => ho.trans (closeFd_only ht)

theorem exit_cases (h : exit s p = .ok s') : ∃ s1, exitFiles s p = .ok s1 ∧ Exited s1 s' p := by
  unfold exit at h
  split at h
  · cases h
  obtain ⟨s1, hf, h⟩ := bind_ok h
  cases h
  have hsoft := fun i => (wakeup1_soft (s1.proc p).parent
    (update s1.proc p { s1.proc p with cwd := none }) i).trans (reparent_soft p (List.finRange NPROC) _ i)
  refine ⟨s1, hf, fun i hi => ?_, ?_, rfl, rfl, rfl⟩
  · have h := hsoft i
    rw [update_of_ne hi] at h
    simpa [hi] using h
  · obtain ⟨par, st, he, -⟩ := hsoft p
    rw [update_self] at he
    refine ⟨par, ?_⟩
    simp [he]

/-! ## `wait` -/

/-- the ZOMBIE child `q` was taken out of the table, and its directory freed unless it was a thread -/
structure Reaped (s s' : St) (p q : Fin NPROC) : Prop where
  child : zombieChild s p = some q
  others : ∀ i, i ≠ p → i ≠ q → s'.proc i = s.proc i
  self : s'.proc p = { s.proc p with waiting := false }
  state : (s'.proc q).state = .unused
  ofile : (s'.proc q).ofile = (s.proc q).ofile
  thread : (s.proc q).isthread = true → s'.dir = s.dir
  freed : (s.proc q).isthread = false → ∃ d D, (s.proc q).pgdir = some d ∧ s.dir d = some D ∧
    s'.dir = Function.update s.dir d none
  fs : s'.fs = s.fs
  next : s.mem.next ≤ s'.mem.next
  avail : s'.mem.avail = s.mem.avail

theorem freevm_ok (h : s.freevm p = .ok s') : ∃ d D, (s.proc p).pgdir = some d ∧ s.dir d = some D ∧
    s' = { s with dir := update s.dir d none, mem := freevm d D s.mem } := by
  unfold St.freevm at h
  split at h
  · cases h
  split at h
  · cases h
  · rename_i d hd _ D hD
    cases h
    exact ⟨d, D, hd, hD, rfl⟩

theorem zombieChild_state {q : Fin NPROC} (h : zombieChild s p = some q) : (s.proc q).parent = some p ∧ (s.proc q).state = .zombie := by
  simpa using find?_finRange h

/-- a child is reaped; or the caller stays, or goes to sleep on itself -/
theorem wait_cases (hp : (s.proc p).state = .running) (h : wait s p = .ok (r, s')) :
    (∃ q, Reaped s s' p q) ∨
    ∃ st ch w, s' = s.setProc p { s.proc p with state := st, chan := ch, waiting := w } ∧
      (st = .running ∨ st = .sleeping) ∧ zombieChild s p = none := by
  unfold wait at h
  rcases hz : zombieChild s p with _ | q
  · simp only [hz] at h
    split at h
    · cases h
      refine .inr ⟨.running, (s.proc p).chan, false, ?_, .inl rfl, rfl⟩
      rw [← hp]
    · cases h
      exact .inr ⟨.sleeping, some p, true, rfl, .inr rfl, rfl⟩
  · simp only [hz] at h
    obtain ⟨s1, hf, h⟩ := bind_ok h
    cases h
    have hne : q ≠ p := by
      rintro rfl
      rw [(zombieChild_state hz).2] at hp
      cases hp
    refine .inl ⟨q, ?_⟩
    unfold St.freeImage at hf
    simp only [freeStack_proc] at hf
    split at hf
    · rename_i ht
      cases hf
      refine ⟨hz, fun i hi hq => ?_, ?_, ?_, ?_, fun _ => ?_, fun hn => ?_, ?_, ?_, ?_⟩
      · simp [hi, hq]
      · simp [hne.symm]
      · simp [hne]
      · simp [hne]
      · simp
      · exact absurd (ht.symm.trans hn) (by simp)
      all_goals simp
    · rename_i ht
      obtain ⟨d, D, hd, hD, rfl⟩ := freevm_ok hf
      simp only [freeStack_proc, freeStack_dir] at hd hD
      refine ⟨hz, fun i hi hq => ?_, ?_, ?_, ?_, fun hy => ?_, fun _ => ⟨d, D, hd, hD, ?_⟩, ?_, ?_, ?_⟩
      · simp [hi, hq]
      · simp [hne.symm]
      · simp [hne]
      · simp [hne]
      · exact absurd hy ht
      · simp
      · simp
      · simpa using Names.next_le (freevm_uses d D s.mem)
      · simpa using Names.avail_eq (freevm_uses d D s.mem)

/-! ## `exec` and `sbrk` -/

/-- the caller has a new image under a fresh name `d`, and the old one is freed -/
structure Execed (s s' : St) (p : Fin NPROC) (d : ℕ) (D : Dir) (sz : ℕ) : Prop where
  others : ∀ i, i ≠ p → s'.proc i = s.proc i
  self : s'.proc p = { s.proc p with pgdir := some d, sz := sz }
  old : ∃ d0 D0, (s.proc p).pgdir = some d0 ∧ s.dir d0 = some D0 ∧
    s'.dir = Function.update (Function.update s.dir d0 none) d (some D)
  mapped : Mapped D sz
  small : sz < KERNBASE
  lo : s.mem.next ≤ d
  hi : d < s'.mem.next

theorem exec_cases {prog : Program} {r : Bool} (h : exec l s p prog = .ok (r, s')) :
    (r = false ∧ OnlyFiles s s' p) ∨ ∃ d D sz, r = true ∧ Execed s s' p d D sz := by
  unfold exec at h
  obtain ⟨⟨ip, inode⟩, -, h⟩ := bind_ok h
  cases ip with
  | none =>
    cases h
    exact .inl ⟨rfl, .of_fs s p _⟩
  | some ip =>
    obtain ⟨-, -, h⟩ := bind_ok h
    simp only at h
    split at h
    · cases h
      exact .inl ⟨rfl, .of_fs s p _⟩
    · obtain ⟨⟨img, mem⟩, himg, h⟩ := bind_ok h
      rcases image_mapped l prog.segs prog.args s.mem with ⟨a', he, hu⟩ | ⟨d, D, sz, a1, a', he, ha, hu, hm, hsz⟩
      · obtain ⟨rfl, rfl⟩ : img = none ∧ mem = a' := by simpa [he] using himg.symm
        cases h
        exact .inl ⟨rfl, fun _ _ => rfl, ⟨_, _, rfl⟩, rfl, Names.next_le hu⟩
      · obtain ⟨rfl, rfl⟩ : img = some (d, D, sz) ∧ mem = a' := by simpa [he] using himg.symm
        obtain ⟨s1, hf, h⟩ := bind_ok h
        obtain ⟨d0, D0, hd0, hD0, rfl⟩ := freevm_ok hf
        cases h
        obtain ⟨hname, hlt⟩ := Names.lt_next ha
        refine .inr ⟨d, D, sz, rfl, fun i hi => ?_, ?_, ⟨d0, D0, hd0, hD0, rfl⟩, hm, hsz, ?_, ?_⟩
        · simp [hi]
        · simp
        · exact hname.ge
        · exact lt_of_lt_of_le hlt ((Names.next_le hu).trans (Names.next_le (freevm_uses d0 D0 mem)))

/-- the caller's directory was grown or shrunk in place -/
structure Resized (s s' : St) (p : Fin NPROC) (n : ℤ) (d : ℕ) (D D' : Dir) (sz : ℕ) : Prop where
  others : ∀ i, i ≠ p → s'.proc i = s.proc i
  self : s'.proc p = if sz = 0 then s.proc p else { s.proc p with sz := sz }
  pgdir : (s.proc p).pgdir = some d
  old : s.dir d = some D
  dir : s'.dir = Function.update s.dir d (some D')
  fs : s'.fs = s.fs
  uses : Uses s.mem s'.mem
  grow : 0 < n → allocuvm D (s.proc p).sz ((((s.proc p).sz : ℤ) + n) % 2 ^ 32).toNat s.mem = .ok (sz, D', s'.mem)
  shrink : n < 0 → deallocuvm D (s.proc p).sz ((((s.proc p).sz : ℤ) + n) % 2 ^ 32).toNat s.mem = (sz, D', s'.mem)

theorem growproc_cases {n : ℤ} {r : Bool} (h : growproc s p n = .ok (r, s')) : s' = s ∨ ∃ d D D' sz, n ≠ 0 ∧ Resized s s' p n d D D' sz := by
  unfold growproc at h
  simp only at h
  split at h
  · cases h
    exact .inl rfl
  rename_i hn
  obtain ⟨⟨d, D⟩, hpg, h⟩ := bind_ok h
  obtain ⟨hd, hD⟩ := pgdir_ok hpg
  obtain ⟨⟨sz, D', mem⟩, hcall, h⟩ := bind_ok h
  unfold resize at hcall
  simp only at hcall h
  have hgrow : 0 < n → allocuvm D (s.proc p).sz ((((s.proc p).sz : ℤ) + n) % 2 ^ 32).toNat s.mem = .ok (sz, D', mem) := by
    intro hpos
    rwa [if_pos hpos] at hcall
  have hshrink : n < 0 → deallocuvm D (s.proc p).sz ((((s.proc p).sz : ℤ) + n) % 2 ^ 32).toNat s.mem = (sz, D', mem) := by
    intro hneg
    rw [if_neg (by omega)] at hcall
    exact Except.ok.inj hcall
  have huses : Uses s.mem mem := by
    rcases lt_or_gt_of_ne hn with hneg | hpos
    · have hu := deallocuvm_uses D (s.proc p).sz ((((s.proc p).sz : ℤ) + n) % 2 ^ 32).toNat s.mem
      rwa [hshrink hneg] at hu
    · exact allocuvm_uses (hgrow hpos)
  refine .inr ⟨d, D, D', sz, hn, ?_⟩
  split at h
  · rename_i hz
    cases h
    exact ⟨fun _ _ => rfl, by rw [if_pos hz], hd, hD, rfl, rfl, huses, hgrow, hshrink⟩
  · rename_i hz
    cases h
    exact ⟨fun i hi => by simp [hi], by simp [hz], hd, hD, rfl, rfl, huses, hgrow, hshrink⟩

/-! ## Steps -/

/-- one step: nothing, a scheduling decision about a live entry, or a system call of a running one -/
theorem act_cases {o : Act} (h : act l s o = .ok s') :
    s' = s ∨
    (∃ p st ch, (s.proc p).Live ∧ (st = .running ∨ st = .runnable) ∧
      s' = s.setProc p { s.proc p with state := st, chan := ch }) ∨
    ∃ p c, o = .call p c ∧ CanCall s p c ∧ syscall l s p c = .ok s' := by
  unfold act at h
  cases o with
  | schedule p =>
    simp only [Except.ok.injEq] at h
    split at h
    · rename_i hr
      exact .inr (.inl ⟨p, .running, none, .inl hr, .inl rfl, h.symm⟩)
    · exact .inl h.symm
  | yield p =>
    simp only [Except.ok.injEq] at h
    split at h
    · rename_i hr
      exact .inr (.inl ⟨p, .runnable, (s.proc p).chan, .inr (.inl hr), .inr rfl, h.symm⟩)
    · exact .inl h.symm
  | call p c =>
    simp only at h
    split at h
    · rename_i hc
      exact .inr (.inr ⟨p, c, rfl, hc, h⟩)
    · cases h
      exact .inl rfl

/-- an invariant of the state, which says nothing of a machine that has stopped -/
def Machine.All (I : St → Prop) (m : Machine) : Prop := ∀ s, m = .up s → I s

/-- a step keeps what `act` keeps -/
theorem Machine.All.step {I : St → Prop} {m : Machine} {o : Act} (h : m.All I)
    (hact : ∀ s s', m = .up s → I s → act l s o = .ok s' → I s') : (step l m o).All I := by
  intro s' hs
  cases m with
  | halted why => cases hs
  | up s =>
    cases ha : act l s o with
    | error why =>
      simp only [Kernel.step, ha] at hs
      cases hs
    | ok t =>
      simp only [Kernel.step, ha] at hs
      cases hs
      exact hact s _ rfl (h s rfl) ha

/-! ## Boot -/

theorem zero_unusedSlot : St.zero.unusedSlot = some initproc := by decide

/-- the root directory goes into the first entry of the inode cache -/
theorem namex_zero : namex .root none St.zero.fs.inode =
    .ok (some 0, update St.zero.fs.inode 0 ⟨ROOTINO, 1⟩) := rfl

theorem allocproc_zero : allocproc .zero = (some initproc, { St.zero.setProc initproc { Proc.zero with
    state := .embryo, pid := 1, kstack := some 0 } with nextpid := 2, mem := ⟨1, fun _ => true⟩ }) := by
  simp only [allocproc, zero_unusedSlot]
  rfl

theorem start_eq (l : Link) (avail : ℕ → Bool) : ∃ d n D, start l avail = .up (booted d D ⟨n, avail⟩) ∧ Mapped D PGSIZE ∧ d < n := by
  have hdry : ¬ Dry (⟨1, fun _ => true⟩ : Names) := Names.not_dry fun _ => rfl
  rcases setupkvm_mapped l (⟨1, fun _ => true⟩ : Names) with ⟨_, _, _, hd⟩ | ⟨d, D, m1, m2, hs, ha, hu, hmap⟩
  · exact absurd hd hdry
  have hu2 : Uses ⟨1, fun _ => true⟩ m2 := (Uses.of_alloc (.refl _) ha).trans hu
  obtain ⟨D', m3, hi, hu3, hmap'⟩ := inituvm_mapped hmap l.initcodeSize_lt (fun hd => hdry (hd.of_uses hu2))
  have huser : userinit l .zero = .ok (booted d D' m3) := by
    unfold userinit
    simp only [allocproc_zero, hs, hi, ok_bind, St.setProc, namex_zero]
    simp only [update_idem, update_self]
    rfl
  refine ⟨d, m3.next, D', ?_, hmap', ?_⟩
  · rw [start, huser]
    rfl
  · exact lt_of_lt_of_le (Names.lt_next ha).2 ((Names.next_le hu).trans (Names.next_le hu3))

/-- the kernel as it is linked -/
def xv6 : Link := kernelLink

end Xv6.Kernel
