/-
The descriptors a child inherits.

`fork` writes the child's descriptors only where the parent's are not null, into an entry that keeps what its last user
left in it. A process leaves nothing there, since `exit` closes and clears its descriptors; a thread leaves all of them,
since `exit` skips them.
-/
import Xv6.Kernel.Calls

namespace Xv6.Kernel

open Xv6.Core

variable {s s' : St} {p : Fin NPROC}

/-- the number of descriptors that refer to a file -/
def openCount (o : Fin NOFILE → Option (Fin NFILE)) (f : Fin NFILE) : ℕ := ∑ fd, if o fd = some f then 1 else 0

/-! ## The loop of `fork` -/

/-- what the loop has done when the rounds `rest` are left -/
structure Duped (parent o0 : Fin NOFILE → Option (Fin NFILE)) (fs0 : Files) (rest : List (Fin NOFILE)) (fs : Files)
    (o : Fin NOFILE → Option (Fin NFILE)) : Prop where
  ofile : ∀ fd, o fd = if fd ∈ rest ∨ parent fd = none then o0 fd else parent fd
  file : ∀ f, fs.file f = { fs0.file f with ref := (fs.file f).ref }
  ref : ∀ f, (fs.file f).ref + ((rest.map fun fd => if parent fd = some f then 1 else 0).sum : ℕ) =
    (fs0.file f).ref + openCount parent f
  inode : fs.inode = fs0.inode
  pipe : fs.pipe = fs0.pipe

theorem Duped.start (parent o0 : Fin NOFILE → Option (Fin NFILE)) (fs0 : Files) : Duped parent o0 fs0 (List.finRange NOFILE) fs0 o0 := by
  refine ⟨fun fd => by simp, fun _ => rfl, fun f => ?_, rfl, rfl⟩
  rw [openCount, Fin.sum_univ_def]

variable {fd : Fin NOFILE} {fs : Files} {o : Fin NOFILE → Option (Fin NFILE)}

theorem Duped.step {parent o0 : Fin NOFILE → Option (Fin NFILE)} {fs0 : Files} {rest : List (Fin NOFILE)} {fs' : Files} {o' : Fin NOFILE → Option (Fin NFILE)} (hfd : fd ∉ rest)
    (h : dupStep parent (fs, o) fd = .ok (fs', o')) (d : Duped parent o0 fs0 (fd :: rest) fs o) : Duped parent o0 fs0 rest fs' o' := by
  unfold dupStep at h
  simp only at h
  split at h
  · rename_i hnone
    cases h
    refine ⟨fun fd' => ?_, d.file, fun f => ?_, d.inode, d.pipe⟩
    · rw [d.ofile fd']
      by_cases he : fd' = fd
      · simp [he, hnone]
      · simp [he]
    · rw [← d.ref f]
      simp [hnone]
  · rename_i f hf
    obtain ⟨fs1, hdup, h⟩ := bind_ok h
    cases h
    obtain ⟨-, rfl⟩ := filedup_spec hdup
    refine ⟨fun fd' => ?_, fun g => ?_, fun g => ?_, d.inode, d.pipe⟩
    · by_cases he : fd' = fd
      · simp [he, hf, hfd]
      · simp only [update_of_ne he]
        rw [d.ofile fd']
        simp [he]
    · by_cases hg : g = f
      · subst hg
        simp only [update_self]
        rw [d.file g]
      · simp only [update_of_ne hg]
        exact d.file g
    · rw [← d.ref g]
      by_cases hg : g = f
      · subst hg
        simp [hf]
        omega
      · simp [hf, hg, Ne.symm hg]

/-- **What a child inherits.** -/
theorem inherit_spec {np : Fin NPROC} {e : Fin NINODE}
    (h : inherit s p np = .ok (fs, o, e)) :
    (∀ fd, o fd = if (s.proc p).ofile fd = none then (s.proc np).ofile fd else (s.proc p).ofile fd) ∧
    (∀ f, fs.file f = { s.fs.file f with ref := (s.fs.file f).ref + openCount (s.proc p).ofile f }) ∧
    fs.inode = idup e s.fs.inode ∧ fs.pipe = s.fs.pipe ∧ (s.proc p).cwd = some e := by
  unfold inherit at h
  obtain ⟨⟨fs1, o1⟩, hloop, h⟩ := bind_ok h
  have hd : Duped (s.proc p).ofile (s.proc np).ofile s.fs [] fs1 o1 := by
    have hboth := foldlM_rest
      (I := fun l st => l.Nodup ∧ Duped (s.proc p).ofile (s.proc np).ofile s.fs l st.1 st.2) ?_ hloop
      ⟨List.nodup_finRange NOFILE, .start _ _ _⟩
    · exact hboth.2
    · rintro fd rest ⟨fs, o⟩ ⟨fs', o'⟩ hs ⟨hn, hd⟩
      rw [List.nodup_cons] at hn
      exact ⟨hn.2, hd.step hn.1 hs⟩
  simp only at h
  split at h
  · cases h
  · rename_i cwd hcwd
    cases h
    refine ⟨fun fd => ?_, fun f => ?_, ?_, hd.pipe, hcwd⟩
    · simpa using hd.ofile fd
    · have hr := hd.ref f
      simp only [List.map_nil, List.sum_nil, Nat.cast_zero, add_zero] at hr
      simp only
      rw [hd.file f, hr]
    · rw [hd.inode]

variable {l : Link} {d : ℕ} {D : Dir}

/-- a `fork` that succeeds: the entry it takes and the child's table -/
theorem Forked.copies {np : Fin NPROC} (f : Forked l s s' p np d D) : ((s'.proc np).ofile = (s.proc p).ofile ∧
      ∀ g, (s'.fs.file g).ref = (s.fs.file g).ref + openCount (s.proc p).ofile g) ↔
    ∀ fd, (s.proc p).ofile fd = none → (s.proc np).ofile fd = none := by
  obtain ⟨e, hin, -⟩ := f.files
  obtain ⟨hofile, hfile, -⟩ := inherit_spec hin
  refine ⟨fun h fd hfd => ?_, fun h => ⟨funext fun fd => ?_, fun g => by rw [hfile g]⟩⟩
  · have ho := hofile fd
    rw [h.1, hfd, if_pos rfl] at ho
    exact ho.symm
  · rw [hofile fd]
    split
    · rename_i hfd
      rw [hfd, h fd hfd]
    · rfl

/-! ## What an entry is left with -/

/-- an entry that is not live has no descriptors -/
def Clean (s : St) : Prop := ∀ i, ¬ (s.proc i).Live → ∀ fd, (s.proc i).ofile fd = none

/-- every entry is live afterwards, or was not live before and keeps its descriptors -/
def Tame (s s' : St) : Prop :=
  ∀ i, (s'.proc i).Live ∨ ¬ (s.proc i).Live ∧ (s'.proc i).ofile = (s.proc i).ofile

theorem Clean.tame (h : Clean s) (t : Tame s s') : Clean s' := by
  intro i hi fd
  rcases t i with hl | ⟨hn, ho⟩
  · exact absurd hl hi
  · rw [ho]
    exact h i hn fd

theorem Tame.refl (s : St) : Tame s s := by
  intro i
  by_cases hi : (s.proc i).Live
  · exact .inl hi
  · exact .inr ⟨hi, rfl⟩

theorem not_live_of_unused {q : Proc} (h : q.state = .unused) : ¬ q.Live := by
  rintro (h' | h' | h') <;> rw [h] at h' <;> cases h'

theorem Idle.tame (h : Idle s s') : Tame s s' := by
  intro i
  rcases h.proc i with he | ⟨hu, -, ho⟩
  · rw [he]
    exact Tame.refl s i
  · exact .inr ⟨not_live_of_unused hu, ho⟩

/-- all entries but one are the same, and that one is live -/
theorem Tame.of_live (h : ∀ i, i ≠ p → s'.proc i = s.proc i) (hp : (s'.proc p).Live) : Tame s s' := by
  intro i
  by_cases hi : i = p
  · exact .inl (hi ▸ hp)
  · rw [h i hi]
    exact Tame.refl s i

theorem OnlyFiles.tame (h : OnlyFiles s s' p) (hp : (s.proc p).Live) : Tame s s' := by
  refine .of_live h.others ?_
  obtain ⟨o, c, he⟩ := h.self
  rw [he]
  exact hp

variable {a b : Proc}

theorem Soft.live_iff (h : Soft a b) : b.Live ↔ a.Live := by
  obtain ⟨par, st, rfl, rfl | ⟨hs, rfl⟩⟩ := h
  · exact Iff.rfl
  · simp [Proc.Live, hs]

theorem Soft.ofile (h : Soft a b) : b.ofile = a.ofile := by
  obtain ⟨par, st, rfl, -⟩ := h
  rfl

theorem closeFd_ofile (h : closeFd s p fd = .ok s') : (s'.proc p).ofile = Function.update (s.proc p).ofile fd none := by
  unfold closeFd at h
  split at h
  · rename_i hnone
    cases h
    rw [← hnone, update_eq_self]
  · obtain ⟨fs, -, h⟩ := bind_ok h
    cases h
    simp

/-- the loop of `exit` clears every descriptor -/
theorem closeAll_ofile (h : (List.finRange NOFILE).foldlM (fun s fd => closeFd s p fd) s = .ok s') (fd : Fin NOFILE) :
    (s'.proc p).ofile fd = none := by
  refine foldlM_rest (I := fun l (t : St) => ∀ fd, fd ∉ l → (t.proc p).ofile fd = none) ?_ h
    (fun fd hfd => absurd (List.mem_finRange fd) hfd) fd (by simp)
  intro j rest t t' hstep ih fd hfd
  rw [closeFd_ofile hstep]
  by_cases he : fd = j
  · rw [he, update_self]
  · rw [update_of_ne he]
    exact ih fd (by simp [he, hfd])

/-- a process that exits has closed everything; a thread keeps its table -/
theorem exitFiles_ofile (h : exitFiles s p = .ok s') :
    ((s.proc p).isthread = true ∧ s' = s) ∨ (s.proc p).isthread = false ∧ ∀ fd, (s'.proc p).ofile fd = none := by
  unfold exitFiles at h
  cases ht : (s.proc p).isthread with
  | true =>
    simp only [ht, if_true] at h
    cases h
    exact .inl ⟨rfl, rfl⟩
  | false =>
    simp only [ht, Bool.false_eq_true, if_false] at h
    obtain ⟨s1, hclose, h⟩ := bind_ok h
    have hall := closeAll_ofile hclose
    unfold iputCwd at h
    split at h
    · cases h
    · cases h
      exact .inr ⟨rfl, hall⟩

theorem kill_tame (s : St) (pid : ℕ) : Tame s (kill s pid).2 := by
  unfold kill
  split
  · exact .refl s
  rename_i q hq
  intro i
  by_cases hi : i = q
  · subst hi
    simp only [setProc_proc, update_self]
    split
    · exact .inl (.inl rfl)
    · exact Tame.refl s i
  · rw [setProc_proc, update_of_ne hi]
    exact Tame.refl s i

/-- a thread calls `exit` only with all its descriptors closed -/
def ThreadsClosed : Machine → Act → Prop
  | .up s, .call p .exit => CanCall s p .exit → (s.proc p).isthread = true → ∀ fd, (s.proc p).ofile fd = none
  | _, _ => True

theorem exit_clean (h : Clean s) (hp : (s.proc p).Live)
    (hok : (s.proc p).isthread = true → ∀ fd, (s.proc p).ofile fd = none) (he : exit s p = .ok s') : Clean s' := by
  obtain ⟨s1, hf, hx⟩ := exit_cases he
  have h1 : Clean s1 := h.tame ((exitFiles_only hf).tame hp)
  intro i hi fd
  by_cases hip : i = p
  · subst hip
    obtain ⟨par, hself⟩ := hx.self
    rw [hself]
    rcases exitFiles_ofile hf with ⟨ht, rfl⟩ | ⟨-, hall⟩
    · exact hok ht fd
    · exact hall fd
  · have hsoft := hx.others i hip
    rw [hsoft.ofile]
    exact h1 i (fun hl => hi (hsoft.live_iff.2 hl)) fd

theorem syscall_clean {c : Call} (h : Clean s) (hc : CanCall s p c) (hok : ThreadsClosed (.up s) (.call p c))
    (hs : syscall l s p c = .ok s') : Clean s' := by
  have hp : (s.proc p).state = .running := hc.1
  have hl : (s.proc p).Live := .inr (.inl hp)
  cases c with
  | fork =>
    obtain ⟨r, hs⟩ := snd_ok hs
    rcases fork_cases hp hs with ⟨-, hi⟩ | ⟨np, d, D, -, hf⟩
    · exact h.tame hi.tame
    · exact h.tame (.of_live hf.others (.inl hf.state))
  | clone =>
    have he : clone s p = ((clone s p).1, s') := by rw [← Except.ok.inj hs]
    rcases clone_cases hp he with ⟨-, hi⟩ | ⟨np, -, hcl⟩
    · exact h.tame hi.tame
    · exact h.tame (.of_live hcl.others (.inl hcl.state))
  | exit => exact exit_clean h hl (hok hc) hs
  | wait =>
    obtain ⟨r, hs⟩ := snd_ok hs
    rcases wait_cases hp hs with ⟨q, hr⟩ | ⟨st, ch, w, rfl, hst, -⟩
    · refine h.tame fun i => ?_
      have hz : ¬ (s.proc q).Live := by
        rintro (h' | h' | h') <;> rw [(zombieChild_state hr.child).2] at h' <;> cases h'
      by_cases hq : i = q
      · exact .inr (hq ▸ ⟨hz, hr.ofile⟩)
      by_cases hip : i = p
      · rw [hip, hr.self]
        exact .inl hl
      · rw [hr.others i hip hq]
        exact Tame.refl s i
    · refine h.tame (.of_live (p := p) (fun i hi => by simp [hi]) ?_)
      rcases hst with rfl | rfl
      · exact .inr (.inl (by simp))
      · exact .inr (.inr (by simp))
  | kill pid =>
    cases hs
    exact h.tame (kill_tame s pid)
  | exec prog =>
    obtain ⟨r, hs⟩ := snd_ok hs
    rcases exec_cases hs with ⟨-, ho⟩ | ⟨d, D, sz, -, he⟩
    · exact h.tame (ho.tame hl)
    · exact h.tame (.of_live he.others (by rw [he.self]; exact hl))
  | sbrk n =>
    obtain ⟨r, hs⟩ := snd_ok hs
    rcases growproc_cases hs with rfl | ⟨d, D, D', sz, hn, hr⟩
    · exact h
    · refine h.tame (.of_live hr.others ?_)
      rw [hr.self]
      split <;> exact hl
  | openFile path typeOk writable => exact h.tame ((sysOpen_only hs).tame hl)
  | close fd => exact h.tame ((closeFd_only hs).tame hl)
  | dup fd => exact h.tame ((sysDup_only hs).tame hl)
  | pipe => exact h.tame ((sysPipe_only hs).tame hl)
  | chdir path isDir => exact h.tame ((sysChdir_only hs).tame hl)

theorem step_clean {m : Machine} {o : Act} (h : m.All Clean) (hg : ThreadsClosed m o) : (step l m o).All Clean := by
  refine h.step fun s s' hm hs ha => ?_
  rcases act_cases ha with rfl | ⟨p, st, ch, hl, hst, rfl⟩ | ⟨p, c, rfl, hc, hcall⟩
  · exact hs
  · refine hs.tame (.of_live (p := p) (fun i hi => by simp [hi]) ?_)
    rcases hst with rfl | rfl
    · exact .inr (.inl (by simp))
    · exact .inl (by simp)
  · rw [hm] at hg
    exact syscall_clean hs hc hg hcall

theorem start_clean (l : Link) (avail : ℕ → Bool) : (start l avail).All Clean := by
  obtain ⟨d, n, D, hs, -, -⟩ := start_eq l avail
  intro s h
  rw [hs] at h
  cases h
  intro i _ fd
  by_cases hi : i = initproc
  all_goals simp [booted, hi, Proc.zero]

/-- **Descriptors of a child.** A `fork` by any process or thread in any reachable state gives the child the parent's
table, null where the parent's is null, and counts each file once per descriptor of the parent, exactly when the entry
it takes holds no leftover where the parent's table is null. No leftover is ever there in runs in which threads close
their descriptors before they exit. -/
theorem fork_copies (l : Link) (avail : ℕ → Bool) (ops : List Act) (s s' : St) (p np : Fin NPROC) (pid : ℕ)
    (hs : run (step l) (start l avail) ops = .up s) (hp : CanCall s p .fork) (hf : fork l s p = .ok (some pid, s'))
    (hnp : s.unusedSlot = some np) :
    (((s'.proc np).ofile = (s.proc p).ofile ∧
        ∀ f, (s'.fs.file f).ref = (s.fs.file f).ref + openCount (s.proc p).ofile f) ↔
      ∀ fd, (s.proc p).ofile fd = none → (s.proc np).ofile fd = none) ∧
    (Guarded (step l) ThreadsClosed (start l avail) ops → ∀ fd, (s.proc np).ofile fd = none) := by
  constructor
  · rcases fork_cases hp.1 hf with ⟨hr, -⟩ | ⟨np', d, D, -, hfork⟩
    · cases hr
    · obtain rfl : np = np' := Option.some.inj (hnp.symm.trans hfork.slot)
      exact hfork.copies
  · intro hg
    have h : (run (step l) (start l avail) ops).All Clean :=
      guarded_inv (fun _ _ hg h => step_clean h hg) _ (start_clean l avail) ops hg
    exact h s hs np (not_live_of_unused (unusedSlot_state hnp))

/-- the first process opens a file and forks -/
theorem fork_copies_open : ∃ s s' pid,
    run (step xv6) (start xv6 fun _ => true) [.schedule 0, .call 0 (.openFile ⟨true, [2], true⟩ true false)] = .up s ∧
    fork xv6 s 0 = .ok (some pid, s') ∧ (s.proc 0).ofile 0 = some 0 ∧ s.unusedSlot = some 1 ∧
    (((s'.proc 1).ofile = (s.proc 0).ofile ∧
        ∀ f, (s'.fs.file f).ref = (s.fs.file f).ref + openCount (s.proc 0).ofile f) ↔
      ∀ fd, (s.proc 0).ofile fd = none → (s.proc 1).ofile fd = none) := by
  obtain ⟨d, n, D, hstart, hmap, -⟩ := start_eq xv6 fun _ => true
  obtain ⟨s, hrun, hp, hw, hopen, hslot, hav, hd, hD, hsz, hin⟩ : ∃ s,
      run (step xv6) (start xv6 fun _ => true) [.schedule 0, .call 0 (.openFile ⟨true, [2], true⟩ true false)] = .up s ∧
      (s.proc 0).state = .running ∧ (s.proc 0).waiting = false ∧ (s.proc 0).ofile 0 = some 0 ∧ s.unusedSlot = some 1 ∧
      (∀ n, s.mem.avail n = true) ∧ (s.proc 0).pgdir = some d ∧ s.dir = Function.update (fun _ => none) d (some D) ∧
      (s.proc 0).sz = PGSIZE ∧ ∃ r, inherit s 0 1 = .ok r := by
    rw [hstart]
    exact ⟨_, rfl, rfl, rfl, rfl, rfl, fun _ => rfl, rfl, rfl, rfl, _, rfl⟩
  obtain ⟨s', pid, hf⟩ := fork_succeeds (l := xv6) hp hslot hav hd (by rw [hD, update_self]) (hsz ▸ hmap)
    (hsz ▸ by decide) hin
  have hc : CanCall s 0 .fork := ⟨hp, by simp [hw]⟩
  exact ⟨s, s', pid, hrun, hf, hopen, hslot, (fork_copies xv6 _ _ s s' 0 1 pid hrun hc hf hslot).1⟩

/-- init has cloned a thread, which has opened a file -/
def leakOps : List Act :=
  [.schedule 0, .call 0 .clone, .schedule 1, .call 1 (.openFile ⟨true, [2], true⟩ true false)]

/-- the state after `leakOps`: the thread's first descriptor is open, its creator's is not -/
structure Leak (s : St) (d : ℕ) (D : Dir) : Prop where
  creator : s.proc 0 = { Proc.zero with
    pgdir := some d, sz := PGSIZE, kstack := some 0, pid := 1, cwd := some 0, state := .running }
  thread : ∃ ks, s.proc 1 = { Proc.zero with
    pgdir := some d, sz := PGSIZE, kstack := some ks, pid := 2, parent := some 0, cwd := some 0, isthread := true,
    state := .running, ofile := Function.update (fun _ => none) 0 (some 0) }
  rest : ∀ i, i ≠ 0 → i ≠ 1 → s.proc i = Proc.zero
  dir : s.dir = Function.update (fun _ => none) d (some D)
  mapped : Mapped D PGSIZE
  avail : ∀ n, s.mem.avail n = true

theorem leakOps_run (l : Link) : ∃ s d D, run (step l) (start l fun _ => true) leakOps = .up s ∧ Leak s d D := by
  obtain ⟨d, n, D, hs, hm, -⟩ := start_eq l fun _ => true
  rw [hs]
  refine ⟨_, d, D, rfl, rfl, ⟨n, rfl⟩, fun i h0 h1 => ?_, rfl, hm, fun _ => rfl⟩
  have hb : (booted d D ⟨n, fun _ => true⟩).proc i = Proc.zero := by
    simp [booted, initproc, h0]
  -- entries 0 and 1 were written, the thread's once for each of its steps
  exact (update_of_ne h1 _ _).trans ((update_of_ne h1 _ _).trans ((update_of_ne h1 _ _).trans
    ((update_of_ne h1 _ _).trans ((update_of_ne h0 _ _).trans hb))))

/-- the thread exits and is reaped: its entry is free, with the descriptor in it -/
theorem Leak.reaped (h : Leak s d D) : ∃ s', run (step l) (.up s) [.call 1 .exit, .call 0 .wait] = .up s' ∧
      s'.proc 0 = s.proc 0 ∧ (s'.proc 1).state = .unused ∧ (s'.proc 1).ofile 0 = some 0 ∧ s'.dir = s.dir ∧ s'.mem.avail = s.mem.avail := by
  obtain ⟨ks, hthread⟩ := h.thread
  have hcases : ∀ i, i = 0 ∨ i = 1 ∨ s.proc i = Proc.zero := by
    intro i
    by_cases h0 : i = 0
    · exact .inl h0
    by_cases h1 : i = 1
    · exact .inr (.inl h1)
    · exact .inr (.inr (h.rest i h0 h1))
  have hsleep : ∀ i, (s.proc i).state ≠ .sleeping := by
    intro i
    rcases hcases i with rfl | rfl | hz
    · simp [h.creator]
    · simp [hthread]
    · simp [hz, Proc.zero]
  have hchild : ∀ i, (s.proc i).parent ≠ some 1 := by
    intro i
    rcases hcases i with rfl | rfl | hz
    · simp [h.creator, Proc.zero]
    · simp [hthread]
    · simp [hz, Proc.zero]
  have hexit := exit_thread (p := 1) (by decide) (by rw [hthread]) hsleep hchild
  generalize hs1 : s.setProc 1 { s.proc 1 with cwd := none, state := .zombie } = s1 at hexit
  have h10 : s1.proc 0 = s.proc 0 := by simp [← hs1]
  have h11 : s1.proc 1 = { s.proc 1 with cwd := none, state := .zombie } := by simp [← hs1]
  have hz : zombieChild s1 0 = some 1 := by
    refine find?_finRange_first ?_ fun j hj => ?_
    · simp [h11, hthread]
    · obtain rfl : j = 0 := (Fin.lt_one_iff j).1 hj
      simp [h10, h.creator]
  have hwait : ∃ r s', wait s1 0 = .ok (r, s') := by
    have hf : (s1.freeStack 1).freeImage 1 = .ok (s1.freeStack 1) := by simp [St.freeImage, h11, hthread]
    simp only [wait, hz, hf, ok_bind]
    exact ⟨_, _, rfl⟩
  obtain ⟨r, s', hw⟩ := hwait
  have hcall1 : CanCall s 1 .exit := by simp [CanCall, hthread, Proc.zero]
  have hcall0 : CanCall s1 0 .wait := by simp [CanCall, h10, h.creator, Call.isWait]
  have hrun : run (step l) (.up s) [.call 1 .exit, .call 0 .wait] = .up s' := by
    simp only [run_cons, run_nil, step, act, if_pos hcall1, syscall, hexit, Machine.of, if_pos hcall0, hw]
    rfl
  rcases wait_cases (by rw [h10, h.creator]) hw with ⟨q, hr⟩ | ⟨_, _, _, -, -, hnone⟩
  · obtain rfl : q = 1 := Option.some.inj (hr.child.symm.trans hz)
    refine ⟨s', hrun, ?_, hr.state, ?_, ?_, ?_⟩
    · rw [hr.self, h10, h.creator]
      rfl
    · rw [hr.ofile, h11, hthread]
      rfl
    · rw [hr.thread (by rw [h11, hthread]), ← hs1, setProc_dir]
    · rw [hr.avail, ← hs1, setProc_mem]
  · rw [hz] at hnone
    cases hnone

/-- a thread that exits leaves its descriptor in its entry, and the next child gets it -/
theorem fork_stale : ∃ s s' pid,
    run (step xv6) (start xv6 fun _ => true) (leakOps ++ [.call 1 .exit, .call 0 .wait]) = .up s ∧
    CanCall s 0 .fork ∧ fork xv6 s 0 = .ok (some pid, s') ∧ s.unusedSlot = some 1 ∧
    (s.proc 0).ofile 0 = none ∧ (s'.proc 1).ofile 0 = some 0 := by
  obtain ⟨s0, d, D, hrun0, h⟩ := leakOps_run xv6
  obtain ⟨s, hrun, hp, hst, hleft, hdir, hav⟩ := h.reaped (l := xv6)
  rw [h.creator] at hp
  have hslot : s.unusedSlot = some 1 := by
    refine find?_finRange_first ?_ fun j hj => ?_
    · simp [hst]
    · obtain rfl : j = 0 := (Fin.lt_one_iff j).1 hj
      simp [hp]
  have hin : ∃ r, inherit s 0 1 = .ok r := by
    rw [inherit, hp]
    exact ⟨_, rfl⟩
  obtain ⟨s', pid, hf⟩ := fork_succeeds (l := xv6) (d := d) (D := D) (by rw [hp]) hslot (by rw [hav]; exact h.avail)
    (by rw [hp]) (by rw [hdir, h.dir, update_self]) (by rw [hp]; exact h.mapped) (by rw [hp]; exact (by decide : PGSIZE ≤ KERNBASE)) hin
  refine ⟨s, s', pid, by rw [run_append, hrun0, hrun], ⟨by rw [hp], by simp [hp, Proc.zero]⟩, hf, hslot, by rw [hp]; rfl, ?_⟩
  rcases fork_cases (by rw [hp]) hf with ⟨hr, -⟩ | ⟨np, d', D', -, hfork⟩
  · cases hr
  · obtain rfl : np = 1 := Option.some.inj (hfork.slot.symm.trans hslot)
    obtain ⟨e, hi, -⟩ := hfork.files
    rw [(inherit_spec hi).1 0, hp]
    exact hleft

end Xv6.Kernel
