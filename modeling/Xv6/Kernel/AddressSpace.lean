/-
Address spaces shared by `clone`.

`clone` copies the pointer to the page directory and does not count its users; `wait` and `exec` free a directory by
looking at the `isthread` flag alone, and each user keeps its own `sz`. So the sharing must end before the directory is
freed or resized.
-/
import Xv6.Kernel.Calls

namespace Xv6.Kernel

open Xv6.Core

/-! ## Users of a directory -/

/-- a live entry, or a process that is still to be reaped: `wait` will free its directory -/
def Proc.Owner (p : Proc) : Prop := p.Live ∨ p.state = .zombie ∧ p.isthread = false

/-- nobody else uses the directory of `p` -/
def Sole (s : St) (p : Fin NPROC) : Prop := ∀ i, i ≠ p → (s.proc i).Owner → (s.proc i).pgdir ≠ (s.proc p).pgdir

/-- a call frees a directory only when no live entry is left on it -/
def FreeOk (s : St) (p : Fin NPROC) : Call → Prop
  | .exec _ => Sole s p
  | .wait => ∀ q, zombieChild s p = some q → (s.proc q).isthread = false →
      ∀ i, (s.proc i).Live → (s.proc i).pgdir ≠ (s.proc q).pgdir
  | _ => True

def FreesUnshared : Machine → Act → Prop
  | .up s, .call p c => CanCall s p c → FreeOk s p c
  | _, _ => True

/-- the directories in use exist, and no two processes have the same one -/
structure Spaces (s : St) : Prop where
  there : ∀ i, (s.proc i).Owner → ∃ d D, (s.proc i).pgdir = some d ∧ s.dir d = some D
  apart : ∀ i j, (s.proc i).Owner → (s.proc j).Owner → (s.proc i).isthread = false → (s.proc j).isthread = false →
    (s.proc i).pgdir = (s.proc j).pgdir → i = j
  fresh : ∀ d D, s.dir d = some D → d < s.mem.next

variable {s s' : St} {p : Fin NPROC}

/-! ## Steps that leave the address spaces alone -/

/-- no directory changed, and every user of one was a user of it before -/
structure Quiet (s s' : St) : Prop where
  owner : ∀ i, (s'.proc i).Owner → (s.proc i).Owner ∧ (s'.proc i).pgdir = (s.proc i).pgdir ∧
    (s'.proc i).isthread = (s.proc i).isthread
  live : ∀ i, (s'.proc i).Live → (s.proc i).Live ∧ (s'.proc i).sz = (s.proc i).sz
  dir : s'.dir = s.dir
  next : s.mem.next ≤ s'.mem.next

theorem Spaces.quiet (h : Spaces s) (q : Quiet s s') : Spaces s' := by
  refine ⟨fun i hi => ?_, fun i j hi hj ti tj he => ?_, fun d D hd => ?_⟩
  · obtain ⟨ho, hp, -⟩ := q.owner i hi
    rw [hp, q.dir]
    exact h.there i ho
  · obtain ⟨oi, pi, ti'⟩ := q.owner i hi
    obtain ⟨oj, pj, tj'⟩ := q.owner j hj
    rw [pi, pj] at he
    exact h.apart i j oi oj (ti' ▸ ti) (tj' ▸ tj) he
  · rw [q.dir] at hd
    exact lt_of_lt_of_le (h.fresh d D hd) q.next

/-- an entry that is not in use, before or after, does not count -/
theorem not_owner_of_unused {q : Proc} (h : q.state = .unused) : ¬ q.Owner := by
  rintro ((h' | h' | h') | ⟨h', -⟩) <;> rw [h] at h' <;> cases h'

theorem Proc.Live.owner {q : Proc} (h : q.Live) : q.Owner := .inl h

/-- entries change in ways that do not matter here -/
theorem Quiet.of_proc (hdir : s'.dir = s.dir) (hnext : s.mem.next ≤ s'.mem.next)
    (h : ∀ i, (s'.proc i).state = .unused ∨ (s'.proc i).pgdir = (s.proc i).pgdir ∧ (s'.proc i).sz = (s.proc i).sz ∧
      (s'.proc i).isthread = (s.proc i).isthread ∧ ((s'.proc i).Owner → (s.proc i).Owner) ∧
      ((s'.proc i).Live → (s.proc i).Live)) : Quiet s s' := by
  refine ⟨fun i hi => ?_, fun i hi => ?_, hdir, hnext⟩
  · rcases h i with hu | ⟨hp, -, ht, ho, -⟩
    · exact absurd hi (not_owner_of_unused hu)
    · exact ⟨ho hi, hp, ht⟩
  · rcases h i with hu | ⟨-, hz, -, -, hl⟩
    · exact absurd hi.owner (not_owner_of_unused hu)
    · exact ⟨hl hi, hz⟩

theorem Quiet.refl (s : St) : Quiet s s := .of_proc rfl (le_refl _) fun _ => .inr ⟨rfl, rfl, rfl, id, id⟩

theorem Idle.quiet (h : Idle s s') : Quiet s s' := by
  refine .of_proc h.dir h.next fun i => ?_
  rcases h.proc i with he | ⟨-, hu, -⟩
  · rw [he]
    exact .inr ⟨rfl, rfl, rfl, id, id⟩
  · exact .inl hu

theorem OnlyFiles.quiet (h : OnlyFiles s s' p) : Quiet s s' := by
  refine .of_proc h.dir h.next fun i => .inr ?_
  by_cases hi : i = p
  · subst hi
    obtain ⟨o, c, he⟩ := h.self
    rw [he]
    exact ⟨rfl, rfl, rfl, id, id⟩
  · rw [h.others i hi]
    exact ⟨rfl, rfl, rfl, id, id⟩

variable {a b : Proc}

theorem Soft.live (h : Soft a b) (hb : b.Live) : a.Live := by
  obtain ⟨par, st, rfl, rfl | ⟨hs, -⟩⟩ := h
  · exact hb
  · exact .inr (.inr hs)

theorem Soft.owner (h : Soft a b) (hb : b.Owner) : a.Owner := by
  obtain ⟨par, st, rfl, rfl | ⟨hs, -⟩⟩ := h
  · exact hb
  · exact .inl (.inr (.inr hs))

/-- only the state of one entry that is live before changes, together with what is not looked at here -/
theorem Quiet.of_setState (st : ProcState) (ch : Option (Fin NPROC)) (kl w : Bool) (hl : (s.proc p).Live) :
    Quiet s (s.setProc p { s.proc p with state := st, chan := ch, killed := kl, waiting := w }) := by
  refine .of_proc rfl (le_refl _) fun i => .inr ?_
  by_cases hi : i = p
  · subst hi
    simp only [setProc_proc, update_self, true_and]
    exact ⟨fun _ => hl.owner, fun _ => hl⟩
  · simp [hi]

theorem Exited.quiet (h : Exited s s' p) (hl : (s.proc p).Live) : Quiet s s' := by
  refine .of_proc h.dir (by rw [h.mem]) fun i => .inr ?_
  by_cases hi : i = p
  · subst hi
    obtain ⟨par, he⟩ := h.self
    rw [he]
    refine ⟨rfl, rfl, rfl, fun _ => hl.owner, fun _ => hl⟩
  · have hs := h.others i hi
    refine ⟨?_, ?_, ?_, hs.owner, hs.live⟩
    all_goals
      obtain ⟨par, st, he, -⟩ := hs
      rw [he]

theorem exit_quiet (hp : (s.proc p).state = .running) (h : exit s p = .ok s') : Quiet s s' := by
  obtain ⟨s1, hf, he⟩ := exit_cases h
  have ho := exitFiles_only hf
  have hl : (s1.proc p).Live := by
    obtain ⟨o, c, hself⟩ := ho.self
    rw [hself]
    exact .inr (.inl hp)
  have q1 := ho.quiet
  have q2 := he.quiet hl
  refine ⟨fun i hi => ?_, fun i hi => ?_, q2.dir.trans q1.dir, q1.next.trans q2.next⟩
  · obtain ⟨o2, p2, t2⟩ := q2.owner i hi
    obtain ⟨o1, p1, t1⟩ := q1.owner i o2
    exact ⟨o1, p2.trans p1, t2.trans t1⟩
  · obtain ⟨l2, z2⟩ := q2.live i hi
    obtain ⟨l1, z1⟩ := q1.live i l2
    exact ⟨l1, z2.trans z1⟩

theorem kill_quiet (s : St) (pid : ℕ) : Quiet s (kill s pid).2 := by
  unfold kill
  split
  · exact .refl s
  rename_i q hq
  refine .of_proc rfl (le_refl _) fun i => .inr ?_
  by_cases hi : i = q
  · subst hi
    simp only [setProc_proc, update_self]
    split
    · rename_i hs
      have hl : (s.proc i).Live := .inr (.inr hs)
      exact ⟨rfl, rfl, rfl, fun _ => hl.owner, fun _ => hl⟩
    · exact ⟨rfl, rfl, rfl, id, id⟩
  · simp [hi]

/-! ## Steps that change the users of a directory -/

/-- entry `n` may come to use a directory with a fresh name `d`; every other user keeps a directory that is still
there -/
structure Moved (s s' : St) (n : Fin NPROC) (d : ℕ) : Prop where
  old : ∀ i, i ≠ n → (s'.proc i).Owner → (s.proc i).Owner ∧ (s'.proc i).pgdir = (s.proc i).pgdir ∧
    (s'.proc i).isthread = (s.proc i).isthread ∧ ∀ e, (s.proc i).pgdir = some e → s'.dir e = s.dir e
  live : ∀ i, i ≠ n → (s'.proc i).Live → (s.proc i).Live ∧ (s'.proc i).sz = (s.proc i).sz
  new : (s'.proc n).Owner → (s'.proc n).pgdir = some d ∧ ∃ D, s'.dir d = some D
  lo : s.mem.next ≤ d
  fresh : ∀ e D, s'.dir e = some D → e < s'.mem.next

variable {i : Fin NPROC} {e : ℕ}

/-- a directory in use has a name that was given out -/
theorem Spaces.name_lt (h : Spaces s) (hi : (s.proc i).Owner) (he : (s.proc i).pgdir = some e) : e < s.mem.next := by
  obtain ⟨d, D, hd, hD⟩ := h.there i hi
  rw [hd] at he
  cases he
  exact h.fresh _ D hD

variable {d : ℕ}

theorem Spaces.moved (h : Spaces s) {n : Fin NPROC} (m : Moved s s' n d) : Spaces s' := by
  -- a fresh name is nobody else's
  have hne : ∀ i, i ≠ n → (s'.proc i).Owner → (s'.proc i).pgdir ≠ some d := by
    intro i hi ho he
    obtain ⟨oi, pi, -⟩ := m.old i hi ho
    have := h.name_lt oi (pi ▸ he)
    have := m.lo
    omega
  refine ⟨fun i ho => ?_, fun i j oi oj ti tj he => ?_, m.fresh⟩
  · by_cases hi : i = n
    · subst hi
      obtain ⟨hp, D, hD⟩ := m.new ho
      exact ⟨d, D, hp, hD⟩
    · obtain ⟨oi, pi, -, hkeep⟩ := m.old i hi ho
      obtain ⟨e, D, he, hD⟩ := h.there i oi
      exact ⟨e, D, pi.trans he, (hkeep e he).trans hD⟩
  · by_cases hi : i = n <;> by_cases hj : j = n
    · rw [hi, hj]
    · subst hi
      exact absurd (he ▸ (m.new oi).1) (hne j hj oj)
    · subst hj
      exact absurd (he.trans (m.new oj).1) (hne i hi oi)
    · obtain ⟨oi', pi, ti', -⟩ := m.old i hi oi
      obtain ⟨oj', pj, tj', -⟩ := m.old j hj oj
      exact h.apart i j oi' oj' (ti' ▸ ti) (tj' ▸ tj) (by rw [← pi, ← pj, he])

/-- a user's directory is not the fresh one -/
theorem Spaces.update_fresh (h : Spaces s) (hi : (s.proc i).Owner) (hd : s.mem.next ≤ d)
    (he : (s.proc i).pgdir = some e) (f : ℕ → Option Dir) (o : Option Dir) : update f d o e = f e := by
  have hlt := h.name_lt hi he
  exact update_of_ne (by omega) _ _

variable {l : Link} {np : Fin NPROC} {D : Dir}

theorem Forked.moved (f : Forked l s s' p np d D) (h : Spaces s) : Moved s s' np d := by
  refine ⟨fun i hi ho => ?_, fun i hi hl => ?_, fun _ => ⟨f.pgdir, D, ?_⟩, f.lo, fun e E he => ?_⟩
  · rw [f.others i hi] at ho ⊢
    refine ⟨ho, rfl, rfl, fun e he => ?_⟩
    rw [f.dir, h.update_fresh ho f.lo he]
  · rw [f.others i hi] at hl ⊢
    exact ⟨hl, rfl⟩
  · rw [f.dir, update_self]
  · rw [f.dir] at he
    have hlo := f.lo
    have hhi := f.hi
    by_cases hd : e = d
    · omega
    · rw [update_of_ne hd] at he
      have := h.fresh e E he
      omega

variable {sz : ℕ}

theorem Execed.moved (e : Execed s s' p d D sz) (h : Spaces s) (hs : Sole s p) : Moved s s' p d := by
  obtain ⟨d0, D0, hd0, -, hdir⟩ := e.old
  have hnew : s'.dir d = some D := by rw [hdir, update_self]
  refine ⟨fun i hi ho => ?_, fun i hi hl => ?_, fun _ => ⟨by rw [e.self], D, hnew⟩, e.lo, fun x X hx => ?_⟩
  · rw [e.others i hi] at ho ⊢
    refine ⟨ho, rfl, rfl, fun x hx => ?_⟩
    have hx0 : x ≠ d0 := by
      rintro rfl
      exact hs i hi ho (hx.trans hd0.symm)
    rw [hdir, h.update_fresh ho e.lo hx, update_of_ne hx0]
  · rw [e.others i hi] at hl ⊢
    exact ⟨hl, rfl⟩
  · have hlo := e.lo
    have hhi := e.hi
    by_cases hd : x = d
    · omega
    · rw [hdir, update_of_ne hd] at hx
      by_cases hx0 : x = d0
      · rw [hx0, update_self] at hx
        cases hx
      · rw [update_of_ne hx0] at hx
        have := h.fresh x X hx
        omega

/-- reaping a process: nobody else has its directory -/
theorem Reaped.moved {q : Fin NPROC} (r : Reaped s s' p q) (h : Spaces s) (ht : (s.proc q).isthread = false)
    (hfree : ∀ i, (s.proc i).Live → (s.proc i).pgdir ≠ (s.proc q).pgdir) : Moved s s' q s.mem.next := by
  obtain ⟨d, D, hd, hD, hdir⟩ := r.freed ht
  have hz : (s.proc q).state = .zombie := (zombieChild_state r.child).2
  have hself : ∀ i, i ≠ q → ((s'.proc i).Owner → (s.proc i).Owner) ∧ ((s'.proc i).Live → (s.proc i).Live) ∧
      (s'.proc i).pgdir = (s.proc i).pgdir ∧ (s'.proc i).isthread = (s.proc i).isthread ∧
      (s'.proc i).sz = (s.proc i).sz := by
    intro i hi
    by_cases hip : i = p
    · subst hip
      rw [r.self]
      exact ⟨id, id, rfl, rfl, rfl⟩
    · rw [r.others i hip hi]
      exact ⟨id, id, rfl, rfl, rfl⟩
  refine ⟨fun i hi ho => ?_, fun i hi hl => ?_, fun ho => ?_, le_refl _, fun e E he => ?_⟩
  · obtain ⟨h1, -, h3, h4, -⟩ := hself i hi
    refine ⟨h1 ho, h3, h4, fun e he => ?_⟩
    have hne : e ≠ d := by
      rintro rfl
      rcases h1 ho with hl | ⟨hzi, hti⟩
      · exact hfree i hl (he.trans hd.symm)
      · exact hi (h.apart i q (h1 ho) (.inr ⟨hz, ht⟩) hti ht (he.trans hd.symm))
    rw [hdir, update_of_ne hne]
  · obtain ⟨-, h2, -, -, h5⟩ := hself i hi
    exact ⟨h2 hl, h5⟩
  · exact absurd ho (not_owner_of_unused r.state)
  · rw [hdir] at he
    by_cases hed : e = d
    · rw [hed, update_self] at he
      cases he
    · rw [update_of_ne hed] at he
      exact lt_of_lt_of_le (h.fresh e E he) r.next

/-- reaping a thread frees nothing -/
theorem Reaped.quiet {q : Fin NPROC} (r : Reaped s s' p q) (ht : (s.proc q).isthread = true) : Quiet s s' := by
  refine .of_proc (r.thread ht) r.next fun i => ?_
  by_cases hi : i = q
  · exact .inl (hi ▸ r.state)
  · by_cases hip : i = p
    · subst hip
      rw [r.self]
      exact .inr ⟨rfl, rfl, rfl, id, id⟩
    · rw [r.others i hip hi]
      exact .inr ⟨rfl, rfl, rfl, id, id⟩

theorem Cloned.spaces (c : Cloned s s' p np) (h : Spaces s) (hp : (s.proc p).Live) : Spaces s' := by
  refine ⟨fun i ho => ?_, fun i j oi oj ti tj he => ?_, fun d D hd => ?_⟩
  · by_cases hi : i = np
    · subst hi
      rw [c.pgdir, c.dir]
      exact h.there p hp.owner
    · rw [c.others i hi] at ho ⊢
      rw [c.dir]
      exact h.there i ho
  · have hnp : ∀ i, (s'.proc i).isthread = false → i ≠ np := by
      rintro i ti rfl
      rw [c.isthread] at ti
      cases ti
    have hi := c.others i (hnp i ti)
    have hj := c.others j (hnp j tj)
    rw [hi] at oi ti he
    rw [hj] at oj tj he
    exact h.apart i j oi oj ti tj he
  · rw [c.dir] at hd
    exact lt_of_lt_of_le (h.fresh d D hd) c.next

variable {n : ℤ} {D' : Dir}

theorem Resized.spaces (r : Resized s s' p n d D D' sz) (h : Spaces s) : Spaces s' := by
  have hproc : ∀ i, ((s'.proc i).Owner → (s.proc i).Owner) ∧ (s'.proc i).pgdir = (s.proc i).pgdir ∧
      (s'.proc i).isthread = (s.proc i).isthread := by
    intro i
    by_cases hi : i = p
    · subst hi
      rw [r.self]
      split
      all_goals exact ⟨id, rfl, rfl⟩
    · rw [r.others i hi]
      exact ⟨id, rfl, rfl⟩
  refine ⟨fun i ho => ?_, fun i j oi oj ti tj he => ?_, fun e E he => ?_⟩
  · obtain ⟨h1, h2, -⟩ := hproc i
    obtain ⟨e, E, he, hE⟩ := h.there i (h1 ho)
    by_cases hed : e = d
    · exact ⟨d, D', by rw [h2, he, hed], by rw [r.dir, update_self]⟩
    · exact ⟨e, E, h2.trans he, by rw [r.dir, update_of_ne hed, hE]⟩
  · obtain ⟨i1, i2, i3⟩ := hproc i
    obtain ⟨j1, j2, j3⟩ := hproc j
    exact h.apart i j (i1 oi) (j1 oj) (i3 ▸ ti) (j3 ▸ tj) (by rw [← i2, ← j2, he])
  · rw [r.dir] at he
    have hnext := Names.next_le r.uses
    by_cases hed : e = d
    · have := h.fresh d D r.old
      omega
    · rw [update_of_ne hed] at he
      have := h.fresh e E he
      omega

/-! ## Runs -/

theorem booted_spaces {mem : Names} (hd : d < mem.next) : Spaces (booted d D mem) := by
  have hi : ∀ i, ((booted d D mem).proc i).Owner → i = initproc := by
    intro i ho
    by_contra hne
    refine not_owner_of_unused ?_ ho
    simp [booted, hne, Proc.zero]
  refine ⟨fun i ho => ⟨d, D, ?_, ?_⟩, fun i j oi oj _ _ _ => (hi i oi).trans (hi j oj).symm, fun e E he => ?_⟩
  · simp [booted, hi i ho]
  · simp [booted]
  · by_cases hed : e = d
    · exact hed ▸ hd
    · simp [booted, hed] at he

/-- what a call can do to the address spaces -/
inductive Effect (l : Link) (s s' : St) (p : Fin NPROC) : Call → Prop
  | quiet {c : Call} (q : Quiet s s') : Effect l s s' p c
  | fork {np : Fin NPROC} {d : ℕ} {D : Dir} (f : Forked l s s' p np d D) : Effect l s s' p .fork
  | clone {np : Fin NPROC} (c : Cloned s s' p np) : Effect l s s' p .clone
  | wait {q : Fin NPROC} (r : Reaped s s' p q) (ht : (s.proc q).isthread = false) : Effect l s s' p .wait
  | exec {prog : Program} {d sz : ℕ} {D : Dir} (e : Execed s s' p d D sz) : Effect l s s' p (.exec prog)
  | sbrk {n : ℤ} {d sz : ℕ} {D D' : Dir} (hn : n ≠ 0) (r : Resized s s' p n d D D' sz) : Effect l s s' p (.sbrk n)

theorem syscall_effect {c : Call} (hp : (s.proc p).state = .running) (hs : syscall l s p c = .ok s') : Effect l s s' p c := by
  cases c with
  | fork =>
    obtain ⟨r, hs⟩ := snd_ok hs
    rcases fork_cases hp hs with ⟨-, hi⟩ | ⟨np, d, D, -, hf⟩
    · exact .quiet hi.quiet
    · exact .fork hf
  | clone =>
    have he : clone s p = ((clone s p).1, s') := by rw [← Except.ok.inj hs]
    rcases clone_cases hp he with ⟨-, hi⟩ | ⟨np, -, hcl⟩
    · exact .quiet hi.quiet
    · exact .clone hcl
  | exit => exact .quiet (exit_quiet hp hs)
  | wait =>
    obtain ⟨r, hs⟩ := snd_ok hs
    rcases wait_cases hp hs with ⟨q, hr⟩ | ⟨st, ch, w, rfl, -⟩
    · cases ht : (s.proc q).isthread with
      | true => exact .quiet (hr.quiet ht)
      | false => exact .wait hr ht
    · exact .quiet (.of_setState st ch _ w (.inr (.inl hp)))
  | kill pid =>
    cases hs
    exact .quiet (kill_quiet s pid)
  | exec prog =>
    obtain ⟨r, hs⟩ := snd_ok hs
    rcases exec_cases hs with ⟨-, ho⟩ | ⟨d, D, sz, -, he⟩
    · exact .quiet ho.quiet
    · exact .exec he
  | sbrk n =>
    obtain ⟨r, hs⟩ := snd_ok hs
    rcases growproc_cases hs with rfl | ⟨d, D, D', sz, hn, hr⟩
    · exact .quiet (.refl _)
    · exact .sbrk hn hr
  | openFile path typeOk writable => exact .quiet (sysOpen_only hs).quiet
  | close fd => exact .quiet (closeFd_only hs).quiet
  | dup fd => exact .quiet (sysDup_only hs).quiet
  | pipe => exact .quiet (sysPipe_only hs).quiet
  | chdir path isDir => exact .quiet (sysChdir_only hs).quiet

/-- a call keeps the directories in use, when it frees none that is shared -/
theorem Effect.spaces {c : Call} (e : Effect l s s' p c) (h : Spaces s) (hp : (s.proc p).Live) (hok : FreeOk s p c) : Spaces s' := by
  cases e with
  | quiet q => exact h.quiet q
  | fork f => exact h.moved (f.moved h)
  | clone c => exact c.spaces h hp
  | wait r ht => exact h.moved (r.moved h ht (hok _ r.child ht))
  | exec e => exact h.moved (e.moved h hok)
  | sbrk _ r => exact r.spaces h

/-- a step keeps what survives a quiet change and what the calls keep under their condition -/
theorem act_keeps {I : St → Prop} (ok : St → Fin NPROC → Call → Prop) {o : Act} (hquiet : ∀ s s', I s → Quiet s s' → I s')
    (hcall : ∀ s s' p c, I s → (s.proc p).Live → ok s p c → Effect l s s' p c → I s')
    (hok : ∀ p c, o = .call p c → CanCall s p c → ok s p c) (h : I s) (ha : act l s o = .ok s') : I s' := by
  rcases act_cases ha with rfl | ⟨p, st, ch, hl, -, rfl⟩ | ⟨p, c, rfl, hc, hs⟩
  · exact h
  · exact hquiet s _ h (.of_setState st ch _ _ hl)
  · exact hcall s s' p c h (.inr (.inl hc.1)) (hok p c rfl hc) (syscall_effect hc.1 hs)

theorem step_spaces {m : Machine} {o : Act} (h : m.All Spaces) (hg : FreesUnshared m o) : (step l m o).All Spaces := by
  refine h.step fun s s' hm hs ha => ?_
  refine act_keeps FreeOk (fun _ _ h q => h.quiet q) (fun _ _ _ _ h hp hok e => e.spaces h hp hok) ?_ hs ha
  rintro p c rfl hc
  rw [hm] at hg
  exact hg hc

theorem start_spaces (l : Link) (avail : ℕ → Bool) : (start l avail).All Spaces := by
  obtain ⟨d, n, D, hs, -, hd⟩ := start_eq l avail
  intro s h
  rw [hs] at h
  cases h
  exact booted_spaces hd

/-- **No freed directory in use.** In every run in which `wait` and `exec` free a directory only when nobody else uses
it, every RUNNABLE, RUNNING or SLEEPING entry has a directory that is still there. -/
theorem no_freed_pgdir (l : Link) (avail : ℕ → Bool) (ops : List Act) (s : St) (i : Fin NPROC)
    (hg : Guarded (step l) FreesUnshared (start l avail) ops) (hs : run (step l) (start l avail) ops = .up s)
    (hi : (s.proc i).Live) : ∃ d D, (s.proc i).pgdir = some d ∧ s.dir d = some D := by
  have h : (run (step l) (start l avail) ops).All Spaces :=
    guarded_inv (fun _ _ hg h => step_spaces h hg) _ (start_spaces l avail) ops hg
  exact (h s hs).there i hi.owner

/-- init has cloned a thread that runs on its directory -/
structure OneThread (s : St) (d : ℕ) (D : Dir) : Prop where
  creator : s.proc 0 = { Proc.zero with
    pgdir := some d, sz := PGSIZE, kstack := some 0, pid := 1, cwd := some 0, state := .running }
  thread : ∃ ks, s.proc 1 = { Proc.zero with
    pgdir := some d, sz := PGSIZE, kstack := some ks, pid := 2, parent := some 0, cwd := some 0, isthread := true,
    state := .running }
  dir : s.dir = Function.update (fun _ => none) d (some D)
  mapped : Mapped D PGSIZE
  name : d < s.mem.next
  avail : ∀ n, s.mem.avail n = true
  fs : s.fs = (booted d D s.mem).fs

def cloneOps : List Act := [.schedule 0, .call 0 .clone, .schedule 1]

theorem cloneOps_run (l : Link) : ∃ s d D, run (step l) (start l fun _ => true) cloneOps = .up s ∧ OneThread s d D := by
  obtain ⟨d, n, D, hs, hm, hd⟩ := start_eq l fun _ => true
  rw [hs]
  exact ⟨_, d, D, rfl, rfl, ⟨n, rfl⟩, rfl, hm, Nat.lt_succ_of_lt hd, fun _ => rfl, rfl⟩

theorem cloneOps_frees (m : Machine) : Guarded (step xv6) FreesUnshared m cloneOps := by
  refine guarded_of_forall m fun o ho m => ?_
  simp only [cloneOps, List.mem_cons, List.not_mem_nil, or_false] at ho
  rcases ho with rfl | rfl | rfl <;> cases m <;> simp [FreesUnshared, FreeOk]

theorem no_freed_pgdir_clone : ∃ s, run (step xv6) (start xv6 fun _ => true) cloneOps = .up s ∧ (s.proc 1).Live ∧
    ∃ d D, (s.proc 1).pgdir = some d ∧ s.dir d = some D := by
  obtain ⟨s, d, D, hrun, h⟩ := cloneOps_run xv6
  obtain ⟨ks, hthread⟩ := h.thread
  have hl : (s.proc 1).Live := .inr (.inl (by rw [hthread]))
  exact ⟨s, hrun, hl, no_freed_pgdir xv6 _ cloneOps s 1 (cloneOps_frees _) hrun hl⟩

/-- **Processes apart.** In those runs a directory in use has one user that is not a thread. -/
theorem directories_apart (l : Link) (avail : ℕ → Bool) (ops : List Act) (s : St) (d : ℕ)
    (hg : Guarded (step l) FreesUnshared (start l avail) ops) (hs : run (step l) (start l avail) ops = .up s) :
    {i | (s.proc i).Owner ∧ (s.proc i).isthread = false ∧ (s.proc i).pgdir = some d}.Subsingleton := by
  rintro i ⟨hi, ti, hd⟩ j ⟨hj, tj, hd'⟩
  have h := guarded_inv (fun _ _ hg h => step_spaces h hg) _ (start_spaces l avail) ops hg
  exact (h s hs).apart i j hi hj ti tj (hd.trans hd'.symm)

theorem directories_apart_clone : ∃ s d, run (step xv6) (start xv6 fun _ => true) cloneOps = .up s ∧ (s.proc 0).pgdir = some d ∧
    {i | (s.proc i).Owner ∧ (s.proc i).isthread = false ∧ (s.proc i).pgdir = some d}.Subsingleton := by
  obtain ⟨s, d, D, hrun, h⟩ := cloneOps_run xv6
  exact ⟨s, d, hrun, by rw [h.creator], directories_apart xv6 _ cloneOps s d (cloneOps_frees _) hrun⟩

/-- a file with an ELF header and no segments -/
def emptyProgram : Program := ⟨⟨true, [2], true⟩, true, [], true⟩

theorem exec_emptyProgram (h : OneThread s d D) : ∃ s', exec l s 1 emptyProgram = .ok (true, s') := by
  obtain ⟨ks, hthread⟩ := h.thread
  obtain ⟨ip, c, hname, hlock⟩ : ∃ ip c, namex emptyProgram.path (s.proc 1).cwd s.fs.inode = .ok (some ip, c) ∧
      ilock ip c = .ok () := by
    rw [hthread, h.fs]
    exact ⟨_, _, rfl, rfl⟩
  obtain ⟨d', D', sz, mem, himg⟩ := image_nil l (Names.not_dry h.avail)
  have hfree : ∀ fs, ∃ s', St.freevm { s with fs := fs, mem := mem } 1 = .ok s' := by
    intro fs
    simp [St.freevm, hthread, h.dir]
  obtain ⟨s', hf⟩ := hfree { s.fs with inode := iput ip c }
  refine ⟨{ s'.setProc 1 { s'.proc 1 with pgdir := some d', sz := sz } with dir := update s'.dir d' (some D') }, ?_⟩
  simp only [emptyProgram] at hname
  simp only [exec, emptyProgram, hname, hlock, ok_bind, himg, hf]
  rfl

/-- a thread replaces its image by another program: the directory of its creator, which is running, is freed -/
theorem exec_frees_shared : ∃ s d,
    run (step xv6) (start xv6 fun _ => true) (cloneOps ++ [.call 1 (.exec emptyProgram)]) = .up s ∧
    (s.proc 0).Live ∧ (s.proc 0).pgdir = some d ∧ s.dir d = none := by
  obtain ⟨s, d, D, hrun, h⟩ := cloneOps_run xv6
  obtain ⟨s', he⟩ := exec_emptyProgram (l := xv6) h
  have hstep : step xv6 (.up s) (.call 1 (.exec emptyProgram)) = .up s' := by
    obtain ⟨ks, hthread⟩ := h.thread
    have hc : CanCall s 1 (.exec emptyProgram) := by simp [CanCall, hthread, Proc.zero]
    simp only [step, act, if_pos hc, syscall, he]
    rfl
  refine ⟨s', d, ?_, ?_⟩
  · rw [run_snoc, hrun, hstep]
  rcases exec_cases he with ⟨hr, -⟩ | ⟨d', D', sz, -, hx⟩
  · cases hr
  obtain ⟨d0, D0, hd0, -, hdir⟩ := hx.old
  obtain ⟨ks, hthread⟩ := h.thread
  have hd : d0 = d := by simpa [hthread] using hd0.symm
  have hne : d ≠ d' := by
    have := hx.lo
    have := h.name
    omega
  rw [hx.others 0 (by decide), h.creator]
  refine ⟨.inr (.inl rfl), rfl, ?_⟩
  rw [hdir, update_of_ne hne, hd, update_self]

/-! ## Sizes -/

/-- a call resizes a directory only when no other live entry is on it, and never to 0, where `growproc` frees the
pages and reports a failure -/
def ResizeOk (s : St) (p : Fin NPROC) : Call → Prop
  | .sbrk n => (∀ i, i ≠ p → (s.proc i).Live → (s.proc i).pgdir ≠ (s.proc p).pgdir) ∧
      (((s.proc p).sz : ℤ) + n) % 2 ^ 32 ≠ 0
  | c => FreeOk s p c

def ResizesUnshared : Machine → Act → Prop
  | .up s, .call p c => CanCall s p c → ResizeOk s p c
  | _, _ => True

/-- the directory of every live entry maps the pages below the entry's size -/
structure Sized (s : St) : Prop extends Spaces s where
  pages : ∀ i, (s.proc i).Live → ∀ d D, (s.proc i).pgdir = some d → s.dir d = some D →
    Mapped D (s.proc i).sz ∧ (s.proc i).sz < KERNBASE

theorem Sized.quiet (h : Sized s) (q : Quiet s s') : Sized s' := by
  refine ⟨h.toSpaces.quiet q, fun i hl d D hd hD => ?_⟩
  obtain ⟨hl0, hz⟩ := q.live i hl
  obtain ⟨-, hp, -⟩ := q.owner i hl.owner
  rw [hz]
  exact h.pages i hl0 d D (hp ▸ hd) (q.dir ▸ hD)

theorem Sized.moved (h : Sized s) {n : Fin NPROC} (m : Moved s s' n d)
    (hn : (s'.proc n).Live → ∀ D, s'.dir d = some D → Mapped D (s'.proc n).sz ∧ (s'.proc n).sz < KERNBASE) : Sized s' := by
  refine ⟨h.toSpaces.moved m, fun i hl e E he hE => ?_⟩
  by_cases hi : i = n
  · subst hi
    obtain ⟨hp, -⟩ := m.new hl.owner
    rw [hp] at he
    cases he
    exact hn hl E hE
  · obtain ⟨hl0, hz⟩ := m.live i hi hl
    obtain ⟨-, hp, -, hkeep⟩ := m.old i hi hl.owner
    rw [hp] at he
    rw [hkeep e he] at hE
    rw [hz]
    exact h.pages i hl0 e E he hE

theorem Forked.sized (f : Forked l s s' p np d D) (h : Sized s) (hp : (s.proc p).Live) : Sized s' := by
  refine h.moved (f.moved h.toSpaces) fun _ E hE => ?_
  rw [f.dir, update_self] at hE
  cases hE
  obtain ⟨d0, D0, m, m', hd0, hD0, hcopy⟩ := f.copy
  obtain ⟨hmap, hsz⟩ := h.pages p hp d0 D0 hd0 hD0
  rw [f.sz]
  refine ⟨?_, hsz⟩
  rcases copyuvm_mapped hmap hsz.le l m with ⟨a', he, -⟩ | ⟨d', D', a1, a', he, -, -, hmap'⟩
  · rw [he] at hcopy
    cases hcopy
  · rw [he] at hcopy
    cases hcopy
    exact hmap'

theorem Cloned.sized (c : Cloned s s' p np) (h : Sized s) (hp : (s.proc p).Live) : Sized s' := by
  refine ⟨c.spaces h.toSpaces hp, fun i hl d D hd hD => ?_⟩
  rw [c.dir] at hD
  by_cases hi : i = np
  · subst hi
    rw [c.pgdir] at hd
    rw [c.sz]
    exact h.pages p hp d D hd hD
  · rw [c.others i hi] at hl hd ⊢
    exact h.pages i hl d D hd hD

theorem Execed.sized (e : Execed s s' p d D sz) (h : Sized s) (hs : Sole s p) : Sized s' := by
  refine h.moved (e.moved h.toSpaces hs) fun _ E hE => ?_
  obtain ⟨d0, D0, -, -, hdir⟩ := e.old
  rw [hdir, update_self] at hE
  cases hE
  rw [e.self]
  exact ⟨e.mapped, e.small⟩

/-- what `growproc` leaves: the pages below the size it stores, or below the old one when it stores none -/
theorem Resized.mapped (r : Resized s s' p n d D D' sz) (hn : n ≠ 0) (hmap : Mapped D (s.proc p).sz) (hsz : (s.proc p).sz < KERNBASE)
    (hz : (((s.proc p).sz : ℤ) + n) % 2 ^ 32 ≠ 0) : Mapped D' (s'.proc p).sz ∧ (s'.proc p).sz < KERNBASE := by
  rw [r.self]
  rcases lt_or_gt_of_ne hn with hneg | hpos
  · have hshrink := r.shrink hneg
    generalize hnew : ((((s.proc p).sz : ℤ) + n) % 2 ^ 32).toNat = newsz at hshrink
    have hm := deallocuvm_mapped hmap hsz newsz s.mem
    have hmin : (deallocuvm D (s.proc p).sz newsz s.mem).1 = min (s.proc p).sz newsz := by
      unfold deallocuvm
      split <;> simp only <;> omega
    rw [hshrink] at hm hmin
    simp only at hm hmin
    split
    · rename_i hsz0
      have hzero : (s.proc p).sz = 0 := by omega
      rw [hsz0] at hm
      rw [hzero]
      exact ⟨hm, by decide⟩
    · exact ⟨hm, by simp only; omega⟩
  · have hgrow := r.grow hpos
    rcases allocuvm_mapped hmap hsz.le ((((s.proc p).sz : ℤ) + n) % 2 ^ 32).toNat s.mem with
      ⟨D1, a', he, -, hm, -⟩ | ⟨D1, a', he, -, hm, hlt⟩
    · rw [he] at hgrow
      cases hgrow
      exact ⟨hm, hsz⟩
    · rw [he] at hgrow
      cases hgrow
      split
      · rename_i hzero
        rw [hzero] at hm
        have : (s.proc p).sz = 0 := by omega
        rw [this]
        exact ⟨hm, by decide⟩
      · exact ⟨hm, by simp only; omega⟩

theorem Resized.sized (r : Resized s s' p n d D D' sz) (hn : n ≠ 0) (h : Sized s)
    (hp : (s.proc p).Live) (hok : ResizeOk s p (.sbrk n)) : Sized s' := by
  obtain ⟨halone, hz⟩ := hok
  refine ⟨r.spaces h.toSpaces, fun i hl e E he hE => ?_⟩
  rw [r.dir] at hE
  by_cases hi : i = p
  · subst hi
    have hpd : (s'.proc i).pgdir = some d := by
      rw [r.self, ← r.pgdir]
      split <;> rfl
    rw [hpd] at he
    cases he
    rw [update_self] at hE
    cases hE
    obtain ⟨hmap, hsz⟩ := h.pages i hp d D r.pgdir r.old
    exact r.mapped hn hmap hsz hz
  · rw [r.others i hi] at hl he ⊢
    have hed : e ≠ d := by
      rintro rfl
      exact halone i hi hl (he.trans r.pgdir.symm)
    rw [update_of_ne hed] at hE
    exact h.pages i hl e E he hE

theorem Effect.sized {c : Call} (e : Effect l s s' p c) (h : Sized s) (hp : (s.proc p).Live) (hok : ResizeOk s p c) : Sized s' := by
  cases e with
  | quiet q => exact h.quiet q
  | fork f => exact f.sized h hp
  | clone c => exact c.sized h hp
  | wait r ht =>
    refine h.moved (r.moved h.toSpaces ht (hok _ r.child ht)) fun hq => ?_
    exact absurd hq.owner (not_owner_of_unused r.state)
  | exec e => exact e.sized h hok
  | sbrk hn r => exact r.sized hn h hp hok

theorem step_sized {m : Machine} {o : Act} (h : m.All Sized) (hg : ResizesUnshared m o) : (step l m o).All Sized := by
  refine h.step fun s s' hm hs ha => ?_
  refine act_keeps ResizeOk (fun _ _ h q => h.quiet q) (fun _ _ _ _ h hp hok e => e.sized h hp hok) ?_ hs ha
  rintro p c rfl hc
  rw [hm] at hg
  exact hg hc

theorem start_sized (l : Link) (avail : ℕ → Bool) : (start l avail).All Sized := by
  obtain ⟨d, n, D, hs, hm, hd⟩ := start_eq l avail
  intro s h
  have hsp : Spaces s := start_spaces l avail s h
  rw [hs] at h
  cases h
  refine ⟨hsp, fun i hl e E he hE => ?_⟩
  by_cases hi : i = initproc
  · subst hi
    obtain rfl : d = e := by simpa [booted] using he
    obtain rfl : D = E := by simpa [booted] using hE
    simp only [booted, update_self]
    exact ⟨hm, by decide⟩
  · simp [booted, hi, Proc.zero, Proc.Live] at hl

/-- `growproc` returns -/
theorem Sized.growproc (h : Sized s) (hp : (s.proc p).Live) (n : ℤ) : ∃ r, growproc s p n = .ok r := by
  obtain ⟨d, D, hd, hD⟩ := h.there p hp.owner
  obtain ⟨hmap, hsz⟩ := h.pages p hp d D hd hD
  have hpg : s.pgdir p = .ok (d, D) := by simp only [St.pgdir, hd, hD]
  have hresize : ∃ r, resize D (s.proc p).sz n s.mem = .ok r := by
    unfold resize
    simp only
    split
    · rcases allocuvm_mapped hmap hsz.le ((((s.proc p).sz : ℤ) + n) % 2 ^ 32).toNat s.mem with
        ⟨_, _, he, -⟩ | ⟨_, _, he, -⟩
      · exact ⟨_, he⟩
      · exact ⟨_, he⟩
    · exact ⟨_, rfl⟩
  obtain ⟨⟨sz, D', mem⟩, hr⟩ := hresize
  unfold Kernel.growproc
  split
  · exact ⟨_, rfl⟩
  · simp only [hpg, ok_bind, hr]
    split <;> exact ⟨_, rfl⟩

theorem inherit_error {e : Panic} (h : inherit s p np = .error e) : e = .filedup ∨ e = .fault := by
  unfold inherit at h
  rcases bind_error h with h | ⟨⟨fs, ofile⟩, -, h⟩
  · left
    refine foldlM_error (P := fun e => e = .filedup) ?_ h
    rintro ⟨fs, ofile⟩ i e he
    unfold dupStep at he
    simp only at he
    split at he
    · cases he
    · rcases bind_error he with he | ⟨_, -, he⟩
      · unfold filedup at he
        split at he <;> cases he
        rfl
      · cases he
  · simp only at h
    split at h
    · cases h
      exact .inr rfl
    · cases h

/-- `fork` gets past `copyuvm` -/
theorem Sized.fork_error (h : Sized s) (hp : (s.proc p).Live) (l : Link) {e : Panic} (he : fork l s p = .error e) :
    e = .filedup ∨ e = .fault := by
  unfold fork at he
  rcases ha : allocproc s with ⟨_ | np, s1⟩
  · rw [ha] at he
    cases he
  · rw [ha] at he
    rcases allocproc_cases ha with ⟨hr, -⟩ | ⟨_, hr, ht⟩
    · cases hr
    cases hr
    have hne : p ≠ np := by
      rintro rfl
      exact not_owner_of_unused (unusedSlot_state ht.slot) hp.owner
    have hcaller : s1.proc p = s.proc p := by
      obtain ⟨ks, hproc⟩ := ht.proc
      rw [hproc, update_of_ne hne]
    obtain ⟨d, D, hd, hD⟩ := h.there p hp.owner
    obtain ⟨hmap, hsz⟩ := h.pages p hp d D hd hD
    have hpg : s1.pgdir p = .ok (d, D) := by simp only [St.pgdir, hcaller, ht.dir, hd, hD]
    simp only [forkInto, hpg, ok_bind, hcaller] at he
    rcases copyuvm_mapped hmap hsz.le l s1.mem with ⟨a', hc, -⟩ | ⟨d', D', a1, a', hc, -⟩
    · simp only [hc, ok_bind] at he
      cases he
    · simp only [hc, ok_bind] at he
      rcases bind_error he with he | ⟨_, -, he⟩
      · exact inherit_error he
      · cases he

/-- **The pages below `sz`.** In every run in which directories are freed and resized by a sole user only, and never
resized to 0, a live entry's directory maps exactly the pages below its size; so `growproc` does not reach the panic of
`mappages`, nor `fork` those of `copyuvm`. -/
theorem pages_below_sz (l : Link) (avail : ℕ → Bool) (ops : List Act) (s : St) (i : Fin NPROC)
    (hg : Guarded (step l) ResizesUnshared (start l avail) ops) (hs : run (step l) (start l avail) ops = .up s)
    (hi : (s.proc i).Live) :
    (∃ d D, (s.proc i).pgdir = some d ∧ s.dir d = some D ∧
      ∀ n, n * PGSIZE < KERNBASE → ((entry D (n * PGSIZE)).isSome = true ↔ n * PGSIZE < (s.proc i).sz)) ∧
    (∀ n, growproc s i n ≠ .error .remap) ∧
    fork l s i ≠ .error .copyuvmPte ∧ fork l s i ≠ .error .copyuvmPage := by
  have h : Sized s :=
    guarded_inv (fun _ _ hg h => step_sized h hg) _ (start_sized l avail) ops hg s hs
  refine ⟨?_, fun n hn => ?_, fun hf => ?_, fun hf => ?_⟩
  · obtain ⟨d, D, hd, hD⟩ := h.there i hi.owner
    exact ⟨d, D, hd, hD, (h.pages i hi d D hd hD).1⟩
  · obtain ⟨r, hr⟩ := h.growproc hi n
    rw [hr] at hn
    cases hn
  all_goals exact absurd (h.fork_error hi l hf) (by decide)

theorem cloneOps_resizes (m : Machine) : Guarded (step xv6) ResizesUnshared m cloneOps := by
  refine guarded_of_forall m fun o ho m => ?_
  simp only [cloneOps, List.mem_cons, List.not_mem_nil, or_false] at ho
  rcases ho with rfl | rfl | rfl <;> cases m <;> simp [ResizesUnshared, ResizeOk, FreeOk]

theorem pages_below_sz_clone : ∃ s, run (step xv6) (start xv6 fun _ => true) cloneOps = .up s ∧ (s.proc 1).Live ∧
    (∃ d D, (s.proc 1).pgdir = some d ∧ s.dir d = some D ∧
      ∀ n, n * PGSIZE < KERNBASE → ((entry D (n * PGSIZE)).isSome = true ↔ n * PGSIZE < (s.proc 1).sz)) ∧
    (∀ n, growproc s 1 n ≠ .error .remap) ∧
    fork xv6 s 1 ≠ .error .copyuvmPte ∧ fork xv6 s 1 ≠ .error .copyuvmPage := by
  obtain ⟨s, d, D, hrun, h⟩ := cloneOps_run xv6
  obtain ⟨ks, hthread⟩ := h.thread
  have hl : (s.proc 1).Live := .inr (.inl (by rw [hthread]))
  exact ⟨s, hrun, hl, pages_below_sz xv6 _ cloneOps s 1 (cloneOps_resizes _) hrun hl⟩

/-- a page that is present already is not mapped again -/
theorem allocLoop_remap {va newsz oldsz : ℕ} {mem : Names} (hm : ∀ n, mem.avail n = true) (hlt : va < newsz)
    (halign : va % PGSIZE = 0) (h : (entry D va).isSome = true) : allocLoop oldsz newsz va D mem = .error .remap := by
  obtain ⟨t, ht⟩ := table_of_entry h
  obtain ⟨e, he⟩ := Option.isSome_iff_exists.1 h
  rw [entry_of_some ht] at he
  unfold allocLoop
  simp only [if_pos hlt, Names.alloc_of_avail hm, mappages_page halign, mapPage, walkpgdir, ht, he]

/-- a thread grows its memory by a page -/
theorem OneThread.grow (h : OneThread s d D) : ∃ D' mem, growproc s 1 4096 =
    .ok (true, St.setProc { s with dir := update s.dir d (some D'), mem := mem } 1
      { s.proc 1 with sz := 2 * PGSIZE }) ∧ Mapped D' (2 * PGSIZE) ∧ ∀ n, mem.avail n = true := by
  obtain ⟨ks, hthread⟩ := h.thread
  have hpg : s.pgdir 1 = .ok (d, D) := by simp [St.pgdir, hthread, h.dir]
  rcases allocuvm_mapped h.mapped (by decide) (2 * PGSIZE) s.mem with
    ⟨_, _, _, _, _, hbad⟩ | ⟨D', mem, he, hu, hmap, -⟩
  · rcases hbad with hbig | hdry
    · exact absurd hbig (by decide)
    · exact absurd hdry (Names.not_dry h.avail)
  have hmax : max PGSIZE (2 * PGSIZE) = 2 * PGSIZE := by decide
  rw [hmax] at he hmap
  have hresize : resize D (s.proc 1).sz 4096 s.mem = .ok (2 * PGSIZE, D', mem) := by
    have hnew : (((PGSIZE : ℤ) + 4096) % 2 ^ 32).toNat = 2 * PGSIZE := by decide
    rw [hthread]
    simp only [resize, hnew, he, if_pos (by decide : (0 : ℤ) < 4096)]
  refine ⟨D', mem, ?_, hmap, ?_⟩
  · unfold growproc
    rw [if_neg (by decide)]
    simp only [hpg, ok_bind, hresize]
    rfl
  · rw [Names.avail_eq hu]
    exact h.avail

/-- a thread grows its memory by a page: the page is mapped above the size of its creator, which stops the machine with
"remap" when it grows its memory in turn -/
theorem sbrk_by_thread :
    (∃ s d D, run (step xv6) (start xv6 fun _ => true) (cloneOps ++ [.call 1 (.sbrk 4096)]) = .up s ∧
      (s.proc 0).Live ∧ (s.proc 0).pgdir = some d ∧ s.dir d = some D ∧
      (s.proc 0).sz = 1 * PGSIZE ∧ (entry D (1 * PGSIZE)).isSome = true) ∧
    run (step xv6) (start xv6 fun _ => true) (cloneOps ++ [.call 1 (.sbrk 4096), .call 0 (.sbrk 4096)]) =
      .halted .remap := by
  obtain ⟨s, d, D, hrun, h⟩ := cloneOps_run xv6
  obtain ⟨ks, hthread⟩ := h.thread
  obtain ⟨D', mem, hgrow, hmap, hav⟩ := h.grow
  have hentry : (entry D' (1 * PGSIZE)).isSome = true := (hmap 1 (by decide)).2 (by decide)
  have hstep : step xv6 (.up s) (.call 1 (.sbrk 4096)) = .up (St.setProc { s with
      dir := Function.update s.dir d (some D'), mem := mem } 1 { s.proc 1 with sz := 2 * PGSIZE }) := by
    have hc : CanCall s 1 (.sbrk 4096) := by simp [CanCall, hthread, Proc.zero]
    simp only [step, act, if_pos hc, syscall, hgrow]
    rfl
  have hcreator : ∀ q, (St.setProc { s with dir := Function.update s.dir d (some D'), mem := mem } 1 q).proc 0 =
      s.proc 0 := by
    intro q
    simp
  refine ⟨⟨_, d, D', by rw [run_append, hrun, run_cons, hstep, run_nil], ?_⟩, ?_⟩
  · rw [hcreator, h.creator]
    exact ⟨.inr (.inl rfl), rfl, by simp, rfl, hentry⟩
  · rw [run_append, hrun, run_cons, hstep, run_cons, run_nil]
    generalize hs' : St.setProc { s with dir := Function.update s.dir d (some D'), mem := mem } 1
      { s.proc 1 with sz := 2 * PGSIZE } = s'
    have hs0 : s'.proc 0 = s.proc 0 := hs' ▸ hcreator _
    have hmem : s'.mem = mem := hs' ▸ rfl
    have hpg : s'.pgdir 0 = .ok (d, D') := by
      have hdir : s'.dir d = some D' := by simp [← hs']
      simp only [St.pgdir, hs0, h.creator, hdir]
    have hc : CanCall s' 0 (.sbrk 4096) := by simp [CanCall, hs0, h.creator, Proc.zero]
    have hnew : (((PGSIZE : ℤ) + 4096) % 2 ^ 32).toNat = 2 * PGSIZE := by decide
    have hresize : resize D' PGSIZE 4096 mem = .error .remap := by
      simp only [resize, hnew, if_pos (by decide : (0 : ℤ) < 4096), allocuvm,
        if_neg (by decide : ¬ KERNBASE ≤ 2 * PGSIZE), if_neg (by decide : ¬ 2 * PGSIZE < PGSIZE)]
      rw [Nat.one_mul] at hentry
      exact allocLoop_remap hav (by decide) (by decide) hentry
    have hgrow' : growproc s' 0 4096 = .error .remap := by
      unfold growproc
      rw [if_neg (by decide)]
      simp only [hpg, ok_bind, hs0, h.creator, hmem, hresize]
      rfl
    simp only [step, act, if_pos hc, syscall, hgrow']
    rfl

end Xv6.Kernel
