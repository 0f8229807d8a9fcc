/-
What each call does to the disk, from its state before: `Outcome` says that a call has made a list of changes between
`begin_op` and `end_op`.
-/
import Xv6.Fs.Calls
import Xv6.Fs.Log

namespace Xv6.FileSys

open Xv6.Core Xv6.Core.Prog
open Xv6.Fs (MAXOPBLOCKS)

/-- the calls that take paths -/
inductive PathCall
  | open (omode : ℕ) (path : Option (List UInt8))
  | link (old new : Option (List UInt8))
  | unlink (path : Option (List UInt8))
  | mkdir (path : Option (List UInt8))
  | mknod (major minor : ℤ) (path : Option (List UInt8))
  | chdir (path : Option (List UInt8))

def PathCall.prog (sb : Superblock) (pid : Fin NPROC) : PathCall → FsM ℤ
  | .open omode path => sysOpen sb pid omode path
  | .link old new => sysLink sb pid old new
  | .unlink path => sysUnlink sb pid path
  | .mkdir path => sysMkdir sb pid path
  | .mknod major minor path => sysMknod sb pid major minor path
  | .chdir path => sysChdir sb pid path

variable {sb : Superblock} {s₀ s s' s'' : St} {x y dp ip off : ℕ} {H : ℕ → ℕ} {R : Multiset ℕ} {L F : List ℕ}
  {name : Name} {pid : Fin NPROC} {e : Edit} {es : List Edit} {path : List UInt8} {type : Ty} {major minor : ℤ}

/-! ## Outcomes -/

/-- the disk and what the kernel sees of the inodes are the same -/
structure SameDisk (s s' : St) : Prop where
  node : s'.node = s.node
  disk : s'.dinode = s.dinode
  used : s'.used = s.used
  data : s'.data = s.data

theorem Quiet.sameDisk (h : Quiet s s') : SameDisk s s' := ⟨h.node, h.disk, h.used, h.data⟩

theorem SameDisk.refl (s : St) : SameDisk s s := ⟨rfl, rfl, rfl, rfl⟩

theorem SameDisk.trans (h : SameDisk s s') (h' : SameDisk s' s'') : SameDisk s s'' :=
  ⟨h'.node.trans h.node, h'.disk.trans h.disk, h'.used.trans h.used, h'.data.trans h.data⟩

/-- an operation has made the changes `es`, with nothing logged before them -/
def Outcome (sb : Superblock) (s : St) (es : List Edit) (s' : St) : Prop :=
  ∃ s₀ s₁, SameDisk s s₀ ∧ s₀.logged = ∅ ∧ Edits sb es s₀ s₁ ∧ SameDisk s₁ s' ∧ s'.logged = s₁.logged

/-- an operation that changes nothing -/
theorem Outcome.sameDisk (h : Outcome sb s [] s') : SameDisk s s' := by
  obtain ⟨s₀, s₁, h0, -, hes, h1, -⟩ := h
  exact h0.trans ((Quiet.sameDisk hes).trans h1)

theorem Edits.outcome (h : Edits sb es s.begun s') (hs : SameDisk s' s'') (hl : s''.logged = s'.logged) :
    Outcome sb s es s'' :=
  ⟨s.begun, s', ⟨rfl, rfl, rfl, rfl⟩, rfl, h, hs, hl⟩

theorem Ends.outcome (h : Ends sb s H es s') : Outcome sb s es s' := by
  obtain ⟨s₁, hs1, rfl⟩ := h
  exact hs1.edits.outcome ⟨rfl, rfl, rfl, rfl⟩ rfl

theorem Ends.cwd (h : Ends sb s H es s') : s'.cwd = s.cwd := by
  obtain ⟨s₁, hs1, rfl⟩ := h
  exact hs1.edits.tables.1

/-- an operation that drops a reference -/
theorem dropRef_spec {H' : ℕ → ℕ} (h : Safe sb s₀ H 0 [] [] s) (hsum : ∀ y, H y = H' y + Multiset.count y {x}) :
    Wp NoBfree (do
      beginOp
      iput sb x
      endOp) (fun _ s' => s'.cwd = s.cwd ∧ ∃ fr, MayFree H' x fr ∧ Outcome sb s fr s') s := by
  refine wp_write.2 ?_
  have hs1 : Running sb s.begun [] H 0 [] [] s.begun := h.begin
  obtain ⟨L, F, hx, hF, -, hsafe⟩ := hs1.safe.take hsum
  have hs2 : Running sb s.begun [] H' {x} L F s.begun := ⟨hsafe, hs1.edits⟩
  refine wp_seq (hs2.iputOnly (fun hmem => (hx hmem).resolve_left List.not_mem_nil)
    fun y hy => (hF y hy).resolve_right List.not_mem_nil) fun _ s3 ⟨fr, hfr, hs3⟩ => ?_
  exact ⟨hs3.edits.tables.1, fr, hfr, hs3.edits.outcome ⟨rfl, rfl, rfl, rfl⟩ rfl⟩

/-! ## `open` -/

/-- no file structure or no descriptor is free -/
def St.Full (s : St) (pid : Fin NPROC) : Prop := (∀ f, (s.file f).ref ≠ 0) ∨ ∀ fd, s.ofile pid fd ≠ none

/-- the inode goes again, in a state with other tables -/
theorem openBad_same (h : Safe sb s₀ H {ip} [ip] [] s) (hc : s'.icache = s.icache) (hs : SameDisk s s')
    (hl : s'.logged = s.logged) (hcwd : s'.cwd = s.cwd) :
    Wp NoBfree (openBad sb ip) (fun r s'' => (SameDisk s s'' ∧ s''.logged = s.logged ∧ s''.cwd = s.cwd) ∧ r = -1) s' := by
  have hs' : Safe sb s' H {ip} [ip] [] s' := h.tables hc hs.disk hs.used hs.data
  unfold openBad
  refine wp_seq (iunlockput_quiet hs' kept_nil kept_nil) fun _ s₁ hs1 => ?_
  have hsame : SameDisk s s₁ := hs.trans hs1.quiet.sameDisk
  exact ⟨⟨⟨hsame.node, hsame.disk, hsame.used, hsame.data⟩, hs1.quiet.logged.trans hl, hs1.quiet.cwd.trans hcwd⟩, rfl⟩

/-- a file structure that has just been allocated goes again -/
theorem fileclose_new {f : Fin NFILE} (href : (s.file f).ref = 1) (htype : (s.file f).type = .none) :
    Wp NoBfree (fileclose sb f) (fun _ s' => s' = s.setFile f { s.file f with ref := 0, type := .none }) s := by
  unfold fileclose
  refine wp_read.2 ?_
  rw [if_neg (by omega), if_neg (by omega)]
  refine wp_write.2 ?_
  rw [if_neg (by rw [htype]; decide)]
  rfl

/-- **The end of `open`** leaves the disk alone; it fails exactly if there is no room in the tables. -/
theorem openInode_spec (h : Safe sb s₀ H {ip} [ip] [] s) (hfiles : s.Files) (omode : ℕ) :
    Wp NoBfree (openInode sb pid ip omode) (fun r s' =>
      (SameDisk s s' ∧ s'.logged = s.logged ∧ s'.cwd = s.cwd) ∧ (r = -1 ↔ s.Full pid)) s := by
  unfold openInode
  refine wp_bind.2 ?_
  unfold filealloc
  refine wp_atomic.2 ?_
  cases hfind : (List.finRange NFILE).find? fun i => (s.file i).ref = 0 with
  | none =>
    have hfull : s.Full pid := .inl fun f hzero => by
      have hnot := List.find?_eq_none.1 hfind f (List.mem_finRange f)
      exact hnot (by simpa using hzero)
    exact wp_mono (openBad_same h rfl (.refl s) rfl rfl) fun r s' ⟨hs', hr⟩ => ⟨hs', iff_of_true hr hfull⟩
  | some f =>
    have hzero : (s.file f).ref = 0 := by simpa using List.find?_some hfind
    have hnone := hfiles f hzero
    have hfile : ∀ e, (s.setFile f e).file f = e := fun e => update_self ..
    have hofile : ∀ e, (s.setFile f e).ofile = s.ofile := fun e => rfl
    refine wp_bind.2 ?_
    unfold fdalloc
    refine wp_atomic.2 ?_
    simp only [hofile]
    cases hfd : (List.finRange NOFILE).find? fun fd => (s.ofile pid fd).isNone with
    | none =>
      have hfull : s.Full pid := .inr fun fd hfree => by
        have hnot := List.find?_eq_none.1 hfd fd (List.mem_finRange fd)
        exact hnot (by simp [hfree])
      refine wp_seq (fileclose_new (congrArg File.ref (hfile _)) ((congrArg File.type (hfile _)).trans hnone))
        fun _ s₁ hs1 => ?_
      subst hs1
      exact wp_mono (openBad_same h rfl ⟨rfl, rfl, rfl, rfl⟩ rfl rfl) fun r s' ⟨hs', hr⟩ => ⟨hs', iff_of_true hr hfull⟩
    | some fd =>
      have hfree : s.ofile pid fd = none := by simpa using List.find?_some hfd
      have hnot : ¬ s.Full pid := by
        intro hfull
        rcases hfull with hall | hall
        · exact hall f hzero
        · exact hall fd hfree
      have hs' : Safe sb _ H {ip} [ip] [] ((s.setFile f { s.file f with ref := 1 }).setFd pid fd (some f)) :=
        h.tables rfl rfl rfl rfl
      refine wp_seq (iunlock_spec hs' (.inr (Multiset.mem_singleton_self ip))) fun _ s₁ hs1 => ?_
      have hq := hs1.quiet
      refine wp_bind.2 (wp_modify.2 (wp_bind.2 (wp_modify.2 ⟨⟨?_, hq.logged, hq.cwd⟩, iff_of_false ?_ hnot⟩)))
      · exact ⟨hq.node, hq.disk, hq.used, hq.data⟩
      · omega

/-- what `open` does to the disk is what `create` does; without `O_CREATE` it does nothing -/
inductive OpenEdits (H : ℕ → ℕ) (s s' : St) (pid : Fin NPROC) (omode : ℕ) (path : List UInt8) : ℤ → List Edit → Prop
  | plain (hmode : creates omode = false) (r : ℤ) : OpenEdits H s s' pid omode path r []
  | create (hmode : creates omode = true) (r : ℤ) (ro : Option ℕ) (es : List Edit)
      (hes : CreateEdits H s pid path .file 0 0 ro es) (hr : r = -1 ↔ ro = none ∨ s.Full pid)
      (hthere : ∀ ip, ro = some ip → (s'.dinode ip).type ≠ .free) : OpenEdits H s s' pid omode path r es

theorem sysOpen_spec (hsb : sb.Ok) (h : Safe sb s₀ H 0 [] [] s) (hfiles : s.Files) (hcwd : 0 < H ((s.cwd pid).getD 0))
    (omode : ℕ) : Wp NoBfree (sysOpen sb pid omode (some path)) (fun r s' =>
      s'.cwd = s.cwd ∧ ∃ es, OpenEdits H s s' pid omode path r es ∧ Outcome sb s es s') s := by
  have hs1 : Running sb s.begun [] H 0 [] [] s.begun := h.begin
  -- the tables are as they were when the inode has been found
  have htail : ∀ {es : List Edit} {s2 : St} {x : ℕ}, Running sb s.begun es H {x} [x] [] s2 →
      Wp NoBfree (openInode sb pid x omode) (fun r s' => s'.cwd = s.cwd ∧ (s'.dinode x).type ≠ .free ∧
        (r = -1 ↔ s.Full pid) ∧ Outcome sb s es s') s2 := by
    intro es s2 x hs2
    obtain ⟨hc, hf, ho⟩ := hs2.edits.tables
    have hok := hs2.safe.loaded_ok (hs2.safe.loaded x List.mem_cons_self)
    have hfull : s2.Full pid ↔ s.Full pid := by
      unfold St.Full
      rw [hf, ho]
      exact Iff.rfl
    refine wp_mono (openInode_spec hs2.safe (fun f => by rw [hf]; exact hfiles f) omode)
      fun r s' ⟨⟨hs', hl, hc'⟩, hr⟩ => ⟨hc'.trans hc, ?_, hr.trans hfull, hs2.edits.outcome hs' hl⟩
    rw [hs'.disk, ← hok.2]
    exact hok.1
  unfold sysOpen
  refine wp_write.2 ?_
  by_cases hmode : creates omode = true
  · rw [if_pos hmode]
    refine wp_seq (create_spec hsb hs1 hcwd) fun r s2 ⟨es, hes, hs2⟩ => ?_
    cases r with
    | none =>
      have hnone : es = [] := by
        cases hes
        rfl
      subst hnone
      refine wp_seq (Running.endOp hs2) fun _ s3 hs3 => ⟨hs3.cwd, [], .create hmode (-1) none [] hes ?_ ?_, hs3.outcome⟩
      · exact iff_of_true rfl (.inl rfl)
      · exact fun ip hip => by cases hip
    | some x =>
      refine wp_mono (htail hs2) fun r s' ⟨hc, hty, hr, hout⟩ => ⟨hc, es, .create hmode r (some x) es hes ?_ ?_, hout⟩
      · rw [hr]
        exact ⟨.inr, fun hor => hor.resolve_left (Option.some_ne_none x)⟩
      · intro ip hip
        cases hip
        exact hty
  · rw [if_neg hmode]
    have hmode : creates omode = false := by simpa using hmode
    refine wp_seq (hs1.namei hcwd kept_nil kept_nil path) fun r s2 ⟨_, hs2⟩ => ?_
    cases r with
    | none =>
      refine wp_seq (Running.endOp hs2) fun _ s3 hs3 => ⟨hs3.cwd, [], .plain hmode _, hs3.outcome⟩
    | some x =>
      have hs2 : Running sb s.begun [] H {x} [] [] s2 := hs2
      refine wp_seq (hs2.ilock (.inr (Multiset.mem_singleton_self x))) fun _ s3 hs3 => wp_read.2 ?_
      split
      · refine wp_seq hs3.iunlockputLooked fun _ s4 hs4 => ?_
        exact wp_seq hs4.endOp fun _ s5 hs5 => ⟨hs5.cwd, [], .plain hmode _, hs5.outcome⟩
      · exact wp_mono (htail hs3) fun r s' ⟨hc, _, _, hout⟩ => ⟨hc, [], .plain hmode r, hout⟩

/-! ## `mkdir`, `mknod` and `chdir` -/

theorem createEnd_outcome {ro : Option ℕ} (hs : Running sb s.begun es H (ro.elim 0 fun ip => {ip}) (ro.elim [] fun ip => [ip]) [] s') :
    Wp NoBfree (createEnd sb ro) (fun r s'' => (r = -1 ↔ ro = none) ∧ Ends sb s H es s'') s' := by
  cases ro with
  | none => exact wp_seq (Running.endOp hs) fun _ s₁ hs1 => ⟨iff_of_true rfl rfl, hs1⟩
  | some ip =>
    have hs : Running sb s.begun es H {ip} [ip] [] s' := hs
    refine wp_seq hs.iunlockputLooked fun _ s₁ hs1 => wp_seq hs1.endOp fun _ s2 hs2 => ⟨iff_of_false ?_ ?_, hs2⟩
    · exact (by decide : (0 : ℤ) ≠ -1)
    · exact Option.some_ne_none ip

/-- what `mkdir` and `mknod` do to the disk is what `create` does; they fail only where it does -/
theorem createCall_spec (hsb : sb.Ok) (h : Safe sb s₀ H 0 [] [] s) (hcwd : 0 < H ((s.cwd pid).getD 0)) :
    Wp NoBfree (do
      beginOp
      let r ← create sb pid path type major minor
      createEnd sb r) (fun r s' => ∃ ro es, CreateEdits H s pid path type major minor ro es ∧ (r = -1 ↔ ro = none) ∧
        Ends sb s H es s') s := by
  refine wp_write.2 ?_
  refine wp_seq (create_spec hsb h.begin hcwd) fun ro s2 ⟨es, hes, hs2⟩ => ?_
  exact wp_mono (createEnd_outcome hs2) fun r s' hs' => ⟨ro, es, hes, hs'⟩

/-- what `chdir` does: nothing, or the old directory goes -/
inductive ChdirEdits (s s' : St) (pid : Fin NPROC) (c : ℕ) (path : List UInt8) : ℤ → List Edit → Prop
  | none (hcwd : s'.cwd = s.cwd) : ChdirEdits s s' pid c path (-1) []
  | done (x : ℕ) (fr : List Edit) (hpath : (s.resolve pid path false).map Prod.fst = some x)
      (hty : (s.node x).type = .dir) (hcwd : s'.cwd = Function.update s.cwd pid (some x))
      (hfr : MayFree (s.setCwd pid none).holds c fr) (hkept : x = c → fr = []) : ChdirEdits s s' pid c path 0 fr

/-- an inode that has been given back has no type -/
theorem Edits.freed (h : Edits sb [.free x] s s') : (s'.node x).type = .free := by
  obtain ⟨s₁, s2, -, -, ⟨-, -, -, hf⟩, hq⟩ := h
  rw [Quiet.node hq, hf.node]
  exact hf.free

theorem sysChdir_spec (h : Safe sb s₀ s.holds 0 [] [] s) {c : ℕ} (hcwd : s.cwd pid = some c) :
    Wp NoBfree (sysChdir sb pid (some path)) (fun r s' => ∃ es, ChdirEdits s s' pid c path r es ∧ Outcome sb s es s') s := by
  have hpos := St.holds_start hcwd
  have hs1 : Running sb s.begun [] s.holds 0 [] [] s.begun := h.begin
  unfold sysChdir
  refine wp_write.2 ?_
  refine wp_seq (hs1.namei hpos kept_nil kept_nil path) fun r s2 ⟨hr, hs2⟩ => ?_
  rw [resolve_begun] at hr
  cases r with
  | none => exact wp_seq (Running.endOp hs2) fun _ s3 hs3 => ⟨[], .none hs3.cwd, hs3.outcome⟩
  | some x =>
    have hs2 : Running sb s.begun [] s.holds {x} [] [] s2 := hs2
    unfold chdirTo
    refine wp_seq (hs2.ilock (.inr (Multiset.mem_singleton_self x))) fun _ s3 hs3 => wp_read.2 ?_
    have hcore : s3.core x = s.node x := by
      rw [hs3.safe.core List.mem_cons_self, hs3.quiet.node]
      rfl
    have hcwd3 : s3.cwd = s.cwd := hs3.quiet.cwd
    rw [hcore, hcwd3, hcwd]
    split
    · refine wp_seq hs3.iunlockputLooked fun _ s4 hs4 => ?_
      exact wp_seq hs4.endOp fun _ s5 hs5 => ⟨[], .none hs5.cwd, hs5.outcome⟩
    rename_i hty
    refine wp_seq (hs3.iunlock (.inr (Multiset.mem_singleton_self x))) fun _ s4 hs4 => ?_
    obtain ⟨L, F, hx, hF, hL, hsafe⟩ := hs4.safe.take (St.holds_leave hcwd)
    have hs5 : Running sb s.begun [] (s.setCwd pid none).holds (c ::ₘ {x}) L F s4 := ⟨hsafe, hs4.edits⟩
    have hput : Wp NoBfree (iput sb c) (fun _ s' => ∃ fr, MayFree (s.setCwd pid none).holds c fr ∧
        Running sb s.begun fr (s.setCwd pid none).holds {x} [x] [x] s') s4 := by
      refine hs5.iput (fun hmem => (hx hmem).resolve_left List.not_mem_nil) (fun y hy => ⟨hL y hy, fun heq => ?_⟩)
        fun y hy hR => ?_
      · exact .inr (Multiset.mem_singleton.2 (heq.symm.trans (List.mem_singleton.1 hy)))
      · have hyc := (hF y hy).resolve_right List.not_mem_nil
        exact List.mem_singleton.2 (hyc.trans (Multiset.mem_singleton.1 (hR hyc)))
    refine wp_seq hput fun _ s6 ⟨fr, hfr, hs6⟩ => wp_bind.2 (wp_modify.2 (wp_write.2 ?_))
    refine ⟨fr, .done x fr hr.symm (not_not.1 hty) ?_ hfr fun heq => ?_, hs6.edits.outcome ⟨rfl, rfl, rfl, rfl⟩ rfl⟩
    · have hcwd6 : s6.cwd = s.cwd := hs6.edits.tables.1
      rw [← hcwd6]
      rfl
    · -- the call still has the new directory, so it has a type
      subst heq
      refine hfr.resolve_right fun hand => ?_
      have hl := hs6.safe.loaded x List.mem_cons_self
      have hfree := (hand.1 ▸ hs6.edits).freed
      rw [St.node_of_loaded hl] at hfree
      exact hs6.safe.good.typ x hl hfree

/-! ## `fileclose` -/

theorem Outcome.of_same (hs : SameDisk s s') (h : Outcome sb s' es s'') : Outcome sb s es s'' := by
  obtain ⟨s₀, s₁, h0, hrest⟩ := h
  exact ⟨s₀, s₁, hs.trans h0, hrest⟩

/-- the entry of a file that has been closed for the last time -/
def St.closed (s : St) (f : Fin NFILE) : St := s.setFile f { s.file f with ref := 0, type := .none }

/-- **`fileclose`** leaves the disk alone, but the last reference to a file on an inode drops one to the inode. -/
theorem fileclose_spec (h : Safe sb s₀ s.holds 0 [] [] s) (f : Fin NFILE) : Wp NoBfree (fileclose sb f) (fun _ s' =>
    s'.cwd = s.cwd ∧ if (s.file f).ref = 1 ∧ (s.file f).type = .inode then
      ∃ fr, MayFree (s.closed f).holds (s.file f).ip fr ∧ Outcome sb s fr s' else SameDisk s s') s := by
  unfold fileclose
  refine wp_read.2 ?_
  split
  · exact wp_panic.2 (by decide)
  rename_i hpos
  split
  · rename_i hmany
    refine wp_modify.2 ⟨rfl, ?_⟩
    rw [if_neg fun hand => by omega]
    exact ⟨rfl, rfl, rfl, rfl⟩
  · refine wp_write.2 ?_
    split
    · rename_i hone htype
      have hs1 : Safe sb (s.closed f) s.holds 0 [] [] (s.closed f) := h.tables rfl rfl rfl rfl
      have hsum : ∀ y, s.holds y = (s.closed f).holds y + Multiset.count y {(s.file f).ip} :=
        St.holds_closed (by omega) htype rfl
      refine wp_mono (dropRef_spec hs1 hsum) fun _ s' ⟨hc, fr, hfr, hout⟩ => ⟨hc, ?_⟩
      have hsame : SameDisk s (s.closed f) := ⟨rfl, rfl, rfl, rfl⟩
      rw [if_pos ⟨by omega, htype⟩]
      exact ⟨fr, hfr, .of_same hsame hout⟩
    · rename_i htype
      refine ⟨rfl, ?_⟩
      rw [if_neg fun hand => htype hand.2]
      exact ⟨rfl, rfl, rfl, rfl⟩

/-! ## Calls that fail -/

/-- every inode on the disk, every block and the free map are as they were -/
def St.Unchanged (s s' : St) : Prop := s'.dinode = s.dinode ∧ s'.data = s.data ∧ s'.used = s.used

theorem SameDisk.unchanged (h : SameDisk s s') : s.Unchanged s' := ⟨h.disk, h.data, h.used⟩

variable {d : Dinode}

theorem St.node_update (hl : s.Loaded x) : (s.update sb x d).node = Function.update s.node x d := by
  funext y
  by_cases hy : y = x
  · subst hy
    rw [St.node_of_loaded (St.loaded_update.2 hl), St.core_update, update_self]
  · rw [update_of_ne hy]
    exact St.node_congr (St.icache_setInode hy) (update_of_ne hy ..)

theorem St.disk_update : (s.update sb x d).dinode = Function.update s.dinode x d := by
  funext y
  by_cases hy : y = x
  · subst hy
    rw [St.dinode_update, update_self]
  · rw [update_of_ne hy]
    exact update_of_ne hy ..

/-- the cache agrees with the disk -/
theorem Good.node_eq (h : Good sb ∅ s) (y : ℕ) : s.node y = s.dinode y := by
  by_cases hl : s.Loaded y
  · rw [St.node_of_loaded hl]
    exact h.coh y (Set.notMem_empty y) hl
  · exact St.node_of_not_loaded hl

theorem Dinode.addLink_back (h : short d.nlink = d.nlink) : (d.addLink 1).addLink (-1) = d := by
  unfold Dinode.addLink
  rw [short_back h]

/-- a link count that has gone up and down again -/
theorem Outcome.undone (h : Outcome sb s [.link x 1, .link x (-1)] s') (hgood : Good sb ∅ s)
    (hshort : short (s.node x).nlink = (s.node x).nlink) : SameDisk s s' := by
  obtain ⟨s₀, s5, h0, -, ⟨s₁, s2, hq1, -, ⟨hl1, rfl⟩, s3, s4, hq2, -, ⟨hl2, rfl⟩, hq3⟩, h5, -⟩ := h
  have hq3 : Quiet _ s5 := hq3
  have hcore1 : s₁.core x = s.node x := by
    rw [← St.node_of_loaded hl1, hq1.node, h0.node]
  have hcore3 : s3.core x = (s.node x).addLink 1 := by
    rw [← St.node_of_loaded hl2, hq2.node, St.node_update hl1, update_self, hcore1]
  refine SameDisk.trans ⟨?_, ?_, ?_, ?_⟩ h5
  · rw [hq3.node, St.node_update hl2, hq2.node, St.node_update hl1, update_idem, hcore3,
      Dinode.addLink_back hshort, hq1.node, h0.node, update_eq_self]
  · rw [hq3.disk, St.disk_update, hq2.disk, St.disk_update, update_idem, hcore3, Dinode.addLink_back hshort,
      hq1.disk, h0.disk, hgood.node_eq, update_eq_self]
  · exact hq3.used.trans (hq2.used.trans (hq1.used.trans h0.used))
  · exact hq3.data.trans (hq2.data.trans (hq1.data.trans h0.data))

/-- an `open` that is to make a file for which there is no file structure or no descriptor -/
def PathCall.NoRoom (s : St) (pid : Fin NPROC) : PathCall → Prop
  | .open omode (some path) => creates omode = true ∧ s.Full pid ∧
      ∃ dp name, s.resolve pid path true = some (dp, name) ∧ s.lookup dp name = none
  | _ => False

/-- what a call does that fails: nothing, unless it has made a file -/
theorem PathCall.fails (hsb : sb.Ok) (h : Wf sb s) {d : ℕ} (hcwd : s.cwd pid = some d) (c : PathCall) :
    Wp NoBfree (c.prog sb pid) (fun r s' => r = -1 → (¬ c.NoRoom s pid ∧ SameDisk s s') ∨
      (c.NoRoom s pid ∧ ∃ ip, (s.dinode ip).type = .free ∧ (s'.dinode ip).type ≠ .free)) s := by
  have hpos := St.holds_start hcwd
  have hmade : ∀ {r : ℤ} {s' : St} {path : List UInt8} {type : Ty} {major minor : ℤ}, (∃ ro es,
      CreateEdits s.holds s pid path type major minor ro es ∧ (r = -1 ↔ ro = none) ∧ Ends sb s s.holds es s') →
      r = -1 → SameDisk s s' := by
    rintro r s' path type major minor ⟨ro, es, hes, hiff, hout⟩ hr
    rw [hiff.1 hr] at hes
    cases hes
    exact hout.outcome.sameDisk
  cases c with
  | «open» omode path =>
    cases path with
    | none => exact fun _ => .inl ⟨id, .refl s⟩
    | some path =>
      refine wp_mono (sysOpen_spec hsb h.safe h.files hpos omode) fun r s' ⟨_, es, hes, hout⟩ hr => ?_
      cases hes with
      | plain hmode => exact .inl ⟨fun hno => by simp [hno.1] at hmode, hout.sameDisk⟩
      | create hmode _ ro es hes hiff hthere =>
        cases hes with
        | none hwhy => exact .inl ⟨fun ⟨_, _, dp, name, hdir, hnone⟩ => hwhy dp name hdir hnone, hout.sameDisk⟩
        | found ip dp off name hdir hent =>
          refine .inl ⟨fun ⟨_, _, dp', name', hdir', hnone⟩ => ?_, hout.sameDisk⟩
          rw [hdir'] at hdir
          cases hdir
          rw [hnone] at hent
          cases hent
        | made ip dp name fr hdir hdp hnone hfree =>
          have hfull := (hiff.1 hr).resolve_left (Option.some_ne_none ip)
          exact .inr ⟨⟨hmode, hfull, dp, name, hdir, hnone⟩, ip, hfree, hthere ip rfl⟩
  | link old new =>
    cases old with
    | none => exact fun _ => .inl ⟨id, .refl s⟩
    | some old =>
      cases new with
      | none => exact fun _ => .inl ⟨id, .refl s⟩
      | some new =>
        refine wp_mono (sysLink_spec hsb h.safe hpos) fun r s' ⟨es, hes, hout⟩ hr => .inl ⟨id, ?_⟩
        cases hes with
        | none => exact hout.outcome.sameDisk
        | undone x => exact hout.outcome.undone h.safe.good (h.safe.nlink x)
        | done => cases hr
  | unlink path =>
    cases path with
    | none => exact fun _ => .inl ⟨id, .refl s⟩
    | some path =>
      refine wp_mono (sysUnlink_spec hsb h.safe hpos (.inl (by decide))) fun r s' ⟨es, hes, hout⟩ hr => .inl ⟨id, ?_⟩
      cases hes with
      | none => exact hout.outcome.sameDisk
      | done => cases hr
  | mkdir path =>
    cases path with
    | none => exact fun _ => .inl ⟨id, ⟨rfl, rfl, rfl, rfl⟩⟩
    | some path => exact wp_mono (createCall_spec hsb h.safe hpos) fun r s' hs' hr => .inl ⟨id, hmade hs' hr⟩
  | mknod major minor path =>
    cases path with
    | none => exact fun _ => .inl ⟨id, ⟨rfl, rfl, rfl, rfl⟩⟩
    | some path => exact wp_mono (createCall_spec hsb h.safe hpos) fun r s' hs' hr => .inl ⟨id, hmade hs' hr⟩
  | chdir path =>
    cases path with
    | none => exact fun _ => .inl ⟨id, ⟨rfl, rfl, rfl, rfl⟩⟩
    | some path =>
      refine wp_mono (sysChdir_spec h.safe hcwd) fun r s' ⟨es, hes, hout⟩ hr => .inl ⟨id, ?_⟩
      cases hes with
      | none => exact hout.sameDisk
      | done => cases hr

/-- **Calls that fail.** A call that takes a path and returns -1 leaves every inode, directory and bit of the free map as it
was exactly if it is not an `open` that makes the file first and then finds no room in the tables. -/
theorem failed_call_unchanged (hsb : sb.Ok) (h : Wf sb s) (hcwd : (s.cwd pid).isSome) (c : PathCall) {l : List ℕ}
    (hfail : (c.prog sb pid).solo s [] = .ok (-1, s', l)) : s.Unchanged s' ↔ ¬ c.NoRoom s pid := by
  obtain ⟨d, hd⟩ := Option.isSome_iff_exists.1 hcwd
  rcases wp_ok (Q := fun r s' => r = -1 → (¬ c.NoRoom s pid ∧ SameDisk s s') ∨
      (c.NoRoom s pid ∧ ∃ ip, (s.dinode ip).type = .free ∧ (s'.dinode ip).type ≠ .free))
    (c.fails hsb h hd) (solo_exec hfail) rfl with ⟨hno, hsame⟩ | ⟨hno, ip, hfree, hthere⟩
  · exact iff_of_true hsame.unchanged hno
  · refine iff_of_false (fun hun => hthere ?_) (not_not.2 hno)
    rw [hun.1]
    exact hfree

/-- a root directory and a file table in which every entry is taken -/
def fullTable : St := { tinyRoot with file := fun _ => ⟨.pipe, 1, true, false, 0, 0⟩ }

theorem fullTable_wf : Wf tinySb fullTable := by
  have hholds : fullTable.holds = tinyRoot.holds := by
    funext y
    simp [St.holds, fullTable, tinyRoot, oneInode, St.setCwd, File.holds]
  refine ⟨?_, fun f hzero => by cases hzero⟩
  rw [hholds]
  exact tinyRoot_wf.safe.tables rfl rfl rfl rfl

/-- the file "x" is made, and then there is no file structure for it -/
theorem open_fails_changed : Wf tinySb fullTable ∧ (fullTable.cwd 0).isSome ∧
    ∃ s' l, ((PathCall.open 512 (some [120])).prog tinySb 0).solo fullTable [] = .ok (-1, s', l) ∧
      ¬ fullTable.Unchanged s' := by
  obtain ⟨r, s', l, hrun, htest⟩ := exists_of_passes (show ((PathCall.open 512 (some [120])).prog tinySb 0).passes fullTable []
    (fun r s _ => r = -1 ∧ (s.dinode 2).type = .file) = true by decide +kernel)
  obtain ⟨rfl, hfile⟩ := of_decide_eq_true htest
  refine ⟨fullTable_wf, rfl, s', l, hrun, fun hun => ?_⟩
  rw [hun.1] at hfile
  cases hfile

/-- a directory that is not there -/
theorem chdir_fails_unchanged : ∃ s' l, ((PathCall.chdir (some [120])).prog tinySb 0).solo tinyRoot [] = .ok (-1, s', l) ∧
    tinyRoot.Unchanged s' := by
  obtain ⟨r, s', l, hrun, htest⟩ := exists_of_passes (show ((PathCall.chdir (some [120])).prog tinySb 0).passes tinyRoot []
    (fun r _ _ => r = -1) = true by decide +kernel)
  obtain rfl := of_decide_eq_true htest
  exact ⟨s', l, hrun, (failed_call_unchanged ⟨by decide, by decide⟩ tinyRoot_wf rfl _ hrun).2 id⟩

/-! ## The size of operations -/

/-- how many blocks `n` bytes from `off` on lie in -/
def span (off n : ℕ) : ℕ := if n = 0 then 0 else (off + n - 1) / BSIZE + 1 - off / BSIZE

/-- the inode that a change is about -/
def Edit.inode : Edit → ℕ
  | .write x _ _ | .enter x _ _ | .erase x _ | .link x _ | .make x _ | .init x _ _ | .free x => x

/-- how many blocks of data a change writes, with the indirect block -/
def Edit.blocks : Edit → ℕ
  | .write _ off src => span off src.length + 1
  | .enter _ _ _ | .erase _ _ => 2
  | .link _ _ | .make _ _ | .init _ _ _ | .free _ => 0

/-- the blocks logged since `s` are the free map, the block of inode `x` and those in `D` -/
def LogsOnly (sb : Superblock) (xs : List ℕ) (D : Finset ℕ) (s s' : St) : Prop :=
  ∀ c ∈ s'.logged, c ∈ s.logged ∨ c = sb.bmapstart ∨ (∃ x ∈ xs, c = IBLOCK x sb) ∨ c ∈ D

/-- the free map is one block -/
theorem bblock_eq {b : ℕ} (hsz : sb.size ≤ BPB) (hb : b < sb.size) : BBLOCK b sb = sb.bmapstart := by
  unfold BBLOCK
  rw [Nat.div_eq_of_lt (hb.trans_le hsz), zero_add]

theorem written_logged {src : List UInt8} (hsz : sb.size ≤ BPB) (h : Written sb x off src s s') :
    ∃ D : Finset ℕ, D.card ≤ span off src.length + 1 ∧ LogsOnly sb [x] D s s' := by
  refine ⟨insert (s'.slot (x, NDIRECT)) ((Finset.range (span off src.length)).image fun k =>
    s'.slot (x, place (off / BSIZE + k))), ?_, fun c hc => ?_⟩
  · refine (Finset.card_insert_le ..).trans (Nat.add_le_add_right ?_ 1)
    exact Finset.card_image_le.trans (Finset.card_range _).le
  · rcases h.logged c hc with hc | ⟨o, hlo, hhi, rfl⟩ | ⟨-, rfl⟩ | ⟨b, hb, rfl⟩ | rfl
    · exact .inl hc
    · refine .inr (.inr (.inr (Finset.mem_insert_of_mem (Finset.mem_image.2 ⟨o / BSIZE - off / BSIZE, ?_, ?_⟩))))
      · have hmono : o / BSIZE ≤ (off + src.length - 1) / BSIZE := Nat.div_le_div_right (by omega)
        unfold span
        rw [if_neg (by omega), Finset.mem_range]
        have hle : off / BSIZE ≤ o / BSIZE := Nat.div_le_div_right hlo
        omega
      · rw [Nat.add_sub_cancel' (Nat.div_le_div_right hlo)]
    · exact .inr (.inr (.inr (Finset.mem_insert_self ..)))
    · exact .inr (.inl (bblock_eq hsz hb))
    · exact .inr (.inr (.inl ⟨x, List.mem_singleton_self x, rfl⟩))

/-- an entry lies in one block -/
theorem span_dirent (h : DESIZE ∣ off) : span off DESIZE = 1 := by
  unfold DESIZE at *
  unfold span BSIZE
  rw [if_neg (by decide)]
  omega

theorem dvd_of_mem_offs {size : ℕ} (h : off ∈ offs size) : DESIZE ∣ off := by
  unfold offs at h
  obtain ⟨k, -, rfl⟩ := List.mem_map.1 h
  exact Nat.dvd_mul_right ..

theorem St.emptyOff_dvd (s : St) (dp : ℕ) : DESIZE ∣ s.emptyOff dp := by
  unfold St.emptyOff
  cases hfind : (offs (s.node dp).size).find? fun off => (s.dirent dp off).inum = 0 with
  | none => exact Nat.dvd_mul_right ..
  | some off => exact dvd_of_mem_offs (List.mem_of_find?_eq_some hfind)

theorem Edit.Does.logged (hsz : sb.size ≤ BPB) (h : e.Does sb s s') : ∃ D : Finset ℕ, D.card ≤ e.blocks ∧ LogsOnly sb [e.inode] D s s' := by
  -- a change to the inode alone
  have hinode : ∀ {x : ℕ}, s'.logged = insert (IBLOCK x sb) s.logged → ∃ D : Finset ℕ, D.card ≤ 0 ∧ LogsOnly sb [x] D s s' := by
    intro x hlog
    refine ⟨∅, le_rfl, fun c hc => ?_⟩
    rw [hlog] at hc
    rcases Finset.mem_insert.1 hc with rfl | hc
    · exact .inr (.inr (.inl ⟨x, List.mem_singleton_self x, rfl⟩))
    · exact .inl hc
  have hdirent : ∀ {dp off : ℕ} {de : Dirent}, DESIZE ∣ off → Written sb dp off de.bytes s s' →
      ∃ D : Finset ℕ, D.card ≤ 2 ∧ LogsOnly sb [dp] D s s' := by
    intro dp off de hdvd hw
    have hD := written_logged hsz hw
    rw [Dirent.length_bytes, span_dirent hdvd] at hD
    exact hD
  cases e with
  | write x off src => exact written_logged hsz h.2.2
  | enter dp name inum => exact hdirent (s.emptyOff_dvd dp) h.2.2.2
  | erase dp off => exact hdirent (dvd_of_mem_offs h.2.2.1) h.2.2.2
  | link x n =>
    obtain ⟨-, rfl⟩ := h
    exact hinode rfl
  | make x type =>
    obtain ⟨-, -, rfl⟩ := h
    exact hinode rfl
  | init x major minor =>
    obtain ⟨-, rfl⟩ := h
    exact hinode rfl
  | free x =>
    obtain ⟨-, -, -, hfreed⟩ := h
    refine ⟨∅, le_rfl, fun c hc => ?_⟩
    rcases hfreed.logged c hc with hc | ⟨b, hb, rfl⟩ | rfl
    · exact .inl hc
    · exact .inr (.inl (bblock_eq hsz hb))
    · exact .inr (.inr (.inl ⟨x, List.mem_singleton_self x, rfl⟩))

theorem Edits.logged (hsz : sb.size ≤ BPB) (h : Edits sb es s s') :
    ∃ D : Finset ℕ, D.card ≤ (es.map Edit.blocks).sum ∧ LogsOnly sb (es.map Edit.inode) D s s' := by
  induction es generalizing s with
  | nil =>
    refine ⟨∅, le_rfl, fun c hc => .inl ?_⟩
    rw [← Quiet.logged h]
    exact hc
  | cons e es ih =>
    obtain ⟨s₁, s2, hq, -, he, hes⟩ := h
    obtain ⟨D, hD, hlog⟩ := he.logged hsz
    obtain ⟨D', hD', hlog'⟩ := ih hes
    refine ⟨D ∪ D', ?_, fun c hc => ?_⟩
    · rw [List.map_cons, List.sum_cons]
      exact (Finset.card_union_le D D').trans (Nat.add_le_add hD hD')
    · rw [List.map_cons, ← hq.logged]
      rcases hlog' c hc with hc | hc | ⟨x, hx, hc⟩ | hc
      · rcases hlog c hc with hc | hc | ⟨x, hx, hc⟩ | hc
        · exact .inl hc
        · exact .inr (.inl hc)
        · exact .inr (.inr (.inl ⟨x, List.mem_singleton.1 hx ▸ List.mem_cons_self, hc⟩))
        · exact .inr (.inr (.inr (Finset.mem_union_left _ hc)))
      · exact .inr (.inl hc)
      · exact .inr (.inr (.inl ⟨x, List.mem_cons_of_mem _ hx, hc⟩))
      · exact .inr (.inr (.inr (Finset.mem_union_right _ hc)))

/-- **The size of an operation**: the free map, the blocks of the inodes it changes, and the blocks of data. -/
theorem Outcome.logged_le (hsz : sb.size ≤ BPB) (h : Outcome sb s es s') :
    s'.logged.card ≤ 1 + (es.map Edit.inode).toFinset.card + (es.map Edit.blocks).sum := by
  obtain ⟨s₀, s₁, -, hempty, hes, -, hlog⟩ := h
  obtain ⟨D, hD, honly⟩ := hes.logged hsz
  have hsub : s₁.logged ⊆ insert sb.bmapstart (((es.map Edit.inode).toFinset.image fun x => IBLOCK x sb) ∪ D) := by
    intro c hc
    rcases honly c hc with hc | rfl | ⟨x, hx, rfl⟩ | hc
    · rw [hempty] at hc
      exact absurd hc (Finset.notMem_empty c)
    · exact Finset.mem_insert_self ..
    · exact Finset.mem_insert_of_mem (Finset.mem_union_left _ (Finset.mem_image_of_mem _ (List.mem_toFinset.2 hx)))
    · exact Finset.mem_insert_of_mem (Finset.mem_union_right _ hc)
  have himage : ((es.map Edit.inode).toFinset.image fun x => IBLOCK x sb).card ≤ (es.map Edit.inode).toFinset.card :=
    Finset.card_image_le
  have hunion := Finset.card_union_le ((es.map Edit.inode).toFinset.image fun x => IBLOCK x sb) D
  calc s'.logged.card = s₁.logged.card := by rw [hlog]
    _ ≤ _ := Finset.card_le_card hsub
    _ ≤ (((es.map Edit.inode).toFinset.image fun x => IBLOCK x sb) ∪ D).card + 1 := Finset.card_insert_le ..
    _ ≤ _ := by omega

/-- changes to two inodes at most, with seven blocks of data -/
def Small (es : List Edit) : Prop := ∃ x y, (∀ e ∈ es, e.inode = x ∨ e.inode = y) ∧ (es.map Edit.blocks).sum ≤ 7

theorem Outcome.small (hsz : sb.size ≤ BPB) (h : Outcome sb s es s') (hes : Small es) : s'.logged.card ≤ MAXOPBLOCKS := by
  obtain ⟨x, y, hxy, hsum⟩ := hes
  have hsub : (es.map Edit.inode).toFinset ⊆ {x, y} := by
    intro z hz
    obtain ⟨e, he, rfl⟩ := List.mem_map.1 (List.mem_toFinset.1 hz)
    simpa using hxy e he
  have hcard := (Finset.card_le_card hsub).trans Finset.card_le_two
  have hle := h.logged_le hsz
  unfold MAXOPBLOCKS
  omega

theorem small_nil : Small [] := ⟨0, 0, nofun, Nat.zero_le _⟩

variable {fr : List Edit}

theorem MayFree.inode (h : MayFree H x fr) : ∀ e ∈ fr, e.inode = x := by
  intro e he
  rcases h with rfl | ⟨rfl, -⟩
  · exact absurd he List.not_mem_nil
  · rw [List.mem_singleton.1 he]
    rfl

theorem MayFree.blocks (h : MayFree H x fr) : (fr.map Edit.blocks).sum = 0 := by
  rcases h with rfl | ⟨rfl, -⟩ <;> rfl

theorem MayFree.small (h : MayFree H x fr) : Small fr :=
  ⟨x, x, fun e he => .inl (h.inode e he), h.blocks.le.trans (Nat.zero_le _)⟩

theorem LinkEdits.small {old new : List UInt8} {r : ℤ} (h : LinkEdits H s pid old new r es) : Small es := by
  cases h with
  | none => exact small_nil
  | undone x => exact ⟨x, x, by simp [Edit.inode], by simp [Edit.blocks]⟩
  | done x dp name fr _ _ _ _ hfr =>
    refine ⟨x, dp, fun e he => ?_, ?_⟩
    · rcases List.mem_append.1 he with he | he
      · rcases List.mem_pair.1 he with rfl | rfl
        · exact .inl rfl
        · exact .inr rfl
      · exact .inl (hfr.inode e he)
    · simp [Edit.blocks, hfr.blocks]

theorem UnlinkEdits.small {r : ℤ} (h : UnlinkEdits H s pid path r es) : Small es := by
  cases h with
  | none => exact small_nil
  | done dp ip off name f1 f2 _ _ _ _ _ _ _ h1 h2 =>
    refine ⟨dp, ip, fun e he => ?_, ?_⟩
    · simp only [List.mem_append, List.mem_singleton] at he
      rcases he with (((rfl | he) | he) | rfl) | he
      · exact .inl rfl
      · split at he
        · rw [List.mem_singleton.1 he]
          exact .inl rfl
        · exact absurd he List.not_mem_nil
      · exact .inl (h1.inode e he)
      · exact .inr rfl
      · exact .inr (h2.inode e he)
    · split
      all_goals simp [Edit.blocks, h1.blocks, h2.blocks]

theorem CreateEdits.small {ro : Option ℕ} (h : CreateEdits H s pid path type major minor ro es) : Small es := by
  cases h with
  | none => exact small_nil
  | found => exact small_nil
  | made ip dp name fr _ _ _ _ _ hfr =>
    refine ⟨ip, dp, fun e he => ?_, ?_⟩
    · simp only [List.mem_append, List.mem_singleton, List.mem_pair] at he
      rcases he with (((rfl | rfl) | he) | rfl) | he
      · exact .inl rfl
      · exact .inl rfl
      · unfold dots at he
        split at he
        · simp only [List.mem_cons, List.not_mem_nil, or_false] at he
          rcases he with rfl | rfl | rfl
          · exact .inr rfl
          · exact .inl rfl
          · exact .inl rfl
        · exact absurd he List.not_mem_nil
      · exact .inr rfl
      · exact .inr (hfr.inode e he)
    · unfold dots
      split
      all_goals simp [Edit.blocks, hfr.blocks]

/-- the changes of a chunk of `filewrite` -/
theorem writeChunk_spec (hsb : sb.Ok) (h : Wf sb s) {f : Fin NFILE} (htype : (s.file f).type = .inode)
    (src : List UInt8) : Wp NoBfree (writeChunk sb f src) (fun _ s' => ∃ w,
      (w = [] ∨ w = [.write (s.file f).ip (s.file f).off src]) ∧ Outcome sb s w s') s := by
  have hheld : 0 < s.holds (s.file f).ip ∨ (s.file f).ip ∈ (0 : Multiset ℕ) := .inl (h.tabled.ip_held htype)
  have hs1 : Running sb s.begun [] s.holds 0 [] [] s.begun := h.safe.begin
  unfold writeChunk
  refine wp_write.2 (wp_read.2 ?_)
  refine wp_seq (hs1.ilock hheld) fun _ s2 hs2 => wp_read.2 ?_
  have hfile2 : s2.file = s.file := hs2.quiet.file
  rw [hfile2]
  refine wp_seq (hs2.writei hsb List.mem_cons_self hheld src _) fun r s3 ⟨w, hw, hs3⟩ => wp_write.2 ?_
  have hs4 : Safe sb _ s.holds 0 [(s.file f).ip] [] (s3.setFile f { s3.file f with off := uint ((s3.file f).off + r.getD 0) }) :=
    hs3.safe.tables rfl rfl rfl rfl
  refine wp_seq (iunlock_spec hs4 hheld) fun _ s5 hs5 => wp_write.2 ?_
  exact ⟨w, hw, hs3.edits.outcome ⟨hs5.quiet.node, hs5.quiet.disk, hs5.quiet.used, hs5.quiet.data⟩ hs5.quiet.logged⟩

/-- the operations of the file system, each from `begin_op` to `end_op` -/
inductive Operation
  | path (pid : Fin NPROC) (c : PathCall)
  | exec (pid : Fin NPROC) (path : List UInt8) (mem : ExecMem)
  /-- the last reference to a file on an inode -/
  | fileclose (f : Fin NFILE)
  /-- `exit` gives up the directory -/
  | exit (pid : Fin NPROC)
  /-- a chunk of `filewrite` -/
  | filewrite (f : Fin NFILE) (src : List UInt8)

/-- the arguments are there, so the call comes to `begin_op` -/
def PathCall.Begins : PathCall → Prop
  | .open _ path | .unlink path => path.isSome
  | .link old new => old.isSome ∧ new.isSome
  | .mkdir _ | .mknod _ _ _ | .chdir _ => True

def Operation.prog (sb : Superblock) : Operation → FsM Unit
  | .path pid c => Call.drop (c.prog sb pid)
  | .exec pid path mem => Call.drop (FileSys.exec sb pid path mem)
  | .fileclose f => FileSys.fileclose sb f
  | .exit pid => do
    let s ← get
    beginOp
    iput sb ((s.cwd pid).getD 0)
    endOp
  | .filewrite f src => Call.drop (writeChunk sb f src)

def Operation.Starts (s : St) : Operation → Prop
  | .path pid c => (s.cwd pid).isSome ∧ c.Begins
  | .exec pid _ _ | .exit pid => (s.cwd pid).isSome
  | .fileclose f => (s.file f).ref = 1 ∧ (s.file f).type = .inode
  | .filewrite f src => (s.file f).type = .inode ∧ src.length ≤ MAXWRITE

theorem PathCall.small (hsb : sb.Ok) (h : Wf sb s) {d : ℕ} (hcwd : s.cwd pid = some d) {c : PathCall} (hc : c.Begins) :
    Wp NoBfree (c.prog sb pid) (fun _ s' => ∃ es, Small es ∧ Outcome sb s es s') s := by
  have hpos := St.holds_start hcwd
  have hnone : Outcome sb s [] s.begun.ended :=
    ⟨s.begun, s.begun, ⟨rfl, rfl, rfl, rfl⟩, rfl, .refl _, ⟨rfl, rfl, rfl, rfl⟩, rfl⟩
  cases c with
  | «open» omode path =>
    obtain ⟨path, rfl⟩ := Option.isSome_iff_exists.1 hc
    refine wp_mono (sysOpen_spec hsb h.safe h.files hpos omode) fun r s' ⟨_, es, hes, hout⟩ => ⟨es, ?_, hout⟩
    cases hes with
    | plain => exact small_nil
    | create _ _ _ _ hes => exact hes.small
  | link old new =>
    obtain ⟨old, rfl⟩ := Option.isSome_iff_exists.1 hc.1
    obtain ⟨new, rfl⟩ := Option.isSome_iff_exists.1 hc.2
    exact wp_mono (sysLink_spec hsb h.safe hpos) fun r s' ⟨es, hes, hs'⟩ => ⟨es, hes.small, hs'.outcome⟩
  | unlink path =>
    obtain ⟨path, rfl⟩ := Option.isSome_iff_exists.1 hc
    exact wp_mono (sysUnlink_spec hsb h.safe hpos (.inl (by decide))) fun r s' ⟨es, hes, hs'⟩ => ⟨es, hes.small, hs'.outcome⟩
  | mkdir path =>
    cases path with
    | none => exact ⟨[], small_nil, hnone⟩
    | some path =>
      exact wp_mono (createCall_spec hsb h.safe hpos) fun r s' ⟨_, es, hes, _, hs'⟩ => ⟨es, hes.small, hs'.outcome⟩
  | mknod major minor path =>
    cases path with
    | none => exact ⟨[], small_nil, hnone⟩
    | some path =>
      exact wp_mono (createCall_spec hsb h.safe hpos) fun r s' ⟨_, es, hes, _, hs'⟩ => ⟨es, hes.small, hs'.outcome⟩
  | chdir path =>
    cases path with
    | none => exact ⟨[], small_nil, hnone⟩
    | some path =>
      refine wp_mono (sysChdir_spec h.safe hcwd) fun r s' ⟨es, hes, hout⟩ => ⟨es, ?_, hout⟩
      cases hes with
      | none => exact small_nil
      | done _ _ _ _ _ hfr _ => exact hfr.small

theorem Operation.small (hsb : sb.Ok) (h : Wf sb s) {o : Operation} (ho : o.Starts s) :
    Wp NoBfree (o.prog sb) (fun _ s' => ∃ es, Small es ∧ Outcome sb s es s') s := by
  cases o with
  | path pid c =>
    obtain ⟨d, hd⟩ := Option.isSome_iff_exists.1 ho.1
    exact wp_seq (PathCall.small hsb h hd ho.2) fun _ _ hs' => hs'
  | exec pid path mem =>
    obtain ⟨d, hd⟩ := Option.isSome_iff_exists.1 ho
    have hpos := St.holds_start hd
    exact wp_seq (exec_spec h.safe hpos path mem) fun _ _ hs' => ⟨[], small_nil, hs'.outcome⟩
  | fileclose f =>
    have ho : (s.file f).ref = 1 ∧ (s.file f).type = .inode := ho
    refine wp_mono (fileclose_spec h.safe f) fun _ s' ⟨_, hs'⟩ => ?_
    rw [if_pos ho] at hs'
    obtain ⟨fr, hfr, hout⟩ := hs'
    exact ⟨fr, hfr.small, hout⟩
  | exit pid =>
    obtain ⟨d, hd⟩ := Option.isSome_iff_exists.1 ho
    refine wp_read.2 ?_
    rw [hd]
    exact wp_mono (dropRef_spec h.safe (St.holds_leave hd)) fun _ s' ⟨_, fr, hfr, hout⟩ => ⟨fr, hfr.small, hout⟩
  | filewrite f src =>
    refine wp_seq (writeChunk_spec hsb h ho.1 src) fun _ s' ⟨w, hw, hout⟩ => ⟨w, ?_, hout⟩
    rcases hw with rfl | rfl
    · exact small_nil
    · refine ⟨(s.file f).ip, (s.file f).ip, fun e he => .inl (by rw [List.mem_singleton.1 he]; rfl), ?_⟩
      have hlen : src.length ≤ 1536 := ho.2
      have hspan : span (s.file f).off src.length ≤ 4 := by
        unfold span BSIZE
        split <;> omega
      simp only [List.map_cons, List.map_nil, List.sum_cons, List.sum_nil, Edit.blocks]
      omega

/-- **The size of transactions.** On a well-formed file system whose free map is one block, an operation that runs from
`begin_op` to `end_op` by itself logs at most `MAXOPBLOCKS` blocks. -/
theorem operation_size (hsb : sb.Ok) (hsz : sb.size ≤ BPB) (h : Wf sb s) {o : Operation} (ho : o.Starts s) {l : List ℕ}
    (hrun : (o.prog sb).solo s [] = .ok ((), s', l)) : s'.logged.card ≤ MAXOPBLOCKS := by
  obtain ⟨es, hes, hout⟩ := wp_ok (Q := fun _ s' => ∃ es, Small es ∧ Outcome sb s es s') (Operation.small hsb h ho)
    (solo_exec hrun)
  exact hout.small hsz hes

/-- a directory is made in the root directory -/
theorem operation_size_mkdir : ∃ s' l, ((Operation.path 0 (.mkdir (some [120]))).prog tinySb).solo tinyRoot [] =
    .ok ((), s', l) ∧ s'.logged.card ≤ MAXOPBLOCKS := by
  obtain ⟨r, s', l, hrun, -⟩ := exists_of_passes (show ((Operation.path 0 (.mkdir (some [120]))).prog tinySb).passes tinyRoot []
    (fun _ _ _ => true) = true by decide +kernel)
  exact ⟨s', l, hrun, operation_size ⟨by decide, by decide⟩ (by decide) tinyRoot_wf
    (show Operation.Starts tinyRoot (.path 0 (.mkdir (some [120]))) from ⟨rfl, trivial⟩) hrun⟩

end Xv6.FileSys
