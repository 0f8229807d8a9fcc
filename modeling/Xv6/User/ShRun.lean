/-
The shell at work (`runcmd` and `main` of `sh.c`), with the descriptors of its processes (`fdalloc`, `sys_dup`, `sys_close` and `sys_pipe`
of `sysfile.c`).

A process is a shell, with the system calls that are left up to where `runcmd` is entered again, or a program that a shell has executed,
or gone. The processes take their steps in any order. The outcome of `open`, `pipe`, `fork` and `exec` is an argument: where one of the
first three fails, the shell prints a message and exits. A program may close, duplicate and open what it likes, also pipes of its own,
which are files here, and may fork. `wait` returns at some point; which child it has waited for is left open.

`forker`, `stage` and `made` are history: the process that forked this one, the stage of a pipeline that it was forked as, and the pipe that
it made for a pipeline.
-/
import Xv6.Core.Run
import Xv6.Kernel.File
import Xv6.User.ShParse

namespace Xv6.Sh

open Xv6.Core
open Xv6.Kernel (NOFILE find?_finRange find?_finRange_first)

/-! ## Descriptors -/

/-- what a descriptor refers to: a file, or an end of a pipe that the shell made -/
inductive File
  | file (n : ℕ)
  | read (pipe : ℕ)
  | write (pipe : ℕ)
  deriving DecidableEq

abbrev Table := Fin NOFILE → Option File

/-- the lowest descriptor that is free -/
def fdalloc (t : Table) (f : File) : Option (Fin NOFILE × Table) :=
  ((List.finRange NOFILE).find? fun d => decide (t d = none)).map fun d => (d, Function.update t d (some f))

def sysClose (t : Table) (d : Fin NOFILE) : Table := Function.update t d none

def sysDup (t : Table) (d : Fin NOFILE) : Table :=
  match t d with
  | none => t
  | some f =>
    match fdalloc t f with
    | none => t
    | some (_, t') => t'

def sysPipe (t : Table) (w : ℕ) : Option (Fin NOFILE × Fin NOFILE × Table) := do
  let (fd0, t) ← fdalloc t (.read w)
  let (fd1, t) ← fdalloc t (.write w)
  return (fd0, fd1, t)

/-! ## Model -/

/-- what a process was forked as: a stage of the pipeline with this pipe, or something else -/
inductive Stage
  | plain
  | left (pipe : ℕ)
  | right (pipe : ℕ)
  deriving DecidableEq

/-- a child, by what it does: `p0` and `p1` are the ends of the pipe -/
inductive Child
  | cmd (c : Cmd Text)
  | left (pipe : ℕ) (p0 p1 : Fin NOFILE) (c : Cmd Text)
  | right (pipe : ℕ) (p0 p1 : Fin NOFILE) (c : Cmd Text)
  deriving DecidableEq

inductive Ins
  /-- `runcmd(c)` is entered; `as` is the stage whose command it is -/
  | run (as : Stage) (c : Cmd Text)
  | close (d : Fin NOFILE)
  | dup (d : Fin NOFILE)
  | opens (file : Text) (dir : Dir)
  | pipe (left right : Cmd Text)
  | fork (child : Child)
  | wait
  | exec (argv : List Text)
  | exit
  deriving DecidableEq

def Dir.fd : Dir → Fin NOFILE
  | .input => 0
  | .output => 1

def Child.stage : Child → Stage
  | .cmd _ => .plain
  | .left w _ _ _ => .left w
  | .right w _ _ _ => .right w

def Child.code : Child → List Ins
  | .cmd c => [.run .plain c]
  | .left w p0 p1 c => [.close 1, .dup p1, .close p0, .close p1, .run (.left w) c]
  | .right w p0 p1 c => [.close 0, .dup p0, .close p0, .close p1, .run (.right w) c]

def runcmd : Cmd Text → List Ins
  | .exec argv => if argv = [] then [.exit] else [.exec argv, .exit]
  | .redir c file dir => [.close dir.fd, .opens file dir, .run .plain c]
  | .list l r => [.fork (.cmd l), .wait, .run .plain r]
  | .pipe l r => [.pipe l r]
  | .back c => [.fork (.cmd c), .exit]

/-- the rest of the PIPE case, with the descriptors that `pipe` has returned -/
def piped (w : ℕ) (p0 p1 : Fin NOFILE) (l r : Cmd Text) : List Ins :=
  [.fork (.left w p0 p1 l), .fork (.right w p0 p1 r), .close p0, .close p1, .wait, .wait, .exit]

/-- the commands that the shell reads -/
def main : List (Cmd Text) → List Ins
  | [] => [.exit]
  | c :: cs => .fork (.cmd c) :: .wait :: main cs

inductive Image
  | shell (code : List Ins)
  | program
  | gone
  deriving DecidableEq

structure Proc where
  fds : Table
  image : Image
  forker : Option ℕ
  stage : Stage
  made : Option ℕ

/-- the processes, in the order of their creation, and a number that no pipe has yet -/
structure St where
  procs : List Proc
  pipes : ℕ

inductive Op
  /-- a shell goes on: `ok` is the outcome of the call, `n` the file that `open` opens -/
  | next (q : ℕ) (ok : Bool) (n : ℕ)
  -- the calls of a program
  | close (q : ℕ) (d : Fin NOFILE)
  | dup (q : ℕ) (d : Fin NOFILE)
  | opens (q : ℕ) (n : ℕ)
  | fork (q : ℕ)
  | exit (q : ℕ)

def Proc.exit (x : Proc) : Proc := { x with fds := fun _ => none, image := .gone }

/-- a shell after the instruction `i`, with `k` left; `w` is the number of the next pipe -/
def Proc.next (x : Proc) (w : ℕ) (ok : Bool) (n : ℕ) (i : Ins) (k : List Ins) : Proc :=
  match i with
  | .run _ c => { x with image := .shell (runcmd c) }
  | .close d => { x with fds := sysClose x.fds d, image := .shell k }
  | .dup d => { x with fds := sysDup x.fds d, image := .shell k }
  | .opens _ _ =>
    match if ok then fdalloc x.fds (.file n) else none with
    | some (_, t) => { x with fds := t, image := .shell k }
    | none => x.exit
  | .pipe l r =>
    match if ok then sysPipe x.fds w else none with
    | some (p0, p1, t) => { x with fds := t, image := .shell (piped w p0 p1 l r), made := some w }
    | none => x.exit
  | .fork _ => if ok then { x with image := .shell k } else x.exit
  | .wait => { x with image := .shell k }
  | .exec _ => { x with image := if ok then .program else .shell k }
  | .exit => x.exit

/-- the process that is forked -/
def Proc.child (x : Proc) (q : ℕ) (image : Image) (stage : Stage) : Proc := ⟨x.fds, image, some q, stage, none⟩

def Ins.forks (x : Proc) (q : ℕ) (ok : Bool) : Ins → List Proc
  | .fork child => if ok then [x.child q (.shell child.code) child.stage] else []
  | _ => []

/-- process `q` becomes `x`, and the processes `ys` are new -/
def St.put (s : St) (q : ℕ) (x : Proc) (ys : List Proc) : St := ⟨s.procs.set q x ++ ys, s.pipes + 1⟩

/-- a call of a program -/
def St.program (s : St) (q : ℕ) (f : Proc → Proc) (forks : Proc → List Proc) : St :=
  match s.procs[q]? with
  | some x =>
    match x.image with
    | .program => s.put q (f x) (forks x)
    | _ => s
  | none => s

def step (s : St) : Op → St
  | .next q ok n =>
    match s.procs[q]? with
    | some x =>
      match x.image with
      | .shell (i :: k) => s.put q (x.next s.pipes ok n i k) (i.forks x q ok)
      | _ => s
    | none => s
  | .close q d => s.program q (fun x => { x with fds := sysClose x.fds d }) fun _ => []
  | .dup q d => s.program q (fun x => { x with fds := sysDup x.fds d }) fun _ => []
  | .opens q n => s.program q (fun x => { x with fds := ((fdalloc x.fds (.file n)).map Prod.snd).getD x.fds }) fun _ => []
  | .fork q => s.program q id fun x => [x.child q .program .plain]
  | .exit q => s.program q Proc.exit fun _ => []

/-- a shell with the files `stdio` on descriptors 0, 1 and 2, which reads the commands `cs` -/
def init (stdio : Fin 3 → ℕ) (cs : List (Cmd Text)) : St where
  procs := [⟨fun d => if h : d.val < 3 then some (.file (stdio ⟨d, h⟩)) else none, .shell (main cs), none, .plain, none⟩]
  pipes := 0

/-! ## What the calls do to the descriptors -/

/-- exactly 0, 1 and 2 are open -/
def Std (t : Table) : Prop := ∀ d, (t d).isSome ↔ d.val < 3

/-- a stage has its end of the pipe -/
def Stage.Has (t : Table) : Stage → Prop
  | .plain => True
  | .left w => t 1 = some (.write w)
  | .right w => t 0 = some (.read w)

variable {t : Table} {d : Fin NOFILE} {f : File} {w : ℕ}

theorem fdalloc_eq (hfree : t d = none) (hlt : ∀ j < d, (t j).isSome) : fdalloc t f = some (d, Function.update t d (some f)) := by
  have hfind : (List.finRange NOFILE).find? (fun d => decide (t d = none)) = some d := by
    refine find?_finRange_first (decide_eq_true hfree) fun j hj => decide_eq_false ?_
    intro hnone
    have hsome := hlt j hj
    rw [hnone] at hsome
    cases hsome
  unfold fdalloc
  rw [hfind]
  rfl

theorem fdalloc_spec {t' : Table} (h : fdalloc t f = some (d, t')) : t d = none ∧ t' = Function.update t d (some f) := by
  unfold fdalloc at h
  obtain ⟨d', hfind, hd⟩ := Option.map_eq_some_iff.1 h
  cases hd
  exact ⟨of_decide_eq_true (find?_finRange hfind), rfl⟩

/-- a duplicate is of what was there -/
theorem sysDup_spec (t : Table) (d : Fin NOFILE) : sysDup t d = t ∨ ∃ d', t d' = none ∧ sysDup t d = Function.update t d' (t d) := by
  unfold sysDup
  split
  · exact .inl rfl
  · rename_i f hf
    split
    · exact .inl rfl
    · rename_i r d' t' halloc
      obtain ⟨hfree, ht'⟩ := fdalloc_spec halloc
      rw [hf]
      exact .inr ⟨d', hfree, ht'⟩

theorem Std.update (h : Std t) (hd : d.val < 3) : Std (Function.update t d (some f)) := by
  intro d'
  by_cases heq : d' = d
  · subst heq
    rw [update_self]
    exact ⟨fun _ => hd, fun _ => rfl⟩
  · rw [update_of_ne heq]
    exact h d'

theorem Std.free (h : Std t) (hd : 3 ≤ d.val) : t d = none := by
  rw [← Option.not_isSome_iff_eq_none, h]
  omega

/-- a descriptor that was closed is the next one that is given out -/
theorem Std.below (h : Std t) (hd : d.val < 3) : ∀ j < d, (sysClose t d j).isSome := by
  intro j hj
  unfold sysClose
  rw [update_of_ne hj.ne, h]
  have hlt : j.val < d.val := hj
  omega

/-- the descriptors with a pipe -/
def withPipe (t : Table) (w : ℕ) : Table := Function.update (Function.update t 3 (some (.read w))) 4 (some (.write w))

theorem Std.sysPipe (h : Std t) (w : ℕ) : sysPipe t w = some (3, 4, withPipe t w) := by
  have hread : fdalloc t (.read w) = some (3, Function.update t 3 (some (.read w))) := by
    refine fdalloc_eq (h.free (le_refl 3)) fun j hj => ?_
    rw [h]
    exact hj
  have hwrite : fdalloc (Function.update t 3 (some (.read w))) (.write w) = some (4, withPipe t w) := by
    refine fdalloc_eq ?_ fun j hj => ?_
    · rw [update_of_ne (by decide)]
      exact h.free (by decide)
    · by_cases hj3 : j = 3
      · subst hj3
        rw [update_self]
        rfl
      · rw [update_of_ne hj3, h]
        have hlt : j.val < 4 := hj
        have hne : j.val ≠ 3 := fun heq => hj3 (Fin.ext heq)
        omega
  unfold Sh.sysPipe
  rw [hread]
  change (fdalloc (Function.update t 3 (some (.read w))) (.write w)).bind _ = _
  rw [hwrite]
  rfl

/-- the ends of the pipe are closed -/
theorem close_withPipe (h : Std t) (w : ℕ) : sysClose (sysClose (withPipe t w) 3) 4 = t := by
  funext j
  unfold sysClose withPipe
  by_cases hj4 : j = 4
  · subst hj4
    rw [update_self, h.free (by decide)]
  · by_cases hj3 : j = 3
    · subst hj3
      rw [update_of_ne hj4, update_self, h.free (by decide)]
    · rw [update_of_ne hj4, update_of_ne hj3, update_of_ne hj4, update_of_ne hj3]

/-- one of 0 and 1 becomes an end of the pipe -/
theorem dup_withPipe (h : Std t) (w : ℕ) {d p : Fin NOFILE} (hd : d.val < 3) (hp : withPipe t w p = some f) (hne : p ≠ d) :
    sysDup (sysClose (withPipe t w) d) p = withPipe (Function.update t d (some f)) w := by
  have halloc : fdalloc (sysClose (withPipe t w) d) f = some (d, Function.update (sysClose (withPipe t w) d) d (some f)) := by
    refine fdalloc_eq (update_self ..) fun j hj => ?_
    have hlt : j.val < d.val := hj
    have h3 : j ≠ 3 := fun heq => absurd (congrArg Fin.val heq) (show j.val ≠ 3 by omega)
    have h4 : j ≠ 4 := fun heq => absurd (congrArg Fin.val heq) (show j.val ≠ 4 by omega)
    unfold sysClose withPipe
    rw [update_of_ne hj.ne, update_of_ne h4, update_of_ne h3, h]
    omega
  have hsrc : sysClose (withPipe t w) d p = some f := by
    unfold sysClose
    rw [update_of_ne hne]
    exact hp
  unfold sysDup
  rw [hsrc]
  dsimp only
  rw [halloc]
  have h3 : d ≠ 3 := fun heq => absurd (congrArg Fin.val heq) (show d.val ≠ 3 by omega)
  have h4 : d ≠ 4 := fun heq => absurd (congrArg Fin.val heq) (show d.val ≠ 4 by omega)
  unfold sysClose withPipe
  dsimp only
  rw [update_idem, Function.update_comm h4.symm, Function.update_comm h3.symm]

/-! ## Code that fits -/

/-- every write end belongs to a pipe in `L` -/
def Clean (L : ℕ → Prop) (t : Table) : Prop := ∀ d w, t d = some (.write w) → L w

/-- the code of a shell with the descriptors `t`: at the entry of `runcmd` these are the standard ones, and but for the closes that are still
to come, the write ends that it has are of pipes in `L`. `m` is the pipe that it has made. -/
inductive Fits : (ℕ → Prop) → Option ℕ → Table → List Ins → Prop
  | run {L t as c k} (hstd : Std t) (has : as.Has t) (hclean : Clean L t) : Fits L none t (.run as c :: k)
  | close {L m t d k} (h : Fits L m (sysClose t d) k) : Fits L m t (.close d :: k)
  | dup {L m t d k} (h : Fits L m (sysDup t d) k) : Fits L m t (.dup d :: k)
  | opens {L m t file dir d k} (hfree : t d = none) (hlt : ∀ j < d, (t j).isSome)
      (h : ∀ n, Fits L m (Function.update t d (some (.file n))) k) : Fits L m t (.opens file dir :: k)
  | pipe {L t l r k} (hstd : Std t) (hclean : Clean L t) : Fits L none t (.pipe l r :: k)
  | forkCmd {L m t c k} (hchild : Fits L none t [.run .plain c]) (h : Fits L m t k) : Fits L m t (.fork (.cmd c) :: k)
  | forkLeft {L w t p0 p1 c k} (hchild : Fits (fun w' => L w' ∨ w' = w) none t (Child.left w p0 p1 c).code)
      (howes : ∀ d w', t d = some (.write w') → L w' ∨ w' = w) (h : Fits L (some w) t k) :
    Fits L (some w) t (.fork (.left w p0 p1 c) :: k)
  | forkRight {L w t p0 p1 c k} (hchild : Fits L none t (Child.right w p0 p1 c).code)
      (howes : ∀ d w', t d = some (.write w') → L w' ∨ w' = w) (h : Fits L (some w) t k) :
    Fits L (some w) t (.fork (.right w p0 p1 c) :: k)
  | wait {L m t k} (hclean : Clean L t) (h : Fits L m t k) : Fits L m t (.wait :: k)
  | exec {L m t argv k} (hclean : Clean L t) (h : Fits L m t k) : Fits L m t (.exec argv :: k)
  | exit {L m t k} (hclean : Clean L t) : Fits L m t (.exit :: k)

variable {L L' : ℕ → Prop} {m : Option ℕ} {code k : List Ins}

theorem Clean.mono (h : Clean L t) (hL : ∀ w, L w → L' w) : Clean L' t := fun d w hd => hL w (h d w hd)

theorem Clean.update (h : Clean L t) {e : Option File} (he : ∀ w, e = some (.write w) → L w) : Clean L (Function.update t d e) := by
  intro d' w hd'
  by_cases heq : d' = d
  · subst heq
    rw [update_self] at hd'
    exact he w hd'
  · rw [update_of_ne heq] at hd'
    exact h d' w hd'

theorem Fits.mono (h : Fits L m t code) (hL : ∀ w, L w → L' w) : Fits L' m t code := by
  induction h generalizing L' with
  | run hstd has hclean => exact .run hstd has (hclean.mono hL)
  | close _ ih => exact .close (ih hL)
  | dup _ ih => exact .dup (ih hL)
  | opens hfree hlt _ ih => exact .opens hfree hlt fun n => ih n hL
  | pipe hstd hclean => exact .pipe hstd (hclean.mono hL)
  | forkCmd _ _ ihchild ih => exact .forkCmd (ihchild hL) (ih hL)
  | forkLeft _ howes _ ihchild ih =>
    exact .forkLeft (ihchild fun w hw => hw.imp (hL w) id) (fun d w hd => (howes d w hd).imp (hL w) id) (ih hL)
  | forkRight _ howes _ ihchild ih => exact .forkRight (ihchild hL) (fun d w hd => (howes d w hd).imp (hL w) id) (ih hL)
  | wait hclean _ ih => exact .wait (hclean.mono hL) (ih hL)
  | exec hclean _ ih => exact .exec (hclean.mono hL) (ih hL)
  | exit hclean => exact .exit (hclean.mono hL)

/-- a write end that is not of a pipe in `L` is still to be closed -/
theorem Fits.closing (h : Fits L m t code) {d : Fin NOFILE} (hd : t d = some (.write w)) : L w ∨ Ins.close d ∈ code := by
  induction h with
  | run _ _ hclean => exact .inl (hclean d w hd)
  | @close L m t d' k _ ih =>
    by_cases heq : d = d'
    · subst heq
      exact .inr List.mem_cons_self
    · refine (ih ?_).imp id (List.mem_cons_of_mem _)
      unfold sysClose
      rw [update_of_ne heq]
      exact hd
  | @dup L m t d' k _ ih =>
    refine (ih ?_).imp id (List.mem_cons_of_mem _)
    rcases sysDup_spec t d' with hdup | ⟨d'', hfree, hdup⟩
    · rw [hdup]
      exact hd
    · rw [hdup, update_of_ne]
      · exact hd
      · rintro rfl
        rw [hd] at hfree
        cases hfree
  | opens hfree _ _ ih =>
    refine (ih 0 ?_).imp id (List.mem_cons_of_mem _)
    rw [update_of_ne]
    · exact hd
    · rintro rfl
      rw [hd] at hfree
      cases hfree
  | pipe _ hclean => exact .inl (hclean d w hd)
  | forkCmd _ _ _ ih => exact (ih hd).imp id (List.mem_cons_of_mem _)
  | forkLeft _ _ _ _ ih => exact (ih hd).imp id (List.mem_cons_of_mem _)
  | forkRight _ _ _ _ ih => exact (ih hd).imp id (List.mem_cons_of_mem _)
  | wait hclean => exact .inl (hclean d w hd)
  | exec hclean => exact .inl (hclean d w hd)
  | exit hclean => exact .inl (hclean d w hd)

theorem fits_runcmd (hstd : Std t) (hclean : Clean L t) (c : Cmd Text) : Fits L none t (runcmd c) := by
  have hrun : ∀ c k, Fits L none t (.run .plain c :: k) := fun c k => .run hstd trivial hclean
  cases c with
  | exec argv =>
    unfold runcmd
    dsimp only
    split
    · exact .exit hclean
    · exact .exec hclean (.exit hclean)
  | redir c file dir =>
    have hdir : dir.fd.val < 3 := by
      cases dir with
      | input => decide
      | output => decide
    refine .close (.opens (d := dir.fd) (update_self ..) (hstd.below hdir) fun n => ?_)
    have hupd : Function.update (sysClose t dir.fd) dir.fd (some (.file n)) = Function.update t dir.fd (some (.file n)) :=
      update_idem ..
    rw [hupd]
    exact .run (hstd.update hdir) trivial (hclean.update nofun)
  | list l r => exact .forkCmd (hrun l []) (.wait hclean (hrun r []))
  | pipe l r => exact .pipe hstd hclean
  | back c => exact .forkCmd (hrun c []) (.exit hclean)

theorem fits_main (hstd : Std t) (hclean : Clean L t) (cs : List (Cmd Text)) : Fits L none t (main cs) := by
  induction cs with
  | nil => exact .exit hclean
  | cons c cs ih => exact .forkCmd (.run hstd trivial hclean) (.wait hclean ih)

theorem fits_piped (hstd : Std t) (hclean : Clean L t) (w : ℕ) (l r : Cmd Text) : Fits L (some w) (withPipe t w) (piped w 3 4 l r) := by
  have hread : withPipe t w 3 = some (.read w) := by
    unfold withPipe
    rw [update_of_ne (by decide), update_self]
  have hwrite : withPipe t w 4 = some (.write w) := update_self ..
  have howes : ∀ d w', withPipe t w d = some (.write w') → L w' ∨ w' = w := by
    have hmore : Clean (fun w' => L w' ∨ w' = w) (withPipe t w) := by
      refine Clean.update (Clean.update (hclean.mono fun _ => .inl) nofun) fun w' hw' => ?_
      cases hw'
      exact .inr rfl
    exact hmore
  refine .forkLeft (.close (.dup ?_)) howes (.forkRight (.close (.dup ?_)) howes (.close (.close ?_)))
  · rw [dup_withPipe hstd w (by decide) hwrite (by decide)]
    refine .close (.close ?_)
    rw [close_withPipe (hstd.update (by decide))]
    refine .run (hstd.update (by decide)) (update_self ..) (Clean.update (hclean.mono fun _ => .inl) fun w' hw' => ?_)
    cases hw'
    exact .inr rfl
  · rw [dup_withPipe hstd w (by decide) hread (by decide)]
    refine .close (.close ?_)
    rw [close_withPipe (hstd.update (by decide))]
    exact .run (hstd.update (by decide)) (update_self ..) (hclean.update nofun)
  · rw [close_withPipe hstd]
    exact .wait hclean (.wait hclean (.exit hclean))

/-! ## Processes -/

def Image.Fits (L : ℕ → Prop) (m : Option ℕ) (t : Table) : Image → Prop
  | .shell code => Sh.Fits L m t code
  | .program => Clean L t
  | .gone => ∀ d, t d = none

/-- what a process keeps: `L` are the pipes that it or an ancestor is the left stage of -/
structure Proc.Good (L : ℕ → Prop) (x : Proc) : Prop where
  image : x.image.Fits L x.made x.fds
  owes : Clean (fun w => L w ∨ x.made = some w ∨ x.stage = .right w) x.fds

variable {x : Proc} {q : ℕ}

theorem Image.Fits.mono {image : Image} (h : image.Fits L m t) (hL : ∀ w, L w → L' w) : image.Fits L' m t := by
  cases image with
  | shell code => exact Sh.Fits.mono h hL
  | program => exact Clean.mono h hL
  | gone => exact h

theorem Proc.Good.mono (h : x.Good L) (hL : ∀ w, L w → L' w) : x.Good L' :=
  ⟨h.image.mono hL, fun d w hd => (h.owes d w hd).imp (hL w) id⟩

theorem Proc.good_exit (L : ℕ → Prop) (x : Proc) : x.exit.Good L := ⟨fun _ => rfl, nofun⟩

theorem Clean.sysClose (h : Clean L t) (d : Fin NOFILE) : Clean L (sysClose t d) := h.update nofun

theorem Clean.sysDup (h : Clean L t) (d : Fin NOFILE) : Clean L (sysDup t d) := by
  rcases sysDup_spec t d with hdup | ⟨d', -, hdup⟩
  · rw [hdup]
    exact h
  · rw [hdup]
    exact h.update (h d)

/-- a shell goes on -/
theorem Proc.Good.next (h : x.Good L) {i : Ins} (hx : x.image = .shell (i :: k)) (w : ℕ) (ok : Bool) (n : ℕ) : (x.next w ok n i k).Good L := by
  obtain ⟨t, image, forker, stage, made⟩ := x
  obtain ⟨hfits, howes⟩ := h
  cases hx
  change Sh.Fits L made t (i :: k) at hfits
  have hfork : Sh.Fits L made t k → Proc.Good L (if ok then ⟨t, .shell k, forker, stage, made⟩ else Proc.exit ⟨t, .gone, forker, stage, made⟩) := by
    intro hk
    cases ok with
    | false => exact good_exit L _
    | true => exact ⟨hk, howes⟩
  cases hfits with
  | run hstd _ hclean => exact ⟨fits_runcmd hstd hclean _, howes⟩
  | close hk => exact ⟨hk, howes.sysClose _⟩
  | dup hk => exact ⟨hk, howes.sysDup _⟩
  | opens hfree hlt hk =>
    cases ok with
    | false => exact good_exit L _
    | true =>
      unfold Proc.next
      dsimp only
      rw [if_pos rfl, fdalloc_eq hfree hlt]
      exact ⟨hk n, Clean.update howes nofun⟩
  | pipe hstd hclean =>
    cases ok with
    | false => exact good_exit L _
    | true =>
      unfold Proc.next
      dsimp only
      rw [if_pos rfl, hstd.sysPipe]
      refine ⟨fits_piped hstd hclean w _ _, ?_⟩
      refine Clean.update (Clean.update (hclean.mono fun _ => .inl) nofun) fun w' hw' => ?_
      cases hw'
      exact .inr (.inl rfl)
  | forkCmd _ hk => exact hfork hk
  | forkLeft _ _ hk => exact hfork hk
  | forkRight _ _ hk => exact hfork hk
  | wait _ hk => exact ⟨hk, howes⟩
  | exec hclean hk =>
    cases ok with
    | false => exact ⟨hk, howes⟩
    | true => exact ⟨hclean, howes⟩
  | exit => exact good_exit L _

/-- a process that is forked: by a shell that has made the pipe, if it is a stage -/
structure Born (L : ℕ → Prop) (x : Proc) (q : ℕ) (y : Proc) : Prop where
  forker : y.forker = some q
  stage : ∀ w, y.stage = .left w ∨ y.stage = .right w → x.made = some w
  good : ∀ L' : ℕ → Prop, (∀ w, L w → L' w) → (∀ w, y.stage = .left w → L' w) → y.Good L'

theorem Proc.Good.forks (h : x.Good L) {i : Ins} (hx : x.image = .shell (i :: k)) {q : ℕ} {ok : Bool} {y : Proc}
    (hy : y ∈ i.forks x q ok) : Born L x q y := by
  obtain ⟨t, image, forker, stage, made⟩ := x
  obtain ⟨hfits, howes⟩ := h
  cases hx
  change Sh.Fits L made t (i :: k) at hfits
  cases i with
  | fork child =>
    cases ok with
    | false => cases hy
    | true =>
      rw [List.mem_singleton.1 hy]
      cases hfits with
      | forkCmd hchild _ =>
        refine ⟨rfl, ?_, fun L' hL _ => ⟨hchild.mono hL, ?_⟩⟩
        · rintro w (hw | hw) <;> cases hw
        · cases hchild with
          | run _ _ hclean => exact hclean.mono fun w hw => .inl (hL w hw)
      | @forkLeft _ w _ _ _ _ _ hchild howes' _ =>
        refine ⟨rfl, ?_, fun L' hL hself => ?_⟩
        · rintro w' (hw | hw)
          · cases hw
            rfl
          · cases hw
        · have hL' : ∀ w', L w' ∨ w' = w → L' w' := by
            rintro w' (hw | rfl)
            · exact hL w' hw
            · exact hself w' rfl
          exact ⟨hchild.mono hL', fun d w' hd => .inl (hL' w' (howes' d w' hd))⟩
      | @forkRight _ w _ _ _ _ _ hchild howes' _ =>
        refine ⟨rfl, ?_, fun L' hL _ => ⟨hchild.mono hL, fun d w' hd => ?_⟩⟩
        · rintro w' (hw | hw)
          · cases hw
          · cases hw
            rfl
        · rcases howes' d w' hd with hw | rfl
          · exact .inl (hL w' hw)
          · exact .inr (.inr rfl)
  | _ => cases hy

/-! ## The system -/

/-- the process is the left stage of the pipeline with pipe `w`, or a descendant of it -/
inductive Under (ps : List Proc) (w : ℕ) : ℕ → Prop
  | self {q : ℕ} {x : Proc} (hq : ps[q]? = some x) (hst : x.stage = .left w) : Under ps w q
  | child {q p : ℕ} {x : Proc} (hq : ps[q]? = some x) (hp : x.forker = some p) (h : Under ps w p) : Under ps w q

/-- the pipe was made by the process that forked the stage -/
def Staged (ps : List Proc) (x : Proc) : Prop :=
  ∀ w, x.stage = .left w ∨ x.stage = .right w → ∃ p y, x.forker = some p ∧ ps[p]? = some y ∧ y.made = some w

def Inv (ps : List Proc) : Prop := ∀ (q : ℕ) (x : Proc), ps[q]? = some x → x.Good (fun w => Under ps w q) ∧ Staged ps x

/-- processes keep their history -/
def Grows (ps ps' : List Proc) : Prop :=
  ∀ (q : ℕ) (x : Proc), ps[q]? = some x → ∃ x', ps'[q]? = some x' ∧ x'.stage = x.stage ∧ x'.forker = x.forker ∧
    ∀ w, x.made = some w → x'.made = some w

variable {ps ps' : List Proc}

theorem Grows.under (h : Grows ps ps') (hq : Under ps w q) : Under ps' w q := by
  induction hq with
  | self hq hst =>
    obtain ⟨x', hq', hst', -, -⟩ := h _ _ hq
    exact .self hq' (hst'.trans hst)
  | child hq hp _ ih =>
    obtain ⟨x', hq', -, hp', -⟩ := h _ _ hq
    exact .child hq' (hp'.trans hp) ih

theorem Grows.staged (h : Grows ps ps') {y : Proc} (hy : Staged ps x) (hst : y.stage = x.stage) (hf : y.forker = x.forker) : Staged ps' y := by
  intro w hw
  rw [hst] at hw
  obtain ⟨p, z, hp, hz, hmade⟩ := hy w hw
  obtain ⟨z', hz', -, -, hkeep⟩ := h p z hz
  exact ⟨p, z', hf.trans hp, hz', hkeep w hmade⟩

/-- one process goes on, and others are forked by it -/
theorem Inv.put (h : Inv ps) (hq : ps[q]? = some x) {x' : Proc} (hx' : x'.Good fun w => Under ps w q) (hst : x'.stage = x.stage)
    (hf : x'.forker = x.forker) (hm : ∀ w, x.made = some w → x'.made = some w) {ys : List Proc}
    (hys : ∀ y ∈ ys, Born (fun w => Under ps w q) x q y) : Inv (ps.set q x' ++ ys) := by
  have hlt : q < ps.length := (List.getElem?_eq_some_iff.1 hq).1
  have hget : (ps.set q x' ++ ys)[q]? = some x' := by
    rw [List.getElem?_append_left (by rw [List.length_set]; exact hlt), List.getElem?_set_self hlt]
  have hother : ∀ p y, ps[p]? = some y → p ≠ q → (ps.set q x' ++ ys)[p]? = some y := by
    intro p y hp hne
    have hplt : p < ps.length := (List.getElem?_eq_some_iff.1 hp).1
    rw [List.getElem?_append_left (by rw [List.length_set]; exact hplt), List.getElem?_set_ne hne.symm]
    exact hp
  have hgrows : Grows ps (ps.set q x' ++ ys) := by
    intro p y hp
    by_cases hpq : p = q
    · subst hpq
      rw [hq] at hp
      cases hp
      exact ⟨x', hget, hst, hf, hm⟩
    · exact ⟨y, hother p y hp hpq, rfl, rfl, fun _ hw => hw⟩
  intro p y hp
  by_cases hpq : p = q
  · subst hpq
    rw [hget] at hp
    cases hp
    exact ⟨hx'.mono fun w hw => hgrows.under hw, hgrows.staged (h p x hq).2 hst hf⟩
  · by_cases hplt : p < ps.length
    · have hpy : ps[p]? = some y := by
        rw [List.getElem?_append_left (by rw [List.length_set]; exact hplt), List.getElem?_set_ne (Ne.symm hpq)] at hp
        exact hp
      exact ⟨(h p y hpy).1.mono fun w hw => hgrows.under hw, hgrows.staged (h p y hpy).2 rfl rfl⟩
    · -- a process that is new
      have hmem : y ∈ ys := by
        rw [List.getElem?_append_right (by rw [List.length_set]; omega)] at hp
        exact List.mem_of_getElem? hp
      have hborn := hys y hmem
      refine ⟨hborn.good _ (fun w hw => .child hp hborn.forker (hgrows.under hw)) fun w hw => .self hp hw, fun w hw => ?_⟩
      exact ⟨q, x', hborn.forker, hget, hm w (hborn.stage w hw)⟩

/-- a call of a program -/
theorem Inv.program {s : St} (h : Inv s.procs) {f : Proc → Proc} {forks : Proc → List Proc} (q : ℕ)
    (hf : ∀ (x : Proc) (L : ℕ → Prop), x.image = .program → x.Good L → (f x).Good L ∧ (f x).stage = x.stage ∧ (f x).forker = x.forker ∧
      (f x).made = x.made ∧ ∀ y ∈ forks x, Born L x q y) : Inv (s.program q f forks).procs := by
  unfold St.program
  split
  · rename_i x hq
    split
    · rename_i himage
      obtain ⟨hgood, hst, hforker, hmade, hborn⟩ := hf x _ himage (h q x hq).1
      exact h.put hq hgood hst hforker (fun w hw => hmade.trans hw) hborn
    · exact h
  · exact h

theorem next_keeps (x : Proc) (w : ℕ) (ok : Bool) (n : ℕ) (i : Ins) (k : List Ins) :
    (x.next w ok n i k).stage = x.stage ∧ (x.next w ok n i k).forker = x.forker := by
  cases i with
  | opens file dir =>
    unfold Proc.next
    dsimp only
    split <;> exact ⟨rfl, rfl⟩
  | pipe l r =>
    unfold Proc.next
    dsimp only
    split <;> exact ⟨rfl, rfl⟩
  | fork child =>
    cases ok with
    | false => exact ⟨rfl, rfl⟩
    | true => exact ⟨rfl, rfl⟩
  | _ => exact ⟨rfl, rfl⟩

/-- a process makes one pipe -/
theorem Proc.Good.next_made (h : x.Good L) {i : Ins} (hx : x.image = .shell (i :: k)) (w : ℕ) (ok : Bool) (n : ℕ) :
    ∀ w', x.made = some w' → (x.next w ok n i k).made = some w' := by
  intro w' hw'
  have hfits := h.image
  rw [hx, hw'] at hfits
  cases i with
  | opens file dir =>
    unfold Proc.next
    dsimp only
    split <;> exact hw'
  | pipe l r => cases hfits
  | fork child =>
    cases ok with
    | false => exact hw'
    | true => exact hw'
  | _ => exact hw'

theorem Proc.Good.clean (h : x.Good L) (himage : x.image = .program) : Clean L x.fds := by
  have hclean := h.image
  rw [himage] at hclean
  exact hclean

theorem Proc.good_program (himage : x.image = .program) (h : Clean L x.fds) : x.Good L := by
  refine ⟨?_, h.mono fun _ => .inl⟩
  rw [himage]
  exact h

/-- the descriptors at the entry of `runcmd` -/
theorem Proc.Good.atRun (h : x.Good L) {as : Stage} {c : Cmd Text} (himage : x.image = .shell (.run as c :: k)) :
    Std x.fds ∧ as.Has x.fds := by
  have hfits := h.image
  rw [himage] at hfits
  generalize x.made = m at hfits
  cases hfits with
  | run hstd has _ => exact ⟨hstd, has⟩

theorem step_inv {s : St} (h : Inv s.procs) (op : Op) : Inv (step s op).procs := by
  cases op with
  | next q ok n =>
    unfold step
    dsimp only
    split
    · rename_i x hq
      split
      · rename_i i k himage
        have hgood := (h q x hq).1
        obtain ⟨hst, hf⟩ := next_keeps x s.pipes ok n i k
        exact h.put hq (hgood.next himage s.pipes ok n) hst hf (hgood.next_made himage s.pipes ok n) fun y hy => hgood.forks himage hy
      · exact h
    · exact h
  | close q d =>
    exact h.program q fun x L himage hx => ⟨Proc.good_program himage ((hx.clean himage).sysClose d), rfl, rfl, rfl, nofun⟩
  | dup q d => exact h.program q fun x L himage hx => ⟨Proc.good_program himage ((hx.clean himage).sysDup d), rfl, rfl, rfl, nofun⟩
  | opens q n =>
    refine h.program q fun x L himage hx => ⟨Proc.good_program himage ?_, rfl, rfl, rfl, nofun⟩
    dsimp only
    cases halloc : fdalloc x.fds (.file n) with
    | none => exact hx.clean himage
    | some r =>
      obtain ⟨d, t'⟩ := r
      have ht' := (fdalloc_spec halloc).2
      subst ht'
      exact (hx.clean himage).update nofun
  | fork q =>
    refine h.program q fun x L himage hx => ⟨hx, rfl, rfl, rfl, fun y hy => ?_⟩
    rw [List.mem_singleton.1 hy]
    refine ⟨rfl, ?_, fun L' hL _ => Proc.good_program rfl ((hx.clean himage).mono hL)⟩
    rintro w (hw | hw) <;> cases hw
  | exit q => exact h.program q fun x L _ _ => ⟨x.good_exit L, rfl, rfl, rfl, nofun⟩

theorem init_inv (stdio : Fin 3 → ℕ) (cs : List (Cmd Text)) : Inv (init stdio cs).procs := by
  intro q x hq
  cases q with
  | zero =>
    cases hq
    have hstd : Std fun d : Fin NOFILE => if h : d.val < 3 then some (.file (stdio ⟨d, h⟩)) else none := by
      intro d
      dsimp only
      split
      · rename_i hd
        exact ⟨fun _ => hd, fun _ => rfl⟩
      · rename_i hd
        exact ⟨nofun, fun hlt => absurd hlt hd⟩
    have hclean : ∀ L : ℕ → Prop, Clean L fun d : Fin NOFILE => if h : d.val < 3 then some (.file (stdio ⟨d, h⟩)) else none := by
      intro L d w hd
      dsimp only at hd
      split at hd <;> cases hd
    refine ⟨⟨fits_main hstd (hclean _) cs, hclean _⟩, ?_⟩
    rintro w (hw | hw) <;> cases hw
  | succ q => cases hq

/-! ## The descriptors of the shell -/

/-- **Descriptor discipline.** Every process, in any interleaving:
- where `runcmd` is entered, exactly the descriptors 0, 1 and 2 are open, and a stage of a pipeline has its end of the pipe as
  descriptor 1 or 0; the pipe was made by the process that forked the stage;
- a process that has the write end of a pipe is the left stage or a descendant of it, or it is the process that made the pipe or the
  right stage, and is still to close this descriptor. -/
theorem shell_descriptors (stdio : Fin 3 → ℕ) (cs : List (Cmd Text)) (ops : List Op) (q : ℕ) (x : Proc)
    (hq : (run step (init stdio cs) ops).procs[q]? = some x) :
    (∀ as c k, x.image = .shell (.run as c :: k) → Std x.fds ∧ as.Has x.fds) ∧
      (∀ w, x.stage = .left w ∨ x.stage = .right w →
        ∃ p y, x.forker = some p ∧ (run step (init stdio cs) ops).procs[p]? = some y ∧ y.made = some w) ∧
      ∀ d w, x.fds d = some (.write w) →
        Under (run step (init stdio cs) ops).procs w q ∨
          (x.made = some w ∨ x.stage = .right w) ∧ ∃ code, x.image = .shell code ∧ Ins.close d ∈ code := by
  have hinv := run_inv (I := fun s : St => Inv s.procs) (fun s op h => step_inv h op) _ (init_inv stdio cs) ops
  obtain ⟨hgood, hstaged⟩ := hinv q x hq
  refine ⟨fun as c k himage => ?_, hstaged, fun d w hd => ?_⟩
  · exact hgood.atRun himage
  · have hfits := hgood.image
    cases himage : x.image with
    | shell code =>
      rw [himage] at hfits
      rcases Fits.closing hfits hd with hunder | hclose
      · exact .inl hunder
      · rcases hgood.owes d w hd with hunder | howes
        · exact .inl hunder
        · exact .inr ⟨howes, code, rfl, hclose⟩
    | program => exact .inl (hgood.clean himage d w hd)
    | gone =>
      rw [himage] at hfits
      rw [hfits d] at hd
      cases hd

/-- `a | b`, up to where the left stage enters `runcmd` -/
def pipeOps : List Op :=
  [.next 0 true 0, .next 1 true 0, .next 1 true 0, .next 1 true 0, .next 2 true 0, .next 2 true 0, .next 2 true 0, .next 2 true 0]

def pipeline : St := run step (init (fun _ => 0) [.pipe (.exec [['a']]) (.exec [['b']])]) pipeOps

theorem pipeline_left : pipeline.procs[2]?.isSome = true := by decide +kernel

theorem shell_descriptors_pipe : Std (pipeline.procs[2]?.get pipeline_left).fds ∧ (Stage.left 2).Has (pipeline.procs[2]?.get pipeline_left).fds :=
  (shell_descriptors (fun _ => 0) [.pipe (.exec [['a']]) (.exec [['b']])] pipeOps 2 (pipeline.procs[2]?.get pipeline_left)
    (Option.some_get pipeline_left).symm).1 (.left 2) (.exec [['a']]) [] (by decide +kernel)

end Xv6.Sh
