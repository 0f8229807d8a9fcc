/-
Who is killed.

`kill` looks at the pid of every entry, also of those that are UNUSED: their pid is 0 when `wait` has cleared it, and the pid of
the process whose making failed when `allocproc` or `fork` gave the entry up. A flag that is set on an entry that is not in use,
or left in it, is found by the next process in it.
-/
import Xv6.Sched.Cpus

namespace Xv6.Ptable

open Xv6.Core

variable {C : Type} {s s' : St C} {c : C} {p q np initproc : Slot} {t : Table} {op : Op C}

/-! ## The condition and the invariant -/

/-- the entry that the CPU's process makes, if memory is needed for it now -/
def St.allocates (s : St C) (c : C) : Option Slot :=
  match s.stack c with
  | none => none
  | some p =>
    match s.ctl p with
    | .run (.kstack np _) | .run (.copyuvm np) => some np
    | _ => none

/-- the steps that leave no flag in an entry that is not in use -/
def Spares (s : St C) : Op C → Prop
  | .call _ (.kill pid) => pid ≠ 0 ∧ pid ∉ s.failed
  | .go c ok => ok = false → ∀ np, s.allocates c = some np → s.asked np = false
  | _ => True

instance Spares.decidable (s : St C) : ∀ op, Decidable (Spares s op)
  | .call _ (.kill pid) => inferInstanceAs (Decidable (pid ≠ 0 ∧ pid ∉ s.failed))
  | .go c ok => inferInstanceAs (Decidable (ok = false → ∀ np, s.allocates c = some np → s.asked np = false))
  | .call _ .yield | .call _ (.sleep _) | .call _ .exit | .call _ .wait | .call _ (.fork _) | .call _ (.clone _)
  | .trap _ | .wakeup _ => .isTrue trivial

/-- an entry that is not in use has no flag and an old pid; a flag in an entry that is in use has been asked for -/
structure Flags (s : St C) : Prop where
  unused : ∀ p, (s.table p).state = .unused → (s.table p).killed = false ∧ ((s.table p).pid = 0 ∨ (s.table p).pid ∈ s.failed)
  asked : ∀ p, (s.table p).state ≠ .unused → (s.table p).killed = true → s.asked p = true

/-! ## Steps that leave the flags alone -/

/-- an entry is in use or not as before, and keeps its flag and its pid -/
def Plain (x y : Proc) : Prop := (y.state = .unused ↔ x.state = .unused) ∧ y.killed = x.killed ∧ y.pid = x.pid

theorem Plain.refl (x : Proc) : Plain x x := ⟨Iff.rfl, rfl, rfl⟩

theorem Flags.plain (h : Flags s) (htable : ∀ p, Plain (s.table p) (s'.table p)) (hasked : s'.asked = s.asked)
    (hfailed : s'.failed = s.failed) : Flags s' := by
  refine ⟨fun p hp => ?_, fun p hp hk => ?_⟩
  · rw [(htable p).2.1, (htable p).2.2, hfailed]
    exact h.unused p ((htable p).1.1 hp)
  · rw [hasked]
    exact h.asked p (fun hst => hp ((htable p).1.2 hst)) ((htable p).2.1.symm.trans hk)

theorem plain_update {x : Proc} (hx : Plain (t p) x) (q : Slot) : Plain (t q) (Function.update t p x q) := by
  by_cases hq : q = p
  · rw [hq, update_self]
    exact hx
  · rw [update_of_ne hq]
    exact Plain.refl (t q)

theorem Table.Awake.plain {t' : Table} (h : Awake t t') (p : Slot) : Plain (t p) (t' p) := by
  rcases h p with heq | ⟨hsl, heq⟩
  · rw [heq]
    exact Plain.refl (t p)
  · rw [heq]
    exact ⟨iff_of_false nofun (by rw [hsl]; decide), rfl, rfl⟩

theorem AtWait.plain (hat : AtWait s c p t) (q : Slot) : Plain (s.table q) (t q) := by
  rcases hat.2 with ⟨-, -, rfl⟩ | ⟨-, -, rfl⟩
  · exact Plain.refl (s.table q)
  · exact plain_update (x := { s.table p with chan := none }) ⟨Iff.rfl, rfl, rfl⟩ q

/-- one entry that is not in use changes -/
theorem Flags.entry (h : Flags s) {x : Proc} (htable : s'.table = Function.update s.table p x)
    (hunused : x.state = .unused → x.killed = false ∧ (x.pid = 0 ∨ x.pid ∈ s'.failed))
    (hasked : x.state ≠ .unused → x.killed = true → s'.asked p = true)
    (hothers : ∀ q, q ≠ p → s.asked q = true → s'.asked q = true) (hfailed : ∀ pid ∈ s.failed, pid ∈ s'.failed) : Flags s' := by
  refine ⟨fun q hq => ?_, fun q hq hk => ?_⟩
  · by_cases hqp : q = p
    · rw [hqp, htable, update_self] at hq ⊢
      exact hunused hq
    · rw [htable, update_of_ne hqp] at hq ⊢
      exact ⟨(h.unused q hq).1, (h.unused q hq).2.imp_right (hfailed _)⟩
  · by_cases hqp : q = p
    · rw [hqp, htable, update_self] at hq hk
      rw [hqp]
      exact hasked hq hk
    · rw [htable, update_of_ne hqp] at hq hk
      exact hothers q hqp (h.asked q hq hk)

/-! ## Every step -/

theorem St.allocates_eq (hst : s.stack c = some p) {code : Code} (hctl : s.ctl p = .run code)
    (hcode : code = .copyuvm np ∨ ∃ thread, code = .kstack np thread) : s.allocates c = some np := by
  unfold St.allocates
  rcases hcode with rfl | ⟨thread, rfl⟩ <;> simp only [hst, hctl]

/-- the process of an entry with that pid is the one that is asked for -/
theorem Flags.kill (h : Flags s) {pid : ℤ} (hpid : pid ≠ 0 ∧ pid ∉ s.failed) :
    Flags { s with table := (s.table.kill pid).1, asked := fun q => s.asked q || (s.table q).pid == pid } := by
  rcases Table.kill_spec s.table pid with ⟨-, heq, -⟩ | ⟨p, -, hp, heq⟩
  · refine ⟨fun q hq => ?_, fun q hq hk => ?_⟩
    · rw [heq] at hq ⊢
      exact h.unused q hq
    · rw [heq] at hq hk
      simp only [h.asked q hq hk, Bool.true_or]
  · have hused : (s.table p).state ≠ .unused := fun hun => by
      rcases (h.unused p hun).2 with hzero | hmem
      · exact hpid.1 (hp.symm.trans hzero)
      · exact hpid.2 (hp ▸ hmem)
    refine h.entry heq (fun hun => ?_) (fun _ _ => ?_) (fun q _ hq => ?_) (fun _ => id)
    · dsimp only at hun
      split at hun
      · cases hun
      · exact absurd hun hused
    · simp only [hp, BEq.rfl, Bool.or_true]
    · simp only [hq, Bool.true_or]

/-- **Every step that spares the entries that are not in use keeps the flags.** -/
theorem Does.flags [DecidableEq C] (h : Inv s) (hf : Flags s) (hd : Does initproc s op s') (hsp : Spares s op) : Flags s' := by
  cases hd with
  | kill c p pid hst hctl hlock => exact hf.kill hsp
  | fail c p np code hst hctl hcode =>
    have hmk : (s.ctl p).code.making = some np := by
      rw [hctl]
      rcases hcode with rfl | ⟨thread, rfl⟩ <;> rfl
    have hemb := h.making p np hmk
    have hnot : s.asked np = false := hsp rfl np (St.allocates_eq hst hctl hcode)
    refine hf.entry rfl (fun _ => ⟨?_, .inr List.mem_cons_self⟩) (fun hst => absurd rfl hst) (fun _ _ => id)
      (fun _ => List.mem_cons_of_mem _)
    -- a flag would have been asked for
    cases hk : (s.table np).killed with
    | false => rfl
    | true =>
      have hasked := hf.asked np (by rw [hemb]; decide) hk
      rw [hnot] at hasked
      cases hasked
  | found c p np thread hst hctl hlock hstate =>
    refine hf.entry rfl nofun (fun _ hk => ?_) (fun q hq hasked => ?_) (fun _ => id)
    · have hclear := (hf.unused np hstate).1
      exact absurd (hk.symm.trans hclear) (by decide)
    · exact (update_of_ne hq ..).trans hasked
  | reap c p q t hat hz =>
    have hf' : Flags { s with table := t } := hf.plain hat.plain rfl rfl
    exact hf'.entry rfl (fun _ => ⟨rfl, .inl rfl⟩) (fun hst => absurd rfl hst) (fun _ _ => id) (fun _ => id)
  | trap c p hst hctl =>
    have hexec := (h.executes hst).2.2.live.1
    refine hf.entry rfl (fun hun => absurd hun hexec) (fun _ _ => update_self ..) (fun q hq hasked => ?_) (fun _ => id)
    exact (update_of_ne hq ..).trans hasked
  | exit c p hst hctl hlock hne =>
    have hexec := (h.executes hst).2.2.live.1
    refine hf.plain (fun q => ?_) rfl rfl
    change Plain (s.table q) (s.table.exit initproc p q)
    by_cases hq : q = p
    · rw [hq, Table.exit_self]
      exact ⟨iff_of_false nofun hexec, rfl, rfl⟩
    · rcases Table.exit_other initproc p s.table q hq with heq | ⟨hsl, heq⟩
      · rw [heq]
        exact ⟨Iff.rfl, rfl, rfl⟩
      · rw [heq]
        exact ⟨iff_of_false nofun (by rw [hsl]; decide), rfl, rfl⟩
  | nothing => exact hf
  | acquire c hst hsch hlock => exact hf.plain (fun q => Plain.refl _) rfl rfl
  | next c n hst hsch => exact hf.plain (fun q => Plain.refl _) rfl rfl
  | release c n hst hsch => exact hf.plain (fun q => Plain.refl _) rfl rfl
  | returned c p hst hsch => exact hf.plain (fun q => Plain.refl _) rfl rfl
  | swtch c p why code hst hsch hctl => exact hf.plain (fun q => Plain.refl _) rfl rfl
  | leave c p why code hst hctl => exact hf.plain (fun q => Plain.refl _) rfl rfl
  | resume c p why code hst hctl => exact hf.plain (fun q => Plain.refl _) rfl rfl
  | copied c p np hst hctl => exact hf.plain (fun q => Plain.refl _) rfl rfl
  | awoken c p code hst hctl => exact hf.plain (plain_update ⟨Iff.rfl, rfl, rfl⟩) rfl rfl
  | kstack c p np thread hst hctl => exact hf.plain (plain_update ⟨Iff.rfl, rfl, rfl⟩) rfl rfl
  | parent c p np hst hctl => exact hf.plain (plain_update ⟨Iff.rfl, rfl, rfl⟩) rfl rfl
  | pick c p hst hsch hstate =>
    exact hf.plain (plain_update ⟨iff_of_false nofun (by rw [hstate]; decide), rfl, rfl⟩) rfl rfl
  | ready c p np hst hctl hlock =>
    have hemb := h.making p np (by rw [hctl]; rfl)
    exact hf.plain (plain_update ⟨iff_of_false nofun (by rw [hemb]; decide), rfl, rfl⟩) rfl rfl
  | noChild c p t hat => exact hf.plain hat.plain rfl rfl
  | await c p t hat hz =>
    have hf' : Flags { s with table := t } := hf.plain hat.plain rfl rfl
    obtain ⟨-, -, hrun, -, hstate⟩ := h.atWait hat
    have hused : (t p).state ≠ .unused := by
      rw [hstate, hrun]
      decide
    exact hf'.plain (plain_update ⟨iff_of_false nofun hused, rfl, rfl⟩) rfl rfl
  | yield c p code hst hctl hlock =>
    exact hf.plain (plain_update ⟨iff_of_false nofun (h.executes hst).2.2.live.1, rfl, rfl⟩) rfl rfl
  | sleep c p a hst hctl hlock =>
    exact hf.plain (plain_update ⟨iff_of_false nofun (h.executes hst).2.2.live.1, rfl, rfl⟩) rfl rfl
  | wakeup chan hlock => exact hf.plain (Table.awake_wakeup1 s.table chan).plain rfl rfl

theorem start_flags (C : Type) (initproc : Slot) : Flags (start C initproc) := by
  have hkilled : ∀ p, ((start C initproc).table p).killed = false := fun p => by
    unfold start
    dsimp only
    split <;> rfl
  refine ⟨fun p hp => ⟨hkilled p, .inl ?_⟩, fun p _ hk => ?_⟩
  · unfold start at hp ⊢
    dsimp only at hp ⊢
    split at hp
    · cases hp
    · rename_i hne
      rw [if_neg hne]
  · rw [hkilled] at hk
    cases hk

theorem run_flags [DecidableEq C] {ops : List (Op C)} (h : Guarded (step initproc) Spares (start C initproc) ops) :
    Flags (run (step initproc) (start C initproc) ops) := by
  have hboth := guarded_inv (I := fun s => Inv s ∧ Flags s)
    (fun s op hsp hi => ⟨step_inv hi.1 op, (step_does initproc s op).flags hi.1 hi.2 hsp⟩) (start C initproc)
    ⟨start_inv C initproc, start_flags C initproc⟩ ops h
  exact hboth.2

/-- **Kill accounting.** In runs whose steps all spare the entries that are not in use: a process that is killed has been asked
for since it was made, and a call of `kill` that spares them succeeds only if somebody has the pid. -/
theorem kill_accounting {C : Type} [DecidableEq C] (initproc : Slot) (ops : List (Op C))
    (h : Guarded (step initproc) Spares (start C initproc) ops) :
    (∀ p, ((run (step initproc) (start C initproc) ops).table p).state ≠ .unused →
      ((run (step initproc) (start C initproc) ops).table p).killed = true →
      (run (step initproc) (start C initproc) ops).asked p = true) ∧
    ∀ c pid, Spares (run (step initproc) (start C initproc) ops) (.call c (.kill pid)) →
      ((run (step initproc) (start C initproc) ops).table.kill pid).2 = 0 →
      ∃ p, ((run (step initproc) (start C initproc) ops).table p).state ≠ .unused ∧
        ((run (step initproc) (start C initproc) ops).table p).pid = pid := by
  have hflags := run_flags h
  refine ⟨hflags.asked, fun c pid hsp hzero => ?_⟩
  rcases Table.kill_spec (run (step initproc) (start C initproc) ops).table pid with ⟨hfail, -, -⟩ | ⟨p, -, hp, -⟩
  · rw [hfail] at hzero
    cases hzero
  · refine ⟨p, fun hun => ?_, hp⟩
    rcases (hflags.unused p hun).2 with heq | hmem
    · exact hsp.1 (hp.symm.trans heq)
    · exact hsp.2 (hp ▸ hmem)

/-! ## Two runs -/

/-- the CPU runs init, which forks -/
def killForkOps (pid : ℤ) : List (Op Unit) :=
  [.go () true, .go () true, .go () true, .go () true, .call () (.kill pid),
    .call () (.fork (some 1)), .go () true, .go () true, .go () true, .go () true]

/-- init asks for its own pid: it is killed, its child is not -/
theorem kill_accounting_one : (run (step 0) (start Unit 0) (killForkOps 1)).asked 0 = true :=
  (kill_accounting 0 (killForkOps 1) (by decide +kernel)).1 0 (by decide +kernel) (by decide +kernel)

/-- **`kill(0)`.** It returns 0, although no process has pid 0; the child that init makes next is killed, and nobody has called
`kill` with its pid. -/
theorem kill_zero :
    ((run (step 0) (start Unit 0) ((killForkOps 0).take 4)).table.kill 0).2 = 0 ∧
    (∀ p, ((run (step 0) (start Unit 0) ((killForkOps 0).take 4)).table p).state = .unused ∨
      ((run (step 0) (start Unit 0) ((killForkOps 0).take 4)).table p).pid ≠ 0) ∧
    ((run (step 0) (start Unit 0) (killForkOps 0)).table 1).state = .runnable ∧
    ((run (step 0) (start Unit 0) (killForkOps 0)).table 1).killed = true ∧
    (run (step 0) (start Unit 0) (killForkOps 0)).asked 1 = false := by
  decide +kernel

end Xv6.Ptable
