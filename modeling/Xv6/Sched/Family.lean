/-
Parents and children.
-/
import Xv6.Sched.Cpus

namespace Xv6.Ptable

open Xv6.Core
open Xv6.Kernel (NPROC)

/-! ## The invariants -/

/-- has been made and has not exited -/
def Proc.Alive (p : Proc) : Prop := p.state = .runnable ∨ p.state = .running ∨ p.state = .sleeping

/-- has no exited child -/
def Table.Childless (t : Table) (p : Slot) : Prop := ∀ q, (t q).parent = some p → (t q).state ≠ .zombie

structure Family {C : Type} (initproc : Slot) (s : St C) : Prop where
  init : (s.table initproc).Alive ∧ (s.table initproc).parent = none
  parents : ∀ p, p ≠ initproc → (s.table p).state ≠ .unused → (s.table p).state ≠ .embryo →
    ∃ q, (s.table p).parent = some q ∧ (s.table q).Alive
  self : ∀ p, (s.table p).parent ≠ some p
  ready : ∀ q np, (s.ctl q).code = .ready np → (s.table np).parent = some q
  sleeps : ∀ p, (s.table p).state = .sleeping → (s.table p).chan = some (.proc p) → s.table.Childless p

structure Tallied {C : Type} (s : St C) : Prop where
  exited : ∀ p, (s.table p).state = .zombie → (p, s.gen p) ∈ s.exited
  reaped : ∀ r ∈ s.reaped, r.parent = some r.by_ ∧ (r.child, r.gen) ∈ s.exited
  past : ∀ r ∈ s.reaped, r.gen < s.gen r.child ∨ (r.gen = s.gen r.child ∧ (s.table r.child).state = .unused)
  once : (s.reaped.map fun r => (r.child, r.gen)).Nodup

variable {C : Type} {s s' : St C} {c : C} {p q np initproc : Slot} {t t' : Table} {code : Code}

/-! ## Steps that leave the family alone -/

/-- the entry keeps its parent, and is as it was or is alive as it was and not asleep beside an exited child -/
def Stays (t t' : Table) (p : Slot) : Prop :=
  (t' p).parent = (t p).parent ∧
    (((t' p).state = (t p).state ∧ ((t' p).chan = (t p).chan ∨ (t' p).chan = none)) ∨
      ((t p).Alive ∧ (t' p).Alive ∧ ((t' p).state = .sleeping → (t' p).chan = some (.proc p) → t.Childless p)))

theorem Stays.alive (h : Stays t t' p) : (t' p).Alive ↔ (t p).Alive := by
  rcases h.2 with ⟨hst, -⟩ | ⟨hold, hnew, -⟩
  · unfold Proc.Alive
    rw [hst]
  · exact iff_of_true hnew hold

variable {x : Proc}

theorem Proc.Alive.ne (h : x.Alive) : x.state ≠ .unused ∧ x.state ≠ .embryo ∧ x.state ≠ .zombie := by
  rcases h with h | h | h
  all_goals
    rw [h]
    decide

theorem Stays.state (h : Stays t t' p) {st : ProcState} (hst : st = .unused ∨ st = .embryo ∨ st = .zombie) :
    (t' p).state = st ↔ (t p).state = st := by
  rcases h.2 with ⟨heq, -⟩ | ⟨hold, hnew, -⟩
  · rw [heq]
  · rcases hst with rfl | rfl | rfl
    · exact iff_of_false hnew.ne.1 hold.ne.1
    · exact iff_of_false hnew.ne.2.1 hold.ne.2.1
    · exact iff_of_false hnew.ne.2.2 hold.ne.2.2

theorem Family.stays (h : Family initproc s) (hstay : ∀ p, Stays s.table s'.table p)
    (hready : ∀ q np, (s'.ctl q).code = .ready np → (s.ctl q).code = .ready np) : Family initproc s' := by
  have hzombie : ∀ p, s.table.Childless p → s'.table.Childless p := fun p hp q hq hz =>
    hp q ((hstay q).1.symm.trans hq) (((hstay q).state (.inr (.inr rfl))).1 hz)
  refine ⟨⟨(hstay initproc).alive.2 h.init.1, (hstay initproc).1.trans h.init.2⟩, fun p hp hun hemb => ?_, fun p => ?_,
    fun q np hq => (hstay np).1.trans (h.ready q np (hready q np hq)), fun p hsl hch => ?_⟩
  · obtain ⟨q, hq, halive⟩ := h.parents p hp (fun hst => hun (((hstay p).state (.inl rfl)).2 hst))
      (fun hst => hemb (((hstay p).state (.inr (.inl rfl))).2 hst))
    exact ⟨q, (hstay p).1.trans hq, (hstay q).alive.2 halive⟩
  · rw [(hstay p).1]
    exact h.self p
  · refine hzombie p ?_
    rcases (hstay p).2 with ⟨hst, hchan⟩ | ⟨-, -, hnew⟩
    · rcases hchan with heq | hnone
      · exact h.sleeps p (hst.symm.trans hsl) (heq.symm.trans hch)
      · rw [hnone] at hch
        cases hch
    · exact hnew hsl hch

theorem Tallied.stays (h : Tallied s) (hstay : ∀ p, Stays s.table s'.table p) (hgen : s'.gen = s.gen)
    (hexited : s'.exited = s.exited) (hreaped : s'.reaped = s.reaped) : Tallied s' := by
  refine ⟨fun p hp => ?_, ?_, fun r hr => ?_, ?_⟩
  · rw [hgen, hexited]
    exact h.exited p (((hstay p).state (.inr (.inr rfl))).1 hp)
  · rw [hexited, hreaped]
    exact h.reaped
  · rw [hreaped] at hr
    rw [hgen]
    rcases h.past r hr with hlt | ⟨heq, hun⟩
    · exact .inl hlt
    · exact .inr ⟨heq, ((hstay r.child).state (.inl rfl)).2 hun⟩
  · rw [hreaped]
    exact h.once

/-- the table stays, apart from fields that are not looked at here -/
theorem Stays.of_eq (hpar : (t' p).parent = (t p).parent) (hst : (t' p).state = (t p).state)
    (hchan : (t' p).chan = (t p).chan ∨ (t' p).chan = none) : Stays t t' p := ⟨hpar, .inl ⟨hst, hchan⟩⟩

theorem Stays.refl (t : Table) (p : Slot) : Stays t t p := .of_eq rfl rfl (.inl rfl)

theorem Table.Awake.stays (h : Awake t t') (p : Slot) : Stays t t' p := by
  rcases h p with heq | ⟨hsl, heq⟩
  · rw [Stays, heq]
    exact Stays.refl t p
  · refine ⟨by rw [heq], .inr ⟨.inr (.inr hsl), ?_, fun hsl' => ?_⟩⟩
    · rw [heq]
      exact .inl rfl
    · rw [heq] at hsl'
      cases hsl'

/-! ## Steps that change one entry -/

/-- an entry of somebody who was not alive is given up, taken, or becomes RUNNABLE with a parent who is alive -/
theorem Family.entry (h : Family initproc s) (htable : s'.table = update s.table np x)
    (hnot : ¬ (s.table np).Alive) (hself : x.parent ≠ some np) (hstate : x.state = .unused ∨ x.state = .embryo ∨
      (x.state = .runnable ∧ ∃ q, x.parent = some q ∧ (s.table q).Alive)) (hready : ∀ q y, (s'.ctl q).code = .ready y →
      (y ≠ np ∧ (s.ctl q).code = .ready y) ∨ (y = np ∧ x.parent = some q)) : Family initproc s' := by
  have hne : ∀ p, p ≠ np → s'.table p = s.table p := fun p hp => by rw [htable, update_of_ne hp]
  have hnew : s'.table np = x := by rw [htable, update_self]
  have halive : ∀ q, (s.table q).Alive → q ≠ np ∧ (s'.table q).Alive := fun q hq => by
    have hqnp : q ≠ np := fun heq => hnot (heq ▸ hq)
    refine ⟨hqnp, ?_⟩
    rw [hne q hqnp]
    exact hq
  have hinit := (halive initproc h.init.1).1
  refine ⟨⟨(halive initproc h.init.1).2, ?_⟩, fun p hp hun hemb => ?_, fun p => ?_, fun q y hy => ?_, fun p hsl hch => ?_⟩
  · rw [hne initproc hinit]
    exact h.init.2
  · by_cases hpnp : p = np
    · rw [hpnp, hnew] at hun hemb ⊢
      rcases hstate with hst | hst | ⟨-, q, hq, hal⟩
      · exact absurd hst hun
      · exact absurd hst hemb
      · exact ⟨q, hq, (halive q hal).2⟩
    · rw [hne p hpnp] at hun hemb ⊢
      obtain ⟨q, hq, hal⟩ := h.parents p hp hun hemb
      exact ⟨q, hq, (halive q hal).2⟩
  · by_cases hpnp : p = np
    · rw [hpnp, hnew]
      exact hself
    · rw [hne p hpnp]
      exact h.self p
  · rcases hready q y hy with ⟨hynp, hold⟩ | ⟨rfl, hpar⟩
    · rw [hne y hynp]
      exact h.ready q y hold
    · rw [hnew]
      exact hpar
  · have hpnp : p ≠ np := fun heq => by
      rw [heq, hnew] at hsl
      rcases hstate with hst | hst | ⟨hst, -⟩
      all_goals
        rw [hst] at hsl
        cases hsl
    rw [hne p hpnp] at hsl hch
    intro q hq hz
    have hqnp : q ≠ np := fun heq => by
      rw [heq, hnew] at hz
      rcases hstate with hst | hst | ⟨hst, -⟩
      all_goals
        rw [hst] at hz
        cases hz
    rw [hne q hqnp] at hq hz
    exact h.sleeps p hsl hch q hq hz

/-- an entry that is in use changes, and its process has not exited -/
theorem Tallied.entry (h : Tallied s) (htable : s'.table = update s.table np x)
    (hold : (s.table np).state ≠ .unused) (hx : x.state ≠ .zombie) (hgen : s'.gen = s.gen) (hexited : s'.exited = s.exited)
    (hreaped : s'.reaped = s.reaped) : Tallied s' := by
  refine ⟨fun p hp => ?_, ?_, fun r hr => ?_, ?_⟩
  · rw [hgen, hexited]
    by_cases hpnp : p = np
    · rw [hpnp, htable, update_self] at hp
      exact absurd hp hx
    · rw [htable, update_of_ne hpnp] at hp
      exact h.exited p hp
  · rw [hexited, hreaped]
    exact h.reaped
  · rw [hreaped] at hr
    rw [hgen]
    rcases h.past r hr with hlt | ⟨heq, hun⟩
    · exact .inl hlt
    · have hne : r.child ≠ np := fun hc => hold (hc ▸ hun)
      rw [htable, update_of_ne hne]
      exact .inr ⟨heq, hun⟩
  · rw [hreaped]
    exact h.once

/-- `allocproc` takes an entry: a new count begins -/
theorem Tallied.found (h : Tallied s) (htable : s'.table = update s.table np x)
    (hx : x.state = .embryo) (hgen : s'.gen = update s.gen np (s.gen np + 1))
    (hexited : s'.exited = s.exited) (hreaped : s'.reaped = s.reaped) : Tallied s' := by
  refine ⟨fun p hp => ?_, ?_, fun r hr => ?_, ?_⟩
  · by_cases hpnp : p = np
    · rw [hpnp, htable, update_self, hx] at hp
      cases hp
    · rw [htable, update_of_ne hpnp] at hp
      rw [hgen, hexited, update_of_ne hpnp]
      exact h.exited p hp
  · rw [hexited, hreaped]
    exact h.reaped
  · rw [hreaped] at hr
    by_cases hc : r.child = np
    · refine .inl ?_
      rw [hgen, hc, update_self]
      rcases h.past r hr with hlt | ⟨heq, -⟩
      · rw [hc] at hlt
        omega
      · rw [hc] at heq
        omega
    · rw [hgen, htable, update_of_ne hc, update_of_ne hc]
      exact h.past r hr
  · rw [hreaped]
    exact h.once

/-- `wait` returns a zombie: it was not returned before -/
theorem Tallied.reap (h : Tallied s) (htable : s'.table = update s.table q x)
    (hz : (s.table q).state = .zombie) (hx : x.state = .unused) (hpar : (s.table q).parent = some p) (hgen : s'.gen = s.gen)
    (hexited : s'.exited = s.exited) (hreaped : s'.reaped = ⟨p, q, s.gen q, (s.table q).parent⟩ :: s.reaped) : Tallied s' := by
  refine ⟨fun y hy => ?_, fun r hr => ?_, fun r hr => ?_, ?_⟩
  · rw [hgen, hexited]
    by_cases hyq : y = q
    · rw [hyq, htable, update_self, hx] at hy
      cases hy
    · rw [htable, update_of_ne hyq] at hy
      exact h.exited y hy
  · rw [hreaped] at hr
    rw [hexited]
    rcases List.mem_cons.1 hr with rfl | hr
    · exact ⟨hpar, h.exited q hz⟩
    · exact h.reaped r hr
  · rw [hreaped] at hr
    rw [hgen]
    rcases List.mem_cons.1 hr with rfl | hr
    · refine .inr ⟨rfl, ?_⟩
      rw [htable, update_self]
      exact hx
    · rcases h.past r hr with hlt | ⟨heq, hun⟩
      · exact .inl hlt
      · refine .inr ⟨heq, ?_⟩
        by_cases hc : r.child = q
        · rw [htable, hc, update_self]
          exact hx
        · rw [htable, update_of_ne hc]
          exact hun
  · rw [hreaped, List.map_cons, List.nodup_cons]
    refine ⟨fun hmem => ?_, h.once⟩
    obtain ⟨r, hr, heq⟩ := List.mem_map.1 hmem
    have hchild : r.child = q := congrArg Prod.fst heq
    have hcount : r.gen = s.gen q := congrArg Prod.snd heq
    rcases h.past r hr with hlt | ⟨-, hun⟩
    · rw [hchild, hcount] at hlt
      exact absurd hlt (lt_irrefl _)
    · rw [hchild, hz] at hun
      cases hun

/-! ## Exit -/

/-- the children go to init; the parent, and init if it gets an exited child, are woken -/
theorem Family.exit (h : Family initproc s) (hp : p ≠ initproc) (hlive : (s.table p).Alive) (htable : s'.table = s.table.exit initproc p)
    (hready : ∀ q np, (s'.ctl q).code = .ready np → q ≠ p ∧ (s.ctl q).code = .ready np) : Family initproc s' := by
  have hself : (s'.table p).state = .zombie ∧ (s'.table p).parent = (s.table p).parent := by
    rw [htable, Table.exit_self, if_neg (h.self p)]
    exact ⟨rfl, rfl⟩
  have hother := Table.exit_other initproc p s.table
  rw [← htable] at hother
  have hwakes := Table.exit_wakes initproc p s.table
  rw [← htable] at hwakes
  -- what is seen of the other entries
  have hparent : ∀ q, q ≠ p → (s'.table q).parent =
      if (s.table q).parent = some p then some initproc else (s.table q).parent := fun q hq => by
    rcases hother q hq with heq | ⟨-, heq⟩ <;> rw [heq]
  have hstate : ∀ q, q ≠ p → (s'.table q).state = (s.table q).state ∨
      ((s.table q).state = .sleeping ∧ (s'.table q).state = .runnable) := fun q hq => by
    rcases hother q hq with heq | ⟨hsl, heq⟩
    · rw [heq]
      exact .inl rfl
    · rw [heq]
      exact .inr ⟨hsl, rfl⟩
  have halive : ∀ q, q ≠ p → (s.table q).Alive → (s'.table q).Alive := fun q hq hal => by
    rcases hstate q hq with heq | ⟨-, hnew⟩
    · unfold Proc.Alive
      rw [heq]
      exact hal
    · exact .inl hnew
  have hback : ∀ q st, q ≠ p → st ≠ .runnable → (s'.table q).state = st → (s.table q).state = st := fun q st hq hne hst => by
    rcases hstate q hq with heq | ⟨-, hnew⟩
    · exact heq.symm.trans hst
    · exact absurd (hst.symm.trans hnew) hne
  have hinit := halive initproc hp.symm h.init.1
  refine ⟨⟨hinit, ?_⟩, fun y hy hun hemb => ?_, fun y => ?_, fun q np hq => ?_, fun y hsl hch q hq hz => ?_⟩
  · rw [hparent initproc hp.symm, h.init.2]
    rfl
  · by_cases hyp : y = p
    · -- the parent of the exiting process is somebody else
      rw [hyp, hself.2]
      obtain ⟨q, hq, hal⟩ := h.parents p hp hlive.ne.1 hlive.ne.2.1
      exact ⟨q, hq, halive q (fun heq => h.self p (heq ▸ hq)) hal⟩
    · have hne : ∀ st, st ≠ .runnable → (s'.table y).state ≠ st → st ≠ .sleeping → (s.table y).state ≠ st := by
        intro st _ hnot hsl heq
        rcases hstate y hyp with hsame | ⟨hold, -⟩
        · exact hnot (hsame.trans heq)
        · exact hsl (heq.symm.trans hold)
      obtain ⟨q, hq, hal⟩ := h.parents y hy (hne _ (by decide) hun (by decide)) (hne _ (by decide) hemb (by decide))
      rw [hparent y hyp]
      by_cases hqp : q = p
      · rw [hq, hqp, if_pos rfl]
        exact ⟨initproc, rfl, hinit⟩
      · rw [if_neg fun heq => hqp (Option.some.inj (hq.symm.trans heq))]
        exact ⟨q, hq, halive q hqp hal⟩
  · by_cases hyp : y = p
    · rw [hyp, hself.2]
      exact h.self p
    · rw [hparent y hyp]
      split
      · rename_i hchild
        intro heq
        rw [← Option.some.inj heq, h.init.2] at hchild
        cases hchild
      · exact h.self y
  · obtain ⟨hqp, hold⟩ := hready q np hq
    have hnp := h.ready q np hold
    by_cases heq : np = p
    · rw [heq, hself.2, ← heq]
      exact hnp
    · rw [hparent np heq, if_neg fun hpar => hqp (Option.some.inj (hnp.symm.trans hpar))]
      exact hnp
  · have hyp : y ≠ p := fun heq => by
      rw [heq, hself.1] at hsl
      cases hsl
    by_cases hqp : q = p
    · rw [hqp, hself.2] at hq
      exact hwakes y hyp (.inl hq) ⟨hsl, hch⟩
    · have hzold := hback q _ hqp (by decide) hz
      rw [hparent q hqp] at hq
      split at hq
      · rename_i hchild
        exact hwakes y hyp (.inr ⟨(Option.some.inj hq).symm, q, hqp, hchild, hzold⟩) ⟨hsl, hch⟩
      · have hchan : (s.table y).chan = some (.proc y) := by
          rcases hother y hyp with heq | ⟨-, heq⟩
          all_goals
            rw [heq] at hch
            exact hch
        exact h.sleeps y (hback y _ hyp (by decide) hsl) hchan q hq hzold

theorem Tallied.exit (h : Tallied s) (hlive : (s.table p).Alive)
    (htable : s'.table = s.table.exit initproc p) (hgen : s'.gen = s.gen) (hexited : s'.exited = (p, s.gen p) :: s.exited)
    (hreaped : s'.reaped = s.reaped) : Tallied s' := by
  have hother := Table.exit_other initproc p s.table
  rw [← htable] at hother
  refine ⟨fun q hq => ?_, fun r hr => ?_, fun r hr => ?_, ?_⟩
  · rw [hgen, hexited]
    by_cases hqp : q = p
    · rw [hqp]
      exact List.mem_cons_self
    · refine List.mem_cons_of_mem _ (h.exited q ?_)
      rcases hother q hqp with heq | ⟨-, heq⟩
      · rw [heq] at hq
        exact hq
      · rw [heq] at hq
        cases hq
  · rw [hreaped] at hr
    rw [hexited]
    exact ⟨(h.reaped r hr).1, List.mem_cons_of_mem _ (h.reaped r hr).2⟩
  · rw [hreaped] at hr
    rw [hgen]
    rcases h.past r hr with hlt | ⟨heq, hun⟩
    · exact .inl hlt
    · have hrp : r.child ≠ p := fun hc => hlive.ne.1 (hc ▸ hun)
      refine .inr ⟨heq, ?_⟩
      rcases hother r.child hrp with hsame | ⟨hsl, -⟩
      · rw [hsame]
        exact hun
      · rw [hun] at hsl
        cases hsl
  · rw [hreaped]
    exact h.once

/-! ## Every step -/

structure Kin {C : Type} (initproc : Slot) (s : St C) : Prop where
  family : Family initproc s
  tallied : Tallied s

theorem Kin.stays (h : Kin initproc s) (hstay : ∀ p, Stays s.table s'.table p)
    (hready : ∀ q np, (s'.ctl q).code = .ready np → (s.ctl q).code = .ready np) (hgen : s'.gen = s.gen)
    (hexited : s'.exited = s.exited) (hreaped : s'.reaped = s.reaped) : Kin initproc s' :=
  ⟨h.family.stays hstay hready, h.tallied.stays hstay hgen hexited hreaped⟩

/-- one entry is alive as it was, and the others stay -/
theorem stays_update (hpar : x.parent = (t p).parent)
    (hx : (x.state = (t p).state ∧ (x.chan = (t p).chan ∨ x.chan = none)) ∨
      ((t p).Alive ∧ x.Alive ∧ (x.state = .sleeping → x.chan = some (.proc p) → t.Childless p))) (q : Slot) :
    Stays t (update t p x) q := by
  by_cases hq : q = p
  · subst hq
    unfold Stays
    rw [update_self]
    exact ⟨hpar, hx⟩
  · unfold Stays
    rw [update_of_ne hq]
    exact Stays.refl t q

/-- only process `p` moves, and it is not about to make another one RUNNABLE -/
theorem ready_update {k : Ctl} (hq : (update s.ctl p k q).code = .ready np) (hk : k.code ≠ .ready np) :
    q ≠ p ∧ (s.ctl q).code = .ready np := by
  by_cases hqp : q = p
  · rw [hqp, update_self] at hq
    exact absurd hq hk
  · rw [update_of_ne hqp] at hq
    exact ⟨hqp, hq⟩

/-- only process `p` moves, in the same code -/
theorem ready_same {k : Ctl} (hk : k.code = (s.ctl p).code) (hq : (update s.ctl p k q).code = .ready np) : (s.ctl q).code = .ready np := by
  by_cases hqp : q = p
  · rw [hqp, update_self] at hq
    rw [hqp, ← hk]
    exact hq
  · rw [update_of_ne hqp] at hq
    exact hq

theorem AtWait.stays (hat : AtWait s c p t) (q : Slot) : Stays s.table t q := by
  rcases hat.2 with ⟨-, -, rfl⟩ | ⟨-, -, rfl⟩
  · exact Stays.refl s.table q
  · exact stays_update (x := { s.table p with chan := none }) rfl (.inl ⟨rfl, .inr rfl⟩) q

theorem AtWait.alive (h : Inv s) (hat : AtWait s c p t) : (s.table p).Alive := .inr (.inl (h.atWait hat).2.2.1)

/-- an entry that is being made has one maker -/
theorem Inv.ready_ne (h : Inv s) (hp : (s.ctl p).code.making = some np) (hqp : q ≠ p) {y : Slot}
    (hy : (s.ctl q).code = .ready y) : y ≠ np := fun heq => by
  subst heq
  refine hqp (h.maker q p y ?_ hp)
  rw [hy]
  rfl

theorem not_alive_of_embryo (h : (s.table np).state = .embryo) : ¬ (s.table np).Alive := fun hal => hal.ne.2.1 h

/-- **Every step keeps the families.** -/
theorem Does.kin [DecidableEq C] (h : Inv s) (hk : Kin initproc s) {op : Op C} (hd : Does initproc s op s') : Kin initproc s' := by
  cases hd with
  | nothing => exact hk
  | acquire c hst hsch hlock => exact hk.stays (Stays.refl s.table) (fun _ _ => id) rfl rfl rfl
  | next c n hst hsch => exact hk.stays (Stays.refl s.table) (fun _ _ => id) rfl rfl rfl
  | release c n hst hsch => exact hk.stays (Stays.refl s.table) (fun _ _ => id) rfl rfl rfl
  | returned c p hst hsch => exact hk.stays (Stays.refl s.table) (fun _ _ => id) rfl rfl rfl
  | pick c p hst hsch hstate =>
    exact hk.stays (stays_update rfl (.inr ⟨.inl hstate, .inr (.inl rfl), fun hsl => by cases hsl⟩)) (fun _ _ => id)
      rfl rfl rfl
  | swtch c p why code hst hsch hctl =>
    refine hk.stays (Stays.refl s.table) (fun q np hq => ready_same ?_ hq) rfl rfl rfl
    rw [hctl]
    rfl
  | leave c p why code hst hctl =>
    refine hk.stays (Stays.refl s.table) (fun q np hq => ready_same ?_ hq) rfl rfl rfl
    rw [hctl]
    rfl
  | resume c p why code hst hctl =>
    refine hk.stays (Stays.refl s.table) (fun q np hq => ready_same ?_ hq) rfl rfl rfl
    rw [hctl]
    rfl
  | awoken c p code hst hctl =>
    refine hk.stays (stays_update rfl (.inl ⟨rfl, .inr rfl⟩)) (fun q np hq => ready_same ?_ hq) rfl rfl rfl
    rw [hctl]
    rfl
  | kstack c p np thread hst hctl =>
    have hmk : (s.ctl p).code.making = some np := by rw [hctl]; rfl
    refine hk.stays (stays_update rfl (.inl ⟨rfl, .inl rfl⟩)) (fun q y hq => ?_) rfl rfl rfl
    have hcode : (Ctl.run (if thread then .parent np else .copyuvm np)).code ≠ .ready y := by
      cases thread with
      | true => exact nofun
      | false => exact nofun
    by_cases hqp : q = p
    · rw [hqp] at hq
      simp only [update_self] at hq
      exact absurd hq hcode
    · by_cases hqnp : q = np
      · rw [hqnp] at hq
        simp only [update_of_ne (h.ne_of_making hst hmk), update_self] at hq
        cases hq
      · simp only [update_of_ne hqp, update_of_ne hqnp] at hq
        exact hq
  | fail c p np code hst hctl hcode =>
    have hmk : (s.ctl p).code.making = some np := by
      rw [hctl]
      rcases hcode with rfl | ⟨thread, rfl⟩ <;> rfl
    have hemb := h.making p np hmk
    refine ⟨hk.family.entry rfl (not_alive_of_embryo hemb) (hk.family.self np) (.inl rfl) fun q y hq => .inl ?_,
      hk.tallied.entry rfl (by rw [hemb]; decide) nofun rfl rfl rfl⟩
    obtain ⟨hqp, hold⟩ := ready_update hq nofun
    exact ⟨h.ready_ne hmk hqp hold, hold⟩
  | copied c p np hst hctl =>
    exact hk.stays (Stays.refl s.table) (fun q y hq => (ready_update hq nofun).2) rfl rfl rfl
  | parent c p np hst hctl =>
    have hmk : (s.ctl p).code.making = some np := by rw [hctl]; rfl
    have hemb := h.making p np hmk
    have hnp := h.ne_of_making hst hmk
    refine ⟨hk.family.entry rfl (not_alive_of_embryo hemb) (fun heq => hnp (Option.some.inj heq).symm) (.inr (.inl hemb))
      fun q y hq => ?_, hk.tallied.entry rfl (by rw [hemb]; decide) (by rw [hemb]; decide) rfl rfl rfl⟩
    by_cases hqp : q = p
    · rw [hqp] at hq ⊢
      simp only [update_self] at hq
      cases hq
      exact .inr ⟨rfl, rfl⟩
    · simp only [update_of_ne hqp] at hq
      exact .inl ⟨h.ready_ne hmk hqp hq, hq⟩
  | ready c p np hst hctl hlock =>
    have hmk : (s.ctl p).code.making = some np := by rw [hctl]; rfl
    have hemb := h.making p np hmk
    have hexec := (h.executes hst).2.2
    have hpar := hk.family.ready p np (by rw [hctl]; rfl)
    rw [hctl] at hexec
    refine ⟨hk.family.entry rfl (not_alive_of_embryo hemb) (hk.family.self np)
      (.inr (.inr ⟨rfl, p, hpar, .inr (.inl hexec)⟩)) fun q y hq => .inl ?_,
      hk.tallied.entry rfl (by rw [hemb]; decide) nofun rfl rfl rfl⟩
    obtain ⟨hqp, hold⟩ := ready_update hq nofun
    exact ⟨h.ready_ne hmk hqp hold, hold⟩
  | reap c p q t hat hz =>
    obtain ⟨hpar, hzombie⟩ := Table.zombieChild_some hz
    have hk' : Kin initproc { s with table := t } := hk.stays hat.stays (fun _ _ => id) rfl rfl rfl
    have hstate := (h.atWait hat).2.2.2.2
    refine ⟨hk'.family.entry rfl (fun hal => hal.ne.2.2 hzombie) nofun (.inl rfl) fun y z hy => .inl ?_,
      hk'.tallied.reap rfl hzombie rfl hpar rfl rfl rfl⟩
    have hold := (ready_update hy nofun).2
    have hemb := h.making y z (by rw [hold]; rfl)
    refine ⟨fun heq => ?_, hold⟩
    rw [heq, ← hstate q, hzombie] at hemb
    cases hemb
  | noChild c p t hat => exact hk.stays hat.stays (fun q y hq => (ready_update hq nofun).2) rfl rfl rfl
  | await c p t hat hz =>
    have hk' : Kin initproc { s with table := t } := hk.stays hat.stays (fun _ _ => id) rfl rfl rfl
    have hal : (t p).Alive := (hat.stays p).alive.2 (hat.alive h)
    exact hk'.stays (stays_update rfl (.inr ⟨hal, .inr (.inr rfl), fun _ _ => Table.zombieChild_none hz⟩))
      (fun q y hq => (ready_update hq nofun).2) rfl rfl rfl
  | yield c p code hst hctl hlock =>
    have hexec := (h.executes hst).2.2
    rw [hctl] at hexec
    refine hk.stays (stays_update rfl (.inr ⟨.inr (.inl hexec), .inl rfl, fun hsl => by cases hsl⟩)) (fun q np hq => ready_same ?_ hq)
      rfl rfl rfl
    rw [hctl]
    rfl
  | sleep c p a hst hctl hlock =>
    have hexec := (h.executes hst).2.2
    rw [hctl] at hexec
    exact hk.stays (stays_update rfl (.inr ⟨.inr (.inl hexec), .inr (.inr rfl), fun _ hch => by cases hch⟩))
      (fun q y hq => (ready_update hq nofun).2) rfl rfl rfl
  | kill c p pid hst hctl hlock =>
    refine hk.stays (fun q => ?_) (fun _ _ => id) rfl rfl rfl
    change Stays s.table (s.table.kill pid).1 q
    rcases Table.kill_spec s.table pid with ⟨-, heq, -⟩ | ⟨y, -, -, heq⟩
    · rw [heq]
      exact Stays.refl s.table q
    · rw [heq]
      apply stays_update
      · rfl
      dsimp only
      split
      · rename_i hsl
        exact .inr ⟨.inr (.inr hsl), .inl rfl, fun hsl' => by cases hsl'⟩
      · exact .inl ⟨rfl, .inl rfl⟩
  | exit c p hst hctl hlock hne =>
    have hexec := (h.executes hst).2.2
    rw [hctl] at hexec
    exact ⟨hk.family.exit hne (.inr (.inl hexec)) rfl (fun q y hq => ready_update hq nofun),
      hk.tallied.exit (.inr (.inl hexec)) rfl rfl rfl rfl⟩
  | found c p np thread hst hctl hlock hstate =>
    refine ⟨hk.family.entry rfl (fun hal => hal.ne.1 hstate) (hk.family.self np) (.inr (.inl rfl)) fun q y hq => .inl ?_,
      hk.tallied.found rfl rfl rfl rfl rfl⟩
    have hold := (ready_update hq nofun).2
    have hemb := h.making q y (by rw [hold]; rfl)
    refine ⟨fun heq => ?_, hold⟩
    rw [heq, hstate] at hemb
    cases hemb
  | trap c p hst hctl => exact hk.stays (stays_update rfl (.inl ⟨rfl, .inl rfl⟩)) (fun _ _ => id) rfl rfl rfl
  | wakeup chan hlock => exact hk.stays (Table.awake_wakeup1 s.table chan).stays (fun _ _ => id) rfl rfl rfl

theorem start_kin (C : Type) (initproc : Slot) : Kin initproc (start C initproc) := by
  have hstate : ∀ p, p ≠ initproc → ((start C initproc).table p).state = .unused := fun p hp => by
    unfold start
    dsimp only
    rw [if_neg hp]
  have hparent : ∀ p, ((start C initproc).table p).parent = none := fun p => by
    unfold start
    dsimp only
    split <;> rfl
  have hinit : ((start C initproc).table initproc).state = .runnable := by
    unfold start
    dsimp only
    rw [if_pos rfl]
  have hnot : ∀ p st, st ≠ .runnable → st ≠ .unused → ((start C initproc).table p).state ≠ st := fun p st hrun hun heq => by
    by_cases hp : p = initproc
    · rw [hp, hinit] at heq
      exact hrun heq.symm
    · rw [hstate p hp] at heq
      exact hun heq.symm
  refine ⟨⟨⟨.inl hinit, hparent initproc⟩, fun p hp hun _ => absurd (hstate p hp) hun, fun p => ?_, fun q np hq => ?_,
    fun p hsl => absurd hsl (hnot p _ (by decide) (by decide))⟩,
    ⟨fun p hz => absurd hz (hnot p _ (by decide) (by decide)), ?_, ?_, ?_⟩⟩
  · rw [hparent]
    exact nofun
  · exact nomatch hq
  · exact nofun
  · exact nofun
  · exact List.nodup_nil

theorem run_kin [DecidableEq C] (initproc : Slot) (ops : List (Op C)) : Kin initproc (run (step initproc) (start C initproc) ops) := by
  have hboth : Inv (run (step initproc) (start C initproc) ops) ∧ Kin initproc (run (step initproc) (start C initproc) ops) :=
    run_inv (I := fun s => Inv s ∧ Kin initproc s)
      (fun s op h => ⟨step_inv h.1 op, (step_does initproc s op).kin h.1 h.2⟩) (start C initproc)
      ⟨start_inv C initproc, start_kin C initproc⟩ ops
  exact hboth.2

/-- **Exit and wait lose nothing.** For any number of CPUs and any interleaving, while the lock is free: everybody but init who
is there has a parent who has not exited, and nobody sleeps in `wait` who has an exited child. Over the whole run a process that
has exited is returned by at most one `wait`, and that is its parent's. -/
theorem exit_wait {C : Type} [DecidableEq C] (initproc : Slot) (ops : List (Op C)) :
    ((run (step initproc) (start C initproc) ops).lock = none →
      (∀ p, p ≠ initproc → ((run (step initproc) (start C initproc) ops).table p).state ∈
          [ProcState.runnable, .running, .sleeping, .zombie] →
        ∃ q, ((run (step initproc) (start C initproc) ops).table p).parent = some q ∧
          ((run (step initproc) (start C initproc) ops).table q).state ∈ [ProcState.runnable, .running, .sleeping]) ∧
      ∀ p, ((run (step initproc) (start C initproc) ops).table p).state = .sleeping →
        ((run (step initproc) (start C initproc) ops).table p).chan = some (.proc p) →
        ∀ q, ((run (step initproc) (start C initproc) ops).table q).parent = some p →
          ((run (step initproc) (start C initproc) ops).table q).state ≠ .zombie) ∧
    ((run (step initproc) (start C initproc) ops).reaped.map fun r => (r.child, r.gen)).Nodup ∧
    ∀ r ∈ (run (step initproc) (start C initproc) ops).reaped, r.parent = some r.by_ ∧
      (r.child, r.gen) ∈ (run (step initproc) (start C initproc) ops).exited := by
  have hkin := run_kin initproc ops
  refine ⟨fun _ => ⟨fun p hp hst => ?_, hkin.family.sleeps⟩, hkin.tallied.once, hkin.tallied.reaped⟩
  obtain ⟨q, hq, hal⟩ := hkin.family.parents p hp (fun heq => by rw [heq] at hst; revert hst; decide)
    (fun heq => by rw [heq] at hst; revert hst; decide)
  refine ⟨q, hq, ?_⟩
  rcases hal with hst | hst | hst
  all_goals
    rw [hst]
    decide

/-- then init waits -/
def reapOps : List (Op Bool) := familyOps ++ [.call true .wait]

/-- the child has exited and init has not waited yet; then it waits -/
theorem exit_wait_family :
    (∃ q, ((run (step 0) (start Bool 0) familyOps).table 1).parent = some q ∧
      ((run (step 0) (start Bool 0) familyOps).table q).state ∈ [ProcState.runnable, .running, .sleeping]) ∧
    ∃ r ∈ (run (step 0) (start Bool 0) reapOps).reaped, r.parent = some r.by_ ∧
      (r.child, r.gen) ∈ (run (step 0) (start Bool 0) reapOps).exited := by
  refine ⟨((exit_wait 0 familyOps).1 (by decide +kernel)).1 1 (by decide) (by decide +kernel), ?_⟩
  have hsome : (run (step 0) (start Bool 0) reapOps).reaped ≠ [] := by decide +kernel
  obtain ⟨r, hr⟩ := List.exists_mem_of_ne_nil _ hsome
  exact ⟨r, hr, (exit_wait 0 reapOps).2.2 r hr⟩

end Xv6.Ptable
