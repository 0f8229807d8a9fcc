/-
Monitors: any number of processes work on one memory under a spin-lock, and sleep and wake one another on channels.

What a process does in its sections is a parameter (`Prog.sec`), one step at a time: it goes on, calls `sleep`, calls `wakeup`, or
releases the lock. `sleep` and `wakeup` are those of a kernel whose process states are under a second lock: `sleep` takes that
lock before it gives up the first one, and `wakeup` changes states under it. Each acquire and release is a step, and so is each
piece of code between two of them; a process may be killed, and woken by somebody else, at any time, and the environment may
change the memory on its own (`Prog.env`).

- `Locks`: a lock is held by whoever is in its regions.
-/
import Xv6.Core.Regions
import Xv6.Core.Run

namespace Xv6.Core.Monitor

/-! ## The machine -/

/-- how a step in a section ends, and where the process goes on -/
inductive Act (Ch L : Type*)
  | go (l : L)
  | sleep (ch : Ch) (l : L)
  | wakeup (ch : Ch) (l : L)
  | release (l : L)

/-- where a process is; `l` is its place in its own code -/
inductive Pc (Ch L : Type*)
  | out (l : L)
  /-- about to acquire the lock -/
  | acquire (l : L)
  | sec (l : L)
  -- sleep
  | sleepAcquire (ch : Ch) (l : L)
  | sleepRelease (ch : Ch) (l : L)
  | sleepSched (ch : Ch) (l : L)
  | sleeping (ch : Ch) (l : L)
  /-- RUNNABLE again -/
  | woken (l : L)
  -- wakeup
  | wakeAcquire (ch : Ch) (l : L)
  | wakeAll (ch : Ch) (l : L)
  | wakeRelease (l : L)
  deriving DecidableEq

structure Prog (ι Ch M L X E : Type*) where
  /-- the next step of a process in a section; it may look whether it has been killed -/
  sec : ι → Bool → M → L → M × Act Ch L
  /-- a call by a process that is outside, and where its section begins -/
  call : ι → L → X → Option L
  /-- what the environment does to the memory -/
  env : E → M → M

structure St (ι Ch M L : Type*) where
  lock : Option ι
  /-- who has the lock of the process states -/
  ptable : Option ι
  mem : M
  killed : ι → Bool
  pc : ι → Pc Ch L

inductive Op (ι Ch X E : Type*)
  /-- process `i` goes on -/
  | next (i : ι)
  | call (i : ι) (x : X)
  | kill (i : ι)
  /-- somebody else calls `wakeup` -/
  | wakeup (ch : Ch)
  | env (e : E)

variable {ι Ch M L X E : Type*}

def Act.loc : Act Ch L → L
  | .go l | .sleep _ l | .wakeup _ l | .release l => l

def Act.pc : Act Ch L → Pc Ch L
  | .go l => .sec l
  | .sleep ch l => .sleepAcquire ch l
  | .wakeup ch l => .wakeAcquire ch l
  | .release l => .out l

def Act.releases : Act Ch L → Bool
  | .release _ => true
  | _ => false

def Pc.loc : Pc Ch L → L
  | .out l | .acquire l | .sec l | .sleepAcquire _ l | .sleepRelease _ l | .sleepSched _ l | .sleeping _ l | .woken l
  | .wakeAcquire _ l | .wakeAll _ l | .wakeRelease l => l

section

variable [DecidableEq ι] [DecidableEq Ch] (P : Prog ι Ch M L X E)

def St.goto (s : St ι Ch M L) (i : ι) (pc : Pc Ch L) : St ι Ch M L := { s with pc := Function.update s.pc i pc }

def wakeup1 (ch : Ch) (pc : ι → Pc Ch L) : ι → Pc Ch L := fun j =>
  match pc j with
  | .sleeping ch' l => if ch' = ch then .woken l else .sleeping ch' l
  | p => p

/-- the next step of process `i` -/
def next (s : St ι Ch M L) (i : ι) : St ι Ch M L :=
  match s.pc i with
  | .out _ | .sleeping _ _ => s
  | .acquire l => if s.lock = none then { s.goto i (.sec l) with lock := some i } else s
  | .sec l =>
    { s.goto i (P.sec i (s.killed i) s.mem l).2.pc with
      mem := (P.sec i (s.killed i) s.mem l).1
      lock := if (P.sec i (s.killed i) s.mem l).2.releases then none else s.lock }
  | .sleepAcquire ch l => if s.ptable = none then { s.goto i (.sleepRelease ch l) with ptable := some i } else s
  | .sleepRelease ch l => { s.goto i (.sleepSched ch l) with lock := none }
  -- the scheduler gives back the lock of the process states
  | .sleepSched ch l => { s.goto i (.sleeping ch l) with ptable := none }
  | .woken l => if s.ptable = none then s.goto i (.acquire l) else s
  | .wakeAcquire ch l => if s.ptable = none then { s.goto i (.wakeAll ch l) with ptable := some i } else s
  | .wakeAll ch l => { s with pc := Function.update (wakeup1 ch s.pc) i (.wakeRelease l) }
  | .wakeRelease l => { s.goto i (.sec l) with ptable := none }

/-- a process that sleeps is RUNNABLE when it is killed -/
def killPc : Pc Ch L → Pc Ch L
  | .sleeping _ l => .woken l
  | p => p

/-- one step; a call that the process is not in a position to make changes nothing -/
def step (s : St ι Ch M L) : Op ι Ch X E → St ι Ch M L
  | .next i => next P s i
  | .call i x =>
    match s.pc i with
    | .out l =>
      match P.call i l x with
      | some l' => s.goto i (.acquire l')
      | none => s
    | _ => s
  | .kill i =>
    if s.ptable = none then { s.goto i (killPc (s.pc i)) with killed := Function.update s.killed i true } else s
  | .wakeup ch => if s.ptable = none then { s with pc := wakeup1 ch s.pc } else s
  | .env e => { s with mem := P.env e s.mem }

end

/-- nobody is in a section -/
def start (m : M) (l : ι → L) : St ι Ch M L where
  lock := none
  ptable := none
  mem := m
  killed _ := false
  pc i := .out (l i)

/-! ## The locks -/

/-- holds the lock -/
def Pc.HasLock : Pc Ch L → Prop
  | .sec _ | .sleepAcquire _ _ | .sleepRelease _ _ | .wakeAcquire _ _ | .wakeAll _ _ | .wakeRelease _ => True
  | _ => False

/-- holds the lock of the process states -/
def Pc.HasPtable : Pc Ch L → Prop
  | .sleepRelease _ _ | .sleepSched _ _ | .wakeAll _ _ | .wakeRelease _ => True
  | _ => False

structure Locks (s : St ι Ch M L) : Prop where
  lock : Owned Pc.HasLock s.lock s.pc
  ptable : Owned Pc.HasPtable s.ptable s.pc

theorem start_locks (m : M) (l : ι → L) : Locks (start m l : St ι Ch M L) := ⟨fun _ h => h.elim, fun _ h => h.elim⟩

theorem Act.hasLock_or (a : Act Ch L) : (a.releases = false ∧ a.pc.HasLock) ∨ (a.releases = true ∧ ¬ a.pc.HasLock) := by
  cases a with
  | go => exact .inl ⟨rfl, trivial⟩
  | sleep => exact .inl ⟨rfl, trivial⟩
  | wakeup => exact .inl ⟨rfl, trivial⟩
  | release => exact .inr ⟨rfl, id⟩

theorem Act.pc_loc (a : Act Ch L) : a.pc.loc = a.loc := by
  cases a <;> rfl

theorem Act.not_hasPtable (a : Act Ch L) : ¬ a.pc.HasPtable := by
  cases a <;> exact id

theorem killPc_cases (p : Pc Ch L) : (∃ ch l, p = .sleeping ch l ∧ killPc p = .woken l) ∨ killPc p = p := by
  cases p with
  | sleeping ch l => exact .inl ⟨ch, l, rfl, rfl⟩
  | _ => exact .inr rfl

variable [DecidableEq ι] [DecidableEq Ch] {P : Prog ι Ch M L X E} {s : St ι Ch M L} {i j : ι} {ch : Ch} {l : L}

omit [DecidableEq ι] in
/-- a wakeup changes nothing but the state of processes that sleep -/
theorem wakeup1_cases (ch : Ch) (pc : ι → Pc Ch L) (j : ι) : (∃ l, pc j = .sleeping ch l ∧ wakeup1 ch pc j = .woken l) ∨
      (wakeup1 ch pc j = pc j ∧ ∀ l, pc j ≠ .sleeping ch l) := by
  unfold wakeup1
  cases hpc : pc j with
  | sleeping ch' l =>
    by_cases hch : ch' = ch
    · subst hch
      exact .inl ⟨l, rfl, by simp⟩
    · refine .inr ⟨by simp [hch], fun l' heq => ?_⟩
      cases heq
      exact hch rfl
  | _ => exact .inr ⟨rfl, nofun⟩

omit [DecidableEq ι] in
theorem Locks.wakeup1 (h : Locks s) (ch : Ch) : Locks { s with pc := wakeup1 ch s.pc } := by
  refine ⟨h.lock.congr fun j hj => ?_, h.ptable.congr fun j hj => ?_⟩
  all_goals
    rcases wakeup1_cases ch s.pc j with ⟨l, -, heq⟩ | ⟨heq, -⟩
    · simp only [heq] at hj
      exact absurd hj id
    · simp only [heq] at hj
      exact hj

theorem next_locks (h : Locks s) (i : ι) : Locks (next P s i) := by
  unfold next
  split
  · exact h
  · exact h
  · split
    · rename_i l hpc hlock
      exact ⟨h.lock.step (.inr (.inl ⟨hlock, rfl⟩)), h.ptable.step (.inl ⟨rfl, False.elim⟩)⟩
    · exact h
  · rename_i l hpc
    have hin : (s.pc i).HasLock := by rw [hpc]; trivial
    refine ⟨h.lock.step ?_, h.ptable.step (.inl ⟨rfl, fun hp => absurd hp (Act.not_hasPtable _)⟩)⟩
    rcases (P.sec i (s.killed i) s.mem l).2.hasLock_or with ⟨hr, -⟩ | ⟨hr, hout⟩
    · exact .inl ⟨by simp [hr], fun _ => hin⟩
    · exact .inr (.inr ⟨hin, hout⟩)
  · split
    · rename_i ch l hpc hp
      have hin : (s.pc i).HasLock := by rw [hpc]; trivial
      exact ⟨h.lock.step (.inl ⟨rfl, fun _ => hin⟩), h.ptable.step (.inr (.inl ⟨hp, rfl⟩))⟩
    · exact h
  · rename_i ch l hpc
    have hin : (s.pc i).HasLock := by rw [hpc]; trivial
    have hin' : (s.pc i).HasPtable := by rw [hpc]; trivial
    exact ⟨h.lock.step (.inr (.inr ⟨hin, id⟩)), h.ptable.step (.inl ⟨rfl, fun _ => hin'⟩)⟩
  · rename_i ch l hpc
    have hin' : (s.pc i).HasPtable := by rw [hpc]; trivial
    exact ⟨h.lock.step (.inl ⟨rfl, False.elim⟩), h.ptable.step (.inr (.inr ⟨hin', id⟩))⟩
  · split
    · exact ⟨h.lock.step (.inl ⟨rfl, False.elim⟩), h.ptable.step (.inl ⟨rfl, False.elim⟩)⟩
    · exact h
  · split
    · rename_i ch l hpc hp
      have hin : (s.pc i).HasLock := by rw [hpc]; trivial
      exact ⟨h.lock.step (.inl ⟨rfl, fun _ => hin⟩), h.ptable.step (.inr (.inl ⟨hp, rfl⟩))⟩
    · exact h
  · rename_i ch l hpc
    have hw := h.wakeup1 ch
    have hin : (Monitor.wakeup1 ch s.pc i).HasLock ∧ (Monitor.wakeup1 ch s.pc i).HasPtable := by
      rcases wakeup1_cases ch s.pc i with ⟨l', heq, -⟩ | ⟨heq, -⟩
      · rw [hpc] at heq
        cases heq
      · rw [heq, hpc]
        exact ⟨trivial, trivial⟩
    exact ⟨hw.lock.step (.inl ⟨rfl, fun _ => hin.1⟩), hw.ptable.step (.inl ⟨rfl, fun _ => hin.2⟩)⟩
  · rename_i l hpc
    have hin : (s.pc i).HasLock := by rw [hpc]; trivial
    have hin' : (s.pc i).HasPtable := by rw [hpc]; trivial
    exact ⟨h.lock.step (.inl ⟨rfl, fun _ => hin⟩), h.ptable.step (.inr (.inr ⟨hin', id⟩))⟩

/-- **The locks exclude.** -/
theorem step_locks (h : Locks s) (op : Op ι Ch X E) : Locks (step P s op) := by
  unfold step
  cases op with
  | next i => exact next_locks h i
  | call i x =>
    dsimp only
    split
    · split
      · exact ⟨h.lock.step (.inl ⟨rfl, False.elim⟩), h.ptable.step (.inl ⟨rfl, False.elim⟩)⟩
      · exact h
    · exact h
  | kill i =>
    dsimp only
    split
    · refine ⟨h.lock.step (.inl ⟨rfl, fun hin => ?_⟩), h.ptable.step (.inl ⟨rfl, fun hin => ?_⟩)⟩
      all_goals
        rcases killPc_cases (s.pc i) with ⟨ch, l, -, heq⟩ | heq
        · rw [heq] at hin
          exact absurd hin id
        · rw [heq] at hin
          exact hin
    · exact h
  | wakeup ch =>
    dsimp only
    split
    · exact h.wakeup1 ch
    · exact h
  | env e => exact ⟨h.lock, h.ptable⟩

/-! ## What a step does to the memory and the places -/

/-- a move that the protocol makes by itself -/
inductive Pc.Turn : Pc Ch L → Pc Ch L → Prop
  | stay (p : Pc Ch L) : Turn p p
  | acquire (l : L) : Turn (.acquire l) (.sec l)
  | sleepAcquire (ch : Ch) (l : L) : Turn (.sleepAcquire ch l) (.sleepRelease ch l)
  | sleepRelease (ch : Ch) (l : L) : Turn (.sleepRelease ch l) (.sleepSched ch l)
  | sleepSched (ch : Ch) (l : L) : Turn (.sleepSched ch l) (.sleeping ch l)
  | woke (ch : Ch) (l : L) : Turn (.sleeping ch l) (.woken l)
  | woken (l : L) : Turn (.woken l) (.acquire l)
  | wakeAcquire (ch : Ch) (l : L) : Turn (.wakeAcquire ch l) (.wakeAll ch l)
  | wakeAll (ch : Ch) (l : L) : Turn (.wakeAll ch l) (.wakeRelease l)
  | wakeRelease (l : L) : Turn (.wakeRelease l) (.sec l)

/-- a step of the protocol alone, a step in a section, a call, or a step of the environment -/
inductive View (P : Prog ι Ch M L X E) (s s' : St ι Ch M L) : Op ι Ch X E → Prop
  | quiet {op : Op ι Ch X E} (hmem : s'.mem = s.mem) (hturn : ∀ j, (s.pc j).Turn (s'.pc j))
      (hwakes : ∀ i ch l, s.pc i = .wakeAll ch l → s'.pc i = .wakeRelease l → ∀ j l', s'.pc j ≠ .sleeping ch l') :
      View P s s' op
  | sec (i : ι) (l : L) (hpc : s.pc i = .sec l) (hmem : s'.mem = (P.sec i (s.killed i) s.mem l).1)
      (hself : s'.pc i = (P.sec i (s.killed i) s.mem l).2.pc) (hother : ∀ j, j ≠ i → s'.pc j = s.pc j) :
      View P s s' (.next i)
  | call (i : ι) (x : X) (l l' : L) (hpc : s.pc i = .out l) (hcall : P.call i l x = some l') (hmem : s'.mem = s.mem)
      (hself : s'.pc i = .acquire l') (hother : ∀ j, j ≠ i → s'.pc j = s.pc j) : View P s s' (.call i x)
  | env (e : E) (hmem : s'.mem = P.env e s.mem) (hpc : s'.pc = s.pc) : View P s s' (.env e)

variable {s' : St ι Ch M L} {op : Op ι Ch X E}

omit [DecidableEq ι] [DecidableEq Ch] in
theorem View.nothing : View P s s op := .quiet rfl (fun _ => .stay _) fun i ch l hpc hpc' => by
  rw [hpc] at hpc'
  cases hpc'

omit [DecidableEq Ch] in
/-- one process makes a move of the protocol -/
theorem View.turn {p : Pc Ch L} (hmem : s'.mem = s.mem) (hpc : s'.pc = Function.update s.pc i p) (hturn : (s.pc i).Turn p)
    (hnot : ∀ ch l, s.pc i ≠ .wakeAll ch l) : View P s s' op := by
  have hother : ∀ j, j ≠ i → s'.pc j = s.pc j := fun j hj => by rw [hpc, update_of_ne hj]
  refine .quiet hmem (fun j => ?_) fun j ch l hj hj' => ?_
  · by_cases hji : j = i
    · rw [hji, hpc, update_self]
      exact hturn
    · rw [hother j hji]
      exact .stay _
  · by_cases hji : j = i
    · rw [hji] at hj
      exact absurd hj (hnot ch l)
    · rw [hother j hji, hj] at hj'
      cases hj'

omit [DecidableEq ι] in
theorem wakeup1_turn (ch : Ch) (pc : ι → Pc Ch L) (j : ι) : (pc j).Turn (wakeup1 ch pc j) := by
  rcases wakeup1_cases ch pc j with ⟨l, hpc, heq⟩ | ⟨heq, -⟩
  · rw [heq, hpc]
    exact .woke ch l
  · rw [heq]
    exact .stay _

theorem next_view (s : St ι Ch M L) (i : ι) : View P s (next P s i) (.next i) := by
  unfold next
  split
  · exact .nothing
  · exact .nothing
  · rename_i l hpc
    split
    · exact .turn rfl rfl (by rw [hpc]; exact .acquire l) (by rw [hpc]; exact nofun)
    · exact .nothing
  · rename_i l hpc
    exact .sec i l hpc rfl (update_self ..) fun j hj => update_of_ne hj ..
  · rename_i ch l hpc
    split
    · exact .turn rfl rfl (by rw [hpc]; exact .sleepAcquire ch l) (by rw [hpc]; exact nofun)
    · exact .nothing
  · rename_i ch l hpc
    exact .turn rfl rfl (by rw [hpc]; exact .sleepRelease ch l) (by rw [hpc]; exact nofun)
  · rename_i ch l hpc
    exact .turn rfl rfl (by rw [hpc]; exact .sleepSched ch l) (by rw [hpc]; exact nofun)
  · rename_i l hpc
    split
    · exact .turn rfl rfl (by rw [hpc]; exact .woken l) (by rw [hpc]; exact nofun)
    · exact .nothing
  · rename_i ch l hpc
    split
    · exact .turn rfl rfl (by rw [hpc]; exact .wakeAcquire ch l) (by rw [hpc]; exact nofun)
    · exact .nothing
  · rename_i ch l hpc
    -- whoever sleeps on the channel is woken
    refine .quiet rfl (fun j => ?_) fun j ch' l' hj hj' k l'' hk => ?_
    · by_cases hji : j = i
      · subst hji
        simp only [update_self, hpc]
        exact .wakeAll ch l
      · simp only [update_of_ne hji]
        exact wakeup1_turn ch s.pc j
    · by_cases hji : j = i
      · subst hji
        rw [hpc] at hj
        cases hj
        by_cases hkj : k = j
        · subst hkj
          simp only [update_self] at hk
          cases hk
        · simp only [update_of_ne hkj] at hk
          rcases wakeup1_cases ch s.pc k with ⟨l2, -, heq⟩ | ⟨heq, hnot⟩
          · rw [heq] at hk
            cases hk
          · rw [heq] at hk
            exact hnot l'' hk
      · simp only [update_of_ne hji] at hj'
        rcases wakeup1_cases ch s.pc j with ⟨l2, -, heq⟩ | ⟨heq, -⟩
        · rw [heq] at hj'
          cases hj'
        · rw [heq, hj] at hj'
          cases hj'
  · rename_i l hpc
    exact .turn rfl rfl (by rw [hpc]; exact .wakeRelease l) (by rw [hpc]; exact nofun)

/-- **What a step can do.** -/
theorem step_view (P : Prog ι Ch M L X E) (s : St ι Ch M L) (op : Op ι Ch X E) : View P s (step P s op) op := by
  unfold step
  cases op with
  | next i => exact next_view s i
  | call i x =>
    dsimp only
    split
    · rename_i l hpc
      split
      · rename_i l' hcall
        exact .call i x l l' hpc hcall rfl (update_self ..) fun j hj => update_of_ne hj ..
      · exact .nothing
    · exact .nothing
  | kill i =>
    dsimp only
    split
    · rcases killPc_cases (s.pc i) with ⟨ch, l, hpc, heq⟩ | heq
      · exact .turn rfl (by rw [heq]; rfl) (by rw [hpc]; exact .woke ch l) (by rw [hpc]; exact nofun)
      · have hsame : (s.goto i (killPc (s.pc i))).pc = s.pc := by
          unfold St.goto
          rw [heq, update_eq_self]
        refine .quiet rfl (fun j => ?_) fun j ch l hj hj' => ?_
        · simp only [hsame]
          exact .stay _
        · simp only [hsame, hj] at hj'
          cases hj'
    · exact .nothing
  | wakeup ch =>
    dsimp only
    split
    · refine .quiet rfl (wakeup1_turn ch s.pc) fun j ch' l hj hj' => ?_
      rcases wakeup1_cases ch s.pc j with ⟨l2, -, heq⟩ | ⟨heq, -⟩
      · simp only [heq] at hj'
        cases hj'
      · simp only [heq, hj] at hj'
        cases hj'
    · exact .nothing
  | env e => exact .env e rfl rfl

omit [DecidableEq ι] [DecidableEq Ch] in
theorem Pc.Turn.loc_eq {p p' : Pc Ch L} (h : p.Turn p') : p'.loc = p.loc := by
  cases h <;> rfl

/-- the places of all processes -/
def St.loc (s : St ι Ch M L) (i : ι) : L := (s.pc i).loc

omit [DecidableEq Ch] in
theorem loc_update {p : Pc Ch L} (hself : s'.pc i = p) (hother : ∀ j, j ≠ i → s'.pc j = s.pc j) : s'.loc = Function.update s.loc i p.loc := by
  funext j
  unfold St.loc
  by_cases hji : j = i
  · subst hji
    rw [update_self, hself]
  · rw [update_of_ne hji, hother j hji]

omit [DecidableEq Ch] in
/-- **Invariant rule.** What relates the memory to the places is kept if sections, calls and the environment keep it. -/
theorem View.keeps {J : M → (ι → L) → Prop} (hv : View P s s' op) (h : J s.mem s.loc) (hsec : ∀ i l, op = .next i → s.pc i = .sec l →
      J (P.sec i (s.killed i) s.mem l).1 (Function.update s.loc i (P.sec i (s.killed i) s.mem l).2.loc))
    (hcall : ∀ i x l l', op = .call i x → s.pc i = .out l → P.call i l x = some l' → J s.mem (Function.update s.loc i l'))
    (henv : ∀ e, op = .env e → J (P.env e s.mem) s.loc) : J s'.mem s'.loc := by
  cases hv with
  | quiet hmem hturn hwakes =>
    have hloc : s'.loc = s.loc := funext fun j => (hturn j).loc_eq
    rw [hmem, hloc]
    exact h
  | sec i l hpc hmem hself hother =>
    rw [hmem, loc_update hself hother, Act.pc_loc]
    exact hsec i l rfl hpc
  | call i x l l' hpc hc hmem hself hother =>
    rw [hmem, loc_update hself hother]
    exact hcall i x l l' rfl hpc hc
  | env e hmem hpc =>
    have hloc : s'.loc = s.loc := funext fun j => by
      unfold St.loc
      rw [hpc]
    rw [hmem, hloc]
    exact henv e rfl

/-! ## Places inside of a section -/

/-- in a section, and not about to leave it -/
def Pc.Works : Pc Ch L → Prop
  | .sec _ | .wakeAcquire _ _ | .wakeAll _ _ | .wakeRelease _ => True
  | _ => False

/-- a place of `Mid` is met only inside of a section -/
def MidOwned (Mid : L → Prop) (s : St ι Ch M L) : Prop := ∀ i, Mid (s.pc i).loc → (s.pc i).Works

section

omit [DecidableEq ι] [DecidableEq Ch]

variable {Mid : L → Prop}

theorem Pc.Works.hasLock {p : Pc Ch L} (h : p.Works) : p.HasLock := by
  cases p with
  | sec => trivial
  | wakeAcquire => trivial
  | wakeAll => trivial
  | wakeRelease => trivial
  | _ => exact absurd h id

theorem Pc.Turn.works {p p' : Pc Ch L} (h : p.Turn p') (hp : p.Works) : p'.Works := by
  cases h with
  | stay => exact hp
  | wakeAcquire => trivial
  | wakeAll => trivial
  | wakeRelease => trivial
  | acquire => trivial
  | _ => exact absurd hp id

theorem Act.works_or (a : Act Ch L) : a.pc.Works ∨ (∃ ch, a = .sleep ch a.loc) ∨ a = .release a.loc := by
  cases a with
  | go => exact .inl trivial
  | wakeup => exact .inl trivial
  | sleep ch => exact .inr (.inl ⟨ch, rfl⟩)
  | release => exact .inr (.inr rfl)

/-- the holder of the lock is the only one at such a place -/
theorem MidOwned.owned (h : MidOwned Mid s) (hl : Locks s) (hmid : Mid (s.pc i).loc) : s.lock = some i :=
  hl.lock i (h i hmid).hasLock

/-- sections do not begin at such places, and calls of `sleep` and `release` do not lead to them -/
theorem View.mid (hv : View P s s' op) (h : MidOwned Mid s)
    (hcall : ∀ i x l l', P.call i l x = some l' → ¬ Mid l')
    (hsec : ∀ i k m l, ((∃ ch, (P.sec i k m l).2 = .sleep ch (P.sec i k m l).2.loc) ∨
      (P.sec i k m l).2 = .release (P.sec i k m l).2.loc) → ¬ Mid (P.sec i k m l).2.loc) : MidOwned Mid s' := by
  intro j hj
  cases hv with
  | quiet hmem hturn hwakes =>
    rw [(hturn j).loc_eq] at hj
    exact (hturn j).works (h j hj)
  | sec i l hpc hmem hself hother =>
    by_cases hji : j = i
    · subst hji
      rw [hself] at hj ⊢
      rw [Act.pc_loc] at hj
      rcases (P.sec j (s.killed j) s.mem l).2.works_or with hw | hleave
      · exact hw
      · exact absurd hj (hsec j _ _ l hleave)
    · rw [hother j hji] at hj ⊢
      exact h j hj
  | call i x l l' hpc hc hmem hself hother =>
    by_cases hji : j = i
    · subst hji
      rw [hself] at hj
      exact absurd hj (hcall j x l l' hc)
    · rw [hother j hji] at hj ⊢
      exact h j hj
  | env e hmem hpc =>
    rw [hpc] at hj ⊢
    exact h j hj

/-- the memory is as it is between sections, or as the place inside of a section says -/
structure Held (Mid : L → Prop) (Calm : M → Prop) (Fits : M → L → Prop) (s : St ι Ch M L) : Prop where
  mid : ∀ i, Mid (s.pc i).loc → Fits s.mem (s.pc i).loc
  calm : (∀ i, ¬ Mid (s.pc i).loc) → Calm s.mem

variable {Calm : M → Prop} {Fits : M → L → Prop}

/-- what the memory is like when a process is in a section: nobody else is at a place of `Mid` -/
theorem Held.inside (h : Held Mid Calm Fits s) (hl : Locks s) (hm : MidOwned Mid s) (hpc : s.pc i = .sec l) :
    (Mid l → Fits s.mem l) ∧ (¬ Mid l → Calm s.mem) := by
  have hloc : (s.pc i).loc = l := by
    rw [hpc]
    rfl
  refine ⟨fun hmid => hloc ▸ h.mid i (hloc ▸ hmid), fun hnot => h.calm fun j hj => ?_⟩
  have hji : j = i := hl.lock.unique (hm j hj).hasLock (by rw [hpc]; trivial)
  rw [hji, hloc] at hj
  exact hnot hj

/-- **Invariant rule for sections.** The process in a section is the only one that can be at a place of `Mid`. -/
theorem View.held (hv : View P s s' op) (hl : Locks s) (hm : MidOwned Mid s) (h : Held Mid Calm Fits s)
    (hcall : ∀ i x l l', P.call i l x = some l' → ¬ Mid l') (hsec : ∀ i l, op = .next i → s.pc i = .sec l →
      (Mid (P.sec i (s.killed i) s.mem l).2.loc → Fits (P.sec i (s.killed i) s.mem l).1 (P.sec i (s.killed i) s.mem l).2.loc) ∧
      (¬ Mid (P.sec i (s.killed i) s.mem l).2.loc → Calm (P.sec i (s.killed i) s.mem l).1))
    (henv : ∀ e, op = .env e → (∀ l, Fits s.mem l → Fits (P.env e s.mem) l) ∧ (Calm s.mem → Calm (P.env e s.mem))) :
    Held Mid Calm Fits s' := by
  cases hv with
  | quiet hmem hturn hwakes =>
    refine ⟨fun j hj => ?_, fun hno => ?_⟩
    · rw [hmem, (hturn j).loc_eq]
      rw [(hturn j).loc_eq] at hj
      exact h.mid j hj
    · rw [hmem]
      refine h.calm fun j hj => hno j ?_
      rw [(hturn j).loc_eq]
      exact hj
  | sec i l hpc hmem hself hother =>
    -- the others do not hold the lock
    have hothers : ∀ j, j ≠ i → ¬ Mid (s.pc j).loc := fun j hj hmid =>
      hj (hl.lock.unique (hm j hmid).hasLock (by rw [hpc]; trivial))
    have hstep := hsec i l rfl hpc
    refine ⟨fun j hj => ?_, fun hno => ?_⟩
    · by_cases hji : j = i
      · subst hji
        rw [hself, Act.pc_loc] at hj ⊢
        rw [hmem]
        exact hstep.1 hj
      · rw [hother j hji] at hj
        exact absurd hj (hothers j hji)
    · rw [hmem]
      refine hstep.2 fun hmid => hno i ?_
      rw [hself, Act.pc_loc]
      exact hmid
  | call i x l l' hpc hc hmem hself hother =>
    have hnew : ¬ Mid (s'.pc i).loc := by
      rw [hself]
      exact hcall i x l l' hc
    refine ⟨fun j hj => ?_, fun hno => ?_⟩
    · have hji : j ≠ i := fun heq => hnew (heq ▸ hj)
      rw [hother j hji] at hj ⊢
      rw [hmem]
      exact h.mid j hj
    · rw [hmem]
      refine h.calm fun j hj => ?_
      by_cases hji : j = i
      · -- a process outside is at no place of `Mid`
        have hw := hm j hj
        rw [hji, hpc] at hw
        exact hw
      · refine hno j ?_
        rw [hother j hji]
        exact hj
  | env e hmem hpc =>
    obtain ⟨hfits, hcalm⟩ := henv e rfl
    refine ⟨fun j hj => ?_, fun hno => ?_⟩
    · rw [hmem]
      rw [hpc] at hj ⊢
      exact hfits _ (h.mid j hj)
    · rw [hmem]
      rw [hpc] at hno
      exact hcalm (h.calm hno)

/-- while the lock is free the memory is as it is between sections -/
theorem Held.free (h : Held Mid Calm Fits s) (hl : Locks s) (hm : MidOwned Mid s) (hlock : s.lock = none) : Calm s.mem := by
  refine h.calm fun i hi => ?_
  have howned := hm.owned hl hi
  rw [hlock] at howned
  cases howned

end

/-! ## No lost wakeups -/

/-- sleeps on `ch`, or is about to -/
def Pc.Asleep (ch : Ch) : Pc Ch L → Prop
  | .sleepAcquire c _ | .sleepRelease c _ | .sleepSched c _ | .sleeping c _ => c = ch
  | _ => False

/-- holds the lock and has still to wake `ch`; at which places of its code, says `Owes` -/
def Pc.Owes (Owes : L → Ch → Prop) (ch : Ch) : Pc Ch L → Prop
  | .sec l | .wakeRelease l => Owes l ch
  | .wakeAcquire c l | .wakeAll c l => c = ch ∨ Owes l ch
  | _ => False

def Act.Owes (Owes : L → Ch → Prop) (ch : Ch) : Act Ch L → Prop
  | .go l => Owes l ch
  | .wakeup c l => c = ch ∨ Owes l ch
  | .sleep _ _ | .release _ => False

/-- if what is waited for on `ch` is there, somebody will wake whoever sleeps on it -/
def Owing (Ready : Ch → M → Prop) (Owes : L → Ch → Prop) (s : St ι Ch M L) : Prop :=
  ∀ j ch, (s.pc j).Asleep ch → Ready ch s.mem → ∃ i, (s.pc i).Owes Owes ch

/-- a step in a section that leaves with no debt: what it makes ready it has still to wake, and it sleeps on what is not ready -/
structure Pays (Ready : Ch → M → Prop) (Owes : L → Ch → Prop) (m : M) (l : L) (m' : M) (a : Act Ch L) : Prop where
  debt : ∀ ch, Ready ch m' → (Ready ch m ∧ ¬ Owes l ch) ∨ a.Owes Owes ch
  sleep : ∀ ch l', a = .sleep ch l' → ¬ Ready ch m'

section

omit [DecidableEq ι] [DecidableEq Ch]

variable {Ready : Ch → M → Prop} {Owes : L → Ch → Prop}

theorem Pc.Owes.hasLock {p : Pc Ch L} (h : p.Owes Owes ch) : p.HasLock := by
  cases p with
  | sec => trivial
  | wakeAcquire => trivial
  | wakeAll => trivial
  | wakeRelease => trivial
  | _ => exact absurd h id

theorem Act.Owes.pc_owes {a : Act Ch L} (h : a.Owes Owes ch) : a.pc.Owes Owes ch := by
  cases a with
  | go => exact h
  | wakeup => exact h
  | _ => exact absurd h id

theorem Act.asleep_pc {a : Act Ch L} (h : a.pc.Asleep ch) : ∃ l, a = .sleep ch l := by
  cases a with
  | sleep c l =>
    have h : c = ch := h
    exact ⟨l, by rw [h]⟩
  | _ => exact absurd h id

/-- who sleeps after a move of the protocol slept before -/
theorem Pc.Turn.asleep {p p' : Pc Ch L} (h : p.Turn p') (hp : p'.Asleep ch) : p.Asleep ch := by
  cases h with
  | woke => exact absurd hp id
  | _ => exact hp

/-- a debt stays, or a wakeup has paid it -/
theorem Pc.Turn.owes {p p' : Pc Ch L} (h : p.Turn p') (hp : p.Owes Owes ch) :
    p'.Owes Owes ch ∨ ∃ l, p = .wakeAll ch l ∧ p' = .wakeRelease l := by
  cases h with
  | stay => exact .inl hp
  | wakeAcquire => exact .inl hp
  | wakeRelease => exact .inl hp
  | wakeAll c l =>
    rcases hp with rfl | hp
    · exact .inr ⟨l, rfl, rfl⟩
    · exact .inl hp
  | _ => exact absurd hp id

/-- **No wakeup is lost.** -/
theorem View.owing (hv : View P s s' op) (hl : Locks s) (h : Owing Ready Owes s) (hsec : ∀ i l, op = .next i → s.pc i = .sec l →
      Pays Ready Owes s.mem l (P.sec i (s.killed i) s.mem l).1 (P.sec i (s.killed i) s.mem l).2)
    (henv : ∀ e, op = .env e → ∀ ch, Ready ch (P.env e s.mem) → Ready ch s.mem) : Owing Ready Owes s' := by
  intro j ch hj hready
  cases hv with
  | quiet hmem hturn hwakes =>
    rw [hmem] at hready
    have hj0 := (hturn j).asleep hj
    obtain ⟨i, hi⟩ := h j ch hj0 hready
    rcases (hturn i).owes hi with howes | ⟨l, hpc, hpc'⟩
    · exact ⟨i, howes⟩
    · -- `i` has woken everybody on the channel, and holds both locks
      have hin : (s.pc i).HasLock ∧ (s.pc i).HasPtable := by
        rw [hpc]
        exact ⟨trivial, trivial⟩
      have hne : j ≠ i := fun heq => by
        rw [heq, hpc] at hj0
        exact hj0
      have hsl := hwakes i ch l hpc hpc' j
      have hturnj := hturn j
      cases hpj : s.pc j with
      | sleepAcquire c l' => exact absurd (hl.lock.unique (by rw [hpj]; trivial) hin.1) hne
      | sleepRelease c l' => exact absurd (hl.lock.unique (by rw [hpj]; trivial) hin.1) hne
      | sleepSched c l' => exact absurd (hl.ptable.unique (by rw [hpj]; trivial) hin.2) hne
      | sleeping c l' =>
        rw [hpj] at hj0 hturnj
        have hc : c = ch := hj0
        subst hc
        generalize hpj' : s'.pc j = p' at hturnj hj
        cases hturnj with
        | stay => exact absurd hpj' (hsl l')
        | woke => exact absurd hj id
      | _ =>
        rw [hpj] at hj0
        exact absurd hj0 id
  | sec i l hpc hmem hself hother =>
    have hpays := hsec i l rfl hpc
    rw [hmem] at hready
    by_cases hji : j = i
    · subst hji
      rw [hself] at hj
      obtain ⟨l', ha⟩ := Act.asleep_pc hj
      exact absurd hready (hpays.sleep ch l' ha)
    · rw [hother j hji] at hj
      rcases hpays.debt ch hready with ⟨hold, hnot⟩ | howes
      · -- the holder of the lock, who owed it before, is `i`
        obtain ⟨i', hi'⟩ := h j ch hj hold
        have heq : i' = i := hl.lock.unique hi'.hasLock (by rw [hpc]; trivial)
        rw [heq, hpc] at hi'
        exact absurd hi' hnot
      · refine ⟨i, ?_⟩
        rw [hself]
        exact howes.pc_owes
  | call i x l l' hpc hc hmem hself hother =>
    rw [hmem] at hready
    have hji : j ≠ i := fun heq => by
      rw [heq, hself] at hj
      exact hj
    rw [hother j hji] at hj
    obtain ⟨i', hi'⟩ := h j ch hj hready
    have hne : i' ≠ i := fun heq => by
      rw [heq, hpc] at hi'
      exact hi'
    exact ⟨i', by rw [hother i' hne]; exact hi'⟩
  | env e hmem hpc =>
    rw [hmem] at hready
    rw [hpc] at hj ⊢
    exact h j ch hj (henv e rfl ch hready)

/-- on which channels processes sleep at which places -/
theorem View.asleep {At : Ch → L → Prop} (hv : View P s s' op) (h : ∀ j ch, (s.pc j).Asleep ch → At ch (s.pc j).loc)
    (hsec : ∀ i k m l ch l', (P.sec i k m l).2 = .sleep ch l' → At ch l') : ∀ j ch, (s'.pc j).Asleep ch → At ch (s'.pc j).loc := by
  intro j ch hj
  cases hv with
  | quiet hmem hturn hwakes =>
    rw [(hturn j).loc_eq]
    exact h j ch ((hturn j).asleep hj)
  | sec i l hpc hmem hself hother =>
    by_cases hji : j = i
    · subst hji
      rw [hself] at hj ⊢
      obtain ⟨l', ha⟩ := Act.asleep_pc hj
      rw [ha]
      exact hsec j _ _ l ch l' ha
    · rw [hother j hji] at hj ⊢
      exact h j ch hj
  | call i x l l' hpc hc hmem hself hother =>
    have hji : j ≠ i := fun heq => by
      rw [heq, hself] at hj
      exact hj
    rw [hother j hji] at hj ⊢
    exact h j ch hj
  | env e hmem hpc =>
    rw [hpc] at hj ⊢
    exact h j ch hj

/-- while the lock is free, whoever sleeps waits for something that is not there -/
theorem Owing.awake (h : Owing Ready Owes s) (hl : Locks s) (hlock : s.lock = none) (hj : (s.pc j).Asleep ch) : ¬ Ready ch s.mem := by
  intro hready
  obtain ⟨i, hi⟩ := h j ch hj hready
  have howned := hl.lock i hi.hasLock
  rw [hlock] at howned
  cases howned

theorem start_mid {Mid : L → Prop} {m : M} {l : ι → L} (h : ∀ i, ¬ Mid (l i)) : MidOwned Mid (start m l : St ι Ch M L) :=
  fun i hi => absurd hi (h i)

theorem start_owing {m : M} {l : ι → L} : Owing Ready Owes (start m l : St ι Ch M L) := fun _ _ hj => hj.elim

end

end Xv6.Core.Monitor
