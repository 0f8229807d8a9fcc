/-
The array lock of `libthread.c` (`arraylock_init`, `arraylock_acquire`, `arraylock_release`).

A thread takes a ticket, the position `pos` in `lock[]`, under the makeshift mutex `m`, and spins until `lock[pos]` is
set. The holder's position is kept in the shared field `lockpos`, which release reads twice; release clears the holder's
slot and then sets the next one. One step is one xchg, one load or one store; `size` and `lock` are written by
`arraylock_init` only, so reading them is part of the step that uses them.

`ticketed` and `entered` are history: the threads in the order in which they took their tickets, and in the order in
which their acquires returned. `served` counts the finished releases. The code does not read them.

Results, for at most `size` threads:
- `arraylock_safe`: in every interleaving at most one thread holds the lock, at most one entry of `lock[]` is 1, the
  holder's ticket is in `lockpos`, and threads enter in the order of their tickets.

Tickets wrap around at `size`; the proof works with the running number `n` of a ticket, and `pos = n % size`. At most
`size` tickets are outstanding, so different outstanding tickets have different positions.
-/
import Xv6.Core.SpinLock
import Xv6.Core.Threads
import Xv6.Core.Tickets

namespace Xv6.ArrayLock

open Xv6.Core

/-! ## Model -/

structure Mem (ι : Type*) where
  lock : ℕ → ℕ
  lockpos : ℕ
  next : ℕ
  size : ℕ
  m : ℕ
  ticketed : List ι
  entered : List ι
  served : ℕ

/-- where a thread stands: the next access it makes -/
inductive Pc where
  | out
  /-- acquire: `while (xchg(&lk->m, 1) != 0)` -/
  | acqLock
  /-- acquire: `pos = lk->next` -/
  | acqLoad
  /-- acquire: `lk->next = pos + 1` -/
  | acqStore (pos : ℕ)
  /-- acquire: `if (lk->next == lk->size)` -/
  | acqTest (pos : ℕ)
  /-- acquire: `lk->next = 0` -/
  | acqWrap (pos : ℕ)
  /-- acquire: `xchg(&lk->m, 0)` -/
  | acqUnlock (pos : ℕ)
  /-- acquire: `while (lk->lock[pos] == 0)` -/
  | acqWait (pos : ℕ)
  /-- acquire: `lk->lockpos = pos` -/
  | acqPos (pos : ℕ)
  /-- acquire has returned, release has not started -/
  | held (pos : ℕ)
  /-- release: `nextpos = lk->lockpos + 1` -/
  | relLoad
  /-- release: `if (nextpos == lk->size) nextpos = 0` -/
  | relTest (nextpos : ℕ)
  /-- release: the load of `lk->lockpos` in `lk->lock[lk->lockpos] = 0` -/
  | relAddr (nextpos : ℕ)
  /-- release: the store `lk->lock[pos] = 0` -/
  | relClear (nextpos pos : ℕ)
  /-- release: `lk->lock[nextpos] = 1` -/
  | relSet (nextpos : ℕ)
deriving DecidableEq, Repr

abbrev St (ι : Type*) := Threads ι (Mem ι) Pc

variable {ι : Type*}

/-- one atomic step of thread `i`; `uint` arithmetic is modulo 2^32 -/
def prog (i : ι) (m : Mem ι) : Pc → Mem ι × Pc
  | .out => (m, .acqLock)
  | .acqLock => if m.m = 0 then ({ m with m := 1 }, .acqLoad) else ({ m with m := 1 }, .acqLock)
  | .acqLoad => ({ m with ticketed := m.ticketed ++ [i] }, .acqStore m.next)
  | .acqStore pos => ({ m with next := (pos + 1) % 2 ^ 32 }, .acqTest pos)
  | .acqTest pos => if m.next = m.size then (m, .acqWrap pos) else (m, .acqUnlock pos)
  | .acqWrap pos => ({ m with next := 0 }, .acqUnlock pos)
  | .acqUnlock pos => ({ m with m := 0 }, .acqWait pos)
  | .acqWait pos => if m.lock pos = 0 then (m, .acqWait pos) else (m, .acqPos pos)
  | .acqPos pos => ({ m with lockpos := pos, entered := m.entered ++ [i] }, .held pos)
  | .held _ => (m, .relLoad)
  | .relLoad => (m, .relTest ((m.lockpos + 1) % 2 ^ 32))
  | .relTest np => if np = m.size then (m, .relAddr 0) else (m, .relAddr np)
  | .relAddr np => (m, .relClear np m.lockpos)
  | .relClear np pos => ({ m with lock := Function.update m.lock pos 0 }, .relSet np)
  | .relSet np => ({ m with lock := Function.update m.lock np 1, served := m.served + 1 }, .out)

/-- `arraylock_init`: `lockpos`, and the memory behind the array, are whatever `malloc` returned -/
def init (size lockpos : ℕ) (mem : ℕ → ℕ) : St ι :=
  ⟨⟨fun p => if p = 0 then 1 else if p < size then 0 else mem p, lockpos, 0, size, 0, [], [], 0⟩, fun _ => .out⟩

abbrev step [DecidableEq ι] (s : St ι) (i : ι) : St ι := Threads.step prog s i

/-! ## The invariant -/

/-- the thread holds the mutex `m` -/
@[simp]
def Pc.inMutex : Pc → Prop
  | .acqLoad | .acqStore _ | .acqTest _ | .acqWrap _ | .acqUnlock _ => True
  | _ => False

/-- from the load of `lk->next` until the next slot is set -/
@[simp]
def Pc.hasTicket : Pc → Prop
  | .out | .acqLock | .acqLoad => False
  | _ => True

/-- acquire has returned and the next slot is not set yet -/
@[simp]
def Pc.inside : Pc → Prop
  | .held _ | .relLoad | .relTest _ | .relAddr _ | .relClear _ _ | .relSet _ => True
  | _ => False

/-- what the thread with ticket `n` knows -/
def Pc.ok (m : Mem ι) (n : ℕ) : Pc → Prop
  | .acqStore pos => pos = n % m.size ∧ n + 1 = m.ticketed.length ∧ m.next = pos
  | .acqTest pos => pos = n % m.size ∧ n + 1 = m.ticketed.length ∧ m.next = pos + 1
  | .acqWrap pos => pos = n % m.size ∧ n + 1 = m.ticketed.length ∧ m.next = pos + 1 ∧ m.next = m.size
  | .acqUnlock pos => pos = n % m.size ∧ n + 1 = m.ticketed.length
  | .acqWait pos => pos = n % m.size
  | .acqPos pos => pos = n % m.size ∧ n = m.served
  | .held pos => pos = n % m.size ∧ n = m.served ∧ m.lockpos = pos
  | .relLoad => n = m.served ∧ m.lockpos = n % m.size
  | .relTest np => n = m.served ∧ m.lockpos = n % m.size ∧ np = n % m.size + 1
  | .relAddr np => n = m.served ∧ m.lockpos = n % m.size ∧ np = (n + 1) % m.size
  | .relClear np pos => n = m.served ∧ pos = n % m.size ∧ np = (n + 1) % m.size
  | .relSet np => n = m.served ∧ np = (n + 1) % m.size
  | _ => True

/-- `lk->next` is being moved -/
@[simp]
def Pc.moving : Pc → Prop
  | .acqStore _ | .acqTest _ | .acqWrap _ => True
  | _ => False

/-- from `l` to `l'` no ticket is taken or given up and the critical section is neither entered nor left -/
@[simp]
def Pc.Keeps (l l' : Pc) : Prop :=
  (l'.hasTicket ↔ l.hasTicket) ∧ (l'.inside ↔ l.inside) ∧ (∀ np, l ≠ .relSet np) ∧ ∀ np, l' ≠ .relSet np

/-- thread `i` holds the outstanding ticket `n` -/
abbrev HasTicket (s : St ι) (n : ℕ) (i : ι) : Prop := Outstanding s.mem.ticketed s.mem.served n i

/-- the mutex `m` and the ticket counter it protects -/
structure Mutex (size m next len : ℕ) (pc : ι → Pc) : Prop extends SpinLock Pc.inMutex m pc where
  next_eq : (∀ i, ¬ (pc i).moving) → next = len % size

/-- exactly the slot of the ticket being served is set, except between the two stores of a release -/
structure Slots (size served : ℕ) (lock : ℕ → ℕ) (pc : ι → Pc) : Prop where
  other : ∀ p < size, p ≠ served % size → lock p = 0
  set : (∀ i np, pc i ≠ .relSet np) → lock (served % size) = 1
  clear : ∀ i np, pc i = .relSet np → lock (served % size) = 0

/-- the threads that have entered: those served, and the one inside -/
structure Entered (ticketed entered : List ι) (served : ℕ) (pc : ι → Pc) : Prop where
  inside : ∀ i, (pc i).inside → entered = ticketed.take (served + 1)
  outside : (∀ i, ¬ (pc i).inside) → entered = ticketed.take served

structure Inv (size : ℕ) (s : St ι) : Prop where
  size_eq : s.mem.size = size
  served_le : s.mem.served ≤ s.mem.ticketed.length
  ticket_iff : ∀ i, (∃ n, HasTicket s n i) ↔ (s.pc i).hasTicket
  ticket_unique : ∀ n n' i, HasTicket s n i → HasTicket s n' i → n = n'
  ok : ∀ n i, HasTicket s n i → (s.pc i).ok s.mem n
  mutex : Mutex size s.mem.m s.mem.next s.mem.ticketed.length s.pc
  slots : Slots size s.mem.served s.mem.lock s.pc
  entered : Entered s.mem.ticketed s.mem.entered s.mem.served s.pc

theorem inv_init (size lockpos : ℕ) (mem : ℕ → ℕ) : Inv size (init size lockpos mem : St ι) := by
  refine ⟨rfl, by simp [init], ?_, ?_, ?_, ⟨⟨?_, ?_⟩, ?_⟩, ⟨?_, ?_, ?_⟩, ⟨?_, ?_⟩⟩ <;>
    simp [init, Outstanding]
  intro p hp hp0
  have : p ≠ 0 := by simpa [Nat.zero_mod] using hp0
  simp [this, hp]

theorem Pc.inMutex_of_moving {l : Pc} (h : l.moving) : l.inMutex := by
  cases l <;> simp_all

/-- what a thread knows depends on `lk->next` only while it holds the mutex, and on `lk->lockpos` only while it has the
lock -/
theorem Pc.ok_congr {m m' : Mem ι} {n : ℕ} {l : Pc} (hsize : m'.size = m.size) (hserved : m'.served = m.served)
    (hlen : l.inMutex → m'.ticketed.length = m.ticketed.length) (hnext : l.inMutex → m'.next = m.next)
    (hpos : l.inside → m'.lockpos = m.lockpos) (h : l.ok m n) : l.ok m' n := by
  cases l <;> simp_all [Pc.ok]; omega

section Serving

variable {size : ℕ} {s : St ι} {i j : ι}

/-- whoever has passed the spin holds the ticket that is being served -/
theorem Inv.serving (h : Inv size s) (hi : (s.pc i).inside ∨ ∃ pos, s.pc i = .acqPos pos) : HasTicket s s.mem.served i := by
  have hticket : (s.pc i).hasTicket := by
    rcases hi with hi | ⟨pos, hi⟩
    · cases hp : s.pc i <;> simp_all
    · rw [hi]; trivial
  obtain ⟨n, hn⟩ := (h.ticket_iff i).2 hticket
  have hok := h.ok n i hn
  have hns : n = s.mem.served := by
    rcases hi with hi | ⟨pos, hi⟩
    · cases hp : s.pc i <;> simp_all [Pc.ok]
    · rw [hi] at hok; exact hok.2
  rwa [← hns]

theorem Inv.inside_unique (h : Inv size s) (hi : (s.pc i).inside ∨ ∃ pos, s.pc i = .acqPos pos)
    (hj : (s.pc j).inside) : i = j :=
  (h.serving hi).inj (h.serving (Or.inl hj))

/-- a thread that finds its slot set holds the ticket that is being served: no other outstanding ticket has its slot -/
theorem Inv.my_turn (h : Inv size s) (hsize : 0 < size) (hlen : s.mem.ticketed.length ≤ s.mem.served + size) {n : ℕ}
    (hn : HasTicket s n i) (hset : s.mem.lock (n % size) ≠ 0) : n = s.mem.served := by
  have hpos : n % size = s.mem.served % size := by
    by_contra hne
    exact hset (h.slots.other _ (Nat.mod_lt n hsize) hne)
  have hserved : s.mem.served < s.mem.ticketed.length := hn.1.trans_lt hn.lt
  exact mod_inj_of_outstanding hlen hn ⟨le_rfl, List.getElem?_eq_getElem hserved⟩ hpos

end Serving

variable [DecidableEq ι]

/-! ### The three parts under a step of one thread -/

section Parts

variable {size m next len served : ℕ} {lock : ℕ → ℕ} {ticketed entered : List ι} {pc : ι → Pc} {i : ι} {l : Pc}

/-- a step outside the mutex does not touch the ticket counter -/
theorem Mutex.next_outside (h : Mutex size m next len pc) (hi : ¬ (pc i).inMutex)
    (hno : ∀ j, ¬ (update pc i l j).moving) : next = len % size := by
  refine h.next_eq fun j hj => ?_
  by_cases hji : j = i
  · subst hji; exact hi (Pc.inMutex_of_moving hj)
  · exact hno j (by simpa [hji] using hj)

theorem Mutex.outside (h : Mutex size m next len pc) (hi : ¬ (pc i).inMutex) (hl : ¬ l.inMutex) :
    Mutex size m next len (update pc i l) :=
  ⟨h.toSpinLock.outside hl, h.next_outside hi⟩

/-- taking the free mutex, or finding it taken -/
theorem Mutex.take (h : Mutex size m next len pc) (hi : ¬ (pc i).inMutex) (hm : m = 0 ∨ ¬ l.inMutex) :
    Mutex size 1 next len (update pc i l) :=
  ⟨h.toSpinLock.take hm, h.next_outside hi⟩

/-- a step of the thread that holds the mutex -/
theorem Mutex.inside (h : Mutex size m next len pc) (hi : (pc i).inMutex) {m' next' len' : ℕ}
    (hm : m' = m ∨ ¬ l.inMutex) (hnext : ¬ l.moving → next' = len' % size) :
    Mutex size m' next' len' (update pc i l) :=
  ⟨h.toSpinLock.inside hi hm, fun hno => hnext (by simpa using hno i)⟩

theorem Slots.keep (h : Slots size served lock pc) (hi : ∀ np, pc i ≠ .relSet np) (hl : ∀ np, l ≠ .relSet np) :
    Slots size served lock (update pc i l) := by
  refine ⟨h.other, fun hno => h.set fun j np => ?_, fun j np hj => ?_⟩
  · by_cases hji : j = i
    · subst hji; exact hi np
    · simpa [hji] using hno j np
  · by_cases hji : j = i
    · subst hji; exact absurd (by simpa using hj) (hl np)
    · exact h.clear j np (by simpa [hji] using hj)

theorem Entered.keep (h : Entered ticketed entered served pc) (hl : l.inside ↔ (pc i).inside) :
    Entered ticketed entered served (update pc i l) := by
  have hupd : ∀ j, (update pc i l j).inside ↔ (pc j).inside := by
    intro j
    by_cases hji : j = i
    · subst hji; simpa using hl
    · simp [hji]
  exact ⟨fun j hj => h.inside j ((hupd j).1 hj), fun hno => h.outside fun j hj => hno j ((hupd j).2 hj)⟩

end Parts

section Steps

variable {size : ℕ} {s : St ι} {i : ι}

/-- a step that takes no ticket and serves none keeps who has which ticket -/
theorem Inv.ticket_keep (h : Inv size s) {l : Pc} (hl : l.hasTicket ↔ (s.pc i).hasTicket) (j : ι) :
    (∃ n, HasTicket s n j) ↔ (update s.pc i l j).hasTicket := by
  by_cases hj : j = i
  · subst hj; rw [update_self, hl]; exact h.ticket_iff j
  · simpa [hj] using h.ticket_iff j

/-- a step that takes no ticket, serves none, leaves `lock[]` and `lockpos` alone and does not enter or leave the
critical section -/
theorem inv_keep (h : Inv size s) {mm nx : ℕ} {l : Pc} (hkeep : (s.pc i).Keeps l)
    (hok : ∀ n, HasTicket s n i → l.ok { s.mem with m := mm, next := nx } n)
    (hnext : nx = s.mem.next ∨ (s.pc i).inMutex)
    (hmutex : Mutex size mm nx s.mem.ticketed.length (update s.pc i l)) :
    Inv size ⟨{ s.mem with m := mm, next := nx }, update s.pc i l⟩ := by
  obtain ⟨hticket, hinside, hset, hset'⟩ := hkeep
  refine ⟨h.size_eq, h.served_le, h.ticket_keep hticket, h.ticket_unique, ?_, hmutex, h.slots.keep hset hset',
    h.entered.keep hinside⟩
  intro n j hn
  by_cases hj : j = i
  · subst hj; simpa using hok n hn
  · simp only [update_of_ne hj]
    refine Pc.ok_congr (m := s.mem) rfl rfl (fun _ => rfl) (fun hjm => ?_) (fun _ => rfl) (h.ok n j hn)
    rcases hnext with hnext | hi
    · exact hnext
    · exact absurd (h.mutex.unique j i hjm hi) hj

/-- the load of `lk->next` gives out the next ticket -/
theorem inv_ticket (h : Inv size s) (hp : s.pc i = .acqLoad) :
    Inv size ⟨{ s.mem with ticketed := s.mem.ticketed ++ [i] }, update s.pc i (.acqStore s.mem.next)⟩ := by
  have hi : (s.pc i).inMutex := by rw [hp]; trivial
  have hother : ∀ j, j ≠ i → ¬ (s.pc j).inMutex := fun j hj hj' => hj (h.mutex.unique j i hj' hi)
  have hnext : s.mem.next = s.mem.ticketed.length % size := by
    refine h.mutex.next_eq fun j hj => ?_
    by_cases hji : j = i
    · subst hji; rw [hp] at hj; exact hj
    · exact hother j hji (Pc.inMutex_of_moving hj)
  have hnone : ∀ n, ¬ HasTicket s n i := by
    intro n hn
    have := (h.ticket_iff i).1 ⟨n, hn⟩
    rw [hp] at this; exact this
  have happ : ∀ n j, Outstanding (s.mem.ticketed ++ [i]) s.mem.served n j ↔
      HasTicket s n j ∨ (n = s.mem.ticketed.length ∧ j = i) := fun n j => outstanding_append h.served_le
  refine ⟨h.size_eq, ?_, ?_, ?_, ?_, ?_, h.slots.keep (by simp [hp]) (by simp), ?_⟩
  · have := h.served_le; simp; omega
  · intro j
    by_cases hj : j = i
    · subst hj; simp [HasTicket, happ]
    · simpa [HasTicket, happ, hj] using h.ticket_iff j
  · intro n n' j hn hn'
    rcases (happ n j).1 hn with h1 | ⟨rfl, rfl⟩ <;> rcases (happ n' j).1 hn' with h2 | ⟨rfl, hj⟩
    · exact h.ticket_unique n n' j h1 h2
    · exact absurd (hj ▸ h1) (hnone n)
    · exact absurd h2 (hnone n')
    · rfl
  · intro n j hn
    rcases (happ n j).1 hn with h1 | ⟨rfl, rfl⟩
    · have hj : j ≠ i := by rintro rfl; exact hnone n h1
      simp only [update_of_ne hj]
      exact Pc.ok_congr (m := s.mem) rfl rfl (fun hjm => absurd hjm (hother j hj)) (fun _ => rfl) (fun _ => rfl)
        (h.ok n j h1)
    · simp [Pc.ok, hnext, h.size_eq]
  · exact h.mutex.inside hi (Or.inl rfl) (by simp)
  · have hkeep := h.entered.keep (i := i) (l := .acqStore s.mem.next) (by simp [hp])
    refine ⟨fun j hj => ?_, fun hno => ?_⟩
    · have hji : j ≠ i := by rintro rfl; simp at hj
      have hlt := (h.serving (Or.inl (by simpa [hji] using hj))).lt
      rw [List.take_append_of_le_length hlt]; exact hkeep.inside j hj
    · rw [List.take_append_of_le_length h.served_le]; exact hkeep.outside hno

/-- the store `lk->lockpos = pos`: the thread whose ticket is being served enters -/
theorem inv_enter (h : Inv size s) {pos : ℕ} (hp : s.pc i = .acqPos pos) :
    Inv size ⟨{ s.mem with lockpos := pos, entered := s.mem.entered ++ [i] }, update s.pc i (.held pos)⟩ := by
  have hi := h.serving (Or.inr ⟨pos, hp⟩)
  have hout : ∀ j, ¬ (s.pc j).inside := by
    intro j hj
    obtain rfl := h.inside_unique (Or.inr ⟨pos, hp⟩) hj
    rw [hp] at hj; exact hj
  have hok := h.ok _ i hi
  rw [hp] at hok
  refine ⟨h.size_eq, h.served_le, h.ticket_keep (by simp [hp]), h.ticket_unique, ?_,
    h.mutex.outside (by simp [hp]) (by simp), h.slots.keep (by simp [hp]) (by simp),
    ⟨fun j _ => ?_, fun hno => ?_⟩⟩
  · intro n j hn
    by_cases hj : j = i
    · subst hj
      obtain rfl := h.ticket_unique n _ j hn hi
      simpa [Pc.ok] using hok
    · simp only [update_of_ne hj]
      exact Pc.ok_congr (m := s.mem) rfl rfl (fun _ => rfl) (fun _ => rfl) (fun hji => absurd hji (hout j)) (h.ok n j hn)
  · show s.mem.entered ++ [i] = _
    rw [h.entered.outside hout, List.take_add_one, hi.2]
    rfl
  · exact absurd (by simp) (hno i)

/-- the store `lk->lock[pos] = 0` -/
theorem inv_clear (h : Inv size s) {np pos : ℕ} (hp : s.pc i = .relClear np pos) :
    Inv size ⟨{ s.mem with lock := update s.mem.lock pos 0 }, update s.pc i (.relSet np)⟩ := by
  have hi := h.serving (i := i) (Or.inl (by rw [hp]; trivial))
  have hok := h.ok _ i hi
  rw [hp] at hok
  obtain ⟨-, hpos, hnp⟩ := hok
  refine ⟨h.size_eq, h.served_le, h.ticket_keep (by simp [hp]), h.ticket_unique, ?_,
    h.mutex.outside (by simp [hp]) (by simp), ⟨fun p hps hpd => ?_, fun hno => ?_, ?_⟩,
    h.entered.keep (by simp [hp])⟩
  · intro n j hn
    by_cases hj : j = i
    · subst hj
      obtain rfl := h.ticket_unique n _ j hn hi
      simp [Pc.ok, hnp]
    · simp only [update_of_ne hj]
      exact Pc.ok_congr (m := s.mem) rfl rfl (fun _ => rfl) (fun _ => rfl) (fun _ => rfl) (h.ok n j hn)
  · rw [h.size_eq] at hpos
    simpa [show p ≠ pos from fun e => hpd (e.trans hpos)] using h.slots.other p hps hpd
  · exact absurd (by simp) (hno i np)
  · intro j np' _; simp [hpos, h.size_eq]

/-- the store `lk->lock[nextpos] = 1` serves the next ticket -/
theorem inv_set (h : Inv size s) {np : ℕ} (hp : s.pc i = .relSet np) :
    Inv size ⟨{ s.mem with lock := update s.mem.lock np 1, served := s.mem.served + 1 },
      update s.pc i .out⟩ := by
  have hin : (s.pc i).inside := by rw [hp]; trivial
  have hi := h.serving (Or.inl hin)
  have hok := h.ok _ i hi
  rw [hp] at hok
  obtain ⟨-, hnp⟩ := hok
  rw [h.size_eq] at hnp
  have hout : ∀ j, j ≠ i → ¬ (s.pc j).inside := fun j hj hj' => hj (h.inside_unique (Or.inl hj') hin)
  have hsucc : ∀ n j, Outstanding s.mem.ticketed (s.mem.served + 1) n j ↔ HasTicket s n j ∧ n ≠ s.mem.served :=
    fun n j => outstanding_succ
  refine ⟨h.size_eq, hi.lt, ?_, ?_, ?_, h.mutex.outside (by simp [hp]) (by simp),
    ⟨fun p hps hpd => ?_, fun _ => by simp [hnp], fun j np' hj => ?_⟩, ⟨fun j hj => ?_, fun _ => h.entered.inside i hin⟩⟩
  · intro j
    by_cases hj : j = i
    · subst hj
      simp only [HasTicket, hsucc, update_self, Pc.hasTicket, iff_false, not_exists, not_and, not_not]
      exact fun n hn => h.ticket_unique n _ j hn hi
    · simp only [HasTicket, hsucc, update_of_ne hj, ← h.ticket_iff j]
      constructor
      · rintro ⟨n, hn, -⟩; exact ⟨n, hn⟩
      · rintro ⟨n, hn⟩; exact ⟨n, hn, by rintro rfl; exact hj (hn.inj hi)⟩
  · intro n n' j hn hn'
    exact h.ticket_unique n n' j ((hsucc n j).1 hn).1 ((hsucc n' j).1 hn').1
  · intro n j hn
    obtain ⟨hnj, hne⟩ := (hsucc n j).1 hn
    have hj : j ≠ i := by rintro rfl; exact hne (h.ticket_unique n _ j hnj hi)
    have hjok := h.ok n j hnj
    simp only [update_of_ne hj]
    -- a thread whose ticket is not being served knows nothing about `served`
    cases hpj : s.pc j <;> simp_all [Pc.ok]
    omega
  · have hpn : p ≠ np := fun e => hpd (e.trans hnp)
    by_cases hpd' : p = s.mem.served % size
    · subst hpd'; simpa [hpn] using h.slots.clear i np hp
    · simpa [hpn] using h.slots.other p hps hpd'
  · by_cases hji : j = i
    · subst hji; simp at hj
    · simp only [update_of_ne hji] at hj
      exact absurd (by rw [hj]; trivial) (hout j hji)
  · by_cases hji : j = i
    · subst hji; simp at hj
    · exact absurd (by simpa [hji] using hj) (hout j hji)

end Steps

section Runs

variable {size : ℕ} {s : St ι} {i : ι}

/-- a step that changes nothing but the thread's own control state -/
theorem inv_quiet (h : Inv size s) {l : Pc} (hi : ¬ (s.pc i).inMutex) (hl : ¬ l.inMutex) (hkeep : (s.pc i).Keeps l)
    (hok : ∀ n, HasTicket s n i → l.ok s.mem n) : Inv size ⟨s.mem, update s.pc i l⟩ :=
  inv_keep h hkeep hok (Or.inl rfl) (h.mutex.outside hi hl)

/-- the steps of acquire between taking and giving back the mutex -/
theorem inv_inMutex (h : Inv size s) {mm nx : ℕ} {l : Pc} (hi : (s.pc i).inMutex) (hkeep : (s.pc i).Keeps l)
    (hok : ∀ n, HasTicket s n i → l.ok { s.mem with m := mm, next := nx } n) (hmm : mm = s.mem.m ∨ ¬ l.inMutex)
    (hnext : ¬ l.moving → nx = s.mem.ticketed.length % size) :
    Inv size ⟨{ s.mem with m := mm, next := nx }, update s.pc i l⟩ :=
  inv_keep h hkeep hok (Or.inr hi) (h.mutex.inside hi hmm hnext)

theorem step_inv (hsize : 0 < size) (h32 : size < 2 ^ 32) (h : Inv size s)
    (hlen : s.mem.ticketed.length ≤ s.mem.served + size) (i : ι) : Inv size (step s i) := by
  have hsz := h.size_eq
  have hmod : ∀ n, n % size < size := fun n => Nat.mod_lt n hsize
  have hok : ∀ n, HasTicket s n i → (s.pc i).ok s.mem n := fun n => h.ok n i
  have hticket : (s.pc i).hasTicket → ∃ n, HasTicket s n i := (h.ticket_iff i).2
  cases hp : s.pc i with
  | out =>
    rw [step, Threads.step_eq (by rw [hp, prog])]
    exact inv_quiet h (by simp [hp]) (by simp) (by simp [hp]) (fun n _ => trivial)
  | acqLock =>
    rw [step, Threads.step_ite (by rw [hp, prog])]
    split_ifs with h0
    · exact inv_keep h (by simp [hp]) (fun n _ => trivial) (Or.inl rfl)
        (h.mutex.take (by simp [hp]) (Or.inl h0))
    · exact inv_keep h (by simp [hp]) (fun n _ => trivial) (Or.inl rfl)
        (h.mutex.take (by simp [hp]) (Or.inr (by simp)))
  | acqLoad =>
    rw [step, Threads.step_eq (by rw [hp, prog])]
    exact inv_ticket h hp
  | acqStore pos =>
    rw [step, Threads.step_eq (by rw [hp, prog])]
    refine inv_inMutex h (by simp [hp]) (by simp [hp]) (fun n hn => ?_) (Or.inl rfl) (by simp)
    rw [hp] at hok
    obtain ⟨hpos, hlast, -⟩ := hok n hn
    refine ⟨hpos, hlast, Nat.mod_eq_of_lt ?_⟩
    have := hmod n
    rw [hsz] at hpos; omega
  | acqTest pos =>
    rw [step, Threads.step_ite (by rw [hp, prog])]
    rw [hp] at hok hticket
    split_ifs with hwrap
    · refine inv_inMutex h (by simp [hp]) (by simp [hp]) (fun n hn => ?_) (Or.inl rfl) (by simp)
      obtain ⟨hpos, hlast, hnext⟩ := hok n hn
      exact ⟨hpos, hlast, hnext, hwrap⟩
    · refine inv_inMutex h (by simp [hp]) (by simp [hp]) (fun n hn => ⟨(hok n hn).1, (hok n hn).2.1⟩) (Or.inl rfl)
        fun _ => ?_
      obtain ⟨n, hn⟩ := hticket trivial
      obtain ⟨hpos, hlast, hnext⟩ := hok n hn
      rw [hsz] at hpos hwrap
      rw [← hlast, succ_mod_eq_ite hsize, if_neg (by omega), hnext, hpos]
  | acqWrap pos =>
    rw [step, Threads.step_eq (by rw [hp, prog])]
    rw [hp] at hok hticket
    refine inv_inMutex h (by simp [hp]) (by simp [hp]) (fun n hn => ⟨(hok n hn).1, (hok n hn).2.1⟩) (Or.inl rfl)
      fun _ => ?_
    obtain ⟨n, hn⟩ := hticket trivial
    obtain ⟨hpos, hlast, hnext, hwrap⟩ := hok n hn
    rw [hsz] at hpos hwrap
    rw [← hlast, succ_mod_eq_ite hsize, if_pos (by omega)]
  | acqUnlock pos =>
    rw [step, Threads.step_eq (by rw [hp, prog])]
    have hi : (s.pc i).inMutex := by simp [hp]
    refine inv_inMutex h hi (by simp [hp]) (fun n hn => ?_) (Or.inr (by simp)) fun _ => h.mutex.next_eq fun j hj => ?_
    · rw [hp] at hok; exact (hok n hn).1
    · obtain rfl := h.mutex.unique j i (Pc.inMutex_of_moving hj) hi
      simp [hp] at hj
  | acqWait pos =>
    rw [step, Threads.step_ite (by rw [hp, prog])]
    rw [hp] at hok
    split_ifs with h0
    · exact inv_quiet h (by simp [hp]) (by simp) (by simp [hp]) (fun n hn => hok n hn)
    · refine inv_quiet h (by simp [hp]) (by simp) (by simp [hp]) (fun n hn => ⟨hok n hn, ?_⟩)
      have hpos : pos = n % s.mem.size := hok n hn
      exact h.my_turn hsize hlen hn (by rwa [← hsz, ← hpos])
  | acqPos pos =>
    rw [step, Threads.step_eq (by rw [hp, prog])]
    exact inv_enter h hp
  | held pos =>
    rw [step, Threads.step_eq (by rw [hp, prog])]
    refine inv_quiet h (by simp [hp]) (by simp) (by simp [hp]) (fun n hn => ?_)
    rw [hp] at hok
    obtain ⟨hpos, hn, hlp⟩ := hok n hn
    exact ⟨hn, hlp.trans hpos⟩
  | relLoad =>
    rw [step, Threads.step_eq (by rw [hp, prog])]
    refine inv_quiet h (by simp [hp]) (by simp) (by simp [hp]) (fun n hn => ?_)
    rw [hp] at hok
    obtain ⟨hn, hlp⟩ := hok n hn
    refine ⟨hn, hlp, ?_⟩
    have := hmod n
    rw [hlp, hsz, Nat.mod_eq_of_lt (by omega)]
  | relTest np =>
    rw [step, Threads.step_ite (by rw [hp, prog])]
    rw [hp] at hok
    have hnp : ∀ n, HasTicket s n i → (n + 1) % s.mem.size = if np = s.mem.size then 0 else np := by
      intro n hn
      obtain ⟨-, -, hnp⟩ := hok n hn
      rw [succ_mod_eq_ite (hsz ▸ hsize), hnp]
    split_ifs with hwrap
    · refine inv_quiet h (by simp [hp]) (by simp) (by simp [hp]) (fun n hn => ⟨(hok n hn).1, (hok n hn).2.1, ?_⟩)
      rw [hnp n hn, if_pos hwrap]
    · refine inv_quiet h (by simp [hp]) (by simp) (by simp [hp]) (fun n hn => ⟨(hok n hn).1, (hok n hn).2.1, ?_⟩)
      rw [hnp n hn, if_neg hwrap]
  | relAddr np =>
    rw [step, Threads.step_eq (by rw [hp, prog])]
    rw [hp] at hok
    exact inv_quiet h (by simp [hp]) (by simp) (by simp [hp]) (fun n hn => hok n hn)
  | relClear np pos =>
    rw [step, Threads.step_eq (by rw [hp, prog])]
    exact inv_clear h hp
  | relSet np =>
    rw [step, Threads.step_eq (by rw [hp, prog])]
    exact inv_set h hp

theorem inv_run [Fintype ι] (hsize : 0 < size) (h32 : size < 2 ^ 32) (hcard : Fintype.card ι ≤ size) (lockpos : ℕ)
    (mem : ℕ → ℕ) (sched : List ι) : Inv size (run step (init size lockpos mem) sched) := by
  refine run_inv (I := Inv size) (fun s i h => step_inv hsize h32 h ?_ i) _ (inv_init size lockpos mem) sched
  exact (length_le_of_unique h.ticket_unique).trans (by omega)

end Runs

/-! ## Main result -/

/-- what the array lock promises in a state -/
structure Safe (size : ℕ) (s : St ι) : Prop where
  /-- at most one thread is in the critical section -/
  exclusive : {i | ∃ pos, s.pc i = .held pos}.Subsingleton
  /-- at most one entry of `lock[]` is 1 -/
  one_set : {p | p < size ∧ s.mem.lock p = 1}.Subsingleton
  /-- the holder's own ticket is in `lockpos` -/
  own_ticket : ∀ i pos, s.pc i = .held pos → s.mem.lockpos = pos
  /-- threads have entered in the order in which they took their tickets -/
  in_order : s.mem.entered <+: s.mem.ticketed

/-- **Safety of the array lock.** -/
theorem arraylock_safe [Fintype ι] (size : ℕ) (hsize : 1 ≤ size) (h32 : size < 2 ^ 32)
    (hcard : Fintype.card ι ≤ size) (lockpos : ℕ) (mem : ℕ → ℕ) (sched : List ι) :
    Safe size (run step (init size lockpos mem) sched) := by
  have h := inv_run hsize h32 hcard lockpos mem sched
  set s := run step (init size lockpos mem) sched
  refine ⟨?_, ?_, ?_, ?_⟩
  · rintro i ⟨pos, hi⟩ j ⟨pos', hj⟩
    exact h.inside_unique (Or.inl (by simp [hi])) (by simp [hj])
  · have hserving : ∀ p, p < size → s.mem.lock p = 1 → p = s.mem.served % size := by
      intro p hp hset
      by_contra hne
      simp [h.slots.other p hp hne] at hset
    rintro p ⟨hp, hp1⟩ p' ⟨hp', hp1'⟩
    rw [hserving p hp hp1, hserving p' hp' hp1']
  · intro i pos hi
    have hok := h.ok _ i (h.serving (Or.inl (by simp [hi])))
    rw [hi] at hok
    exact hok.2.2
  · by_cases hin : ∃ i, (s.pc i).inside
    · obtain ⟨i, hi⟩ := hin
      rw [h.entered.inside i hi]
      exact List.take_prefix _ _
    · rw [h.entered.outside (by simpa using hin)]
      exact List.take_prefix _ _

/-- two threads on a lock of size 2: each takes a ticket, the first enters, and the second spins -/
theorem arraylock_safe_two :
    let s := run step (init 2 7 fun _ => 5) [(0 : Fin 2), 0, 0, 1, 0, 0, 0, 0, 0, 1, 1, 1, 1, 1, 1]
    s.pc 0 = .held 0 ∧ s.pc 1 = .acqWait 1 ∧ s.mem.ticketed = [0, 1] ∧ Safe 2 s :=
  ⟨by decide, by decide, by decide, arraylock_safe 2 (by decide) (by decide) (by decide) 7 (fun _ => 5) _⟩

/-- **No deadlock.** While any thread has a ticket there is one whose ticket is being served, and it does not spin: its own slot is set
when it comes to it, so its next step takes it further. -/
theorem arraylock_progress [Fintype ι] (size : ℕ) (hsize : 1 ≤ size) (h32 : size < 2 ^ 32) (hcard : Fintype.card ι ≤ size) (lockpos : ℕ)
    (mem : ℕ → ℕ) (sched : List ι) (i : ι) (hi : ((run step (init size lockpos mem) sched).pc i).hasTicket) :
    let s := run step (init size lockpos mem) sched
    ∃ j, s.mem.ticketed[s.mem.served]? = some j ∧ (step s j).pc j ≠ s.pc j := by
  have h := inv_run hsize h32 hcard lockpos mem sched
  generalize run step (init size lockpos mem) sched = s at h hi
  obtain ⟨n, hn⟩ := (h.ticket_iff i).2 hi
  obtain ⟨j, hj⟩ : ∃ j, HasTicket s s.mem.served j := ⟨_, le_rfl, List.getElem?_eq_getElem (hn.1.trans_lt hn.lt)⟩
  refine ⟨j, hj.2, ?_⟩
  have hok := h.ok _ j hj
  have hticket := (h.ticket_iff j).1 ⟨_, hj⟩
  rw [Threads.step_pc_self]
  cases hp : s.pc j with
  | out | acqLock | acqLoad => rw [hp] at hticket; exact hticket.elim
  | acqWait pos =>
    -- nobody is between the two stores of a release: that would be `j` itself
    have hset : s.mem.lock (s.mem.served % size) = 1 := h.slots.set fun k np hk => by
      have hkj := (h.serving (.inl (by rw [hk]; trivial))).inj hj
      rw [hkj, hp] at hk
      cases hk
    rw [hp] at hok
    have hpos : pos = s.mem.served % size := h.size_eq ▸ hok
    simp [prog, hpos, hset]
  | acqTest | relTest => simp only [prog]; split <;> simp
  | _ => simp [prog]

theorem arraylock_progress_one : let s := run step (init 1 0 fun _ => 0) [(0 : Fin 1), 0, 0]
    ∃ j, s.mem.ticketed[s.mem.served]? = some j ∧ (step s j).pc j ≠ s.pc j :=
  arraylock_progress 1 le_rfl (by decide) (by decide) 0 _ _ 0 trivial

end Xv6.ArrayLock
