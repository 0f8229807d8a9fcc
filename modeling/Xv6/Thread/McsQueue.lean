/-
The queue of the MCS lock of `libthread.c`: what `lk->next` and the `qnode` pointers mean, and when that meaning is lost.

The release emulates a compare-and-swap: it loads `lk->next`, and if it finds its own `qnode` there it stores NULL. The
side spinlock `lk->spin` serialises releases only; acquire does not take it. So an xchg of an acquire may fall between
the load and the store, and the store then drops the arriving thread.

- `lost_waiter`: the three-step interleaving. `lk->next` is NULL although a thread is queued, and a thread that arrives
  later enters before it.
- `queue_of_run`: in every run in which no xchg falls into that window (`NoRace`), the threads between their xchg and
  the end of their release form a queue: `lk->next` is its last element, each element but the last is linked to the
  next or is about to be, only the first has the lock.
- `fifo_and_no_lost_waiter`: so in those runs `lk->next` is NULL only when nobody is queued, and threads enter in the
  order of their xchg (`InOrder`).
-/
import Xv6.Core.Lists
import Xv6.Thread.McsLock

namespace Xv6.McsLock

open Xv6.Core

variable {ι : Type*}

/-! ## The queue -/

/-- from the xchg on `lk->next` until the release has given the lock away (`lk->next = NULL`, or the successor's
`spin = 1`). What is left of a release after `lk->next = NULL` is the unlock of `lk->spin`. -/
def Pc.queued (i : ι) : Pc ι → Prop
  | .out | .acqNext | .acqSpin | .acqXchg | .fault => False
  | .relUnlock t => t ≠ some i
  | _ => True

/-- queued, and acquire has not returned -/
def Pc.waiting : Pc ι → Prop
  | .acqLink _ | .acqWait => True
  | _ => False

/-- `b` stands right behind `a`: it is about to store itself into `a`'s `next`, or it has done so and waits -/
def Linked (s : St ι) (a b : ι) : Prop :=
  (s.pc b = .acqLink a ∧ s.mem.qnext a = none) ∨ (s.pc b = .acqWait ∧ s.mem.qnext a = some b)

/-- the members of `q` that have not entered yet: all but the first, and the first if it has not seen its `spin` -/
def notEntered [DecidableEq ι] (s : St ι) : List ι → List ι
  | [] => []
  | i :: t => if s.pc i = .acqWait then i :: t else t

/-- what a thread knows of its own `qnode` -/
def Pc.own (next : Option ι) (spin : ℕ) : Pc ι → Prop
  | .acqSpin => next = none
  | .acqXchg => next = none ∧ spin = 0
  | .relNext => next ≠ none
  | _ => True

structure Queue [DecidableEq ι] (s : St ι) (q : List ι) : Prop where
  nodup : q.Nodup
  mem_iff : ∀ i, i ∈ q ↔ (s.pc i).queued i
  tail_eq : s.mem.next = q.getLast?
  links : q.IsChain (Linked s)
  last_none : ∀ i, q.getLast? = some i → s.mem.qnext i = none
  head_ready : ∀ i, q.head? = some i → (∀ t, s.pc i ≠ .acqLink t) ∧ (s.pc i = .acqWait → s.mem.qspin i ≠ 0)
  rest_spin : ∀ i ∈ q.tail, s.mem.qspin i = 0
  own : ∀ i, (s.pc i).own (s.mem.qnext i) (s.mem.qspin i)
  alone : ∀ i, s.pc i = .relClear → q = [i]
  pass : ∀ i n, s.pc i = .relPass n → ∃ t, q = i :: n :: t ∧ s.pc n = .acqWait
  history : s.mem.arrived = s.mem.entered ++ notEntered s q

theorem waiting_of_mem_tail {s : St ι} {q : List ι} (h : q.IsChain (Linked s)) {i : ι} (hi : i ∈ q.tail) : (s.pc i).waiting := by
  obtain ⟨l1, a, l2, hq⟩ := exists_pred hi
  rcases List.isChain_iff_forall_rel_of_append_cons_cons.1 h hq with ⟨hpc, -⟩ | ⟨hpc, -⟩ <;> rw [hpc] <;> trivial

variable [DecidableEq ι]

/-- a member that does not wait is the first -/
theorem Queue.eq_cons {s : St ι} {q : List ι} (h : Queue s q) {i : ι} (hq : (s.pc i).queued i)
    (hw : ¬ (s.pc i).waiting) : ∃ t, q = i :: t := by
  have hi := (h.mem_iff i).2 hq
  cases q with
  | nil => simp at hi
  | cons a t =>
    rcases List.mem_cons.1 hi with rfl | hi
    · exact ⟨t, rfl⟩
    · exact absurd (waiting_of_mem_tail h.links (by simpa using hi)) hw

theorem queue_init (qnext : ι → Option ι) (qspin : ι → ℕ) : Queue (init qnext qspin) [] := by
  constructor <;> simp [init, Pc.queued, Pc.own, notEntered]

/-! ## What each step does to the queue -/

section Steps

variable {s : St ι} {q : List ι} {i : ι}

variable {m : Mem ι} {l : Pc ι}

/-- a thread outside the queue touches its own `qnode` only -/
theorem queue_outside (h : Queue s q) (hi : ¬ (s.pc i).queued i) (hl : ¬ l.queued i)
    (hnext : m.next = s.mem.next) (hqn : ∀ k, k ≠ i → m.qnext k = s.mem.qnext k)
    (hqs : ∀ k, k ≠ i → m.qspin k = s.mem.qspin k) (ha : m.arrived = s.mem.arrived) (he : m.entered = s.mem.entered)
    (hown : l.own (m.qnext i) (m.qspin i)) : Queue ⟨m, update s.pc i l⟩ q := by
  have hiq : i ∉ q := fun hm => hi ((h.mem_iff i).1 hm)
  have hne : ∀ k ∈ q, k ≠ i := by rintro k hk rfl; exact hiq hk
  constructor
  · exact h.nodup
  · intro k
    by_cases hk : k = i
    · subst hk; simp [hiq, hl]
    · simpa [hk] using h.mem_iff k
  · rw [← h.tail_eq]; exact hnext
  · refine h.links.imp_of_mem_imp fun a b ha hb hab => ?_
    simpa [Linked, hne b hb, hqn a (hne a ha)] using hab
  · intro k hk
    show m.qnext k = none
    rw [hqn k (hne k (List.mem_of_getLast? hk))]; exact h.last_none k hk
  · intro k hk
    have hki := hne k (List.mem_of_head? hk)
    simpa [hki, hqs k hki] using h.head_ready k hk
  · intro k hk
    show m.qspin k = 0
    rw [hqs k (hne k (List.mem_of_mem_tail hk))]; exact h.rest_spin k hk
  · intro k
    by_cases hki : k = i
    · subst hki; simpa using hown
    · simpa [hki, hqn k hki, hqs k hki] using h.own k
  · intro k hk
    by_cases hki : k = i
    · subst hki; simp at hk; subst hk; simp [Pc.queued] at hl
    · exact h.alone k (by simpa [hki] using hk)
  · intro k n hk
    by_cases hki : k = i
    · subst hki; simp at hk; subst hk; simp [Pc.queued] at hl
    · obtain ⟨t, rfl, hn⟩ := h.pass k n (by simpa [hki] using hk)
      exact ⟨t, rfl, by simpa [hne n (by simp)] using hn⟩
  · rw [ha, he, h.history]
    cases q with
    | nil => rfl
    | cons a t => simp [notEntered, hne a (by simp)]

/-- the first of the queue moves on inside the critical section or its release and leaves the queue memory alone -/
theorem queue_head {t : List ι} (h : Queue s (i :: t)) (hl : l.queued i) (hw : ¬ l.waiting)
    (hnext : m.next = s.mem.next) (hqn : m.qnext = s.mem.qnext) (hqs : m.qspin = s.mem.qspin)
    (hhist : m.arrived = m.entered ++ t) (hown : l.own (m.qnext i) (m.qspin i)) (hclear : l = .relClear → t = [])
    (hpass : ∀ n, l = .relPass n → m.qnext i = some n) : Queue ⟨m, update s.pc i l⟩ (i :: t) := by
  have hit : i ∉ t := (List.nodup_cons.1 h.nodup).1
  have hne : ∀ k ∈ t, k ≠ i := by rintro k hk rfl; exact hit hk
  have hwl : l ≠ .acqWait ∧ ∀ a, l ≠ .acqLink a := by
    constructor
    · rintro rfl; exact hw trivial
    · rintro a rfl; exact hw trivial
  constructor
  · exact h.nodup
  · intro k
    by_cases hk : k = i
    · subst hk; simp [hl]
    · simpa [hk] using h.mem_iff k
  · rw [← h.tail_eq]; exact hnext
  · refine h.links.imp_of_mem_tail_imp fun a b ha hb hab => ?_
    simpa [Linked, hne b (by simpa using hb), hqn] using hab
  · intro k hk; show m.qnext k = none; rw [hqn]; exact h.last_none k hk
  · intro k hk; simp at hk; subst hk; simp [hwl]
  · intro k hk; show m.qspin k = 0; rw [hqs]; exact h.rest_spin k hk
  · intro k
    by_cases hki : k = i
    · subst hki; simpa using hown
    · simpa [hki, hqn, hqs] using h.own k
  · intro k hk
    by_cases hki : k = i
    · subst hki; rw [hclear (by simpa using hk)]
    · exact h.alone k (by simpa [hki] using hk)
  · intro k n hk
    by_cases hki : k = i
    · -- the pointer just loaded is the link to the second of the queue
      subst hki
      have hn : s.mem.qnext k = some n := by rw [← hqn]; exact hpass n (by simpa using hk)
      cases t with
      | nil => exact absurd hn (by rw [h.last_none k (by simp)]; simp)
      | cons b t =>
        rcases (List.isChain_cons_cons.1 h.links).1 with ⟨-, hb⟩ | ⟨hb, hkb⟩
        · rw [hb] at hn; simp at hn
        · have hbn : b = n := by rw [hkb] at hn; simpa using hn
          subst hbn
          exact ⟨t, rfl, by simpa [hne b (by simp)] using hb⟩
    · obtain ⟨t', e, hn⟩ := h.pass k n (by simpa [hki] using hk)
      exact absurd (List.cons.inj e).1.symm hki
  · rw [hhist]; simp [notEntered, hwl]

/-- the load of `lk->next` finds the thread's own `qnode` only when nobody stands behind it -/
theorem Queue.eq_singleton {t : List ι} (h : Queue s (i :: t)) (hn : s.mem.next = some i) : t = [] := by
  cases t with
  | nil => rfl
  | cons b t => exact absurd (h.tail_eq ▸ hn) (getLast_ne_of_succ h.nodup (List.nil_append _).symm)

/-- the xchg: the thread joins at the end, and has the lock if it is alone. No release may be about to clear
`lk->next` on the strength of an earlier load. -/
theorem queue_xchg (h : Queue s q) (hp : s.pc i = .acqXchg) (hrace : ∀ j, s.pc j ≠ .relClear) {e : List ι}
    (hl : q = [] ∧ l = .held ∧ e = s.mem.entered ++ [i] ∨
      ∃ a, q.getLast? = some a ∧ l = .acqLink a ∧ e = s.mem.entered) :
    Queue ⟨{ s.mem with next := some i, arrived := s.mem.arrived ++ [i], entered := e }, update s.pc i l⟩
      (q ++ [i]) := by
  have hiq : i ∉ q := fun hm => by simpa [hp, Pc.queued] using (h.mem_iff i).1 hm
  have hne : ∀ k ∈ q, k ≠ i := by rintro k hk rfl; exact hiq hk
  have hfresh : s.mem.qnext i = none ∧ s.mem.qspin i = 0 := by have := h.own i; rwa [hp] at this
  have hlq : l.queued i ∧ l ≠ .relClear ∧ (∀ n, l ≠ .relPass n) ∧ ∀ a v, l.own a v := by
    rcases hl with ⟨-, rfl, -⟩ | ⟨a, -, rfl, -⟩ <;> simp [Pc.queued, Pc.own]
  constructor
  · exact List.Nodup.append h.nodup (List.nodup_singleton i) (by simpa using hiq)
  · intro k
    by_cases hk : k = i
    · subst hk; simp [hlq.1]
    · simpa [hk] using h.mem_iff k
  · simp
  · refine List.IsChain.append ?_ (List.isChain_singleton i) ?_
    · refine h.links.imp_of_mem_imp fun a b ha hb hab => ?_
      simpa [Linked, hne b hb] using hab
    · intro a ha b hb
      simp only [List.head?_cons, Option.mem_def, Option.some.injEq] at hb
      subst hb
      rcases hl with ⟨rfl, -⟩ | ⟨a', ha', rfl, -⟩
      · simp at ha
      · have haa : a' = a := by rw [Option.mem_def, ha'] at ha; simpa using ha
        subst haa
        exact Or.inl ⟨by simp, h.last_none a' ha'⟩
  · intro k hk
    have hki : k = i := by simpa using hk.symm
    subst hki; exact hfresh.1
  · intro k hk
    rcases hl with ⟨rfl, rfl, -⟩ | ⟨a, ha, -, -⟩
    · have hki : k = i := by simpa using hk.symm
      subst hki; simp
    · cases q with
      | nil => simp at ha
      | cons c t =>
        have hkc : k = c := by simpa using hk.symm
        subst hkc
        simpa [hne k (by simp)] using h.head_ready k (by simp)
  · intro k hk
    cases q with
    | nil => simp at hk
    | cons c t =>
      simp only [List.cons_append, List.tail_cons, List.mem_append, List.mem_singleton] at hk
      rcases hk with hk | rfl
      · exact h.rest_spin k hk
      · exact hfresh.2
  · intro k
    by_cases hki : k = i
    · subst hki; simpa using hlq.2.2.2 _ _
    · simpa [hki] using h.own k
  · intro k hk
    by_cases hki : k = i
    · subst hki; simp [hlq] at hk
    · exact absurd (by simpa [hki] using hk) (hrace k)
  · intro k n hk
    by_cases hki : k = i
    · subst hki; simp [hlq] at hk
    · obtain ⟨t, rfl, hn⟩ := h.pass k n (by simpa [hki] using hk)
      exact ⟨t ++ [i], rfl, by simpa [hne n (by simp)] using hn⟩
  · rcases hl with ⟨rfl, rfl, rfl⟩ | ⟨a, ha, rfl, rfl⟩
    · simp [h.history, notEntered]
    · cases q with
      | nil => simp at ha
      | cons c t =>
        simp only [h.history, notEntered, List.cons_append, update_of_ne (hne c (by simp))]
        split_ifs <;> simp

/-- the late store `tail->next = qnode` completes the link it was about to make -/
theorem queue_link (h : Queue s q) {a : ι} (hp : s.pc i = .acqLink a) :
    Queue ⟨{ s.mem with qnext := update s.mem.qnext a (some i) }, update s.pc i .acqWait⟩ q := by
  have hi : i ∈ q := (h.mem_iff i).2 (by rw [hp]; trivial)
  have hrel := List.isChain_iff_forall_rel_of_append_cons_cons.1 h.links
  -- `i` is not first, and the one in front of it is `a`
  obtain ⟨l1, l2, hq⟩ : ∃ l1 l2, q = l1 ++ a :: i :: l2 := by
    have hit : i ∈ q.tail := by
      cases q with
      | nil => simp at hi
      | cons c t =>
        rcases List.mem_cons.1 hi with rfl | hi
        · exact absurd hp ((h.head_ready i rfl).1 a)
        · exact hi
    obtain ⟨l1, c, l2, hq⟩ := exists_pred hit
    rcases hrel hq with ⟨hc, -⟩ | ⟨hc, -⟩
    · obtain rfl : a = c := by rw [hp] at hc; simpa using hc
      exact ⟨l1, l2, hq⟩
    · rw [hp] at hc; simp at hc
  have hai : a ≠ i := by
    rintro rfl
    have hnd := h.nodup
    rw [hq] at hnd
    simp [List.nodup_append] at hnd
  have haq : (s.pc a).queued a := (h.mem_iff a).1 (by rw [hq]; simp)
  constructor
  · exact h.nodup
  · intro k
    by_cases hk : k = i
    · subst hk; simp [hi, Pc.queued]
    · simpa [hk] using h.mem_iff k
  · exact h.tail_eq
  · rw [List.isChain_iff_forall_rel_of_append_cons_cons]
    intro c b u v hcb
    have hlink := hrel hcb
    by_cases hb : b = i
    · subst hb
      rcases hlink with ⟨hc, -⟩ | ⟨hc, -⟩
      · obtain rfl : a = c := by rw [hp] at hc; simpa using hc
        exact Or.inr ⟨by simp, by simp⟩
      · rw [hp] at hc; simp at hc
    · have hca : c ≠ a := by rintro rfl; exact hb (succ_unique h.nodup hcb hq)
      simpa [Linked, hb, hca] using hlink
  · intro k hk
    have hka : k ≠ a := by rintro rfl; exact getLast_ne_of_succ h.nodup hq hk
    simpa [hka] using h.last_none k hk
  · intro k hk
    have hki : k ≠ i := by rintro rfl; exact (h.head_ready k hk).1 a hp
    simpa [hki] using h.head_ready k hk
  · exact h.rest_spin
  · intro k
    have hk := h.own k
    by_cases hki : k = i
    · subst hki; simp [Pc.own]
    · by_cases hka : k = a
      · subst hka
        simp only [update_of_ne hki, update_self]
        cases hpk : s.pc k <;> simp_all [Pc.own, Pc.queued]
      · simpa [hki, hka] using hk
  · intro k hk
    by_cases hki : k = i
    · subst hki; simp at hk
    · exact h.alone k (by simpa [hki] using hk)
  · intro k n hk
    by_cases hki : k = i
    · subst hki; simp at hk
    · obtain ⟨t, ht, hn⟩ := h.pass k n (by simpa [hki] using hk)
      exact ⟨t, ht, by by_cases hni : n = i <;> simp_all⟩
  · rw [h.history]
    cases q with
    | nil => rfl
    | cons c t =>
      have hci : c ≠ i := by rintro rfl; exact (h.head_ready c rfl).1 a hp
      simp [notEntered, hci]

/-- the first of the queue sees its `spin` and enters -/
theorem queue_enter (h : Queue s q) (hp : s.pc i = .acqWait) (hspin : s.mem.qspin i ≠ 0) :
    Queue ⟨{ s.mem with entered := s.mem.entered ++ [i] }, update s.pc i .held⟩ q := by
  have hi : i ∈ q := (h.mem_iff i).2 (by rw [hp]; trivial)
  obtain ⟨t, rfl⟩ : ∃ t, q = i :: t := by
    cases q with
    | nil => simp at hi
    | cons a t =>
      rcases List.mem_cons.1 hi with rfl | hi
      · exact ⟨t, rfl⟩
      · exact absurd (h.rest_spin i hi) hspin
  refine queue_head h trivial (fun h => h) rfl rfl rfl ?_ trivial ?_ ?_ <;> simp [h.history, notEntered, hp]

/-- the store `lk->next = NULL` of a release that is alone -/
theorem queue_clear (h : Queue s q) (hp : s.pc i = .relClear) :
    Queue ⟨{ s.mem with next := none }, update s.pc i (.relUnlock (some i))⟩ [] := by
  have hq := h.alone i hp
  subst hq
  have hnot : ∀ k, k ≠ i → ¬ (s.pc k).queued k := fun k hk hkq => hk (by simpa using (h.mem_iff k).2 hkq)
  constructor
  · exact List.nodup_nil
  · intro k
    by_cases hk : k = i
    · subst hk; simp [Pc.queued]
    · simpa [hk] using hnot k hk
  · rfl
  · exact List.isChain_nil
  · simp
  · simp
  · simp
  · intro k
    by_cases hki : k = i
    · subst hki; simp [Pc.own]
    · simpa [hki] using h.own k
  · intro k hk
    by_cases hki : k = i
    · subst hki; simp at hk
    · exact absurd (by simp [update_of_ne hki] at hk; rw [hk]; trivial) (hnot k hki)
  · intro k n hk
    by_cases hki : k = i
    · subst hki; simp at hk
    · exact absurd (by simp [update_of_ne hki] at hk; rw [hk]; trivial) (hnot k hki)
  · simp [h.history, notEntered, hp]

/-- the store `n->spin = 1`: the first leaves, the second may enter -/
theorem queue_pass (h : Queue s q) {n : ι} (hp : s.pc i = .relPass n) :
    ∃ t, Queue ⟨{ s.mem with qspin := update s.mem.qspin n 1 }, update s.pc i .out⟩ (n :: t) := by
  obtain ⟨t, rfl, hn⟩ := h.pass i n hp
  have hnd := h.nodup
  simp only [List.nodup_cons, List.mem_cons, not_or] at hnd
  obtain ⟨⟨hin, hit⟩, hnt, ht⟩ := hnd
  have hne : ∀ k ∈ n :: t, k ≠ i := by
    rintro k hk rfl; rcases List.mem_cons.1 hk with rfl | hk
    · exact hin rfl
    · exact hit hk
  refine ⟨t, ?_⟩
  constructor
  · simp [hnt, ht]
  · intro k
    by_cases hk : k = i
    · subst hk; simp [Pc.queued, hin, hit]
    · simpa [hk] using h.mem_iff k
  · simpa using h.tail_eq
  · refine (List.isChain_cons_cons.1 h.links).2.imp_of_mem_imp fun a b ha hb hab => ?_
    simpa [Linked, hne b hb] using hab
  · intro k hk; exact h.last_none k (by simpa using hk)
  · intro k hk
    have hkn : k = n := by simpa using hk.symm
    subst hkn; simp [hne k (by simp), hn]
  · intro k hk
    have hkn : k ≠ n := by rintro rfl; exact hnt hk
    simpa [hkn] using h.rest_spin k (by simp at hk ⊢; exact Or.inr hk)
  · intro k
    by_cases hki : k = i
    · subst hki; simp [Pc.own]
    · by_cases hkn : k = n
      · subst hkn; simp [hki, hn, Pc.own]
      · simpa [hki, hkn] using h.own k
  · intro k hk
    by_cases hki : k = i
    · subst hki; simp at hk
    · exact absurd (h.alone k (by simpa [hki] using hk)) (by simp)
  · intro k n' hk
    by_cases hki : k = i
    · subst hki; simp at hk
    · obtain ⟨t', e, -⟩ := h.pass k n' (by simpa [hki] using hk)
      exact absurd (List.cons.inj e).1.symm hki
  · simp [h.history, notEntered, hp, hn, hne n (by simp)]

end Steps

/-! ## The race -/

/-- no acquire makes its xchg while a release stands between its load of `lk->next`, which found its own `qnode`, and
its store of NULL -/
def NoRace (s : St ι) (i : ι) : Prop := s.pc i = .acqXchg → ∀ j, s.pc j ≠ .relClear

instance [Fintype ι] (s : St ι) (i : ι) : Decidable (NoRace s i) := inferInstanceAs (Decidable (_ → _))

theorem queue_step {s : St ι} {q : List ι} (h : Queue s q) (i : ι) (hrace : NoRace s i) : ∃ q', Queue (step s i) q' := by
  have hown := h.own i
  cases hp : s.pc i with
  | out | acqNext | acqSpin =>
    rw [hp] at hown
    rw [step, Threads.step_eq (by rw [hp, prog])]
    exact ⟨q, queue_outside h (by simp [hp, Pc.queued]) (by simp [Pc.queued]) rfl (by simp_all) (by simp_all) rfl rfl
      (by simp_all [Pc.own])⟩
  | acqXchg =>
    have hr := hrace hp
    cases hn : s.mem.next with
    | none =>
      rw [step, Threads.step_eq (by rw [hp, prog, hn])]
      have hq : q = [] := by have := h.tail_eq; rw [hn] at this; simpa using this.symm
      exact ⟨_, queue_xchg h hp hr (Or.inl ⟨hq, rfl, rfl⟩)⟩
    | some a =>
      rw [step, Threads.step_eq (by rw [hp, prog, hn])]
      exact ⟨_, queue_xchg h hp hr (Or.inr ⟨a, h.tail_eq ▸ hn, rfl, rfl⟩)⟩
  | acqLink a => rw [step, Threads.step_eq (by rw [hp, prog])]; exact ⟨q, queue_link h hp⟩
  | acqWait =>
    rw [step, Threads.step_ite (by rw [hp, prog])]
    split_ifs with hc
    · rw [← hp, update_eq_self]; exact ⟨q, h⟩
    · exact ⟨q, queue_enter h hp hc⟩
  | relClear => rw [step, Threads.step_eq (by rw [hp, prog])]; exact ⟨[], queue_clear h hp⟩
  | relPass n =>
    rw [step, Threads.step_eq (by rw [hp, prog])]
    obtain ⟨t, ht⟩ := queue_pass h hp
    exact ⟨_, ht⟩
  | fault => rw [step, Threads.step_eq (by rw [hp, prog]), ← hp, update_eq_self]; exact ⟨q, h⟩
  | relUnlock t =>
    rw [step, Threads.step_ite (by rw [hp, prog])]
    split_ifs with hc
    · exact ⟨q, queue_outside h (by simp [hp, Pc.queued, hc]) (by simp [Pc.queued]) rfl (by simp) (by simp) rfl rfl
        trivial⟩
    · obtain ⟨t, rfl⟩ := h.eq_cons (by rw [hp]; exact hc) (by simp [hp, Pc.waiting])
      exact ⟨_, queue_head h trivial id rfl rfl rfl (by simp [h.history, notEntered, hp]) trivial (by simp) (by simp)⟩
  | relNext =>
    obtain ⟨t, rfl⟩ := h.eq_cons (by rw [hp]; trivial) (by simp [hp, Pc.waiting])
    cases hn : s.mem.qnext i with
    | none => rw [hp] at hown; exact absurd hn hown
    | some n =>
      rw [step, Threads.step_eq (by rw [hp, prog, hn])]
      exact ⟨_, queue_head h trivial id rfl rfl rfl (by simp [h.history, notEntered, hp]) trivial (by simp) (by simp [hn])⟩
  | held | relTest | relLock | relLoad | relWait =>
    -- only the first of the queue gets here, and it leaves the queue memory alone
    obtain ⟨t, rfl⟩ := h.eq_cons (by rw [hp]; trivial) (by simp [hp, Pc.waiting])
    have hhist : s.mem.arrived = s.mem.entered ++ t := by simp [h.history, notEntered, hp]
    have halone := h.eq_singleton
    simp only [step, Threads.step, hp, prog]
    repeat' split
    all_goals
      refine ⟨_, queue_head h ?_ id rfl rfl rfl hhist ?_ ?_ ?_⟩ <;> simp_all [Pc.own, Pc.queued]

theorem queue_of_run (qnext : ι → Option ι) (qspin : ι → ℕ) (sched : List ι)
    (hg : Guarded step NoRace (init qnext qspin) sched) : ∃ q, Queue (run step (init qnext qspin) sched) q :=
  guarded_inv (I := fun s => ∃ q, Queue s q) (fun _ i hr hq => queue_step hq.choose_spec i hr) _
    ⟨[], queue_init qnext qspin⟩ sched hg

/-- what the queue is for: `lk->next` is NULL only when nobody is queued, and threads enter in the order of their xchg -/
def InOrder (s : St ι) : Prop :=
  (s.mem.next = none → ∀ i, ¬ (s.pc i).queued i) ∧ s.mem.entered <+: s.mem.arrived

/-- **No lost waiter and FIFO hand-over**, in every run in which no xchg falls into the window of a release. -/
theorem fifo_and_no_lost_waiter (qnext : ι → Option ι) (qspin : ι → ℕ) (sched : List ι)
    (hg : Guarded step NoRace (init qnext qspin) sched) : InOrder (run step (init qnext qspin) sched) := by
  obtain ⟨q, h⟩ := queue_of_run qnext qspin sched hg
  refine ⟨fun hn i hi => ?_, ⟨notEntered _ q, h.history.symm⟩⟩
  have hq : q = [] := by have := h.tail_eq; rw [hn] at this; simpa using this.symm
  have hmem := (h.mem_iff i).2 hi
  rw [hq] at hmem
  simp at hmem

/-- two threads, the second queueing behind the first and entering after it -/
def handOver : List (Fin 2) := [0, 0, 0, 0, 1, 1, 1, 1, 0, 0, 0, 0, 0, 1, 0, 0, 0, 1]

theorem fifo_handOver :
    Guarded step NoRace (init (fun _ => none) fun _ => 0) handOver ∧
    InOrder (run step (init (fun _ => none) fun _ => 0) handOver) ∧
    (run step (init (fun _ => none) fun _ => 0) handOver).mem.entered = [0, 1] :=
  ⟨by decide, fifo_and_no_lost_waiter _ _ _ (by decide), by decide⟩

/-- thread 0 acquires and, in its release, has loaded its own `qnode` from `lk->next`; thread 1 makes its xchg; thread
0 stores NULL -/
def raceSched : List (Fin 3) := [0, 0, 0, 0, 0, 0, 0, 0, 1, 1, 1, 1, 0]

/-- **A lost waiter.** After the race `lk->next` is NULL while thread 1 is queued; thread 2 then enters before it. -/
theorem lost_waiter :
    ¬ InOrder (run step (init (fun _ => none) fun _ => 0) raceSched) ∧
    ¬ ((run step (init (fun _ => none) fun _ => 0) (raceSched ++ [2, 2, 2, 2])).mem.entered <+:
      (run step (init (fun _ => none) fun _ => 0) (raceSched ++ [2, 2, 2, 2])).mem.arrived) := by
  refine ⟨fun h => h.1 (by decide) 1 ?_, by decide⟩
  have hpc : (run step (init (fun _ => none) fun _ => 0) raceSched).pc 1 = .acqLink 0 := by decide
  rw [hpc]; trivial

end Xv6.McsLock
