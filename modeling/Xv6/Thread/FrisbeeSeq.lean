/-
The sequence-lock frisbee game, `frisbee_seq.c`.

Each thread loops: it reads `cur_owner` through the sequence lock and `passes` outside it; it returns if the game is over,
starts again if it is not its turn, and otherwise prints the pass, writes `passes + 1` and then the next owner. Printing is
one `putc` a step, and what is printed is what `printf` makes of the format, so the model's output is the characters on the
console. `passes`, `numthreads` and `maxpass` are `uint`s.
-/
import Xv6.Core.Tickets
import Xv6.Thread.SeqLock
import Xv6.User.Printf

namespace Xv6.FrisbeeSeq

open Xv6.Core Xv6.SeqLock

/-! ## Model -/

/-- the words the lock guards -/
inductive Var where
  | passes
  | curOwner
deriving DecidableEq, Repr

structure Mem where
  lk : SeqLock.Mem Var
  output : List Char

inductive Pc where
  /-- `owner = seqlock_read(args->lock, &cur_owner)` -/
  | readOwner (r : ReadPc)
  /-- `cpass = passes`, and what follows up to the next access -/
  | loadPasses (owner : ℕ)
  /-- the load of `passes` for `printf`; `owner` is the next owner from here on -/
  | loadArg (owner : ℕ)
  /-- inside `printf`, with these characters left to put -/
  | print (owner : ℕ) (rest : List Char)
  /-- the load of `passes` in `passes + 1` -/
  | loadNext (owner : ℕ)
  /-- `seqlock_write(args->lock, &passes, passes + 1)` -/
  | writePasses (owner val : ℕ) (w : WritePc)
  /-- `seqlock_write(args->lock, &cur_owner, owner)` -/
  | writeOwner (owner : ℕ) (w : WritePc)
  | returned
deriving DecidableEq, Repr

/-- the format of `frisbee_task` -/
def fmt : List Char := "Pass number: %d, Thread %d is passing the token to thread %d\n".toList

/-- what one call prints; the format has no `%s` -/
def line (passes tid owner : ℕ) : List Char :=
  Printf.printf (fun _ => []) fmt fun k => [passes, tid, owner].getD k 0

/-- one step of thread `tid` -/
def prog (numthreads maxpass : ℕ) (tid : Fin numthreads) (m : Mem) : Pc → Mem × Pc
  | .readOwner r =>
    match readStep m.lk .curOwner r with
    | .inl r' => (m, .readOwner r')
    | .inr owner => (m, .loadPasses owner)
  | .loadPasses owner =>
    if maxpass < m.lk.word .passes then (m, .returned)
    else if owner ≠ tid then (m, .readOwner .loadSeq)
    else if numthreads ≤ (owner + 1) % 2 ^ 32 then (m, .loadArg 0)
    else (m, .loadArg ((owner + 1) % 2 ^ 32))
  | .loadArg owner => (m, .print owner (line (m.lk.word .passes) tid owner))
  | .print owner [] => (m, .loadNext owner)
  | .print owner (c :: rest) => ({ m with output := m.output ++ [c] }, .print owner rest)
  | .loadNext owner => (m, .writePasses owner ((m.lk.word .passes + 1) % 2 ^ 32) .lock)
  | .writePasses owner val w =>
    match writeStep m.lk .passes val w with
    | (lk, some w') => ({ m with lk := lk }, .writePasses owner val w')
    | (lk, none) => ({ m with lk := lk }, .writeOwner owner .lock)
  | .writeOwner owner w =>
    match writeStep m.lk .curOwner owner w with
    | (lk, some w') => ({ m with lk := lk }, .writeOwner owner w')
    | (lk, none) => ({ m with lk := lk }, .readOwner .loadSeq)
  | .returned => (m, .returned)

abbrev St (numthreads : ℕ) := Threads (Fin numthreads) Mem Pc

/-- `passes = 1`, `cur_owner = 0`, `seqlock_init`; every thread at the top of its loop -/
def init (numthreads : ℕ) : St numthreads :=
  ⟨⟨⟨0, 0, fun | .passes => 1 | .curOwner => 0, 0⟩, []⟩, fun _ => .readOwner .loadSeq⟩

abbrev step (numthreads maxpass : ℕ) (s : St numthreads) (i : Fin numthreads) : St numthreads :=
  Threads.step (prog numthreads maxpass) s i

/-! ## Transcripts -/

/-- the lines of the first `k` passes of a game with `n` threads, with `f` as the line for a pass -/
def lines (f : ℕ → ℕ → ℕ → List Char) (n k : ℕ) : List Char :=
  (List.range k).flatMap fun j => f (j + 1) (j % n) ((j + 1) % n)

theorem lines_succ (f : ℕ → ℕ → ℕ → List Char) (n k : ℕ) : lines f n (k + 1) = lines f n k ++ f (k + 1) (k % n) ((k + 1) % n) := by
  simp [lines, List.range_succ]

theorem lines_mono (f : ℕ → ℕ → ℕ → List Char) (n : ℕ) {k k' : ℕ} (h : k ≤ k') : lines f n k <+: lines f n k' := by
  induction k', h using Nat.le_induction with
  | base => exact List.prefix_refl _
  | succ k' _ ih => rw [lines_succ]; exact ih.trans (List.prefix_append _ _)

/-- the line for pass `p ≥ 1` comes after those of the passes before -/
theorem lines_pred (f : ℕ → ℕ → ℕ → List Char) (n : ℕ) {p : ℕ} (hp : 1 ≤ p) :
    lines f n p = lines f n (p - 1) ++ f p ((p - 1) % n) (p % n) := by
  obtain ⟨k, rfl⟩ : ∃ k, p = k + 1 := ⟨p - 1, by omega⟩
  simpa using lines_succ f n k

/-! ## The invariant -/

abbrev Mem.passes (m : Mem) : ℕ := m.lk.word .passes
abbrev Mem.curOwner (m : Mem) : ℕ := m.lk.word .curOwner

/-- the write has stored its value -/
def stored : WritePc → Bool
  | .load₂ | .store₂ _ | .unlock => true
  | _ => false

/-- the thread has found that it is its turn and has not handed it on -/
@[simp]
def Pc.working : Pc → Prop
  | .loadArg _ | .print _ _ | .loadNext _ | .writePasses _ _ _ => True
  | .writeOwner _ w => ¬ stored w
  | _ => False

/-- thread `tid` has seen its own number in `cur_owner` -/
@[simp]
def Pc.claims (tid : ℕ) : Pc → Prop
  | .readOwner (.check _ retval) => retval = tid
  | .loadPasses owner => owner = tid
  | l => l.working

/-- nobody is passing: all earlier lines are out and the turn is right -/
structure Between (n : ℕ) (word : Var → ℕ) (output : List Char) : Prop where
  turn : word .curOwner = (word .passes - 1) % n
  output : output = lines line n (word .passes - 1)

/-- somebody is passing, with `rest` left to print -/
structure Printing (n maxpass : ℕ) (word : Var → ℕ) (output : List Char) (owner : ℕ) (rest : List Char) : Prop where
  le : word .passes ≤ maxpass
  next : owner = word .passes % n
  output : output ++ rest = lines line n (word .passes)

/-- `passes` is written and `cur_owner` is not -/
structure Late (n : ℕ) (word : Var → ℕ) (output : List Char) (owner : ℕ) : Prop where
  next : owner = (word .passes - 1) % n
  output : output = lines line n (word .passes - 1)

/-- what holds while the thread is at this point -/
def Pc.ok (n maxpass : ℕ) (word : Var → ℕ) (output : List Char) : Pc → Prop
  | .loadArg owner => Printing n maxpass word output owner (line (word .passes) (word .curOwner) owner)
  | .print owner rest => Printing n maxpass word output owner rest
  | .loadNext owner => Printing n maxpass word output owner []
  | .writePasses owner val w =>
    if stored w then Late n word output owner else Printing n maxpass word output owner [] ∧ val = word .passes + 1
  | .writeOwner owner w => stored w ∨ Late n word output owner
  | _ => True

structure Inv (n maxpass : ℕ) (s : St n) : Prop where
  pos : 1 ≤ s.mem.passes
  le : s.mem.passes ≤ maxpass + 1
  owns : ∀ i, (s.pc i).claims i → s.mem.curOwner = i
  idle : (∀ i, ¬ (s.pc i).working) → Between n s.mem.lk.word s.mem.output
  ok : ∀ i, (s.pc i).ok n maxpass s.mem.lk.word s.mem.output
  returned : ∀ i, s.pc i = .returned → maxpass < s.mem.passes

theorem inv_init (n maxpass : ℕ) : Inv n maxpass (init n) := by
  refine ⟨?_, ?_, ?_, fun _ => ⟨?_, ?_⟩, ?_, ?_⟩ <;> simp [init, Mem.passes, Mem.curOwner, lines, Pc.ok]

theorem Pc.claims_of_working {l : Pc} (tid : ℕ) (h : l.working) : l.claims tid := by
  rcases l with (_ | _ | _) | _ | _ | _ | _ | _ | _ | _ <;> simp_all

/-- a thread that is not at work knows nothing -/
theorem Pc.ok_of_not_working {l : Pc} (h : ¬ l.working) (n maxpass : ℕ) (word : Var → ℕ) (output : List Char) :
    l.ok n maxpass word output := by
  cases l <;> simp_all [Pc.ok]

section Steps

variable {n maxpass : ℕ} {s : St n} {i : Fin n} {l : Pc}

/-- a step that touches neither the two words nor the output, and neither takes the turn nor hands it on -/
theorem inv_quiet (h : Inv n maxpass s) {lk : SeqLock.Mem Var} (hword : lk.word = s.mem.lk.word)
    (hw : l.working ↔ (s.pc i).working) (hclaims : l.claims i → s.mem.curOwner = i)
    (hok : l.ok n maxpass s.mem.lk.word s.mem.output) (hret : l = .returned → maxpass < s.mem.passes) :
    Inv n maxpass ⟨⟨lk, s.mem.output⟩, update s.pc i l⟩ := by
  constructor <;> simp only [Mem.passes, Mem.curOwner, hword]
  case pos => exact h.pos
  case le => exact h.le
  case owns =>
    intro j hj
    by_cases hji : j = i
    · subst hji; exact hclaims (by simpa using hj)
    · exact h.owns j (by simpa [hji] using hj)
  case idle =>
    refine fun hno => h.idle fun j hj => ?_
    by_cases hji : j = i
    · subst hji; exact hno j (by simpa using hw.2 hj)
    · exact hno j (by simpa [hji] using hj)
  case ok =>
    intro j
    by_cases hji : j = i
    · subst hji; simpa using hok
    · simpa [hji] using h.ok j
  case returned =>
    intro j hj
    by_cases hji : j = i
    · subst hji; exact hret (by simpa using hj)
    · exact h.returned j (by simpa [hji] using hj)

/-- a step of the thread whose turn it is: no other thread has seen its own number -/
theorem inv_turn (h : Inv n maxpass s) (hi : (s.pc i).claims i) {m : Mem} (hmono : s.mem.passes ≤ m.passes)
    (hle : m.passes ≤ maxpass + 1) (hclaims : l.claims i → m.curOwner = i)
    (hidle : ¬ l.working → Between n m.lk.word m.output) (hok : l.ok n maxpass m.lk.word m.output)
    (hret : l ≠ .returned) : Inv n maxpass ⟨m, update s.pc i l⟩ := by
  have hother : ∀ j, j ≠ i → ¬ (s.pc j).claims j := fun j hj hj' =>
    hj (Fin.ext ((h.owns j hj').symm.trans (h.owns i hi)))
  refine ⟨h.pos.trans hmono, hle, fun j hj => ?_, fun hno => hidle (by simpa using hno i), fun j => ?_, fun j hj => ?_⟩
  · by_cases hji : j = i
    · subst hji; exact hclaims (by simpa using hj)
    · exact absurd (by simpa [hji] using hj) (hother j hji)
  · by_cases hji : j = i
    · subst hji; simpa using hok
    · simp only [update_of_ne hji]
      exact Pc.ok_of_not_working (fun hw => hother j hji (Pc.claims_of_working j hw)) _ _ _ _
  · by_cases hji : j = i
    · subst hji; exact absurd (by simpa using hj) hret
    · exact (h.returned j (by simpa [hji] using hj)).trans_le hmono

/-- an access of `seqlock_write` stores the value, or leaves the words alone and goes on, or returns -/
theorem writeStep_cases (m : SeqLock.Mem Var) (a : Var) (val : ℕ) (w : WritePc) :
    (w = .storeMem ∧ writeStep m a val w = ({ m with word := update m.word a val }, some .load₂)) ∨
    (∃ lk w', writeStep m a val w = (lk, some w') ∧ lk.word = m.word ∧ stored w' = stored w) ∨
    ∃ lk, w = .unlock ∧ writeStep m a val w = (lk, none) ∧ lk.word = m.word := by
  cases w with
  | lock => by_cases h : m.splk = 0 <;> simp [writeStep, h, stored]
  | storeMem => exact Or.inl ⟨rfl, rfl⟩
  | unlock => exact Or.inr (Or.inr ⟨_, rfl, rfl, rfl⟩)
  | _ => exact Or.inr (Or.inl ⟨_, _, rfl, rfl, rfl⟩)

/-- finding that it is its turn: the next owner is the next thread -/
theorem inv_start (h : Inv n maxpass s) (h32 : n < 2 ^ 32) (hp : s.pc i = .loadPasses i) (hle : s.mem.passes ≤ maxpass) :
    Inv n maxpass ⟨s.mem, update s.pc i (.loadArg (if n ≤ ((i : ℕ) + 1) % 2 ^ 32 then 0 else ((i : ℕ) + 1) % 2 ^ 32))⟩ := by
  have hi : (s.pc i).claims i := by simp [hp]
  have hcur := h.owns i hi
  have hbetween : Between n s.mem.lk.word s.mem.output := by
    refine h.idle fun j hj => ?_
    obtain rfl : j = i := Fin.ext ((h.owns j (Pc.claims_of_working j hj)).symm.trans hcur)
    simp [hp] at hj
  have hnext : (if n ≤ ((i : ℕ) + 1) % 2 ^ 32 then 0 else ((i : ℕ) + 1) % 2 ^ 32) = s.mem.passes % n := by
    have hin := i.isLt
    have hturn : (s.mem.passes - 1) % n = i := hbetween.turn.symm.trans hcur
    have hsucc := succ_mod_eq_ite i.pos (s.mem.passes - 1)
    rw [Nat.sub_add_cancel h.pos, hturn] at hsucc
    rw [hsucc, Nat.mod_eq_of_lt (by omega)]
    split_ifs <;> omega
  refine inv_turn h hi le_rfl h.le (fun _ => hcur) (by simp) ⟨hle, hnext, ?_⟩ (by simp)
  rw [hbetween.output, lines_pred line n h.pos, hbetween.turn, hnext]

theorem step_inv (h32 : n < 2 ^ 32) (hmax : maxpass < 2 ^ 32 - 1) (s : St n) (i : Fin n) (h : Inv n maxpass s) :
    Inv n maxpass (step n maxpass s i) := by
  have hok := h.ok i
  have howns := h.owns i
  cases hp : s.pc i with
  | readOwner r =>
    cases r with
    | loadSeq =>
      rw [step, Threads.step_eq (by simp only [hp, prog, readStep]; rfl)]
      exact inv_quiet h rfl (by simp [hp]) (by simp) trivial (by simp)
    | loadMem seqi =>
      rw [step, Threads.step_eq (by simp only [hp, prog, readStep]; rfl)]
      exact inv_quiet h rfl (by simp [hp]) (by simp) trivial (by simp)
    | check seqi retval =>
      by_cases hc : seqi ≠ s.mem.lk.seq ∨ seqi % 2 = 1
      · rw [step, Threads.step_eq (by simp only [hp, prog, readStep, if_pos hc]; rfl)]
        exact inv_quiet h rfl (by simp [hp]) (by simp) trivial (by simp)
      · rw [step, Threads.step_eq (by simp only [hp, prog, readStep, if_neg hc]; rfl)]
        exact inv_quiet h rfl (by simp [hp]) (by simpa [hp] using howns) trivial (by simp)
  | loadPasses owner =>
    by_cases hover : maxpass < s.mem.passes
    · rw [step, Threads.step_eq (by simp only [hp, prog, if_pos hover]; rfl)]
      exact inv_quiet h rfl (by simp [hp]) (by simp) trivial (fun _ => hover)
    · by_cases hi : owner ≠ i
      · rw [step, Threads.step_eq (by simp only [hp, prog, if_neg hover, if_pos hi]; rfl)]
        exact inv_quiet h rfl (by simp [hp]) (by simp) trivial (by simp)
      · obtain rfl : owner = i := not_not.1 hi
        have hstep := inv_start h h32 hp (by omega)
        rw [step, Threads.step_eq (m := s.mem) (by simp only [hp, prog, if_neg hover, if_neg hi, ← apply_ite]; rfl)]
        exact hstep
  | loadArg owner =>
    rw [step, Threads.step_eq (by simp only [hp, prog]; rfl)]
    rw [hp] at hok
    have hcur : s.mem.curOwner = i := howns (by simp [hp])
    refine inv_turn h (by simp [hp]) le_rfl h.le (fun _ => hcur) (by simp) ?_ (by simp)
    rw [← hcur]; exact hok
  | print owner rest =>
    rw [hp] at hok
    have hcur : s.mem.curOwner = i := howns (by simp [hp])
    cases rest with
    | nil =>
      rw [step, Threads.step_eq (by simp only [hp, prog]; rfl)]
      exact inv_turn h (by simp [hp]) le_rfl h.le (fun _ => hcur) (by simp) hok (by simp)
    | cons c rest =>
      rw [step, Threads.step_eq (by simp only [hp, prog]; rfl)]
      refine inv_turn h (by simp [hp]) le_rfl h.le (fun _ => hcur) (by simp) ⟨hok.le, hok.next, ?_⟩ (by simp)
      simpa using hok.output
  | loadNext owner =>
    rw [step, Threads.step_eq (by simp only [hp, prog]; rfl)]
    rw [hp] at hok
    have hcur : s.mem.curOwner = i := howns (by simp [hp])
    refine inv_turn h (by simp [hp]) le_rfl h.le (fun _ => hcur) (by simp) ⟨hok, ?_⟩ (by simp)
    exact Nat.mod_eq_of_lt (by have := hok.le; omega)
  | writePasses owner val w =>
    rw [hp] at hok
    have hcur : s.mem.curOwner = i := howns (by simp [hp])
    rcases writeStep_cases s.mem.lk .passes val w with ⟨rfl, hw⟩ | ⟨lk, w', hw, hword, hst⟩ | ⟨lk, rfl, hw, hword⟩
    · rw [step, Threads.step_eq (by simp only [hp, prog, hw]; rfl)]
      obtain ⟨hpr, rfl⟩ := hok
      have hle := hpr.le
      refine inv_turn h (by simp [hp]) (by simp [Mem.passes]) (by simpa [Mem.passes] using hle)
        (by simpa [Mem.curOwner] using hcur) (by simp) ⟨?_, ?_⟩ (by simp)
      · simpa using hpr.next
      · simpa using hpr.output
    · rw [step, Threads.step_eq (by simp only [hp, prog, hw]; rfl)]
      refine inv_quiet h hword (by simp [hp]) (fun _ => hcur) ?_ (by simp)
      simpa only [Pc.ok, hst] using hok
    · rw [step, Threads.step_eq (by simp only [hp, prog, hw]; rfl)]
      exact inv_quiet h hword (by simp [hp, stored]) (fun _ => hcur) (Or.inr hok) (by simp)
  | writeOwner owner w =>
    rw [hp] at hok
    rcases writeStep_cases s.mem.lk .curOwner owner w with ⟨rfl, hw⟩ | ⟨lk, w', hw, hword, hst⟩ | ⟨lk, rfl, hw, hword⟩
    · rw [step, Threads.step_eq (by simp only [hp, prog, hw]; rfl)]
      have hlate : Late n s.mem.lk.word s.mem.output owner := hok.resolve_left (by simp [stored])
      refine inv_turn h (by simp [hp, stored]) (by simp [Mem.passes]) (by simpa [Mem.passes] using h.le) (by simp [stored])
        (fun _ => ⟨?_, ?_⟩) (Or.inl rfl) (by simp)
      · simpa using hlate.next
      · simpa using hlate.output
    · rw [step, Threads.step_eq (by simp only [hp, prog, hw]; rfl)]
      refine inv_quiet h hword (by simp [hp, hst]) (fun hc => howns (by simpa [hp, hst] using hc)) ?_ (by simp)
      simpa only [Pc.ok, hst] using hok
    · rw [step, Threads.step_eq (by simp only [hp, prog, hw]; rfl)]
      exact inv_quiet h hword (by simp [hp, stored]) (by simp) trivial (by simp)
  | returned =>
    rw [step, Threads.step_eq (by simp only [hp, prog]; rfl)]
    exact inv_quiet h rfl (by simp [hp]) (by simp) trivial (fun _ => h.returned i hp)

end Steps

/-! ## The game -/

/-- **The passes, in turn.** -/
theorem passes_in_turn (n maxpass : ℕ) (h32 : n < 2 ^ 32) (hmax : maxpass < 2 ^ 32 - 1) (sched : List (Fin n)) :
    let s := run (step n maxpass) (init n) sched
    s.mem.output <+: lines line n maxpass ∧
      ((∃ i, s.pc i = .returned) → s.mem.output = lines line n maxpass) := by
  intro s
  have h : Inv n maxpass s := run_inv (step_inv h32 hmax) _ (inv_init n maxpass) sched
  -- between lines, or in the middle of one that is not the last of the game
  have hout : s.mem.output = lines line n (s.mem.passes - 1) ∨
      (s.mem.passes ≤ maxpass ∧ s.mem.output <+: lines line n s.mem.passes) := by
    by_cases hw : ∃ i, (s.pc i).working
    · obtain ⟨i, hi⟩ := hw
      have hok := h.ok i
      have hprint : ∀ owner rest, Printing n maxpass s.mem.lk.word s.mem.output owner rest →
          s.mem.passes ≤ maxpass ∧ s.mem.output <+: lines line n s.mem.passes :=
        fun owner rest hpr => ⟨hpr.le, ⟨rest, hpr.output⟩⟩
      cases hp : s.pc i with
      | loadArg owner => rw [hp] at hok; exact Or.inr (hprint _ _ hok)
      | print owner rest => rw [hp] at hok; exact Or.inr (hprint _ _ hok)
      | loadNext owner => rw [hp] at hok; exact Or.inr (hprint _ _ hok)
      | writePasses owner val w =>
        simp only [hp, Pc.ok] at hok
        split_ifs at hok
        · exact Or.inl hok.output
        · exact Or.inr (hprint _ _ hok.1)
      | writeOwner owner w =>
        rw [hp] at hok hi
        exact Or.inl (hok.resolve_left hi).output
      | _ => simp [hp] at hi
    · exact Or.inl (h.idle (by simpa using hw)).output
  have hle := h.le
  refine ⟨?_, ?_⟩
  · rcases hout with hout | ⟨hp, hout⟩
    · rw [hout]; exact lines_mono line n (by omega)
    · exact hout.trans (lines_mono line n hp)
  · rintro ⟨i, hi⟩
    have hover := h.returned i hi
    rcases hout with hout | ⟨hp, -⟩
    · rw [hout]; congr 1; omega
    · omega

/-! ## What the lines say -/

/-- the words of a line around its three numbers -/
def frame (p t o : List Char) : List Char :=
  "Pass number: ".toList ++ (p ++ (", Thread ".toList ++ (t ++ (" is passing the token to thread ".toList ++
    (o ++ ['\n'])))))

/-- the line that announces pass `p` by thread `t` to thread `o`, with the numbers in decimal -/
def said (p t o : ℕ) : List Char := frame (Nat.toDigits 10 p) (Nat.toDigits 10 t) (Nat.toDigits 10 o)

theorem fmt_eq : fmt = "Pass number: ".toList ++ '%' :: 'd' :: (", Thread ".toList ++ '%' :: 'd' ::
    (" is passing the token to thread ".toList ++ '%' :: 'd' :: (['\n'] ++ []))) := by
  decide

theorem line_eq (p t o : ℕ) : line p t o = frame (Printf.printint p 10 true) (Printf.printint t 10 true) (Printf.printint o 10 true) := by
  rw [line, Printf.printf, fmt_eq, Printf.printf_literal (by decide), Printf.printf_d, Printf.printf_literal (by decide),
    Printf.printf_d, Printf.printf_literal (by decide), Printf.printf_d, Printf.printf_literal (by decide)]
  rfl

theorem line_eq_said {p t o : ℕ} (hp : p < 2 ^ 31) (ht : t < 2 ^ 31) (ho : o < 2 ^ 31) : line p t o = said p t o := by
  rw [line_eq, Printf.printint_decimal hp, Printf.printint_decimal ht, Printf.printint_decimal ho, said]

theorem lines_eq_said (n : ℕ) {k : ℕ} (hk : k < 2 ^ 31) : lines line n k = lines said n k := by
  refine List.flatMap_congr fun j hj => ?_
  have hj : j < k := List.mem_range.1 hj
  exact line_eq_said (by omega) ((Nat.mod_le j n).trans_lt (by omega)) ((Nat.mod_le (j + 1) n).trans_lt (by omega))

/-- in this run the k-th line announces pass k, none is lost or repeated, and all are out once a thread has returned -/
def Announces (n maxpass : ℕ) (sched : List (Fin n)) : Prop :=
  let s := run (step n maxpass) (init n) sched
  s.mem.output <+: lines said n maxpass ∧ ((∃ i, s.pc i = .returned) → s.mem.output = lines said n maxpass)

theorem frame_head {p t o p' t' o' r : List Char} (h : frame p t o <+: frame p' t' o' ++ r) : ∃ u u', p ++ u <+: p' ++ u' := by
  unfold frame at h
  generalize "Pass number: ".toList = a, ", Thread ".toList = b, " is passing the token to thread ".toList = c at h
  rw [List.append_assoc, List.prefix_append_right_inj, List.append_assoc] at h
  exact ⟨_, _, h⟩

/-- pass 2^31 is announced as pass -2147483648 -/
theorem negative_pass {p : ℕ} (h31 : 2 ^ 31 ≤ p) (h32 : p < 2 ^ 32) (t o : ℕ) (r : List Char) : ¬ line p t o <+: said p t o ++ r := by
  rw [line_eq, said, Printf.printint_minus h31 h32]
  intro h
  obtain ⟨u, u', h⟩ := frame_head h
  obtain ⟨d, ds, hd⟩ : ∃ d ds, Nat.toDigits 10 p = d :: ds := List.exists_cons_of_ne_nil Nat.toDigits_ne_nil
  have hdigit : d.isDigit := Nat.isDigit_of_mem_toDigits (by decide) (by decide) (hd ▸ List.mem_cons_self)
  rw [hd, List.cons_append, List.cons_append, List.cons_prefix_cons] at h
  rw [← h.1] at hdigit
  exact absurd hdigit (by decide)

theorem line_not_said (n : ℕ) {maxpass : ℕ} (hmax : 2 ^ 31 ≤ maxpass) : ¬ lines line n (2 ^ 31) <+: lines said n maxpass := by
  obtain ⟨r, hr⟩ := lines_mono said n hmax
  rw [← hr, lines_pred line n (by norm_num), lines_pred said n (by norm_num), lines_eq_said n (by norm_num),
    List.append_assoc, List.prefix_append_right_inj]
  exact negative_pass le_rfl (by norm_num) _ _ r

/-! ## A run of any length -/

section Solo

variable {n maxpass : ℕ} {i : Fin n}

/-- a write running alone on a free lock -/
theorem solo_write (cont : WritePc → Pc) (fin : Pc) (a : Var) (val : ℕ)
    (hprog : ∀ m w, prog n maxpass i m (cont w) = match writeStep m.lk a val w with
      | (lk, some w') => ({ m with lk := lk }, cont w')
      | (lk, none) => ({ m with lk := lk }, fin))
    (lk : SeqLock.Mem Var) (output : List Char) (hfree : lk.splk = 0) (heven : lk.seq % 2 = 0) :
    ∃ lk', Threads.Solo (prog n maxpass) i (⟨lk, output⟩, cont .lock) (⟨lk', output⟩, fin) ∧ lk'.splk = 0 ∧
      lk'.seq % 2 = 0 ∧ lk'.word = update lk.word a val := by
  refine ⟨⟨((lk.seq + 1) % 2 ^ 32 + 1) % 2 ^ 32, 0, update lk.word a val, lk.incs + 1 + 1⟩, ?_, rfl, ?_, rfl⟩
  · have hsolo : ∀ m w, Threads.Solo (prog n maxpass) i (m, cont w) (match writeStep m.lk a val w with
        | (lk, some w') => ({ m with lk := lk }, cont w')
        | (lk, none) => ({ m with lk := lk }, fin)) := fun m w => Threads.Solo.step (hprog m w)
    have h1 := hsolo ⟨lk, output⟩ .lock
    simp only [writeStep, hfree, if_true] at h1
    exact (((((h1.trans (hsolo _ .load₁)).trans (hsolo _ (.store₁ _))).trans (hsolo _ .storeMem)).trans
      (hsolo _ .load₂)).trans (hsolo _ (.store₂ _))).trans (hsolo _ .unlock)
  · simp only; omega

theorem solo_print (lk : SeqLock.Mem Var) (output : List Char) (owner : ℕ) (rest : List Char) :
    Threads.Solo (prog n maxpass) i (⟨lk, output⟩, .print owner rest) (⟨lk, output ++ rest⟩, .loadNext owner) := by
  induction rest generalizing output with
  | nil => rw [List.append_nil]; exact Threads.Solo.step rfl
  | cons c rest ih =>
    rw [List.append_cons]
    exact Relation.ReflTransGen.head rfl (ih (output ++ [c]))

/-- before pass `k`, with every thread at the top of its loop and the lock free -/
structure Top (n maxpass k : ℕ) (s : St n) : Prop where
  inv : Inv n maxpass s
  top : s.pc = fun _ => .readOwner .loadSeq
  free : s.mem.lk.splk = 0
  even : s.mem.lk.seq % 2 = 0
  passes : s.mem.passes = k

theorem Top.between {k : ℕ} {s : St n} (h : Top n maxpass k s) : Between n s.mem.lk.word s.mem.output :=
  h.inv.idle (by simp [h.top])

/-- a thread that is alone and finds that it is its turn gets to its `printf` -/
theorem solo_turn {m : Mem} (heven : m.lk.seq % 2 = 0) (hcur : m.curOwner = i) (hle : m.passes ≤ maxpass) :
    ∃ owner, Threads.Solo (prog n maxpass) i (m, .readOwner .loadSeq) (m, .print owner (line m.passes i owner)) := by
  have hloads : Threads.Solo (prog n maxpass) i (m, .readOwner .loadSeq) (m, .readOwner (.check m.lk.seq m.curOwner)) :=
    (Threads.Solo.step rfl).trans (Threads.Solo.step rfl)
  have hcheck : prog n maxpass i m (.readOwner (.check m.lk.seq m.curOwner)) = (m, .loadPasses i) := by
    simp [prog, readStep, heven, hcur]
  obtain ⟨owner, hturn⟩ : ∃ owner, prog n maxpass i m (.loadPasses i) = (m, .loadArg owner) := by
    have hover : ¬ maxpass < m.lk.word .passes := by simpa using hle
    simp only [prog, if_neg hover, ne_eq, not_true_eq_false, if_false]
    split_ifs
    · exact ⟨_, rfl⟩
    · exact ⟨_, rfl⟩
  exact ⟨owner, ((hloads.trans (Threads.Solo.step hcheck)).trans (Threads.Solo.step hturn)).trans
    (Threads.Solo.step rfl)⟩

/-- the thread whose turn it is can pass while the others wait -/
theorem pass_run {k : ℕ} (hn : 0 < n) (h32 : n < 2 ^ 32) (hmax : maxpass < 2 ^ 32 - 1) {s : St n}
    (h : Top n maxpass k s) (hk : k ≤ maxpass) : ∃ sched, Top n maxpass (k + 1) (run (step n maxpass) s sched) := by
  obtain ⟨⟨lk, output⟩, pc⟩ := s
  obtain rfl : pc = _ := h.top
  let i : Fin n := ⟨(k - 1) % n, Nat.mod_lt _ hn⟩
  have hpasses : lk.word .passes = k := h.passes
  have hcur : lk.word .curOwner = i := h.between.turn.trans (by rw [hpasses])
  obtain ⟨owner, hturn⟩ := solo_turn (m := ⟨lk, output⟩) h.even hcur (h.passes.trans_le hk)
  have hprint : Threads.Solo (prog n maxpass) i _ _ := solo_print lk output owner (line (lk.word .passes) i owner)
  have hnext : prog n maxpass i ⟨lk, output ++ line (lk.word .passes) i owner⟩ (.loadNext owner) =
      (⟨lk, output ++ line (lk.word .passes) i owner⟩, .writePasses owner (k + 1) .lock) := by
    rw [prog, hpasses, Nat.mod_eq_of_lt (by omega)]
  obtain ⟨lk1, hwrite1, hfree1, heven1, hword1⟩ := solo_write (.writePasses owner (k + 1)) (.writeOwner owner .lock)
    .passes (k + 1) (fun m w => rfl) lk (output ++ line (lk.word .passes) i owner) h.free h.even
  obtain ⟨lk2, hwrite2, hfree2, heven2, hword2⟩ := solo_write (.writeOwner owner) (.readOwner .loadSeq)
    .curOwner owner (fun m w => rfl) lk1 (output ++ line (lk.word .passes) i owner) hfree1 heven1
  obtain ⟨sched, hrun⟩ := ((((hturn.trans hprint).trans (Threads.Solo.step hnext)).trans hwrite1).trans hwrite2).run
    fun _ => .readOwner .loadSeq
  have htop : update (fun _ : Fin n => Pc.readOwner .loadSeq) i (.readOwner .loadSeq) = fun _ => .readOwner .loadSeq :=
    update_eq_self i _
  rw [htop] at hrun
  have hinv := run_inv (step_inv h32 hmax) _ h.inv sched
  refine ⟨sched, ?_⟩
  rw [hrun] at hinv ⊢
  exact ⟨hinv, rfl, hfree2, heven2, by simp [Mem.passes, hword2, hword1]⟩

/-- every pass of the game is reached -/
theorem top_run (hn : 0 < n) (h32 : n < 2 ^ 32) (hmax : maxpass < 2 ^ 32 - 1) {k : ℕ} (hk : k ≤ maxpass) :
    ∃ sched, Top n maxpass (k + 1) (run (step n maxpass) (init n) sched) := by
  induction k with
  | zero => exact ⟨[], inv_init n maxpass, rfl, rfl, rfl, rfl⟩
  | succ k ih =>
    obtain ⟨sched, hs⟩ := ih (by omega)
    obtain ⟨sched', hs'⟩ := pass_run hn h32 hmax hs hk
    exact ⟨sched ++ sched', by rwa [run_append]⟩

end Solo

/-! ## Main result -/

theorem exists_not_announces {n maxpass : ℕ} (hn : 0 < n) (h32 : n < 2 ^ 32) (hmax : maxpass < 2 ^ 32 - 1)
    (h31 : 2 ^ 31 ≤ maxpass) : ∃ sched, ¬ Announces n maxpass sched := by
  obtain ⟨sched, hs⟩ := top_run hn h32 hmax h31
  refine ⟨sched, fun h => line_not_said n h31 ?_⟩
  have hpasses : (run (step n maxpass) (init n) sched).mem.lk.word .passes = 2 ^ 31 + 1 := hs.passes
  have hout := hs.between.output
  rw [hpasses, Nat.add_sub_cancel] at hout
  rw [← hout]
  exact h.1

/-- **The game.** Every interleaving announces the passes in turn exactly when the pass numbers fit an `int`. -/
theorem announces_iff (n maxpass : ℕ) (hn : 1 ≤ n) (h32 : n < 2 ^ 32) (hmax : maxpass < 2 ^ 32 - 1) :
    (∀ sched, Announces n maxpass sched) ↔ maxpass < 2 ^ 31 := by
  constructor
  · intro h
    by_contra h31
    obtain ⟨sched, hs⟩ := exists_not_announces hn h32 hmax (not_lt.1 h31)
    exact hs (h sched)
  · intro h31 sched
    rw [Announces, ← lines_eq_said n h31]
    exact passes_in_turn n maxpass h32 hmax sched

theorem announces_three : (∀ sched, Announces 2 3 sched) ↔ 3 < 2 ^ 31 :=
  announces_iff 2 3 (by decide) (by decide) (by decide)

theorem minus_sign : ¬ ∀ sched, Announces 1 (2 ^ 31) sched := by
  intro h
  obtain ⟨sched, hs⟩ : ∃ sched, ¬ Announces 1 (2 ^ 31) sched :=
    exists_not_announces (by norm_num) (by norm_num) (by norm_num) le_rfl
  exact hs (h sched)

end Xv6.FrisbeeSeq
