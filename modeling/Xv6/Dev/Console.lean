/-
Console input (`console.c`): `consoleintr` edits a line and commits it, `consoleread` takes committed characters out. Both work
under `cons.lock`, as a monitor with one channel; interrupts and readers are its processes. What is echoed is not modelled, and
a length is not negative: `argptr` has refused the others.

History, which the code does not read: `typed` are the characters that have been stored and not erased again, of which the first
`committed` have been committed and the first `taken` have been taken out; `copied` are the bytes copied to readers, `eofs` the
places of the ^D that readers have consumed, and `returned` what the calls have returned, each with the ^D that it consumed.
-/
import Xv6.Core.Monitor
import Xv6.Core.Window

namespace Xv6.Console

open Xv6.Core Xv6.Core.Monitor

/-! ## Model -/

def INPUT_BUF : ℕ := 128

/-- `C(x)` -/
def ctrl (x : Char) : ℕ := x.toNat - '@'.toNat

/-- ^D as it is stored -/
def EOF : UInt8 := UInt8.ofNat (ctrl 'D')

/-- a line feed as it is stored -/
def LF : UInt8 := UInt8.ofNat '\n'.toNat

structure Input where
  buf : ℕ → UInt8
  r : UInt32
  w : UInt32
  e : UInt32
  typed : List UInt8
  committed : ℕ
  taken : ℕ
  copied : List UInt8
  eofs : List ℕ
  returned : List (ℤ × Option ℕ)

namespace Input

/-- `input.buf[input.e++ % INPUT_BUF] = c` -/
def store (m : Input) (c : ℕ) : Input :=
  { m with
    buf := Function.update m.buf (m.e.toNat % INPUT_BUF) (UInt8.ofNat c)
    e := m.e + 1
    typed := m.typed ++ [UInt8.ofNat c] }

/-- `input.e--` -/
def erase (m : Input) : Input := { m with e := m.e - 1, typed := m.typed.dropLast }

/-- `input.w = input.e` -/
def commit (m : Input) : Input := { m with w := m.e, committed := m.typed.length }

/-- `input.buf[input.r % INPUT_BUF]` -/
def first (m : Input) : UInt8 := m.buf (m.r.toNat % INPUT_BUF)

/-- `input.r++` -/
def advance (m : Input) : Input := { m with r := m.r + 1 }

/-- `input.r--` -/
def back (m : Input) : Input := { m with r := m.r - 1 }

/-- `*dst++ = c` -/
def copy (m : Input) (c : UInt8) : Input := { m with taken := m.taken + 1, copied := m.copied ++ [c] }

/-- a ^D is consumed -/
def eof (m : Input) : Input := { m with taken := m.taken + 1, eofs := m.eofs ++ [m.taken] }

end Input

/-- where a reader or an interrupt handler is -/
inductive Loc
  | idle
  /-- at the loop of `consoleintr`, with the characters that `getc` still has -/
  | intr (cs : List ℕ)
  /-- at the loop for ^U -/
  | kill (cs : List ℕ)
  /-- at the loops of `consoleread` -/
  | read (n target : ℕ)
  /-- has taken `c` out -/
  | got (c : UInt8) (n target : ℕ)
  /-- about to release the lock and return -/
  | ret (r : ℤ) (eof : Option ℕ)
  deriving DecidableEq

inductive Call
  | consoleintr (cs : List ℕ)
  | consoleread (n : ℕ)

/-- the `default` case of `consoleintr` -/
def enter (m : Input) (c : ℕ) (cs : List ℕ) : Input × Act Unit Loc :=
  if c ≠ 0 ∧ (m.e - m.r).toNat < INPUT_BUF then
    let c := if c = '\r'.toNat then '\n'.toNat else c
    let m := m.store c
    if c = '\n'.toNat ∨ c = ctrl 'D' ∨ m.e = m.r + UInt32.ofNat INPUT_BUF then (m.commit, .wakeup () (.intr cs))
    else (m, .go (.intr cs))
  else (m, .go (.intr cs))

/-- the sections -/
def sec (killed : Bool) (m : Input) : Loc → Input × Act Unit Loc
  | .intr [] => (m, .release .idle)
  | .intr (c :: cs) =>
    -- `procdump` is called later, without the lock
    if c = ctrl 'P' then (m, .go (.intr cs))
    else if c = ctrl 'U' then (m, .go (.kill cs))
    else if c = ctrl 'H' ∨ c = 127 then (if m.e ≠ m.w then m.erase else m, .go (.intr cs))
    else enter m c cs
  | .kill cs =>
    if m.e ≠ m.w ∧ m.buf ((m.e - 1).toNat % INPUT_BUF) ≠ LF then (m.erase, .go (.kill cs)) else (m, .go (.intr cs))
  | .read n target =>
    if 0 < n then
      if m.r = m.w then
        if killed = true then (m, .go (.ret (-1) none)) else (m, .sleep () (.read n target))
      else (m.advance, .go (.got m.first n target))
    else (m, .go (.ret (target - n) none))
  | .got c n target =>
    if c = EOF then
      if n < target then (m.back, .go (.ret (target - n) none)) else (m.eof, .go (.ret (target - n) (some m.taken)))
    else if c = LF then (m.copy c, .go (.ret (target - (n - 1)) none))
    else (m.copy c, .go (.read (n - 1) target))
  | .ret r eof => ({ m with returned := m.returned ++ [(r, eof)] }, .release .idle)
  | .idle => (m, .go .idle)

def call : Loc → Call → Option Loc
  | .idle, .consoleintr cs => some (.intr cs)
  | .idle, .consoleread n => some (.read n n)
  | _, _ => none

variable {ι : Type}

def prog : Prog ι Unit Input Loc Call Empty where
  sec _ := sec
  call _ := call
  env e := e.elim

def init : St ι Unit Input Loc := Monitor.start ⟨fun _ => 0, 0, 0, 0, [], 0, 0, [], [], []⟩ fun _ => .idle

variable {m : Input} {s : St ι Unit Input Loc} {i j : ι} {l : Loc} {c t : ℕ} {k : Bool}

/-! ## The buffer -/

/-- the indices count, and the buffer holds what is not taken out; `t` characters are in the hands of a reader -/
structure Buf (m : Input) (t : ℕ) : Prop where
  r : m.r = UInt32.ofNat (m.taken + t)
  w : m.w = UInt32.ofNat m.committed
  e : m.e = UInt32.ofNat m.typed.length
  window : Window INPUT_BUF m.buf m.typed m.taken
  taken : m.taken + t ≤ m.committed
  committed : m.committed ≤ m.typed.length
  copied : m.copied = (m.typed.take m.taken).filter (· ≠ EOF)
  eofs : m.eofs = (List.range m.taken).filter fun k => m.typed[k]? = some EOF

/-- a full buffer is committed -/
structure Line (m : Input) (t : ℕ) : Prop extends Buf m t where
  full : m.typed.length = m.taken + INPUT_BUF → m.committed = m.typed.length

theorem Buf.bounds (h : Buf m t) : m.taken + t ≤ m.committed ∧ m.committed ≤ m.typed.length ∧
    m.typed.length ≤ m.taken + 128 := ⟨h.taken, h.committed, h.window.le_lo⟩

/-- `input.e != input.w` -/
theorem Buf.e_eq_w (h : Buf m t) : m.e = m.w ↔ m.committed = m.typed.length := by
  obtain ⟨h₁, h₂, h₃⟩ := h.bounds
  rw [h.e, h.w, eq_comm, uint_eq_iff (n := 128) h₂ (by omega) (by decide)]

/-- `input.r == input.w` -/
theorem Buf.r_eq_w (h : Buf m t) : m.r = m.w ↔ m.taken + t = m.committed := by
  obtain ⟨h₁, h₂, h₃⟩ := h.bounds
  rw [h.r, h.w, uint_eq_iff (n := 128) h₁ (by omega) (by decide)]

theorem Buf.e_sub_r (h : Buf m t) : (m.e - m.r).toNat = m.typed.length - (m.taken + t) := by
  obtain ⟨h₁, h₂, h₃⟩ := h.bounds
  rw [h.e, h.r]
  exact uint_sub (h₁.trans h₂) (by omega)

theorem Buf.w_sub_r (h : Buf m t) : (m.w - m.r).toNat = m.committed - (m.taken + t) := by
  obtain ⟨h₁, h₂, h₃⟩ := h.bounds
  rw [h.w, h.r]
  exact uint_sub h₁ (by omega)

theorem Buf.e_full (h : Buf m t) : m.e = m.r + UInt32.ofNat INPUT_BUF ↔ m.typed.length = m.taken + t + INPUT_BUF := by
  obtain ⟨h₁, h₂, h₃⟩ := h.bounds
  have hsize : INPUT_BUF = 128 := rfl
  rw [h.e, h.r, ← UInt32.ofNat_add]
  exact uint_eq_iff (n := 129) (by omega) (by omega) (by decide)

/-- characters before a place are not changed by what is stored or erased behind it -/
theorem filter_range_congr {n : ℕ} {xs ys : List UInt8} (h : ∀ k, k < n → ys[k]? = xs[k]?) :
    ((List.range n).filter fun k => ys[k]? = some EOF) = (List.range n).filter fun k => xs[k]? = some EOF := by
  refine List.filter_congr fun k hk => ?_
  rw [h k (List.mem_range.1 hk)]

theorem Buf.store (h : Buf m 0) (hroom : m.typed.length < m.taken + INPUT_BUF) (c : ℕ) : Buf (m.store c) 0 := by
  obtain ⟨h₁, h₂, h₃⟩ := h.bounds
  unfold Input.store
  refine ⟨h.r, h.w, ?_, ?_, h.taken, ?_, ?_, ?_⟩
  · rw [h.e, List.length_append, List.length_singleton, UInt32.ofNat_add]
    rfl
  · rw [h.e, uint_mod (by decide)]
    exact h.window.push hroom _
  · dsimp only
    rw [List.length_append]
    omega
  · dsimp only
    rw [List.take_append_of_le_length h.window.lo_le]
    exact h.copied
  · refine h.eofs.trans (filter_range_congr fun k hk => ?_).symm
    rw [List.getElem?_append_left (by omega)]

theorem Buf.commit (h : Buf m 0) : Line m.commit 0 := by
  obtain ⟨h₁, h₂, h₃⟩ := h.bounds
  exact ⟨⟨h.r, h.e, h.e, h.window, h₁.trans h₂, le_rfl, h.copied, h.eofs⟩, fun _ => rfl⟩

theorem Line.erase (h : Line m 0) (hne : m.e ≠ m.w) : Line m.erase 0 := by
  obtain ⟨h₁, h₂, h₃⟩ := h.bounds
  have hlt : m.committed < m.typed.length := lt_of_le_of_ne h₂ fun heq => hne (h.e_eq_w.2 heq)
  have hlen : m.typed.dropLast.length = m.typed.length - 1 := List.length_dropLast
  unfold Input.erase
  refine ⟨⟨h.r, h.w, ?_, h.window.unpush (by omega), h.taken, ?_, ?_, ?_⟩, fun hfull => ?_⟩
  · have hsucc : m.typed.length = m.typed.dropLast.length + 1 := by omega
    rw [h.e, hsucc, UInt32.ofNat_add]
    exact UInt32.add_sub_cancel _ _
  · dsimp only
    omega
  · dsimp only
    rw [List.dropLast_eq_take, List.take_take, Nat.min_eq_left (by omega)]
    exact h.copied
  · refine h.eofs.trans (filter_range_congr fun k hk => ?_).symm
    rw [List.dropLast_eq_take, List.getElem?_take_of_lt (by omega)]
  · -- a full buffer is committed, so there is nothing to erase
    dsimp only at hfull
    have hsize : INPUT_BUF = 128 := rfl
    omega

/-- a reader takes the first character out -/
theorem Line.advance (h : Line m 0) (hne : m.r ≠ m.w) : Line m.advance 1 ∧ m.advance.typed[m.advance.taken]? = some m.first := by
  obtain ⟨h₁, h₂, h₃⟩ := h.bounds
  have hlt : m.taken < m.committed := lt_of_le_of_ne h₁ fun heq => hne (h.r_eq_w.2 heq)
  unfold Input.advance Input.first
  refine ⟨⟨⟨?_, h.w, h.e, h.window, hlt, h.committed, h.copied, h.eofs⟩, h.full⟩, ?_⟩
  · rw [h.r, UInt32.ofNat_add _ 1]
    rfl
  · rw [h.r, Nat.add_zero, uint_mod (by decide), h.window.first (by omega), List.getElem?_eq_getElem]

/-- it puts it back -/
theorem Line.back (h : Line m 1) : Line m.back 0 := by
  unfold Input.back
  refine ⟨⟨?_, h.w, h.e, h.window, ?_, h.committed, h.copied, h.eofs⟩, h.full⟩
  · rw [h.r, UInt32.ofNat_add]
    exact UInt32.add_sub_cancel _ _
  · have := h.taken
    dsimp only
    omega

theorem Line.taken_lt (h : Line m 1) : m.taken < m.typed.length := by
  obtain ⟨h₁, h₂, h₃⟩ := h.bounds
  omega

/-- a character other than ^D is copied -/
theorem Line.copy (h : Line m 1) {b : UInt8} (hb : m.typed[m.taken]? = some b) (hne : b ≠ EOF) : Line (m.copy b) 0 := by
  have hlt := h.taken_lt
  have hget : m.typed[m.taken] = b := by
    rw [List.getElem?_eq_getElem hlt] at hb
    exact Option.some.inj hb
  unfold Input.copy
  refine ⟨⟨h.r, h.w, h.e, h.window.pop hlt, h.taken, h.committed, ?_, ?_⟩, fun hfull => ?_⟩
  · rw [List.take_succ_eq_append_getElem hlt, List.filter_append, ← h.copied, hget, List.filter_singleton]
    simp [hne]
  · rw [List.range_succ, List.filter_append, ← h.eofs]
    simp [hb, hne]
  · have := h.window.le_lo
    dsimp only at hfull
    omega

/-- a ^D is consumed -/
theorem Line.eof (h : Line m 1) (hb : m.typed[m.taken]? = some EOF) : Line m.eof 0 := by
  have hlt := h.taken_lt
  have hget : m.typed[m.taken] = EOF := by
    rw [List.getElem?_eq_getElem hlt] at hb
    exact Option.some.inj hb
  unfold Input.eof
  refine ⟨⟨h.r, h.w, h.e, h.window.pop hlt, h.taken, h.committed, ?_, ?_⟩, fun hfull => ?_⟩
  · rw [List.take_succ_eq_append_getElem hlt, List.filter_append, ← h.copied, hget]
    simp
  · rw [List.range_succ, List.filter_append, ← h.eofs]
    simp [hb]
  · have := h.window.le_lo
    dsimp only at hfull
    omega

/-! ## Sections -/

/-- what the calls have returned agrees with the ^D that have been consumed, `eof` being about to be returned -/
structure Told (m : Input) (eof : Option ℕ) : Prop where
  eofs : m.eofs = m.returned.filterMap Prod.snd ++ eof.toList
  zero : ∀ x ∈ m.returned, x.2 ≠ none → x.1 = 0

/-- between sections -/
structure Calm (m : Input) : Prop where
  line : Line m 0
  told : Told m none

/-- met only inside of a section -/
def Loc.Mid : Loc → Prop
  | .got _ _ _ | .ret _ _ => True
  | _ => False

def Fits (m : Input) : Loc → Prop
  | .got c _ _ => Line m 1 ∧ m.typed[m.taken]? = some c ∧ Told m none
  | .ret r eof => Line m 0 ∧ Told m eof ∧ (eof ≠ none → r = 0)
  | _ => True

/-- a reader has not got more than it asked for -/
def Loc.Ok : Loc → Prop
  | .read n target | .got _ n target => n ≤ target
  | _ => True

/-- the characters that have been committed -/
def Input.line (m : Input) : List UInt8 := m.typed.take m.committed

/-- what a section step does -/
structure Steps (m m' : Input) (l : Loc) : Prop where
  fits : l.Mid → Fits m' l
  calm : ¬ l.Mid → Calm m'
  grows : m.line <+: m'.line

theorem Steps.of_calm {m' : Input} (h : Calm m') (hl : ¬ l.Mid) (hgrows : m.line <+: m'.line) : Steps m m' l :=
  ⟨fun hmid => absurd hmid hl, fun _ => h, hgrows⟩

theorem Steps.of_mid {m' : Input} (h : Fits m' l) (hl : l.Mid) (hgrows : m.line <+: m'.line) : Steps m m' l :=
  ⟨fun _ => h, fun hnot => absurd hl hnot, hgrows⟩

/-- what is erased has not been committed -/
theorem Line.erase_grows (h : Line m 0) (hne : m.e ≠ m.w) : m.line <+: m.erase.line := by
  have hlt : m.committed < m.typed.length := lt_of_le_of_ne h.committed fun heq => hne (h.e_eq_w.2 heq)
  unfold Input.line Input.erase
  dsimp only
  rw [List.dropLast_eq_take, List.take_take, Nat.min_eq_left (by omega)]

theorem store_grows (h : Line m 0) (c : ℕ) : m.line <+: (m.store c).line ∧ m.line <+: (m.store c).commit.line := by
  unfold Input.line Input.commit Input.store
  dsimp only
  rw [List.take_append_of_le_length h.committed, List.take_length]
  have htake : m.typed.take m.committed <+: m.typed := List.take_prefix _ _
  exact ⟨List.prefix_rfl, htake.trans (List.prefix_append _ _)⟩

theorem enter_steps (h : Calm m) (c : ℕ) (cs : List ℕ) : Steps m (enter m c cs).1 (enter m c cs).2.loc := by
  unfold enter
  split
  · rename_i hroom
    have hlt : m.typed.length < m.taken + INPUT_BUF := by
      have hsub := h.line.e_sub_r
      have hle := h.line.window.lo_le
      rw [hsub] at hroom
      omega
    generalize (if c = '\r'.toNat then '\n'.toNat else c) = c'
    have hbuf := h.line.toBuf.store hlt c'
    dsimp only
    split
    · exact .of_calm ⟨hbuf.commit, h.told.eofs, h.told.zero⟩ id (store_grows h.line c').2
    · rename_i hnot
      refine .of_calm ⟨⟨hbuf, fun hfull => ?_⟩, h.told.eofs, h.told.zero⟩ id (store_grows h.line c').1
      -- a buffer that has become full is committed at once
      exact absurd (.inr (.inr (hbuf.e_full.2 hfull))) hnot
  · exact .of_calm h id List.prefix_rfl

theorem intr_steps (h : Calm m) (c : ℕ) (cs : List ℕ) : Steps m (sec k m (.intr (c :: cs))).1 (sec k m (.intr (c :: cs))).2.loc := by
  unfold sec
  dsimp only
  split
  · exact .of_calm h id List.prefix_rfl
  split
  · exact .of_calm h id List.prefix_rfl
  split
  · dsimp only
    split
    · rename_i hne
      exact .of_calm ⟨h.line.erase hne, h.told.eofs, h.told.zero⟩ id (h.line.erase_grows hne)
    · exact .of_calm h id List.prefix_rfl
  · exact enter_steps h c cs

theorem kill_steps (h : Calm m) (cs : List ℕ) : Steps m (sec k m (.kill cs)).1 (sec k m (.kill cs)).2.loc := by
  unfold sec
  dsimp only
  split
  · rename_i hne
    exact .of_calm ⟨h.line.erase hne.1, h.told.eofs, h.told.zero⟩ id (h.line.erase_grows hne.1)
  · exact .of_calm h id List.prefix_rfl

theorem read_steps (h : Calm m) (n target : ℕ) : Steps m (sec k m (.read n target)).1 (sec k m (.read n target)).2.loc := by
  unfold sec
  dsimp only
  split
  · split
    · split
      · exact .of_mid ⟨h.line, h.told, fun hne => absurd rfl hne⟩ trivial List.prefix_rfl
      · exact .of_calm h id List.prefix_rfl
    · rename_i hne
      obtain ⟨hline, hfirst⟩ := h.line.advance hne
      exact .of_mid ⟨hline, hfirst, h.told.eofs, h.told.zero⟩ trivial List.prefix_rfl
  · exact .of_mid ⟨h.line, h.told, fun hne => absurd rfl hne⟩ trivial List.prefix_rfl

theorem got_steps {b : UInt8} {n target : ℕ} (h : Fits m (.got b n target)) (hok : n ≤ target) :
    Steps m (sec k m (.got b n target)).1 (sec k m (.got b n target)).2.loc := by
  obtain ⟨hline, hb, htold⟩ := h
  unfold sec
  dsimp only
  split
  · rename_i heof
    split
    · exact .of_mid ⟨hline.back, ⟨htold.eofs, htold.zero⟩, fun hne => absurd rfl hne⟩ trivial List.prefix_rfl
    · rename_i hnot
      refine .of_mid ⟨hline.eof (heof ▸ hb), ⟨?_, htold.zero⟩, fun _ => ?_⟩ trivial List.prefix_rfl
      · unfold Input.eof
        dsimp only
        rw [htold.eofs]
        simp
      · omega
  · rename_i hne
    split
    · exact .of_mid ⟨hline.copy hb hne, ⟨htold.eofs, htold.zero⟩, fun hnone => absurd rfl hnone⟩ trivial List.prefix_rfl
    · exact .of_calm ⟨hline.copy hb hne, htold.eofs, htold.zero⟩ id List.prefix_rfl

theorem ret_steps {r : ℤ} {eof : Option ℕ} (h : Fits m (.ret r eof)) : Steps m (sec k m (.ret r eof)).1 (sec k m (.ret r eof)).2.loc := by
  obtain ⟨hline, htold, hzero⟩ := h
  refine .of_calm ⟨⟨⟨hline.r, hline.w, hline.e, hline.window, hline.taken, hline.committed, hline.copied, hline.eofs⟩, hline.full⟩,
    ?_, fun x hx hne => ?_⟩ id List.prefix_rfl
  · unfold sec
    dsimp only
    rw [htold.eofs, List.filterMap_append]
    cases eof <;> simp
  · rcases List.mem_append.1 hx with hx | hx
    · exact htold.zero x hx hne
    · rw [List.mem_singleton.1 hx] at hne ⊢
      exact hzero hne

/-- **What a section step does.** -/
theorem sec_steps (hfits : l.Mid → Fits m l) (hcalm : ¬ l.Mid → Calm m) (hok : l.Ok) : Steps m (sec k m l).1 (sec k m l).2.loc := by
  cases l with
  | intr cs =>
    cases cs with
    | nil => exact .of_calm (hcalm id) id List.prefix_rfl
    | cons c cs => exact intr_steps (hcalm id) c cs
  | kill cs => exact kill_steps (hcalm id) cs
  | read n target => exact read_steps (hcalm id) n target
  | got b n target => exact got_steps (hfits trivial) hok
  | ret r eof => exact ret_steps (hfits trivial)
  | idle => exact .of_calm (hcalm id) id List.prefix_rfl

theorem sec_ok (hok : l.Ok) : (sec k m l).2.loc.Ok := by
  cases l with
  | intr cs =>
    cases cs with
    | nil => trivial
    | cons c cs =>
      unfold sec enter
      dsimp only
      split_ifs <;> trivial
  | kill cs =>
    unfold sec
    dsimp only
    split <;> trivial
  | read n target =>
    unfold sec
    dsimp only
    split
    · split
      · split
        · trivial
        · exact hok
      · exact hok
    · trivial
  | got b n target =>
    unfold sec
    dsimp only
    split
    · split <;> trivial
    · split
      · trivial
      · exact (Nat.sub_le n 1).trans hok
  | ret r eof => trivial
  | idle => trivial

/-- calls of `sleep` and `release` do not lead into a section -/
theorem sec_leaves (hleave : (∃ u, (sec k m l).2 = .sleep u (sec k m l).2.loc) ∨ (sec k m l).2 = .release (sec k m l).2.loc) :
    ¬ (sec k m l).2.loc.Mid := by
  cases l with
  | intr cs =>
    cases cs with
    | nil => exact id
    | cons c cs =>
      unfold sec enter
      dsimp only
      split_ifs <;> exact id
  | kill cs =>
    unfold sec
    dsimp only
    split <;> exact id
  | read n target =>
    unfold sec at hleave ⊢
    dsimp only at hleave ⊢
    split_ifs at hleave ⊢
    · rcases hleave with ⟨u, heq⟩ | heq <;> cases heq
    · exact id
    all_goals
      rcases hleave with ⟨u, heq⟩ | heq <;> cases heq
  | got b n target =>
    unfold sec at hleave
    dsimp only at hleave
    split_ifs at hleave <;>
    · rcases hleave with ⟨u, heq⟩ | heq <;> cases heq
  | ret r eof => exact id
  | idle => exact id

theorem call_leads {x : Call} {l' : Loc} (h : call l x = some l') : ¬ l'.Mid ∧ l'.Ok := by
  cases l with
  | idle =>
    cases x with
    | consoleintr cs =>
      cases h
      exact ⟨id, trivial⟩
    | consoleread n =>
      cases h
      exact ⟨id, le_rfl⟩
  | _ => cases h

/-! ## Every run -/

/-- everything that holds in every reachable state -/
structure Good (s : St ι Unit Input Loc) : Prop where
  locks : Locks s
  mid : MidOwned Loc.Mid s
  held : Held Loc.Mid Calm Fits s
  ok : ∀ i, (s.loc i).Ok

/-- a section step that process `i` is about to make -/
theorem Good.steps (h : Good s) (hpc : s.pc i = .sec l) :
    Steps s.mem (sec (s.killed i) s.mem l).1 (sec (s.killed i) s.mem l).2.loc ∧ (sec (s.killed i) s.mem l).2.loc.Ok := by
  obtain ⟨hfits, hcalm⟩ := h.held.inside h.locks h.mid hpc
  have hok := h.ok i
  unfold St.loc at hok
  rw [hpc] at hok
  exact ⟨sec_steps hfits hcalm hok, sec_ok hok⟩

theorem init_good : Good (init : St ι Unit Input Loc) := by
  refine ⟨start_locks _ _, start_mid fun _ => id, ⟨fun _ hi => hi.elim, fun _ => ⟨⟨⟨rfl, rfl, rfl, ⟨le_rfl, Nat.zero_le _, ?_⟩, le_rfl,
    le_rfl, rfl, rfl⟩, fun _ => rfl⟩, rfl, ?_⟩⟩, fun _ => trivial⟩
  · exact fun k hk => absurd hk (Nat.not_lt_zero k)
  · exact nofun

/-- at any time at most one character is in the hands of a reader -/
theorem Good.line (h : Good s) : ∃ t, Line s.mem t ∧ ∀ x ∈ s.mem.returned, x.2 ≠ none → x.1 = 0 := by
  by_cases hmid : ∃ i, (s.pc i).loc.Mid
  · obtain ⟨i, hi⟩ := hmid
    have hfits := h.held.mid i hi
    cases hl : (s.pc i).loc with
    | got c n target =>
      rw [hl] at hfits
      exact ⟨1, hfits.1, hfits.2.2.zero⟩
    | ret r eof =>
      rw [hl] at hfits
      exact ⟨0, hfits.1, hfits.2.1.zero⟩
    | _ =>
      rw [hl] at hi
      exact absurd hi id
  · have hcalm := h.held.calm fun i hi => hmid ⟨i, hi⟩
    exact ⟨0, hcalm.line, hcalm.told.zero⟩

variable [DecidableEq ι]

theorem step_good (h : Good s) (op : Op ι Unit Call Empty) : Good (step prog s op) := by
  have hview := step_view prog s op
  refine ⟨step_locks h.locks op, hview.mid h.mid (fun _ _ _ _ hcall => (call_leads hcall).1) fun _ _ _ _ => sec_leaves,
    hview.held h.locks h.mid h.held (fun _ _ _ _ hcall => (call_leads hcall).1)
      (fun i l _ hpc => ⟨(h.steps hpc).1.fits, (h.steps hpc).1.calm⟩) (fun e => e.elim),
    hview.keeps (J := fun _ loc => ∀ i, (loc i).Ok) h.ok (fun i l _ hpc j => ?_) (fun i x l l' _ _ hcall j => ?_)
      (fun e => e.elim)⟩
  · by_cases hji : j = i
    · subst hji
      rw [update_self]
      exact (h.steps hpc).2
    · rw [update_of_ne hji]
      exact h.ok j
  · by_cases hji : j = i
    · subst hji
      rw [update_self]
      exact (call_leads hcall).2
    · rw [update_of_ne hji]
      exact h.ok j

/-- committed characters stay -/
theorem step_grows (h : Good s) (op : Op ι Unit Call Empty) : s.mem.line <+: (step prog s op).mem.line :=
  (step_view prog s op).keeps (J := fun m _ => s.mem.line <+: m.line) List.prefix_rfl
    (fun _ _ _ hpc => (h.steps hpc).1.grows) (fun _ _ _ _ _ _ _ => List.prefix_rfl) (fun e => e.elim)

theorem run_good (ops : List (Op ι Unit Call Empty)) : Good (run (step prog) init ops) :=
  run_inv (I := Good) (fun _ op h => step_good h op) init init_good ops

/-- **The line discipline.** In every state of any interleaving of `consoleintr` and `consoleread`:
- modulo 2^32 the indices are ordered `r`, `w`, `e` and at most `INPUT_BUF` apart, and a full buffer is committed;
- no step edits a committed character;
- what has been copied to readers are the characters taken out, in order and without the ^D, and these are a prefix of the
  committed ones;
- each ^D that has been taken out has been consumed once; while the lock is free each of them has been consumed by one call that
  has returned, and a call that has consumed one has returned 0. -/
theorem console_line {ι : Type} [DecidableEq ι] (ops : List (Op ι Unit Call Empty)) :
    (((run (step prog) init ops).mem.w - (run (step prog) init ops).mem.r).toNat ≤
        ((run (step prog) init ops).mem.e - (run (step prog) init ops).mem.r).toNat ∧
      ((run (step prog) init ops).mem.e - (run (step prog) init ops).mem.r).toNat ≤ INPUT_BUF ∧
      ((run (step prog) init ops).mem.e = (run (step prog) init ops).mem.r + UInt32.ofNat INPUT_BUF →
        (run (step prog) init ops).mem.w = (run (step prog) init ops).mem.e)) ∧
    (∀ op, (run (step prog) init ops).mem.line <+: (run (step prog) init (ops ++ [op])).mem.line) ∧
    ((run (step prog) init ops).mem.copied =
        ((run (step prog) init ops).mem.line.take (run (step prog) init ops).mem.taken).filter (· ≠ EOF) ∧
      (run (step prog) init ops).mem.copied <+: (run (step prog) init ops).mem.line.filter (· ≠ EOF)) ∧
    (run (step prog) init ops).mem.eofs = ((List.range (run (step prog) init ops).mem.taken).filter fun k =>
      (run (step prog) init ops).mem.line[k]? = some EOF) ∧
    ((run (step prog) init ops).lock = none →
      (run (step prog) init ops).mem.returned.filterMap Prod.snd = (run (step prog) init ops).mem.eofs) ∧
    ∀ x ∈ (run (step prog) init ops).mem.returned, x.2 ≠ none → x.1 = 0 := by
  have hgood := run_good ops
  obtain ⟨t, hline, hzero⟩ := hgood.line
  obtain ⟨h₁, h₂, h₃⟩ := hline.bounds
  have hsize : INPUT_BUF = 128 := rfl
  have htaken : (run (step prog) init ops).mem.taken ≤ (run (step prog) init ops).mem.committed := by omega
  have hcopied : (run (step prog) init ops).mem.copied =
      ((run (step prog) init ops).mem.line.take (run (step prog) init ops).mem.taken).filter (· ≠ EOF) := by
    unfold Input.line
    rw [List.take_take, Nat.min_eq_left htaken]
    exact hline.copied
  refine ⟨⟨?_, ?_, fun hfull => ?_⟩, fun op => ?_, ⟨hcopied, ?_⟩, ?_, fun hlock => ?_, hzero⟩
  · rw [hline.w_sub_r, hline.e_sub_r]
    omega
  · rw [hline.e_sub_r]
    omega
  · have hlen := hline.e_full.1 hfull
    exact (hline.e_eq_w.2 (hline.full (by omega))).symm
  · rw [run_snoc]
    exact step_grows hgood op
  · rw [hcopied]
    have htake := List.take_prefix (run (step prog) init ops).mem.taken (run (step prog) init ops).mem.line
    exact htake.filter _
  · refine hline.eofs.trans (filter_range_congr fun k hk => ?_).symm
    unfold Input.line
    exact List.getElem?_take_of_lt (hk.trans_le htaken)
  · have hcalm := hgood.held.free hgood.locks hgood.mid hlock
    rw [hcalm.told.eofs]
    simp

/-- "a", ^D and a line feed are typed; three reads of 5 bytes get "a", nothing and the line feed -/
def eofOps : List (Op Bool Unit Call Empty) :=
  [.call true (.consoleintr [97, 4, 13])] ++ List.replicate 12 (.next true) ++
    (List.replicate 3 ([.call false (.consoleread 5)] ++ List.replicate 6 (.next false))).flatten

/-- the lock is free, and each ^D has been returned by one call, with 0 -/
theorem console_line_eof :
    (run (step prog) init eofOps).mem.returned = [(1, none), (0, some 1), (1, none)] ∧
    (run (step prog) init eofOps).mem.returned.filterMap Prod.snd = (run (step prog) init eofOps).mem.eofs :=
  ⟨by decide +kernel, (console_line eofOps).2.2.2.2.1 (by decide +kernel)⟩

end Xv6.Console
