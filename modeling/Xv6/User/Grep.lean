/-
`grep` (`grep.c`): the loop that reads, cuts the input into lines and writes those that match.

Each `read` returns as many bytes as it likes, at least one and at most what was asked for, until there are none left: `ks i + 1` is what
read number `i` would return if it could. The bytes of a line that has not ended yet are moved to the front of the buffer and the next
read goes behind them. But where a read brings no newline at all, `p == buf` holds and the loop forgets what is in the buffer.
-/
import Mathlib

namespace Xv6.Grep

abbrev Text := List UInt8

def NL : UInt8 := 10
def STAR : UInt8 := 42
def DOT : UInt8 := 46
def DOLLAR : UInt8 := 36
def CARET : UInt8 := 94

/-! ## The matcher -/

/-- `matchstar`, where `here` is `matchhere` for what follows the star -/
def matchstar (here : Text → Bool) (c : UInt8) : Text → Bool
  | [] => here []
  | t :: text => here (t :: text) || (t == c || c == DOT) && matchstar here c text

/-- search for a regular expression at the beginning of text -/
def matchhere : Text → Text → Bool
  | [], _ => true
  | [c], text =>
    if c = DOLLAR then text.isEmpty
    else
      match text with
      | [] => false
      | t :: _ => c == DOT || c == t
  | c :: d :: re, text =>
    if d = STAR then matchstar (matchhere re) c text
    else
      match text with
      | [] => false
      | t :: text => (c == DOT || c == t) && matchhere (d :: re) text

/-- search at each position, the end included -/
def matchAny (re : Text) : Text → Bool
  | [] => matchhere re []
  | t :: text => matchhere re (t :: text) || matchAny re text

/-- `match` -/
def matchRe (re text : Text) : Bool :=
  match re with
  | [] => matchAny [] text
  | c :: re' => if c = CARET then matchhere re' text else matchAny re text

/-! ## The loop -/

/-- `strchr(p, '\n')`, as a distance; a NUL ends the search -/
def strchrNl (p : Text) : Option ℕ := (p.takeWhile (· ≠ 0)).idxOf? NL

/-- the inner loop from `p` on: what is written, and where `p` ends up. A line takes a byte at least, so there are rounds enough. -/
def lineLoop (pattern : Text) : ℕ → Text → Text × Text
  | 0, p => ([], p)
  | fuel + 1, p =>
    match strchrNl p with
    | none => ([], p)
    | some k =>
      let (out, rest) := lineLoop pattern fuel (p.drop (k + 1))
      ((if matchRe pattern (p.take k) then p.take k ++ [NL] else []) ++ out, rest)

/-- the body of the outer loop with `buf` in the buffer: what is written, and what stays there -/
def oneRead (pattern buf : Text) : Text × Text :=
  let (out, rest) := lineLoop pattern buf.length buf
  -- `if(p == buf) m = 0;`
  (out, if rest.length = buf.length then [] else rest)

/-- `sizeof(buf) - 1` -/
def BUFSIZE : ℕ := 1023

/-- what read number `i` returns when the buffer holds `m` bytes -/
def readNext (ks : ℕ → ℕ) (i m : ℕ) (input : Text) : Text := input.take (min (ks i + 1) (BUFSIZE - m))

/-- the outer loop: the output -/
def grepLoop (pattern : Text) (ks : ℕ → ℕ) : ℕ → ℕ → Text → Text → Text
  | 0, _, _, _ => []
  | fuel + 1, i, buf, input =>
    let x := readNext ks i buf.length input
    if x.isEmpty then []
    else
      let (out, rest) := oneRead pattern (buf ++ x)
      out ++ grepLoop pattern ks fuel (i + 1) rest (input.drop x.length)

/-- what `grep` writes. A read returns a byte at least, so there are rounds enough. -/
def grep (pattern : Text) (ks : ℕ → ℕ) (input : Text) : Text := grepLoop pattern ks input.length 0 [] input

/-- the pieces that the reads return -/
def readsLoop (ks : ℕ → ℕ) : ℕ → ℕ → Text → Text → List Text
  | 0, _, _, _ => []
  | fuel + 1, i, buf, input =>
    let x := readNext ks i buf.length input
    if x.isEmpty then []
    else x :: readsLoop ks fuel (i + 1) (oneRead [] (buf ++ x)).2 (input.drop x.length)

/-- how the reads split the input -/
def reads (ks : ℕ → ℕ) (input : Text) : List Text := readsLoop ks input.length 0 [] input

/-! ## What is to be written -/

/-- the lines that a newline ends, without it -/
def lines (input : Text) : List Text := (input.splitOn NL).dropLast

/-- the lines that match, each with its newline -/
def accepted (pattern input : Text) : Text := ((lines input).filter fun l => matchRe pattern l).flatMap (· ++ [NL])

variable {pattern p q input buf : Text}

theorem lines_cons (h : NL ∉ p) (q : Text) : lines (p ++ NL :: q) = p :: lines q := by
  have hfirst : (p ++ NL :: q).splitOn NL = p :: q.splitOn NL :=
    List.splitOnP_append_cons_of_forall_mem (fun x hx => beq_false_of_ne fun hnl : x = NL => h (hnl ▸ hx)) NL
      (beq_self_eq_true NL) q
  rw [lines, hfirst, List.dropLast_cons_of_ne_nil (List.splitOn_ne_nil NL q), lines]

theorem lines_nil (h : NL ∉ p) : lines p = [] := by
  have hsingle : p.splitOn NL = [p] := List.splitOnP_eq_singleton fun x hx => beq_false_of_ne fun hnl => h (hnl ▸ hx)
  rw [lines, hsingle]
  rfl

theorem accepted_cons (pattern : Text) (h : NL ∉ p) (q : Text) :
    accepted pattern (p ++ NL :: q) = (if matchRe pattern p then p ++ [NL] else []) ++ accepted pattern q := by
  unfold accepted
  rw [lines_cons h, List.filter_cons]
  split
  · rw [List.flatMap_cons]
  · rw [List.nil_append]

theorem accepted_nil (pattern : Text) (h : NL ∉ p) : accepted pattern p = [] := by
  rw [accepted, lines_nil h]
  rfl

/-- under the empty pattern nothing in front of a newline is lost -/
theorem accepted_append (h : NL ∉ p) (hq : NL ∈ q) : accepted [] (p ++ q) = p ++ accepted [] q := by
  obtain ⟨l, r, rfl, hl⟩ := List.eq_append_cons_of_mem hq
  have hall : ∀ t : Text, matchRe [] t = true := by
    intro t
    cases t <;> rfl
  have hpl : NL ∉ p ++ l := by simp [h, hl]
  calc accepted [] (p ++ (l ++ NL :: r))
      = accepted [] ((p ++ l) ++ NL :: r) := by rw [List.append_assoc]
    _ = ((p ++ l) ++ [NL]) ++ accepted [] r := by rw [accepted_cons [] hpl, if_pos (hall _)]
    _ = p ++ ((l ++ [NL]) ++ accepted [] r) := by simp only [List.append_assoc]
    _ = p ++ accepted [] (l ++ NL :: r) := by rw [accepted_cons [] hl, if_pos (hall _)]

/-! ## One buffer -/

theorem strchrNl_eq (h0 : 0 ∉ p) : strchrNl p = p.idxOf? NL := by
  have hall : p.takeWhile (· ≠ 0) = p := by
    rw [List.takeWhile_eq_self_iff]
    intro c hc
    exact decide_eq_true fun h => h0 (h ▸ hc)
  rw [strchrNl, hall]

theorem strchrNl_none (h0 : 0 ∉ p) (h : NL ∉ p) : strchrNl p = none := by
  rw [strchrNl_eq h0, List.idxOf?_eq_none_iff]
  exact h

variable {l r : Text}

theorem strchrNl_some (h0 : 0 ∉ l ++ NL :: r) (hl : NL ∉ l) : strchrNl (l ++ NL :: r) = some l.length := by
  rw [strchrNl_eq h0, List.idxOf?_eq_some_iff]
  refine ⟨by simp, by simp, ?_⟩
  intro j hj
  rw [List.getElem_append_left hj]
  exact fun h => hl (h ▸ List.getElem_mem hj)

theorem lineLoop_none (pattern : Text) (h0 : 0 ∉ p) (h : NL ∉ p) (fuel : ℕ) : lineLoop pattern fuel p = ([], p) := by
  cases fuel with
  | zero => rfl
  | succ fuel => rw [lineLoop, strchrNl_none h0 h]

theorem lineLoop_some (pattern : Text) (h0 : 0 ∉ l ++ NL :: r) (hl : NL ∉ l) (fuel : ℕ) : lineLoop pattern (fuel + 1) (l ++ NL :: r)
      = ((if matchRe pattern l then l ++ [NL] else []) ++ (lineLoop pattern fuel r).1, (lineLoop pattern fuel r).2) := by
  rw [lineLoop, strchrNl_some h0 hl]
  simp

/-- what the inner loop leaves does not depend on the pattern -/
theorem lineLoop_rest (pattern : Text) (fuel : ℕ) (p : Text) : (lineLoop pattern fuel p).2 = (lineLoop [] fuel p).2 := by
  induction fuel generalizing p with
  | zero => rfl
  | succ fuel ih =>
    unfold lineLoop
    cases strchrNl p with
    | none => rfl
    | some k => exact ih _

/-- what the inner loop writes, and what it leaves: the bytes behind the last newline -/
theorem lineLoop_spec (pattern : Text) (fuel : ℕ) (hfuel : p.length ≤ fuel) (h0 : 0 ∉ p) :
    NL ∉ (lineLoop pattern fuel p).2 ∧ (lineLoop pattern fuel p).2 <:+ p ∧
      ∀ more, accepted pattern (p ++ more) = (lineLoop pattern fuel p).1 ++ accepted pattern ((lineLoop pattern fuel p).2 ++ more) := by
  induction fuel generalizing p with
  | zero =>
    obtain rfl : p = [] := List.eq_nil_of_length_eq_zero (by omega)
    exact ⟨List.not_mem_nil, List.suffix_rfl, fun more => rfl⟩
  | succ fuel ih =>
    by_cases hnl : NL ∈ p
    · obtain ⟨l, r, rfl, hl⟩ := List.eq_append_cons_of_mem hnl
      have hr : r.length ≤ fuel := by
        simp only [List.length_append, List.length_cons] at hfuel
        omega
      have hr0 : 0 ∉ r := fun h => h0 (by simp [h])
      obtain ⟨hrest, hsuf, hacc⟩ := ih hr hr0
      rw [lineLoop_some pattern h0 hl]
      refine ⟨hrest, hsuf.trans ⟨l ++ [NL], by simp⟩, ?_⟩
      intro more
      rw [List.append_assoc, List.cons_append, accepted_cons pattern hl, hacc more, List.append_assoc]
    · rw [lineLoop_none pattern h0 hnl]
      exact ⟨hnl, List.suffix_rfl, fun more => rfl⟩

theorem oneRead_rest (pattern buf : Text) : (oneRead pattern buf).2 = (oneRead [] buf).2 := by
  simp only [oneRead, lineLoop_rest pattern]

/-- without a newline the buffer is dropped -/
theorem oneRead_none (pattern : Text) (h0 : 0 ∉ buf) (h : NL ∉ buf) : oneRead pattern buf = ([], []) := by
  rw [oneRead, lineLoop_none pattern h0 h]
  simp

/-- with a newline the beginning of the next line stays -/
theorem oneRead_some (pattern : Text) (h0 : 0 ∉ buf) (h : NL ∈ buf) :
    NL ∉ (oneRead pattern buf).2 ∧ (oneRead pattern buf).2 <:+ buf ∧ (oneRead pattern buf).2.length < buf.length ∧
      ∀ more, accepted pattern (buf ++ more) = (oneRead pattern buf).1 ++ accepted pattern ((oneRead pattern buf).2 ++ more) := by
  obtain ⟨hrest, hsuf, hacc⟩ := lineLoop_spec pattern buf.length le_rfl h0
  have hne : (lineLoop pattern buf.length buf).2.length ≠ buf.length := by
    intro he
    rw [hsuf.eq_of_length he] at hrest
    exact hrest h
  have heq : oneRead pattern buf = lineLoop pattern buf.length buf := by
    simp only [oneRead, if_neg hne]
  rw [heq]
  exact ⟨hrest, hsuf, lt_of_le_of_ne hsuf.length_le hne, hacc⟩

/-! ## The rounds -/

/-- what one round of the outer loop can do, for all patterns at once -/
inductive Round (ks : ℕ → ℕ) (fuel i : ℕ) (buf input : Text) : Prop
  | ended (hin : input = []) (hr : readsLoop ks (fuel + 1) i buf input = [])
      (hg : ∀ pattern, grepLoop pattern ks (fuel + 1) i buf input = [])
  | kept (x later rest : Text) (hin : input = x ++ later) (hx : NL ∈ x) (hlen : later.length < input.length)
      (hnl : NL ∉ rest) (hroom : rest.length < BUFSIZE) (h0 : 0 ∉ rest ++ later)
      (hr : readsLoop ks (fuel + 1) i buf input = x :: readsLoop ks fuel (i + 1) rest later)
      (hg : ∀ pattern, ∃ out, grepLoop pattern ks (fuel + 1) i buf input = out ++ grepLoop pattern ks fuel (i + 1) rest later ∧
        accepted pattern (buf ++ input) = out ++ accepted pattern (rest ++ later))
  | dropped (x later : Text) (hin : input = x ++ later) (hx : NL ∉ x) (hne : x ≠ []) (hlen : later.length < input.length)
      (h0 : 0 ∉ later) (hr : readsLoop ks (fuel + 1) i buf input = x :: readsLoop ks fuel (i + 1) [] later)
      (hg : ∀ pattern, grepLoop pattern ks (fuel + 1) i buf input = grepLoop pattern ks fuel (i + 1) [] later)

/-- what `grep` keeps between two rounds: the beginning of a line, with room behind it -/
structure Ready (buf input : Text) : Prop where
  nl : NL ∉ buf
  room : buf.length < BUFSIZE
  nul : 0 ∉ buf ++ input

theorem readNext_isEmpty (ks : ℕ → ℕ) (i : ℕ) (hroom : buf.length < BUFSIZE) : (readNext ks i buf.length input).isEmpty = input.isEmpty := by
  cases input with
  | nil => simp [readNext]
  | cons c input =>
    have hpos : min (ks i + 1) (BUFSIZE - buf.length) ≠ 0 := by omega
    simp [readNext, hpos]

theorem round (ks : ℕ → ℕ) (fuel i : ℕ) (h : Ready buf input) : Round ks fuel i buf input := by
  by_cases hin : input = []
  · have hempty : (readNext ks i buf.length input).isEmpty = true := by
      rw [readNext_isEmpty ks i h.room, hin]
      rfl
    refine .ended hin ?_ fun pattern => ?_
    · rw [readsLoop, if_pos hempty]
    · rw [grepLoop, if_pos hempty]
  · have hempty : ¬ (readNext ks i buf.length input).isEmpty = true := by
      rw [readNext_isEmpty ks i h.room]
      simpa using hin
    have hpre : readNext ks i buf.length input <+: input := List.take_prefix _ _
    have hroom : (readNext ks i buf.length input).length ≤ BUFSIZE - buf.length := by
      simp only [readNext, List.length_take]
      omega
    have hreads : readsLoop ks (fuel + 1) i buf input = readNext ks i buf.length input ::
        readsLoop ks fuel (i + 1) (oneRead [] (buf ++ readNext ks i buf.length input)).2
          (input.drop (readNext ks i buf.length input).length) := by
      rw [readsLoop, if_neg hempty]
    have hgrep : ∀ pattern, grepLoop pattern ks (fuel + 1) i buf input =
        (oneRead pattern (buf ++ readNext ks i buf.length input)).1 ++
          grepLoop pattern ks fuel (i + 1) (oneRead [] (buf ++ readNext ks i buf.length input)).2
            (input.drop (readNext ks i buf.length input).length) := by
      intro pattern
      rw [grepLoop, if_neg hempty, ← oneRead_rest pattern]
    generalize readNext ks i buf.length input = x at *
    obtain ⟨later, rfl⟩ := hpre
    have hx : x ≠ [] := by simpa using hempty
    have hxpos : 0 < x.length := List.length_pos_iff.mpr hx
    rw [List.drop_left] at hreads hgrep
    have h0 : 0 ∉ (buf ++ x) ++ later := by
      rw [List.append_assoc]
      exact h.nul
    have h0x : 0 ∉ buf ++ x := fun hm => h0 (List.mem_append_left later hm)
    have h0l : 0 ∉ later := fun hm => h0 (List.mem_append_right (buf ++ x) hm)
    have hshort : later.length < (x ++ later).length := by
      rw [List.length_append]
      omega
    by_cases hnl : NL ∈ x
    · obtain ⟨hrest, hsuf, hlt, -⟩ := oneRead_some [] h0x (List.mem_append_right buf hnl)
      refine .kept x later _ rfl hnl hshort hrest ?_ ?_ hreads ?_
      · rw [List.length_append] at hlt
        omega
      · intro hm
        rcases List.mem_append.mp hm with hm | hm
        · exact h0x (hsuf.mem hm)
        · exact h0l hm
      · intro pattern
        obtain ⟨-, -, -, hacc⟩ := oneRead_some pattern h0x (List.mem_append_right buf hnl)
        refine ⟨_, hgrep pattern, ?_⟩
        rw [← List.append_assoc, hacc later, oneRead_rest]
    · have hbx : NL ∉ buf ++ x := by simp [h.nl, hnl]
      refine .dropped x later rfl hnl hx hshort h0l ?_ ?_
      · rw [hreads, oneRead_none [] h0x hbx]
      · intro pattern
        rw [hgrep pattern, oneRead_none pattern h0x hbx, oneRead_none [] h0x hbx]
        rfl

theorem Ready.empty (h0 : 0 ∉ input) : Ready [] input := ⟨List.not_mem_nil, by decide, h0⟩

/-- the pieces make up the input -/
theorem readsLoop_flatten (ks : ℕ → ℕ) (fuel i : ℕ) (h : Ready buf input) (hfuel : input.length ≤ fuel) :
    (readsLoop ks fuel i buf input).flatten = input := by
  induction fuel generalizing i buf input with
  | zero =>
    rw [List.eq_nil_of_length_eq_zero (Nat.le_zero.mp hfuel)]
    rfl
  | succ fuel ih =>
    cases round ks fuel i h with
    | ended hin hr hg => rw [hr, hin, List.flatten_nil]
    | kept x later rest hin hx hlen hnl hroom h0 hr hg =>
      rw [hr, List.flatten_cons, ih (i + 1) ⟨hnl, hroom, h0⟩ (by omega), hin]
    | dropped x later hin hx hne hlen h0 hr hg =>
      rw [hr, List.flatten_cons, ih (i + 1) (.empty h0) (by omega), hin]

/-- no read without a newline comes before one with a newline -/
def Unbroken (pieces : List Text) : Prop := pieces.Pairwise fun x y => NL ∈ y → NL ∈ x

instance (pieces : List Text) : Decidable (Unbroken pieces) := inferInstanceAs (Decidable (pieces.Pairwise _))

theorem unbroken_of_notMem {pieces : List Text} (h : NL ∉ pieces.flatten) : Unbroken pieces :=
  List.pairwise_of_forall_mem_list fun _ _ _ hy hnl => absurd (List.mem_flatten_of_mem hy hnl) h

/-- unbroken reads lose nothing -/
theorem grepLoop_unbroken (pattern : Text) (ks : ℕ → ℕ) (fuel i : ℕ) (h : Ready buf input) (hfuel : input.length ≤ fuel)
    (hu : Unbroken (readsLoop ks fuel i buf input)) : grepLoop pattern ks fuel i buf input = accepted pattern (buf ++ input) := by
  induction fuel generalizing i buf input with
  | zero =>
    rw [List.eq_nil_of_length_eq_zero (Nat.le_zero.mp hfuel), List.append_nil, accepted_nil pattern h.nl]
    rfl
  | succ fuel ih =>
    cases round ks fuel i h with
    | ended hin hr hg => rw [hg, hin, List.append_nil, accepted_nil pattern h.nl]
    | kept x later rest hin hx hlen hnl hroom h0 hr hg =>
      obtain ⟨out, hg, hacc⟩ := hg pattern
      rw [hr] at hu
      rw [hg, hacc, ih (i + 1) ⟨hnl, hroom, h0⟩ (by omega) (List.pairwise_cons.mp hu).2]
    | dropped x later hin hx hne hlen h0 hr hg =>
      rw [hr] at hu
      obtain ⟨hfirst, hu⟩ := List.pairwise_cons.mp hu
      -- no later piece has a newline, so there is nothing to be lost
      have hlater : NL ∉ later := by
        rw [← readsLoop_flatten ks fuel (i + 1) (.empty h0) (by omega)]
        intro hm
        obtain ⟨y, hy, hnl⟩ := List.mem_flatten.mp hm
        exact hx (hfirst y hy hnl)
      have hall : NL ∉ buf ++ input := by
        rw [hin]
        simp [h.nl, hx, hlater]
      rw [hg, ih (i + 1) (.empty h0) (by omega) hu, accepted_nil pattern hall, List.nil_append, accepted_nil pattern hlater]

/-- `grep` with the empty pattern never writes more than it should -/
theorem grepLoop_length_le (ks : ℕ → ℕ) (fuel i : ℕ) (h : Ready buf input) (hfuel : input.length ≤ fuel) :
    (grepLoop [] ks fuel i buf input).length ≤ (accepted [] (buf ++ input)).length := by
  induction fuel generalizing i buf input with
  | zero => exact Nat.zero_le _
  | succ fuel ih =>
    cases round ks fuel i h with
    | ended hin hr hg =>
      rw [hg]
      exact Nat.zero_le _
    | kept x later rest hin hx hlen hnl hroom h0 hr hg =>
      obtain ⟨out, hg, hacc⟩ := hg []
      rw [hg, hacc, List.length_append, List.length_append]
      exact Nat.add_le_add_left (ih (i + 1) ⟨hnl, hroom, h0⟩ (by omega)) _
    | dropped x later hin hx hne hlen h0 hr hg =>
      have hlater : (grepLoop [] ks fuel (i + 1) [] later).length ≤ (accepted [] later).length :=
        ih (i + 1) (.empty h0) (by omega)
      rw [hg]
      refine hlater.trans ?_
      by_cases hnl : NL ∈ later
      · have hbx : NL ∉ buf ++ x := by simp [h.nl, hx]
        rw [hin, ← List.append_assoc, accepted_append hbx hnl, List.length_append]
        exact Nat.le_add_left _ _
      · rw [accepted_nil [] hnl]
        exact Nat.zero_le _

/-- broken reads lose the bytes of the piece without a newline -/
theorem unbroken_of_grepLoop (ks : ℕ → ℕ) (fuel i : ℕ) (h : Ready buf input) (hfuel : input.length ≤ fuel)
    (hg : grepLoop [] ks fuel i buf input = accepted [] (buf ++ input)) : Unbroken (readsLoop ks fuel i buf input) := by
  induction fuel generalizing i buf input with
  | zero => exact List.Pairwise.nil
  | succ fuel ih =>
    cases round ks fuel i h with
    | ended hin hr _ =>
      rw [hr]
      exact List.Pairwise.nil
    | kept x later rest hin hx hlen hnl hroom h0 hr hout =>
      obtain ⟨out, hout, hacc⟩ := hout []
      rw [hout, hacc] at hg
      rw [hr]
      exact List.pairwise_cons.mpr
        ⟨fun _ _ _ => hx, ih (i + 1) ⟨hnl, hroom, h0⟩ (by omega) (List.append_cancel_left hg)⟩
    | dropped x later hin hx hne hlen h0 hr hout =>
      have hbx : NL ∉ buf ++ x := by simp [h.nl, hx]
      have hlater : NL ∉ later := by
        intro hnl
        have hle := grepLoop_length_le ks fuel (i + 1) (.empty h0) (by omega)
        rw [← hout, hg, hin, ← List.append_assoc, accepted_append hbx hnl, List.nil_append] at hle
        have hpos : 0 < x.length := List.length_pos_iff.mpr hne
        simp only [List.length_append] at hle
        omega
      apply unbroken_of_notMem
      rw [readsLoop_flatten ks (fuel + 1) i h hfuel, hin]
      simp [hx, hlater]

/-- **`grep` and short reads.** for every input without NULs and every way the reads split it, `grep` writes exactly the lines that match,
    for all patterns, just when no read without a newline comes before one with a newline -/
theorem grep_split (ks : ℕ → ℕ) (input : Text) (h0 : 0 ∉ input) :
    (reads ks input).flatten = input ∧ ((∀ pattern, grep pattern ks input = accepted pattern input) ↔ Unbroken (reads ks input)) := by
  have hready : Ready [] input := .empty h0
  refine ⟨readsLoop_flatten ks _ 0 hready le_rfl, fun hall => ?_, fun hu pattern => ?_⟩
  · exact unbroken_of_grepLoop ks _ 0 hready le_rfl (hall [])
  · exact grepLoop_unbroken pattern ks _ 0 hready le_rfl hu

/-- `ab` and its newline, all at once -/
theorem grep_split_whole : (0 : UInt8) ∉ [97, 98, NL] ∧ grep [97, 98] (fun _ => 511) [97, 98, NL] = [97, 98, NL] := by
  have h0 : (0 : UInt8) ∉ [97, 98, NL] := by decide
  have hu : Unbroken (reads (fun _ => 511) [97, 98, NL]) := by decide +kernel
  refine ⟨h0, ?_⟩
  rw [((grep_split (fun _ => 511) [97, 98, NL] h0).2.mpr hu) [97, 98]]
  decide +kernel

/-- `ab` and its newline, read as `a` and the rest: nothing is written, though the line matches -/
theorem grep_broken : reads (fun i => i) [97, 98, NL] = [[97], [98, NL]] ∧
    grep [97, 98] (fun i => i) [97, 98, NL] = [] ∧ accepted [97, 98] [97, 98, NL] = [97, 98, NL] := by
  decide +kernel

/-! ## What the matcher accepts -/

/-- what a part of a pattern stands for -/
inductive Item
  /-- any number of copies of the character -/
  | star (c : UInt8)
  | char (c : UInt8)
  /-- the end of the text -/
  | eot
  deriving DecidableEq

/-- a pattern, read from left to right -/
def items : Text → List Item
  | [] => []
  | [c] => if c = DOLLAR then [.eot] else [.char c]
  | c :: d :: re => if d = STAR then .star c :: items re else .char c :: items (d :: re)

/-- a character stands for itself, and `.` for any one -/
def Stands (c t : UInt8) : Prop := c = DOT ∨ c = t

/-- the parts match the beginning of the text, one after another -/
inductive Matches : List Item → Text → Prop
  | nil (text : Text) : Matches [] text
  | star {c : UInt8} {is : List Item} {copies text : Text} (hcopies : ∀ t ∈ copies, Stands c t) (h : Matches is text) :
    Matches (.star c :: is) (copies ++ text)
  | char {c t : UInt8} {is : List Item} {text : Text} (hc : Stands c t) (h : Matches is text) : Matches (.char c :: is) (t :: text)
  | eot : Matches [.eot] []

/-- the text contains a match: at its start after a leading `^`, and anywhere else, the end included, without it -/
def Contains (re text : Text) : Prop :=
  if re.head? = some CARET then Matches (items re.tail) text else ∃ before after, text = before ++ after ∧ Matches (items re) after

variable {c : UInt8} {is : List Item} {text : Text}

theorem matches_star_iff : Matches (.star c :: is) text ↔
    ∃ copies rest, text = copies ++ rest ∧ (∀ t ∈ copies, Stands c t) ∧ Matches is rest := by
  constructor
  · rintro ⟨⟩
    rename_i copies rest hcopies h
    exact ⟨copies, rest, rfl, hcopies, h⟩
  · rintro ⟨copies, rest, rfl, hcopies, h⟩
    exact .star hcopies h

theorem matches_char_iff {t : UInt8} : Matches (.char c :: is) (t :: text) ↔ Stands c t ∧ Matches is text := by
  constructor
  · rintro ⟨⟩
    rename_i hc h
    exact ⟨hc, h⟩
  · rintro ⟨hc, h⟩
    exact .char hc h

/-- `matchstar` tries every number of copies -/
theorem matchstar_iff {here : Text → Bool} : matchstar here c text = true ↔
    ∃ copies rest, text = copies ++ rest ∧ (∀ t ∈ copies, Stands c t) ∧ here rest = true := by
  induction text with
  | nil =>
    constructor
    · intro h
      exact ⟨[], [], rfl, nofun, h⟩
    · rintro ⟨copies, rest, heq, -, h⟩
      obtain ⟨rfl, rfl⟩ := List.append_eq_nil_iff.1 heq.symm
      exact h
  | cons t text ih =>
    simp only [matchstar, Bool.or_eq_true, Bool.and_eq_true, beq_iff_eq, ih]
    constructor
    · rintro (h | ⟨ht, copies, rest, rfl, hcopies, h⟩)
      · exact ⟨[], t :: text, rfl, nofun, h⟩
      · refine ⟨t :: copies, rest, rfl, ?_, h⟩
        intro u hu
        rcases List.mem_cons.1 hu with rfl | hu
        · exact ht.symm.imp_right Eq.symm
        · exact hcopies u hu
    · rintro ⟨copies, rest, heq, hcopies, h⟩
      cases copies with
      | nil => exact .inl (heq ▸ h)
      | cons u copies =>
        obtain ⟨rfl, rfl⟩ := List.cons.inj heq
        have hu : Stands c t := hcopies t List.mem_cons_self
        exact .inr ⟨hu.symm.imp_left Eq.symm, copies, rest, rfl, fun v hv => hcopies v (List.mem_cons_of_mem t hv), h⟩

theorem matchhere_iff : ∀ re text, matchhere re text = true ↔ Matches (items re) text
  | [], text => iff_of_true rfl (.nil text)
  | [c], text => by
    unfold matchhere items
    split
    · constructor
      · intro h
        rw [List.isEmpty_iff.1 h]
        exact .eot
      · rintro ⟨⟩
        rfl
    · cases text with
      | nil => exact iff_of_false Bool.false_ne_true nofun
      | cons t text =>
        simp only [matches_char_iff, Stands, Bool.or_eq_true, beq_iff_eq]
        exact (and_iff_left (Matches.nil text)).symm
  | c :: d :: re, text => by
    unfold matchhere items
    split
    · rw [matchstar_iff, matches_star_iff]
      simp only [matchhere_iff re]
    · cases text with
      | nil => exact iff_of_false Bool.false_ne_true nofun
      | cons t text =>
        simp only [matches_char_iff, Stands, Bool.and_eq_true, Bool.or_eq_true, beq_iff_eq, matchhere_iff (d :: re) text]

theorem matchAny_iff {re : Text} : matchAny re text = true ↔ ∃ before after, text = before ++ after ∧ Matches (items re) after := by
  induction text with
  | nil =>
    rw [matchAny, matchhere_iff]
    constructor
    · intro h
      exact ⟨[], [], rfl, h⟩
    · rintro ⟨before, after, heq, h⟩
      obtain ⟨rfl, rfl⟩ := List.append_eq_nil_iff.1 heq.symm
      exact h
  | cons t text ih =>
    rw [matchAny, Bool.or_eq_true, matchhere_iff, ih]
    constructor
    · rintro (h | ⟨before, after, rfl, h⟩)
      · exact ⟨[], t :: text, rfl, h⟩
      · exact ⟨t :: before, after, rfl, h⟩
    · rintro ⟨before, after, heq, h⟩
      cases before with
      | nil => exact .inl (heq ▸ h)
      | cons u before => exact .inr ⟨before, after, (List.cons.inj heq).2, h⟩

/-- **The matcher.** It finds a match just when the text contains one. -/
theorem match_iff (re text : Text) : matchRe re text = true ↔ Contains re text := by
  unfold matchRe Contains
  cases re with
  | nil => exact matchAny_iff
  | cons c re =>
    simp only [List.head?_cons, Option.some.injEq, List.tail_cons]
    split
    · exact matchhere_iff re text
    · exact matchAny_iff

end Xv6.Grep
