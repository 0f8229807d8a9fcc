/-
The parser of the shell (`sh.c`).

A pointer into the line is the text from there on, so `es` is the empty text and `*s` is its first character, NUL at the end. A word is
held as the source holds it, by the pointers to its start and to its end; `nulterminate` writes a NUL at every end, and only then are
the words strings. `parseexec` goes on to fill in `argv` after it has wrapped the command into redirections, so these are collected in
a list and wrapped around the finished command. The mutually recursive functions take fuel. `malloc` is assumed to succeed.

The grammar is a relation between the tokens, which are what `gettoken` returns in turn, and the tree:
  line ::= pipe {'&'} [';' line]
  pipe ::= exec ['|' pipe]
  exec ::= '(' line ')' redirs | redirs {word redirs}
  redirs ::= {('<' | '>' | '>>') word}
-/
import Mathlib
import Xv6.Kernel.Basic

namespace Xv6.Sh

open Xv6.Kernel (bind_ok bind_error ok_bind)

/-! ## Model -/

abbrev Text := List Char

def whitespace : Text := [' ', '\t', '\r', '\n', '\x0b']

def symbols : Text := ['<', '|', '>', '&', ';', '(', ')']

def MAXARGS : ℕ := 10

inductive Err
  /-- "leftovers" and "syntax" -/
  | leftovers
  /-- "missing file for redirection" -/
  | missingFile
  /-- "parseblock" -/
  | parseblock
  /-- "syntax - missing )" -/
  | missingParen
  /-- "syntax", in the middle of a command -/
  | badToken
  /-- "too many args" -/
  | tooManyArgs
  /-- not an error of the shell -/
  | fuel
  deriving DecidableEq

/-- the two kinds of redirection: `O_RDONLY` to descriptor 0 and `O_WRONLY|O_CREATE` to descriptor 1 -/
inductive Dir
  | input
  | output
  deriving DecidableEq

/-- a command; `α` is what its words are -/
inductive Cmd (α : Type)
  | exec (argv : List α)
  | redir (cmd : Cmd α) (file : α) (dir : Dir)
  | pipe (left right : Cmd α)
  | list (left right : Cmd α)
  | back (cmd : Cmd α)
  deriving DecidableEq

/-- the pointers `q` and `eq` to the start and the end of a word -/
structure Arg where
  q : Text
  eq : Text

/-- `*s` -/
def deref (s : Text) : Char := s.headD '\x00'

/-- `while(s < es && strchr(whitespace, *s)) s++` -/
def skip (s : Text) : Text := s.dropWhile fun c => c ∈ whitespace

def wordChar (c : Char) : Bool := c ∉ whitespace ∧ c ∉ symbols

/-- what `gettoken` returns, and the pointers that it sets -/
structure Token where
  ret : Char
  arg : Arg
  rest : Text

/-- the switch of `gettoken`: `ret`, and where `s` is then -/
def scan : Text → Char × Text
  | [] => ('\x00', [])
  | c :: s =>
    if c = '\x00' then ('\x00', c :: s)
    else if c ∈ ['|', '(', ')', ';', '&', '<'] then (c, s)
    else if c = '>' then if deref s = '>' then ('+', s.tail) else ('>', s)
    else ('a', (c :: s).dropWhile wordChar)

def gettoken (s : Text) : Token := ⟨(scan (skip s)).1, ⟨skip s, (scan (skip s)).2⟩, skip (scan (skip s)).2⟩

/-- what `peek` returns; it leaves the pointer at `skip s` -/
def peek (toks : Text) (s : Text) : Bool := deref (skip s) ≠ '\x00' ∧ deref (skip s) ∈ toks

def Cmd.wrap {α : Type} (c : Cmd α) (rs : List (α × Dir)) : Cmd α := rs.foldl (fun c r => .redir c r.1 r.2) c

/-- the redirections that `parseredirs` wraps its command into -/
def parseredirs : ℕ → Text → Except Err (List (Arg × Dir) × Text)
  | 0, _ => .error .fuel
  | n + 1, s =>
    if peek ['<', '>'] s then
      -- `>` and `>>` do the same
      if (gettoken (gettoken (skip s)).rest).ret ≠ 'a' then .error .missingFile
      else do
        let (rs, s') ← parseredirs n (gettoken (gettoken (skip s)).rest).rest
        return (((gettoken (gettoken (skip s)).rest).arg, if (gettoken (skip s)).ret = '<' then .input else .output) :: rs, s')
    else .ok ([], skip s)

/-- the loop of `parseexec`, with `argc` words already read: the words that follow and the redirections between them -/
def parseargs : ℕ → ℕ → Text → Except Err (List Arg × List (Arg × Dir) × Text)
  | 0, _, _ => .error .fuel
  | n + 1, argc, s =>
    if peek ['|', ')', '&', ';'] s then .ok ([], [], skip s)
    else if (gettoken (skip s)).ret = '\x00' then .ok ([], [], (gettoken (skip s)).rest)
    else if (gettoken (skip s)).ret ≠ 'a' then .error .badToken
    else if MAXARGS ≤ argc + 1 then .error .tooManyArgs
    else do
      let (rs, s₁) ← parseredirs n (gettoken (skip s)).rest
      let (argv, rs', s₂) ← parseargs n (argc + 1) s₁
      return ((gettoken (skip s)).arg :: argv, rs ++ rs', s₂)

/-- the loop of `parseline` -/
def parsebacks : ℕ → Cmd Arg → Text → Except Err (Cmd Arg × Text)
  | 0, _, _ => .error .fuel
  | n + 1, cmd, s => if peek ['&'] s then parsebacks n (.back cmd) (gettoken (skip s)).rest else .ok (cmd, skip s)

mutual

def parseline : ℕ → Text → Except Err (Cmd Arg × Text)
  | 0, _ => .error .fuel
  | n + 1, s => do
    let (cmd, s₁) ← parsepipe n s
    let (cmd, s₂) ← parsebacks n cmd s₁
    if peek [';'] s₂ then
      let (rest, s₃) ← parseline n (gettoken (skip s₂)).rest
      return (.list cmd rest, s₃)
    else return (cmd, skip s₂)

def parsepipe : ℕ → Text → Except Err (Cmd Arg × Text)
  | 0, _ => .error .fuel
  | n + 1, s => do
    let (cmd, s₁) ← parseexec n s
    if peek ['|'] s₁ then
      let (rest, s₂) ← parsepipe n (gettoken (skip s₁)).rest
      return (.pipe cmd rest, s₂)
    else return (cmd, skip s₁)

def parseblock : ℕ → Text → Except Err (Cmd Arg × Text)
  | 0, _ => .error .fuel
  | n + 1, s =>
    if peek ['('] s = false then .error .parseblock
    else do
      let (cmd, s₁) ← parseline n (gettoken (skip s)).rest
      if peek [')'] s₁ = false then .error .missingParen
      else
        let (rs, s₂) ← parseredirs n (gettoken (skip s₁)).rest
        return (cmd.wrap rs, s₂)

def parseexec : ℕ → Text → Except Err (Cmd Arg × Text)
  | 0, _ => .error .fuel
  | n + 1, s =>
    if peek ['('] s then parseblock n (skip s)
    else do
      let (rs, s₁) ← parseredirs n (skip s)
      let (argv, rs', s₂) ← parseargs n 0 s₁
      return ((Cmd.exec argv).wrap (rs ++ rs'), s₂)

end

/-- `*eq = 0` for every word, in a line of length `n` -/
def nulterminate (n : ℕ) : Cmd Arg → Text → Text
  | .exec argv, buf => argv.foldl (fun buf a => buf.set (n - a.eq.length) '\x00') buf
  | .redir c file _, buf => (nulterminate n c buf).set (n - file.eq.length) '\x00'
  | .pipe l r, buf => nulterminate n r (nulterminate n l buf)
  | .list l r, buf => nulterminate n r (nulterminate n l buf)
  | .back c, buf => nulterminate n c buf

/-- the string that a word's first pointer points to -/
def cstring (n : ℕ) (buf : Text) (a : Arg) : Text := (buf.drop (n - a.q.length)).takeWhile fun c => c ≠ '\x00'

def Cmd.map {α β : Type} (f : α → β) : Cmd α → Cmd β
  | .exec argv => .exec (argv.map f)
  | .redir c file dir => .redir (c.map f) (f file) dir
  | .pipe l r => .pipe (l.map f) (r.map f)
  | .list l r => .list (l.map f) (r.map f)
  | .back c => .back (c.map f)

/-- the text before the NUL -/
def upToNul (line : Text) : Text := line.takeWhile fun c => c ≠ '\x00'

/-- the command of a line, with its words as strings -/
def parsecmd (fuel : ℕ) (line : Text) : Except Err (Cmd Text) := do
  let (cmd, s) ← parseline fuel (upToNul line)
  if skip s ≠ [] then .error .leftovers
  else
    let buf := nulterminate (upToNul line).length cmd (upToNul line ++ ['\x00'])
    return cmd.map (cstring (upToNul line).length buf)

/-! ## Tokens and the grammar -/

/-- `>>` is the symbol `+`, as in `gettoken` -/
inductive Tok
  | sym (c : Char)
  | word (w : Text)
  deriving DecidableEq

/-- the word between the two pointers -/
def Arg.text (a : Arg) : Text := a.q.take (a.q.length - a.eq.length)

def Token.tok (t : Token) : Tok := if t.ret = 'a' then .word t.arg.text else .sym t.ret

theorem skip_suffix (s : Text) : skip s <:+ s := List.dropWhile_suffix _

theorem skip_skip (s : Text) : skip (skip s) = skip s := List.dropWhile_idempotent _ s

theorem gettoken_skip (s : Text) : gettoken (skip s) = gettoken s := by
  unfold gettoken
  rw [skip_skip]

theorem peek_skip (toks s : Text) : peek toks (skip s) = peek toks s := by
  unfold peek
  rw [skip_skip]

/-- the text from a pointer on that has passed blanks -/
theorem deref_skip (s : Text) : deref (skip s) ∉ whitespace := by
  unfold skip deref
  induction s with
  | nil => decide
  | cons c s ih =>
    rw [List.dropWhile_cons]
    split
    · exact ih
    · rename_i hc
      exact fun hmem => hc (decide_eq_true hmem)

/-- a word in the text `s` -/
structure Spans (s : Text) (a : Arg) : Prop where
  start : a.q <:+ s
  split : ∃ w, a.q = w ++ a.eq ∧ w ≠ [] ∧ ∀ c ∈ w, wordChar c = true
  stop : ∀ c ∈ a.eq.head?, wordChar c = false

/-- **What comes next**: the end, a symbol or a word. -/
inductive Next (s : Text) : Prop
  | done (hret : (gettoken s).ret = '\x00') (hc : deref (skip s) = '\x00')
  | sym (hret : (gettoken s).ret ∈ ['|', '(', ')', ';', '&', '<', '>', '+'])
      (hc : deref (skip s) = if (gettoken s).ret = '+' then '>' else (gettoken s).ret)
      (hrest : (gettoken s).rest.length < s.length)
  | word (hret : (gettoken s).ret = 'a') (hnul : deref (skip s) ≠ '\x00') (hc : deref (skip s) ∉ symbols) (hspan : Spans s (gettoken s).arg)
      (hrest : (gettoken s).rest.length < s.length)

theorem scan_suffix (q : Text) : (scan q).2 <:+ q := by
  unfold scan
  split
  · exact List.suffix_rfl
  · split
    · exact List.suffix_rfl
    · split
      · exact List.suffix_cons ..
      · split
        · split
          · exact (List.tail_suffix _).trans (List.suffix_cons ..)
          · exact List.suffix_cons ..
        · exact List.dropWhile_suffix _

theorem rest_suffix (s : Text) : (gettoken s).rest <:+ s := (skip_suffix _).trans ((scan_suffix _).trans (skip_suffix s))

theorem not_wordChar_of_dropWhile (s : Text) : ∀ c ∈ (s.dropWhile wordChar).head?, wordChar c = false := by
  intro c hc
  have hnot := List.head?_dropWhile_not wordChar s
  rw [hc] at hnot
  exact hnot

theorem mem_symbols {c : Char} : c ∈ symbols ↔ c = '>' ∨ c ∈ ['|', '(', ')', ';', '&', '<'] := by
  simp only [symbols, List.mem_cons, List.not_mem_nil, or_false]
  tauto

/-- a word begins at `c` -/
theorem scan_word {c : Char} {q : Text} (hnul : c ≠ '\x00') (hws : c ∉ whitespace) (hsym : c ∉ symbols) :
    scan (c :: q) = ('a', q.dropWhile wordChar) := by
  have hchar : wordChar c = true := decide_eq_true ⟨hws, hsym⟩
  rw [mem_symbols, not_or] at hsym
  unfold scan
  dsimp only
  rw [if_neg hnul, if_neg hsym.2, if_neg hsym.1, List.dropWhile_cons_of_pos hchar]

theorem next (s : Text) : Next s := by
  have hws := deref_skip s
  have hskip := (skip_suffix s).length_le
  have hrest : (gettoken s).rest.length ≤ (scan (skip s)).2.length := (skip_suffix _).length_le
  cases hq : skip s with
  | nil =>
    refine .done ?_ ?_
    · unfold gettoken
      rw [hq]
      rfl
    · rw [hq]
      rfl
  | cons c q =>
    rw [hq] at hws hskip hrest
    change c ∉ whitespace at hws
    have hret : (gettoken s).ret = (scan (c :: q)).1 := by
      unfold gettoken
      rw [hq]
    have hc : deref (skip s) = c := by
      rw [hq]
      rfl
    rw [List.length_cons] at hskip
    by_cases hnul : c = '\x00'
    · subst hnul
      exact .done hret hc
    · by_cases hsym : c ∈ symbols
      · by_cases hgt : c = '>'
        · subst hgt
          have hscan : scan ('>' :: q) = if deref q = '>' then ('+', q.tail) else ('>', q) := rfl
          rw [hscan] at hret hrest
          split at hret
          · rename_i happ
            rw [if_pos happ] at hrest
            dsimp only at hret
            have htail := (List.tail_suffix q).length_le
            refine .sym ?_ ?_ (by dsimp only at hrest; omega)
            · rw [hret]
              decide
            · rw [hret, hc]
              rfl
          · rename_i happ
            rw [if_neg happ] at hrest
            dsimp only at hret
            refine .sym ?_ ?_ (by dsimp only at hrest; omega)
            · rw [hret]
              decide
            · rw [hret, hc]
              rfl
        · have hone := (mem_symbols.1 hsym).resolve_left hgt
          have hscan : scan (c :: q) = (c, q) := by
            unfold scan
            dsimp only
            rw [if_neg hnul, if_pos hone]
          rw [hscan] at hret hrest
          refine .sym ?_ ?_ (by dsimp only at hrest; omega)
          · rw [hret]
            exact List.mem_append_left ['>', '+'] hone
          · rw [hret, hc, if_neg]
            rintro rfl
            exact absurd hsym (by decide)
      · have hchar : wordChar c = true := decide_eq_true ⟨hws, hsym⟩
        have hscan := scan_word (q := q) hnul hws hsym
        have hdrop := (List.dropWhile_suffix (l := q) wordChar).length_le
        rw [hscan] at hret hrest
        refine .word hret ?_ ?_ ⟨skip_suffix s, ⟨c :: q.takeWhile wordChar, ?_, nofun, ?_⟩, ?_⟩ (by dsimp only at hrest; omega)
        · rw [hc]
          exact hnul
        · rw [hc]
          exact hsym
        · change skip s = _ ++ (scan (skip s)).2
          rw [hq, hscan, List.cons_append, List.takeWhile_append_dropWhile]
        · intro x hx
          rcases List.mem_cons.1 hx with rfl | hx
          · exact hchar
          · exact List.mem_takeWhile_imp hx
        · change ∀ x ∈ ((scan (skip s)).2).head?, _
          rw [hq, hscan]
          exact not_wordChar_of_dropWhile q

/-- at the end of the line the pointer stays -/
theorem scan_of_end {q : Text} (h : (scan q).1 = '\x00') : (scan q).2 = q := by
  cases q with
  | nil => rfl
  | cons c q =>
    by_cases hc : c = '\x00'
    · subst hc
      rfl
    · unfold scan at h
      dsimp only at h
      rw [if_neg hc] at h
      split at h
      · exact absurd h hc
      · split at h
        · split at h
          · change '+' = '\x00' at h
            exact absurd h (by decide)
          · change '>' = '\x00' at h
            exact absurd h (by decide)
        · change 'a' = '\x00' at h
          exact absurd h (by decide)

theorem rest_of_end {s : Text} (h : (gettoken s).ret = '\x00') : (gettoken s).rest = skip s := by
  change skip (scan (skip s)).2 = skip s
  rw [scan_of_end h, skip_skip]

theorem rest_lt {s : Text} (h : (gettoken s).ret ≠ '\x00') : (gettoken s).rest.length < s.length := by
  cases next s with
  | done hret => exact absurd hret h
  | sym _ _ hrest => exact hrest
  | word _ _ _ _ hrest => exact hrest

/-- what `gettoken` returns in turn -/
def tokens (s : Text) : List Tok :=
  if _h : (gettoken s).ret = '\x00' then [] else (gettoken s).tok :: tokens (gettoken s).rest
termination_by s.length
decreasing_by exact rest_lt _h

/-- redirs ::= {('<' | '>' | '>>') word} -/
inductive Redirs : List Tok → List (Text × Dir) → Prop
  | nil : Redirs [] []
  | input {w ts rs} (h : Redirs ts rs) : Redirs (.sym '<' :: .word w :: ts) ((w, .input) :: rs)
  | output {w ts rs} (h : Redirs ts rs) : Redirs (.sym '>' :: .word w :: ts) ((w, .output) :: rs)
  | append {w ts rs} (h : Redirs ts rs) : Redirs (.sym '+' :: .word w :: ts) ((w, .output) :: rs)

/-- {word redirs} -/
inductive Args : List Tok → List Text → List (Text × Dir) → Prop
  | nil : Args [] [] []
  | cons {w ts rs ts' ws rs'} (h : Redirs ts rs) (h' : Args ts' ws rs') : Args (.word w :: (ts ++ ts')) (w :: ws) (rs ++ rs')

inductive Kind
  | line
  | pipe
  | exec

/-- the tokens derive from the non-terminal, and this is the tree of the derivation -/
inductive Derives : Kind → List Tok → Cmd Text → Prop
  | line {ts c} (h : Derives .pipe ts c) (n : ℕ) : Derives .line (ts ++ List.replicate n (.sym '&')) (Cmd.back^[n] c)
  | list {ts c ts' c'} (h : Derives .pipe ts c) (n : ℕ) (h' : Derives .line ts' c') :
    Derives .line (ts ++ (List.replicate n (.sym '&') ++ .sym ';' :: ts')) (.list (Cmd.back^[n] c) c')
  | stage {ts c} (h : Derives .exec ts c) : Derives .pipe ts c
  | pipe {ts c ts' c'} (h : Derives .exec ts c) (h' : Derives .pipe ts' c') : Derives .pipe (ts ++ .sym '|' :: ts') (.pipe c c')
  | block {ts c ts' rs} (h : Derives .line ts c) (h' : Redirs ts' rs) :
    Derives .exec (.sym '(' :: (ts ++ .sym ')' :: ts')) (c.wrap rs)
  | simple {ts rs ts' ws rs'} (h : Redirs ts rs) (h' : Args ts' ws rs') (hlen : ws.length ≤ MAXARGS - 1) :
    Derives .exec (ts ++ ts') ((Cmd.exec ws).wrap (rs ++ rs'))

/-! ## Reading tokens -/

/-- the first character of a symbol -/
def first (c : Char) : Char := if c = '+' then '>' else c

/-- **What comes next**, as tokens. -/
inductive Reads (s : Text) : List Tok → Prop
  | done (hret : (gettoken s).ret = '\x00') (hpeek : ∀ toks, peek toks s = false) : Reads s []
  | sym {c} (hret : (gettoken s).ret = c) (hc : c ∈ ['|', '(', ')', ';', '&', '<', '>', '+'])
      (hpeek : ∀ toks, peek toks s = decide (first c ∈ toks)) : Reads s (.sym c :: tokens (gettoken s).rest)
  | word (hret : (gettoken s).ret = 'a') (hpeek : ∀ toks ⊆ symbols, peek toks s = false) (hspan : Spans s (gettoken s).arg) :
    Reads s (.word (gettoken s).arg.text :: tokens (gettoken s).rest)

theorem reads (s : Text) : Reads s (tokens s) := by
  rw [tokens]
  cases next s with
  | done hret hc =>
    rw [dif_pos hret]
    exact .done hret fun toks => decide_eq_false fun h => h.1 hc
  | sym hret hc _ =>
    have hnul : (gettoken s).ret ≠ '\x00' := by
      intro hnul
      rw [hnul] at hret
      exact absurd hret (by decide)
    have ha : (gettoken s).ret ≠ 'a' := by
      intro ha
      rw [ha] at hret
      exact absurd hret (by decide)
    have htok : (gettoken s).tok = .sym (gettoken s).ret := if_neg ha
    have hfirst : first (gettoken s).ret ≠ '\x00' := by
      have hall : ['|', '(', ')', ';', '&', '<', '>', '+'].all (fun c => first c != '\x00') = true := by decide
      exact bne_iff_ne.1 (List.all_eq_true.1 hall _ hret)
    rw [dif_neg hnul, htok]
    refine .sym rfl hret fun toks => ?_
    unfold peek
    rw [hc, decide_eq_decide]
    exact and_iff_right hfirst
  | word hret hnul hc hspan _ =>
    have htok : (gettoken s).tok = .word (gettoken s).arg.text := if_pos hret
    rw [dif_neg (by rw [hret]; decide), htok]
    exact .word hret (fun toks htoks => decide_eq_false fun h => hc (htoks h.2)) hspan

theorem tokens_skip (s : Text) : tokens (skip s) = tokens s := by
  rw [tokens, gettoken_skip, ← tokens]

section Tokens

variable {s : Text} {c : Char} {w : Text} {ts : List Tok} {toks : Text}

theorem of_tokens_nil (h : tokens s = []) : (gettoken s).ret = '\x00' ∧ ∀ toks, peek toks s = false := by
  have hr := reads s
  rw [h] at hr
  cases hr with
  | done hret hpeek => exact ⟨hret, hpeek⟩

theorem of_tokens_sym (h : tokens s = .sym c :: ts) :
    (gettoken s).ret = c ∧ tokens (gettoken s).rest = ts ∧ ∀ toks, peek toks s = decide (first c ∈ toks) := by
  have hr := reads s
  rw [h] at hr
  cases hr with
  | sym hret _ hpeek => exact ⟨hret, rfl, hpeek⟩

theorem of_tokens_word (h : tokens s = .word w :: ts) :
    (gettoken s).ret = 'a' ∧ (gettoken s).arg.text = w ∧ tokens (gettoken s).rest = ts ∧ ∀ toks ⊆ symbols, peek toks s = false := by
  have hr := reads s
  rw [h] at hr
  cases hr with
  | word hret hpeek _ => exact ⟨hret, rfl, rfl, hpeek⟩

theorem tokens_of_end (h : (gettoken s).ret = '\x00') : tokens s = [] := by
  rw [tokens, dif_pos h]

theorem tokens_of_word (h : (gettoken s).ret = 'a') :
    tokens s = .word (gettoken s).arg.text :: tokens (gettoken s).rest ∧ Spans s (gettoken s).arg := by
  have hr := reads s
  generalize htokens : tokens s = ts at hr
  cases hr with
  | done hret =>
    rw [h] at hret
    exact absurd hret (by decide)
  | sym hret hc =>
    rw [← hret, h] at hc
    exact absurd hc (by decide)
  | word _ _ hspan => exact ⟨rfl, hspan⟩

theorem tokens_of_peek (htoks : toks ⊆ symbols) (h : peek toks s = true) :
    ∃ c, (gettoken s).ret = c ∧ first c ∈ toks ∧ tokens s = .sym c :: tokens (gettoken s).rest := by
  have hr := reads s
  generalize htokens : tokens s = ts at hr
  cases hr with
  | done _ hpeek =>
    rw [hpeek] at h
    cases h
  | sym hret _ hpeek =>
    rw [hpeek] at h
    exact ⟨_, hret, of_decide_eq_true h, rfl⟩
  | word _ hpeek =>
    rw [hpeek toks htoks] at h
    cases h

/-- one symbol, other than `>` -/
theorem tokens_of_peek_one (hc : c ∈ ['|', '(', ')', ';', '&', '<']) (h : peek [c] s = true) :
    tokens s = .sym c :: tokens (gettoken s).rest := by
  have hsub : [c] ⊆ symbols := by
    intro x hx
    rw [List.mem_singleton.1 hx]
    exact mem_symbols.2 (.inr hc)
  obtain ⟨c', -, hmem, htokens⟩ := tokens_of_peek hsub h
  have hfirst : first c' = c := List.mem_singleton.1 hmem
  have heq : c' = c := by
    unfold first at hfirst
    split at hfirst
    · rw [← hfirst] at hc
      exact absurd hc (by decide)
    · exact hfirst
  rw [← heq]
  exact htokens

theorem Spans.mono {s s' : Text} {a : Arg} (h : Spans s a) (hs : s <:+ s') : Spans s' a := ⟨h.start.trans hs, h.split, h.stop⟩

end Tokens

/-! ## Soundness -/

section Trees

variable {α β : Type}

/-- the words of a command -/
def Cmd.words : Cmd α → List α
  | .exec argv => argv
  | .redir c file _ => c.words ++ [file]
  | .pipe l r => l.words ++ r.words
  | .list l r => l.words ++ r.words
  | .back c => c.words

theorem map_wrap (f : α → β) (c : Cmd α) (rs : List (α × Dir)) : (c.wrap rs).map f = (c.map f).wrap (rs.map (Prod.map f id)) := by
  unfold Cmd.wrap
  induction rs generalizing c with
  | nil => rfl
  | cons r rs ih => exact ih _

theorem words_wrap (c : Cmd α) (rs : List (α × Dir)) : (c.wrap rs).words = c.words ++ rs.map Prod.fst := by
  unfold Cmd.wrap
  induction rs generalizing c with
  | nil => exact (List.append_nil _).symm
  | cons r rs ih =>
    refine (ih _).trans ?_
    change (c.words ++ [r.1]) ++ rs.map Prod.fst = c.words ++ r.1 :: rs.map Prod.fst
    rw [List.append_assoc]
    rfl

theorem map_backs (f : α → β) (c : Cmd α) (n : ℕ) : (Cmd.back^[n] c).map f = Cmd.back^[n] (c.map f) := by
  induction n generalizing c with
  | zero => rfl
  | succ n ih => exact ih _

theorem words_backs (c : Cmd α) (n : ℕ) : (Cmd.back^[n] c).words = c.words := by
  induction n generalizing c with
  | zero => rfl
  | succ n ih => exact ih _

end Trees

/-- the redirections as strings -/
def texts (rs : List (Arg × Dir)) : List (Text × Dir) := rs.map (Prod.map Arg.text id)

theorem redir_cases {c : Char} (h : first c ∈ ['<', '>']) : c = '<' ∨ c = '>' ∨ c = '+' := by
  unfold first at h
  split at h
  · rename_i hplus
    exact .inr (.inr hplus)
  · rcases List.mem_cons.1 h with hc | hc
    · exact .inl hc
    · exact .inr (.inl (List.mem_singleton.1 hc))

theorem parseredirs_sound {n : ℕ} {s s' : Text} {rs : List (Arg × Dir)} (h : parseredirs n s = .ok (rs, s')) :
    s' <:+ s ∧ (∀ a ∈ rs.map Prod.fst, Spans s a) ∧ ∃ ts, tokens s = ts ++ tokens s' ∧ Redirs ts (texts rs) := by
  induction n generalizing s rs with
  | zero => cases h
  | succ n ih =>
    unfold parseredirs at h
    rw [gettoken_skip] at h
    split at h
    · rename_i hpeek
      obtain ⟨c, hret, hc, htokens⟩ := tokens_of_peek (by decide) hpeek
      split at h
      · cases h
      · rename_i hword
        obtain ⟨htokens', hspan⟩ := tokens_of_word (not_not.1 hword)
        obtain ⟨⟨rs', s₁⟩, hrec, h⟩ := bind_ok h
        cases h
        obtain ⟨hsuf, hspans, ts, hts, hderiv⟩ := ih hrec
        have hrest := (rest_suffix (gettoken s).rest).trans (rest_suffix s)
        refine ⟨hsuf.trans hrest, ?_, .sym c :: .word (gettoken (gettoken s).rest).arg.text :: ts, ?_, ?_⟩
        · intro a ha
          rcases List.mem_cons.1 ha with rfl | ha
          · exact hspan.mono (rest_suffix s)
          · exact (hspans a ha).mono hrest
        · rw [htokens, htokens', hts]
          rfl
        · rw [hret]
          rcases redir_cases hc with rfl | rfl | rfl
          · exact .input hderiv
          · exact .output hderiv
          · exact .append hderiv
    · cases h
      exact ⟨skip_suffix s, nofun, [], by rw [tokens_skip]; rfl, .nil⟩

variable {argc : ℕ}

theorem parseargs_sound {n : ℕ} {s s' : Text} {argv : List Arg} {rs : List (Arg × Dir)} (hargc : argc < MAXARGS)
    (h : parseargs n argc s = .ok (argv, rs, s')) : s' <:+ s ∧ (∀ a ∈ argv ++ rs.map Prod.fst, Spans s a) ∧ argc + argv.length < MAXARGS ∧
      ∃ ts, tokens s = ts ++ tokens s' ∧ Args ts (argv.map Arg.text) (texts rs) := by
  induction n generalizing s argc argv rs with
  | zero => cases h
  | succ n ih =>
    unfold parseargs at h
    rw [gettoken_skip] at h
    split at h
    · cases h
      exact ⟨skip_suffix s, nofun, hargc, [], by rw [tokens_skip]; rfl, .nil⟩
    split at h
    · rename_i hend
      cases h
      exact ⟨rest_suffix s, nofun, hargc, [], by rw [rest_of_end hend, tokens_skip]; rfl, .nil⟩
    split at h
    · cases h
    rename_i hword
    split at h
    · cases h
    rename_i hroom
    obtain ⟨htokens, hspan⟩ := tokens_of_word (not_not.1 hword)
    obtain ⟨⟨rs1, s₁⟩, hredirs, h⟩ := bind_ok h
    obtain ⟨⟨argv', rs2, s₂⟩, hrec, h⟩ := bind_ok h
    cases h
    obtain ⟨hsuf1, hspans1, ts1, hts1, hderiv1⟩ := parseredirs_sound hredirs
    obtain ⟨hsuf2, hspans2, hlen, ts2, hts2, hderiv2⟩ := ih (Nat.lt_of_not_le hroom) hrec
    have hmid := hsuf1.trans (rest_suffix s)
    refine ⟨hsuf2.trans hmid, ?_, ?_, .word (gettoken s).arg.text :: (ts1 ++ ts2), ?_, ?_⟩
    · intro a ha
      rw [List.cons_append, List.map_append, List.mem_cons, List.mem_append, List.mem_append] at ha
      rcases ha with rfl | ha | ha | ha
      · exact hspan
      · exact (hspans2 a (List.mem_append_left _ ha)).mono hmid
      · exact (hspans1 a ha).mono (rest_suffix s)
      · exact (hspans2 a (List.mem_append_right _ ha)).mono hmid
    · rw [List.length_cons]
      omega
    · rw [htokens, hts1, hts2, List.cons_append, List.append_assoc]
    · have happ : texts (rs1 ++ rs2) = texts rs1 ++ texts rs2 := List.map_append
      rw [happ]
      exact .cons hderiv1 hderiv2

theorem parsebacks_sound {n : ℕ} {s s' : Text} {c c' : Cmd Arg} (h : parsebacks n c s = .ok (c', s')) :
    s' <:+ s ∧ ∃ m, tokens s = List.replicate m (.sym '&') ++ tokens s' ∧ c' = Cmd.back^[m] c := by
  induction n generalizing s c with
  | zero => cases h
  | succ n ih =>
    unfold parsebacks at h
    rw [gettoken_skip] at h
    split at h
    · rename_i hpeek
      have htokens := tokens_of_peek_one (by decide) hpeek
      obtain ⟨hsuf, m, hts, hc⟩ := ih h
      refine ⟨hsuf.trans (rest_suffix s), m + 1, ?_, hc⟩
      rw [htokens, hts]
      rfl
    · cases h
      exact ⟨skip_suffix s, 0, by rw [tokens_skip]; rfl, rfl⟩

/-- the parser has read a command of this kind from `s`, and is at `s'` then -/
structure Reading (kind : Kind) (s : Text) (c : Cmd Arg) (s' : Text) : Prop where
  suffix : s' <:+ s
  spans : ∀ a ∈ c.words, Spans s a
  derives : ∃ ts, tokens s = ts ++ tokens s' ∧ Derives kind ts (c.map Arg.text)

/-- the four functions that call each other -/
structure Sound (n : ℕ) : Prop where
  line : ∀ {s c s'}, parseline n s = .ok (c, s') → Reading .line s c s'
  pipe : ∀ {s c s'}, parsepipe n s = .ok (c, s') → Reading .pipe s c s'
  block : ∀ {s c s'}, parseblock n s = .ok (c, s') → Reading .exec s c s'
  exec : ∀ {s c s'}, parseexec n s = .ok (c, s') → Reading .exec s c s'

variable {n : ℕ} {s s' : Text} {c : Cmd Arg}

theorem Sound.succ_line (h : Sound n) (hparse : parseline (n + 1) s = .ok (c, s')) : Reading .line s c s' := by
  unfold parseline at hparse
  obtain ⟨⟨c1, s₁⟩, hpipe, hparse⟩ := bind_ok hparse
  obtain ⟨⟨c2, s₂⟩, hbacks, hparse⟩ := bind_ok hparse
  obtain ⟨hsuf1, hspans1, ts1, hts1, hderiv1⟩ := h.pipe hpipe
  obtain ⟨hsuf2, m, hts2, rfl⟩ := parsebacks_sound hbacks
  dsimp only at hparse
  rw [gettoken_skip] at hparse
  split at hparse
  · rename_i hpeek
    have htokens := tokens_of_peek_one (by decide) hpeek
    obtain ⟨⟨c3, s₃⟩, hline, hparse⟩ := bind_ok hparse
    cases hparse
    obtain ⟨hsuf3, hspans3, ts3, hts3, hderiv3⟩ := h.line hline
    have hmid := (rest_suffix s₂).trans (hsuf2.trans hsuf1)
    refine ⟨hsuf3.trans hmid, ?_, ts1 ++ (List.replicate m (.sym '&') ++ .sym ';' :: ts3), ?_, ?_⟩
    · intro a ha
      rcases List.mem_append.1 ha with ha | ha
      · rw [words_backs] at ha
        exact hspans1 a ha
      · exact (hspans3 a ha).mono hmid
    · rw [hts1, hts2, htokens, hts3]
      simp only [List.append_assoc, List.cons_append]
    · have hmap : (Cmd.list (Cmd.back^[m] c1) c3).map Arg.text = .list (Cmd.back^[m] (c1.map Arg.text)) (c3.map Arg.text) :=
        congrArg (fun c => Cmd.list c _) (map_backs ..)
      rw [hmap]
      exact .list hderiv1 m hderiv3
  · cases hparse
    refine ⟨(skip_suffix s₂).trans (hsuf2.trans hsuf1), ?_, ts1 ++ List.replicate m (.sym '&'), ?_, ?_⟩
    · rw [words_backs]
      exact hspans1
    · rw [hts1, hts2, tokens_skip, List.append_assoc]
    · rw [map_backs]
      exact .line hderiv1 m

theorem Sound.succ_pipe (h : Sound n) (hparse : parsepipe (n + 1) s = .ok (c, s')) : Reading .pipe s c s' := by
  unfold parsepipe at hparse
  obtain ⟨⟨c1, s₁⟩, hexec, hparse⟩ := bind_ok hparse
  obtain ⟨hsuf1, hspans1, ts1, hts1, hderiv1⟩ := h.exec hexec
  dsimp only at hparse
  rw [gettoken_skip] at hparse
  split at hparse
  · rename_i hpeek
    have htokens := tokens_of_peek_one (by decide) hpeek
    obtain ⟨⟨c2, s₂⟩, hpipe, hparse⟩ := bind_ok hparse
    cases hparse
    obtain ⟨hsuf2, hspans2, ts2, hts2, hderiv2⟩ := h.pipe hpipe
    have hmid := (rest_suffix s₁).trans hsuf1
    refine ⟨hsuf2.trans hmid, ?_, ts1 ++ .sym '|' :: ts2, ?_, .pipe hderiv1 hderiv2⟩
    · intro a ha
      rcases List.mem_append.1 ha with ha | ha
      · exact hspans1 a ha
      · exact (hspans2 a ha).mono hmid
    · rw [hts1, htokens, hts2, List.append_assoc]
      rfl
  · cases hparse
    exact ⟨(skip_suffix s₁).trans hsuf1, hspans1, ts1, by rw [hts1, tokens_skip], .stage hderiv1⟩

theorem Sound.succ_block (h : Sound n) (hparse : parseblock (n + 1) s = .ok (c, s')) : Reading .exec s c s' := by
  unfold parseblock at hparse
  rw [gettoken_skip] at hparse
  split at hparse
  · cases hparse
  rename_i hopen
  have htokens := tokens_of_peek_one (by decide) (Bool.eq_true_of_not_eq_false hopen)
  obtain ⟨⟨c1, s₁⟩, hline, hparse⟩ := bind_ok hparse
  obtain ⟨hsuf1, hspans1, ts1, hts1, hderiv1⟩ := h.line hline
  dsimp only at hparse
  rw [gettoken_skip] at hparse
  split at hparse
  · cases hparse
  rename_i hclose
  have htokens1 := tokens_of_peek_one (by decide) (Bool.eq_true_of_not_eq_false hclose)
  obtain ⟨⟨rs, s₂⟩, hredirs, hparse⟩ := bind_ok hparse
  cases hparse
  obtain ⟨hsuf2, hspans2, ts2, hts2, hderiv2⟩ := parseredirs_sound hredirs
  have hmid := (rest_suffix s₁).trans (hsuf1.trans (rest_suffix s))
  refine ⟨hsuf2.trans hmid, ?_, .sym '(' :: (ts1 ++ .sym ')' :: ts2), ?_, ?_⟩
  · intro a ha
    rw [words_wrap] at ha
    rcases List.mem_append.1 ha with ha | ha
    · exact (hspans1 a ha).mono (rest_suffix s)
    · exact (hspans2 a ha).mono hmid
  · rw [htokens, hts1, htokens1, hts2]
    simp only [List.append_assoc, List.cons_append]
  · rw [map_wrap]
    exact .block hderiv1 hderiv2

theorem Sound.succ_exec (h : Sound n) (hparse : parseexec (n + 1) s = .ok (c, s')) : Reading .exec s c s' := by
  unfold parseexec at hparse
  split at hparse
  · obtain ⟨hsuf, hspans, ts, hts, hderiv⟩ := h.block hparse
    rw [tokens_skip] at hts
    exact ⟨hsuf.trans (skip_suffix s), fun a ha => (hspans a ha).mono (skip_suffix s), ts, hts, hderiv⟩
  · obtain ⟨⟨rs1, s₁⟩, hredirs, hparse⟩ := bind_ok hparse
    obtain ⟨⟨argv, rs2, s₂⟩, hargs, hparse⟩ := bind_ok hparse
    cases hparse
    obtain ⟨hsuf1, hspans1, ts1, hts1, hderiv1⟩ := parseredirs_sound hredirs
    obtain ⟨hsuf2, hspans2, hlen, ts2, hts2, hderiv2⟩ := parseargs_sound (by decide) hargs
    have hmid := hsuf1.trans (skip_suffix s)
    rw [tokens_skip] at hts1
    refine ⟨hsuf2.trans hmid, ?_, ts1 ++ ts2, ?_, ?_⟩
    · intro a ha
      rw [words_wrap, List.map_append, List.mem_append, List.mem_append] at ha
      rcases ha with ha | ha | ha
      · exact (hspans2 a (List.mem_append_left _ ha)).mono hmid
      · exact (hspans1 a ha).mono (skip_suffix s)
      · exact (hspans2 a (List.mem_append_right _ ha)).mono hmid
    · rw [hts1, hts2, List.append_assoc]
    · have hmap : (rs1 ++ rs2).map (Prod.map Arg.text id) = texts rs1 ++ texts rs2 := List.map_append
      rw [map_wrap, hmap]
      refine .simple hderiv1 hderiv2 ?_
      rw [List.length_map]
      omega

/-- **Soundness.** What the parser has read derives from the grammar. -/
theorem parse_sound : ∀ n, Sound n
  | 0 => ⟨nofun, nofun, nofun, nofun⟩
  | n + 1 => ⟨(parse_sound n).succ_line, (parse_sound n).succ_pipe, (parse_sound n).succ_block, (parse_sound n).succ_exec⟩

/-! ## Termination -/

theorem parseredirs_total (hn : (tokens s).length < n) : parseredirs n s ≠ .error .fuel := by
  induction n generalizing s with
  | zero => exact absurd hn (Nat.not_lt_zero _)
  | succ n ih =>
    intro h
    unfold parseredirs at h
    rw [gettoken_skip] at h
    split at h
    · rename_i hpeek
      obtain ⟨c, -, -, htokens⟩ := tokens_of_peek (by decide) hpeek
      split at h
      · cases h
      · rename_i hword
        obtain ⟨htokens', -⟩ := tokens_of_word (not_not.1 hword)
        rw [htokens, htokens', List.length_cons, List.length_cons] at hn
        rcases bind_error h with h | ⟨⟨rs, s₁⟩, -, h⟩
        · exact ih (by omega) h
        · cases h
    · cases h

theorem parseargs_total (hn : (tokens s).length < n) : parseargs n argc s ≠ .error .fuel := by
  induction n generalizing s argc with
  | zero => exact absurd hn (Nat.not_lt_zero _)
  | succ n ih =>
    intro h
    unfold parseargs at h
    rw [gettoken_skip] at h
    split at h
    · cases h
    split at h
    · cases h
    split at h
    · cases h
    rename_i hword
    split at h
    · cases h
    obtain ⟨htokens, -⟩ := tokens_of_word (not_not.1 hword)
    rw [htokens, List.length_cons] at hn
    rcases bind_error h with h | ⟨⟨rs, s₁⟩, hredirs, h⟩
    · exact parseredirs_total (by omega) h
    · obtain ⟨-, -, ts, hts, -⟩ := parseredirs_sound hredirs
      rw [hts, List.length_append] at hn
      rcases bind_error h with h | ⟨⟨argv, rs', s₂⟩, -, h⟩
      · exact ih (by omega) h
      · cases h

theorem parsebacks_total (hn : (tokens s).length < n) : parsebacks n c s ≠ .error .fuel := by
  induction n generalizing s c with
  | zero => exact absurd hn (Nat.not_lt_zero _)
  | succ n ih =>
    unfold parsebacks
    rw [gettoken_skip]
    split
    · rename_i hpeek
      have htokens := tokens_of_peek_one (by decide) hpeek
      rw [htokens, List.length_cons] at hn
      exact ih (by omega)
    · exact nofun

/-- the fuel that is enough for the tokens that are left -/
structure Total (n : ℕ) : Prop where
  line : ∀ {s}, 4 * (tokens s).length + 4 ≤ n → parseline n s ≠ .error .fuel
  pipe : ∀ {s}, 4 * (tokens s).length + 3 ≤ n → parsepipe n s ≠ .error .fuel
  exec : ∀ {s}, 4 * (tokens s).length + 2 ≤ n → parseexec n s ≠ .error .fuel
  block : ∀ {s}, 4 * (tokens s).length + 1 ≤ n → parseblock n s ≠ .error .fuel

theorem Total.succ_line (h : Total n) (hn : 4 * (tokens s).length + 4 ≤ n + 1) : parseline (n + 1) s ≠ .error .fuel := by
  intro herr
  unfold parseline at herr
  rcases bind_error herr with herr | ⟨⟨c1, s₁⟩, hpipe, herr⟩
  · exact h.pipe (by omega) herr
  obtain ⟨-, -, ts1, hts1, -⟩ := (parse_sound n).pipe hpipe
  rw [hts1, List.length_append] at hn
  rcases bind_error herr with herr | ⟨⟨c2, s₂⟩, hbacks, herr⟩
  · exact parsebacks_total (by omega) herr
  obtain ⟨-, m, hts2, -⟩ := parsebacks_sound hbacks
  rw [hts2, List.length_append] at hn
  dsimp only at herr
  rw [gettoken_skip] at herr
  split at herr
  · rename_i hpeek
    have htokens := tokens_of_peek_one (by decide) hpeek
    rw [htokens, List.length_cons] at hn
    rcases bind_error herr with herr | ⟨⟨c3, s₃⟩, -, herr⟩
    · exact h.line (by omega) herr
    · cases herr
  · cases herr

theorem Total.succ_pipe (h : Total n) (hn : 4 * (tokens s).length + 3 ≤ n + 1) : parsepipe (n + 1) s ≠ .error .fuel := by
  intro herr
  unfold parsepipe at herr
  rcases bind_error herr with herr | ⟨⟨c1, s₁⟩, hexec, herr⟩
  · exact h.exec (by omega) herr
  obtain ⟨-, -, ts1, hts1, -⟩ := (parse_sound n).exec hexec
  rw [hts1, List.length_append] at hn
  dsimp only at herr
  rw [gettoken_skip] at herr
  split at herr
  · rename_i hpeek
    have htokens := tokens_of_peek_one (by decide) hpeek
    rw [htokens, List.length_cons] at hn
    rcases bind_error herr with herr | ⟨⟨c2, s₂⟩, -, herr⟩
    · exact h.pipe (by omega) herr
    · cases herr
  · cases herr

theorem Total.succ_block (h : Total n) (hn : 4 * (tokens s).length + 1 ≤ n + 1) : parseblock (n + 1) s ≠ .error .fuel := by
  intro herr
  unfold parseblock at herr
  rw [gettoken_skip] at herr
  split at herr
  · cases herr
  rename_i hopen
  have htokens := tokens_of_peek_one (by decide) (Bool.eq_true_of_not_eq_false hopen)
  rw [htokens, List.length_cons] at hn
  rcases bind_error herr with herr | ⟨⟨c1, s₁⟩, hline, herr⟩
  · exact h.line (by omega) herr
  obtain ⟨-, -, ts1, hts1, -⟩ := (parse_sound n).line hline
  rw [hts1, List.length_append] at hn
  dsimp only at herr
  rw [gettoken_skip] at herr
  split at herr
  · cases herr
  rename_i hclose
  have htokens1 := tokens_of_peek_one (by decide) (Bool.eq_true_of_not_eq_false hclose)
  rw [htokens1, List.length_cons] at hn
  rcases bind_error herr with herr | ⟨⟨rs, s₂⟩, -, herr⟩
  · exact parseredirs_total (by omega) herr
  · cases herr

theorem Total.succ_exec (h : Total n) (hn : 4 * (tokens s).length + 2 ≤ n + 1) : parseexec (n + 1) s ≠ .error .fuel := by
  intro herr
  unfold parseexec at herr
  split at herr
  · exact h.block (by rw [tokens_skip]; omega) herr
  · rcases bind_error herr with herr | ⟨⟨rs1, s₁⟩, hredirs, herr⟩
    · exact parseredirs_total (by rw [tokens_skip]; omega) herr
    obtain ⟨-, -, ts1, hts1, -⟩ := parseredirs_sound hredirs
    rw [tokens_skip] at hts1
    rw [hts1, List.length_append] at hn
    rcases bind_error herr with herr | ⟨⟨argv, rs2, s₂⟩, -, herr⟩
    · exact parseargs_total (by omega) herr
    · cases herr

/-- **Termination.** -/
theorem parse_total : ∀ n, Total n
  | 0 => ⟨fun hn => absurd hn (Nat.not_succ_le_zero _), fun hn => absurd hn (Nat.not_succ_le_zero _),
    fun hn => absurd hn (Nat.not_succ_le_zero _), fun hn => absurd hn (Nat.not_succ_le_zero _)⟩
  | n + 1 => ⟨(parse_total n).succ_line, (parse_total n).succ_pipe, (parse_total n).succ_exec, (parse_total n).succ_block⟩

/-! ## Completeness -/

/-- tokens that may follow a command of this kind -/
def Follows (kind : Kind) (rest : List Tok) : Prop :=
  ∀ t ∈ rest.head?, match kind with
    | .line => t = .sym ')'
    | .pipe => t = .sym ')' ∨ t = .sym ';' ∨ t = .sym '&'
    | .exec => t = .sym ')' ∨ t = .sym ';' ∨ t = .sym '&' ∨ t = .sym '|'

/-- no redirection follows -/
theorem not_peek_redir {rest : List Tok} (h : tokens s = rest) (hrest : ∀ c ts, rest = .sym c :: ts → first c ∉ ['<', '>']) :
    peek ['<', '>'] s = false := by
  have hr := reads s
  rw [h] at hr
  cases hr with
  | done _ hpeek => exact hpeek _
  | sym _ _ hpeek =>
    rw [hpeek]
    exact decide_eq_false (hrest _ _ rfl)
  | word _ hpeek => exact hpeek _ (by decide)

variable {rs : List (Text × Dir)}

/-- one redirection -/
theorem parseredirs_cons {ch : Char} {w : Text} {ts rest : List Tok} (hs : tokens s = .sym ch :: .word w :: ts) (hc : first ch ∈ ['<', '>'])
    (hrec : ∀ s₁, tokens s₁ = ts → ∃ rs' s', parseredirs n s₁ = .ok (rs', s') ∧ texts rs' = rs ∧ tokens s' = rest) :
    ∃ rs' s', parseredirs (n + 1) s = .ok (rs', s') ∧ texts rs' = (w, if ch = '<' then .input else .output) :: rs ∧ tokens s' = rest := by
  obtain ⟨hret, hs1, hpeek⟩ := of_tokens_sym hs
  obtain ⟨hword, htext, hs2, -⟩ := of_tokens_word hs1
  obtain ⟨rs', s', hparse, htexts, hs'⟩ := hrec _ hs2
  refine ⟨((gettoken (gettoken s).rest).arg, if ch = '<' then .input else .output) :: rs', s', ?_, ?_, hs'⟩
  · unfold parseredirs
    rw [gettoken_skip, hpeek, if_pos (decide_eq_true hc), if_neg (not_not.2 hword), hparse, hret]
    rfl
  · rw [← htexts, ← htext]
    rfl

theorem parseredirs_complete {ts rest : List Tok} (h : Redirs ts rs) (hs : tokens s = ts ++ rest)
    (hrest : ∀ c ts, rest = .sym c :: ts → first c ∉ ['<', '>']) (hn : ts.length < n) :
    ∃ rs' s', parseredirs n s = .ok (rs', s') ∧ texts rs' = rs ∧ tokens s' = rest := by
  induction h generalizing s n with
  | nil =>
    cases n with
    | zero => exact absurd hn (Nat.not_lt_zero _)
    | succ n =>
      refine ⟨[], skip s, ?_, rfl, (tokens_skip s).trans hs⟩
      unfold parseredirs
      rw [if_neg (by rw [not_peek_redir hs hrest]; exact Bool.false_ne_true)]
  | input h ih =>
    cases n with
    | zero => exact absurd hn (Nat.not_lt_zero _)
    | succ n => exact parseredirs_cons hs (by decide) fun s₁ hs1 => ih hs1 (by simp only [List.length_cons] at hn; omega)
  | output h ih =>
    cases n with
    | zero => exact absurd hn (Nat.not_lt_zero _)
    | succ n => exact parseredirs_cons hs (by decide) fun s₁ hs1 => ih hs1 (by simp only [List.length_cons] at hn; omega)
  | append h ih =>
    cases n with
    | zero => exact absurd hn (Nat.not_lt_zero _)
    | succ n => exact parseredirs_cons hs (by decide) fun s₁ hs1 => ih hs1 (by simp only [List.length_cons] at hn; omega)

theorem Follows.not_redir {kind : Kind} {rest : List Tok} (h : Follows kind rest) : ∀ c ts, rest = .sym c :: ts → first c ∉ ['<', '>'] := by
  rintro c ts rfl
  have hc := h _ rfl
  cases kind with
  | line =>
    cases hc
    decide
  | pipe =>
    rcases hc with hc | hc | hc
    all_goals
      cases hc
      decide
  | exec =>
    rcases hc with hc | hc | hc | hc
    all_goals
      cases hc
      decide

variable {ws : List Text}

theorem Args.not_redir {ts rest : List Tok} (h : Args ts ws rs)
    (hrest : Follows .exec rest) : ∀ c ts', ts ++ rest = .sym c :: ts' → first c ∉ ['<', '>'] := by
  cases h with
  | nil => exact hrest.not_redir
  | cons => exact nofun

theorem parseargs_complete {ts rest : List Tok} (h : Args ts ws rs)
    (hs : tokens s = ts ++ rest) (hrest : Follows .exec rest) (hargc : argc + ws.length < MAXARGS) (hn : ts.length < n) :
    ∃ argv rs' s', parseargs n argc s = .ok (argv, rs', s') ∧ argv.map Arg.text = ws ∧ texts rs' = rs ∧ tokens s' = rest := by
  induction h generalizing s n argc with
  | nil =>
    cases n with
    | zero => exact absurd hn (Nat.not_lt_zero _)
    | succ n =>
      unfold parseargs
      rw [gettoken_skip]
      cases rest with
      | nil =>
        obtain ⟨hret, hpeek⟩ := of_tokens_nil hs
        rw [hpeek, if_neg Bool.false_ne_true, if_pos hret]
        exact ⟨[], [], _, rfl, rfl, rfl, by rw [rest_of_end hret, tokens_skip]; exact hs⟩
      | cons t rest =>
        have hpeek : peek ['|', ')', '&', ';'] s = true := by
          rcases hrest _ rfl with rfl | rfl | rfl | rfl
          all_goals
            rw [(of_tokens_sym hs).2.2]
            decide
        rw [hpeek, if_pos rfl]
        exact ⟨[], [], _, rfl, rfl, rfl, (tokens_skip s).trans hs⟩
  | @cons w ts1 rs1 ts2 ws rs2 h1 h2 ih =>
    cases n with
    | zero => exact absurd hn (Nat.not_lt_zero _)
    | succ n =>
      rw [List.cons_append] at hs
      rw [List.length_cons, List.length_append] at hn
      rw [List.length_cons] at hargc
      obtain ⟨hret, htext, hs1, hpeek⟩ := of_tokens_word hs
      rw [List.append_assoc] at hs1
      obtain ⟨rs1', s₁, hparse1, htexts1, hs2⟩ := parseredirs_complete h1 hs1 (h2.not_redir hrest) (show ts1.length < n by omega)
      obtain ⟨argv, rs2', s₂, hparse2, hargv, htexts2, hs3⟩ := ih hs2 (show argc + 1 + ws.length < MAXARGS by omega) (show ts2.length < n by omega)
      refine ⟨(gettoken s).arg :: argv, rs1' ++ rs2', s₂, ?_, ?_, ?_, hs3⟩
      · unfold parseargs
        rw [gettoken_skip, hpeek _ (by decide), if_neg Bool.false_ne_true, hret, if_neg (by decide), if_neg (not_not.2 rfl),
          if_neg (by omega), hparse1, ok_bind]
        dsimp only
        rw [hparse2]
        rfl
      · rw [List.map_cons, htext, hargv]
      · rw [← htexts1, ← htexts2]
        exact List.map_append

theorem parsebacks_complete {m : ℕ} {rest : List Tok} (hs : tokens s = List.replicate m (.sym '&') ++ rest)
    (hrest : ∀ ts, rest ≠ .sym '&' :: ts) (hn : m < n) : ∃ s', parsebacks n c s = .ok (Cmd.back^[m] c, s') ∧ tokens s' = rest := by
  induction m generalizing s n c with
  | zero =>
    cases n with
    | zero => exact absurd hn (Nat.not_lt_zero _)
    | succ n =>
      have hpeek : peek ['&'] s ≠ true := fun hpeek => hrest _ (hs.symm.trans (tokens_of_peek_one (by decide) hpeek))
      refine ⟨skip s, ?_, (tokens_skip s).trans hs⟩
      unfold parsebacks
      rw [if_neg hpeek]
      rfl
  | succ m ih =>
    cases n with
    | zero => exact absurd hn (Nat.not_lt_zero _)
    | succ n =>
      change tokens s = .sym '&' :: (List.replicate m (.sym '&') ++ rest) at hs
      obtain ⟨-, hs1, hpeek⟩ := of_tokens_sym hs
      obtain ⟨s', hparse, hs'⟩ := ih (c := .back c) hs1 (Nat.lt_of_succ_lt_succ hn)
      refine ⟨s', ?_, hs'⟩
      unfold parsebacks
      rw [gettoken_skip, hpeek, if_pos (by decide)]
      exact hparse

/-- the function for this kind, and the fuel that is enough for it to read `k` tokens -/
def parser : Kind → ℕ → Text → Except Err (Cmd Arg × Text)
  | .line => parseline
  | .pipe => parsepipe
  | .exec => parseexec

def Kind.fuel (k : ℕ) : Kind → ℕ
  | .line => 4 * k + 4
  | .pipe => 4 * k + 3
  | .exec => 4 * k + 2

/-- the parser reads `ts` as the command `c`, whatever comes after it -/
def Complete (kind : Kind) (ts : List Tok) (c : Cmd Text) : Prop :=
  ∀ {n s rest}, tokens s = ts ++ rest → Follows kind rest → kind.fuel ts.length ≤ n →
    ∃ c' s', parser kind n s = .ok (c', s') ∧ c'.map Arg.text = c ∧ tokens s' = rest

variable {ts ts' rest : List Tok} {t t' : Cmd Text}

theorem not_amp (h : Follows .line rest) : ∀ ts, rest ≠ .sym '&' :: ts := by
  rintro ts rfl
  cases h _ rfl

theorem not_peek_of_follows {toks : Text} (hs : tokens s = rest) (h : Follows .line rest) (htoks : ')' ∉ toks) : peek toks s = false := by
  cases rest with
  | nil => exact (of_tokens_nil hs).2 toks
  | cons t rest =>
    cases h t rfl
    rw [(of_tokens_sym hs).2.2]
    exact decide_eq_false htoks

theorem complete_line (h : Complete .pipe ts t) (m : ℕ) : Complete .line (ts ++ List.replicate m (.sym '&')) (Cmd.back^[m] t) := by
  intro n s rest hs hrest hn
  rw [List.length_append, List.length_replicate] at hn
  change 4 * (ts.length + m) + 4 ≤ n at hn
  rw [List.append_assoc] at hs
  cases n with
  | zero => omega
  | succ n =>
    have hfollow : Follows .pipe (List.replicate m (.sym '&') ++ rest) := by
      cases m with
      | zero => exact fun t ht => .inl (hrest t ht)
      | succ m =>
        intro t ht
        cases ht
        exact .inr (.inr rfl)
    obtain ⟨c1, s₁, hparse1, hc1, hs1⟩ := h hs hfollow (show 4 * ts.length + 3 ≤ n by omega)
    obtain ⟨s₂, hparse2, hs2⟩ := parsebacks_complete (c := c1) hs1 (not_amp hrest) (show m < n by omega)
    refine ⟨Cmd.back^[m] c1, skip s₂, ?_, by rw [map_backs, hc1], (tokens_skip s₂).trans hs2⟩
    change parsepipe n s = _ at hparse1
    change parseline (n + 1) s = _
    unfold parseline
    rw [hparse1, ok_bind]
    dsimp only
    rw [hparse2, ok_bind]
    dsimp only
    rw [not_peek_of_follows hs2 hrest (by decide), if_neg Bool.false_ne_true]
    rfl

theorem complete_list (h : Complete .pipe ts t) (m : ℕ) (h' : Complete .line ts' t') :
    Complete .line (ts ++ (List.replicate m (.sym '&') ++ .sym ';' :: ts')) (.list (Cmd.back^[m] t) t') := by
  intro n s rest hs hrest hn
  rw [List.length_append, List.length_append, List.length_replicate, List.length_cons] at hn
  change 4 * (ts.length + (m + (ts'.length + 1))) + 4 ≤ n at hn
  rw [List.append_assoc, List.append_assoc, List.cons_append] at hs
  cases n with
  | zero => omega
  | succ n =>
    have hfollow : Follows .pipe (List.replicate m (.sym '&') ++ .sym ';' :: (ts' ++ rest)) := by
      intro t ht
      cases m with
      | zero =>
        cases ht
        exact .inr (.inl rfl)
      | succ m =>
        cases ht
        exact .inr (.inr rfl)
    obtain ⟨c1, s₁, hparse1, hc1, hs1⟩ := h hs hfollow (show 4 * ts.length + 3 ≤ n by omega)
    obtain ⟨s₂, hparse2, hs2⟩ := parsebacks_complete (c := c1) hs1 nofun (show m < n by omega)
    obtain ⟨-, hs3, hpeek⟩ := of_tokens_sym hs2
    obtain ⟨c2, s4, hparse3, hc2, hs4⟩ := h' hs3 hrest (show 4 * ts'.length + 4 ≤ n by omega)
    refine ⟨.list (Cmd.back^[m] c1) c2, s4, ?_, ?_, hs4⟩
    · change parsepipe n s = _ at hparse1
      change parseline n _ = _ at hparse3
      change parseline (n + 1) s = _
      unfold parseline
      rw [hparse1, ok_bind]
      dsimp only
      rw [hparse2, ok_bind]
      dsimp only
      rw [gettoken_skip, hpeek, if_pos (by decide), hparse3]
      rfl
    · unfold Cmd.map
      rw [map_backs, hc1, hc2]

theorem complete_stage (h : Complete .exec ts t) : Complete .pipe ts t := by
  intro n s rest hs hrest hn
  change 4 * ts.length + 3 ≤ n at hn
  cases n with
  | zero => omega
  | succ n =>
    have hfollow : Follows .exec rest := by
      intro t ht
      rcases hrest t ht with ht | ht | ht
      · exact .inl ht
      · exact .inr (.inl ht)
      · exact .inr (.inr (.inl ht))
    obtain ⟨c1, s₁, hparse1, hc1, hs1⟩ := h hs hfollow (show 4 * ts.length + 2 ≤ n by omega)
    refine ⟨c1, skip s₁, ?_, hc1, (tokens_skip s₁).trans hs1⟩
    have hpeek : peek ['|'] s₁ = false := by
      cases rest with
      | nil => exact (of_tokens_nil hs1).2 _
      | cons t rest =>
        rw [Bool.eq_false_iff]
        intro hpeek
        have hbar := hs1.symm.trans (tokens_of_peek_one (by decide) hpeek)
        cases hbar
        rcases hrest _ rfl with ht | ht | ht
        all_goals cases ht
    change parseexec n s = _ at hparse1
    change parsepipe (n + 1) s = _
    unfold parsepipe
    rw [hparse1, ok_bind]
    dsimp only
    rw [hpeek, if_neg Bool.false_ne_true]
    rfl

theorem complete_pipe (h : Complete .exec ts t) (h' : Complete .pipe ts' t') : Complete .pipe (ts ++ .sym '|' :: ts') (.pipe t t') := by
  intro n s rest hs hrest hn
  rw [List.length_append, List.length_cons] at hn
  change 4 * (ts.length + (ts'.length + 1)) + 3 ≤ n at hn
  rw [List.append_assoc, List.cons_append] at hs
  cases n with
  | zero => omega
  | succ n =>
    have hfollow : Follows .exec (.sym '|' :: (ts' ++ rest)) := by
      intro t ht
      cases ht
      exact .inr (.inr (.inr rfl))
    obtain ⟨c1, s₁, hparse1, hc1, hs1⟩ := h hs hfollow (show 4 * ts.length + 2 ≤ n by omega)
    obtain ⟨-, hs2, hpeek⟩ := of_tokens_sym hs1
    obtain ⟨c2, s₃, hparse2, hc2, hs3⟩ := h' hs2 hrest (show 4 * ts'.length + 3 ≤ n by omega)
    refine ⟨.pipe c1 c2, s₃, ?_, ?_, hs3⟩
    · change parseexec n s = _ at hparse1
      change parsepipe n _ = _ at hparse2
      change parsepipe (n + 1) s = _
      unfold parsepipe
      rw [hparse1, ok_bind]
      dsimp only
      rw [gettoken_skip, hpeek, if_pos (by decide), hparse2]
      rfl
    · unfold Cmd.map
      rw [hc1, hc2]

theorem complete_block (h : Complete .line ts t) (h' : Redirs ts' rs) : Complete .exec (.sym '(' :: (ts ++ .sym ')' :: ts')) (t.wrap rs) := by
  intro n s rest hs hrest hn
  rw [List.length_cons, List.length_append, List.length_cons] at hn
  change 4 * (ts.length + (ts'.length + 1) + 1) + 2 ≤ n at hn
  rw [List.cons_append, List.append_assoc, List.cons_append] at hs
  obtain ⟨-, hs1, hopen⟩ := of_tokens_sym hs
  obtain ⟨n, rfl⟩ : ∃ k, n = k + 1 + 1 := ⟨n - 2, by omega⟩
  have hfollow : Follows .line (.sym ')' :: (ts' ++ rest)) := by
    intro t ht
    cases ht
    rfl
  obtain ⟨c1, s₂, hparse1, hc1, hs2⟩ := h hs1 hfollow (show 4 * ts.length + 4 ≤ n by omega)
  obtain ⟨-, hs3, hclose⟩ := of_tokens_sym hs2
  obtain ⟨rs', s4, hparse2, htexts, hs4⟩ := parseredirs_complete h' hs3 hrest.not_redir (show ts'.length < n by omega)
  refine ⟨c1.wrap rs', s4, ?_, ?_, hs4⟩
  · change parseline n _ = _ at hparse1
    change parseexec (n + 1 + 1) s = _
    have hpeek : peek ['('] s = true := (hopen _).trans (by decide)
    have hpeek' : peek [')'] s₂ = true := (hclose _).trans (by decide)
    unfold parseexec parseblock
    rw [peek_skip, hpeek, if_pos rfl, if_neg nofun, skip_skip, gettoken_skip, hparse1, ok_bind]
    dsimp only
    rw [hpeek', if_neg nofun, gettoken_skip, hparse2]
    rfl
  · rw [map_wrap, hc1]
    exact congrArg t.wrap htexts

theorem complete_simple {rs' : List (Text × Dir)} (h : Redirs ts rs) (h' : Args ts' ws rs')
    (hlen : ws.length ≤ MAXARGS - 1) : Complete .exec (ts ++ ts') ((Cmd.exec ws).wrap (rs ++ rs')) := by
  intro n s rest hs hrest hn
  rw [List.length_append] at hn
  change 4 * (ts.length + ts'.length) + 2 ≤ n at hn
  rw [List.append_assoc] at hs
  cases n with
  | zero => omega
  | succ n =>
    have hpeek : peek ['('] s = false := by
      rw [Bool.eq_false_iff]
      intro hpeek
      have hopen := hs.symm.trans (tokens_of_peek_one (by decide) hpeek)
      cases h with
      | nil =>
        cases h' with
        | nil =>
          change rest = _ at hopen
          rcases hrest (.sym '(') (by rw [hopen]; rfl) with ht | ht | ht | ht
          all_goals cases ht
        | cons => cases hopen
      | input => cases hopen
      | output => cases hopen
      | append => cases hopen
    obtain ⟨rs1, s₁, hparse1, htexts1, hs1⟩ :=
      parseredirs_complete h ((tokens_skip s).trans hs) (h'.not_redir hrest) (show ts.length < n by omega)
    obtain ⟨argv, rs2, s₂, hparse2, hargv, htexts2, hs2⟩ :=
      parseargs_complete h' hs1 hrest (show 0 + ws.length < MAXARGS by unfold MAXARGS at *; omega) (show ts'.length < n by omega)
    refine ⟨(Cmd.exec argv).wrap (rs1 ++ rs2), s₂, ?_, ?_, hs2⟩
    · change parseexec (n + 1) s = _
      unfold parseexec
      rw [hpeek, if_neg Bool.false_ne_true, hparse1, ok_bind]
      dsimp only
      rw [hparse2]
      rfl
    · have hmap : (rs1 ++ rs2).map (Prod.map Arg.text id) = texts rs1 ++ texts rs2 := List.map_append
      rw [map_wrap, hmap, htexts1, htexts2, ← hargv]
      rfl

/-- **Completeness.** -/
theorem parse_complete {kind : Kind} (h : Derives kind ts t) : Complete kind ts t := by
  induction h with
  | line _ m ih => exact complete_line ih m
  | list _ m _ ih ih' => exact complete_list ih m ih'
  | stage _ ih => exact complete_stage ih
  | pipe _ _ ih ih' => exact complete_pipe ih ih'
  | block _ h' ih => exact complete_block ih h'
  | simple h h' hlen => exact complete_simple h h' hlen

end Xv6.Sh
