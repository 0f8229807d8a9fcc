/-
The shell's parser (`sh.c`) from the line to the strings of the command.

`nulterminate` writes its NULs where no word is, so that the pointers to the words point to the words as they were read. With that
`parsecmd` is an exact parser of the grammar, and reads back what is printed with parentheses around every node.
-/
import Mathlib
import Xv6.User.ShParse

namespace Xv6.Sh

open Xv6.Kernel (bind_ok bind_error ok_bind)

/-! ## The strings -/

theorem nulterminate_eq (n : ℕ) (c : Cmd Arg) (buf : Text) :
    nulterminate n c buf = c.words.foldl (fun buf a => buf.set (n - a.eq.length) '\x00') buf := by
  induction c generalizing buf with
  | exec argv => rfl
  | redir c file dir ih =>
    change (nulterminate n c buf).set _ _ = (c.words ++ [file]).foldl _ buf
    rw [ih, List.foldl_append]
    rfl
  | pipe l r ihl ihr =>
    change nulterminate n r (nulterminate n l buf) = _
    rw [ihl, ihr]
    exact (List.foldl_append ..).symm
  | list l r ihl ihr =>
    change nulterminate n r (nulterminate n l buf) = _
    rw [ihl, ihr]
    exact (List.foldl_append ..).symm
  | back c ih => exact ih buf

/-- the characters of words are in place -/
structure Kept (s buf : Text) : Prop where
  length : buf.length = s.length + 1
  chars : ∀ (i : ℕ) (ch : Char), s[i]? = some ch → wordChar ch = true → buf[i]? = some ch

variable {s buf : Text} {a : Arg} {c : Cmd Arg}

variable {ch : Char}

/-- the end of a word is not in a word -/
theorem Spans.end_char (h : Spans s a) (hch : s[s.length - a.eq.length]? = some ch) : wordChar ch = false := by
  obtain ⟨w, hq, -, -⟩ := h.split
  obtain ⟨p, hp⟩ := h.start
  rw [← hp, hq, ← List.append_assoc] at hch
  have hidx : ((p ++ w) ++ a.eq).length - a.eq.length = (p ++ w).length := by
    rw [List.length_append]
    omega
  rw [hidx, List.getElem?_append_right le_rfl, Nat.sub_self] at hch
  refine h.stop ch ?_
  rw [List.head?_eq_getElem?]
  exact hch

theorem Kept.set (h : Kept s buf) (ha : Spans s a) : Kept s (buf.set (s.length - a.eq.length) '\x00') := by
  refine ⟨by rw [List.length_set, h.length], fun i ch hch hword => ?_⟩
  rw [List.getElem?_set_ne]
  · exact h.chars i ch hch hword
  · rintro rfl
    rw [ha.end_char hch] at hword
    cases hword

theorem foldl_set_kept {l : List Arg} (h : Kept s buf) (hl : ∀ a ∈ l, Spans s a) :
    Kept s (l.foldl (fun buf a => buf.set (s.length - a.eq.length) '\x00') buf) ∧
      ∀ i : ℕ, (buf[i]? = some '\x00' ∨ ∃ a ∈ l, i = s.length - a.eq.length) →
        (l.foldl (fun buf a => buf.set (s.length - a.eq.length) '\x00') buf)[i]? = some '\x00' := by
  induction l generalizing buf with
  | nil =>
    refine ⟨h, fun i hi => ?_⟩
    rcases hi with hi | ⟨a, ha, -⟩
    · exact hi
    · cases ha
  | cons a l ih =>
    have ha := hl a List.mem_cons_self
    obtain ⟨hkept, hzero⟩ := ih (h.set ha) fun x hx => hl x (List.mem_cons_of_mem _ hx)
    refine ⟨hkept, fun i hi => hzero i ?_⟩
    have hend : (buf.set (s.length - a.eq.length) '\x00')[s.length - a.eq.length]? = some '\x00' := by
      rw [List.getElem?_set_self]
      have hlen := h.length
      omega
    rcases hi with hi | ⟨x, hx, rfl⟩
    · by_cases hia : i = s.length - a.eq.length
      · exact .inl (hia ▸ hend)
      · rw [List.getElem?_set_ne (Ne.symm hia)]
        exact .inl hi
    · rcases List.mem_cons.1 hx with rfl | hx
      · exact .inl hend
      · exact .inr ⟨x, hx, rfl⟩

theorem takeWhile_of_getElem? {p : Char → Bool} {w d : Text} {x : Char} (hw : ∀ ch ∈ w, p ch = true) (hx : p x = false)
    (hd : ∀ i < w.length, d[i]? = w[i]?) (hend : d[w.length]? = some x) : d.takeWhile p = w := by
  induction w generalizing d with
  | nil =>
    cases d with
    | nil => cases hend
    | cons y d =>
      cases hend
      rw [List.takeWhile_cons_of_neg (by rw [hx]; exact Bool.false_ne_true)]
  | cons y w ih =>
    cases d with
    | nil => cases hend
    | cons z d =>
      have hz : z = y := Option.some.inj (hd 0 (Nat.succ_pos _))
      subst hz
      rw [List.takeWhile_cons_of_pos (hw z List.mem_cons_self), ih (fun ch hch => hw ch (List.mem_cons_of_mem _ hch)) ?_ hend]
      intro i hi
      exact hd (i + 1) (Nat.succ_lt_succ hi)

theorem Spans.text (h : Spans s a) : a.q = a.text ++ a.eq ∧ ∀ ch ∈ a.text, wordChar ch = true := by
  obtain ⟨w, hq, -, hw⟩ := h.split
  have htext : a.text = w := by
    unfold Arg.text
    rw [hq, List.length_append, Nat.add_sub_cancel, List.take_left]
  rw [htext]
  exact ⟨hq, hw⟩

/-- after `nulterminate`, the pointers point to the words -/
theorem cstring_eq_text (hnul : '\x00' ∉ s) (hspans : ∀ a ∈ c.words, Spans s a) (ha : a ∈ c.words) :
    cstring s.length (nulterminate s.length c (s ++ ['\x00'])) a = a.text := by
  have hinit : Kept s (s ++ ['\x00']) := by
    refine ⟨by rw [List.length_append]; rfl, fun i ch hch _ => ?_⟩
    have hlt := (List.getElem?_eq_some_iff.1 hch).1
    rw [List.getElem?_append_left hlt]
    exact hch
  obtain ⟨hkept, hzero⟩ := foldl_set_kept hinit hspans
  rw [← nulterminate_eq] at hkept hzero
  have hspan := hspans a ha
  obtain ⟨hq, hw⟩ := hspan.text
  obtain ⟨p, hp⟩ := hspan.start
  have hs : s = p ++ (a.text ++ a.eq) := by rw [← hq, hp]
  have hlen : s.length = p.length + (a.text.length + a.eq.length) := by
    rw [hs, List.length_append, List.length_append]
  have hqlen : s.length - a.q.length = p.length := by
    rw [hq, List.length_append]
    omega
  unfold cstring
  rw [hqlen]
  refine takeWhile_of_getElem? (x := '\x00') (fun ch hch => ?_) (by decide) (fun i hi => ?_) ?_
  · refine decide_eq_true ?_
    rintro rfl
    refine hnul ?_
    rw [hs]
    exact List.mem_append_right _ (List.mem_append_left _ hch)
  · rw [List.getElem?_drop, List.getElem?_eq_getElem hi]
    refine hkept.chars _ _ ?_ (hw _ (List.getElem_mem hi))
    rw [hs, List.getElem?_append_right (Nat.le_add_right ..), Nat.add_sub_cancel_left, List.getElem?_append_left hi,
      List.getElem?_eq_getElem hi]
  · rw [List.getElem?_drop]
    exact hzero _ (.inr ⟨a, ha, by omega⟩)

theorem map_congr {α β : Type} {f g : α → β} {c : Cmd α} (h : ∀ a ∈ c.words, f a = g a) : c.map f = c.map g := by
  induction c with
  | exec argv => exact congrArg Cmd.exec (List.map_congr_left h)
  | redir c file dir ih =>
    unfold Cmd.map
    rw [ih fun a ha => h a (List.mem_append_left _ ha), h file (List.mem_append_right _ (List.mem_singleton_self _))]
  | pipe l r ihl ihr =>
    unfold Cmd.map
    rw [ihl fun a ha => h a (List.mem_append_left _ ha), ihr fun a ha => h a (List.mem_append_right _ ha)]
  | list l r ihl ihr =>
    unfold Cmd.map
    rw [ihl fun a ha => h a (List.mem_append_left _ ha), ihr fun a ha => h a (List.mem_append_right _ ha)]
  | back c ih =>
    unfold Cmd.map
    rw [ih h]

theorem nul_notMem_upToNul (line : Text) : '\x00' ∉ upToNul line := by
  intro h
  have hne := List.mem_takeWhile_imp h
  exact absurd hne (by decide)

theorem tokens_length_le (s : Text) : (tokens s).length ≤ s.length := by
  rw [tokens]
  split
  · exact Nat.zero_le _
  · rename_i hret
    have hlt := rest_lt hret
    have ih := tokens_length_le (gettoken s).rest
    rw [List.length_cons]
    omega
termination_by s.length

theorem tokens_eq_nil (hnul : '\x00' ∉ s) : tokens s = [] ↔ skip s = [] := by
  refine ⟨fun h => ?_, fun h => ?_⟩
  · have hret := (of_tokens_nil h).1
    cases hq : skip s with
    | nil => rfl
    | cons ch q =>
      have hmem : ch ∈ s := (skip_suffix s).subset (hq ▸ List.mem_cons_self)
      cases next s with
      | done _ hc =>
        rw [hq] at hc
        change ch = '\x00' at hc
        rw [hc] at hmem
        exact absurd hmem hnul
      | sym hsym =>
        rw [hret] at hsym
        exact absurd hsym (by decide)
      | word hword =>
        rw [hret] at hword
        exact absurd hword (by decide)
  · refine tokens_of_end ?_
    change (scan (skip s)).1 = _
    rw [h]
    rfl

/-! ## Printing -/

/-- what is printed for a redirection -/
def Dir.char : Dir → Char
  | .input => '<'
  | .output => '>'

/-- a command with parentheses around every node, and a blank after every word of a simple command -/
def Cmd.print : Cmd Text → Text
  | .exec argv => '(' :: (argv.flatMap (fun w => w ++ [' ']) ++ [')'])
  | .redir c file dir => '(' :: (c.print ++ dir.char :: (file ++ [')']))
  | .pipe l r => '(' :: (l.print ++ '|' :: (r.print ++ [')']))
  | .list l r => '(' :: (l.print ++ ';' :: (r.print ++ [')']))
  | .back c => '(' :: (c.print ++ ['&', ')'])

/-- a non-empty word free of NUL, whitespace and symbols -/
def IsWord (w : Text) : Prop := w ≠ [] ∧ ∀ ch ∈ w, ch ≠ '\x00' ∧ ch ∉ whitespace ∧ ch ∉ symbols

instance : DecidablePred IsWord := fun w => @instDecidableAnd _ _ _ (List.decidableBAll _ w)

/-- the simple commands have at most `MAXARGS - 1` words -/
def Cmd.Short {α : Type} : Cmd α → Prop
  | .exec argv => argv.length ≤ MAXARGS - 1
  | .redir c _ _ => c.Short
  | .pipe l r => l.Short ∧ r.Short
  | .list l r => l.Short ∧ r.Short
  | .back c => c.Short

theorem skip_cons (hws : ch ∉ whitespace) (s : Text) : skip (ch :: s) = ch :: s :=
  List.dropWhile_cons_of_neg (by rw [decide_eq_true_iff]; exact hws)

theorem tokens_blank (s : Text) : tokens (' ' :: s) = tokens s := by
  rw [← tokens_skip, ← tokens_skip s]
  rfl

variable {s' : Text}

theorem tokens_symbol {s : Text} {ret : Char} (hws : ch ∉ whitespace) (hscan : scan (ch :: s) = (ret, s'))
    (hnul : ret ≠ '\x00') (ha : ret ≠ 'a') : tokens (ch :: s) = .sym ret :: tokens s' := by
  have htoken : gettoken (ch :: s) = ⟨ret, ⟨ch :: s, s'⟩, skip s'⟩ := by
    unfold gettoken
    rw [skip_cons hws, hscan]
  rw [tokens, htoken, dif_neg hnul, tokens_skip]
  congr 1
  exact if_neg ha

theorem tokens_one (hch : ch ∈ ['|', '(', ')', ';', '&', '<']) (s : Text) : tokens (ch :: s) = .sym ch :: tokens s := by
  have hfacts : ch ∉ whitespace ∧ ch ≠ '\x00' ∧ ch ≠ 'a' := by
    have hall : ['|', '(', ')', ';', '&', '<'].all (fun c => decide (c ∉ whitespace ∧ c ≠ '\x00' ∧ c ≠ 'a')) = true := by decide
    exact of_decide_eq_true (List.all_eq_true.1 hall ch hch)
  refine tokens_symbol hfacts.1 ?_ hfacts.2.1 hfacts.2.2
  unfold scan
  dsimp only
  rw [if_neg hfacts.2.1, if_pos hch]

theorem tokens_gt {s : Text} (hs : deref s ≠ '>') : tokens ('>' :: s) = .sym '>' :: tokens s := by
  refine tokens_symbol (by decide) ?_ (by decide) (by decide)
  exact if_neg hs

theorem tokens_word {w s : Text} (hw : IsWord w) (hs : ∀ ch ∈ s.head?, wordChar ch = false) : tokens (w ++ s) = .word w :: tokens s := by
  obtain ⟨hne, hchars⟩ := hw
  have hall : ∀ ch ∈ w, wordChar ch = true := fun ch hch => decide_eq_true ⟨(hchars ch hch).2.1, (hchars ch hch).2.2⟩
  cases w with
  | nil => exact absurd rfl hne
  | cons ch w =>
    obtain ⟨hnul, hws, hsym⟩ := hchars ch List.mem_cons_self
    have hdrop : (w ++ s).dropWhile wordChar = s := by
      rw [List.dropWhile_append_of_pos fun x hx => hall x (List.mem_cons_of_mem _ hx)]
      cases s with
      | nil => rfl
      | cons x s => exact List.dropWhile_cons_of_neg (by rw [hs x rfl]; exact Bool.false_ne_true)
    have htoken : gettoken (ch :: w ++ s) = ⟨'a', ⟨ch :: w ++ s, s⟩, skip s⟩ := by
      unfold gettoken
      rw [List.cons_append, skip_cons hws, scan_word hnul hws hsym, hdrop]
    have htext : Arg.text ⟨ch :: w ++ s, s⟩ = ch :: w := by
      unfold Arg.text
      dsimp only
      rw [List.length_append, Nat.add_sub_cancel, List.take_left]
    have htok : Token.tok ⟨'a', ⟨ch :: w ++ s, s⟩, skip s⟩ = .word (ch :: w) := (if_pos rfl).trans (congrArg Tok.word htext)
    rw [tokens, htoken, dif_neg (show 'a' ≠ '\x00' by decide), htok, tokens_skip]

theorem tokens_words {ws : List Text} (hws : ∀ w ∈ ws, IsWord w) (s : Text) :
    tokens (ws.flatMap (fun w => w ++ [' ']) ++ s) = ws.map Tok.word ++ tokens s := by
  induction ws with
  | nil => rfl
  | cons w ws ih =>
    rw [List.flatMap_cons, List.append_assoc, List.append_assoc, tokens_word (hws w List.mem_cons_self)]
    · rw [List.singleton_append, tokens_blank, ih fun x hx => hws x (List.mem_cons_of_mem _ hx)]
      rfl
    · intro ch hch
      cases hch
      decide

theorem args_words (ws : List Text) : Args (ws.map Tok.word) ws [] := by
  induction ws with
  | nil => exact .nil
  | cons w ws ih => exact .cons .nil ih

variable {ts : List Tok} {t : Cmd Text}

theorem Derives.to_line (h : Derives .pipe ts t) : Derives .line ts t := by
  have hline := Derives.line h 0
  rw [List.replicate_zero, List.append_nil] at hline
  exact hline

/-- in parentheses -/
theorem Derives.paren (h : Derives .line ts t) : Derives .exec (.sym '(' :: (ts ++ [.sym ')'])) t :=
  .block h .nil

/-- the tokens of a command that is printed: inside the parentheses there is a line -/
theorem tokens_print (hwords : ∀ w ∈ t.words, IsWord w) (hshort : t.Short) :
    ∃ ts, (∀ s, tokens (t.print ++ s) = .sym '(' :: (ts ++ .sym ')' :: tokens s)) ∧ Derives .line ts t := by
  induction t with
  | exec argv =>
    refine ⟨argv.map Tok.word, fun s => ?_, .to_line (.stage (.simple .nil (args_words argv) hshort))⟩
    change tokens ('(' :: ((argv.flatMap _ ++ [')']) ++ s)) = _
    rw [tokens_one (by decide), List.append_assoc, tokens_words (show ∀ w ∈ argv, IsWord w from hwords), List.singleton_append, tokens_one (by decide)]
  | redir c file dir ih =>
    obtain ⟨ts, htokens, hderiv⟩ := ih (fun w hw => hwords w (List.mem_append_left _ hw)) hshort
    have hfile : IsWord file := hwords file (List.mem_append_right _ (List.mem_singleton_self _))
    have hstop : ∀ (s : Text), ∀ ch ∈ (')' :: s).head?, wordChar ch = false := by
      intro s ch hch
      cases hch
      decide
    refine ⟨.sym '(' :: (ts ++ .sym ')' :: [.sym dir.char, .word file]), fun s => ?_, ?_⟩
    · change tokens ('(' :: ((c.print ++ dir.char :: (file ++ [')'])) ++ s)) = _
      have hredir : tokens (dir.char :: (file ++ ')' :: s)) = .sym dir.char :: .word file :: .sym ')' :: tokens s := by
        have hrest : tokens (file ++ ')' :: s) = .word file :: .sym ')' :: tokens s := by
          rw [tokens_word hfile (hstop s), tokens_one (by decide)]
        cases dir with
        | input => exact (tokens_one (by decide) _).trans (congrArg _ hrest)
        | output =>
          refine (tokens_gt ?_).trans (congrArg _ hrest)
          obtain ⟨hne, hchars⟩ := hfile
          cases file with
          | nil => exact absurd rfl hne
          | cons ch file =>
            change ch ≠ '>'
            rintro rfl
            exact (hchars _ List.mem_cons_self).2.2 (by decide)
      rw [tokens_one (by decide), List.append_assoc, htokens, List.cons_append, List.append_assoc, List.singleton_append, hredir]
      simp only [List.cons_append, List.append_assoc, List.nil_append]
    · refine .to_line (.stage ?_)
      cases dir with
      | input => exact .block hderiv (.input .nil)
      | output => exact .block hderiv (.output .nil)
  | pipe l r ihl ihr =>
    obtain ⟨ts1, htokens1, hderiv1⟩ := ihl (fun w hw => hwords w (List.mem_append_left _ hw)) hshort.1
    obtain ⟨ts2, htokens2, hderiv2⟩ := ihr (fun w hw => hwords w (List.mem_append_right _ hw)) hshort.2
    refine ⟨_, fun s => ?_, .to_line (.pipe hderiv1.paren (.stage hderiv2.paren))⟩
    change tokens ('(' :: ((l.print ++ '|' :: (r.print ++ [')'])) ++ s)) = _
    rw [tokens_one (by decide), List.append_assoc, htokens1, List.cons_append, tokens_one (by decide), List.append_assoc, htokens2,
      List.singleton_append, tokens_one (by decide)]
    simp only [List.cons_append, List.append_assoc, List.nil_append]
  | list l r ihl ihr =>
    obtain ⟨ts1, htokens1, hderiv1⟩ := ihl (fun w hw => hwords w (List.mem_append_left _ hw)) hshort.1
    obtain ⟨ts2, htokens2, hderiv2⟩ := ihr (fun w hw => hwords w (List.mem_append_right _ hw)) hshort.2
    refine ⟨_, fun s => ?_, .list (.stage hderiv1.paren) 0 (.to_line (.stage hderiv2.paren))⟩
    change tokens ('(' :: ((l.print ++ ';' :: (r.print ++ [')'])) ++ s)) = _
    rw [tokens_one (by decide), List.append_assoc, htokens1, List.cons_append, tokens_one (by decide), List.append_assoc, htokens2,
      List.singleton_append, tokens_one (by decide)]
    simp only [List.replicate_zero, List.cons_append, List.append_assoc, List.nil_append]
  | back c ih =>
    obtain ⟨ts, htokens, hderiv⟩ := ih hwords hshort
    refine ⟨_, fun s => ?_, .line (.stage hderiv.paren) 1⟩
    change tokens ('(' :: ((c.print ++ ['&', ')']) ++ s)) = _
    rw [tokens_one (by decide), List.append_assoc, htokens, List.cons_append, List.singleton_append, tokens_one (by decide),
      tokens_one (by decide)]
    simp only [List.replicate_one, List.cons_append, List.append_assoc, List.nil_append]

theorem nul_notMem_print (hwords : ∀ w ∈ t.words, IsWord w) : '\x00' ∉ t.print := by
  have hword : ∀ {w}, IsWord w → '\x00' ∉ w := fun hw hmem => (hw.2 _ hmem).1 rfl
  induction t with
  | exec argv =>
    have hargv : ∀ w ∈ argv, '\x00' ∉ w := fun w hw => hword (hwords w hw)
    simpa [Cmd.print] using hargv
  | redir c file dir ih =>
    have hc := ih fun w hw => hwords w (List.mem_append_left _ hw)
    have hfile := hword (hwords file (List.mem_append_right _ (List.mem_singleton_self _)))
    have hdir : '\x00' ≠ dir.char := by
      cases dir with
      | input => decide
      | output => decide
    simp [Cmd.print, hc, hfile, hdir]
  | pipe l r ihl ihr =>
    have hl := ihl fun w hw => hwords w (List.mem_append_left _ hw)
    have hr := ihr fun w hw => hwords w (List.mem_append_right _ hw)
    simp [Cmd.print, hl, hr]
  | list l r ihl ihr =>
    have hl := ihl fun w hw => hwords w (List.mem_append_left _ hw)
    have hr := ihr fun w hw => hwords w (List.mem_append_right _ hw)
    simp [Cmd.print, hl, hr]
  | back c ih =>
    have hc := ih hwords
    simp [Cmd.print, hc]

/-! ## The parser and the grammar -/

variable {fuel : ℕ} {line : Text}

theorem parsecmd_total (hfuel : 4 * (upToNul line).length + 4 ≤ fuel) : parsecmd fuel line ≠ .error .fuel := by
  intro h
  unfold parsecmd at h
  rcases bind_error h with h | ⟨⟨c, s⟩, -, h⟩
  · have hlen := tokens_length_le (upToNul line)
    exact (parse_total fuel).line (by omega) h
  · dsimp only at h
    split at h <;> cases h

/-- the strings of the command are its words -/
theorem strings_eq {c : Cmd Arg} (hparse : parseline fuel (upToNul line) = .ok (c, s')) :
    c.map (cstring (upToNul line).length (nulterminate (upToNul line).length c (upToNul line ++ ['\x00']))) = c.map Arg.text :=
  map_congr fun _ ha => cstring_eq_text (nul_notMem_upToNul line) ((parse_sound fuel).line hparse).spans ha

theorem parsecmd_of_parseline {c : Cmd Arg} (hparse : parseline fuel (upToNul line) = .ok (c, s'))
    (hskip : skip s' = []) : parsecmd fuel line = .ok (c.map Arg.text) := by
  unfold parsecmd
  rw [hparse, ok_bind]
  dsimp only
  rw [if_neg (not_not.2 hskip), strings_eq hparse]
  rfl

theorem parsecmd_iff (hfuel : 4 * (upToNul line).length + 4 ≤ fuel) (t : Cmd Text) :
    parsecmd fuel line = .ok t ↔ Derives .line (tokens (upToNul line)) t := by
  have hnul := nul_notMem_upToNul line
  refine ⟨fun h => ?_, fun h => ?_⟩
  · unfold parsecmd at h
    obtain ⟨⟨c, s'⟩, hparse, h⟩ := bind_ok h
    dsimp only at h
    split at h
    · cases h
    · rename_i hskip
      cases h
      obtain ⟨hsuf, -, ts, hts, hderiv⟩ := (parse_sound fuel).line hparse
      have hend : tokens s' = [] := (tokens_eq_nil fun hmem => hnul (hsuf.subset hmem)).2 (not_not.1 hskip)
      rw [hend, List.append_nil] at hts
      rw [strings_eq hparse, hts]
      exact hderiv
  · have hlen := tokens_length_le (upToNul line)
    obtain ⟨c, s', hparse, hc, hs'⟩ := parse_complete h (n := fuel) (List.append_nil _).symm nofun
      (show 4 * (tokens (upToNul line)).length + 4 ≤ fuel by omega)
    change parseline fuel (upToNul line) = _ at hparse
    have hsuf := ((parse_sound fuel).line hparse).suffix
    have hskip : skip s' = [] := (tokens_eq_nil fun hmem => hnul (hsuf.subset hmem)).1 hs'
    rw [parsecmd_of_parseline hparse hskip, hc]

/-- **The shell's parser.** It terminates on every line, with fuel for the length of the line. It succeeds exactly if the tokens derive
from the grammar, with the tree of that derivation; a tree that is printed with all parentheses is read back. -/
theorem shell_parsecmd (line : Text) (fuel : ℕ) (hfuel : 4 * (upToNul line).length + 4 ≤ fuel) :
    parsecmd fuel line ≠ .error .fuel ∧
      (∀ t, parsecmd fuel line = .ok t ↔ Derives .line (tokens (upToNul line)) t) ∧
      ∀ t : Cmd Text, t.Short → (∀ w ∈ t.words, IsWord w) → line = t.print → parsecmd fuel line = .ok t := by
  refine ⟨parsecmd_total hfuel, parsecmd_iff hfuel, ?_⟩
  rintro t hshort hwords rfl
  have hline : upToNul t.print = t.print := by
    refine List.takeWhile_eq_self_iff.2 fun ch hch => decide_eq_true ?_
    rintro rfl
    exact nul_notMem_print hwords hch
  obtain ⟨ts, htokens, hderiv⟩ := tokens_print hwords hshort
  have htokens' := htokens []
  rw [List.append_nil, show tokens [] = [] from tokens_of_end rfl] at htokens'
  rw [parsecmd_iff hfuel, hline, htokens']
  exact .to_line (.stage hderiv.paren)

/-- `ls | (wc > f)` -/
def lsTree : Cmd Text := .pipe (.exec [['l', 's']]) (.redir (.exec [['w', 'c']]) ['f'] .output)

theorem shell_parsecmd_ls : parsecmd 200 lsTree.print = .ok lsTree :=
  (shell_parsecmd lsTree.print 200 (by decide)).2.2 lsTree ⟨show 1 ≤ MAXARGS - 1 by decide, show 1 ≤ MAXARGS - 1 by decide⟩ (by decide) rfl

/-- **Token strings.** Where the parser accepts the line, every word of the tree is a run of word characters that no word character
follows, and after `nulterminate` the pointer to its start points to it and nothing more. -/
theorem token_strings (line : Text) (fuel : ℕ) (hfuel : 4 * (upToNul line).length + 4 ≤ fuel) :
    parsecmd fuel line ≠ .error .fuel ∧
      ∀ (cmd : Cmd Arg) (rest : Text), parseline fuel (upToNul line) = .ok (cmd, rest) → skip rest = [] →
        parsecmd fuel line = .ok (cmd.map Arg.text) ∧
        ∀ a ∈ cmd.words, a.q <:+ upToNul line ∧ a.q = a.text ++ a.eq ∧ (∀ ch ∈ a.text, wordChar ch = true) ∧
          (∀ ch ∈ a.eq.head?, wordChar ch = false) ∧
          cstring (upToNul line).length (nulterminate (upToNul line).length cmd (upToNul line ++ ['\x00'])) a = a.text := by
  refine ⟨parsecmd_total hfuel, fun cmd rest hparse hskip => ⟨parsecmd_of_parseline hparse hskip, fun a ha => ?_⟩⟩
  have hspans := ((parse_sound fuel).line hparse).spans
  have hspan := hspans a ha
  exact ⟨hspan.start, hspan.text.1, hspan.text.2, hspan.stop, cstring_eq_text (nul_notMem_upToNul line) hspans ha⟩

theorem token_strings_touching : parsecmd 20 ['l', 's', '>', 'f'] = .ok (.redir (.exec [['l', 's']]) ['f'] .output) :=
  ((token_strings ['l', 's', '>', 'f'] 20 (by decide)).2 (.redir (.exec [⟨['l', 's', '>', 'f'], ['>', 'f']⟩]) ⟨['f'], []⟩ .output) [] rfl rfl).1

end Xv6.Sh
