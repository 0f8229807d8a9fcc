/-
The buffer cache of `bio.c` as the log uses it: `bread`, `bwrite`, `brelse` and the changes a holder makes to a buffer.

At most one buffer caches a block, so the cache is a partial map from block numbers; `bread` fills a buffer, so a cached
block is valid. Before every `bread`, other processes may have read other blocks into the cache and had clean, unused
buffers recycled: `env` says which, and nothing is assumed about it. `bwrite` is one atomic durable write; `writes` is the
history of all of them, in program order.

`Holds s b v` says that whoever reads block `b` next gets `v`, whatever is recycled in between; `Wrote s s' W` that a piece
of code wrote `W` and left every other block as it was. The log is verified with these two.
-/
import Xv6.Core.RedoLog

namespace Xv6.Fs

open Xv6.Core
/-! ## Model -/

/-- the contents of a block, as 32-bit words -/
abbrev Block := ℕ → ℕ

abbrev Disk := ℕ → Block

structure Buf where
  data : Block
  /-- `B_DIRTY` -/
  dirty : Bool
  refcnt : ℕ

/-- what other processes do to the cache -/
inductive Env where
  /-- `bget` for another block recycles the buffer of block `b` -/
  | recycle (b : ℕ)
  /-- somebody reads block `b` and releases it -/
  | read (b : ℕ)

structure Bcache where
  disk : Disk
  buf : ℕ → Option Buf
  env : ℕ → List Env
  clock : ℕ
  writes : List (ℕ × Block)

namespace Bcache

/-- a buffer is recycled only if it is unused and not dirty -/
def other (s : Bcache) : Env → Bcache
  | .recycle b =>
    match s.buf b with
    | some ⟨_, false, 0⟩ => { s with buf := Function.update s.buf b none }
    | _ => s
  | .read b =>
    match s.buf b with
    | some _ => s
    | none => { s with buf := Function.update s.buf b (some ⟨s.disk b, false, 0⟩) }

/-- `bread`: the cached buffer, or a new one filled from the disk, with one more reference -/
def bread (b : ℕ) (s : Bcache) : Bcache :=
  let s' := (s.env s.clock).foldl other s
  let x := (s'.buf b).getD ⟨s'.disk b, false, 0⟩
  { s' with clock := s.clock + 1, buf := Function.update s'.buf b (some { x with refcnt := x.refcnt + 1 }) }

/-- `bwrite`: `iderw` clears `B_DIRTY` -/
def bwrite (b : ℕ) (s : Bcache) : Bcache :=
  match s.buf b with
  | some x =>
    { s with
      disk := Function.update s.disk b x.data
      buf := Function.update s.buf b (some { x with dirty := false })
      writes := s.writes ++ [(b, x.data)] }
  | none => s

/-- `brelse` -/
def brelse (b : ℕ) (s : Bcache) : Bcache :=
  match s.buf b with
  | some x => { s with buf := Function.update s.buf b (some { x with refcnt := x.refcnt - 1 }) }
  | none => s

/-- the holder changes `b->data` -/
def modify (b : ℕ) (f : Block → Block) (s : Bcache) : Bcache :=
  match s.buf b with
  | some x => { s with buf := Function.update s.buf b (some { x with data := f x.data }) }
  | none => s

/-- `b->flags |= B_DIRTY` -/
def pin (b : ℕ) (s : Bcache) : Bcache :=
  match s.buf b with
  | some x => { s with buf := Function.update s.buf b (some { x with dirty := true }) }
  | none => s

/-- `b->data` -/
def data (s : Bcache) (b : ℕ) : Block :=
  match s.buf b with
  | some x => x.data
  | none => fun _ => 0

/-- `memmove(dst->data, src->data, BSIZE)` -/
def memmove (dst src : ℕ) (s : Bcache) : Bcache := modify dst (fun _ => s.data src) s

/-! ## What a block holds -/

/-- the next reader of block `b` gets `v`: it is on the disk, or pinned in the cache -/
def Holds (s : Bcache) (b : ℕ) (v : Block) : Prop :=
  match s.buf b with
  | some x => x.data = v ∧ (x.dirty = true ∨ s.disk b = v)
  | none => s.disk b = v

/-- what a reader of block `b` gets now -/
def contents (s : Bcache) (b : ℕ) : Block :=
  match s.buf b with
  | some x => x.data
  | none => s.disk b

/-- a buffer that is not dirty agrees with the disk -/
def Coherent (s : Bcache) : Prop := ∀ b x, s.buf b = some x → x.dirty = false → x.data = s.disk b

/-- nothing in the cache differs from the disk -/
def Clean (s : Bcache) : Prop := ∀ b, s.Holds b (s.disk b)

/-- somebody has block `b` in a buffer that reads `v` -/
def Held (s : Bcache) (b : ℕ) (v : Block) : Prop := ∃ x, s.buf b = some x ∧ x.data = v ∧ 0 < x.refcnt

variable {s : Bcache} {b c : ℕ} {v w : Block}

theorem Coherent.holds (h : s.Coherent) (b : ℕ) : s.Holds b (s.contents b) := by
  cases hx : s.buf b with
  | none => simp [Holds, contents, hx]
  | some x =>
    simp only [Holds, contents, hx, true_and]
    cases hd : x.dirty with
    | true => exact Or.inl rfl
    | false => exact Or.inr (h b x hx hd).symm

/-- the cache after booting: empty -/
def boot (d : Disk) (env : ℕ → List Env) : Bcache := ⟨d, fun _ => none, env, 0, []⟩

theorem boot_clean (d : Disk) (env : ℕ → List Env) : (boot d env).Clean := fun _ => rfl

theorem Held.data_eq (h : s.Held b v) : s.data b = v := by
  obtain ⟨x, hx, hv, -⟩ := h
  simp [data, hx, hv]

theorem Holds.other (h : s.Holds b v) (e : Env) : (s.other e).Holds b v := by
  cases e with
  | recycle c =>
    simp only [Bcache.other]
    split
    next data hx =>
      by_cases hbc : b = c
      · subst hbc
        simp only [Holds, hx] at h
        simpa [Holds] using h.2
      · simpa [Holds, hbc] using h
    next => exact h
  | read c =>
    simp only [Bcache.other]
    split
    next => exact h
    next hx =>
      by_cases hbc : b = c
      · subst hbc
        have hd : s.disk b = v := by simpa [Holds, hx] using h
        simp [Holds, hd]
      · simpa [Holds, hbc] using h

theorem Held.other (h : s.Held b v) (e : Env) : (s.other e).Held b v := by
  obtain ⟨x, hx, hv, hr⟩ := h
  have hkeep : (s.other e).buf b = some x := by
    cases e with
    | recycle c =>
      simp only [Bcache.other]
      split
      next data hc =>
        have hbc : b ≠ c := by rintro rfl; rw [hx] at hc; cases hc; exact absurd hr (lt_irrefl 0)
        simpa [hbc] using hx
      next => exact hx
    | read c =>
      simp only [Bcache.other]
      split
      next => exact hx
      next hc =>
        have hbc : b ≠ c := by rintro rfl; rw [hx] at hc; cases hc
        simpa [hbc] using hx
  exact ⟨x, hkeep, hv, hr⟩

/-! ## Reading -/

/-- from `s` to `s'` nothing was written and no block changed -/
structure Read (s s' : Bcache) : Prop where
  disk : s'.disk = s.disk
  writes : s'.writes = s.writes
  holds : ∀ c w, s.Holds c w → s'.Holds c w
  held : ∀ c w, s.Held c w → s'.Held c w

variable {s' s'' : Bcache}

theorem Read.trans {s : Bcache} (h : Read s s') (h' : Read s' s'') : Read s s'' :=
  ⟨h'.disk.trans h.disk, h'.writes.trans h.writes, fun c w hc => h'.holds c w (h.holds c w hc),
    fun c w hc => h'.held c w (h.held c w hc)⟩

theorem read_other (s : Bcache) (e : Env) : Read s (s.other e) := by
  refine ⟨?_, ?_, fun c w h => h.other e, fun c w h => h.other e⟩ <;>
    cases e <;> simp only [other] <;> split <;> rfl

theorem read_others (s : Bcache) (es : List Env) : Read s (es.foldl other s) := by
  induction es generalizing s with
  | nil => exact ⟨rfl, rfl, fun _ _ h => h, fun _ _ h => h⟩
  | cons e es ih => exact (read_other s e).trans (ih _)

theorem read_bread (b : ℕ) (s : Bcache) : Read s (bread b s) := by
  refine (read_others s (s.env s.clock)).trans ?_
  rw [bread]
  generalize (s.env s.clock).foldl other s = s'
  refine ⟨rfl, rfl, fun c w h => ?_, fun c w h => ?_⟩
  · by_cases hcb : c = b
    · subst hcb
      cases hx : s'.buf c with
      | none =>
        have hd : s'.disk c = w := by simpa [Holds, hx] using h
        simp [Holds, hd]
      | some x => simpa [Holds, hx] using h
    · simpa [Holds, hcb] using h
  · obtain ⟨x, hx, hv, hr⟩ := h
    by_cases hcb : c = b
    · subst hcb; exact ⟨{ x with refcnt := x.refcnt + 1 }, by simp [hx], hv, Nat.succ_pos _⟩
    · exact ⟨x, by simpa [hcb] using hx, hv, hr⟩

/-- the buffer `bread` returns holds what the block holds -/
theorem held_bread (h : s.Holds b v) : (bread b s).Held b v := by
  have h' := (read_others s (s.env s.clock)).holds b v h
  rw [bread]
  generalize (s.env s.clock).foldl other s = s' at *
  cases hx : s'.buf b with
  | none =>
    have hd : s'.disk b = v := by simpa [Holds, hx] using h'
    exact ⟨⟨v, false, 1⟩, by simp [hd], rfl, Nat.one_pos⟩
  | some x =>
    simp only [Holds, hx] at h'
    exact ⟨{ x with refcnt := x.refcnt + 1 }, by simp, h'.1, Nat.succ_pos _⟩

theorem exists_held_bread (b : ℕ) (s : Bcache) : ∃ w, (bread b s).Held b w :=
  ⟨_, _, update_self .., rfl, Nat.succ_pos _⟩

/-! ## Writing -/

/-- from `s` to `s'` the blocks of `W` were written, in this order, and no other block changed -/
structure Wrote (s s' : Bcache) (W : List (ℕ × Block)) : Prop where
  disk : s'.disk = applyWrites W s.disk
  writes : s'.writes = s.writes ++ W
  self : ∀ c ∈ W.map Prod.fst, s'.Holds c (s'.disk c)
  other : ∀ c w, c ∉ W.map Prod.fst → s.Holds c w → s'.Holds c w

theorem Wrote.refl (s : Bcache) : Wrote s s [] := ⟨rfl, by simp, by simp, fun _ _ _ h => h⟩

variable {W : List (ℕ × Block)}

theorem Wrote.append {s : Bcache} {W' : List (ℕ × Block)} (h : Wrote s s' W) (h' : Wrote s' s'' W') :
    Wrote s s'' (W ++ W') := by
  refine ⟨?_, ?_, fun c hc => ?_, fun c w hc hw => ?_⟩
  · rw [h'.disk, h.disk, applyWrites_append]
  · rw [h'.writes, h.writes, List.append_assoc]
  · by_cases hc' : c ∈ W'.map Prod.fst
    · exact h'.self c hc'
    · have hcW : c ∈ W.map Prod.fst := by
        rw [List.map_append, List.mem_append] at hc
        exact hc.resolve_right hc'
      rw [h'.disk, applyWrites_of_notMem hc']
      exact h'.other c _ hc' (h.self c hcW)
  · rw [List.map_append, List.mem_append, not_or] at hc
    exact h'.other c w hc.2 (h.other c w hc.1 hw)

theorem Read.wrote {s : Bcache} (h : Read s s') (h' : Wrote s' s'' W) : Wrote s s'' W :=
  ⟨by rw [h'.disk, h.disk], by rw [h'.writes, h.writes], h'.self, fun c w hc hw => h'.other c w hc (h.holds c w hw)⟩

theorem holds_brelse (h : s.Holds c w) (b : ℕ) : (brelse b s).Holds c w := by
  cases hx : s.buf b with
  | none => simpa [brelse, hx] using h
  | some x =>
    by_cases hcb : c = b
    · subst hcb; simpa [brelse, Holds, hx] using h
    · simpa [brelse, Holds, hx, hcb] using h

theorem brelse_disk (b : ℕ) (s : Bcache) : (brelse b s).disk = s.disk := by
  cases hx : s.buf b <;> simp [brelse, hx]

theorem pin_modify_disk (b : ℕ) (f : Block → Block) (s : Bcache) : (brelse b (pin b (modify b f (bread b s)))).disk = s.disk := by
  obtain ⟨w, x, hx, -, -⟩ := exists_held_bread b s
  rw [brelse_disk, ← (read_bread b s).disk]
  simp [pin, modify, hx]

/-- a changed buffer that is pinned keeps its new contents -/
theorem holds_pin_modify (h : s.Holds b v) (f : Block → Block) : (brelse b (pin b (modify b f (bread b s)))).Holds b (f v) := by
  obtain ⟨x, hx, rfl, -⟩ := held_bread h
  exact holds_brelse (by simp [pin, modify, hx, Holds]) b

theorem holds_pin_modify_of_ne (h : s.Holds c w) (hcb : c ≠ b) (f : Block → Block) :
    (brelse b (pin b (modify b f (bread b s)))).Holds c w := by
  obtain ⟨v, x, hx, -, -⟩ := exists_held_bread b s
  exact holds_brelse (by simpa [pin, modify, hx, Holds, hcb] using (read_bread b s).holds c w h) b

theorem Wrote.brelse {s : Bcache} (h : Wrote s s' W) (b : ℕ) : Wrote s (brelse b s') W := by
  have hd := brelse_disk b s'
  have hw : (Bcache.brelse b s').writes = s'.writes := by
    cases hx : s'.buf b <;> simp [Bcache.brelse, hx]
  exact ⟨by rw [hd, h.disk], by rw [hw, h.writes], fun c hc => hd ▸ holds_brelse (h.self c hc) b,
    fun c w hc hw => holds_brelse (h.other c w hc hw) b⟩

/-- the holder of a buffer changes it and writes it -/
theorem wrote_modify_bwrite (h : s.Held b v) (f : Block → Block) : Wrote s (bwrite b (modify b f s)) [(b, f v)] := by
  obtain ⟨x, hx, rfl, hr⟩ := h
  refine ⟨?_, ?_, fun c hc => ?_, fun c w hc hw => ?_⟩
  · simp [bwrite, modify, hx]
  · simp [bwrite, modify, hx]
  · obtain rfl : c = b := by simpa using hc
    simp [bwrite, modify, hx, Holds]
  · have hcb : c ≠ b := by simpa using hc
    simpa [bwrite, modify, hx, Holds, hcb] using hw

/-- copying a block through the cache, whichever of the two buffers is read first -/
theorem wrote_copy {dst src : ℕ} {s0 : Bcache} (hread : Read s0 s) (hsrc : s.Held src v) (hdst : s.Held dst w) (b c : ℕ) :
    Wrote s0 (s |> memmove dst src |> bwrite dst |> brelse b |> brelse c) [(dst, v)] := by
  have hw := wrote_modify_bwrite hdst fun _ => v
  rw [← hsrc.data_eq] at hw ⊢
  exact hread.wrote ((hw.brelse b).brelse c)

/-- the writes made from `s` to `s'` -/
def writesSince (s s' : Bcache) : List (ℕ × Block) := s'.writes.drop s.writes.length

theorem Wrote.writesSince {s : Bcache} (h : Wrote s s' W) : writesSince s s' = W := by
  simp [Bcache.writesSince, h.writes]

/-- a loop each of whose rounds writes one block -/
theorem wrote_foldl {body : Bcache → ℕ → Bcache} {a : ℕ → ℕ} {v : ℕ → Block} {P : Bcache → Prop} (l : List ℕ)
    (hbody : ∀ i ∈ l, ∀ s, P s → Wrote s (body s i) [(a i, v i)] ∧ P (body s i)) (s : Bcache) (hs : P s) :
    Wrote s (l.foldl body s) (l.map fun i => (a i, v i)) := by
  induction l generalizing s with
  | nil => exact Wrote.refl s
  | cons i l ih =>
    obtain ⟨hw, hP⟩ := hbody i List.mem_cons_self s hs
    exact hw.append (ih (fun j hj => hbody j (List.mem_cons_of_mem _ hj)) _ hP)

end Bcache

end Xv6.Fs
