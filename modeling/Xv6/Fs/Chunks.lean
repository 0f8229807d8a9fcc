/-
`filewrite` against one `writei`. A long write goes to the file in chunks of `MAXWRITE` bytes, each an operation of its own at the
offset that the one before has left.
-/
import Xv6.Fs.Edits

namespace Xv6.FileSys

open Xv6.Core Xv6.Core.Prog
/-! ## Strings -/

/-- the bytes from `off` on are replaced -/
def splice (c : List UInt8) (off : ℕ) (src : List UInt8) : List UInt8 := c.take off ++ src ++ c.drop (off + src.length)

theorem splice_nil (c : List UInt8) (off : ℕ) : splice c off [] = c := by
  simp [splice]

/-- one piece after the other -/
theorem splice_append {c : List UInt8} {off : ℕ} (h : off ≤ c.length) (a b : List UInt8) :
    splice (splice c off a) (off + a.length) b = splice c off (a ++ b) := by
  have htake : (c.take off ++ a).length = off + a.length := by
    rw [List.length_append, List.length_take, min_eq_left h]
  have hfront : (splice c off a).take (off + a.length) = c.take off ++ a := List.take_left' htake
  have hback : (splice c off a).drop (off + a.length + b.length) = c.drop (off + a.length + b.length) := by
    rw [← List.drop_drop, splice, List.drop_left' htake, List.drop_drop]
  calc splice (splice c off a) (off + a.length) b
      = (c.take off ++ a) ++ b ++ c.drop (off + a.length + b.length) := by rw [splice, hfront, hback]
    _ = c.take off ++ (a ++ b) ++ c.drop (off + (a ++ b).length) := by
      rw [List.length_append, ← Nat.add_assoc, List.append_assoc (c.take off)]

/-! ## How far a write gets -/

/-- how many of `n` bytes are written from `off` on: all of them if they fit, and full chunks otherwise -/
def written (off n : ℕ) : ℕ :=
  if off + n ≤ MAXFILE * BSIZE then n else (MAXFILE * BSIZE - off) / MAXWRITE * MAXWRITE

/-- the next chunk does not fit -/
theorem written_stop {off n : ℕ} (h : MAXFILE * BSIZE < off + min MAXWRITE n) : written off n = 0 := by
  unfold written MAXWRITE MAXFILE BSIZE NDIRECT NINDIRECT at *
  split <;> omega

/-- the next chunk fits -/
theorem written_step {off n : ℕ} (h : off + min MAXWRITE n ≤ MAXFILE * BSIZE) :
    written off n = min MAXWRITE n + written (off + min MAXWRITE n) (n - min MAXWRITE n) := by
  unfold written MAXWRITE MAXFILE BSIZE NDIRECT NINDIRECT at *
  split <;> split <;> omega

theorem written_le {off n : ℕ} : written off n ≤ n := by
  unfold written MAXWRITE MAXFILE BSIZE NDIRECT NINDIRECT
  split <;> omega

theorem add_written_le {off n : ℕ} (h : off ≤ MAXFILE * BSIZE) : off + written off n ≤ MAXFILE * BSIZE := by
  unfold written MAXWRITE MAXFILE BSIZE NDIRECT NINDIRECT at *
  split <;> omega

/-! ## Locked inodes -/

variable {sb : Superblock} {s s' s'' : St} {x y n : ℕ} {f : Fin NFILE} {src done more : List UInt8} {E : Panic → Prop}

theorem Quiet.contents (h : Quiet s s') (y : ℕ) : s'.contents y = s.contents y := by
  have hnode : s'.node y = s.node y := congrFun h.node y
  refine St.contents_eq hnode fun o _ => ?_
  unfold St.byte St.slot
  rw [h.node, h.data]

/-- the inode is in the cache, and nothing else has happened -/
structure Locked (sb : Superblock) (x : ℕ) (s s' : St) : Prop where
  good : Good sb ∅ s'
  quiet : Quiet s s'
  loaded : s'.Loaded x
  ref : (s'.icache x).ref = (s.icache x).ref

/-- `ilock` on a file system in order -/
theorem Good.locked (h : Good sb ∅ s) (hpos : 0 < (s.icache x).ref) (hty : (s.node x).type ≠ .free) :
    Wp E (ilock x) (fun _ => Locked sb x s) s := by
  unfold ilock
  refine wp_read.2 ?_
  rw [if_neg (by omega)]
  refine wp_bind.2 (wp_acquire.2 (wp_read.2 ?_))
  split
  · rename_i hvalid
    exact ⟨h, .refl s, ⟨hpos, hvalid⟩, rfl⟩
  · rename_i hvalid
    have hvalid := Bool.eq_false_iff.2 hvalid
    rw [St.node_of_not_loaded (St.not_loaded hvalid)] at hty
    refine wp_write.2 (wp_read.2 ?_)
    change Wp E (if ((s.load x).core x).type = .free then _ else _) _ (s.load x)
    rw [St.core_load, if_neg hty]
    have hq : Quiet s (s.load x) := .load hvalid hpos
    exact ⟨h.of_node (congrFun hq.node) rfl rfl fun y hl => h.load_ok hty hl, hq, St.loaded_load hpos, St.ref_load⟩

/-! ## One chunk -/

/-- `done` has been written to the file behind `f`, and the offset is behind it -/
structure Advanced (sb : Superblock) (f : Fin NFILE) (done : List UInt8) (s s' : St) : Prop where
  good : Good sb ∅ s'
  ref : 0 < (s'.icache (s.file f).ip).ref
  file : s'.file = Function.update s.file f { s.file f with off := (s.file f).off + done.length }
  node : s'.node (s.file f).ip = { s.node (s.file f).ip with
    size := max (s.node (s.file f).ip).size ((s.file f).off + done.length), addrs := (s'.node (s.file f).ip).addrs }
  contents : s'.contents (s.file f).ip = splice (s.contents (s.file f).ip) (s.file f).off done
  other : ∀ y, y ≠ (s.file f).ip → s'.node y = s.node y ∧ ((s.node y).type ≠ .free → s'.contents y = s.contents y)
  nfree : s'.nfree sb + need (blocks (s'.node (s.file f).ip).size) = s.nfree sb + need (blocks (s.node (s.file f).ip).size)

theorem Advanced.file_self (h : Advanced sb f done s s') :
    s'.file f = { s.file f with off := (s.file f).off + done.length } := by
  rw [h.file, update_self]

theorem Advanced.ip (h : Advanced sb f done s s') : (s'.file f).ip = (s.file f).ip := by
  rw [h.file_self]

theorem Advanced.off (h : Advanced sb f done s s') : (s'.file f).off = (s.file f).off + done.length := by
  rw [h.file_self]

theorem Advanced.size (h : Advanced sb f done s s') :
    (s'.node (s.file f).ip).size = max (s.node (s.file f).ip).size ((s.file f).off + done.length) := by
  rw [h.node]

theorem Advanced.type (h : Advanced sb f done s s') : (s'.node (s.file f).ip).type = (s.node (s.file f).ip).type := by
  rw [h.node]

theorem St.length_contents : (s.contents x).length = (s.node x).size := by
  simp [St.contents]

/-- one chunk after the other -/
theorem Advanced.trans (h : Advanced sb f done s s') (h' : Advanced sb f more s' s'')
    (hoff : (s.file f).off ≤ (s.node (s.file f).ip).size) : Advanced sb f (done ++ more) s s'' := by
  have hip := h.ip
  have hnode' := h'.node
  have hcontents' := h'.contents
  have hother' := h'.other
  have hfree' := h'.nfree
  have href' := h'.ref
  have hlen : (s.file f).off + done.length + more.length = (s.file f).off + (done ++ more).length := by
    rw [List.length_append, Nat.add_assoc]
  rw [hip] at hnode' hcontents' hother' hfree' href'
  rw [h.off] at hnode' hcontents'
  refine ⟨h'.good, href', ?_, ?_, ?_, fun y hy => ?_, hfree'.trans h.nfree⟩
  · rw [h'.file, h.file_self, h.file, update_idem, ← hlen]
  · rw [hnode', h.node, ← hlen]
    simp only [Dinode.mk.injEq, true_and, and_true]
    omega
  · rw [hcontents', h.contents, splice_append]
    rw [St.length_contents]
    exact hoff
  · obtain ⟨hn, hc⟩ := h.other y hy
    obtain ⟨hn', hc'⟩ := hother' y hy
    refine ⟨hn'.trans hn, fun hty => ?_⟩
    rw [hc' (hn ▸ hty), hc hty]

/-- the states of `filewrite` between two chunks: an open file, its offset within its size, and blocks enough for `n` bytes more -/
structure WriteReady (sb : Superblock) (f : Fin NFILE) (n : ℕ) (s : St) : Prop where
  good : Good sb ∅ s
  ref : 0 < (s.icache (s.file f).ip).ref
  type : (s.node (s.file f).ip).type = .file
  off : (s.file f).off ≤ (s.node (s.file f).ip).size
  enough : need (blocks (max (s.node (s.file f).ip).size ((s.file f).off + n))) ≤
    s.nfree sb + need (blocks (s.node (s.file f).ip).size)

theorem WriteReady.type_ne (h : WriteReady sb f n s) : (s.node (s.file f).ip).type ≠ .free := by
  rw [h.type]
  nofun

theorem WriteReady.off_le (h : WriteReady sb f n s) : (s.file f).off ≤ MAXFILE * BSIZE :=
  h.off.trans (h.good.size _ (Set.notMem_empty _) h.type_ne)

/-- less is enough too -/
theorem WriteReady.mono {m : ℕ} (h : WriteReady sb f n s) (hm : m ≤ n) : WriteReady sb f m s :=
  ⟨h.good, h.ref, h.type, h.off, (need_mono (blocks_mono (by omega))).trans h.enough⟩

/-- after some of the bytes the blocks are enough for the others -/
theorem Advanced.writable (h : Advanced sb f done s s') (hw : WriteReady sb f (done.length + n) s) : WriteReady sb f n s' := by
  have hsize := h.size
  have hfree := h.nfree
  have hmax : max (max (s.node (s.file f).ip).size ((s.file f).off + done.length)) ((s.file f).off + done.length + n) =
      max (s.node (s.file f).ip).size ((s.file f).off + (done.length + n)) := by omega
  refine ⟨h.good, ?_, ?_, ?_, ?_⟩
  · rw [h.ip]
    exact h.ref
  · rw [h.ip, h.type]
    exact hw.type
  · rw [h.ip, h.off, hsize]
    exact le_max_right ..
  · rw [h.ip, hfree, h.off, hsize, hmax]
    exact hw.enough

theorem Good.begun (h : Good sb ∅ s) : Good sb ∅ s.begun :=
  h.of_node (fun _ => rfl) rfl rfl fun y hl => ⟨h.typ y hl, h.coh y (Set.notMem_empty y) hl⟩

theorem Written.ref_pos {off : ℕ} (h : Written sb x off src s s') (hl : s.Loaded x) : 0 < (s'.icache x).ref := by
  rw [h.ref]
  exact hl.1

theorem Written.node_self {off : ℕ} (h : Written sb x off src s s') (hl : s.Loaded x) : s'.node x =
    { s.node x with size := max (s.node x).size (off + src.length), addrs := (s'.node x).addrs } := by
  have hl' : s'.Loaded x := ⟨h.ref_pos hl, h.valid.trans hl.2⟩
  rw [St.node_of_loaded hl, St.node_of_loaded hl']
  exact h.core

/-- the end of a chunk: the offset moves and the operation ends -/
def St.chunkEnd (s : St) (f : Fin NFILE) (off : ℕ) : St :=
  { s.setFile f { s.file f with off := off } with outstanding := s.outstanding - 1 }

/-- a chunk that has been written -/
theorem Written.advanced (h : Written sb (s.file f).ip (s.file f).off src s' s'') (hlock : Locked sb (s.file f).ip s s')
    (hoff : (s.file f).off ≤ (s.node (s.file f).ip).size)
    (hfree : s''.nfree sb + need (blocks (max (s'.core (s.file f).ip).size ((s.file f).off + src.length))) =
      s'.nfree sb + need (blocks (s'.core (s.file f).ip).size)) : Advanced sb f src s (s''.chunkEnd f ((s.file f).off + src.length)) := by
  have hl := hlock.loaded
  have hcore : s'.core (s.file f).ip = s.node (s.file f).ip := by
    rw [← St.node_of_loaded hl, hlock.quiet.node]
  have hnode : s''.node (s.file f).ip = _ := h.node_self hl
  have hnfree : s'.nfree sb = s.nfree sb := by
    unfold St.nfree
    rw [hlock.quiet.used]
  rw [hlock.quiet.node] at hnode
  rw [hcore, hnfree] at hfree
  refine ⟨?_, h.ref_pos hl, ?_, hnode, ?_, fun y hy => ⟨?_, fun hty => ?_⟩, ?_⟩
  · exact h.good.of_node (fun _ => rfl) rfl rfl fun y hl' => ⟨h.good.typ y hl', h.good.coh y (Set.notMem_empty y) hl'⟩
  · have hfile : s''.file = s.file := h.file.trans hlock.quiet.file
    unfold St.chunkEnd St.setFile
    rw [hfile]
  · have hc := h.contents_self hl (hcore ▸ hoff)
    rw [hlock.quiet.contents] at hc
    exact hc
  · have hn : s''.node y = s'.node y := St.node_congr (h.cache y hy) (h.disk y hy)
    exact hn.trans (congrFun hlock.quiet.node y)
  · have hc : s''.contents y = s'.contents y := h.contents_ne hlock.good hy (by rwa [hlock.quiet.node])
    exact hc.trans (hlock.quiet.contents y)
  · change s''.nfree sb + need (blocks (s''.node (s.file f).ip).size) = _
    rw [hnode]
    exact hfree

/-- a chunk that has been refused -/
theorem Locked.advanced (h : Locked sb (s.file f).ip s s') (hpos : 0 < (s.icache (s.file f).ip).ref)
    (hoff : (s.file f).off ≤ (s.node (s.file f).ip).size) : Advanced sb f [] s (s'.chunkEnd f (s.file f).off) := by
  have hnode : s'.node = s.node := h.quiet.node
  refine ⟨?_, ?_, ?_, ?_, ?_, fun y _ => ⟨congrFun hnode y, fun _ => h.quiet.contents y⟩, ?_⟩
  · exact h.good.of_node (fun _ => rfl) rfl rfl fun y hl' => ⟨h.good.typ y hl', h.good.coh y (Set.notMem_empty y) hl'⟩
  · change 0 < (s'.icache _).ref
    rw [h.ref]
    exact hpos
  · unfold St.chunkEnd St.setFile
    rw [h.quiet.file]
    rfl
  · have hend : (s'.chunkEnd f (s.file f).off).node = s.node := hnode
    rw [List.length_nil, Nat.add_zero, max_eq_left hoff, hend]
  · rw [splice_nil]
    exact h.quiet.contents _
  · change s'.nfree sb + need (blocks (s'.node (s.file f).ip).size) = _
    unfold St.nfree
    rw [hnode, h.quiet.used]

/-- what `begin_op` does is not seen in the files -/
theorem Advanced.of_begun (h : Advanced sb f done s.begun s') : Advanced sb f done s s' :=
  ⟨h.good, h.ref, h.file, h.node, h.contents, h.other, h.nfree⟩

theorem uint_of_le {n : ℕ} (h : n ≤ MAXFILE * BSIZE) : uint n = n := by
  unfold uint MAXFILE BSIZE NDIRECT NINDIRECT at *
  omega

/-- within 32 bits `writei` fails only at the largest size -/
theorem writeFails_iff {size off len : ℕ} (hoff : off ≤ size) (hsize : off ≤ MAXFILE * BSIZE) (hlen : len < 2 ^ 31) :
    writeFails size off len ↔ MAXFILE * BSIZE < off + len := by
  have huint : uint (off + len) = off + len := by
    unfold uint MAXFILE BSIZE NDIRECT NINDIRECT at *
    omega
  unfold writeFails
  rw [huint]
  omega

/-- the end of a chunk: the offset moves, and the inode, to which the file refers, is unlocked -/
theorem chunk_end {r : Option ℕ} {off : ℕ} {Q : Option ℕ → St → Prop} (hfile : s'.file = s.file)
    (hpos : 0 < (s'.icache (s.file f).ip).ref) (hoff : uint ((s.file f).off + r.getD 0) = off) (hQ : Q r (s'.chunkEnd f off)) :
    Wp E (do
      modify fun s => s.setFile f { s.file f with off := uint ((s.file f).off + r.getD 0) }
      iunlock (s.file f).ip
      endOp
      return r) Q s' := by
  refine wp_write.2 ?_
  rw [hfile, hoff, ← hfile]
  refine wp_bind.2 (wp_read.2 ?_)
  rw [if_neg]
  · exact hQ
  · rw [hfile]
    exact Nat.not_lt.2 hpos

/-- one chunk: it is written, or it would pass the largest size -/
theorem writeChunk_advanced (hsb : sb.Ok) (h : WriteReady sb f n s) (hsrc : src.length < 2 ^ 31)
    (hn : (s.file f).off + src.length ≤ MAXFILE * BSIZE → src.length ≤ n) : Wp E (writeChunk sb f src) (fun r s' =>
      if (s.file f).off + src.length ≤ MAXFILE * BSIZE then r = some src.length ∧ Advanced sb f src s s'
      else r = none ∧ Advanced sb f [] s s') s := by
  have hmax := h.off_le
  have hfails := writeFails_iff h.off hmax hsrc
  unfold writeChunk
  refine wp_write.2 (wp_read.2 ?_)
  change Wp E (ilock (s.file f).ip >>= _) _ s.begun
  refine wp_seq (h.good.begun.locked h.ref h.type_ne) fun _ s2 hs2 => wp_read.2 ?_
  have hfile : s2.file = s.file := hs2.quiet.file
  have hcore : s2.core (s.file f).ip = s.node (s.file f).ip := by
    rw [← St.node_of_loaded hs2.loaded, hs2.quiet.node]
    rfl
  have hdev : (s2.core (s.file f).ip).type ≠ .dev := by
    rw [hcore, h.type]
    nofun
  have hnfree : s2.nfree sb = s.nfree sb := by
    unfold St.nfree
    rw [hs2.quiet.used]
    rfl
  rw [hfile]
  by_cases hfit : (s.file f).off + src.length ≤ MAXFILE * BSIZE
  · have hok : ¬ writeFails (s2.core (s.file f).ip).size (s.file f).off src.length := by
      rw [hcore, hfails]
      omega
    have henough : E .balloc ∨ need (blocks (max (s2.core (s.file f).ip).size ((s.file f).off + src.length))) ≤
        s2.nfree sb + need (blocks (s2.core (s.file f).ip).size) := by
      rw [hcore, hnfree]
      exact .inr (h.mono (hn hfit)).enough
    refine wp_seq (wp_and (writei_spec hsb hs2.good hs2.loaded hdev henough)
      (writei_nfree hsb hs2.good hs2.loaded hdev hok henough)) fun r s3 ⟨hres, hfree⟩ => ?_
    obtain ⟨-, rfl, hw⟩ := hres.resolve_left fun hf => hok hf.1
    have hoff : uint ((s.file f).off + (some src.length).getD 0) = (s.file f).off + src.length := uint_of_le hfit
    refine chunk_end (hw.file.trans hfile) (hw.ref_pos hs2.loaded) hoff ?_
    rw [if_pos hfit]
    exact ⟨rfl, (Written.advanced (s := s.begun) hw hs2 h.off hfree).of_begun⟩
  · have hfail : writeFails (s2.core (s.file f).ip).size (s.file f).off src.length := by
      rw [hcore, hfails]
      omega
    refine wp_seq (writei_fails hdev hfail) fun r s3 ⟨hr, hs3⟩ => ?_
    subst hr hs3
    have hoff : uint ((s.file f).off + (none : Option ℕ).getD 0) = (s.file f).off := uint_of_le hmax
    refine chunk_end hfile hs2.loaded.1 hoff ?_
    rw [if_neg hfit]
    exact ⟨rfl, (Locked.advanced (s := s.begun) hs2 h.ref h.off).of_begun⟩

/-! ## All chunks -/

theorem Advanced.refl (h : WriteReady sb f n s) : Advanced sb f [] s s := by
  refine ⟨h.good, h.ref, ?_, ?_, (splice_nil _ _).symm, fun y _ => ⟨rfl, fun _ => rfl⟩, rfl⟩
  · exact (update_eq_self f s.file).symm
  · rw [List.length_nil, Nat.add_zero, max_eq_left h.off]

/-- the loop of `filewrite` writes as many bytes as full chunks hold, and all of them if they fit -/
theorem filewriteLoop_advanced (hsb : sb.Ok) (fuel : ℕ) :
    ∀ (s : St) (src : List UInt8), src.length ≤ fuel → WriteReady sb f (written (s.file f).off src.length) s →
      Wp E (filewriteLoop sb f fuel src) (fun r s' => (r = true ↔ (s.file f).off + src.length ≤ MAXFILE * BSIZE) ∧
        Advanced sb f (src.take (written (s.file f).off src.length)) s s') s := by
  induction fuel with
  | zero =>
    intro s src hlen h
    have hmax := h.off_le
    obtain rfl : src = [] := List.eq_nil_of_length_eq_zero (by omega)
    refine ⟨iff_of_true rfl ?_, ?_⟩
    · rw [List.length_nil, Nat.add_zero]
      exact hmax
    · rw [List.take_nil]
      exact .refl h
  | succ fuel ih =>
    intro s src hlen h
    have hmax := h.off_le
    unfold filewriteLoop
    split
    · rename_i hempty
      obtain rfl : src = [] := List.isEmpty_iff.1 hempty
      refine ⟨iff_of_true rfl ?_, ?_⟩
      · rw [List.length_nil, Nat.add_zero]
        exact hmax
      · rw [List.take_nil]
        exact .refl h
    rename_i hempty
    have hpos : 0 < src.length := List.length_pos_iff.2 fun hnil => hempty (List.isEmpty_iff.2 hnil)
    have hchunk : (src.take MAXWRITE).length = min MAXWRITE src.length := List.length_take
    have hm : 0 < MAXWRITE ∧ MAXWRITE < 2 ^ 31 := by decide
    have hstep : (s.file f).off + min MAXWRITE src.length ≤ MAXFILE * BSIZE → _ := written_step
    refine wp_seq (writeChunk_advanced hsb h (by omega) fun hfit => ?_) fun r s₁ hs1 => ?_
    · rw [hchunk] at hfit ⊢
      rw [hstep hfit]
      exact Nat.le_add_right ..
    rw [hchunk] at hs1
    split at hs1
    · rename_i hfit
      obtain ⟨rfl, hadv⟩ := hs1
      simp only [hchunk, ne_eq, not_true_eq_false, if_false]
      have hdrop : (src.drop MAXWRITE).length = src.length - min MAXWRITE src.length := by
        rw [List.length_drop]
        omega
      have hoff1 : (s₁.file f).off = (s.file f).off + min MAXWRITE src.length := by
        rw [hadv.off, hchunk]
      rw [hstep hfit, ← hchunk] at h
      have hready := hadv.writable h
      rw [hchunk, ← hoff1, ← hdrop] at hready
      refine wp_mono (ih s₁ (src.drop MAXWRITE) (by omega) hready) fun r' s2 ⟨hr', hadv'⟩ => ⟨?_, ?_⟩
      · rw [hr', hoff1, hdrop]
        omega
      · have hjoin := hadv.trans hadv' h.off
        rw [hoff1, hdrop] at hjoin
        rw [hstep hfit, List.take_add, ← List.take_eq_take_min, ← List.drop_eq_drop_min]
        exact hjoin
    · rename_i hfit
      obtain ⟨rfl, hadv⟩ := hs1
      have hstop : written (s.file f).off src.length = 0 := written_stop (not_le.1 hfit)
      refine ⟨iff_of_false nofun ?_, ?_⟩
      · omega
      · rw [hstop]
        exact hadv

/-! ## One `writei` -/

/-- the bytes at the offset of the file, with a single `writei` -/
def writeOnce (sb : Superblock) (f : Fin NFILE) (src : List UInt8) : FsM (Option ℕ) := do
  let s ← get
  ilock (s.file f).ip
  writei sb (s.file f).ip src (s.file f).off

/-- the same files: their strings, and all of their inodes but where the blocks are -/
def SameFiles (s s' : St) : Prop :=
  ∀ y, (s.node y).type ≠ .free → s.contents y = s'.contents y ∧ s.node y = { s'.node y with addrs := (s.node y).addrs }

/-- what has been written decides the files -/
theorem Advanced.same (h : Advanced sb f done s s') (h' : Advanced sb f done s s'') : SameFiles s' s'' := by
  intro y hty
  by_cases hy : y = (s.file f).ip
  · subst hy
    refine ⟨h.contents.trans h'.contents.symm, ?_⟩
    rw [h'.node]
    exact h.node
  · obtain ⟨hn, hc⟩ := h.other y hy
    obtain ⟨hn', hc'⟩ := h'.other y hy
    rw [hn] at hty ⊢
    rw [hn', hc hty, hc' hty]
    exact ⟨rfl, rfl⟩

theorem writeOnce_advanced (hsb : sb.Ok) (h : WriteReady sb f src.length s) (hfit : (s.file f).off + src.length ≤ MAXFILE * BSIZE) :
    Wp E (writeOnce sb f src) (fun r s' => r = some src.length ∧ Advanced sb f src s (s'.chunkEnd f ((s.file f).off + src.length))) s := by
  unfold writeOnce
  refine wp_bind.2 (wp_get.2 (wp_seq (h.good.locked h.ref h.type_ne) fun _ s₁ hs1 => ?_))
  have hcore : s₁.core (s.file f).ip = s.node (s.file f).ip := by
    rw [← St.node_of_loaded hs1.loaded, hs1.quiet.node]
  have hdev : (s₁.core (s.file f).ip).type ≠ .dev := by
    rw [hcore, h.type]
    nofun
  have hok : ¬ writeFails (s₁.core (s.file f).ip).size (s.file f).off src.length := by
    have hlt : MAXFILE * BSIZE < 2 ^ 31 := by decide
    rw [hcore, writeFails_iff h.off h.off_le (by omega)]
    omega
  have henough : E .balloc ∨ need (blocks (max (s₁.core (s.file f).ip).size ((s.file f).off + src.length))) ≤
      s₁.nfree sb + need (blocks (s₁.core (s.file f).ip).size) := by
    unfold St.nfree
    rw [hcore, hs1.quiet.used]
    exact .inr h.enough
  refine wp_mono (wp_and (writei_spec hsb hs1.good hs1.loaded hdev henough)
    (writei_nfree hsb hs1.good hs1.loaded hdev hok henough)) fun r s2 ⟨hres, hfree⟩ => ?_
  obtain ⟨-, hr, hw⟩ := hres.resolve_left fun hf => hok hf.1
  exact ⟨hr, hw.advanced hs1 h.off hfree⟩

/-- `filewrite` beside a single `writei` of the bytes that it gets written -/
theorem filewrite_once (hsb : sb.Ok) (hwr : (s.file f).writable = true) (src : List UInt8)
    (h : WriteReady sb f (written (s.file f).off src.length) s) : ∃ s' s₁, (filewrite sb f src).exec s =
        .ok (if (s.file f).off + src.length ≤ MAXFILE * BSIZE then (src.length : ℤ) else -1, s') ∧
      (writeOnce sb f (src.take (written (s.file f).off src.length))).exec s = .ok (some (written (s.file f).off src.length), s₁) ∧
      SameFiles s' s₁ ∧ (s'.file f).off = (s.file f).off + written (s.file f).off src.length := by
  have hlen : (src.take (written (s.file f).off src.length)).length = written (s.file f).off src.length := by
    rw [List.length_take, min_eq_left written_le]
  have hfit : (s.file f).off + (src.take (written (s.file f).off src.length)).length ≤ MAXFILE * BSIZE := by
    rw [hlen]
    exact add_written_le h.off_le
  have hall : Wp (fun _ => False) (filewrite sb f src) (fun r s' =>
      r = (if (s.file f).off + src.length ≤ MAXFILE * BSIZE then (src.length : ℤ) else -1) ∧
        Advanced sb f (src.take (written (s.file f).off src.length)) s s') s := by
    unfold filewrite
    refine wp_read.2 ?_
    rw [if_pos hwr]
    refine wp_seq (filewriteLoop_advanced hsb src.length s src le_rfl h) fun r s' ⟨hr, hs'⟩ => ?_
    cases r with
    | true => exact ⟨(if_pos (hr.1 rfl)).symm, hs'⟩
    | false => exact ⟨(if_neg fun hle => nomatch hr.2 hle).symm, hs'⟩
  obtain ⟨r, s', hexec, rfl, hadv⟩ := wp_total hall
  have hready : WriteReady sb f (src.take (written (s.file f).off src.length)).length s := by
    rw [hlen]
    exact h
  obtain ⟨r1, s₁, hexec1, rfl, hadv1⟩ := wp_total (writeOnce_advanced hsb hready hfit)
  rw [hlen] at hexec1
  -- the offset is not part of the files
  have hsame : SameFiles s' (s₁.chunkEnd f _) := hadv.same hadv1
  refine ⟨s', s₁, hexec, hexec1, hsame, ?_⟩
  rw [hadv.off, hlen]

/-- **Chunked writes.** for an open regular file with its offset within its size and blocks enough, `filewrite` of bytes that fit returns
    their number and leaves the files as a single `writei` does, the offset behind the bytes; otherwise it returns -1, and the files
    and the offset are those after the first `k` full chunks -/
theorem chunked_write (hsb : sb.Ok) (hwr : (s.file f).writable = true) (src : List UInt8) :
    ((s.file f).off + src.length ≤ MAXFILE * BSIZE → WriteReady sb f src.length s →
      ∃ s' s₁, (filewrite sb f src).exec s = .ok ((src.length : ℤ), s') ∧
        (writeOnce sb f src).exec s = .ok (some src.length, s₁) ∧
        SameFiles s' s₁ ∧ (s'.file f).off = (s.file f).off + src.length) ∧
    ∀ k, k = (MAXFILE * BSIZE - (s.file f).off) / MAXWRITE →
      MAXFILE * BSIZE < (s.file f).off + src.length → WriteReady sb f (k * MAXWRITE) s →
      ∃ s' s₁, (filewrite sb f src).exec s = .ok (-1, s') ∧
        (writeOnce sb f (src.take (k * MAXWRITE))).exec s = .ok (some (k * MAXWRITE), s₁) ∧
        SameFiles s' s₁ ∧ (s'.file f).off = (s.file f).off + k * MAXWRITE := by
  refine ⟨fun hfit h => ?_, fun k hk hbig h => ?_⟩
  · have hwritten : written (s.file f).off src.length = src.length := if_pos hfit
    have hres := filewrite_once hsb hwr src (hwritten.symm ▸ h)
    rw [hwritten, if_pos hfit, List.take_length] at hres
    exact hres
  · have hwritten : written (s.file f).off src.length = k * MAXWRITE := by
      rw [hk]
      exact if_neg (not_le.2 hbig)
    have hres := filewrite_once hsb hwr src (hwritten.symm ▸ h)
    rw [hwritten, if_neg (not_le.2 hbig)] at hres
    exact hres

/-- the file system with one empty file, which is open -/
def oneFile : St := { oneInode .file with file := fun _ => ⟨.inode, 1, true, true, 1, 0⟩ }

/-- three bytes go to the empty file -/
theorem chunked_write_one : ∃ s' s₁, (filewrite tinySb 0 [7, 8, 9]).exec oneFile = .ok (3, s') ∧
    (writeOnce tinySb 0 [7, 8, 9]).exec oneFile = .ok (some 3, s₁) ∧ SameFiles s' s₁ ∧ (s'.file 0).off = 3 := by
  have hgood : Good tinySb ∅ oneFile := (oneInode_good (by decide)).of_node (fun _ => rfl) rfl rfl fun y hl =>
    ⟨(oneInode_good (by decide)).typ y hl, (oneInode_good (by decide)).coh y (Set.notMem_empty y) hl⟩
  have hready : WriteReady tinySb 0 3 oneFile := ⟨hgood, by decide, by decide, by decide, by decide⟩
  exact (@chunked_write tinySb oneFile 0 ⟨by decide, by decide⟩ rfl [7, 8, 9]).1 (by decide) hready

end Xv6.FileSys
