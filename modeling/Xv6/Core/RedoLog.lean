/-
Redo logs on a disk whose only operation is to write one block. A disk is a function from addresses to blocks, a piece of
code is the list of its writes, and a crash leaves a prefix of that list on the disk.

A transaction is a list of homes with their new blocks. Committing it writes the new blocks to slots of the log, then the
header that names the homes, then the homes, then an empty header. Recovery copies the slots to the homes the header
names and writes an empty header.

Three kinds of disks occur (`Uncommitted`, `Committed`, `Installed`), and every single write takes a disk of one kind to
one of the same or the next kind:
-/
import Xv6.Core.Run

namespace Xv6.Core

variable {α β : Type*}

/-- a prefix of two pieces of code: it ends in the first, or the first is done -/
theorem take_append_cases (W W' : List (α × β)) (k : ℕ) : (k ≤ W.length ∧ (W ++ W').take k = W.take k) ∨
      (W.length < k ∧ (W ++ W').take k = W ++ W'.take (k - W.length)) := by
  rcases Nat.lt_or_ge W.length k with h | h
  · exact Or.inr ⟨h, by rw [List.take_append, List.take_of_length_le h.le]⟩
  · exact Or.inl ⟨h, List.take_append_of_le_length h⟩

/-! ## The log -/

/-- a header block, `size` slots, and the homes a header names -/
structure RedoLog (α β : Type*) where
  hdr : α
  slot : ℕ → α
  size : ℕ
  decode : β → List α
  slot_inj : ∀ i < size, ∀ j < size, slot i = slot j → i = j
  slot_ne : ∀ i < size, slot i ≠ hdr

namespace RedoLog

section Defs

variable (L : RedoLog α β)

/-- the blocks of the log itself -/
def Area (a : α) : Prop := a = L.hdr ∨ ∃ i < L.size, a = L.slot i

/-- the writes of a transaction to the slots -/
def slotWrites (t : List (α × β)) : List (α × β) := t.zipIdx.map fun x => (L.slot x.2, x.1.2)

/-- a transaction the log can take -/
structure Fits (t : List (α × β)) : Prop where
  nodup : (t.map Prod.fst).Nodup
  outside : ∀ a ∈ t.map Prod.fst, ¬ L.Area a
  length_le : t.length ≤ L.size

/-- nothing of the transaction is on the disk -/
structure Uncommitted (d₀ d : α → β) : Prop where
  header : L.decode (d L.hdr) = []
  same : ∀ a, ¬ L.Area a → d a = d₀ a

/-- the header names the transaction, and any of its homes may be written -/
structure Committed (t : List (α × β)) (d₀ d : α → β) : Prop where
  header : L.decode (d L.hdr) = t.map Prod.fst
  slots : ∀ i a v, t[i]? = some (a, v) → d (L.slot i) = v
  same : ∀ a, ¬ L.Area a → a ∉ t.map Prod.fst → d a = d₀ a

/-- all homes are written and the header is empty again -/
structure Installed (t : List (α × β)) (d₀ d : α → β) : Prop where
  header : L.decode (d L.hdr) = []
  homes : ∀ w ∈ t, d w.1 = w.2
  same : ∀ a, ¬ L.Area a → a ∉ t.map Prod.fst → d a = d₀ a

/-- the writes of a commit; `e₁` is the header that names the homes, `e₂` the empty one -/
def commitWrites (t : List (α × β)) (e₁ e₂ : β) : List (α × β) :=
  L.slotWrites t ++ (L.hdr, e₁) :: (t ++ [(L.hdr, e₂)])

/-- the writes of a recovery from disk `d`; `e` is the empty header -/
def recoverWrites (d : α → β) (e : β) : List (α × β) :=
  (L.decode (d L.hdr)).zipIdx.map (fun x => (x.1, d (L.slot x.2))) ++ [(L.hdr, e)]

/-- the disks a crash can leave, if the commit happened exactly when `c` -/
structure Crashed (t : List (α × β)) (d₀ : α → β) (c : Prop) (d : α → β) : Prop where
  before : ¬ c → L.Uncommitted d₀ d
  after : c → L.Committed t d₀ d ∨ L.Installed t d₀ d

end Defs

variable {L : RedoLog α β} {t : List (α × β)} {d₀ d : α → β} {e : β}

theorem mem_slotWrites {w : α × β} (h : w ∈ L.slotWrites t) : ∃ i a, t[i]? = some (a, w.2) ∧ w.1 = L.slot i ∧ i < t.length := by
  obtain ⟨⟨⟨a, v⟩, i⟩, hi, rfl⟩ := List.mem_map.1 h
  have hget := List.mk_mem_zipIdx_iff_getElem?.1 hi
  exact ⟨i, a, hget, rfl, (List.getElem?_eq_some_iff.1 hget).1⟩

theorem slotWrites_mem {i : ℕ} {a : α} {v : β} (h : t[i]? = some (a, v)) : (L.slot i, v) ∈ L.slotWrites t :=
  List.mem_map.2 ⟨((a, v), i), List.mk_mem_zipIdx_iff_getElem?.2 h, rfl⟩

theorem slotWrites_nodup (ht : L.Fits t) : ((L.slotWrites t).map Prod.fst).Nodup := by
  have hmap : (L.slotWrites t).map Prod.fst = (List.range t.length).map L.slot := by
    rw [slotWrites, List.map_map, List.range_eq_range', ← List.zipIdx_map_snd 0 t, List.map_map]
    rfl
  rw [hmap]
  refine (List.nodup_map_iff_inj_on List.nodup_range).2 fun i hi j hj => ?_
  exact L.slot_inj i ((List.mem_range.1 hi).trans_le ht.length_le) j ((List.mem_range.1 hj).trans_le ht.length_le)

/-- the homes a header names after a crash are no slots -/
theorem Crashed.ne_slot {c : Prop} (ht : L.Fits t) (h : L.Crashed t d₀ c d) {a : α} (ha : a ∈ L.decode (d L.hdr)) {j : ℕ}
    (hj : j < (L.decode (d L.hdr)).length) : a ≠ L.slot j := by
  have hcases : L.decode (d L.hdr) = [] ∨ L.decode (d L.hdr) = t.map Prod.fst := by
    by_cases hc : c
    · exact (h.after hc).elim (fun h => Or.inr h.header) (fun h => Or.inl h.header)
    · exact Or.inl (h.before hc).header
  rcases hcases with hnil | hhomes
  · simp [hnil] at ha
  · rw [hhomes] at ha hj
    rw [List.length_map] at hj
    exact fun e => ht.outside a ha (Or.inr ⟨j, hj.trans_le ht.length_le, e⟩)

/-- the header is among the writes done once the slots are -/
theorem hdr_mem_take (ht : L.Fits t) (e₁ e₂ : β) (k : ℕ) : L.hdr ∈ ((L.commitWrites t e₁ e₂).take k).map Prod.fst ↔ t.length < k := by
  have hlen : (L.slotWrites t).length = t.length := by simp [slotWrites]
  rcases take_append_cases (L.slotWrites t) ((L.hdr, e₁) :: (t ++ [(L.hdr, e₂)])) k with ⟨hk, htake⟩ | ⟨hk, htake⟩
  · refine iff_of_false (fun hmem => ?_) (by omega)
    rw [commitWrites, htake] at hmem
    obtain ⟨w, hw, hhdr⟩ := List.mem_map.1 hmem
    obtain ⟨i, a, -, hslot, hi⟩ := mem_slotWrites (List.mem_of_mem_take hw)
    exact L.slot_ne i (hi.trans_le ht.length_le) (hslot.symm.trans hhdr)
  · refine iff_of_true ?_ (by omega)
    obtain ⟨j, hj⟩ : ∃ j, k - (L.slotWrites t).length = j + 1 := ⟨k - (L.slotWrites t).length - 1, by omega⟩
    rw [commitWrites, htake, hj]
    simp

theorem recoverWrites_of_empty (h : L.decode (d L.hdr) = []) : L.recoverWrites d e = [(L.hdr, e)] := by
  simp [recoverWrites, h]

/-- after a commit, recovery redoes the transaction -/
theorem Committed.recoverWrites (h : L.Committed t d₀ d) : L.recoverWrites d e = t ++ [(L.hdr, e)] := by
  rw [RedoLog.recoverWrites, h.header]
  congr 1
  refine List.ext_getElem? fun i => ?_
  rw [List.getElem?_map, List.getElem?_zipIdx, List.getElem?_map]
  cases hi : t[i]? with
  | none => rfl
  | some w => simp [h.slots i w.1 w.2 hi]

end RedoLog

variable [DecidableEq α]

/-! ## Writes -/

/-- the disk after a list of writes -/
def applyWrites (W : List (α × β)) (d : α → β) : α → β := W.foldl (fun d w => Function.update d w.1 w.2) d

@[simp]
theorem applyWrites_nil (d : α → β) : applyWrites [] d = d := rfl

@[simp]
theorem applyWrites_cons (w : α × β) (W : List (α × β)) (d : α → β) :
    applyWrites (w :: W) d = applyWrites W (update d w.1 w.2) := rfl

theorem applyWrites_append (W W' : List (α × β)) (d : α → β) :
    applyWrites (W ++ W') d = applyWrites W' (applyWrites W d) := by
  simp [applyWrites, List.foldl_append]

variable {W : List (α × β)} {a : α}

theorem applyWrites_of_notMem (h : a ∉ W.map Prod.fst) (d : α → β) : applyWrites W d a = d a := by
  induction W generalizing d with
  | nil => rfl
  | cons w W ih =>
    obtain ⟨hw, hW⟩ := List.ne_and_not_mem_of_not_mem_cons (by simpa using h : a ∉ w.1 :: W.map Prod.fst)
    rw [applyWrites_cons, ih hW, update_of_ne hw]

/-- with different addresses, every write survives -/
theorem applyWrites_of_mem {v : β} (hW : (W.map Prod.fst).Nodup) (h : (a, v) ∈ W) (d : α → β) : applyWrites W d a = v := by
  induction W generalizing d with
  | nil => simp at h
  | cons w W ih =>
    rw [List.map_cons, List.nodup_cons] at hW
    rcases List.mem_cons.1 h with rfl | h
    · rw [applyWrites_cons, applyWrites_of_notMem hW.1, update_self]
    · exact ih hW.2 h _

/-- **What every single write preserves, every prefix preserves.** -/
theorem applyWrites_inv {P : (α → β) → Prop} (hW : ∀ w ∈ W, ∀ d, P d → P (update d w.1 w.2)) (d : α → β) (hd : P d) (k : ℕ) : P (applyWrites (W.take k) d) := by
  have hsub : ∀ W', (∀ w ∈ W', w ∈ W) → ∀ d, P d → P (applyWrites W' d) := by
    intro W' hsub
    induction W' with
    | nil => exact fun d hd => hd
    | cons w W' ih =>
      intro d hd
      exact ih (fun w' hw' => hsub w' (List.mem_cons_of_mem _ hw')) _ (hW w (hsub w List.mem_cons_self) d hd)
  exact hsub _ (fun w hw => List.mem_of_mem_take hw) d hd

namespace RedoLog

variable {L : RedoLog α β} {t : List (α × β)} {d₀ d : α → β} {e : β}

/-! ## Single writes -/

theorem Uncommitted.slot {i : ℕ} (hi : i < L.size) (v : β) (h : L.Uncommitted d₀ d) : L.Uncommitted d₀ (update d (L.slot i) v) := by
  refine ⟨?_, fun b hb => ?_⟩
  · rw [update_of_ne (L.slot_ne i hi).symm]; exact h.header
  · rw [update_of_ne fun e => hb (Or.inr ⟨i, hi, e⟩)]; exact h.same b hb

theorem Uncommitted.clear (he : L.decode e = []) (h : L.Uncommitted d₀ d) :
    L.Uncommitted d₀ (update d L.hdr e) :=
  ⟨by rw [update_self]; exact he, fun b hb => by
    rw [update_of_ne fun e => hb (Or.inl e)]; exact h.same b hb⟩

theorem Committed.home (ht : L.Fits t) {w : α × β} (hw : w ∈ t) (h : L.Committed t d₀ d) :
    L.Committed t d₀ (update d w.1 w.2) := by
  have hmem : w.1 ∈ t.map Prod.fst := List.mem_map_of_mem hw
  have hout := ht.outside w.1 hmem
  refine ⟨?_, fun i a v hi => ?_, fun b hb hbt => ?_⟩
  · rw [update_of_ne fun e => hout (Or.inl e.symm)]; exact h.header
  · have hlt := (List.getElem?_eq_some_iff.1 hi).1.trans_le ht.length_le
    rw [update_of_ne fun e => hout (Or.inr ⟨i, hlt, e.symm⟩)]; exact h.slots i a v hi
  · rw [update_of_ne fun e : b = w.1 => hbt (e ▸ hmem)]; exact h.same b hb hbt

theorem Committed.clear (hhomes : ∀ w ∈ t, d w.1 = w.2) (ht : L.Fits t) (he : L.decode e = [])
    (h : L.Committed t d₀ d) : L.Installed t d₀ (update d L.hdr e) := by
  refine ⟨by rw [update_self]; exact he, fun w hw => ?_, fun b hb hbt => ?_⟩
  · have hout := ht.outside w.1 (List.mem_map_of_mem hw)
    rw [update_of_ne fun e => hout (Or.inl e)]; exact hhomes w hw
  · rw [update_of_ne fun e => hb (Or.inl e)]; exact h.same b hb hbt

theorem Installed.clear (ht : L.Fits t) (he : L.decode e = []) (h : L.Installed t d₀ d) : L.Installed t d₀ (update d L.hdr e) := by
  refine ⟨by rw [update_self]; exact he, fun w hw => ?_, fun b hb hbt => ?_⟩
  · have hout := ht.outside w.1 (List.mem_map_of_mem hw)
    rw [update_of_ne fun e => hout (Or.inl e)]; exact h.homes w hw
  · rw [update_of_ne fun e => hb (Or.inl e)]; exact h.same b hb hbt

/-! ## Whole pieces -/

/-- writing the homes and clearing the header, cut anywhere -/
theorem Committed.install (ht : L.Fits t) (he : L.decode e = []) (h : L.Committed t d₀ d) (k : ℕ) :
    L.Committed t d₀ (applyWrites ((t ++ [(L.hdr, e)]).take k) d) ∨ L.Installed t d₀ (applyWrites ((t ++ [(L.hdr, e)]).take k) d) := by
  have hhome : ∀ k, L.Committed t d₀ (applyWrites (t.take k) d) :=
    applyWrites_inv (fun w hw d => Committed.home ht hw) d h
  rcases take_append_cases t [(L.hdr, e)] k with ⟨-, htake⟩ | ⟨hk, htake⟩
  · rw [htake]; exact Or.inl (hhome k)
  · have hall := hhome t.length
    rw [List.take_length] at hall
    rw [htake, List.take_of_length_le (by simp; omega), applyWrites_append]
    exact Or.inr (hall.clear (fun w hw => applyWrites_of_mem ht.nodup hw d) ht he)

theorem Committed.install_all (ht : L.Fits t) (he : L.decode e = []) (h : L.Committed t d₀ d) :
    L.Installed t d₀ (applyWrites (t ++ [(L.hdr, e)]) d) := by
  have hall : L.Committed t d₀ (applyWrites (t.take t.length) d) :=
    applyWrites_inv (fun w hw d => Committed.home ht hw) d h t.length
  rw [List.take_length] at hall
  rw [applyWrites_append]
  exact hall.clear (fun w hw => applyWrites_of_mem ht.nodup hw d) ht he

/-- **A commit, cut anywhere.** -/
theorem cut_commit {e₁ e₂ : β} (ht : L.Fits t) (he1 : L.decode e₁ = t.map Prod.fst) (he2 : L.decode e₂ = [])
    (h : L.decode (d L.hdr) = []) (k : ℕ) : L.Crashed t d (t.length < k) (applyWrites ((L.commitWrites t e₁ e₂).take k) d) := by
  have hslots : ∀ k, L.Uncommitted d (applyWrites ((L.slotWrites t).take k) d) := by
    refine applyWrites_inv (fun w hw d' hd' => ?_) d ⟨h, fun _ _ => rfl⟩
    obtain ⟨i, a, -, hslot, hi⟩ := mem_slotWrites hw
    rw [hslot]
    exact hd'.slot (hi.trans_le ht.length_le) w.2
  have hlen : (L.slotWrites t).length = t.length := by simp [slotWrites]
  refine ⟨fun hk => ?_, fun hk => ?_⟩
  · rw [commitWrites, List.take_append_of_le_length (by omega)]
    exact hslots k
  · obtain ⟨j, rfl⟩ : ∃ j, k = t.length + (j + 1) := ⟨k - t.length - 1, by omega⟩
    rw [commitWrites, ← hlen, List.take_length_add_append, List.take_succ_cons, applyWrites_append, applyWrites_cons]
    have hall := hslots t.length
    rw [← hlen, List.take_length] at hall
    refine Committed.install ht he2 ⟨by rw [update_self]; exact he1, fun i a v hi => ?_, fun b hb _ => ?_⟩ j
    · have hlt := (List.getElem?_eq_some_iff.1 hi).1.trans_le ht.length_le
      rw [update_of_ne (L.slot_ne i hlt)]
      exact applyWrites_of_mem (slotWrites_nodup ht) (slotWrites_mem hi) d
    · rw [update_of_ne fun e => hb (Or.inl e)]; exact hall.same b hb

/-- **A recovery, cut anywhere.** -/
theorem cut_recover {c : Prop} (ht : L.Fits t) (he : L.decode e = []) (h : L.Crashed t d₀ c d) (k : ℕ) :
    L.Crashed t d₀ c (applyWrites ((L.recoverWrites d e).take k) d) := by
  refine ⟨fun hc => ?_, fun hc => ?_⟩
  · have h := h.before hc
    rw [recoverWrites_of_empty h.header]
    exact applyWrites_inv (fun w hw d' hd' => by rw [List.mem_singleton.1 hw]; exact hd'.clear he) d h k
  · rcases h.after hc with h | h
    · rw [h.recoverWrites]; exact h.install ht he k
    · rw [recoverWrites_of_empty h.header]
      exact Or.inr (applyWrites_inv (fun w hw d' hd' => by rw [List.mem_singleton.1 hw]; exact hd'.clear ht he) d h k)

/-- **A whole recovery.** -/
theorem recovered {c : Prop} (ht : L.Fits t) (he : L.decode e = []) (h : L.Crashed t d₀ c d) :
    (¬ c → L.Uncommitted d₀ (applyWrites (L.recoverWrites d e) d)) ∧ (c → L.Installed t d₀ (applyWrites (L.recoverWrites d e) d)) := by
  refine ⟨fun hc => ?_, fun hc => ?_⟩
  · have h := h.before hc
    rw [recoverWrites_of_empty h.header]; exact h.clear he
  · rcases h.after hc with h | h
    · rw [h.recoverWrites]; exact h.install_all ht he
    · rw [recoverWrites_of_empty h.header]; exact h.clear ht he

end RedoLog

end Xv6.Core
