/-
Programs that act on a shared state and take locks. A program is a tree: `act f k` is one atomic step, after which the
state is `f s` and the program goes on as `k s`, so what the step saw decides what comes next.

- `Wp E p Q s`: run from `s`, the program ends in a state with `Q`, or stops with an error in `E`. `wp_bind`, `wp_mono` and
  one lemma for each basic program are all that proofs about programs use.
-/
import Xv6.Core.Run

namespace Xv6.Core

/-- a program over the state `σ` with errors `ε`, locks `κ` and results `α` -/
inductive Prog (σ ε κ α : Type) : Type where
  | ret (a : α)
  | fail (e : ε)
  | act (f : σ → σ) (k : σ → Prog σ ε κ α)
  | lock (x : κ) (k : Prog σ ε κ α)
  | unlock (x : κ) (k : Prog σ ε κ α)

namespace Prog

variable {σ ε κ α β : Type}

/-! ## Programs as a monad -/

def bind : Prog σ ε κ α → (α → Prog σ ε κ β) → Prog σ ε κ β
  | .ret a, g => g a
  | .fail e, _ => .fail e
  | .act f k, g => .act f fun s => (k s).bind g
  | .lock x k, g => .lock x (k.bind g)
  | .unlock x k, g => .unlock x (k.bind g)

instance : Monad (Prog σ ε κ) where
  pure := .ret
  bind := bind

/-- read the state -/
def get : Prog σ ε κ σ := .act id .ret

/-- change the state -/
def modify (f : σ → σ) : Prog σ ε κ Unit := .act f fun _ => .ret ()

/-- look at the state and change it in one step -/
def atomic (f : σ → σ × α) : Prog σ ε κ α := .act (fun s => (f s).1) fun s => .ret (f s).2

def panic (e : ε) : Prog σ ε κ α := .fail e

def acquire (x : κ) : Prog σ ε κ Unit := .lock x (.ret ())

def release (x : κ) : Prog σ ε κ Unit := .unlock x (.ret ())

/-- do it for each member of a list in turn -/
def forEach (f : β → Prog σ ε κ Unit) : List β → Prog σ ε κ Unit
  | [] => pure ()
  | b :: bs => f b >>= fun _ => forEach f bs

/-! ## What a program does on its own -/

/-- run a program by itself, whatever locks it takes -/
def exec : Prog σ ε κ α → σ → Except ε (α × σ)
  | .ret a, s => .ok (a, s)
  | .fail e, _ => .error e
  | .act f k, s => (k s).exec (f s)
  | .lock _ k, s => k.exec s
  | .unlock _ k, s => k.exec s

/-- how a program can fail to end -/
inductive Stop (ε : Type) where
  | panic (e : ε)
  /-- it asks for a lock it holds, or gives back one that it does not hold -/
  | hang

/-- run a program by itself, with the locks it holds -/
def solo [DecidableEq κ] : Prog σ ε κ α → σ → List κ → Except (Stop ε) (α × σ × List κ)
  | .ret a, s, l => .ok (a, s, l)
  | .fail e, _, _ => .error (.panic e)
  | .act f k, s, l => (k s).solo (f s) l
  | .lock x k, s, l => if x ∈ l then .error .hang else k.solo s (x :: l)
  | .unlock x k, s, l => if x ∈ l then k.solo s (l.erase x) else .error .hang

theorem exec_bind (p : Prog σ ε κ α) (g : α → Prog σ ε κ β) (s : σ) : (p >>= g).exec s = (p.exec s).bind fun r => (g r.1).exec r.2 := by
  induction p generalizing s with
  | ret a => rfl
  | fail e => rfl
  | act f k ih => exact ih s (f s)
  | lock x k ih => exact ih s
  | unlock x k ih => exact ih s

variable {l : List κ}

/-- a program that ends with its locks does what it does without them -/
theorem solo_exec [DecidableEq κ] {p : Prog σ ε κ α} {s s' : σ} {l' : List κ} {a : α}
    (h : p.solo s l = .ok (a, s', l')) : p.exec s = .ok (a, s') := by
  induction p generalizing s l with
  | ret b =>
    cases h
    rfl
  | fail e => cases h
  | act f k ih => exact ih _ h
  | lock x k ih =>
    unfold solo at h
    split at h
    · cases h
    · exact ih h
  | unlock x k ih =>
    unfold solo at h
    split at h
    · exact ih h
    · cases h

/-- a program that stops with its locks stops without them -/
theorem solo_panic [DecidableEq κ] {p : Prog σ ε κ α} {s : σ} {e : ε} (h : p.solo s l = .error (.panic e)) : p.exec s = .error e := by
  induction p generalizing s l with
  | ret b => cases h
  | fail e' =>
    cases h
    rfl
  | act f k ih => exact ih _ h
  | lock x k ih =>
    unfold solo at h
    split at h
    · cases h
    · exact ih h
  | unlock x k ih =>
    unfold solo at h
    split at h
    · exact ih h
    · cases h

/-- does the program end, and the end pass a test? -/
def passes [DecidableEq κ] (p : Prog σ ε κ α) (s : σ) (l : List κ) (t : α → σ → List κ → Bool) : Bool :=
  match p.solo s l with
  | .ok r => t r.1 r.2.1 r.2.2
  | .error _ => false

theorem exists_of_passes [DecidableEq κ] {p : Prog σ ε κ α} {s : σ} {t : α → σ → List κ → Bool}
    (h : p.passes s l t = true) : ∃ a s' l', p.solo s l = .ok (a, s', l') ∧ t a s' l' = true := by
  unfold passes at h
  split at h
  · rename_i r hr
    exact ⟨r.1, r.2.1, r.2.2, hr, h⟩
  · cases h

/-! ## Preconditions -/

/-- from `s` the program ends with `Q`, or stops with an error in `E` -/
def Wp (E : ε → Prop) (p : Prog σ ε κ α) (Q : α → σ → Prop) (s : σ) : Prop :=
  match p.exec s with
  | .ok r => Q r.1 r.2
  | .error e => E e

variable {E : ε → Prop} {Q Q' : α → σ → Prop} {p : Prog σ ε κ α} {s s' : σ}

theorem wp_ok {r : α} (h : Wp E p Q s) (hp : p.exec s = .ok (r, s')) : Q r s' := by
  unfold Wp at h
  rw [hp] at h
  exact h

/-- a program that no error stops ends -/
theorem wp_total (h : Wp (fun _ => False) p Q s) : ∃ r s', p.exec s = .ok (r, s') ∧ Q r s' := by
  unfold Wp at h
  cases hp : p.exec s with
  | ok r =>
    rw [hp] at h
    exact ⟨r.1, r.2, rfl, h⟩
  | error e =>
    rw [hp] at h
    exact h.elim

theorem wp_error {e : ε} (h : Wp E p Q s) (hp : p.exec s = .error e) : E e := by
  unfold Wp at h
  rw [hp] at h
  exact h

theorem wp_mono (h : Wp E p Q s) (hQ : ∀ a s', Q a s' → Q' a s') : Wp E p Q' s := by
  unfold Wp at h ⊢
  split
  · rename_i r hr
    rw [hr] at h
    exact hQ r.1 r.2 h
  · rename_i e he
    rw [he] at h
    exact h

/-- what both specifications say -/
theorem wp_and (h : Wp E p Q s) (h' : Wp E p Q' s) : Wp E p (fun a s' => Q a s' ∧ Q' a s') s := by
  unfold Wp at h h' ⊢
  split
  · rename_i r hr
    rw [hr] at h h'
    exact ⟨h, h'⟩
  · rename_i e he
    rw [he] at h
    exact h

/-- what holds of every end can be added -/
theorem wp_frame (h : Wp E p Q s) (hp : ∀ a s', p.exec s = .ok (a, s') → Q' a s') : Wp E p (fun a s' => Q a s' ∧ Q' a s') s := by
  unfold Wp at h ⊢
  split
  · rename_i r hr
    rw [hr] at h
    exact ⟨h, hp r.1 r.2 hr⟩
  · rename_i e he
    rw [he] at h
    exact h

variable {g : α → Prog σ ε κ β}

theorem wp_bind {Q : β → σ → Prop} : Wp E (p >>= g) Q s ↔ Wp E p (fun a => Wp E (g a) Q) s := by
  unfold Wp
  rw [exec_bind]
  cases p.exec s with
  | ok r => exact Iff.rfl
  | error e => exact Iff.rfl

/-- the rule for a program that goes on after a part with a known specification -/
theorem wp_seq {Q' : β → σ → Prop} (h : Wp E p Q s) (hg : ∀ a s', Q a s' → Wp E (g a) Q' s') :
    Wp E (p >>= g) Q' s := wp_bind.2 (wp_mono h hg)

@[simp] theorem wp_get {Q : σ → σ → Prop} : Wp E (get : Prog σ ε κ σ) Q s ↔ Q s s := Iff.rfl

@[simp] theorem wp_modify {f : σ → σ} {Q : Unit → σ → Prop} :
    Wp E (modify f : Prog σ ε κ Unit) Q s ↔ Q () (f s) := Iff.rfl

/-- a program that looks at the state first -/
theorem wp_read {g : σ → Prog σ ε κ β} {Q : β → σ → Prop} : Wp E (get >>= g) Q s ↔ Wp E (g s) Q s := wp_bind

/-- and one that changes it first -/
theorem wp_write {f : σ → σ} {g : Unit → Prog σ ε κ β} {Q : β → σ → Prop} : Wp E (modify f >>= g) Q s ↔ Wp E (g ()) Q (f s) := wp_bind

@[simp] theorem wp_atomic {f : σ → σ × α} : Wp E (atomic f : Prog σ ε κ α) Q s ↔ Q (f s).2 (f s).1 := Iff.rfl

@[simp] theorem wp_panic {e : ε} : Wp E (panic e : Prog σ ε κ α) Q s ↔ E e := Iff.rfl

@[simp] theorem wp_acquire {x : κ} {Q : Unit → σ → Prop} :
    Wp E (acquire x : Prog σ ε κ Unit) Q s ↔ Q () s := Iff.rfl

/-- **Invariant rule for loops.** `I bs s` is what holds when `bs` is still to be done. -/
theorem wp_forEach {f : β → Prog σ ε κ Unit} {I : List β → σ → Prop}
    (hstep : ∀ b bs s, I (b :: bs) s → Wp E (f b) (fun _ => I bs) s) (bs : List β) (hs : I bs s) :
    Wp E (forEach f bs) (fun _ => I []) s := by
  induction bs generalizing s with
  | nil => exact hs
  | cons b bs ih => exact wp_seq (hstep b bs s hs) fun _ s' hs' => ih hs'

end Prog

end Xv6.Core
