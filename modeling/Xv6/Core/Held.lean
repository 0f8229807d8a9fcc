/-
The locks that a program holds. `Locks h m p Q` follows the locks alone: run by itself from any state with the locks `m`, the program `p`
ends with a result and locks that `Q` allows, unless it panics. `h` says whether it may also hang, as it does when it asks for a lock it
holds or gives back one it does not hold.

- `Keeps h m p`: the locks at the end are those at the beginning.
-/
import Xv6.Core.Prog

namespace Xv6.Core.Prog

variable {σ ε κ α β : Type} [DecidableEq κ]

/-- a program that goes on after another, with the locks the other leaves -/
theorem solo_bind (p : Prog σ ε κ α) (g : α → Prog σ ε κ β) (s : σ) (l : List κ) :
    (p >>= g).solo s l = (p.solo s l).bind fun r => (g r.1).solo r.2.1 r.2.2 := by
  induction p generalizing s l with
  | ret a => rfl
  | fail e => rfl
  | act f k ih => exact ih s (f s) l
  | lock x k ih =>
    have hlock : (lock x k >>= g) = lock x (k >>= g) := rfl
    rw [hlock, solo, solo]
    split
    · rfl
    · exact ih s (x :: l)
  | unlock x k ih =>
    have hunlock : (unlock x k >>= g) = unlock x (k >>= g) := rfl
    rw [hunlock, solo, solo]
    split
    · exact ih s (l.erase x)
    · rfl

/-- with the locks `m` the program ends as `Q` says, or panics, or, if `h`, hangs -/
def Locks (h : Prop) (m : Multiset κ) (p : Prog σ ε κ α) (Q : α → Multiset κ → Prop) : Prop :=
  ∀ (s : σ) (l : List κ), (l : Multiset κ) = m →
    match p.solo s l with
    | .ok r => Q r.1 (r.2.2 : Multiset κ)
    | .error .hang => h
    | .error (.panic _) => True

/-- the locks at the end are those at the beginning -/
def Keeps (h : Prop) (m : Multiset κ) (p : Prog σ ε κ α) : Prop := Locks h m p fun _ m' => m' = m

variable {h : Prop} {m : Multiset κ} {p : Prog σ ε κ α} {g : α → Prog σ ε κ β} {Q Q' : α → Multiset κ → Prop} {x : κ}

theorem locks_bind {Q' : β → Multiset κ → Prop} (hp : Locks h m p Q) (hg : ∀ a m', Q a m' → Locks h m' (g a) Q') : Locks h m (p >>= g) Q' := by
  intro s l hl
  have hs := hp s l hl
  rw [solo_bind]
  cases hr : p.solo s l with
  | ok r =>
    rw [hr] at hs
    exact hg r.1 _ hs r.2.1 r.2.2 rfl
  | error e =>
    rw [hr] at hs
    cases e with
    | panic e => trivial
    | hang => exact hs

theorem locks_pure {a : α} (hQ : Q a m) : Locks h m (pure a : Prog σ ε κ α) Q := by
  intro s l hl
  subst hl
  exact hQ

theorem locks_panic {e : ε} : Locks h m (panic e : Prog σ ε κ α) Q := fun _ _ _ => trivial

theorem locks_get {Q : σ → Multiset κ → Prop} (hQ : ∀ s, Q s m) : Locks h m (get : Prog σ ε κ σ) Q := by
  intro s l hl
  subst hl
  exact hQ s

/-- what comes after the state has been read may depend on it in any way -/
theorem locks_read {g : σ → Prog σ ε κ α} (hg : ∀ s, Locks h m (g s) Q) : Locks h m (get >>= g) Q :=
  locks_bind (locks_get (Q := fun _ m' => m' = m) fun _ => rfl) fun s _ hm => hm ▸ hg s

theorem locks_modify {f : σ → σ} {Q : Unit → Multiset κ → Prop} (hQ : Q () m) : Locks h m (modify f : Prog σ ε κ Unit) Q := by
  intro s l hl
  subst hl
  exact hQ

theorem locks_atomic {f : σ → σ × α} (hQ : ∀ a, Q a m) : Locks h m (atomic f : Prog σ ε κ α) Q := by
  intro s l hl
  subst hl
  exact hQ _

/-- a lock is taken once -/
theorem locks_acquire {Q : Unit → Multiset κ → Prop} (hh : h ∨ x ∉ m) (hQ : x ∉ m → Q () (x ::ₘ m)) :
    Locks h m (acquire x : Prog σ ε κ Unit) Q := by
  intro s l hl
  subst hl
  unfold acquire solo
  by_cases hx : x ∈ l
  · rw [if_pos hx]
    exact hh.resolve_right fun hnot => hnot hx
  · rw [if_neg hx]
    exact hQ hx

/-- a lock is given back by who holds it -/
theorem locks_release {Q : Unit → Multiset κ → Prop} (hh : h ∨ x ∈ m) (hQ : x ∈ m → Q () (m.erase x)) :
    Locks h m (release x : Prog σ ε κ Unit) Q := by
  intro s l hl
  subst hl
  unfold release solo
  by_cases hx : x ∈ l
  · rw [if_pos hx]
    exact hQ hx
  · rw [if_neg hx]
    exact hh.resolve_right fun hmem => hx hmem

/-! ## Programs that keep the locks -/

theorem keeps_pure {a : α} : Keeps h m (pure a : Prog σ ε κ α) := locks_pure rfl

theorem keeps_panic {e : ε} : Keeps h m (panic e : Prog σ ε κ α) := locks_panic

theorem keeps_modify {f : σ → σ} : Keeps h m (modify f : Prog σ ε κ Unit) := locks_modify rfl

theorem keeps_atomic {f : σ → σ × α} : Keeps h m (atomic f : Prog σ ε κ α) := locks_atomic fun _ => rfl

/-- a part that keeps the locks, whatever its result, and then the rest -/
theorem locks_keeps {Q : β → Multiset κ → Prop} (hp : Keeps h m p) (hg : ∀ a, Locks h m (g a) Q) : Locks h m (p >>= g) Q :=
  locks_bind hp fun a _ hm => hm ▸ hg a

theorem keeps_bind (hp : Keeps h m p) (hg : ∀ a, Keeps h m (g a)) : Keeps h m (p >>= g) := locks_keeps hp hg

theorem keeps_read {g : σ → Prog σ ε κ α} (hg : ∀ s, Keeps h m (g s)) : Keeps h m (get >>= g) := locks_read hg

theorem keeps_forEach {f : β → Prog σ ε κ Unit} (hf : ∀ b, Keeps h m (f b)) (bs : List β) : Keeps h m (forEach f bs) := by
  induction bs with
  | nil => exact keeps_pure
  | cons b bs ih => exact keeps_bind (hf b) fun _ => ih

/-! ## Locks and states -/

/-- run by itself from `s` with the locks `l`, the program ends as `Q` says, or panics as `E` says, or, if `h`, hangs -/
def Swp (E : ε → Prop) (h : Prop) (p : Prog σ ε κ α) (Q : α → σ → List κ → Prop) (s : σ) (l : List κ) : Prop :=
  match p.solo s l with
  | .ok r => Q r.1 r.2.1 r.2.2
  | .error .hang => h
  | .error (.panic e) => E e

variable {E : ε → Prop} {s : σ} {l : List κ}

theorem swp_bind {Q : β → σ → List κ → Prop} (hp : Swp E h p (fun a s' l' => Swp E h (g a) Q s' l') s l) : Swp E h (p >>= g) Q s l := by
  unfold Swp at hp ⊢
  rw [solo_bind]
  cases hr : p.solo s l with
  | ok r =>
    rw [hr] at hp
    exact hp
  | error e =>
    rw [hr] at hp
    cases e with
    | panic e => exact hp
    | hang => exact hp

variable {R : α → σ → Prop}

/-- what is known of the states and what is known of the locks -/
theorem swp_of (hw : Wp E p R s) (hl : Locks h (l : Multiset κ) p Q) : Swp E h p (fun a s' l' => R a s' ∧ Q a (l' : Multiset κ)) s l := by
  have hs := hl s l rfl
  unfold Swp
  cases hr : p.solo s l with
  | ok r =>
    rw [hr] at hs
    have hR : R r.1 r.2.1 := wp_ok hw (solo_exec hr)
    exact ⟨hR, hs⟩
  | error e =>
    rw [hr] at hs
    cases e with
    | hang => exact hs
    | panic e =>
      have hE : E e := wp_error hw (solo_panic hr)
      exact hE

theorem swp_mono {Q Q' : α → σ → List κ → Prop} (hp : Swp E h p Q s l) (hQ : ∀ a s' l', Q a s' l' → Q' a s' l') : Swp E h p Q' s l := by
  unfold Swp at hp ⊢
  cases hr : p.solo s l with
  | ok r =>
    rw [hr] at hp
    exact hQ r.1 r.2.1 r.2.2 hp
  | error e =>
    rw [hr] at hp
    cases e with
    | panic e => exact hp
    | hang => exact hp

theorem swp_then {Q : α → σ → List κ → Prop} {Q' : β → σ → List κ → Prop} (hp : Swp E h p Q s l)
    (hg : ∀ a s' l', Q a s' l' → Swp E h (g a) Q' s' l') : Swp E h (p >>= g) Q' s l := swp_bind (swp_mono hp hg)

/-- a part of which both are known, and then the rest -/
theorem swp_seq {Q' : β → σ → List κ → Prop} (hw : Wp E p R s) (hl : Locks h (l : Multiset κ) p Q)
    (hg : ∀ a s' (l' : List κ), R a s' → Q a (l' : Multiset κ) → Swp E h (g a) Q' s' l') : Swp E h (p >>= g) Q' s l :=
  swp_then (swp_of hw hl) fun a s' l' ⟨hR, hQ⟩ => hg a s' l' hR hQ

/-- **A program that cannot hang** ends or panics. -/
theorem swp_ends {Q : α → σ → List κ → Prop} (hp : Swp E False p Q s l) :
    (∃ a s' l', p.solo s l = .ok (a, s', l') ∧ Q a s' l') ∨ ∃ e, p.solo s l = .error (.panic e) ∧ E e := by
  unfold Swp at hp
  cases hr : p.solo s l with
  | ok r =>
    rw [hr] at hp
    exact .inl ⟨r.1, r.2.1, r.2.2, rfl, hp⟩
  | error e =>
    rw [hr] at hp
    cases e with
    | hang => exact hp.elim
    | panic e => exact .inr ⟨e, rfl, hp⟩

/-- a program that neither ends nor panics hangs -/
theorem swp_hangs (hp : Swp (fun _ => False) True p (fun _ _ _ => False) s l) : p.solo s l = .error .hang := by
  unfold Swp at hp
  cases hr : p.solo s l with
  | ok r =>
    rw [hr] at hp
    exact hp.elim
  | error e =>
    rw [hr] at hp
    cases e with
    | hang => rfl
    | panic e => exact hp.elim

/-- a lock that is held is waited for without end -/
theorem swp_stuck {Q : Unit → σ → List κ → Prop} (hh : h) (hx : x ∈ l) : Swp E h (acquire x : Prog σ ε κ Unit) Q s l := by
  unfold Swp acquire solo
  rw [if_pos hx]
  exact hh

/-- does the program hang? -/
def hangs (p : Prog σ ε κ α) (s : σ) (l : List κ) : Bool :=
  match p.solo s l with
  | .error .hang => true
  | _ => false

theorem solo_of_hangs (hp : p.hangs s l = true) : p.solo s l = .error .hang := by
  unfold hangs at hp
  split at hp
  · rename_i hr
    exact hr
  · cases hp

end Xv6.Core.Prog
