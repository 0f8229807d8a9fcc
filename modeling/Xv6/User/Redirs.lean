/-
Redirections, from the line to the descriptors of the command (`parseredirs` and the REDIR case of `runcmd` in `sh.c`).

`parseredirs` wraps the command into one REDIR node for each redirection that it reads, so that the last one of the text is the outermost
node, and `runcmd` opens the files on its way in: the first one of the text is opened last.

- `Redirected ts c rs`: the tokens are a simple command or a block, with the redirections `rs` in the order of the text.
-/
import Xv6.User.ShText
import Xv6.User.ShRun

namespace Xv6.Sh

open Xv6.Core
open Xv6.Kernel (NOFILE)

/-- a simple command or a block, and its redirections -/
inductive Redirected : List Tok → Cmd Text → List (Text × Dir) → Prop
  | block {ts c ts' rs} (h : Derives .line ts c) (h' : Redirs ts' rs) : Redirected (.sym '(' :: (ts ++ .sym ')' :: ts')) c rs
  | simple {ts rs ts' ws rs'} (h : Redirs ts rs) (h' : Args ts' ws rs') (hlen : ws.length ≤ MAXARGS - 1) :
    Redirected (ts ++ ts') (.exec ws) (rs ++ rs')

/-- the file of the first redirection to a descriptor -/
def firstOf (d : Dir) (rs : List (Text × Dir)) : Option Text := (rs.find? fun r => r.2 = d).map Prod.fst

/-- the file of the last one -/
def lastOf (d : Dir) (rs : List (Text × Dir)) : Option Text := firstOf d rs.reverse

/-- process `q` enters `runcmd`, closes a descriptor and opens a file, from the outermost redirection on -/
def redirOps (q : ℕ) (files : Text → ℕ) (rs : List (Text × Dir)) : List Op :=
  rs.reverse.flatMap fun r => [.next q true 0, .next q true 0, .next q true (files r.1)]

variable {c : Cmd Text} {rs : List (Text × Dir)}

theorem Redirected.derives {ts : List Tok} (h : Redirected ts c rs) : Derives .line ts (c.wrap rs) := by
  cases h with
  | block h h' => exact .to_line (.stage (.block h h'))
  | simple h h' hlen => exact .to_line (.stage (.simple h h' hlen))

theorem firstOf_snoc (d : Dir) (rs : List (Text × Dir)) (r : Text × Dir) :
    firstOf d (rs ++ [r]) = (firstOf d rs).or (if r.2 = d then some r.1 else none) := by
  unfold firstOf
  rw [List.find?_append, List.find?_singleton]
  cases rs.find? fun r => r.2 = d with
  | some r' => rfl
  | none =>
    by_cases h : r.2 = d
    · simp [h]
    · simp [h]

/-- what has a last one has a first one -/
theorem firstOf_of_lastOf {d : Dir} {w : Text} (h : lastOf d rs = some w) : ∃ w', firstOf d rs = some w' := by
  obtain ⟨r, hfind, -⟩ := Option.map_eq_some_iff.1 h
  have hsome : (rs.find? fun r => r.2 = d).isSome := by
    rw [List.find?_isSome]
    have hr := List.find?_some hfind
    exact ⟨r, List.mem_reverse.1 (List.mem_of_find?_eq_some hfind), hr⟩
  obtain ⟨r', hr'⟩ := Option.isSome_iff_exists.1 hsome
  exact ⟨r'.1, by rw [firstOf, hr']; rfl⟩

variable {s : St} {x : Proc} {q : ℕ} {k : List Ins}

theorem step_next {i : Ins} (hq : s.procs[q]? = some x) (hx : x.image = .shell (i :: k)) (ok : Bool) (n : ℕ) :
    (step s (.next q ok n)).procs[q]? = some (x.next s.pipes ok n i k) := by
  have hlt := (List.getElem?_eq_some_iff.1 hq).1
  simp only [step, hq, hx, St.put]
  rw [List.getElem?_append_left (by rw [List.length_set]; exact hlt), List.getElem?_set_self hlt]

/-- one redirection -/
theorem redirect (hq : s.procs[q]? = some x) {as : Stage} {w : Text} {d : Dir}
    (hx : x.image = .shell (.run as (.redir c w d) :: k)) (hstd : Std x.fds) (n : ℕ) :
    (run step s [.next q true 0, .next q true 0, .next q true n]).procs[q]? =
      some { x with fds := update x.fds d.fd (some (.file n)), image := .shell [.run .plain c] } := by
  have hd : d.fd.val < 3 := by cases d <;> decide
  have h1 := step_next hq hx true 0
  have h2 := step_next h1 rfl true 0
  have h3 := step_next h2 rfl true n
  rw [run_cons, run_cons, run_cons, run_nil, h3]
  simp only [Proc.next, if_true]
  have halloc : fdalloc (sysClose x.fds d.fd) (.file n) = some (d.fd, update (sysClose x.fds d.fd) d.fd (some (.file n))) :=
    fdalloc_eq (update_self ..) (hstd.below hd)
  simp only [halloc]
  rw [sysClose, update_idem]

/-- **Redirections are opened from the last one to the first one.** -/
theorem run_redirOps (files : Text → ℕ) {as : Stage} (rs : List (Text × Dir)) (hq : s.procs[q]? = some x)
    (hx : x.image = .shell (.run as (c.wrap rs) :: k)) (hstd : Std x.fds) :
    ∃ x' as' k', (run step s (redirOps q files rs)).procs[q]? = some x' ∧ x'.image = .shell (.run as' c :: k') ∧
      ∀ d : Dir, x'.fds d.fd = match firstOf d rs with
        | some w => some (.file (files w))
        | none => x.fds d.fd := by
  induction rs using List.reverseRecOn generalizing s x as k with
  | nil => exact ⟨x, as, k, hq, hx, fun _ => rfl⟩
  | append_singleton rs r ih =>
    have hwrap : c.wrap (rs ++ [r]) = .redir (c.wrap rs) r.1 r.2 := List.foldl_append
    have hops : redirOps q files (rs ++ [r]) = [.next q true 0, .next q true 0, .next q true (files r.1)] ++ redirOps q files rs := by
      unfold redirOps
      rw [List.reverse_append]
      rfl
    rw [hwrap] at hx
    have hd : r.2.fd.val < 3 := by cases r.2 <;> decide
    obtain ⟨x', as', k', hq', hx', hfds⟩ := ih (redirect hq hx hstd (files r.1)) rfl (hstd.update hd)
    refine ⟨x', as', k', by rw [hops, run_append]; exact hq', hx', fun d => (hfds d).trans ?_⟩
    rw [firstOf_snoc]
    cases firstOf d rs with
    | some w => rfl
    | none =>
      by_cases hrd : r.2 = d
      · simp only [hrd, update_self, if_true, Option.none_or]
      · have hne : d.fd ≠ r.2.fd := by
          cases d <;> cases hr : r.2 <;> simp_all [Dir.fd]
        simp only [hrd, update_of_ne hne, if_false, Option.none_or]

/-- **The order of redirections.** For every line that is a simple command or a block with redirections, and wherever a run of the shell
enters `runcmd` with its tree: when all files can be opened, the command is entered with the first file of each direction, which is the
last one of the text just when these are the same file. -/
theorem redirect_order (files : Text → ℕ) (line : Text) (fuel : ℕ) (hfuel : 4 * (upToNul line).length + 4 ≤ fuel) (c : Cmd Text)
    (rs : List (Text × Dir)) (hline : Redirected (tokens (upToNul line)) c rs) (stdio : Fin 3 → ℕ) (cs : List (Cmd Text))
    (ops : List Op) (q : ℕ) (x : Proc) (as : Stage) (k : List Ins) (hq : (run step (init stdio cs) ops).procs[q]? = some x)
    (hx : x.image = .shell (.run as (c.wrap rs) :: k)) :
    parsecmd fuel line = .ok (c.wrap rs) ∧
    ∃ x' as' k', (run step (init stdio cs) (ops ++ redirOps q files rs)).procs[q]? = some x' ∧ x'.image = .shell (.run as' c :: k') ∧
      ∀ d : Dir,
        (∀ w, firstOf d rs = some w → x'.fds d.fd = some (.file (files w))) ∧
        ((∀ w, lastOf d rs = some w → x'.fds d.fd = some (.file (files w))) ↔
          ∀ w w', firstOf d rs = some w → lastOf d rs = some w' → files w = files w') := by
  have hinv := run_inv (I := fun s : St => Inv s.procs) (fun s op h => step_inv h op) _ (init_inv stdio cs) ops
  have hstd := ((hinv q x hq).1.atRun hx).1
  refine ⟨(parsecmd_iff hfuel _).2 hline.derives, ?_⟩
  obtain ⟨x', as', k', hq', hx', hfds⟩ := run_redirOps files rs hq hx hstd
  refine ⟨x', as', k', by rw [run_append]; exact hq', hx', fun d => ?_⟩
  have hfirst : ∀ w, firstOf d rs = some w → x'.fds d.fd = some (.file (files w)) := by
    intro w hw
    rw [hfds d, hw]
  refine ⟨hfirst, fun h w w' hw hw' => ?_, fun h w' hw' => ?_⟩
  · have heq := (hfirst w hw).symm.trans (h w' hw')
    exact File.file.inj (Option.some.inj heq)
  · obtain ⟨w, hw⟩ := firstOf_of_lastOf hw'
    rw [hfirst w hw, h w w' hw hw']

/-- the shell has forked for `a` with these redirections -/
def forked (rs : List (Text × Dir)) : St := run step (init (fun _ => 0) [(Cmd.exec [['a']]).wrap rs]) [.next 0 true 0]

theorem forked_some : (forked [(['b'], .input)]).procs[1]?.isSome = true := by decide +kernel

/-- file 1 is `b` -/
def fileB (w : Text) : ℕ := if w = ['b'] then 1 else 2

theorem tokens_once : tokens (upToNul ['a', '<', 'b']) = [] ++ (.word ['a'] :: ([.sym '<', .word ['b']] ++ [])) := by
  have hb : tokens ['b'] = [.word ['b']] := (tokens_word (w := ['b']) (s := []) (by decide) nofun).trans (by rw [tokens_of_end rfl])
  have ha := tokens_word (w := ['a']) (s := ['<', 'b']) (by decide) fun ch hch => by cases hch; rfl
  rw [tokens_one (by decide), hb] at ha
  exact ha

/-- `a<b` -/
theorem redirect_order_once : ∃ x', (run step (forked [(['b'], .input)]) (redirOps 1 fileB [(['b'], .input)])).procs[1]? = some x' ∧
    x'.fds 0 = some (.file 1) := by
  have hline : Redirected (tokens (upToNul ['a', '<', 'b'])) (.exec [['a']]) [(['b'], .input)] := by
    rw [tokens_once]
    exact .simple .nil (.cons (.input .nil) .nil) (by decide)
  obtain ⟨-, x', -, -, hq, -, hfds⟩ := redirect_order fileB ['a', '<', 'b'] 30 (by decide) (.exec [['a']]) [(['b'], .input)] hline (fun _ => 0)
    [(Cmd.exec [['a']]).wrap [(['b'], .input)]] [.next 0 true 0] 1 _ .plain [] (Option.some_get forked_some).symm (by decide +kernel)
  exact ⟨x', hq, (hfds .input).1 ['b'] rfl⟩

/-- `b` and `c`, both for descriptor 0 -/
def twice : List (Text × Dir) := [(['b'], .input), (['c'], .input)]

/-- descriptor 0 is `b`, though the last redirection is to `c` -/
theorem redirect_twice : parsecmd 30 ['a', '<', 'b', '<', 'c'] = .ok ((Cmd.exec [['a']]).wrap twice) ∧ lastOf .input twice = some ['c'] ∧
    fileB ['c'] = 2 ∧ ((run step (forked twice) (redirOps 1 fileB twice)).procs[1]?.map fun x => (x.fds 0, x.image)) =
      some (some (.file 1), .shell [.run .plain (.exec [['a']])]) := by
  exact ⟨rfl, rfl, rfl, by decide +kernel⟩

end Xv6.Sh
