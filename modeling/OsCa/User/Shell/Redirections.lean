import OsCa.User.Shell.Parser
import OsCa.User.Shell.Run

/-!
# The order of redirections

The parser puts every further redirection around the command, and `runcmd` starts with the
outermost one.  So the files are opened in the reverse of the order written, and the first
redirection of a descriptor is in effect.
-/

namespace OsCa.Shell

open Bytes List Function

/-- The tokens of a simple command or a block, the command without its redirections, and
these in the order written. -/
inductive Written : List Token → Cmd Str → List (RedirOp × Str) → Prop
  | simple {ts ts' : List Token} {ws : List Str} {rs rs' : List (RedirOp × Str)}
      (hr : Redirs ts rs) (h : Args ts' ws rs') (hlen : ws.length ≤ 9) :
      Written (ts ++ ts') (.exec ws) (rs ++ rs')
  | block {ts ts' : List Token} {c : Cmd Str} {rs : List (RedirOp × Str)}
      (h : Derives .line ts c) (hr : Redirs ts' rs) :
      Written (.lparen :: (ts ++ .rparen :: ts')) c rs

theorem Written.derives {ts : List Token} {c : Cmd Str} {rs : List (RedirOp × Str)}
    (h : Written ts c rs) : Derives .line ts (wrapAll c rs) := by
  have hexec : Derives .exec ts (wrapAll c rs) := by
    cases h with
    | simple hr h hlen => exact .simple hr h hlen
    | block h hr => exact .block h hr
  simpa using Derives.last 0 (.single hexec)

variable {α : Type} {s : State α} {p : ℕ} {pr : Proc α} {c d : Cmd α}

def RedirOp.fd : RedirOp → ℕ
  | .input => 0
  | .output | .append => 1

def RedirOp.mode : RedirOp → BitVec 32
  | .input => O_RDONLY
  | .output => O_WRONLY ||| O_CREATE ||| O_TRUNC
  | .append => O_WRONLY ||| O_CREATE

/-- The arguments of `open`. -/
def opening (r : RedirOp × α) : α × BitVec 32 := (r.2, r.1.mode)

def target (r : RedirOp × α) : File α := .opened r.2 r.1.mode

/-- The descriptors after the first of the redirections for each of them. -/
def redirect (rs : List (RedirOp × α)) (fds : Fds α) (fd : ℕ) : Option (File α) :=
  ((rs.find? fun r => r.1.fd == fd).map target).or (fds fd)

/-- The calls of `open` in the next `n` steps of a process, when they succeed. -/
def opens (p : ℕ) : ℕ → State α → List (α × BitVec 32)
  | 0, _ => []
  | n + 1, s =>
    let rest := ((step s (.step p true)).map (opens p n)).getD []
    match (s.procs p).bind fun pr => pr.calls.head? with
    | some (.openFile name mode) => (name, mode) :: rest
    | _ => rest

theorem opening_injective : Injective (opening (α := α)) := by
  rintro ⟨op, f⟩ ⟨op', f'⟩ h
  obtain ⟨rfl, hmode⟩ := Prod.mk.inj h
  have hop : op.mode = op'.mode → op = op' := by
    cases op <;> cases op' <;> decide
  rw [hop hmode]

@[simp] theorem redirect_nil (fds : Fds α) : redirect [] fds = fds := rfl

theorem redirect_cons (r : RedirOp × α) (rs : List (RedirOp × α)) (fds : Fds α) :
    redirect (r :: rs) fds = update (redirect rs fds) r.1.fd (some (target r)) := by
  funext fd
  by_cases h : r.1.fd = fd
  · subst h
    simp [redirect]
  · simp [redirect, h, update_of_ne (Ne.symm h)]

theorem redirect_concat (rs : List (RedirOp × α)) (r : RedirOp × α) (fds : Fds α) :
    redirect (rs ++ [r]) fds = redirect rs (update fds r.1.fd (some (target r))) := by
  induction rs with
  | nil => exact redirect_cons r [] fds
  | cons r' rs ih => rw [cons_append, redirect_cons, ih, redirect_cons]

/-- The descriptor that has been closed is the lowest free one. -/
theorem fdalloc_close (op : RedirOp) {fds : Fds α} (hfds : ∀ fd < 2, fds fd ≠ none) (f : File α) :
    fdalloc (close fds op.fd) f = some (op.fd, update fds op.fd (some f)) := by
  have h₀ := hfds 0 (by decide)
  unfold fdalloc
  rw [show range NOFILE = 0 :: 1 :: (range 14).map (· + 2) by decide]
  cases op <;> simp [RedirOp.fd, close, h₀]

/-- `runcmd`, `close` and `open` for the outermost redirection. -/
theorem run_wrap (r : RedirOp × α) (hp : s.procs p = some pr) (hcalls : pr.calls = [])
    (hnext : pr.next = .run (r.1.wrap c r.2)) (hfds : ∀ fd < 2, pr.fds fd ≠ none) (n : ℕ) :
    let t := s.set p { pr with
      node := pr.node ++ [false]
      next := .run c
      fds := update pr.fds r.1.fd (some (target r)) }
    (system d).run s (replicate (n + 3) (.step p true)) =
        (system d).run t (replicate n (.step p true)) ∧
      opens p (n + 3) s = opening r :: opens p n t := by
  have hwrap : r.1.wrap c r.2 = .redir c r.2 r.1.mode r.1.fd := by
    cases r.1 <;> rfl
  rw [hwrap] at hnext
  have halloc := fdalloc_close r.1 hfds (.opened r.2 r.1.mode)
  simp [replicate_succ, EventSystem.run, system, opens, step, State.proceed, State.runcmd,
    State.set, Proc.call, opening, target, hp, hcalls, hnext, halloc]

/-- All redirections, from the last one to the first. -/
theorem run_wrapAll (rs : List (RedirOp × α)) (hp : s.procs p = some pr)
    (hcalls : pr.calls = []) (hnext : pr.next = .run (wrapAll c rs))
    (hfds : ∀ fd < 2, pr.fds fd ≠ none) :
    (system d).run s (replicate (3 * rs.length) (.step p true)) = some (s.set p { pr with
        node := pr.node ++ replicate rs.length false
        next := .run c
        fds := redirect rs pr.fds }) ∧
      opens p (3 * rs.length) s = (rs.map opening).reverse := by
  induction rs using reverseRecOn generalizing s pr with
  | nil =>
    obtain ⟨parent, node, calls, next, fds⟩ := pr
    obtain rfl : next = .run c := hnext
    refine ⟨?_, rfl⟩
    have hset : s.set p ⟨parent, node, calls, .run c, fds⟩ = s := by
      rw [State.set, ← hp, update_eq_self]
    exact congrArg some (by simpa using hset.symm)
  | append_singleton rs r ih =>
    rw [wrapAll_append] at hnext
    have hfds' : ∀ fd < 2, update pr.fds r.1.fd (some (target r)) fd ≠ none := fun fd hfd => by
      by_cases heq : fd = r.1.fd
      · simp [heq]
      · simpa [heq] using hfds fd hfd
    obtain ⟨hrun, hopens⟩ := run_wrap (d := d) r hp hcalls hnext hfds (3 * rs.length)
    obtain ⟨hrun', hopens'⟩ := @ih (s.set p _) { pr with
      node := pr.node ++ [false]
      next := .run (wrapAll c rs)
      fds := update pr.fds r.1.fd (some (target r)) } (update_self ..) hcalls rfl hfds'
    rw [length_append, length_singleton, Nat.mul_add_one, hrun, hopens, hrun', hopens',
      redirect_concat]
    simp [State.set, replicate_succ]

/-- A simple command or a block is parsed, and after three steps for each redirection the
process is about to run the command itself.  The files have been opened in the order
written, with the last redirection of each descriptor in effect, exactly if the list of
redirections is the same in reverse. -/
theorem redirections_in_order_iff {line : Str} {c : Cmd Str} {rs : List (RedirOp × Str)}
    (hline : (0 : Byte) ∉ line) (h : Written (tokens line) c rs) :
    ∃ tree buf, parsecmd line = .ok (tree, buf) ∧
      ∀ (s : State Str) (p : ℕ) (pr : Proc Str), s.procs p = some pr → pr.calls = [] →
        pr.next = .run (tree.map fun a => cstring line.length buf a.q) →
        (∀ fd < 2, pr.fds fd ≠ none) →
        ∃ fds, (system c).run s (replicate (3 * rs.length) (.step p true)) = some (s.set p { pr with
              node := pr.node ++ replicate rs.length false
              next := .run c
              fds := fds }) ∧
          (opens p (3 * rs.length) s = rs.map opening ∧ fds = redirect rs.reverse pr.fds ↔
            rs.reverse = rs) := by
  obtain ⟨tree, buf, hparse, htree⟩ := parsecmd_complete hline h.derives
  refine ⟨tree, buf, hparse, fun s p pr hp hcalls hnext hfds => ?_⟩
  rw [htree] at hnext
  obtain ⟨hrun, hopens⟩ := run_wrapAll rs hp hcalls hnext hfds
  refine ⟨_, hrun, ?_⟩
  rw [hopens, ← map_reverse, (map_injective_iff.mpr opening_injective).eq_iff]
  exact ⟨And.left, fun hrev => ⟨hrev, by rw [hrev]⟩⟩

/-- `a<x>y<x`. -/
def palindrome : Str := "a<x>y<x".toList.map ch

theorem redirections_in_order_iff_palindrome : ∃ tree buf, parsecmd palindrome = .ok (tree, buf) ∧
      (opens 0 9 (start (tree.map fun a => cstring 7 buf a.q))).map Prod.fst =
        [[ch 'x'], [ch 'y'], [ch 'x']] := by
  have htokens : tokens palindrome = [.word [ch 'a'], .redir .input, .word [ch 'x'],
      .redir .output, .word [ch 'y'], .redir .input, .word [ch 'x']] := by
    decide
  have hwritten : Written (tokens palindrome) (.exec [[ch 'a']])
      [(.input, [ch 'x']), (.output, [ch 'y']), (.input, [ch 'x'])] :=
    htokens ▸ .simple .nil (.cons _ (.cons .input _ (.cons .output _ (.cons .input _ .nil)))
      .nil) (by simp)
  obtain ⟨tree, buf, hparse, hall⟩ := redirections_in_order_iff (by decide) hwritten
  obtain ⟨fds, -, hiff⟩ := hall (start _) 0 _ rfl rfl rfl fun fd hfd => by
    simp [shellFds, Nat.lt_succ_of_lt hfd]
  exact ⟨tree, buf, hparse, congrArg (map Prod.fst) (hiff.mpr rfl).1⟩

/-- `a>x>y`. -/
def twoOutputs : Str := "a>x>y".toList.map ch

/-- `y` is opened first, and the command writes to `x`. -/
theorem first_output_in_effect : (parsecmd twoOutputs).toOption.any (fun r =>
      let tree := r.1.map fun a => cstring twoOutputs.length r.2 a.q
      (opens 0 6 (start tree)).map Prod.fst = [[ch 'y'], [ch 'x']] ∧
      ((system tree).run (start tree) (replicate 6 (.step 0 true))).any (fun t =>
        (t.procs 0).any fun pr => pr.fds 1 = some (target (.output, [ch 'x']))) = true) =
      true := by
  decide +kernel

end OsCa.Shell
