import OsCa.User.Shell.Run
import Mathlib.Data.List.Basic

/-!
# Pipelines

The processes of a pipeline lie along the right spine of its tree.  The process at
depth `i` of the spine makes the pipe number `i`, and forks one child for the
command number `i` and one for the rest of the spine, which becomes the process at
depth `i + 1`.

What the calls that a process still has to make will do to its descriptors is the
same before and after each of them, so only the table that they lead to has to be
known.
-/

namespace OsCa.Shell

open Function List Option

variable {α : Type}

variable {i j k n : ℕ} {c : Call α} {rest : List (Call α)}

/-! ## Descriptors -/

def table (a b c d e : Option (File α)) : Fds α
  | 0 => a
  | 1 => b
  | 2 => c
  | 3 => d
  | 4 => e
  | _ => none

/-- Standard input at depth `i`. -/
def input : ℕ → File α
  | 0 => .shell 0
  | i + 1 => .readEnd i

/-- The descriptors of the process at depth `i`. -/
def spineFds (i : ℕ) : Fds α := table (some (input i)) (some (.shell 1)) (some (.shell 2)) none none

/-- The same with the pipe number `i`. -/
def pipeFds (i : ℕ) : Fds α :=
  table (some (input i)) (some (.shell 1)) (some (.shell 2)) (some (.readEnd i))
    (some (.writeEnd i))

/-- The descriptors of the command number `i`, if it is not the last one. -/
def leftFds (i : ℕ) : Fds α :=
  table (some (input i)) (some (.writeEnd i)) (some (.shell 2)) none none

/-- The effect of a call that is not `open`. -/
def Call.apply (fds : Fds α) : Call α → Fds α
  | .close fd => Shell.close fds fd
  | .dup fd => Shell.dup fds fd
  | .openFile .. => fds

/-- The descriptors after the calls. -/
def Proc.settled (pr : Proc α) : Fds α := pr.calls.foldl Call.apply pr.fds

theorem shellFds_eq : shellFds α = spineFds 0 := by
  funext fd
  rcases fd with _ | _ | _ | fd
  · rfl
  · rfl
  · rfl
  · rcases fd with _ | _ | fd <;> rfl

theorem pipe_spineFds (i : ℕ) : pipe (spineFds (α := α) i) i = some (3, 4, pipeFds i) := by
  have h₃ : fdalloc (spineFds (α := α) i) (.readEnd i) =
      some (3, update (spineFds i) 3 (some (.readEnd i))) := rfl
  have h₄ : fdalloc (update (spineFds (α := α) i) 3 (some (.readEnd i)))
      (.writeEnd i) = some (4, update
        (update (spineFds i) 3 (some (.readEnd i))) 4 (some (.writeEnd i))) := rfl
  simp only [pipe, h₃, h₄, bind_eq_bind, bind_some, some.injEq, Prod.mk.injEq, true_and]
  funext fd
  rcases fd with _ | _ | _ | _ | _ | fd <;> rfl

theorem settle_left (i : ℕ) :
    [Call.close 1, .dup 4, .close 3, .close 4].foldl Call.apply (pipeFds (α := α) i) =
      leftFds i := by
  funext fd
  rcases fd with _ | _ | _ | _ | _ | fd <;> rfl

theorem settle_right (i : ℕ) :
    [Call.close 0, .dup 3, .close 3, .close 4].foldl Call.apply (pipeFds (α := α) i) =
      spineFds (i + 1) := by
  funext fd
  rcases fd with _ | _ | _ | _ | _ | fd <;> rfl

theorem settle_parent (i : ℕ) :
    [Call.close 3, .close 4].foldl Call.apply (pipeFds (α := α) i) = spineFds i := by
  funext fd
  rcases fd with _ | _ | _ | _ | _ | fd <;> rfl

/-! ## Processes -/

/-- The node at depth `i` of the spine. -/
def spine (i : ℕ) : List Bool := replicate i true

/-- The node of a command that is not the last one. -/
def leaf (i : ℕ) : List Bool := spine i ++ [false]

theorem spine_inj (h : spine i = spine j) : i = j := by
  simpa [spine] using congrArg length h

theorem leaf_inj (h : leaf i = leaf j) : i = j := spine_inj (append_cancel_right h)

theorem leaf_ne_spine (i j : ℕ) : leaf i ≠ spine j := by
  intro h
  have hmem : false ∈ spine j := by
    rw [← h]
    simp [leaf]
  simp [spine] at hmem

theorem spine_succ (i : ℕ) : spine (i + 1) = spine i ++ [true] := by
  simp [spine, replicate_succ']

/-- The node of the command number `i` of `n`. -/
def cmdNode (n i : ℕ) : List Bool := if i + 1 = n then spine i else leaf i

/-- The calls to come are not `open`. -/
def Plain (calls : List (Call α)) : Prop := ∀ name mode, Call.openFile name mode ∉ calls

/-- Where a process of the pipeline can be. -/
inductive Local (argvs : List (List α)) (pr : Proc α) : Prop
  | run (i : ℕ) (hi : i < argvs.length) (hnode : pr.node = spine i)
      (hnext : pr.next = .run (pipeline (argvs.drop i))) (hplain : Plain pr.calls)
      (hfds : pr.settled = spineFds i)
  | forkLeft (i : ℕ) (argv : List α) (hi : i + 1 < argvs.length) (hnode : pr.node = spine i)
      (hargv : argvs[i]? = some argv) (hcalls : pr.calls = []) (hfds : pr.fds = pipeFds i)
      (hnext : pr.next = .forkLeft (.exec argv) (pipeline (argvs.drop (i + 1))) 3 4)
  | forkRight (i : ℕ) (hi : i + 1 < argvs.length) (hnode : pr.node = spine i)
      (hcalls : pr.calls = []) (hfds : pr.fds = pipeFds i)
      (hnext : pr.next = .forkRight (pipeline (argvs.drop (i + 1))) 3 4)
  | wait (i k : ℕ) (hi : i + 1 < argvs.length) (hnode : pr.node = spine i)
      (hnext : pr.next = .wait k none) (hplain : Plain pr.calls)
      (hfds : pr.settled = spineFds i)
  | left (i : ℕ) (argv : List α) (hi : i + 1 < argvs.length) (hnode : pr.node = leaf i)
      (hargv : argvs[i]? = some argv) (hnext : pr.next = .run (.exec argv))
      (hplain : Plain pr.calls) (hfds : pr.settled = leftFds i)
  | running (i : ℕ) (argv : List α) (hi : i < argvs.length)
      (hnode : pr.node = cmdNode argvs.length i) (hargv : argvs[i]? = some argv)
      (hcalls : pr.calls = []) (hnext : pr.next = .running argv)
      (hfds : pr.fds = if i + 1 = argvs.length then spineFds i else leftFds i)
  | zombie (hcalls : pr.calls = []) (hnext : pr.next = .zombie) (hfds : ∀ fd, pr.fds fd = none)

variable {argvs : List (List α)} {s t : State α} {p q : ℕ} {pr pr' : Proc α}

theorem settled_of_nil (h : pr.calls = []) : pr.settled = pr.fds := by
  rw [Proc.settled, h]
  rfl

theorem settled_call (hcalls : pr.calls = c :: rest) (hplain : Plain pr.calls) (ok : Bool) :
    (pr.call ok c rest).settled = pr.settled ∧ (pr.call ok c rest).node = pr.node ∧
      (pr.call ok c rest).next = pr.next ∧ Plain (pr.call ok c rest).calls := by
  have hrest : Plain rest := by
    intro name mode hmem
    refine hplain name mode ?_
    rw [hcalls]
    exact mem_cons_of_mem c hmem
  unfold Proc.settled
  rw [hcalls]
  cases c with
  | close fd => exact ⟨rfl, rfl, rfl, hrest⟩
  | dup fd => exact ⟨rfl, rfl, rfl, hrest⟩
  | openFile name mode =>
    refine absurd ?_ (hplain name mode)
    rw [hcalls]
    exact mem_cons_self

theorem Local.call (h : Local argvs pr) (hcalls : pr.calls = c :: rest) (ok : Bool) :
    Local argvs (pr.call ok c rest) ∧ (pr.call ok c rest).node = pr.node ∧
      (pr.call ok c rest).next = pr.next := by
  have hne : ¬ pr.calls = [] := by simp [hcalls]
  cases h with
  | run i hi hnode hnext hplain hfds =>
    obtain ⟨h₁, h₂, h₃, h₄⟩ := settled_call hcalls hplain ok
    exact ⟨.run i hi (h₂.trans hnode) (h₃.trans hnext) h₄ (h₁.trans hfds), h₂, h₃⟩
  | wait i k hi hnode hnext hplain hfds =>
    obtain ⟨h₁, h₂, h₃, h₄⟩ := settled_call hcalls hplain ok
    exact ⟨.wait i k hi (h₂.trans hnode) (h₃.trans hnext) h₄ (h₁.trans hfds), h₂, h₃⟩
  | left i argv hi hnode hargv hnext hplain hfds =>
    obtain ⟨h₁, h₂, h₃, h₄⟩ := settled_call hcalls hplain ok
    exact ⟨.left i argv hi (h₂.trans hnode) hargv (h₃.trans hnext) h₄ (h₁.trans hfds), h₂, h₃⟩
  | forkLeft _ _ _ _ _ hnil | forkRight _ _ _ hnil | running _ _ _ _ _ hnil | zombie hnil =>
    exact absurd hnil hne

/-! ## All processes -/

/-- There is no process at the node. -/
def State.Vacant (s : State α) (node : List Bool) : Prop :=
  ∀ p pr, s.procs p = some pr → pr.node ≠ node

/-- Pipes are made along the spine, one after the other. -/
def Ordered (s : State α) (pr : Proc α) : Prop :=
  ∀ i, pr.node = spine i → match pr.next with
    | .run _ => i = s.npipe
    | .forkLeft .. => i + 1 = s.npipe ∧ s.Vacant (spine s.npipe) ∧ s.Vacant (leaf i)
    | .forkRight .. => i + 1 = s.npipe ∧ s.Vacant (spine s.npipe)
    | .wait .. | .running _ | .zombie => True

structure Inv (argvs : List (List α)) (s : State α) : Prop where
  loc : ∀ p pr, s.procs p = some pr → Local argvs pr
  uniq : ∀ p q a b, s.procs p = some a → s.procs q = some b → a.node = b.node → p = q
  fresh : ∀ p, s.nproc ≤ p → s.procs p = none
  spineLe : ∀ p pr i, s.procs p = some pr → pr.node = spine i → i ≤ s.npipe
  leafLt : ∀ p pr i, s.procs p = some pr → pr.node = leaf i → i < s.npipe
  order : ∀ p pr, s.procs p = some pr → Ordered s pr

/-- The process is past its forks. -/
def Next.Late : Next α → Prop
  | .wait .. | .running _ | .zombie => True
  | .run _ | .forkLeft .. | .forkRight .. => False

theorem ordered_of_late (h : pr.next.Late) : Ordered s pr := by
  intro i _
  cases hnext : pr.next with
  | wait | running | zombie => trivial
  | run | forkLeft | forkRight =>
    rw [hnext] at h
    exact h.elim

theorem Ordered.congr (h : Ordered s pr) (hnode : pr'.node = pr.node)
    (hnext : pr'.next = pr.next) (hpipe : t.npipe = s.npipe)
    (hvacant : ∀ node, s.Vacant node → t.Vacant node) : Ordered t pr' := by
  intro i hi
  have hold := h i (hnode.symm.trans hi)
  rw [hnext, hpipe]
  cases hcase : pr.next with
  | wait | running | zombie => trivial
  | run =>
    rw [hcase] at hold
    exact hold
  | forkLeft =>
    rw [hcase] at hold
    exact ⟨hold.1, hvacant _ hold.2.1, hvacant _ hold.2.2⟩
  | forkRight =>
    rw [hcase] at hold
    exact ⟨hold.1, hvacant _ hold.2⟩

/-- Processes go on without a fork and without a new pipe, or disappear. -/
theorem Inv.later (h : Inv argvs s)
    (hprocs : ∀ q b, t.procs q = some b → ∃ a, s.procs q = some a ∧ b.node = a.node ∧
      Local argvs b ∧ (b.next = a.next ∨ b.next.Late))
    (hnproc : t.nproc = s.nproc) (hpipe : t.npipe = s.npipe) : Inv argvs t := by
  have hvacant : ∀ node, s.Vacant node → t.Vacant node := by
    intro node hs q b hb
    obtain ⟨a, ha, hnode, -⟩ := hprocs q b hb
    rw [hnode]
    exact hs q a ha
  refine ⟨fun q b hb => ?_, fun q r b c hb hc hnode => ?_, fun q hq => ?_,
    fun q b i hb hi => ?_, fun q b i hb hi => ?_, fun q b hb => ?_⟩
  · obtain ⟨a, -, -, hloc, -⟩ := hprocs q b hb
    exact hloc
  · obtain ⟨a, ha, hab, -⟩ := hprocs q b hb
    obtain ⟨a', ha', hab', -⟩ := hprocs r c hc
    exact h.uniq q r a a' ha ha' (hab.symm.trans (hnode.trans hab'))
  · rw [hnproc] at hq
    refine eq_none_iff_forall_not_mem.mpr fun b hb => ?_
    obtain ⟨a, ha, -⟩ := hprocs q b hb
    exact absurd ((h.fresh q hq).symm.trans ha) (by simp)
  · obtain ⟨a, ha, hnode, -⟩ := hprocs q b hb
    rw [hpipe]
    exact h.spineLe q a i ha (hnode.symm.trans hi)
  · obtain ⟨a, ha, hnode, -⟩ := hprocs q b hb
    rw [hpipe]
    exact h.leafLt q a i ha (hnode.symm.trans hi)
  · obtain ⟨a, ha, hnode, -, hnext⟩ := hprocs q b hb
    rcases hnext with hnext | hlate
    · exact (h.order q a ha).congr hnode hnext hpipe hvacant
    · exact ordered_of_late hlate

section

variable (h : Inv argvs s) (hp : s.procs p = some pr)

include h hp

theorem Inv.set (hnode : pr'.node = pr.node) (hloc : Local argvs pr')
    (hnext : pr'.next = pr.next ∨ pr'.next.Late) : Inv argvs (s.set p pr') := by
  refine h.later (fun q b hb => ?_) rfl rfl
  change update s.procs p (some pr') q = some b at hb
  rw [update_apply] at hb
  split at hb
  next heq =>
    cases hb
    exact ⟨pr, heq ▸ hp, hnode, hloc, hnext⟩
  next => exact ⟨b, hb, rfl, h.loc q b hb, Or.inl rfl⟩

theorem Inv.exit : Inv argvs (s.set p pr.exit) :=
  h.set hp rfl (.zombie rfl rfl fun _ => rfl) (Or.inr trivial)

/-- The process at the end of the spine makes a pipe. -/
theorem Inv.pipe (hnode : pr.node = spine i) (hi : i = s.npipe)
    (hnode' : pr'.node = spine i) (hloc : Local argvs pr') {l r : Cmd α} {p₀ p₁ : ℕ}
    (hnext' : pr'.next = .forkLeft l r p₀ p₁) :
    Inv argvs { s.set p pr' with npipe := s.npipe + 1 } := by
  subst hi
  -- Every process is the old one, or the process itself with the same node.
  have hcase : ∀ q b, (s.set p pr').procs q = some b →
      q = p ∧ b = pr' ∨ q ≠ p ∧ s.procs q = some b := by
    intro q b hb
    change update s.procs p (some pr') q = some b at hb
    rw [update_apply] at hb
    split at hb
    next heq =>
      cases hb
      exact Or.inl ⟨heq, rfl⟩
    next hne => exact Or.inr ⟨hne, hb⟩
  have hold : ∀ q b, (s.set p pr').procs q = some b →
      ∃ a, s.procs q = some a ∧ b.node = a.node := by
    intro q b hb
    rcases hcase q b hb with ⟨rfl, rfl⟩ | ⟨-, hb⟩
    · exact ⟨pr, hp, hnode'.trans hnode.symm⟩
    · exact ⟨b, hb, rfl⟩
  refine ⟨fun q b hb => ?_, fun q r b c hb hc hnode => ?_, fun q hq => ?_,
    fun q b i hb hi => ?_, fun q b i hb hi => ?_, fun q b hb => ?_⟩
  · rcases hcase q b hb with ⟨-, rfl⟩ | ⟨-, hb⟩
    · exact hloc
    · exact h.loc q b hb
  · obtain ⟨a, ha, hab⟩ := hold q b hb
    obtain ⟨a', ha', hab'⟩ := hold r c hc
    exact h.uniq q r a a' ha ha' (hab.symm.trans (hnode.trans hab'))
  · refine eq_none_iff_forall_not_mem.mpr fun b hb => ?_
    obtain ⟨a, ha, -⟩ := hold q b hb
    exact absurd ((h.fresh q hq).symm.trans ha) (by simp)
  · obtain ⟨a, ha, hab⟩ := hold q b hb
    exact (h.spineLe q a i ha (hab.symm.trans hi)).trans (Nat.le_succ _)
  · obtain ⟨a, ha, hab⟩ := hold q b hb
    exact (h.leafLt q a i ha (hab.symm.trans hi)).trans (Nat.lt_succ_self _)
  · intro j hj
    rcases hcase q b hb with ⟨-, rfl⟩ | ⟨hne, hb⟩
    · rw [hnext']
      obtain rfl := spine_inj (hj.symm.trans hnode')
      refine ⟨rfl, fun r c hc heq => ?_, fun r c hc heq => ?_⟩
      · obtain ⟨a, ha, hac⟩ := hold r c hc
        exact absurd (h.spineLe r a _ ha (hac.symm.trans heq)) (Nat.not_succ_le_self _)
      · obtain ⟨a, ha, hac⟩ := hold r c hc
        exact absurd (h.leafLt r a _ ha (hac.symm.trans heq)) (Nat.lt_irrefl _)
    · -- No other process is before its forks.
      have horder := h.order q b hb j hj
      cases hcase' : b.next with
      | wait | running | zombie => trivial
      | run =>
        rw [hcase'] at horder
        refine absurd (h.uniq q p b pr hb hp ?_) hne
        rw [hj, horder, hnode]
      | forkLeft =>
        rw [hcase'] at horder
        exact absurd hnode (horder.2.1 p pr hp)
      | forkRight =>
        rw [hcase'] at horder
        exact absurd hnode (horder.2 p pr hp)

/-- The process at the end of the spine forks. -/
theorem Inv.fork {child : Proc α} (hnode : pr.node = spine i) (hi : i + 1 = s.npipe)
    (hnode' : pr'.node = spine i) (hloc : Local argvs pr') (hchild : Local argvs child)
    (hvacant : s.Vacant child.node) (hspine : ∀ j, child.node = spine j → j = s.npipe)
    (hleaf : ∀ j, child.node = leaf j → j < s.npipe) (hrun : ∃ c, child.next = .run c)
    (horder : ∀ t : State α, t.npipe = s.npipe → (∀ node, s.Vacant node →
      node ≠ child.node → t.Vacant node) → Ordered t pr') :
    Inv argvs (s.fork p pr' child) := by
  have hfresh := h.fresh s.nproc le_rfl
  have hpne : p ≠ s.nproc := by
    rintro rfl
    exact absurd (hfresh.symm.trans hp) (by simp)
  have hcase : ∀ q b, (s.fork p pr' child).procs q = some b →
      (q = s.nproc ∧ b = child) ∨ (q = p ∧ b = pr') ∨
        (q ≠ p ∧ q ≠ s.nproc ∧ s.procs q = some b) := by
    intro q b hb
    change update (update s.procs p (some pr')) s.nproc (some child) q = some b at hb
    rw [update_apply, update_apply] at hb
    split at hb
    next heq =>
      cases hb
      exact Or.inl ⟨heq, rfl⟩
    next hne =>
      split at hb
      next heq =>
        cases hb
        exact Or.inr (Or.inl ⟨heq, rfl⟩)
      next hne' => exact Or.inr (Or.inr ⟨hne', hne, hb⟩)
  have hold : ∀ q b, (s.fork p pr' child).procs q = some b →
      (q = s.nproc ∧ b = child) ∨ ∃ a, s.procs q = some a ∧ b.node = a.node := by
    intro q b hb
    rcases hcase q b hb with hb | ⟨rfl, rfl⟩ | ⟨-, -, hb⟩
    · exact Or.inl hb
    · exact Or.inr ⟨pr, hp, hnode'.trans hnode.symm⟩
    · exact Or.inr ⟨b, hb, rfl⟩
  have hvac : ∀ node, s.Vacant node → node ≠ child.node → (s.fork p pr' child).Vacant node := by
    intro node hs hne q b hb heq
    rcases hold q b hb with ⟨-, rfl⟩ | ⟨a, ha, hab⟩
    · exact hne heq.symm
    · exact hs q a ha (hab.symm.trans heq)
  refine ⟨fun q b hb => ?_, fun q r b c hb hc hbc => ?_, fun q hq => ?_,
    fun q b j hb hj => ?_, fun q b j hb hj => ?_, fun q b hb => ?_⟩
  · rcases hcase q b hb with ⟨-, rfl⟩ | ⟨-, rfl⟩ | ⟨-, -, hb⟩
    · exact hchild
    · exact hloc
    · exact h.loc q b hb
  · rcases hold q b hb with ⟨rfl, rfl⟩ | ⟨a, ha, hab⟩
    · rcases hold r c hc with ⟨rfl, -⟩ | ⟨a', ha', hab'⟩
      · rfl
      · exact absurd (hab'.symm.trans hbc.symm) (hvacant r a' ha')
    · rcases hold r c hc with ⟨rfl, rfl⟩ | ⟨a', ha', hab'⟩
      · exact absurd (hab.symm.trans hbc) (hvacant q a ha)
      · exact h.uniq q r a a' ha ha' (hab.symm.trans (hbc.trans hab'))
  · refine eq_none_iff_forall_not_mem.mpr fun b hb => ?_
    have hlt : s.nproc < q := hq
    rcases hold q b hb with ⟨rfl, -⟩ | ⟨a, ha, -⟩
    · exact absurd hlt (Nat.lt_irrefl _)
    · exact absurd ((h.fresh q hlt.le).symm.trans ha) (by simp)
  · rcases hold q b hb with ⟨-, rfl⟩ | ⟨a, ha, hab⟩
    · exact (hspine j hj).le
    · exact h.spineLe q a j ha (hab.symm.trans hj)
  · rcases hold q b hb with ⟨-, rfl⟩ | ⟨a, ha, hab⟩
    · exact hleaf j hj
    · exact h.leafLt q a j ha (hab.symm.trans hj)
  · rcases hcase q b hb with ⟨-, rfl⟩ | ⟨-, rfl⟩ | ⟨hne, -, hb⟩
    · intro j hj
      obtain ⟨c, hc⟩ := hrun
      rw [hc]
      exact hspine j hj
    · exact horder _ rfl hvac
    · intro j hj
      have hord := h.order q b hb j hj
      -- Two processes between their pipe and their forks would be at one node.
      have hsame : j + 1 ≠ s.npipe := by
        intro hk
        refine hne (h.uniq q p b pr hb hp ?_)
        rw [hj, hnode, Nat.succ.inj (hk.trans hi.symm)]
      cases hcase' : b.next with
      | wait | running | zombie => trivial
      | run =>
        rw [hcase'] at hord
        exact hord
      | forkLeft =>
        rw [hcase'] at hord
        exact absurd hord.1 hsame
      | forkRight =>
        rw [hcase'] at hord
        exact absurd hord.1 hsame

end

/-! ## Steps -/

theorem pipeline_drop_of_lt (hi : i + 1 < argvs.length) : ∃ argv, argvs[i]? = some argv ∧
      pipeline (argvs.drop i) = .pipe (.exec argv) (pipeline (argvs.drop (i + 1))) := by
  have hlt : i < argvs.length := (Nat.lt_succ_self i).trans hi
  refine ⟨argvs[i], getElem?_eq_getElem hlt, ?_⟩
  rw [drop_eq_getElem_cons hlt, drop_eq_getElem_cons hi]
  rfl

theorem pipeline_drop_last (hi : i + 1 = argvs.length) :
    ∃ argv, argvs[i]? = some argv ∧ pipeline (argvs.drop i) = .exec argv := by
  have hlt : i < argvs.length := by omega
  refine ⟨argvs[i], getElem?_eq_getElem hlt, ?_⟩
  rw [drop_eq_getElem_cons hlt, drop_eq_nil_of_le hi.ge]
  rfl

section

variable (h : Inv argvs s) (hp : s.procs p = some pr)

include h hp

/-- A process that has come to its command executes it or exits. -/
theorem Inv.exec {argv : List α} (hi : i < argvs.length)
    (hnode : pr.node = cmdNode argvs.length i) (hargv : argvs[i]? = some argv)
    (hcalls : pr.calls = [])
    (hfds : pr.fds = if i + 1 = argvs.length then spineFds i else leftFds i) (ok : Bool) :
    Inv argvs (s.runcmd p pr ok (.exec argv)) := by
  have hrun : Inv argvs (s.set p { pr with next := .running argv }) :=
    h.set hp rfl (.running i argv hi hnode hargv hcalls rfl hfds) (Or.inr trivial)
  cases argv with
  | nil => exact h.exit hp
  | cons a as =>
    cases ok with
    | false => exact h.exit hp
    | true => exact hrun

theorem Inv.run (hi : i < argvs.length) (hnode : pr.node = spine i)
    (hnext : pr.next = .run (pipeline (argvs.drop i))) (hcalls : pr.calls = [])
    (hfds : pr.fds = spineFds i) (ok : Bool) :
    Inv argvs (s.runcmd p pr ok (pipeline (argvs.drop i))) := by
  by_cases hlast : i + 1 = argvs.length
  · obtain ⟨argv, hargv, heq⟩ := pipeline_drop_last hlast
    rw [heq]
    refine h.exec hp hi ?_ hargv hcalls ?_ ok
    · rw [cmdNode, if_pos hlast, hnode]
    · rw [if_pos hlast, hfds]
  · have hlt : i + 1 < argvs.length := by omega
    obtain ⟨argv, hargv, heq⟩ := pipeline_drop_of_lt hlt
    have hcount : i = s.npipe := by
      have horder := h.order p pr hp i hnode
      rw [hnext] at horder
      exact horder
    subst hcount
    rw [heq]
    unfold State.runcmd
    rw [hfds, pipe_spineFds]
    exact h.pipe hp hnode rfl hnode (.forkLeft s.npipe argv hlt hnode hargv hcalls rfl rfl) rfl

theorem Inv.proceed (hcalls : pr.calls = []) {ok : Bool}
    (hstep : s.proceed p pr ok = some t) : Inv argvs t := by
  unfold State.proceed at hstep
  cases h.loc p pr hp with
  | run i hi hnode hnext hplain hfds =>
    rw [settled_of_nil hcalls] at hfds
    rw [hnext] at hstep
    cases hstep
    exact h.run hp hi hnode hnext hcalls hfds ok
  | left i argv hi hnode hargv hnext hplain hfds =>
    rw [settled_of_nil hcalls] at hfds
    rw [hnext] at hstep
    cases hstep
    refine h.exec hp (by omega) ?_ hargv hcalls ?_ ok
    · rw [cmdNode, if_neg hi.ne, hnode]
    · rw [if_neg hi.ne, hfds]
  | forkLeft i argv hi hnode hargv _ hfds hnext =>
    rw [hnext] at hstep
    cases hstep
    have horder := h.order p pr hp i hnode
    rw [hnext] at horder
    obtain ⟨hcount, hspine, hleaf⟩ := horder
    have hchild : (pr.child p false [.close 1, .dup 4, .close 3, .close 4]
        (.exec argv)).node = leaf i := by
      rw [leaf, ← hnode]
      rfl
    refine h.fork hp hnode hcount hnode (.forkRight i hi hnode hcalls hfds rfl)
      (.left i argv hi hchild hargv rfl ?_ ?_) ?_ ?_ ?_ ⟨_, rfl⟩ ?_
    · simp [Plain, Proc.child]
    · change [Call.close 1, .dup 4, .close 3, .close 4].foldl Call.apply pr.fds = _
      rw [hfds, settle_left]
    · rw [hchild]
      exact hleaf
    · intro j hj
      exact absurd (hchild.symm.trans hj) (leaf_ne_spine i j)
    · intro j hj
      rw [← leaf_inj (hchild.symm.trans hj)]
      omega
    · intro t hpipe hvacant j hj
      obtain rfl := spine_inj (hj.symm.trans hnode)
      refine ⟨hcount.trans hpipe.symm, ?_⟩
      rw [hpipe]
      refine hvacant _ hspine ?_
      rw [hchild]
      exact (leaf_ne_spine _ _).symm
  | forkRight i hi hnode _ hfds hnext =>
    rw [hnext] at hstep
    cases hstep
    have horder := h.order p pr hp i hnode
    rw [hnext] at horder
    obtain ⟨hcount, hspine⟩ := horder
    have hchild : (pr.child p true [.close 0, .dup 3, .close 3, .close 4]
        (pipeline (argvs.drop (i + 1)))).node = spine (i + 1) := by
      rw [spine_succ, ← hnode]
      rfl
    refine h.fork hp hnode hcount hnode (.wait i 2 hi hnode rfl ?_ ?_)
      (.run (i + 1) hi hchild rfl ?_ ?_) ?_ ?_ ?_ ⟨_, rfl⟩
      fun _ _ _ => ordered_of_late trivial
    · simp [Plain]
    · change [Call.close 3, .close 4].foldl Call.apply pr.fds = _
      rw [hfds, settle_parent]
    · simp [Plain, Proc.child]
    · change [Call.close 0, .dup 3, .close 3, .close 4].foldl Call.apply pr.fds = _
      rw [hfds, settle_right]
    · rw [hchild, hcount]
      exact hspine
    · intro j hj
      rw [← spine_inj (hchild.symm.trans hj), hcount]
    · intro j hj
      exact absurd (hj.symm.trans hchild) (leaf_ne_spine _ _)
  | wait i k hi hnode hnext hplain hfds =>
    rw [hnext] at hstep
    cases k with
    | zero =>
      cases hstep
      exact h.exit hp
    | succ k =>
      dsimp only at hstep
      split at hstep
      · cases hstep
        exact h.set hp rfl (.wait i k hi hnode rfl hplain hfds) (Or.inr trivial)
      · cases hstep
  | running i argv hi hnode hargv _ hnext hfds =>
    rw [hnext] at hstep
    cases hstep
  | zombie _ hnext _ =>
    rw [hnext] at hstep
    cases hstep

/-- `wait` takes the child away. -/
theorem Inv.reap {after : Option (Cmd α)} (hnext : pr.next = .wait (k + 1) after) (q : ℕ) :
    Inv argvs { s with
      procs := update (update s.procs p (some { pr with next := .wait k after })) q none } := by
  have hloc : Local argvs { pr with next := .wait k after } := by
    cases h.loc p pr hp with
    | wait i k' hi hnode hnext' hplain hfds =>
      cases hnext.symm.trans hnext'
      exact .wait i k hi hnode rfl hplain hfds
    | run _ _ _ hnext' | left _ _ _ _ _ hnext' | forkLeft _ _ _ _ _ _ _ hnext'
    | forkRight _ _ _ _ _ hnext' | running _ _ _ _ _ _ hnext' | zombie _ hnext' =>
      exact absurd (hnext.symm.trans hnext') (by simp)
  refine h.later (fun r b hb => ?_) rfl rfl
  dsimp only at hb
  rw [update_apply, update_apply] at hb
  split at hb
  · cases hb
  split at hb
  next heq =>
    cases hb
    exact ⟨pr, heq ▸ hp, rfl, hloc, Or.inr trivial⟩
  next => exact ⟨b, hb, rfl, h.loc r b hb, Or.inl rfl⟩

end

theorem Inv.step {e : Event} (h : Inv argvs s) (hstep : step s e = some t) : Inv argvs t := by
  unfold Shell.step at hstep
  split at hstep
  next p ok =>
    split at hstep
    next => cases hstep
    next pr hp =>
      split at hstep
      next hcalls => exact h.proceed hp hcalls hstep
      next c rest hcalls =>
        cases hstep
        obtain ⟨hloc, hnode, hnext⟩ := (h.loc p pr hp).call hcalls ok
        exact h.set hp hnode hloc (Or.inl hnext)
  next p q =>
    split at hstep
    next pr c hp hq =>
      split at hstep
      next k after _ hnext _ =>
        split at hstep
        · cases hstep
          exact h.reap hp hnext q
        · cases hstep
      next => cases hstep
    next => cases hstep
  next p =>
    split at hstep
    next => cases hstep
    next pr hp =>
      split at hstep
      next =>
        cases hstep
        exact h.exit hp
      next => cases hstep

theorem inv_start (hn : argvs ≠ []) : Inv argvs (start (pipeline argvs)) := by
  have hpos := length_pos_of_ne_nil hn
  have hcase : ∀ p pr, (start (pipeline argvs)).procs p = some pr →
      p = 0 ∧ pr = ⟨none, [], [], .run (pipeline argvs), shellFds α⟩ := by
    intro p pr hp
    simp only [start] at hp
    split at hp
    next heq => exact ⟨heq, (some.inj hp).symm⟩
    next => cases hp
  refine ⟨fun p pr hp => ?_, fun p q a b ha hb _ => ?_, fun p hp => ?_,
    fun p pr i hp hi => ?_, fun p pr i hp hi => ?_, fun p pr hp i hi => ?_⟩
  · obtain ⟨-, rfl⟩ := hcase p pr hp
    exact .run 0 hpos rfl rfl (by simp [Plain]) shellFds_eq
  · rw [(hcase p a ha).1, (hcase q b hb).1]
  · exact if_neg (Nat.one_le_iff_ne_zero.mp hp)
  · obtain ⟨-, rfl⟩ := hcase p pr hp
    rw [← spine_inj (i := 0) hi]
    exact Nat.zero_le _
  · obtain ⟨-, rfl⟩ := hcase p pr hp
    exact absurd hi.symm (leaf_ne_spine i 0)
  · obtain ⟨-, rfl⟩ := hcase p pr hp
    exact (spine_inj (i := 0) hi).symm

/-! ## What the commands see -/

/-- The process has come to `exec` for the command number `i`, or runs it. -/
def Executes (argvs : List (List α)) (i : ℕ) (pr : Proc α) : Prop :=
  pr.node = cmdNode argvs.length i ∧ pr.calls = [] ∧
    ∃ argv, argvs[i]? = some argv ∧ (pr.next = .run (.exec argv) ∨ pr.next = .running argv)

/-- The process has come to `exec` or to `wait`, or is gone. -/
def Started (pr : Proc α) : Prop :=
  pr.calls = [] ∧ match pr.next with
    | .run (.exec _) | .wait .. | .running _ | .zombie => True
    | .run _ | .forkLeft .. | .forkRight .. => False

/-- The descriptors of the command number `i` of `n`. -/
def cmdFds (n i : ℕ) : Fds α := if i + 1 = n then spineFds i else leftFds i

theorem cmdFds_eq (n i : ℕ) : cmdFds n i = table (some (input i))
      (some (if i + 1 = n then .shell 1 else .writeEnd i : File α)) (some (.shell 2))
      none none := by
  unfold cmdFds
  split <;> rfl

theorem Executes.started (h : Executes argvs i pr) : Started pr := by
  obtain ⟨-, hcalls, argv, -, hnext | hnext⟩ := h
  · exact ⟨hcalls, by rw [hnext]; trivial⟩
  · exact ⟨hcalls, by rw [hnext]; trivial⟩

/-- A process that has been started executes a command, or has no end of a pipe that
it could write to. -/
theorem Local.started (h : Local argvs pr) (hs : Started pr) :
    (∃ i, Executes argvs i pr ∧ pr.fds = cmdFds argvs.length i) ∨
      (∀ fd k, pr.fds fd ≠ some (.writeEnd k)) ∧ ∀ i, ¬ Executes argvs i pr := by
  obtain ⟨hcalls, hnext'⟩ := hs
  cases h with
  | run i hi hnode hnext hplain hfds =>
    rw [settled_of_nil hcalls] at hfds
    by_cases hlast : i + 1 = argvs.length
    · obtain ⟨argv, hargv, heq⟩ := pipeline_drop_last hlast
      rw [heq] at hnext
      refine Or.inl ⟨i, ⟨?_, hcalls, argv, hargv, Or.inl hnext⟩, ?_⟩
      · rw [cmdNode, if_pos hlast, hnode]
      · rw [cmdFds, if_pos hlast, hfds]
    · have hlt : i + 1 < argvs.length := by omega
      obtain ⟨argv, hargv, heq⟩ := pipeline_drop_of_lt hlt
      rw [hnext, heq] at hnext'
      exact hnext'.elim
  | left i argv hi hnode hargv hnext hplain hfds =>
    rw [settled_of_nil hcalls] at hfds
    refine Or.inl ⟨i, ⟨?_, hcalls, argv, hargv, Or.inl hnext⟩, ?_⟩
    · rw [cmdNode, if_neg hi.ne, hnode]
    · rw [cmdFds, if_neg hi.ne, hfds]
  | running i argv hi hnode hargv _ hnext hfds =>
    exact Or.inl ⟨i, ⟨hnode, hcalls, argv, hargv, Or.inr hnext⟩, hfds⟩
  | forkLeft _ _ _ _ _ _ _ hnext | forkRight _ _ _ _ _ hnext =>
    rw [hnext] at hnext'
    exact hnext'.elim
  | wait i k hi hnode hnext hplain hfds =>
    rw [settled_of_nil hcalls] at hfds
    refine Or.inr ⟨fun fd k => ?_, ?_⟩
    · rw [hfds]
      rcases fd with _ | _ | _ | _ | _ | fd
      · cases i <;> simp [spineFds, table, input]
      all_goals simp [spineFds, table]
    · rintro j ⟨-, -, argv, -, hexec | hexec⟩
      · exact absurd (hnext.symm.trans hexec) (by simp)
      · exact absurd (hnext.symm.trans hexec) (by simp)
  | zombie _ hnext hfds =>
    refine Or.inr ⟨fun fd k => by simp [hfds], ?_⟩
    rintro j ⟨-, -, argv, -, hexec | hexec⟩
    · exact absurd (hnext.symm.trans hexec) (by simp)
    · exact absurd (hnext.symm.trans hexec) (by simp)

theorem cmdNode_inj (h : cmdNode n i = cmdNode n j) : i = j := by
  unfold cmdNode at h
  split at h
  next hi =>
    split at h
    next hj => omega
    next => exact absurd h.symm (leaf_ne_spine j i)
  next hi =>
    split at h
    next => exact absurd h (leaf_ne_spine i j)
    next => exact leaf_inj h

theorem Local.fds_of_executes (h : Local argvs pr) (he : Executes argvs i pr) :
    pr.fds = cmdFds argvs.length i := by
  rcases h.started he.started with ⟨j, hj, hfds⟩ | ⟨-, hnone⟩
  · rwa [← cmdNode_inj (he.1.symm.trans hj.1)] at hfds
  · exact absurd he (hnone i)

/-- Only the writing command has the end of the pipe that is written to. -/
theorem writeEnd_of_cmdFds {fd : ℕ} (h : cmdFds (α := α) n i fd = some (.writeEnd k)) : k = i := by
  rw [cmdFds_eq] at h
  rcases fd with _ | _ | _ | _ | _ | fd
  · cases i <;> simp [table, input] at h
  · simp only [table] at h
    split at h
    · simp at h
    · simpa using h.symm
  all_goals simp [table] at h

/-- The set-up of a process is never blocked. -/
theorem step_isSome_of_not_started (h : Inv argvs s) (hp : s.procs p = some pr)
    (hs : ¬ Started pr) (ok : Bool) : (step s (.step p ok)).isSome := by
  simp only [Shell.step, hp]
  cases hcalls : pr.calls with
  | cons c rest => rfl
  | nil =>
    simp only [State.proceed]
    cases h.loc p pr hp with
    | run i hi hnode hnext hplain hfds =>
      rw [hnext]
      rfl
    | left i argv hi hnode hargv hnext hplain hfds =>
      rw [hnext]
      rfl
    | forkLeft _ _ _ _ _ _ _ hnext | forkRight _ _ _ _ _ hnext =>
      rw [hnext]
      rfl
    | wait _ _ _ _ hnext | running _ _ _ _ _ _ hnext | zombie _ hnext =>
      refine absurd ⟨hcalls, ?_⟩ hs
      rw [hnext]
      trivial

/-- The descriptors of the commands of a pipeline, and who has the ends of its pipes. -/
theorem pipeline_plumbing (hn : argvs ≠ []) (hs : (system (pipeline argvs)).Reachable s) :
    (∀ p pr i, s.procs p = some pr → Executes argvs i pr → (∀ fd, (pr.fds fd).isSome ↔ fd < 3) ∧
      pr.fds 0 = some (if i = 0 then .shell 0 else .readEnd (i - 1)) ∧
      pr.fds 1 = some (if i + 1 = argvs.length then .shell 1 else .writeEnd i) ∧
      pr.fds 2 = some (.shell 2)) ∧
    (∀ p q a b i, s.procs p = some a → s.procs q = some b → Executes argvs i a →
      Executes argvs i b → p = q) ∧
    (∀ p pr argv, s.procs p = some pr → pr.next = .running argv → ∃ i, Executes argvs i pr) ∧
    ∀ p pr fd i, s.procs p = some pr → pr.fds fd = some (.writeEnd i) →
      Executes argvs i pr ∨ ¬ Started pr ∧ ∀ ok, (step s (.step p ok)).isSome := by
  have hinv : Inv argvs s := by
    refine hs.invariant ?_ fun s e t hs hstep => hs.step hstep
    rintro _ rfl
    exact inv_start hn
  refine ⟨fun p pr i hp he => ?_, fun p q a b i ha hb he he' => ?_,
    fun p pr argv hp hnext => ?_, fun p pr fd i hp hfd => ?_⟩
  · rw [(hinv.loc p pr hp).fds_of_executes he, cmdFds_eq]
    refine ⟨fun fd => ?_, ?_, rfl, rfl⟩
    · rcases fd with _ | _ | _ | _ | _ | fd <;> simp [table]
    · cases i <;> rfl
  · exact hinv.uniq p q a b ha hb (he.1.trans he'.1.symm)
  · cases hinv.loc p pr hp with
    | running i argv' hi hnode hargv hcalls hnext' hfds =>
      exact ⟨i, hnode, hcalls, argv', hargv, Or.inr hnext'⟩
    | run _ _ _ hnext' | left _ _ _ _ _ hnext' | forkLeft _ _ _ _ _ _ _ hnext'
    | forkRight _ _ _ _ _ hnext' | wait _ _ _ _ hnext' | zombie _ hnext' =>
      exact absurd (hnext.symm.trans hnext') (by simp)
  · by_cases hstart : Started pr
    · refine Or.inl ?_
      rcases (hinv.loc p pr hp).started hstart with ⟨j, hj, hfds⟩ | ⟨hnone, -⟩
      · rw [hfds] at hfd
        rwa [writeEnd_of_cmdFds hfd]
      · exact absurd hfd (hnone fd i)
    · exact Or.inr ⟨hstart, step_isSome_of_not_started hinv hp hstart⟩

/-- Three commands. -/
def threeCmds : List (List ℕ) := [[0], [1], [2]]

/-- Every process goes on until it has been started. -/
def startAll : List Event := let steps (k p : ℕ) := replicate k (Event.step p true)
  steps 5 0 ++ steps 5 1 ++ steps 9 2 ++ steps 5 3 ++ steps 5 4

/-- The process runs the program at the node. -/
def Proc.runs (node : List Bool) (argv : List ℕ) (pr : Proc ℕ) : Bool :=
  match pr.next with
  | .running argv' => decide (pr.node = node ∧ pr.calls.length = 0 ∧ argv' = argv)
  | .run _ | .forkLeft .. | .forkRight .. | .wait .. | .zombie => false

theorem pipeline_plumbing_startAll :
    ∃ s pr, (system (pipeline threeCmds)).run (start (pipeline threeCmds)) startAll = some s ∧
      s.procs 3 = some pr ∧ Executes threeCmds 1 pr ∧
      pr.fds 0 = some (.readEnd 0) ∧ pr.fds 1 = some (.writeEnd 1) := by
  obtain ⟨s, hs, hruns⟩ :
      ∃ s, (system (pipeline threeCmds)).run (start (pipeline threeCmds)) startAll = some s
        ∧ (s.procs 3).any (Proc.runs (leaf 1) [1]) = true :=
    EventSystem.exists_of_any_run (by decide +kernel)
  obtain ⟨pr, hp, hpr⟩ := (Option.any_eq_true ..).mp hruns
  have he : Executes threeCmds 1 pr := by
    unfold Proc.runs at hpr
    split at hpr
    next argv hnext =>
      obtain ⟨hnode, hcalls, rfl⟩ := of_decide_eq_true hpr
      exact ⟨hnode, length_eq_zero_iff.mp hcalls, [1], rfl, Or.inr hnext⟩
    all_goals cases hpr
  have hn : threeCmds ≠ [] := by simp [threeCmds]
  obtain ⟨-, h₀, h₁, -⟩ := (pipeline_plumbing hn ⟨_, _, rfl, hs⟩).1 3 pr 1 hp he
  exact ⟨s, pr, hs, hp, he, h₀, h₁⟩

end OsCa.Shell
