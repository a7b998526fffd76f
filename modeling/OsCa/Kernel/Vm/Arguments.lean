import OsCa.Kernel.Vm.Copy
import OsCa.Kernel.Vm.Grow

/-!
# The arguments of a new program

The part of `exec` in `kernel/exec.c` that pushes the argument strings and the array of
pointers to them on the user stack, after the image has been loaded.  A string is the list
of its bytes before the `NUL`.

The subtraction `minus` of two `uint64`s is a parameter: the code does the same with every
subtraction that is right as long as it does not underflow.
-/

namespace OsCa.Vm

open Bytes OsCa.Action List
open Fs (PGSIZE)

def MAXARG : ℕ := 32

/-- `a - b` for `uint64`s. -/
def minus64 (a b : ℕ) : ℕ := (a + 2 ^ 64 - b) % 2 ^ 64

section Code

variable (minus : ℕ → ℕ → ℕ) (pagetable : Addr)

/-- Push `n` bytes; `none` is the jump to `bad`. -/
def push (stackbase sp n : ℕ) (src : ℕ → Byte) : M (Option ℕ) := let sp := minus sp n
  -- riscv sp must be 16-byte aligned
  let sp := sp - sp % 16
  if sp < stackbase then
    return none
  else do
    let r ← copyout pagetable sp src n
    if r < 0 then return none else return some sp

/-- The loop over `argv`, where `argc` is the length of `ustack`. -/
def pushStrings (stackbase : ℕ) : List (List Byte) → ℕ → List ℕ → M (Option (ℕ × List ℕ))
  | [], sp, ustack => return some (sp, ustack)
  | arg :: argv, sp, ustack =>
    if ustack.length ≥ MAXARG then
      return none
    else do
      match ← push minus pagetable stackbase sp (arg.length + 1) fun i => arg.getD i 0 with
      | none => return none
      | some sp => pushStrings stackbase argv sp (ustack ++ [sp])

/-- A byte of an array of `uint64`s. -/
def wordByte (l : List ℕ) (i : ℕ) : Byte := BitVec.ofNat 8 (l.getD (i / 8) 0 / 256 ^ (i % 8))

/-- From `sp = sz` on.  The result is `argc`, which `exec` returns, and `sp`, which goes to
`a1`; `none` is the jump to `bad`. -/
def pushArguments (sz : ℕ) (argv : List (List Byte)) : M (Option (ℕ × ℕ)) := do
  let stackbase := minus sz PGSIZE
  match ← pushStrings minus pagetable stackbase argv sz [] with
  | none => return none
  | some (sp, ustack) =>
    match ← push minus pagetable stackbase sp ((ustack.length + 1) * 8)
        (wordByte (ustack ++ [0])) with
    | none => return none
    | some sp => return some (ustack.length, sp)

end Code

/-- The subtraction is right if it does not underflow. -/
def Exact64 (minus : ℕ → ℕ → ℕ) : Prop := ∀ a b, b ≤ a → a < 2 ^ 64 → minus a b = a - b

theorem exact_minus64 : Exact64 minus64 := by
  intro a b hle hlt
  unfold minus64
  omega

/-- `n` rounded up to a multiple of 16. -/
def round16 (n : ℕ) : ℕ := (n + 15) / 16 * 16

/-- The room that the strings take on the stack. -/
def room (argv : List (List Byte)) : ℕ := (argv.map fun arg => round16 (arg.length + 1)).sum

/-- The number in the 8 bytes from a user address on. -/
def userWord (s : Machine) (root : Addr) (va : ℕ) : ℕ :=
  peekLE (fun j : Fin 8 => userByte s root (va + j)) 0 8

variable {s t : Machine} {root : Addr} {base sp n va k : ℕ} {src : ℕ → Byte}

/-! ## User memory -/

theorem Stored.userByte_ne {x : ℕ} (h : Stored root s t va src k) (hs : UserMap s root)
    (hx : x < va ∨ va + k ≤ x) : userByte t root x = userByte s root x := by
  rw [userByte, userByte, h.userFrame_eq hs]
  cases ha : userFrame s root (x / PGSIZE) with
  | none => rfl
  | some a =>
    refine h.miss a _ fun i hi hframe hmod => ?_
    have hpage := hs.inj _ _ _ ha hframe
    unfold Fs.PGSIZE at hpage hmod
    omega

theorem userWord_eq {l : List ℕ} {i : ℕ} (hi : i < l.length) (hlt : ∀ p ∈ l, p < 2 ^ 64)
    (h : ∀ j < l.length * 8, userByte s root (va + j) = wordByte l j) :
    userWord s root (va + 8 * i) = l.getD i 0 := by
  have hsmall : l.getD i 0 < 2 ^ 64 := by
    rw [getD_eq_getElem l 0 hi]
    exact hlt _ (getElem_mem hi)
  refine (peekLE_of_digits fun j hj => ?_).trans (Nat.mod_eq_of_lt hsmall)
  have hbyte := h (8 * i + j) (by omega)
  rw [wordByte, show (8 * i + j) / 8 = i by omega, show (8 * i + j) % 8 = j by omega] at hbyte
  rw [← hbyte, Nat.zero_add, peek, dif_pos hj, Nat.add_assoc]

/-! ## Pushing -/

/-- The page from `base` on is the stack, and there is a page below it. -/
structure Stack (s : Machine) (root : Addr) (base : ℕ) : Prop where
  map : UserMap s root
  aligned : 16 ∣ base
  above : PGSIZE ≤ base
  below : base + PGSIZE ≤ MAXVA
  accessible : ∀ i < PGSIZE, Accessible s root (base + i)

theorem Stack.stored (h : Stack s root base) (hst : Stored root s t va src k) :
    Stack t root base := by
  refine ⟨hst.userMap h.map, h.aligned, h.above, h.below, fun i hi => ?_⟩
  rw [Accessible, hst.userFrame_eq h.map]
  exact h.accessible i hi

theorem push_spec (src : ℕ → Byte) (h : Stack s root base) (hsp : 16 ∣ sp)
    (hlo : base ≤ sp) (hhi : sp ≤ base + PGSIZE) (hn : n ≤ PGSIZE) :
    ∃ r t, (∀ minus, Exact64 minus → push minus root base sp n src s = .ok (r, t)) ∧
      (r = none ∧ sp < base + round16 n ∨
        ∃ p, r = some p ∧ p + round16 n = sp ∧ base ≤ p ∧ Stored root s t p src n) := by
  have hmax : base + PGSIZE ≤ 274877906944 := h.below
  have habove := h.above
  have hpage : PGSIZE = 4096 := rfl
  have hround : sp - n - (sp - n) % 16 = sp - round16 n := by
    unfold round16
    omega
  have hpush : ∀ minus, Exact64 minus → push minus root base sp n src s =
      (if sp - round16 n < base then return none else do
        let r ← copyout root (sp - round16 n) src n
        if r < 0 then return none else return some (sp - round16 n) : M (Option ℕ)) s := by
    intro minus hminus
    rw [push, hminus sp n (by omega) (by omega), hround]
  by_cases hroom : sp - round16 n < base
  · refine ⟨none, s, fun minus hminus => ?_, Or.inl ⟨rfl, by omega⟩⟩
    rw [hpush minus hminus, if_pos hroom]
    rfl
  · have hle : n ≤ round16 n := by
      unfold round16
      omega
    obtain ⟨r, t, k, hrun, hst, hends⟩ :=
      @copyoutLoop_spec s root (sp - round16 n) n n src h.map le_rfl
    have hacc : ∀ i < n, Accessible s root (sp - round16 n + i) := fun i hi => by
      rw [show sp - round16 n + i = base + (sp - round16 n + i - base) by omega]
      exact h.accessible _ (by omega)
    rcases hends with ⟨rfl, rfl, -⟩ | ⟨-, hk, -, hnot⟩
    · refine ⟨some (sp - round16 k), t, fun minus hminus => ?_,
        Or.inr ⟨_, rfl, by omega, by omega, hst⟩⟩
      rw [hpush minus hminus, if_neg hroom]
      exact bind_of_ok hrun
    · exact absurd (hacc k hk) hnot

/-- Where the strings are: from `hi` down to `lo`, each below the one before it. -/
structure Placed (s : Machine) (root : Addr) (lo hi : ℕ) (argv : List (List Byte))
    (ps : List ℕ) : Prop where
  length : ps.length = argv.length
  sum : lo + room argv = hi
  aligned : 16 ∣ lo
  bound : ∀ p ∈ ps, p ≤ hi
  order : (argv.zip ps).Pairwise fun x y => y.2 + y.1.length < x.2
  place : ∀ x ∈ argv.zip ps, 16 ∣ x.2 ∧ lo ≤ x.2 ∧ x.2 + x.1.length < hi ∧
    ∀ j ≤ x.1.length, userByte s root (x.2 + j) = x.1.getD j 0

theorem pushStrings_spec {argv : List (List Byte)} (ustack : List ℕ) (h : Stack s root base)
    (hsp : 16 ∣ sp) (hlo : base ≤ sp) (hhi : sp ≤ base + PGSIZE)
    (hargs : ∀ arg ∈ argv, arg.length ≤ 4095) (hargc : ustack.length + argv.length ≤ MAXARG) :
    ∃ r t, (∀ minus, Exact64 minus → pushStrings minus root base argv sp ustack s = .ok (r, t)) ∧
      (r = none ∧ sp < base + room argv ∨
        ∃ p ps, r = some (p, ustack ++ ps) ∧ base ≤ p ∧ Stack t root base ∧
          Placed t root p sp argv ps ∧ ∀ x, sp ≤ x → userByte t root x = userByte s root x) := by
  induction argv generalizing s sp ustack with
  | nil =>
    refine ⟨_, s, fun _ _ => rfl, Or.inr ⟨sp, [], by rw [append_nil], hlo, h, ?_, fun _ _ => rfl⟩⟩
    exact ⟨rfl, rfl, hsp, by simp, .nil, by simp⟩
  | cons arg argv ih =>
    rw [length_cons] at hargc
    have hroom : room (arg :: argv) = round16 (arg.length + 1) + room argv := by
      rw [room, map_cons, sum_cons]
      rfl
    have hlen : arg.length + 1 ≤ round16 (arg.length + 1) := by
      unfold round16
      omega
    have hguard : ¬ ustack.length ≥ MAXARG := by omega
    have harg : arg.length + 1 ≤ PGSIZE := Nat.succ_le_succ (hargs arg mem_cons_self)
    obtain ⟨r, u, hrun, hr⟩ := push_spec (fun i => arg.getD i 0) h hsp hlo hhi harg
    rcases hr with ⟨rfl, hfull⟩ | ⟨p, rfl, hp, hbase, hst⟩
    · refine ⟨none, u, fun minus hminus => ?_, Or.inl ⟨rfl, by omega⟩⟩
      rw [pushStrings, if_neg hguard, bind_of_ok (hrun minus hminus)]
      rfl
    have hp16 : 16 ∣ p := by
      unfold round16 at hp
      omega
    obtain ⟨r, t, hrest, hr⟩ := ih (ustack ++ [p]) (h.stored hst) hp16 hbase (by omega)
      (fun a ha => hargs a (mem_cons_of_mem _ ha)) (by simp; omega)
    refine ⟨r, t, fun minus hminus => ?_, ?_⟩
    · rw [pushStrings, if_neg hguard, bind_of_ok (hrun minus hminus)]
      exact hrest minus hminus
    rcases hr with ⟨rfl, hfull⟩ | ⟨q, ps, rfl, hq, hstack, hps, hsame⟩
    · exact Or.inl ⟨rfl, by omega⟩
    have hsum := hps.sum
    refine Or.inr ⟨q, p :: ps, by simp, hq, hstack, ⟨by simp [hps.length], by omega,
      hps.aligned, forall_mem_cons.mpr ⟨by omega, fun x hx => ?_⟩,
      pairwise_cons.mpr ⟨fun y hy => (hps.place y hy).2.2.1, hps.order⟩, fun x hx => ?_⟩,
      fun x hx => ?_⟩
    · exact (hps.bound x hx).trans (by omega)
    · rcases mem_cons.mp hx with rfl | hx
      · refine ⟨hp16, by omega, by dsimp only; omega, fun j hj => ?_⟩
        dsimp only at hj ⊢
        rw [hsame _ (by omega), hst.userByte_eq h.map (by omega)]
        rw [show p + j = base + (p + j - base) by omega]
        exact h.accessible _ (by omega)
      · obtain ⟨hdvd, hxlo, hxhi, hbytes⟩ := hps.place x hx
        exact ⟨hdvd, hxlo, by omega, hbytes⟩
    · rw [hsame x (by omega), hst.userByte_ne h.map (by omega)]

/-- Pushing the arguments of a program on its stack, the page below `sz`.  It fails if and
only if the strings with their `NUL`s and the array of pointers do not fit, each rounded up
to a multiple of 16.  Otherwise the array at `sp` has pointers to copies of the strings,
which are multiples of 16, and 0; the strings and the array do not overlap and are within
the page.  No subtraction underflows. -/
theorem exec_arguments {sz : ℕ} {argv : List (List Byte)} (h : Stack s root (sz - PGSIZE))
    (hargc : argv.length < MAXARG) (hargs : ∀ arg ∈ argv, arg.length ≤ 4095) :
    ∃ r t, pushArguments minus64 root sz argv s = .ok (r, t) ∧
      (∀ minus, Exact64 minus → pushArguments minus root sz argv s = .ok (r, t)) ∧
      (r = none ↔ PGSIZE < room argv + round16 (8 * (argv.length + 1))) ∧
      ∀ argc sp, r = some (argc, sp) → argc = argv.length ∧ 16 ∣ sp ∧ sz - PGSIZE ≤ sp ∧
        sp + 8 * (argv.length + 1) ≤ sz ∧ ∃ ps : List ℕ, ps.length = argv.length ∧
          (∀ i ≤ argv.length, userWord t root (sp + 8 * i) = (ps ++ [0]).getD i 0) ∧
          (argv.zip ps).Pairwise (fun x y => y.2 + y.1.length < x.2) ∧
          ∀ x ∈ argv.zip ps, 16 ∣ x.2 ∧ sp + 8 * (argv.length + 1) ≤ x.2 ∧
            x.2 + x.1.length < sz ∧ ∀ j ≤ x.1.length, userByte t root (x.2 + j) = x.1.getD j 0 := by
  have habove := h.above
  have hmax : sz - PGSIZE + PGSIZE ≤ 274877906944 := h.below
  have hargc' : argv.length < 32 := hargc
  have hpage : PGSIZE = 4096 := rfl
  have hsz : 16 ∣ sz := by
    have := h.aligned
    omega
  have hbase : ∀ minus, Exact64 minus → minus sz PGSIZE = sz - PGSIZE := fun minus hminus =>
    hminus sz PGSIZE (by omega) (by omega)
  suffices hall : ∃ r t, (∀ minus, Exact64 minus →
      pushArguments minus root sz argv s = .ok (r, t)) ∧ _ by
    obtain ⟨r, t, hrun, hres⟩ := hall
    exact ⟨r, t, hrun _ exact_minus64, hrun, hres⟩
  obtain ⟨r, u, hrun, hr⟩ := pushStrings_spec [] h hsz (by omega) (by omega) hargs
    (by simpa using hargc.le)
  rcases hr with ⟨rfl, hfull⟩ | ⟨p, ps, rfl, hp, hstack, hps, -⟩
  · refine ⟨none, u, fun minus hminus => ?_, iff_of_true rfl (by omega), by simp⟩
    rw [pushArguments, hbase minus hminus, bind_of_ok (hrun minus hminus)]
    rfl
  have hsum := hps.sum
  rw [nil_append] at hrun
  obtain ⟨r, t, hrun', hr⟩ := push_spec (n := (ps.length + 1) * 8)
    (wordByte (ps ++ [0])) hstack hps.aligned hp (by omega) (by rw [hps.length]; omega)
  rw [hps.length, Nat.mul_comm] at hr
  refine ⟨r.map (ps.length, ·), t, fun minus hminus => ?_, ?_, ?_⟩
  · rw [pushArguments, hbase minus hminus, bind_of_ok (hrun minus hminus)]
    refine (bind_of_ok (hrun' minus hminus)).trans ?_
    cases r <;> rfl
  · rcases hr with ⟨rfl, hfull⟩ | ⟨q, rfl, hq, hlo, -⟩
    · exact iff_of_true rfl (by omega)
    · exact iff_of_false (by simp) (by omega)
  · intro argc sp hsp
    rcases hr with ⟨rfl, -⟩ | ⟨q, rfl, hq, hlo, hst⟩
    · cases hsp
    obtain ⟨rfl, rfl⟩ : ps.length = argc ∧ q = sp := by simpa using hsp
    have hroom : 8 * (argv.length + 1) ≤ round16 (8 * (argv.length + 1)) := by
      unfold round16
      omega
    have halign := hps.aligned
    refine ⟨hps.length, by unfold round16 at hq; omega, hlo, by omega, ps, hps.length,
      fun i hi => ?_, hps.order, fun x hx => ?_⟩
    · have hbytes : ∀ j < (ps ++ [0]).length * 8,
          userByte t root (q + j) = wordByte (ps ++ [0]) j := fun j hj => by
        rw [length_append, length_singleton, hps.length] at hj
        refine hst.userByte_eq hstack.map (by omega) ?_
        rw [show q + j = sz - PGSIZE + (q + j - (sz - PGSIZE)) by omega]
        exact hstack.accessible _ (by omega)
      refine userWord_eq (by simp [hps.length]; omega) (fun p' hp' => ?_) hbytes
      rcases mem_append.mp hp' with hp' | hp'
      · exact (hps.bound p' hp').trans_lt (by omega)
      · rw [mem_singleton.mp hp']
        decide
    · obtain ⟨hdvd, hxlo, hxhi, hbytes⟩ := hps.place x hx
      refine ⟨hdvd, by omega, hxhi, fun j hj => ?_⟩
      rw [hst.userByte_ne hstack.map (by omega), hbytes j hj]

/-- A page table with one page for the user, the second. -/
theorem exists_stack : ∃ s, Stack s bareRoot (2 * PGSIZE - PGSIZE) := by
  have hbase : 2 * PGSIZE - PGSIZE = PGSIZE := rfl
  rw [hbase]
  have hspec : wp (mappages bareRoot (1 * PGSIZE) PGSIZE 0x1000 (PTE_R ||| PTE_W ||| PTE_U))
      bare _ fun _ => False := mappages_page_spec sound_bare (by decide) (lookup_bare 1)
  obtain ⟨r, s, hrun, new, hres⟩ := exists_of_wp hspec
  have hok : ((mappages bareRoot (1 * PGSIZE) PGSIZE 0x1000 (PTE_R ||| PTE_W ||| PTE_U)
      bare).toOption.any fun q => q.1 = 0) = true := by decide +kernel
  rw [hrun] at hok
  obtain rfl : r = 0 := of_decide_eq_true hok
  obtain ⟨-, hs⟩ : _ ∧ _ := hres.resolve_right (by simp)
  have hframe : ∀ v a, userFrame s bareRoot v = some a → v = 1 ∧ a = 0x1000 := by
    intro v a ha
    obtain ⟨hv, e, he, rfl, -⟩ := lookup_of_userFrame ha
    rw [hs.lookup v hv, Function.update_apply, lookup_bare] at he
    obtain ⟨hone, ⟨⟩⟩ := Option.ite_none_right_eq_some.mp he
    exact ⟨hone, by decide⟩
  refine ⟨s, ⟨fun v w a hv hw => ?_, fun v a hv => ?_, fun v a hv => ?_⟩, by decide, le_rfl,
    by decide, fun i hi => ?_⟩
  · rw [(hframe v a hv).1, (hframe w a hw).1]
  · rw [(hframe v a hv).2]
    decide
  · rw [(hframe v a hv).2, hs.tables]
    rintro (⟨p, -, hp⟩ | hnew)
    · exact absurd (descend_empty (next_bare _) hp).2 (by decide)
    · have hfree : (0x1000 : Addr) ∈ bare.freelist := hs.freelist ▸ mem_append_left _ hnew
      exact absurd hfree (by decide)
  · have hpage : (PGSIZE + i) / PGSIZE = 1 := by
      unfold Fs.PGSIZE at hi ⊢
      omega
    rw [Accessible, hpage, userFrame, hs.lookup 1 (by decide), Function.update_self]
    decide

theorem exec_arguments_two : ∃ s r t, Stack s bareRoot (2 * PGSIZE - PGSIZE) ∧
      pushArguments minus64 bareRoot (2 * PGSIZE) [[0x6c, 0x73], [0x61]] s = .ok (r, t) ∧
      r ≠ none := by
  obtain ⟨s, hs⟩ := exists_stack
  obtain ⟨r, t, hrun, -, hiff, -⟩ := @exec_arguments s bareRoot (2 * PGSIZE)
    [[0x6c, 0x73], [0x61]] hs (by decide) (by decide)
  exact ⟨s, r, t, hs, hrun, fun hnone => absurd (hiff.mp hnone) (by decide)⟩

end OsCa.Vm
