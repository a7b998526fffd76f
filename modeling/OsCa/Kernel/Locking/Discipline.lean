import OsCa.Kernel.Locking.Model

/-!
# The locks held by a process that goes to sleep

`sched` must be entered with `p->lock` and no other lock.  `sleep` releases the lock
it is given, so it may be called with that lock only.  `Owns me H c` says that the
process has exactly the locks `H` and has kept to this so far; there is one lemma for
each function of `spinlock.c` and `proc.c`, and one for each call.

`uartputc` keeps to it if its caller has no lock.  `consolewrite` calls it with
`cons.lock`, so there the test of the transmit buffer decides.
-/

namespace OsCa.Locking

open OsCa.Action List
open Process (NPROC)

variable {q : Question} {Q : Unit → Cpu → Prop} {other : Lock} {n : BitVec 32}

/-! ## What a process has done so far -/

/-- The process has slept with one lock only, and `uartputc` has not found the transmit
buffer full. -/
structure Clean (past : History) : Prop where
  sleeps : ∀ x ∈ past.sleeps, x.held = [x.lk]
  scheds : ∀ n ∈ past.scheds, n = 1
  quiet : (Question.uartFull, true) ∉ past.asked

/-- `uartputc` has found the transmit buffer full. -/
def Full (past : History) : Prop := (Question.uartFull, true) ∈ past.asked

/-- The process `me` is running, has the locks `H`, the last one first, and its past
is in `K`. -/
structure Owns (K : History → Prop) (me : Fin NPROC) (H : List Lock) (c : Cpu) :
    Prop where
  past : K c.toHistory
  me : c.me = me
  held : c.held = H
  noff : c.noff = H.length
  intr : H ≠ [] → c.intr = false
  running : c.running = true

/-- The call has stopped, and not in `sched`. -/
structure Halted (e : Stop × Cpu) : Prop where
  past : Clean e.2.toHistory
  panics : ∀ msg ∈ schedPanics, e.1 ≠ .panic msg

/-- The call has stopped in `sched`, after `uartputc` found the transmit buffer full. -/
structure Stuck (e : Stop × Cpu) : Prop where
  stop : e.1 = .panic "sched locks"
  full : Full e.2.toHistory

variable {K : History → Prop} {me : Fin NPROC} {H : List Lock} {c : Cpu} {lk : Lock}
variable {E : Stop × Cpu → Prop}

theorem Entry.owns (h : Entry c) : Owns Clean c.me [] c where
  past := ⟨by simp [h.sleeps], by simp [h.scheds], by simp [h.asked]⟩
  me := rfl
  held := h.held
  noff := h.noff
  intr := fun hne => absurd rfl hne
  running := h.running

theorem Owns.cut (h : Owns Clean me H c) : Halted (.cut, c) := ⟨h.past, by simp⟩

/-- A test leaves the locks as they are. -/
theorem wp_ask {Q : Bool → Cpu → Prop} (h : Owns K me H c) (hcut : E (.cut, c))
    (hQ : ∀ b t, t.toHistory = { c.toHistory with asked := c.asked ++ [(q, b)] } →
      (∀ L : History → Prop, L t.toHistory → Owns L me H t) → Q b t) :
    wp (ask q) c Q E := by
  refine wp_read_bind ?_
  cases ha : c.answers with
  | nil => exact wp_read_bind (wp_fail hcut)
  | cons b rest =>
    refine wp_update_bind (wp_pure (hQ b _ rfl ?_))
    exact fun L hL => ⟨hL, h.me, h.held, h.noff, h.intr, h.running⟩

theorem Clean.append_asked {past : History} {b : Bool} (h : Clean past)
    (hq : (q, b) ≠ (.uartFull, true)) :
    Clean { past with asked := past.asked ++ [(q, b)] } := by
  refine ⟨h.sleeps, h.scheds, fun hmem => ?_⟩
  rcases mem_append.mp hmem with hmem | hmem
  · exact h.quiet hmem
  · exact hq (mem_singleton.mp hmem).symm

theorem ask_spec (h : Owns Clean me H c) (hq : q ≠ .uartFull) :
    wp (ask q) c (fun _ t => Owns Clean me H t) Halted := by
  refine wp_ask h h.cut fun b t ht hown => hown Clean ?_
  rw [ht]
  exact h.past.append_asked fun heq => hq (Prod.mk.inj heq).1

/-- The answer to the test of the transmit buffer decides what is known of the past. -/
theorem askFull_spec (h : Owns Clean me H c) : wp (ask .uartFull) c
      (fun full t => if full then Owns Full me H t else Owns Clean me H t) Halted := by
  refine wp_ask h h.cut fun full t ht hown => ?_
  cases full with
  | true =>
    refine hown Full ?_
    rw [ht]
    exact mem_append_right _ (mem_singleton_self _)
  | false =>
    refine hown Clean ?_
    rw [ht]
    exact h.past.append_asked (by decide)

/-! ## Spinlocks -/

theorem acquire_spec (h : Owns K me H c) (hlk : lk ∉ H) :
    wp (acquire lk) c (fun _ t => Owns K me (lk :: H) t) E := by
  refine wp_update_bind (wp_read_bind (wp_ite (fun hheld => ?_) fun _ => ?_))
  · exact absurd (h.held ▸ hheld) hlk
  · refine wp_update ⟨h.past, h.me, ?_, ?_, fun _ => rfl, h.running⟩
    · exact congrArg (lk :: ·) h.held
    · exact congrArg (· + 1) h.noff

theorem release_spec (h : Owns K me H c) (hlk : lk ∈ H) :
    wp (release lk) c (fun _ t => Owns K me (H.erase lk) t) E := by
  have hne : H ≠ [] := ne_nil_of_mem hlk
  have hpos : 0 < H.length := length_pos_of_mem hlk
  have hlen : (H.erase lk).length = c.noff - 1 := by rw [length_erase_of_mem hlk, h.noff]
  refine wp_read_bind (wp_ite (fun hheld => ?_) fun _ => ?_)
  · exact absurd (h.held ▸ hlk) hheld
  refine wp_update_bind (wp_read_bind (wp_ite (fun hintr => ?_) fun _ => ?_))
  · exact absurd (hintr.symm.trans (h.intr hne)) (by decide)
  refine wp_ite (fun hoff => ?_) fun _ => ?_
  · have hoff' : c.noff < 1 := hoff
    rw [h.noff] at hoff'
    omega
  refine wp_update ⟨h.past, h.me, ?_, hlen.symm, ?_, h.running⟩
  · exact congrArg (·.erase lk) h.held
  · -- Interrupts stay off unless this was the last lock.
    intro herase
    have hleft : c.noff - 1 ≠ 0 := by
      rw [← hlen]
      exact fun h0 => herase (length_eq_zero_iff.mp h0)
    simp [hleft]

/-- The lock taken last is released. -/
theorem release_last (h : Owns K me (lk :: H) c) :
    wp (release lk) c (fun _ t => Owns K me H t) E := by
  have hspec := release_spec (E := E) h mem_cons_self
  rwa [erase_cons_head] at hspec

/-! ## Sleeping -/

theorem sched_spec (h : Owns Clean me [.proc me] c) :
    wp sched { c with running := false } (fun _ t => Owns Clean me [.proc me] t) E := by
  have hoff : c.noff = 1 := h.noff
  have hintr : c.intr = false := h.intr (cons_ne_nil _ _)
  refine wp_update_bind (wp_read_bind (wp_ite (fun hheld => ?_) fun _ => ?_))
  · exact absurd (by rw [h.held, h.me]; exact mem_singleton_self _) hheld
  refine wp_ite (fun hne => absurd hoff hne) fun _ => ?_
  refine wp_ite (fun hrun => absurd hrun Bool.false_ne_true) fun _ => ?_
  refine wp_ite (fun hon => absurd (hintr.symm.trans hon) Bool.false_ne_true) fun _ => ?_
  refine wp_update ⟨⟨h.past.sleeps, ?_, h.past.quiet⟩, h.me, h.held, h.noff, h.intr, rfl⟩
  intro n hn
  rcases mem_append.mp hn with hn | hn
  · exact h.past.scheds n hn
  · rw [mem_singleton.mp hn]
    exact hoff

/-- With a second lock, `sched` panics. -/
theorem sched_stuck (h : Owns Full me [.proc me, other] c) :
    wp sched { c with running := false } (fun _ _ => False) Stuck := by
  have hoff : c.noff = 2 := h.noff
  refine wp_update_bind (wp_read_bind (wp_ite (fun hheld => ?_) fun _ => ?_))
  · exact absurd (by rw [h.held, h.me]; exact mem_cons_self) hheld
  refine wp_ite (fun _ => ?_) fun hone => ?_
  · exact wp_read_bind (wp_fail ⟨rfl, h.past⟩)
  · exact absurd hoff (by rw [not_not.mp hone]; decide)

/-- `sleep` takes `p->lock` and releases the lock it is given, up to the call of
`sched`, whose result `S` it passes on. -/
theorem wp_sleep {S : Cpu → Prop} (h : Owns K me (lk :: H) c) (hlk : ∀ i, lk ≠ .proc i)
    (hH : Lock.proc me ∉ H) {L : History → Prop}
    (hL : L { c.toHistory with sleeps := c.sleeps ++ [⟨lk, c.held⟩] })
    (hsched : ∀ t, Owns L me (.proc me :: H) t →
      wp sched { t with running := false } (fun _ u => S u) E)
    (hback : ∀ t, S t → wp (release (.proc me) >>= fun _ => acquire lk) t Q E) :
    wp (sleep lk) c Q E := by
  have hrecord : Owns L me (lk :: H) { c with sleeps := c.sleeps ++ [⟨lk, c.held⟩] } :=
    ⟨hL, h.me, h.held, h.noff, h.intr, h.running⟩
  have hother : decide (lk ≠ .proc c.me) = true := decide_eq_true (hlk c.me)
  have hme : Lock.proc c.me = .proc me := congrArg Lock.proc h.me
  refine wp_update_bind (wp_read_bind ?_)
  change wp (when (decide (lk ≠ .proc c.me)) _ >>= _) _ _ _
  rw [hother]
  refine wp_bind (R := fun _ t => Owns L me (.proc me :: H) t) ?_ fun _ t ht => ?_
  · change wp (acquire (.proc c.me) >>= fun _ => release lk) _ _ _
    rw [hme]
    refine wp_bind (acquire_spec hrecord ?_) fun _ u hu => ?_
    · intro hmem
      rcases mem_cons.mp hmem with heq | hmem
      · exact hlk me heq.symm
      · exact hH hmem
    · have hmem : lk ∈ .proc me :: lk :: H := by simp
      have hspec := release_spec (E := E) hu hmem
      rwa [erase_cons_tail (by simpa using (hlk me).symm), erase_cons_head] at hspec
  refine wp_update_bind (wp_bind (hsched t ht) fun _ u hu => ?_)
  change wp (release (.proc c.me) >>= fun _ => acquire lk) _ _ _
  rw [hme]
  exact hback u hu

/-- A process that has no lock but `lk` may sleep with it, and has it again
afterwards. -/
theorem sleep_spec (h : Owns Clean me [lk] c) (hlk : ∀ i, lk ≠ .proc i) :
    wp (sleep lk) c (fun _ t => Owns Clean me [lk] t) E := by
  refine wp_sleep (L := Clean) (S := Owns Clean me [.proc me]) h hlk not_mem_nil
    ⟨?_, h.past.scheds, h.past.quiet⟩ (fun _ => sched_spec) fun t ht => ?_
  · intro x hx
    rcases mem_append.mp hx with hx | hx
    · exact h.past.sleeps x hx
    · rw [mem_singleton.mp hx]
      exact h.held
  · exact wp_bind (release_last ht) fun _ v hv => acquire_spec hv not_mem_nil

/-- A process that has another lock as well does not come back from `sleep`. -/
theorem sleep_stuck (h : Owns Full me [lk, other] c) (hlk : ∀ i, lk ≠ .proc i)
    (hother : other ≠ .proc me) : wp (sleep lk) c Q Stuck :=
  wp_sleep (S := fun _ => False) h hlk (fun hmem => hother (mem_singleton.mp hmem).symm) h.past
    (fun _ => sched_stuck) fun _ => False.elim

theorem wakeup_spec (h : Owns K me H c) (hH : ∀ i, Lock.proc i ∉ H) :
    wp wakeup c (fun _ t => Owns K me H t) E :=
  wp_forM (fun i _ _ hs => wp_bind (acquire_spec hs (hH i)) fun _ _ => release_last) h

/-! ## Loops -/

section Loops

/-- After a round that goes on `I` holds, after the last one `L`, and `R` if the call
returns from the loop. -/
def Round (I L R : Cpu → Prop) : Flow → Cpu → Prop
  | .next => I
  | .leave => L
  | .return => R

variable {I L R : Cpu → Prop} {body rest : Code Flow}

/-- A loop from which the call does not return ends where it is left. -/
theorem Round.of_leave {P : Cpu → Prop} {flow : Flow}
    (h : Round (fun _ => False) P (fun _ => False) flow c) : P c := by
  cases flow with
  | leave => exact h
  | next => exact h.elim
  | «return» => exact h.elim

theorem wp_whileLoop {fuel : ℕ} (hcut : ∀ s, I s → E (.cut, s))
    (hbody : ∀ s, I s → wp body s (Round I L R) E) (hc : I c) :
    wp (whileLoop fuel body) c (Round (fun _ => False) L R) E := by
  induction fuel generalizing c with
  | zero => exact wp_read_bind (wp_fail (hcut c hc))
  | succ fuel ih =>
    refine wp_bind (hbody c hc) fun flow t ht => ?_
    cases flow with
    | next => exact ih ht
    | leave => exact wp_pure ht
    | «return» => exact wp_pure ht

theorem wp_forLoop {n : ℕ} (hbody : ∀ s, I s → wp body s (Round I I R) E) (hc : I c) :
    wp (forLoop n body) c (Round (fun _ => False) I R) E := by
  induction n generalizing c with
  | zero => exact wp_pure hc
  | succ n ih =>
    refine wp_bind (hbody c hc) fun flow t ht => ?_
    cases flow with
    | next => exact ih ht
    | leave => exact wp_pure ht
    | «return» => exact wp_pure ht

theorem wp_after {x : Code Flow} {Q : Flow → Cpu → Prop}
    (hx : wp x c (Round (fun _ => False) L R) E) (hR : ∀ s, R s → Q .return s)
    (hrest : ∀ s, L s → wp rest s Q E) : wp (after x rest) c Q E := by
  refine wp_bind hx fun flow t ht => ?_
  cases flow with
  | next => exact ht.elim
  | leave => exact hrest t ht
  | «return» => exact wp_pure (hR t ht)

end Loops

/-! ## The calls -/

section Calls

variable {fuel : ℕ}

/-- A loop that is entered with the locks `H`. -/
theorem wp_wait {L R : Cpu → Prop} {body : Code Flow}
    (hbody : ∀ s, Owns Clean me H s → wp body s (Round (Owns Clean me H) L R) Halted)
    (h : Owns Clean me H c) :
    wp (whileLoop fuel body) c (Round (fun _ => False) L R) Halted :=
  wp_whileLoop (fun _ => Owns.cut) hbody h

/-- The same for a loop from which the call does not return. -/
theorem wp_loop {L : Cpu → Prop} {body : Code Flow} (hbody : ∀ s, Owns Clean me H s →
      wp body s (Round (Owns Clean me H) L fun _ => False) Halted)
    (h : Owns Clean me H c) : wp (whileLoop fuel body) c (fun _ t => L t) Halted :=
  wp_mono (wp_wait hbody h) fun _ _ => Round.of_leave

/-- A call goes one way or the other after a question. -/
theorem wp_test {α : Type} {P : Bool → Prop} [DecidablePred P] {x y : Code α}
    {Q : α → Cpu → Prop} (h : Owns Clean me H c) (hq : q ≠ .uartFull)
    (hx : ∀ t, Owns Clean me H t → wp x t Q Halted)
    (hy : ∀ t, Owns Clean me H t → wp y t Q Halted) :
    wp (ask q >>= fun b => if P b then x else y) c Q Halted :=
  wp_bind (ask_spec h hq) fun _ t ht => wp_ite (fun _ => hx t ht) fun _ => hy t ht

/-- A loop that sleeps with `lk` as long as `q` holds. -/
theorem wait_spec (hq : q ≠ .uartFull) (hlk : ∀ i, lk ≠ .proc i) (h : Owns Clean me [lk] c) :
    wp (whileLoop fuel do
      if !(← ask q) then return .leave
      sleep lk
      return .next) c (fun _ t => Owns Clean me [lk] t) Halted := by
  refine wp_loop (fun s hs => ?_) h
  refine wp_test hs hq (fun _ ht => wp_pure ht) fun t ht => ?_
  exact wp_bind (sleep_spec ht hlk) fun _ _ hu => wp_pure hu

/-- The end of a call that has only `lk`. -/
theorem leave_spec {Q : Flow → Cpu → Prop} (h : Owns Clean me [lk] c)
    (hQ : ∀ t, Owns Clean me [] t → Q .return t) :
    wp (release lk >>= fun _ => pure Flow.return) c Q E :=
  wp_bind (release_last h) fun _ t ht => wp_pure (hQ t ht)

section

variable (h : Owns Clean me [] c)

include h

theorem consoleread_spec : wp (consoleread fuel n) c (fun _ t => Owns Clean me [] t) Halted := by
  refine wp_bind (acquire_spec h not_mem_nil) fun _ s hs => ?_
  refine wp_after (R := Owns Clean me []) (wp_forLoop (fun t ht => ?_) hs) (fun _ => id)
    fun _ hu => leave_spec hu fun _ => id
  refine wp_after (L := Owns Clean me [.cons]) (R := Owns Clean me [])
    (wp_wait (fun u hu => ?_) ht) (fun _ => id) fun u hu => ?_
  · refine wp_test hu (by decide) (fun _ hv => wp_pure hv) fun v hv => ?_
    refine wp_test hv (by decide) (fun _ hw => leave_spec hw fun _ => id) fun w hw => ?_
    exact wp_bind (sleep_spec hw (by simp)) fun _ _ hx => wp_pure hx
  · refine wp_test hu (by decide) (fun _ hv => wp_pure hv) fun v hv => ?_
    refine wp_test hv (by decide) (fun _ hw => wp_pure hw) fun w hw => ?_
    exact wp_test hw (by decide) (fun _ hx => wp_pure hx) fun _ hx => wp_pure hx

theorem pipewrite_spec : wp (pipewrite fuel n) c (fun _ t => Owns Clean me [] t) Halted := by
  refine wp_bind (acquire_spec h not_mem_nil) fun _ s hs => ?_
  refine wp_after (R := Owns Clean me []) (wp_forLoop (fun t ht => ?_) hs) (fun _ => id)
    fun t ht => ?_
  · refine wp_after (L := Owns Clean me [.pipe]) (R := Owns Clean me [])
      (wp_wait (fun u hu => ?_) ht) (fun _ => id) fun u hu => ?_
    · refine wp_test hu (by decide) (fun _ hv => wp_pure hv) fun v hv => ?_
      refine wp_test hv (by decide) (fun _ hw => leave_spec hw fun _ => id) fun w hw => ?_
      refine wp_test hw (by decide) (fun _ hx => leave_spec hx fun _ => id) fun x hx => ?_
      refine wp_bind (wakeup_spec hx (by simp)) fun _ y hy => ?_
      exact wp_bind (sleep_spec hy (by simp)) fun _ _ hz => wp_pure hz
    · exact wp_test hu (by decide) (fun _ hv => wp_pure hv) fun _ hv => wp_pure hv
  · refine wp_bind (wakeup_spec ht (by simp)) fun _ u hu => ?_
    exact leave_spec hu fun _ => id

theorem piperead_spec : wp (piperead fuel n) c (fun _ t => Owns Clean me [] t) Halted := by
  refine wp_bind (acquire_spec h not_mem_nil) fun _ s hs => ?_
  refine wp_after (L := Owns Clean me [.pipe]) (R := Owns Clean me [])
    (wp_wait (fun t ht => ?_) hs) (fun _ => id) fun t ht => ?_
  · refine wp_test ht (by decide) (fun _ hu => wp_pure hu) fun u hu => ?_
    refine wp_test hu (by decide) (fun _ hv => wp_pure hv) fun v hv => ?_
    refine wp_test hv (by decide) (fun _ hw => leave_spec hw fun _ => id) fun w hw => ?_
    exact wp_bind (sleep_spec hw (by simp)) fun _ _ hx => wp_pure hx
  · have hloop : wp (forLoop (rounds n) do
          if ← ask .pipeEmpty then return .leave
          if !(← ask .copied) then return .leave
          return .next) t
        (Round (fun _ => False) (Owns Clean me [.pipe]) fun _ => False) Halted := by
      refine wp_forLoop (fun u hu => ?_) ht
      refine wp_test hu (by decide) (fun _ hv => wp_pure hv) fun v hv => ?_
      exact wp_test hv (by decide) (fun _ hw => wp_pure hw) fun _ hw => wp_pure hw
    refine wp_bind (wp_mono hloop fun _ _ => Round.of_leave) fun _ u hu => ?_
    refine wp_bind (wakeup_spec hu (by simp)) fun _ v hv => ?_
    exact leave_spec hv fun _ => id

theorem acquiresleep_spec : wp (acquiresleep fuel) c (fun _ t => Owns Clean me [] t) Halted := by
  refine wp_bind (acquire_spec h not_mem_nil) fun _ s hs => ?_
  refine wp_bind (wait_spec (by decide) (by simp) hs) fun _ t ht => ?_
  exact leave_spec ht fun _ => id

theorem beginOp_spec : wp (beginOp fuel) c (fun _ t => Owns Clean me [] t) Halted := by
  refine wp_bind (acquire_spec h not_mem_nil) fun _ s hs => ?_
  refine wp_loop (fun t ht => ?_) hs
  refine wp_test ht (by decide) (fun u hu => ?_) fun u hu => ?_
  · exact wp_bind (sleep_spec hu (by simp)) fun _ _ hv => wp_pure hv
  refine wp_test hu (by decide) (fun v hv => ?_) fun v hv => ?_
  · exact wp_bind (sleep_spec hv (by simp)) fun _ _ hw => wp_pure hw
  · exact wp_bind (release_last hv) fun _ _ hw => wp_pure hw

end

theorem freeDesc_spec (h : Owns Clean me [.vdisk] c) :
    wp freeDesc c (fun _ t => Owns Clean me [.vdisk] t) Halted := by
  refine wp_test h (by decide) (fun s hs => ?_) fun s hs => ?_
  · exact wp_read_bind (wp_fail ⟨hs.past, by simp [schedPanics]⟩)
  refine wp_test hs (by decide) (fun t ht => ?_) fun t ht => ?_
  · exact wp_read_bind (wp_fail ⟨ht.past, by simp [schedPanics]⟩)
  · exact wakeup_spec ht (by simp)

theorem alloc3Desc_spec (h : Owns Clean me [.vdisk] c) :
    wp alloc3Desc c (fun _ t => Owns Clean me [.vdisk] t) Halted := by
  refine wp_test h (by decide) (fun _ hs => wp_pure hs) fun s hs => ?_
  refine wp_test hs (by decide) (fun t ht => ?_) fun t ht => ?_
  · exact wp_bind (freeDesc_spec ht) fun _ _ hu => wp_pure hu
  refine wp_test ht (by decide) (fun u hu => ?_) fun u hu => ?_
  · refine wp_bind (freeDesc_spec hu) fun _ v hv => ?_
    exact wp_bind (freeDesc_spec hv) fun _ _ hw => wp_pure hw
  · exact wp_pure hu

theorem freeChain_spec (h : Owns Clean me [.vdisk] c) :
    wp (freeChain fuel) c (fun _ t => Owns Clean me [.vdisk] t) Halted := by
  refine wp_loop (fun s hs => ?_) h
  refine wp_bind (ask_spec hs (by decide)) fun _ t ht => ?_
  refine wp_bind (freeDesc_spec ht) fun _ u hu => ?_
  exact wp_ite (fun _ => wp_pure hu) fun _ => wp_pure hu

theorem virtioDiskRw_spec (h : Owns Clean me [] c) :
    wp (virtioDiskRw fuel) c (fun _ t => Owns Clean me [] t) Halted := by
  refine wp_bind (acquire_spec h not_mem_nil) fun _ s hs => ?_
  refine wp_bind (R := fun _ t => Owns Clean me [.vdisk] t)
    (wp_loop (fun t ht => ?_) hs) fun _ t ht => ?_
  · refine wp_bind (alloc3Desc_spec ht) fun _ u hu => ?_
    refine wp_ite (fun _ => wp_pure hu) fun _ => ?_
    exact wp_bind (sleep_spec hu (by simp)) fun _ _ hv => wp_pure hv
  refine wp_bind (wait_spec (by decide) (by simp) ht) fun _ u hu => ?_
  refine wp_bind (freeChain_spec hu) fun _ v hv => ?_
  exact leave_spec hv fun _ => id

/-! ## Writing to the console -/

theorem uartstart_spec (h : Owns Clean me H c) (hH : ∀ i, Lock.proc i ∉ H) :
    wp (uartstart fuel) c (fun _ t => Owns Clean me H t) Halted := by
  refine wp_loop (fun s hs => ?_) h
  refine wp_test hs (by decide) (fun _ ht => wp_pure ht) fun t ht => ?_
  refine wp_test ht (by decide) (fun _ hu => wp_pure hu) fun u hu => ?_
  exact wp_bind (wakeup_spec hu hH) fun _ _ hv => wp_pure hv

/-- Either all is well so far, or the call has got stuck. -/
def Decided (e : Stop × Cpu) : Prop := Halted e ∨ Stuck e

/-- Called with `cons.lock`, `uartputc` comes back only if the buffer is not full. -/
theorem uartputc_spec (h : Owns Clean me [.cons] c) :
    wp (uartputc fuel) c (fun _ t => Owns Clean me [.cons] t) Decided := by
  refine wp_bind (acquire_spec h (by simp)) fun _ s hs => ?_
  refine wp_bind (wp_weaken (ask_spec hs (by decide)) fun _ => .inl) fun b t ht => ?_
  refine wp_bind (R := fun _ u => Owns Clean me [.uartTx, .cons] u) ?_ fun _ u hu => ?_
  · exact wp_ite (fun _ => wp_read_bind (wp_fail (.inl ht.cut))) fun _ => wp_pure ht
  have hloop : wp (whileLoop fuel do
        if ← ask .uartFull then do
          sleep .uartTx
          return .next
        else do
          let _ ← uartstart fuel
          release .uartTx
          return .leave) u
      (Round (fun _ => False) (Owns Clean me [.cons]) fun _ => False) Decided := by
    refine wp_whileLoop (I := Owns Clean me [.uartTx, .cons])
      (fun _ hv => .inl hv.cut) (fun v hv => ?_) hu
    refine wp_bind (wp_weaken (askFull_spec hv) fun _ => .inl) fun full w hw => ?_
    cases full with
    | true =>
      refine wp_bind (R := fun _ _ => False) ?_ fun _ _ => False.elim
      exact wp_weaken (sleep_stuck hw (by simp) (by simp)) fun _ => .inr
    | false =>
      refine wp_bind (wp_weaken (uartstart_spec hw (by simp)) fun _ => .inl) fun _ x hx => ?_
      exact wp_bind (release_last hx) fun _ _ hy => wp_pure hy
  exact wp_mono hloop fun _ _ => Round.of_leave

theorem consolewrite_spec (h : Owns Clean me [] c) :
    wp (consolewrite fuel n) c (fun _ t => Owns Clean me [] t) Decided := by
  refine wp_bind (acquire_spec h not_mem_nil) fun _ s hs => ?_
  refine wp_after (R := Owns Clean me []) (wp_forLoop (fun t ht => ?_) hs) (fun _ => id)
    fun _ hu => leave_spec hu fun _ => id
  refine wp_bind (wp_weaken (ask_spec ht (by decide)) fun _ => .inl) fun _ u hu => ?_
  refine wp_ite (fun _ => wp_pure hu) fun _ => ?_
  exact wp_bind (uartputc_spec hu) fun _ _ hv => wp_pure hv

theorem Call.code_spec (call : Call) (h : Owns Clean me [] c) :
    wp (call.code fuel) c (fun _ t => Owns Clean me [] t) fun e =>
      Halted e ∨ (∃ n, call = .consolewrite n) ∧ Stuck e := by
  cases call with
  | consolewrite n =>
    refine wp_weaken (consolewrite_spec h) fun e he => ?_
    exact he.imp_right fun hstuck => ⟨⟨n, rfl⟩, hstuck⟩
  | consoleread n => exact wp_weaken (consoleread_spec h) fun _ => .inl
  | pipewrite n => exact wp_weaken (pipewrite_spec h) fun _ => .inl
  | piperead n => exact wp_weaken (piperead_spec h) fun _ => .inl
  | acquiresleep => exact wp_weaken (acquiresleep_spec h) fun _ => .inl
  | beginOp => exact wp_weaken (beginOp_spec h) fun _ => .inl
  | virtioDiskRw => exact wp_weaken (virtioDiskRw_spec h) fun _ => .inl

end Calls

/-! ## The discipline -/

/-- A call made without a lock sleeps only with the lock it gives to `sleep`, and does
not panic in `sched`, exactly if it is not a `consolewrite` that finds the transmit
buffer of the UART full. -/
theorem sleeps_with_one_lock (call : Call) (fuel : ℕ) (c : Cpu) (hc : Entry c) :
    Disciplined (outcome (call.code fuel c)) ↔ ((∃ n, call = .consolewrite n) →
        (Question.uartFull, true) ∉ (outcome (call.code fuel c)).2.asked) := by
  have hspec : wp (call.code fuel) c _ _ := call.code_spec hc.owns
  cases hcall : call.code fuel c with
  | ok r =>
    have hown := wp_ok hspec hcall
    exact iff_of_true ⟨hown.past.sleeps, hown.past.scheds, by simp [outcome]⟩
      fun _ => hown.past.quiet
  | error e =>
    rcases wp_error hspec hcall with hhalt | ⟨hwrite, hstuck⟩
    · refine iff_of_true ⟨hhalt.past.sleeps, hhalt.past.scheds, ?_⟩ fun _ => hhalt.past.quiet
      exact fun msg hmsg heq => hhalt.panics msg hmsg (Option.some.inj heq)
    · refine iff_of_false (fun hdisc => ?_) fun hquiet => hquiet hwrite hstuck.full
      exact hdisc.panics "sched locks" (by decide) (congrArg some hstuck.stop)

theorem nproc_pos : 0 < NPROC := by decide

/-- A process that has just entered the kernel with the given answers ahead. -/
def entered (answers : List Bool) : Cpu where
  asked := []
  sleeps := []
  scheds := []
  me := ⟨0, nproc_pos⟩
  noff := 0
  intena := false
  intr := true
  held := []
  running := true
  answers := answers

theorem entered_entry (answers : List Bool) : Entry (entered answers) :=
  ⟨rfl, rfl, rfl, rfl, rfl, rfl⟩

/-- A pipe is empty at first, and then there is one byte to read. -/
theorem sleeps_with_one_lock_emptyPipe : let c := entered [true, true, false, false, false, true]
    Entry c ∧ (outcome ((Call.piperead 1).code 2 c)).2.sleeps.map Sleep.held = [[.pipe]] ∧
      Disciplined (outcome ((Call.piperead 1).code 2 c)) :=
  ⟨entered_entry _, by decide +kernel,
    (sleeps_with_one_lock (.piperead 1) 2 _ (entered_entry _)).mpr nofun⟩

/-- One byte is written while the transmit buffer is full: `uartputc` sleeps with
`uart_tx_lock` and `cons.lock`, and `sched` panics. -/
theorem consolewrite_sleeps_with_two_locks : Entry (entered [true, false, true]) ∧
      (outcome ((Call.consolewrite 1).code 1 (entered [true, false, true]))).1 =
        some (.panic "sched locks") ∧
      (outcome ((Call.consolewrite 1).code 1 (entered [true, false, true]))).2.sleeps.map
        Sleep.held = [[.uartTx, .cons]] ∧
      ¬ Disciplined (outcome ((Call.consolewrite 1).code 1 (entered [true, false, true]))) := by
  have hpanic : (outcome ((Call.consolewrite 1).code 1
      (entered [true, false, true]))).1 = some (.panic "sched locks") := by
    decide +kernel
  refine ⟨entered_entry _, hpanic, by decide +kernel, fun hdisc => ?_⟩
  exact hdisc.panics "sched locks" (by decide) hpanic

end OsCa.Locking
