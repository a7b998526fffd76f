import OsCa.Support.Bytes
import OsCa.Support.EventSystem
import OsCa.Support.RingBuffer

/-!
# Output through the UART

This module embeds `uartputc`, `uartputc_sync`, `uartstart` and `uartintr` of `kernel/uart.c`
for any number of threads: processes, handlers of interrupts, and the echo of input in them.
The ring `uart_tx_buf` is under `uart_tx_lock`, but `uartputc_sync` writes to the device without
the lock, also between the test of `LSR_TX_IDLE` in `uartstart` and the write after it.  `sleep`
and `wakeup`, called with the lock held, are one event each.  The indices are taken modulo
`UART_TX_BUF_SIZE`, so they are numbers of five bits.

The device is not idle after a write to `THR`.  Idle again, it raises an interrupt, pending
until `uartintr` is called; input may call `uartintr` at any time.  The list `thr` has the
writes to `THR`, with `true` for those of `uartstart`, and `stored` the bytes of `uartputc`.
-/

namespace OsCa.Uart

open Bytes List

def UART_TX_BUF_SIZE : ℕ := 32

instance : NeZero UART_TX_BUF_SIZE := ⟨by decide⟩

/-- A place in the code of a thread. -/
inductive Pc where
  | out
  /-- At `acquire` in `uartputc`, or in `sleep` once woken. -/
  | acquire (c : Byte) (woken : Bool)
  /-- The test of `uartputc` for room. -/
  | room (c : Byte)
  | asleep (c : Byte)
  /-- At `acquire` in `uartintr`. -/
  | intr
  /-- The loop of `uartstart`. -/
  | start
  /-- In `uartstart`, with the device found idle. -/
  | send
  /-- The loop of `uartputc_sync`, and the write after it. -/
  | sync (c : Byte) (idle : Bool)
  /-- The loop of a thread that finds `panicked`. -/
  | spin
  deriving DecidableEq

/-- The places from where a thread comes to the tests of `uartstart`. -/
def Pc.Serving : Pc → Bool
  | .intr | .start | .send => true
  | _ => false

/-- `wakeup(&uart_tx_r)`. -/
def Pc.wakeup : Pc → Pc
  | .asleep c => .acquire c true
  | pc => pc

structure State (T : Type*) where
  txBuf : Fin UART_TX_BUF_SIZE → Byte
  txW : BitVec 5
  txR : BitVec 5
  lock : Option T
  pc : T → Pc
  panicked : Bool
  idle : Bool
  irq : Bool
  thr : List (Bool × Byte)
  stored : List Byte

inductive Event (T : Type*) where
  | uartputc (t : T) (c : Byte)
  | uartputcSync (t : T) (c : Byte)
  | uartintr (t : T)
  | kill (t : T)
  | panic
  /-- The device is idle again. -/
  | ready
  | step (t : T)

variable {T : Type*}

namespace State

/-- `uart_tx_buf[uart_tx_w] = c; uart_tx_w = (uart_tx_w + 1) % UART_TX_BUF_SIZE`. -/
def store (s : State T) (c : Byte) : State T :=
  { s with
    txBuf := Function.update s.txBuf (Ring.slot UART_TX_BUF_SIZE s.txW) c
    txW := s.txW + 1
    stored := s.stored ++ [c] }

/-- The end of a round of `uartstart`. -/
def transmit (s : State T) : State T :=
  { s with
    txR := s.txR + 1
    pc := fun t => (s.pc t).wakeup
    idle := false
    thr := s.thr ++ [(true, s.txBuf (Ring.slot UART_TX_BUF_SIZE s.txR))] }

def release (s : State T) : State T := { s with lock := none }

/-- The bytes written by `uartstart`. -/
def sent (s : State T) : List Byte := (s.thr.filter Prod.fst).map Prod.snd

/-- The bytes not yet sent are in the ring. -/
def Fifo (s : State T) : Prop :=
  ∃ q, q.length < UART_TX_BUF_SIZE ∧ Ring.Holds s.txBuf s.txR s.txW q ∧ s.stored = s.sent ++ q

/-- The device could take a byte from the ring. -/
def Pending (s : State T) : Prop := s.panicked = false ∧ s.txW ≠ s.txR ∧ s.idle = true

variable [DecidableEq T]

def goto (s : State T) (t : T) (pc : Pc) : State T :=
  { s with pc := Function.update s.pc t pc }

theorem goto_pc (s : State T) (t : T) (pc : Pc) : (s.goto t pc).pc t = pc := Function.update_self ..

def acquire (s : State T) (t : T) (pc : Pc) : Option (State T) :=
  if s.lock = none then some ({ s with lock := some t }.goto t pc) else none

end State

section

variable [DecidableEq T]

/-- The thread goes on. -/
def advance (s : State T) (t : T) : Pc → Option (State T)
  | .acquire c woken => s.acquire t (if s.panicked ∧ ¬ woken then .spin else .room c)
  | .room c =>
    if s.txW + 1 = s.txR then some (s.goto t (.asleep c)).release
    else some ((s.goto t .start).store c)
  | .intr => s.acquire t .start
  | .start =>
    if s.txW = s.txR ∨ s.idle = false then some (s.goto t .out).release
    else some (s.goto t .send)
  | .send => some (s.goto t .start).transmit
  | .sync c false => if s.idle then some (s.goto t (.sync c true)) else none
  | .sync c true => some ({ s with idle := false, thr := s.thr ++ [(false, c)] }.goto t .out)
  | .out | .asleep _ | .spin => none

def step (s : State T) : Event T → Option (State T)
  | .uartputc t c => if s.pc t = .out then some (s.goto t (.acquire c false)) else none
  | .uartputcSync t c =>
    if s.pc t = .out then some (s.goto t (if s.panicked then .spin else .sync c false)) else none
  | .uartintr t => if s.pc t = .out then some { s.goto t .intr with irq := false } else none
  | .kill t => some (s.goto t (s.pc t).wakeup)
  | .panic => some { s with panicked := true }
  | .ready => if s.idle then none else some { s with idle := true, irq := true }
  | .step t => advance s t (s.pc t)

def boot (T : Type*) (idle : Bool) : State T :=
  ⟨fun _ => 0, 0, 0, none, fun _ => .out, false, idle, false, [], []⟩

def system (T : Type*) [DecidableEq T] : EventSystem (State T) (Event T) where
  init s := ∃ idle, s = boot T idle
  step := step

end

/-! ## The invariant -/

/-- What holds at a place in the code. -/
def State.At (s : State T) (t : T) : Pc → Prop
  | .room _ | .start => s.lock = some t
  | .send => s.lock = some t ∧ s.txW ≠ s.txR
  | .asleep _ => s.txW + 1 = s.txR
  | _ => True

/-- What every event keeps. -/
structure Inv (s : State T) : Prop where
  fifo : s.Fifo
  places : ∀ t, s.At t (s.pc t)
  served : s.Pending → s.irq ∨ ∃ t, (s.pc t).Serving

variable {s u : State T} {t : T} {k : Pc} {e : Event T}

theorem State.At.mono (h : s.At t k) (hlock : s.lock = some t → u.lock = some t)
    (hne : s.txW ≠ s.txR → u.txW ≠ u.txR) (hfull : s.txW + 1 = s.txR → u.txW + 1 = u.txR) :
    u.At t k := by
  cases k with
  | room c | start => exact hlock h
  | send => exact ⟨hlock h.1, hne h.2⟩
  | asleep c => exact hfull h
  | _ => trivial

theorem State.At.wakeup (h : s.At t k) (hu : s.lock = some t → u.At t k) : u.At t k.wakeup := by
  cases k with
  | room c | start => exact hu h
  | send => exact hu h.1
  | _ => trivial

namespace Inv

theorem boot (idle : Bool) : Inv (boot T idle) where
  fifo := ⟨[], Nat.zero_lt_succ 31, Ring.Holds.nil _ _, rfl⟩
  places _ := trivial
  served hp := absurd rfl hp.2.1

theorem store (h : Inv s) (hfull : s.txW + 1 ≠ s.txR) (hserve : (s.pc t).Serving)
    (c : Byte) : Inv (s.store c) where
  fifo := by
    obtain ⟨q, hlen, hq, hstored⟩ := h.fifo
    refine ⟨q ++ [c], ?_, hq.push (by decide) hlen c, ?_⟩
    · -- One cell stays empty: a ring with 31 bytes is full.
      rw [hq.tail] at hfull
      simp only [length_append, length_singleton, UART_TX_BUF_SIZE] at hlen ⊢
      bv_omega
    · rw [← append_assoc]
      exact congrArg (· ++ [c]) hstored
  places a := (h.places a).mono id (fun _ => hfull) fun hf => absurd hf hfull
  served _ := Or.inr ⟨t, hserve⟩

variable [DecidableEq T] (h : Inv s)

include h

theorem goto (hat : s.At t k) (hserve : s.Pending → (s.pc t).Serving → k.Serving) :
    Inv (s.goto t k) where
  __ := h
  places := (Function.forall_update_iff s.pc s.At).mpr ⟨hat, fun t _ => h.places t⟩
  served hp := by
    refine (h.served hp).imp_right fun ⟨a, ha⟩ => ?_
    by_cases heq : a = t
    · exact ⟨t, by rw [State.goto_pc]; exact hserve hp (heq ▸ ha)⟩
    · exact ⟨a, (congrArg Pc.Serving (Function.update_of_ne heq ..)).trans ha⟩

theorem acquire (hat : { s with lock := some t }.At t k)
    (hserve : (s.pc t).Serving → k.Serving) (hs : s.acquire t k = some u) : Inv u := by
  obtain ⟨hlock, ⟨⟩⟩ := Option.ite_none_right_eq_some.mp hs
  have hfree : Inv { s with lock := some t } :=
    { h with places := fun a => (h.places a).mono (by simp [hlock]) id id }
  exact hfree.goto hat fun _ => hserve

/-- A thread lets go of the lock. -/
theorem leave (hlock : s.lock = some t) (hat : s.release.At t k)
    (hserve : s.Pending → (s.pc t).Serving → k.Serving) :
    Inv (s.goto t k).release where
  __ := h.goto (hat.mono (fun _ => hlock) id id) hserve
  places := (Function.forall_update_iff s.pc s.release.At).mpr ⟨hat, fun a heq =>
    (h.places a).mono (fun ha => absurd (Option.some.inj (ha.symm.trans hlock)) heq) id id⟩

/-- No other thread has found the device idle, and nobody sleeps after the `wakeup`. -/
theorem transmit (hlock : s.lock = some t) (hne : s.txW ≠ s.txR) :
    Inv (s.goto t .start).transmit where
  fifo := by
    obtain ⟨q, hlen, hq, hstored⟩ := h.fifo
    cases q with
    | nil => exact absurd (hq.tail.trans (BitVec.add_zero _)) hne
    | cons x q =>
      refine ⟨q, Nat.lt_of_succ_lt hlen, hq.pop, ?_⟩
      rw [State.sent, State.transmit, filter_append, map_append, append_assoc]
      exact hstored.trans (congrArg (s.sent ++ · :: q) hq.head.symm)
  places := (Function.forall_update_iff s.pc fun a k => State.At _ a k.wakeup).mpr
    ⟨hlock, fun a heq => (h.places a).wakeup fun ha =>
      absurd (Option.some.inj (ha.symm.trans hlock)) heq⟩
  served hp := absurd hp.2.2 Bool.false_ne_true

theorem advance (hpc : s.pc t = k) (hs : advance s t k = some u) : Inv u := by
  have hat := hpc ▸ h.places t
  cases k with
  | acquire c woken => exact h.acquire (by split <;> trivial) (by rw [hpc]; nofun) hs
  | room c =>
    rw [Uart.advance] at hs
    split at hs
    next hfull =>
      obtain ⟨⟩ := hs
      exact h.leave (k := .asleep c) hat hfull (by rw [hpc]; nofun)
    next hfull =>
      obtain ⟨⟩ := hs
      exact (h.goto (k := .start) hat fun _ _ => rfl).store hfull
        (congrArg Pc.Serving (s.goto_pc ..)) c
  | intr => exact h.acquire (k := .start) rfl (fun _ => rfl) hs
  | start =>
    rw [Uart.advance] at hs
    split at hs
    next hstop =>
      obtain ⟨⟩ := hs
      refine h.leave (k := .out) hat trivial fun hp _ => ?_
      exact absurd hstop (by simp [hp.2.1, hp.2.2])
    next hgo =>
      obtain ⟨⟩ := hs
      exact h.goto ⟨hat, (not_or.mp hgo).1⟩ fun _ _ => rfl
  | send =>
    obtain ⟨⟩ := hs
    exact h.transmit hat.1 hat.2
  | sync c idle =>
    cases idle with
    | false =>
      obtain ⟨-, ⟨⟩⟩ := Option.ite_none_right_eq_some.mp hs
      exact h.goto trivial (by rw [hpc]; nofun)
    | true =>
      obtain ⟨⟩ := hs
      exact { h.goto (t := t) (k := .out) trivial (by rw [hpc]; nofun) with
        fifo := by simpa [State.Fifo, State.goto, State.sent] using h.fifo
        served := fun hp => absurd hp.2.2 Bool.false_ne_true }
  | out | asleep c | spin => cases hs

theorem step (hs : step s e = some u) : Inv u := by
  cases e with
  | uartputc t c =>
    obtain ⟨hpc, ⟨⟩⟩ := Option.ite_none_right_eq_some.mp hs
    exact h.goto trivial (by rw [hpc]; nofun)
  | uartputcSync t c =>
    obtain ⟨hpc, ⟨⟩⟩ := Option.ite_none_right_eq_some.mp hs
    exact h.goto (by split <;> trivial) (by rw [hpc]; nofun)
  | uartintr t =>
    obtain ⟨-, ⟨⟩⟩ := Option.ite_none_right_eq_some.mp hs
    exact { h.goto (t := t) (k := .intr) trivial (fun _ _ => rfl) with
      served := fun _ => Or.inr ⟨t, congrArg Pc.Serving (s.goto_pc ..)⟩ }
  | kill t =>
    obtain ⟨⟩ := hs
    exact h.goto ((h.places t).wakeup fun _ => h.places t) fun _ => by cases s.pc t <;> exact id
  | panic =>
    obtain ⟨⟩ := hs
    exact { h with served := fun hp => absurd hp.1.symm Bool.false_ne_true }
  | ready =>
    obtain ⟨-, ⟨⟩⟩ := Option.ite_none_left_eq_some.mp hs
    exact { h with served := fun _ => Or.inl rfl }
  | step t => exact h.advance rfl hs

end Inv

/-- The bytes of `uartputc` are sent once and in their order, a thread sleeps only for a full
ring, and no byte waits in the ring for an idle device that nobody will look at. -/
theorem uart_output [DecidableEq T] (hs : (system T).Reachable s) :
    s.Fifo ∧ (∀ t c, s.pc t = .asleep c → s.txW + 1 = s.txR) ∧
    (s.Pending → s.irq ∨ ∃ t, (s.pc t).Serving) := by
  have h : Inv s := hs.invariant (fun _ ⟨idle, h⟩ => h ▸ Inv.boot idle) fun _ _ _ h => h.step
  refine ⟨h.fifo, fun t c hpc => ?_, h.served⟩
  have hat := h.places t
  rwa [hpc] at hat

/-- One byte is sent, 31 fill the ring, and the thread sleeps with the next one. -/
theorem uart_output_busy :
    ∃ s : State Unit, s.pc () = .asleep 32 ∧ s.sent = [0] ∧ s.txW + 1 = s.txR ∧ s.Fifo := by
  obtain ⟨s, hrun, hpc, hsent⟩ : ∃ s, (system Unit).run (boot Unit true)
      ((range 33).flatMap fun i => .uartputc () (BitVec.ofNat 8 i) ::
        replicate (if i = 0 then 5 else if i = 32 then 2 else 3) (.step ())) = some s ∧
      s.pc () = .asleep 32 ∧ s.sent = [0] := EventSystem.exists_of_any_run (by decide +kernel)
  obtain ⟨hfifo, hfull, -⟩ := uart_output ⟨_, _, ⟨true, rfl⟩, hrun⟩
  exact ⟨s, hpc, hsent, hfull () 32 hpc, hfifo⟩

end OsCa.Uart
