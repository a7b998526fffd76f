import Mathlib.Data.Fin.Basic
import Mathlib.Data.List.Basic
import Mathlib.Data.Nat.ModEq

/-!
# Rings with free-running counters

This module is independent of the repository.  A ring of `N` cells is used
through counters of `w` bits that are never reduced modulo `N`: a counter `c`
stands for the cell `c % N`, and counters wrap modulo `2 ^ w`.  If `N` divides
`2 ^ w`, consecutive counters stand for consecutive cells, also where the
counters wrap.

`Holds data r e q` says that the cells from `r` up to, but not including, `e`
contain the queue `q`.
-/

namespace OsCa.Ring

open List

variable {α : Type*} {w N : ℕ} [NeZero N]

/-- The cell of a counter. -/
def slot (N : ℕ) [NeZero N] (c : BitVec w) : Fin N := Fin.ofNat N c.toNat

/-- The cells from `r` to `e` contain the queue. -/
structure Holds (data : Fin N → α) (r e : BitVec w) (q : List α) : Prop where
  length_le : q.length ≤ N
  tail : e = r + BitVec.ofNat w q.length
  get : ∀ i (h : i < q.length), data (slot N (r + BitVec.ofNat w i)) = q[i]

theorem slot_add (hdvd : N ∣ 2 ^ w) (r : BitVec w) (i : ℕ) :
    (slot N (r + BitVec.ofNat w i)).val = (r.toNat + i) % N := by
  have hval : (slot N (r + BitVec.ofNat w i)).val = ((r.toNat + i % 2 ^ w) % 2 ^ w) % N := by
    simp [slot, BitVec.toNat_add, BitVec.toNat_ofNat]
  rw [hval, Nat.mod_mod_of_dvd _ hdvd, Nat.add_mod, Nat.mod_mod_of_dvd _ hdvd, ← Nat.add_mod]

/-- Less than one turn apart, different counters have different cells. -/
theorem slot_inj (hdvd : N ∣ 2 ^ w) (r : BitVec w) {i j : ℕ} (hi : i < N) (hj : j < N)
    (h : slot N (r + BitVec.ofNat w i) = slot N (r + BitVec.ofNat w j)) : i = j := by
  have hval := congrArg Fin.val h
  rw [slot_add hdvd, slot_add hdvd] at hval
  have hmod : i ≡ j [MOD N] := Nat.ModEq.add_left_cancel' r.toNat hval
  rwa [Nat.ModEq, Nat.mod_eq_of_lt hi, Nat.mod_eq_of_lt hj] at hmod

theorem add_ofNat_inj (r : BitVec w) {i j : ℕ} (hi : i < 2 ^ w) (hj : j < 2 ^ w)
    (h : r + BitVec.ofNat w i = r + BitVec.ofNat w j) : i = j := by
  have hof := congrArg BitVec.toNat ((BitVec.add_right_inj r).mp h)
  rwa [BitVec.toNat_ofNat, BitVec.toNat_ofNat, Nat.mod_eq_of_lt hi, Nat.mod_eq_of_lt hj] at hof

theorem add_ofNat_succ (r : BitVec w) (i : ℕ) :
    r + BitVec.ofNat w (i + 1) = r + BitVec.ofNat w i + 1 := by
  rw [BitVec.ofNat_add, BitVec.add_assoc]
  rfl

theorem add_one_ofNat (r : BitVec w) (i : ℕ) :
    r + 1 + BitVec.ofNat w i = r + BitVec.ofNat w (i + 1) := by
  rw [BitVec.ofNat_add, BitVec.add_comm (BitVec.ofNat w i), ← BitVec.add_assoc]
  rfl

namespace Holds

variable {data : Fin N → α} {r e : BitVec w} {q : List α} {x : α}

theorem nil (data : Fin N → α) (r : BitVec w) : Holds data r r [] :=
  ⟨Nat.zero_le N, by simp, fun i h => absurd h (Nat.not_lt_zero i)⟩

section

variable (h : Holds data r e q)

include h

/-- The distance of the counters is the length of the queue. -/
theorem sub_eq : e - r = BitVec.ofNat w q.length := by
  rw [h.tail, BitVec.add_comm, BitVec.add_sub_cancel]

theorem toNat_sub (hlt : N < 2 ^ w) : (e - r).toNat = q.length := by
  rw [h.sub_eq, BitVec.toNat_ofNat, Nat.mod_eq_of_lt (h.length_le.trans_lt hlt)]

theorem empty_iff (hlt : N < 2 ^ w) : r = e ↔ q = [] := by
  constructor
  · rintro rfl
    have hlen := h.toNat_sub hlt
    rw [BitVec.sub_self] at hlen
    exact length_eq_zero_iff.mp hlen.symm
  · rintro rfl
    simpa using h.tail.symm

theorem full_iff (hlt : N < 2 ^ w) : e = r + BitVec.ofNat w N ↔ q.length = N := by
  rw [h.tail]
  constructor
  · exact add_ofNat_inj r (h.length_le.trans_lt hlt) hlt
  · intro heq
    rw [heq]

/-- The next cell is outside of a queue that does not fill the ring. -/
theorem slot_ne (hdvd : N ∣ 2 ^ w) (hlen : q.length < N) {i : ℕ} (hi : i < q.length) :
    slot N (r + BitVec.ofNat w i) ≠ slot N e := by
  rw [h.tail]
  intro heq
  exact hi.ne (slot_inj hdvd r (hi.trans hlen) hlen heq)

theorem push (hdvd : N ∣ 2 ^ w) (hlen : q.length < N) (x : α) :
    Holds (Function.update data (slot N e) x) r (e + 1) (q ++ [x]) := by
  refine ⟨?_, ?_, fun i hi => ?_⟩
  · rw [length_append]
    exact hlen
  · rw [length_append, length_singleton, add_ofNat_succ, ← h.tail]
  · rw [length_append, length_singleton] at hi
    rcases Nat.lt_succ_iff_lt_or_eq.mp hi with hi | rfl
    · rw [Function.update_of_ne (h.slot_ne hdvd hlen hi), h.get i hi, getElem_append_left hi]
    · rw [← h.tail, Function.update_self, getElem_concat_length rfl]

end

theorem head (h : Holds data r e (x :: q)) : data (slot N r) = x := by
  have hget := h.get 0 (Nat.succ_pos _)
  rwa [BitVec.add_zero] at hget

theorem pop (h : Holds data r e (x :: q)) : Holds data (r + 1) e q := by
  refine ⟨(Nat.le_succ _).trans h.length_le, ?_, fun i hi => ?_⟩
  · rw [add_one_ofNat]
    exact h.tail
  · rw [add_one_ofNat]
    exact h.get (i + 1) (Nat.succ_lt_succ hi)

theorem append_left {q' : List α} (h : Holds data r e (q ++ q')) :
    Holds data r (r + BitVec.ofNat w q.length) q := by
  have hlen : q.length ≤ (q ++ q').length := by
    rw [length_append]
    exact Nat.le_add_right _ _
  refine ⟨hlen.trans h.length_le, rfl, fun i hi => ?_⟩
  rw [h.get i (hi.trans_le hlen), getElem_append_left hi]

theorem append_right {q' : List α} (h : Holds data r e (q ++ q')) :
    Holds data (r + BitVec.ofNat w q.length) e q' := by
  induction q generalizing r with
  | nil =>
    rw [length_nil, BitVec.add_zero]
    exact h
  | cons x q ih =>
    rw [length_cons, ← add_one_ofNat]
    exact ih h.pop

theorem last (h : Holds data r e (q ++ [x])) : data (slot N (e - 1)) = x := by
  have hlen : q.length < (q ++ [x]).length := by
    rw [length_append]
    exact Nat.lt_succ_self _
  have hget := h.get q.length hlen
  rw [getElem_concat_length rfl] at hget
  rw [h.tail, length_append, length_singleton, add_ofNat_succ, BitVec.add_sub_cancel]
  exact hget

/-- The last element is erased. -/
theorem unpush (h : Holds data r e (q ++ [x])) : Holds data r (e - 1) q := by
  have hlen : (q ++ [x]).length = q.length + 1 := by rw [length_append, length_singleton]
  refine ⟨?_, ?_, fun i hi => ?_⟩
  · have hle := h.length_le
    omega
  · rw [h.tail, hlen, add_ofNat_succ, BitVec.add_sub_cancel]
  · rw [h.get i (hlen ▸ Nat.lt_succ_of_lt hi), getElem_append_left hi]

end Holds

end OsCa.Ring
