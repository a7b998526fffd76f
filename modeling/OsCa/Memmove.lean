import Mathlib.Algebra.Group.Nat.Defs
import OsCa.Support.Bytes

/-!
# The two functions `memmove`

`memmove` of `kernel/string.c` and of `user/ulib.c`, over a flat memory of bytes.  The
kernel copies from the end only if the destination starts inside the source.  The
library does so unless the source starts above the destination.

Addresses wrap.  The length is a `uint` in the kernel and an `int` in the library.
-/

namespace OsCa.Memmove

open Bytes Function

abbrev Addr := BitVec 64

abbrev Memory := Addr → Byte

/-- `while(n-- > 0) *d++ = *s++;` -/
def copyUp : ℕ → Addr → Addr → Memory → Memory
  | 0, _, _, m => m
  | n + 1, d, s, m => copyUp n (d + 1) (s + 1) (update m d (m s))

/-- `while(n-- > 0) *--d = *--s;` -/
def copyDown : ℕ → Addr → Addr → Memory → Memory
  | 0, _, _, m => m
  | n + 1, d, s, m => copyDown n (d - 1) (s - 1) (update m (d - 1) (m (s - 1)))

def Kernel.memmove (dst src : Addr) (n : BitVec 32) (m : Memory) : Addr × Memory := (dst,
    if src < dst ∧ src + n.setWidth 64 > dst then
      copyDown n.toNat (dst + n.setWidth 64) (src + n.setWidth 64) m
    else copyUp n.toNat dst src m)

/-- The loops have no round if `n` is negative. -/
def Ulib.memmove (vdst vsrc : Addr) (n : BitVec 32) (m : Memory) : Addr × Memory := (vdst,
    if vsrc > vdst then copyUp n.toInt.toNat vdst vsrc m
    else copyDown n.toInt.toNat (vdst + n.signExtend 64) (vsrc + n.signExtend 64) m)

/-! ## What both are for -/

/-- The address `i` bytes after `a`. -/
def offset (a : Addr) (i : ℕ) : Addr := a + BitVec.ofNat 64 i

/-- The `n` bytes at `src` have been copied to `dst`, and nothing else has changed. -/
structure Moved (dst src : Addr) (n : ℕ) (m m' : Memory) : Prop where
  copied : ∀ i < n, m' (offset dst i) = m (offset src i)
  kept : ∀ a, (∀ i < n, a ≠ offset dst i) → m' a = m a

variable {a dst src : Addr} {n : ℕ} {m m₁ m₂ : Memory}

/-- There is one memory in which the bytes have been moved. -/
theorem Moved.unique (h₁ : Moved dst src n m m₁) (h₂ : Moved dst src n m m₂) : m₁ = m₂ := by
  funext a
  by_cases ha : ∃ i < n, a = offset dst i
  · obtain ⟨i, hi, rfl⟩ := ha
    rw [h₁.copied i hi, h₂.copied i hi]
  · push Not at ha
    rw [h₁.kept a ha, h₂.kept a ha]

/-! ## The loops -/

theorem offset_zero (a : Addr) : offset a 0 = a := BitVec.add_zero a

theorem offset_succ (a : Addr) (i : ℕ) : offset (a + 1) i = offset a (i + 1) := by
  unfold offset
  rw [BitVec.ofNat_add, BitVec.add_assoc, BitVec.add_comm 1]
  rfl

theorem offset_sub_one (a : Addr) (i : ℕ) : offset a (i + 1) - 1 = offset a i := by
  unfold offset
  rw [BitVec.ofNat_add, ← BitVec.add_assoc]
  exact BitVec.add_sub_cancel ..

theorem toNat_offset {i : ℕ} (h : a.toNat + i < 2 ^ 64) : (offset a i).toNat = a.toNat + i := by
  unfold offset
  rw [BitVec.toNat_add, BitVec.toNat_ofNat, Nat.mod_eq_of_lt (by omega : i < 2 ^ 64),
    Nat.mod_eq_of_lt h]

/-- A copy from the start writes no byte that it has still to read. -/
theorem copyUp_moved (hinj : ∀ i j, i < j → j < n → offset dst i ≠ offset dst j)
    (hsafe : ∀ i j, i < j → j < n → offset dst i ≠ offset src j) :
    Moved dst src n m (copyUp n dst src m) := by
  induction n generalizing dst src m with
  | zero => exact ⟨fun _ hi => absurd hi (Nat.not_lt_zero _), fun _ _ => rfl⟩
  | succ n ih =>
    have hrest : Moved (dst + 1) (src + 1) n (update m dst (m src)) (copyUp (n + 1) dst src m) := by
      refine ih (fun i j hij hj => ?_) fun i j hij hj => ?_
      · rw [offset_succ, offset_succ]
        exact hinj (i + 1) (j + 1) (by omega) (by omega)
      · rw [offset_succ, offset_succ]
        exact hsafe (i + 1) (j + 1) (by omega) (by omega)
    have hdst : ∀ i < n, dst ≠ offset (dst + 1) i := by
      intro i hi
      have hne := hinj 0 (i + 1) (Nat.succ_pos i) (by omega)
      rwa [offset_zero, ← offset_succ] at hne
    refine ⟨fun i hi => ?_, fun a ha => ?_⟩
    · cases i with
      | zero => rw [offset_zero, offset_zero, hrest.kept dst hdst, update_self]
      | succ i =>
        have hne := hsafe 0 (i + 1) (Nat.succ_pos i) hi
        rw [offset_zero] at hne
        rw [← offset_succ, hrest.copied i (by omega), offset_succ, update_of_ne hne.symm]
    · have hne : a ≠ dst := offset_zero dst ▸ ha 0 (Nat.succ_pos n)
      rw [hrest.kept a fun i hi => offset_succ dst i ▸ ha (i + 1) (by omega), update_of_ne hne]

theorem copyDown_moved (hinj : ∀ i j, i < j → j < n → offset dst i ≠ offset dst j)
    (hsafe : ∀ i j, i < j → j < n → offset dst j ≠ offset src i) :
    Moved dst src n m (copyDown n (offset dst n) (offset src n) m) := by
  induction n generalizing m with
  | zero => exact ⟨fun _ hi => absurd hi (Nat.not_lt_zero _), fun _ _ => rfl⟩
  | succ n ih =>
    have hrest : Moved dst src n (update m (offset dst n) (m (offset src n)))
        (copyDown (n + 1) (offset dst (n + 1)) (offset src (n + 1)) m) := by
      rw [copyDown, offset_sub_one, offset_sub_one]
      exact ih (fun i j hij hj => hinj i j hij (by omega))
        fun i j hij hj => hsafe i j hij (by omega)
    refine ⟨fun i hi => ?_, fun a ha => ?_⟩
    · rcases Nat.lt_succ_iff_lt_or_eq.mp hi with hi | rfl
      · rw [hrest.copied i hi, update_of_ne (hsafe i n hi (Nat.lt_succ_self n)).symm]
      · rw [hrest.kept _ fun j hj => (hinj j i hj hi).symm, update_self]
    · rw [hrest.kept a fun i hi => ha i (by omega), update_of_ne (ha n (Nat.lt_succ_self n))]

/-! ## Overlapping ranges -/

section Overlap

variable {n : BitVec 32} (hdst : dst.toNat + n.toNat ≤ 2 ^ 64)

include hdst

/-- Without wrapping, the addresses of the destination are different. -/
theorem offset_injective (i j : ℕ) (hij : i < j) (hj : j < n.toNat) :
    offset dst i ≠ offset dst j := by
  intro heq
  have hnat := congrArg BitVec.toNat heq
  rw [toNat_offset (by omega), toNat_offset (by omega)] at hnat
  omega

theorem copyDown_of_le (h : src ≤ dst) (m : Memory) :
    Moved dst src n.toNat m (copyDown n.toNat (offset dst n.toNat) (offset src n.toNat) m) := by
  refine copyDown_moved (offset_injective hdst) fun i j hij hj heq => ?_
  have hnat := congrArg BitVec.toNat heq
  have hle := BitVec.le_def.mp h
  rw [toNat_offset (by omega), toNat_offset (by omega)] at hnat
  omega

variable (hsrc : src.toNat + n.toNat ≤ 2 ^ 64)

include hsrc

theorem copyUp_of_le (h : dst ≤ src ∨ src.toNat + n.toNat ≤ dst.toNat) (m : Memory) :
    Moved dst src n.toNat m (copyUp n.toNat dst src m) := by
  refine copyUp_moved (offset_injective hdst) fun i j hij hj heq => ?_
  have hnat := congrArg BitVec.toNat heq
  rw [toNat_offset (by omega), toNat_offset (by omega)] at hnat
  rcases h with h | h
  · have hle := BitVec.le_def.mp h
    omega
  · omega

theorem kernel_moved (m : Memory) : Moved dst src n.toNat m (Kernel.memmove dst src n m).2 := by
  have hwidth : n.setWidth 64 = BitVec.ofNat 64 n.toNat := BitVec.eq_of_toNat_eq (by simp)
  unfold Kernel.memmove
  dsimp only
  rw [hwidth]
  split
  next h => exact copyDown_of_le hdst (BitVec.le_of_lt h.1) m
  next h =>
    refine copyUp_of_le hdst hsrc ?_ m
    by_contra hnot
    rw [not_or, BitVec.not_le] at hnot
    -- The end of the source does not wrap, because the destination lies above it.
    have hlt := BitVec.lt_def.mp hnot.1
    refine h ⟨hnot.1, BitVec.lt_def.mpr ?_⟩
    change dst.toNat < (offset src n.toNat).toNat
    rw [toNat_offset (by omega)]
    exact not_le.mp hnot.2

theorem ulib_moved (hn : 0 ≤ n.toInt) (m : Memory) :
    Moved dst src n.toNat m (Ulib.memmove dst src n m).2 := by
  have hmsb : n.msb = false := by
    rw [BitVec.msb_eq_toInt]
    exact decide_eq_false hn.not_gt
  have hwidth : n.signExtend 64 = BitVec.ofNat 64 n.toNat := by
    rw [BitVec.signExtend_eq_setWidth_of_msb_false hmsb]
    exact BitVec.eq_of_toNat_eq (by simp)
  have hround : n.toInt.toNat = n.toNat := by
    rw [BitVec.toInt_eq_toNat_of_msb hmsb, Int.toNat_natCast]
  unfold Ulib.memmove
  dsimp only
  rw [hwidth, hround]
  split
  next h => exact copyUp_of_le hdst hsrc (Or.inl (BitVec.le_of_lt h)) m
  next h => exact copyDown_of_le hdst (BitVec.not_lt.mp h) m

end Overlap

/-- If neither range wraps, both functions move the bytes and return the destination,
however the ranges lie, and so they have the same effect on every length that is one for
both. -/
theorem memmove_handles_overlap (m : Memory) (dst src : Addr) (n : BitVec 32)
    (hdst : dst.toNat + n.toNat ≤ 2 ^ 64) (hsrc : src.toNat + n.toNat ≤ 2 ^ 64) :
    ((Kernel.memmove dst src n m).1 = dst ∧
      Moved dst src n.toNat m (Kernel.memmove dst src n m).2) ∧
    (0 ≤ n.toInt → ((Ulib.memmove dst src n m).1 = dst ∧
        Moved dst src n.toNat m (Ulib.memmove dst src n m).2) ∧
      Ulib.memmove dst src n m = Kernel.memmove dst src n m) := by
  have hkernel := kernel_moved hdst hsrc m
  refine ⟨⟨rfl, hkernel⟩, fun hn => ?_⟩
  have hulib := ulib_moved hdst hsrc hn m
  exact ⟨⟨rfl, hulib⟩, Prod.ext rfl (hulib.unique hkernel)⟩

/-- Three bytes move up by one. -/
theorem memmove_handles_overlap_three :
    Ulib.memmove 1 0 3 (fun a => a.setWidth 8) = Kernel.memmove 1 0 3 (fun a => a.setWidth 8) ∧
      (Kernel.memmove 1 0 3 (fun a => a.setWidth 8)).2 3 = 2 := by
  obtain ⟨⟨-, hmoved⟩, hulib⟩ :=
    memmove_handles_overlap (fun a => a.setWidth 8) 1 0 3 (by decide) (by decide)
  exact ⟨(hulib (by decide)).2, hmoved.copied 2 (by decide)⟩

end OsCa.Memmove
