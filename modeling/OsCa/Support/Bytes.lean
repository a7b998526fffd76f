import Mathlib.Data.Nat.Bitwise
import Mathlib.Tactic.Ring

/-!
# Byte buffers and little-endian fields

This module is independent of the repository.  A buffer of fixed length is a
function on its byte positions, and a C structure stored in it is a family of
little-endian fields at fixed offsets.  The lemmas below say what reading a
field gives after a write: the value written when the field is the same, and
the old value when the two ranges of bytes do not meet.
-/

namespace OsCa.Bytes

open BitVec

variable {off len i k v pos j : ℕ}

/-- An unsigned byte. -/
abbrev Byte := BitVec 8

variable {f : ℕ → Byte}

instance decidableMemByte (c : Byte) (l : List Byte) : Decidable (c ∈ l) := inferInstance

/-- A buffer of `n` bytes. -/
abbrev Buffer (n : ℕ) := Fin n → Byte

variable {n : ℕ}

variable {b c : Buffer n}

/-! ## Single bytes and ranges of bytes -/

/-- The byte at position `i`; positions outside the buffer read as zero. -/
def peek (b : Buffer n) (i : ℕ) : Byte :=
  if h : i < n then b ⟨i, h⟩ else 0

/-- Overwrite the `len` bytes from `off` with `f 0, ..., f (len - 1)`. -/
def blit (b : Buffer n) (off len : ℕ) (f : ℕ → Byte) : Buffer n :=
  fun j => if off ≤ j.val ∧ j.val < off + len then f (j.val - off) else b j

theorem peek_blit (b : Buffer n) (off len : ℕ) (f : ℕ → Byte) (i : ℕ) : peek (blit b off len f) i =
      if off ≤ i ∧ i < off + len ∧ i < n then f (i - off) else peek b i := by
  unfold peek blit
  by_cases hi : i < n
  · simp [hi]
  · simp [hi]

theorem peek_blit_of_mem (hlo : off ≤ i) (hhi : i < off + len) (hn : i < n) :
    peek (blit b off len f) i = f (i - off) := by
  rw [peek_blit, if_pos ⟨hlo, hhi, hn⟩]

theorem peek_blit_of_not_mem (hi : i < off ∨ off + len ≤ i) :
    peek (blit b off len f) i = peek b i := by
  rw [peek_blit, if_neg]
  omega

/-- Two buffers that agree on every position are equal. -/
theorem ext_peek (h : ∀ i, i < n → peek b i = peek c i) : b = c := by
  funext j
  simpa [peek] using h j.val j.isLt

@[simp] theorem blit_zero (b : Buffer n) (off : ℕ) (f : ℕ → Byte) : blit b off 0 f = b := by
  funext j
  have hnot : ¬ (off ≤ j.val ∧ j.val < off + 0) := by omega
  simp only [blit, if_neg hnot]

/-! ## Little-endian fields -/

/-- The number stored little-endian in the `k` bytes from `off`. -/
def peekLE (b : Buffer n) : ℕ → ℕ → ℕ
  | _, 0 => 0
  | off, k + 1 => (peek b off).toNat + 256 * peekLE b (off + 1) k

/-- Store `v` little-endian in the `k` bytes from `off`. -/
def pokeLE (b : Buffer n) (off k v : ℕ) : Buffer n :=
  blit b off k (fun i => BitVec.ofNat 8 (v / 256 ^ i))

theorem peekLE_congr (h : ∀ i, off ≤ i → i < off + k → peek b i = peek c i) :
    peekLE b off k = peekLE c off k := by
  induction k generalizing off with
  | zero => rfl
  | succ k ih =>
    have hhead := h off (Nat.le_refl off) (by omega)
    have htail : peekLE b (off + 1) k = peekLE c (off + 1) k := by
      apply ih
      intro i hlo hhi
      exact h i (by omega) (by omega)
    simp only [peekLE, hhead, htail]

/-- A field whose bytes are the base-256 digits of `v` reads as `v`, up to
the width of the field. -/
theorem peekLE_of_digits (h : ∀ i, i < k → peek b (off + i) = BitVec.ofNat 8 (v / 256 ^ i)) :
    peekLE b off k = v % 256 ^ k := by
  induction k generalizing off v with
  | zero => simp [peekLE, Nat.mod_one]
  | succ k ih =>
    have hhead : (peek b off).toNat = v % 256 := by
      have h0 := h 0 (Nat.succ_pos k)
      rw [Nat.add_zero, pow_zero, Nat.div_one] at h0
      rw [h0, toNat_ofNat]
    have htail : peekLE b (off + 1) k = v / 256 % 256 ^ k := by
      apply ih
      intro i hi
      have hsucc := h (i + 1) (by omega)
      rw [Nat.div_div_eq_div_mul, ← pow_succ', ← hsucc]
      congr 1
      omega
    rw [peekLE, hhead, htail, pow_succ', Nat.mod_mul]

theorem peekLE_pokeLE_self (hfit : off + k ≤ n) :
    peekLE (pokeLE b off k v) off k = v % 256 ^ k := by
  apply peekLE_of_digits
  intro i hi
  rw [pokeLE, peek_blit_of_mem (by omega) (by omega) (by omega), Nat.add_sub_cancel_left]

theorem peekLE_blit_of_disjoint (h : off + k ≤ pos ∨ pos + len ≤ off) :
    peekLE (blit b pos len f) off k = peekLE b off k := by
  apply peekLE_congr
  intro i hlo hhi
  apply peek_blit_of_not_mem
  omega

theorem peekLE_pokeLE_of_disjoint (h : off + k ≤ pos ∨ pos + len ≤ off) :
    peekLE (pokeLE b pos len v) off k = peekLE b off k :=
  peekLE_blit_of_disjoint h

/-! ## Fields as machine words -/

/-- The `8 * k`-bit word stored little-endian at `off`. -/
def word (b : Buffer n) (off k : ℕ) : BitVec (8 * k) := BitVec.ofNat (8 * k) (peekLE b off k)

/-- Store a word of `k` bytes little-endian at `off`. -/
def setWord (b : Buffer n) (off k : ℕ) (v : BitVec (8 * k)) : Buffer n := pokeLE b off k v.toNat

theorem word_setWord_self {v : BitVec (8 * k)} (hfit : off + k ≤ n) :
    word (setWord b off k v) off k = v := by
  have hwidth : 256 ^ k = 2 ^ (8 * k) := by
    rw [pow_mul]
    norm_num
  have hv : v.toNat < 256 ^ k := by
    rw [hwidth]
    exact v.isLt
  rw [word, setWord, peekLE_pokeLE_self hfit, Nat.mod_eq_of_lt hv,
    BitVec.ofNat_toNat, BitVec.setWidth_eq]

theorem word_setWord_of_disjoint {v : BitVec (8 * len)} (h : off + k ≤ pos ∨ pos + len ≤ off) :
    word (setWord b pos len v) off k = word b off k := by
  rw [word, setWord, peekLE_pokeLE_of_disjoint h, word]

theorem word_blit_of_disjoint (h : off + k ≤ pos ∨ pos + len ≤ off) :
    word (blit b pos len f) off k = word b off k := by
  rw [word, peekLE_blit_of_disjoint h, word]

theorem peek_setWord_of_not_mem {v : BitVec (8 * len)} (h : i < pos ∨ pos + len ≤ i) :
    peek (setWord b pos len v) i = peek b i := by
  rw [setWord, pokeLE, peek_blit_of_not_mem h]

theorem word_congr (h : ∀ i, off ≤ i → i < off + k → peek b i = peek c i) :
    word b off k = word c off k := by
  rw [word, peekLE_congr h, word]

/-! ## Arrays of words -/

/-- The bytes of an array of `k`-byte words, as they lie in memory. -/
def arrayBytes {k : ℕ} (a : ℕ → BitVec (8 * k)) (i : ℕ) : Byte :=
  BitVec.ofNat 8 ((a (i / k)).toNat / 256 ^ (i % k))

theorem word_of_bytes {v : BitVec (8 * k)}
    (h : ∀ i, i < k → peek b (off + i) = BitVec.ofNat 8 (v.toNat / 256 ^ i)) :
    word b off k = v := by
  have hwidth : 256 ^ k = 2 ^ (8 * k) := by
    rw [pow_mul]
    norm_num
  have hv : v.toNat < 256 ^ k := by
    rw [hwidth]
    exact v.isLt
  rw [word, peekLE_of_digits h, Nat.mod_eq_of_lt hv, ofNat_toNat, setWidth_eq]

/-- Copying an array into a buffer stores its elements one after another. -/
theorem word_blit_arrayBytes {m : ℕ} {a : ℕ → BitVec (8 * k)} (hj : j < m)
    (hfit : off + k * m ≤ n) :
    word (blit b off (k * m) (arrayBytes a)) (off + k * j) k = a j := by
  apply word_of_bytes
  intro i hi
  have hlt : k * j + i < k * m := calc k * j + i < k * j + k := by omega
      _ = k * (j + 1) := by ring
      _ ≤ k * m := Nat.mul_le_mul_left k hj
  have hdiv : (k * j + i) / k = j := by
    rw [Nat.mul_add_div (by omega), Nat.div_eq_of_lt hi, Nat.add_zero]
  have hmod : (k * j + i) % k = i := by rw [Nat.mul_add_mod, Nat.mod_eq_of_lt hi]
  rw [peek_blit_of_mem (by omega) (by omega) (by omega),
    show off + k * j + i - off = k * j + i by omega, arrayBytes, hdiv, hmod]

/-! ## Single bits -/

/-- The byte with only the bit of position `i` set. -/
def bitMask (i : ℕ) : Byte := 1#8 <<< (i % 8)

def testBit (b : Buffer n) (i : ℕ) : Bool := peek b (i / 8) &&& bitMask i != 0

def setBit (b : Buffer n) (i : ℕ) : Buffer n :=
  blit b (i / 8) 1 fun _ => peek b (i / 8) ||| bitMask i

def clearBit (b : Buffer n) (i : ℕ) : Buffer n :=
  blit b (i / 8) 1 fun _ => peek b (i / 8) &&& ~~~ bitMask i

theorem bitMask_getLsbD (i j : ℕ) : (bitMask i).getLsbD j = decide (j = i % 8) := by
  have hi : i % 8 < 8 := Nat.mod_lt i (by omega)
  unfold bitMask
  rw [← twoPow_eq, getLsbD_twoPow]
  by_cases hj : i % 8 = j
  · simp [← hj, hi]
  · simp [hj, Ne.symm hj]

theorem testBit_eq (b : Buffer n) (i : ℕ) : testBit b i = (peek b (i / 8)).getLsbD (i % 8) := by
  have hi : i % 8 < 8 := Nat.mod_lt i (by omega)
  unfold testBit bitMask
  rw [← twoPow_eq, and_twoPow]
  cases h : (peek b (i / 8)).getLsbD (i % 8) with
  | false => simp
  | true =>
    have hne : twoPow 8 (i % 8) ≠ 0 := by
      intro heq
      have hbit := congrArg (fun x : Byte => x.getLsbD (i % 8)) heq
      simp [hi] at hbit
    simpa using hne

theorem testBit_setBit (hi : i / 8 < n) :
    testBit (setBit b i) j = (decide (j = i) || testBit b j) := by
  rw [testBit_eq, testBit_eq, setBit, peek_blit]
  by_cases hbyte : j / 8 = i / 8
  · rw [if_pos ⟨by omega, by omega, by omega⟩, getLsbD_or, bitMask_getLsbD, hbyte, Bool.or_comm]
    congr 1
    exact decide_eq_decide.mpr (by omega)
  · rw [if_neg (by omega), show decide (j = i) = false from
      decide_eq_false (fun heq => hbyte (by rw [heq]))]
    rfl

theorem testBit_clearBit (hi : i / 8 < n) :
    testBit (clearBit b i) j = (!decide (j = i) && testBit b j) := by
  rw [testBit_eq, testBit_eq, clearBit, peek_blit]
  have hj : j % 8 < 8 := Nat.mod_lt j (by omega)
  by_cases hbyte : j / 8 = i / 8
  · rw [if_pos ⟨by omega, by omega, by omega⟩, getLsbD_and,
      getLsbD_not, bitMask_getLsbD, hbyte, Bool.and_comm]
    congr 1
    rw [decide_eq_true hj, Bool.true_and]
    congr 1
    exact decide_eq_decide.mpr (by omega)
  · rw [if_neg (by omega), show decide (j = i) = false from
      decide_eq_false (fun heq => hbyte (by rw [heq]))]
    rfl

end OsCa.Bytes
