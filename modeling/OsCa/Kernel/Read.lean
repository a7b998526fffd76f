import OsCa.Kernel.Console.Model
import OsCa.Kernel.Fs.Effects
import OsCa.Kernel.Pipe.Model
import OsCa.Kernel.Sysfile.Model

/-!
# Reading from a file

`fileread` hands the same signed length to `piperead`, to `consoleread` and, as an unsigned
number, to `readi`.  This module puts the three together, and compares what a read takes out of
a pipe or the console with what it delivers.

A call of `piperead` copies with the lock of the pipe held, so its `for` loop is a function of
the pipe it finds after its last `sleep`.  A call of `consoleread` meets a state of the console
when it starts and after each `sleep`.
-/

namespace OsCa

open Bytes List

variable {i addr off : ℕ} {ret r : ℤ} {visits : List (Cons × Bool)} {gone : List Byte}

/-! ## Pipes -/

namespace Pipes

/-- The `for` loop of `piperead` with `k` rounds left, after the bytes `got` have been copied
out. -/
def readLoop (dst : ℕ → Bool) : ℕ → List Byte → Pipe → Pipe × List Byte
  | 0, got, pi => (pi, got)
  | k + 1, got, pi =>
    if pi.Empty then (pi, got)
    else if dst got.length then readLoop dst k (got ++ [pi.front]) pi.drop
    else (pi.drop, got)

/-- `piperead` with the pipe it finds after its last `sleep`; there is no result while it has
to wait.  The result is its value, what has been copied out, and the pipe. -/
def piperead (killed : Bool) (dst : ℕ → Bool) (n : BitVec 32) (pi : Pipe) :
    Option (ℤ × List Byte × Pipe) :=
  if pi.Empty ∧ pi.writeopen = true then
    if killed then some (-1, [], pi) else none
  else
    let r := readLoop dst n.toInt.toNat [] pi
    some (r.2.length, r.2, r.1)

/-- How many bytes are in the pipe. -/
def Pipe.available (pi : Pipe) : ℕ := (pi.nwrite - pi.nread).toNat

variable {dst : ℕ → Bool} {pi : Pipe} {got : List Byte} {k n : ℕ}

theorem Pipe.available_drop (h : ¬ pi.Empty) : pi.drop.available + 1 = pi.available := by
  have hne : pi.nwrite ≠ pi.nread := fun heq => h heq.symm
  unfold Pipe.available Pipe.drop
  bv_omega

theorem Pipe.available_of_empty (h : pi.Empty) : pi.available = 0 := by
  rw [Pipe.available, ← h, BitVec.sub_self]
  rfl

/-- What the loop delivers, and whether it takes one byte more. -/
theorem readLoop_spec (dst : ℕ → Bool) (k : ℕ) (got : List Byte) (pi : Pipe) :
    ∃ m ≤ k, (readLoop dst k got pi).2.length = got.length + m ∧
      ((readLoop dst k got pi).1.nread = pi.nread + BitVec.ofNat 32 m ∧
        (∀ i < min k pi.available, dst (got.length + i) = true) ∨
      (readLoop dst k got pi).1.nread = pi.nread + BitVec.ofNat 32 (m + 1) ∧
        m < min k pi.available ∧ dst (got.length + m) = false) := by
  induction k generalizing got pi with
  | zero => exact ⟨0, le_rfl, rfl, Or.inl ⟨(BitVec.add_zero _).symm, fun i hi => by omega⟩⟩
  | succ k ih =>
    unfold readLoop
    by_cases hempty : pi.Empty
    · rw [if_pos hempty]
      refine ⟨0, Nat.zero_le _, rfl, Or.inl ⟨(BitVec.add_zero _).symm, fun i hi => ?_⟩⟩
      rw [Pipe.available_of_empty hempty] at hi
      omega
    · rw [if_neg hempty]
      have hmore := Pipe.available_drop hempty
      by_cases hdst : dst got.length = true
      · rw [if_pos hdst]
        obtain ⟨m, hm, hlen, hres⟩ := ih (got ++ [pi.front]) pi.drop
        simp only [length_append, length_singleton] at hlen hres
        refine ⟨m + 1, by omega, by omega, ?_⟩
        have hnread : ∀ j, pi.drop.nread + BitVec.ofNat 32 j =
            pi.nread + BitVec.ofNat 32 (j + 1) := Ring.add_one_ofNat pi.nread
        rcases hres with ⟨hread, hall⟩ | ⟨hread, hlt, hfail⟩
        · refine Or.inl ⟨hread.trans (hnread m), fun i hi => ?_⟩
          cases i with
          | zero => exact hdst
          | succ i =>
            have := hall i (by omega)
            rwa [Nat.add_right_comm, Nat.add_assoc] at this
        · refine Or.inr ⟨hread.trans (hnread (m + 1)), by omega, ?_⟩
          rwa [Nat.add_right_comm, Nat.add_assoc] at hfail
      · rw [if_neg hdst]
        exact ⟨0, Nat.zero_le _, rfl, Or.inr ⟨rfl, by omega, Bool.eq_false_iff.mpr hdst⟩⟩

theorem piperead_cases {killed : Bool} {m : BitVec 32} {pi' : Pipe}
    (h : piperead killed dst m pi = some (ret, got, pi')) :
    ret = -1 ∧ got = [] ∧ pi' = pi ∨
      ret = got.length ∧ readLoop dst m.toInt.toNat [] pi = (pi', got) := by
  unfold piperead at h
  split at h
  · split at h
    · cases h
      exact Or.inl ⟨rfl, rfl, rfl⟩
    · cases h
  · cases h
    exact Or.inr ⟨rfl, rfl⟩

end Pipes

/-! ## The console -/

namespace Console

/-- The first `k` bytes from the read index on. -/
def Cons.ahead (c : Cons) (k : ℕ) : List Byte :=
  (range k).map fun i => c.buf (Ring.slot INPUT_BUF (c.r + BitVec.ofNat 32 i))

/-- The bytes that have been removed when the console has become `c'`. -/
def Cons.removed (c c' : Cons) : List Byte := c.ahead (c'.r - c.r).toNat

/-- A call of `consoleread` with what it meets: the console and `killed`, at first and after
each `sleep`.  The result is its value, what has been copied out, and what has been removed. -/
def consolereadLoop (dst : ℕ → Bool) (target : ℕ) :
    List (Cons × Bool) → ℕ → List Byte → List Byte → Option (ℤ × List Byte × List Byte)
  | [], _, _, _ => none
  | (c, killed) :: visits, n, got, gone =>
    match readLoop killed dst target n got c with
    | (c', .asleep n got) => consolereadLoop dst target visits n got (gone ++ c.removed c')
    | (c', .returned ret got) => some (ret, got, gone ++ c.removed c')

def consoleread (dst : ℕ → Bool) (n : BitVec 32) (visits : List (Cons × Bool)) :
    Option (ℤ × List Byte × List Byte) :=
  consolereadLoop dst n.toInt.toNat visits n.toInt.toNat [] []

/-- The bytes up to the write index, which `consoleintr` has committed. -/
def Cons.committed (c : Cons) : List Byte := c.ahead (c.w - c.r).toNat

/-- How many of the committed bytes a reader of `n` bytes is due, and whether it has to wait for
no more: it gets one line, without the `^D` that may end it. -/
def due : ℕ → List Byte → ℕ × Bool
  | 0, _ => (0, true)
  | _ + 1, [] => (0, false)
  | n + 1, ch :: committed =>
    if ch = C 'D' then (0, true)
    else if ch = newline then (1, true)
    else ((due n committed).1 + 1, (due n committed).2)

/-- How many bytes a call is due of what it meets, and whether it is killed before it has got
them all. -/
def owed : List (Cons × Bool) → ℕ → ℕ × Bool
  | [], _ => (0, false)
  | (c, killed) :: visits, n =>
    let d := due n c.committed
    if d.2 then (d.1, false)
    else if killed then (d.1, true)
    else (d.1 + (owed visits (n - d.1)).1, (owed visits (n - d.1)).2)

theorem ahead_succ (c : Cons) (k : ℕ) : c.ahead (k + 1) =
    c.buf (Ring.slot INPUT_BUF c.r) :: { c with r := c.r + 1 }.ahead k := by
  unfold Cons.ahead
  rw [range_succ_eq_map, map_cons, map_map]
  congr 1
  · rw [BitVec.add_zero]
  · refine map_congr_left fun i _ => ?_
    rw [Ring.add_one_ofNat]
    rfl

theorem committed_of_eq {c : Cons} (h : c.r = c.w) : c.committed = [] := by
  rw [Cons.committed, h, BitVec.sub_self]
  rfl

theorem committed_of_ne {c : Cons} (h : c.r ≠ c.w) : c.committed =
    c.buf (Ring.slot INPUT_BUF c.r) :: { c with r := c.r + 1 }.committed := by
  have hlen : (c.w - c.r).toNat = (c.w - (c.r + 1)).toNat + 1 := by bv_omega
  rw [Cons.committed, hlen, ahead_succ]
  rfl

/-- How the loop ends, when `d` is due and it has delivered `bytes` and removed `rest` as
well. -/
inductive Ending (killed : Bool) (dst : ℕ → Bool) (target n : ℕ) (d : ℕ × Bool)
    (bytes rest : List Byte) : Result → List Byte → Prop
  | asleep {got m} (hd : d = (bytes.length, false)) (hkilled : killed = false)
      (hrest : rest = []) (hm : m + bytes.length = n) :
      Ending killed dst target n d bytes rest (.asleep m got) got
  | killed {got} (hd : d = (bytes.length, false)) (hkilled : killed = true)
      (hrest : rest = []) : Ending killed dst target n d bytes rest (.returned (-1) got) got
  | returned {got} {ret : ℤ} (hd : d = (bytes.length, true))
      (hret : ret = target - n + bytes.length) (hrest : rest = [] ∨ rest = [C 'D']) :
      Ending killed dst target n d bytes rest (.returned ret got) got
  | lost {got x} {ret : ℤ} (hd : bytes.length < d.1) (hret : ret = target - n + bytes.length)
      (hrest : rest = [x]) (hx : x ≠ C 'D') (hdst : dst (target - n + bytes.length) = false) :
      Ending killed dst target n d bytes rest (.returned ret got) got

variable {dst : ℕ → Bool} {target n : ℕ} {got : List Byte} {c c' : Cons} {killed : Bool}
  {res : Result}

theorem Ending.cons {d : ℕ × Bool} {bytes rest : List Byte} {x : Byte}
    (h : Ending killed dst target n d bytes rest res got) (hn : n + 1 ≤ target) :
    Ending killed dst target (n + 1) (d.1 + 1, d.2) (x :: bytes) rest res got := by
  cases h with
  | asleep hd hkilled hrest hm =>
    exact .asleep (by rw [hd]; rfl) hkilled hrest (by rw [length_cons]; omega)
  | killed hd hkilled hrest => exact .killed (by rw [hd]; rfl) hkilled hrest
  | returned hd hret hrest =>
    exact .returned (by rw [hd]; rfl) (by rw [hret, length_cons]; omega) hrest
  | lost hd hret hrest hx hdst =>
    refine .lost (Nat.succ_lt_succ hd) (by rw [hret, length_cons]; omega) hrest hx ?_
    rwa [length_cons, show target - (n + 1) + (bytes.length + 1) =
      target - n + bytes.length by omega]

/-- From `c` to `c'` the loop has delivered `bytes` and removed `rest` as well. -/
structure Reads (killed : Bool) (dst : ℕ → Bool) (target n : ℕ) (got : List Byte) (c c' : Cons)
    (res : Result) (bytes rest : List Byte) : Prop where
  length_le : bytes.length ≤ n
  rest_le : rest.length ≤ 1
  plain : C 'D' ∉ bytes
  good : ∀ i < bytes.length, dst (target - n + i) = true
  index : c'.r = c.r + BitVec.ofNat 32 (bytes ++ rest).length
  ahead : c.ahead (bytes ++ rest).length = bytes ++ rest
  ending : Ending killed dst target n (due n c.committed) bytes rest res (got ++ bytes)

namespace Reads

theorem none {rest : List Byte} (hrest : rest.length ≤ 1)
    (hr : c'.r = c.r + BitVec.ofNat 32 rest.length) (hahead : c.ahead rest.length = rest)
    (hend : Ending killed dst target n (due n c.committed) [] rest res got) :
    Reads killed dst target n got c c' res [] rest :=
  ⟨Nat.zero_le n, hrest, not_mem_nil, nofun, hr, hahead, by rwa [append_nil]⟩

/-- A byte is delivered before those of the next rounds. -/
theorem cons {bytes rest : List Byte} {x : Byte}
    (h : Reads killed dst target n (got ++ [x]) { c with r := c.r + 1 } c' res bytes rest)
    (hn : n + 1 ≤ target) (hne : c.r ≠ c.w) (hx : c.buf (Ring.slot INPUT_BUF c.r) = x)
    (heof : x ≠ C 'D') (hline : x ≠ newline) (hdst : dst (target - (n + 1)) = true) :
    Reads killed dst target (n + 1) got c c' res (x :: bytes) rest := by
  obtain ⟨hlen, hrest, hplain, hgood, hr, hahead, hend⟩ := h
  refine ⟨Nat.succ_le_succ hlen, hrest, ?_, fun i hi => ?_, ?_, ?_, ?_⟩
  · rw [mem_cons, not_or]
    exact ⟨heof.symm, hplain⟩
  · cases i with
    | zero => exact hdst
    | succ i =>
      have := hgood i (Nat.lt_of_succ_lt_succ hi)
      rwa [show target - (n + 1) + (i + 1) = target - n + i by omega]
  · rw [hr, Ring.add_one_ofNat]
    rfl
  · rw [cons_append, length_cons, ahead_succ, hahead, hx]
  · rw [committed_of_ne hne, hx, due, if_neg heof, if_neg hline]
    rw [append_assoc, singleton_append] at hend
    exact hend.cons hn

end Reads

theorem readLoop_spec (hn : n ≤ target) (h : readLoop killed dst target n got c = (c', res)) :
    ∃ bytes rest, Reads killed dst target n got c c' res bytes rest := by
  have hnil : ∀ r, r = r + BitVec.ofNat 32 ([] : List Byte).length := fun r =>
    (BitVec.add_zero r).symm
  induction n generalizing got c with
  | zero =>
    cases h
    exact ⟨[], [], .none (Nat.zero_le _) (hnil _) rfl
      (.returned (due.eq_1 _) (by simp) (Or.inl rfl))⟩
  | succ n ih =>
    have hone : c.ahead 1 = [c.buf (Ring.slot INPUT_BUF c.r)] := ahead_succ c 0
    unfold readLoop at h
    dsimp only at h
    split at h
    next hempty =>
      refine ⟨[], [], .none (Nat.zero_le _) ?_ rfl ?_⟩
      · rw [← (Prod.mk.inj h).1]
        exact hnil _
      rw [committed_of_eq hempty, ← (Prod.mk.inj h).2]
      split
      next hkilled => exact .killed rfl hkilled rfl
      next hkilled => exact .asleep rfl (Bool.eq_false_iff.mpr hkilled) rfl rfl
    next hempty =>
      have hdue := congrArg (due (n + 1)) (committed_of_ne hempty)
      generalize hx : c.buf (Ring.slot INPUT_BUF c.r) = x at h hone hdue
      rw [due] at hdue
      split at h
      next heof =>
        -- The end-of-file character is put back unless it is the first one.
        rw [if_pos heof] at hdue
        obtain rfl := (Prod.mk.inj h).2
        split at h
        next =>
          refine ⟨[], [], .none (Nat.zero_le _) ?_ rfl (.returned hdue (by simp) (Or.inl rfl))⟩
          rw [← (Prod.mk.inj h).1]
          exact (BitVec.add_sub_cancel c.r 1).trans (hnil _)
        next =>
          refine ⟨[], [C 'D'], .none le_rfl ?_ (heof ▸ hone)
            (.returned hdue (by simp) (Or.inr rfl))⟩
          rw [← (Prod.mk.inj h).1]
          rfl
      next heof =>
        rw [if_neg heof] at hdue
        split at h
        next hdst =>
          cases h
          refine ⟨[], [x], .none le_rfl rfl hone (.lost ?_ (by simp) rfl heof hdst)⟩
          rw [hdue]
          split
          · exact Nat.one_pos
          · exact Nat.succ_pos _
        next hdst =>
          have hfirst : dst (target - (n + 1)) = true := Bool.not_eq_false _ ▸ hdst
          split at h
          next hline =>
            cases h
            rw [if_pos hline] at hdue
            refine ⟨[x], [], by simp, Nat.zero_le _, ?_, fun i hi => ?_, rfl, hone,
              .returned hdue rfl (Or.inl rfl)⟩
            · rw [mem_singleton]
              exact Ne.symm heof
            · rwa [Nat.lt_one_iff.mp hi]
          next hline =>
            obtain ⟨bytes, rest, hreads⟩ := ih (by omega) h
            exact ⟨x :: bytes, rest, hreads.cons hn hempty hx heof hline hfirst⟩

theorem removed_eq {l : List Byte} (hr : c'.r = c.r + BitVec.ofNat 32 l.length)
    (hahead : c.ahead l.length = l) (hlen : l.length < 2 ^ 32) : c.removed c' = l := by
  have hdist : (c'.r - c.r).toNat = l.length := by
    rw [hr, BitVec.add_comm, BitVec.add_sub_cancel, BitVec.toNat_ofNat, Nat.mod_eq_of_lt hlen]
  rw [Cons.removed, hdist, hahead]

/-- What a call to which `d` is owed has delivered and removed when it returns. -/
structure Report (dst : ℕ → Bool) (target : ℕ) (d : ℕ × Bool) (ret : ℤ)
    (got gone : List Byte) : Prop where
  length_le : got.length ≤ target
  plain : C 'D' ∉ got
  good : ∀ i < got.length, dst i = true
  gone : ∃ rest, gone = got ++ rest ∧ (ret = -1 ∧ rest = [] ∧ d = (got.length, true) ∨
    ret = got.length ∧ ((rest = [] ∨ rest = [C 'D']) ∧ d = (got.length, false) ∨
      ∃ x, rest = [x] ∧ x ≠ C 'D' ∧ got.length < d.1 ∧ dst got.length = false))

theorem le_owed (c : Cons) (killed : Bool) (visits : List (Cons × Bool)) (n : ℕ) :
    (due n c.committed).1 ≤ (owed ((c, killed) :: visits) n).1 := by
  unfold owed
  dsimp only
  split
  · exact le_rfl
  · split
    · exact le_rfl
    · exact Nat.le_add_right ..

theorem consolereadLoop_spec {got' : List Byte} (hlen : got.length + n = target)
    (htarget : target < 2 ^ 31) (hplain : C 'D' ∉ got) (hgood : ∀ i < got.length, dst i = true)
    (h : consolereadLoop dst target visits n got got = some (ret, got', gone)) :
    Report dst target (got.length + (owed visits n).1, (owed visits n).2) ret got' gone := by
  induction visits generalizing n got with
  | nil => cases h
  | cons visit visits ih =>
    obtain ⟨c, killed⟩ := visit
    have hle := le_owed c killed visits n
    unfold consolereadLoop at h
    rcases hrun : readLoop killed dst target n got c with ⟨c', res⟩
    obtain ⟨bytes, rest, hbytes, hrest, hmem, hdst, hr, hahead, hend⟩ :=
      readLoop_spec (by omega) hrun
    have hremoved : c.removed c' = bytes ++ rest :=
      removed_eq hr hahead (by rw [length_append]; omega)
    have hplain' : C 'D' ∉ got ++ bytes := by
      rw [mem_append, not_or]
      exact ⟨hplain, hmem⟩
    have hsum : (got ++ bytes).length = got.length + bytes.length := length_append
    have hpos : target - n = got.length := by omega
    rw [hpos] at hdst
    have hgood' : ∀ i < (got ++ bytes).length, dst i = true := by
      intro i hi
      rcases Nat.lt_or_ge i got.length with hlt | hge
      · exact hgood i hlt
      · rw [← Nat.add_sub_cancel' hge]
        exact hdst _ (by omega)
    rw [hrun] at h
    cases hend with
    | asleep hd hkilled hnil hm =>
      simp only [hremoved, hnil, append_nil] at h
      rw [owed, hd, hkilled, if_neg Bool.false_ne_true, if_neg Bool.false_ne_true,
        ← Nat.add_assoc, ← hsum, show n - bytes.length = _ from Nat.sub_eq_of_eq_add hm.symm]
      exact ih (by omega) hplain' hgood' h
    | killed hd hkilled hnil =>
      simp only [hremoved] at h
      cases h
      refine ⟨by omega, hplain', hgood', rest, (append_assoc ..).symm, Or.inl ⟨rfl, hnil, ?_⟩⟩
      rw [owed, hd, hkilled, hsum]
      rfl
    | returned hd hret hkind =>
      simp only [hremoved] at h
      cases h
      refine ⟨by omega, hplain', hgood', rest, (append_assoc ..).symm,
        Or.inr ⟨by omega, Or.inl ⟨hkind, ?_⟩⟩⟩
      rw [owed, hd, hsum]
      rfl
    | @lost _ x _ hd hret hone hx hfail =>
      simp only [hremoved] at h
      cases h
      refine ⟨by omega, hplain', hgood', rest, (append_assoc ..).symm,
        Or.inr ⟨by omega, Or.inr ⟨x, hone, hx, ?_, ?_⟩⟩⟩
      · rw [hsum]
        exact Nat.add_lt_add_left (hd.trans_le hle) _
      · rwa [hsum, ← hpos]

theorem toNat_toInt_lt (n : BitVec 32) : n.toInt.toNat < 2 ^ 31 := by
  have := @BitVec.toInt_lt 32 n
  omega

theorem consoleread_spec {n : BitVec 32} (h : consoleread dst n visits = some (ret, got, gone)) :
    Report dst n.toInt.toNat (owed visits n.toInt.toNat) ret got gone := by
  have hreport := consolereadLoop_spec (by simp) (toNat_toInt_lt n) not_mem_nil (by simp) h
  rwa [length_nil, Nat.zero_add] at hreport

/-- One letter has been typed and committed. -/
def oneLetter : Cons := ⟨fun _ => 0x61, 0, 1, 1⟩

end Console

/-! ## When input is lost -/

/-- A read removes what it reports exactly if all bytes that it is due can be stored and, at the
console, it is not killed after it has removed some.  The value `-1` reports no byte. -/
theorem reads_lose_input (dst : ℕ → Bool) (n : BitVec 32) :
    (∀ killed pi ret got pi', Pipes.piperead killed dst n pi = some (ret, got, pi') →
      ret = -1 ∧ pi' = pi ∨ ((pi'.nread - pi.nread).toNat = ret ↔
        ∀ i < min n.toInt.toNat pi.available, dst i = true)) ∧
    ∀ visits ret got gone, Console.consoleread dst n visits = some (ret, got, gone) →
      ((gone.filter (· ≠ Console.C 'D')).length = ret.toNat ↔
        (∀ i < (Console.owed visits n.toInt.toNat).1, dst i = true) ∧
          ((Console.owed visits n.toInt.toNat).2 = true →
            (Console.owed visits n.toInt.toNat).1 = 0)) := by
  refine ⟨fun killed pi ret got pi' hrun => ?_, fun visits ret got gone hrun => ?_⟩
  · have hlt := Console.toNat_toInt_lt n
    rcases Pipes.piperead_cases hrun with ⟨hret, -, hpi⟩ | ⟨rfl, hloop⟩
    · exact Or.inl ⟨hret, hpi⟩
    right
    obtain ⟨m, hm, hlen, hres⟩ := Pipes.readLoop_spec dst n.toInt.toNat [] pi
    have hdist : ∀ j < 2 ^ 32, (pi.nread + BitVec.ofNat 32 j - pi.nread).toNat = j := by
      intro j hj
      rw [BitVec.add_comm, BitVec.add_sub_cancel, BitVec.toNat_ofNat, Nat.mod_eq_of_lt hj]
    simp only [hloop, length_nil, Nat.zero_add] at hlen hres
    rw [hlen]
    rcases hres with ⟨hread, hall⟩ | ⟨hread, hmin, hfail⟩
    · rw [hread, hdist m (by omega)]
      exact iff_of_true rfl hall
    · rw [hread, hdist (m + 1) (by omega)]
      refine iff_of_false (by omega) fun hall => ?_
      rw [hall m hmin] at hfail
      cases hfail
  · obtain ⟨-, hplain, hgood, rest, rfl, hcases⟩ := Console.consoleread_spec hrun
    have hgot : got.filter (· ≠ Console.C 'D') = got := by
      refine filter_eq_self.mpr fun x hx => ?_
      exact decide_eq_true fun heq => hplain (heq ▸ hx)
    rw [filter_append, hgot, length_append]
    rcases hcases with ⟨rfl, rfl, hd⟩ | ⟨rfl, ⟨hrest, hd⟩ | ⟨x, rfl, hx, hlt, hfail⟩⟩
    · rw [hd]
      exact ⟨fun h => ⟨hgood, fun _ => h⟩, fun h => h.2 rfl⟩
    · rw [hd]
      refine iff_of_true ?_ ⟨hgood, fun h => absurd h Bool.false_ne_true⟩
      rcases hrest with rfl | rfl <;> rfl
    · rw [filter_singleton, decide_eq_true hx]
      refine iff_of_false (by simp) fun h => ?_
      rw [h.1 _ hlt] at hfail
      cases hfail

/-- A pipe with one byte. -/
def oneByte : Pipes.Pipe := ⟨fun _ => 7, 0, 1, true, true⟩

/-- A read into a buffer that is not mapped reports 0 and removes a byte.  So does one that is
killed when it has got one byte of two. -/
theorem reads_lose_input_unmapped : (Pipes.piperead false (fun _ => false) 1 oneByte).any
      (fun r => decide (r.1 = 0 ∧ r.2.2.nread = oneByte.nread + 1)) = true ∧
    Console.consoleread (fun _ => false) 1 [(Console.oneLetter, false)] = some (0, [], [0x61]) ∧
    Console.consoleread (fun _ => true) 2
        [(Console.oneLetter, false), ({ Console.oneLetter with r := 1 }, true)] =
      some (-1, [0x61], [0x61]) := by
  decide

/-! ## The length of a read -/

namespace Fs

variable {sb : Superblock} {s t : State} {inum : ℕ} {mem mem' : Memory} {userDst : Bool}
  {dst len a : ℕ}

theorem Memory.write_outside {f : ℕ → Byte} (ha : ¬ (addr ≤ a ∧ a < addr + len)) :
    (mem.write addr len f).byte a = mem.byte a := if_neg ha

theorem copyout_outside {src : ℕ → Byte} (ha : ¬ (dst ≤ a ∧ a < dst + len)) :
    (copyout mem dst src len).1.byte a = mem.byte a := by
  fun_induction copyout mem dst src len with
  | case1 => rfl
  | case2 mem dst src len hlen va0 hmapped n ih =>
    have hpage := page_split dst
    have hn : n = min (PGSIZE - (dst - va0)) len := rfl
    rw [ih (by omega), Memory.write_outside (by omega)]
  | case3 => rfl

theorem readLoop_outside {n tot : ℕ} {ok : Bool}
    (h : readLoop sb inum true n mem dst tot off s = .ok (ok, mem', t))
    (ha : ¬ (dst ≤ a ∧ a < dst + (n - tot))) : mem'.byte a = mem.byte a := by
  fun_induction readLoop sb inum true n mem dst tot off s with
  | case1 mem dst tot off s hlt ih =>
    obtain ⟨⟨addr, s₁⟩, -, h⟩ := Fallible.bind_eq_ok_iff.mp h
    have hm := chunk_le n tot off
    dsimp only at h
    have hcopy := @copyout_outside mem dst (chunk n tot off) a
      (fun i => peek (s₁.disk addr.toNat) (off % BSIZE + i)) (by omega)
    rcases hrun : eitherCopyout true mem dst
      (fun i => peek (s₁.disk addr.toNat) (off % BSIZE + i)) (chunk n tot off) with ⟨mem₁, ok₁⟩
    rw [show copyout mem dst _ _ = (mem₁, ok₁) from hrun] at hcopy
    rw [hrun] at h
    cases ok₁ with
    | true => exact (ih s₁ mem₁ h (by omega)).trans hcopy
    | false =>
      cases h
      exact hcopy
  | case2 mem dst tot off s hlt =>
    cases h
    rfl

/-- `readi` stores at most `m` bytes. -/
theorem readi_bound {n : ℕ} (hoff : off < 2 ^ 32) (hn : n < 2 ^ 32)
    (h : readi sb s inum true mem dst off n = .ok (r, mem', t)) :
    ∃ m ≤ n, m ≤ (s.icache inum).size.toNat - off ∧ (2 ^ 32 ≤ off + n → m = 0) ∧
      (r = asInt m ∨ r = -1) ∧ ∀ a, ¬ (dst ≤ a ∧ a < dst + m) → mem'.byte a = mem.byte a := by
  unfold readi at h
  dsimp only at h
  split at h
  next =>
    cases h
    exact ⟨0, Nat.zero_le _, Nat.zero_le _, fun _ => rfl, Or.inl rfl, fun _ _ => rfl⟩
  next hchecks =>
    generalize hm : (if (off + n) % 2 ^ 32 > (s.icache inum).size.toNat then
      (s.icache inum).size.toNat - off else n) = m at h
    obtain ⟨⟨ok, mem₁, s₁⟩, hloop, h⟩ := Fallible.bind_eq_ok_iff.mp h
    cases h
    refine ⟨m, ?_, ?_, fun hwrap => by omega, ?_, fun a ha => readLoop_outside hloop ha⟩
    · rw [← hm]
      split <;> omega
    · rw [← hm]
      split <;> omega
    · cases ok with
      | true => exact Or.inl rfl
      | false => exact Or.inr rfl

end Fs

namespace Reads

open Fs Sysfile

def CONSOLE : ℤ := 1

/-- What a call of `fileread` meets in the pipe or at the console. -/
structure World where
  pipe : Pipes.Pipe
  killed : Bool
  visits : List (Console.Cons × Bool)

/-- `fileread`; there is no result while the call sleeps.  Only the console has a
`devsw[].read`. -/
def fileread (sb : Superblock) (s : Fs.State) (f : OpenFile) (w : World) (mem : Memory)
    (addr : ℕ) (n : BitVec 32) : Except Sysfile.Panic (Option (ℤ × Memory)) :=
  let dst := fun i => mem.mapped ((addr + i) / PGSIZE)
  if f.readable = false then
    .ok (some (-1, mem))
  else
    match f.type with
    | .pipe => .ok ((Pipes.piperead w.killed dst n w.pipe).map fun r => (r.1, mem.store addr r.2.1))
    | .device =>
      if f.major.toInt < 0 ∨ f.major.toInt ≥ NDEV ∨ f.major.toInt ≠ CONSOLE then
        .ok (some (-1, mem))
      else
        .ok ((Console.consoleread dst n w.visits).map fun r => (r.1, mem.store addr r.2.1))
    | .inode =>
      (do
        let s ← Fs.ilock sb s f.ip
        let r ← Fs.readi sb s f.ip true mem addr f.off.toNat n.toNat
        return some (r.1, r.2.1)).mapError .fs
    | .none => .error .fileread

/-- A file that is open, with an allocated inode if it has one. -/
def Opened (sb : Superblock) (s : Fs.State) (f : OpenFile) : Prop :=
  f.type ≠ .none ∧ (f.type = .inode → f.ip < sb.ninodes ∧ (s.inode sb f.ip).type ≠ 0)

/-- A read of `n` bytes stores nothing else, and returns no larger number. -/
structure Within (mem mem' : Memory) (addr : ℕ) (n : BitVec 32) (r : ℤ) : Prop where
  stores : ∀ a, ¬ (addr ≤ a ∧ a < addr + n.toInt.toNat) → mem'.byte a = mem.byte a
  ret : r ≤ max n.toInt 0

/-- The length is negative, and so small that it does not wrap around at the offset. -/
def Overreads (sb : Superblock) (s : Fs.State) (f : OpenFile) (n : BitVec 32) : Prop :=
  f.readable = true ∧ f.type = .inode ∧ f.off.toNat < (s.inode sb f.ip).size.toNat ∧
    n.toInt < 0 ∧ f.off.toNat + n.toInt < 0

variable {sb : Superblock} {s : Fs.State} {f : OpenFile}

theorem within_store {mem : Memory} {n : BitVec 32} {got : List Byte}
    (hlen : got.length ≤ n.toInt.toNat) (hr : r ≤ got.length) :
    Within mem (mem.store addr got) addr n r :=
  ⟨fun a ha => Memory.write_outside (by omega), by omega⟩

theorem ilock_opened (h : Consistent sb s) (hi : i < sb.ninodes) (htype : (s.inode sb i).type ≠ 0) :
    ∃ t, Fs.ilock sb s i = .ok t ∧ Locked sb t i ∧ t.disk = s.disk ∧
      ∀ j, t.inode sb j = s.inode sb j := by
  have hok : ∃ t, Fs.ilock sb s i = .ok t := by
    unfold Fs.ilock
    split
    next hvalid =>
      have hself : (s.inode sb i).type = (readDinode sb s.disk i).type := by rw [h.inode_eq hi]
      dsimp only
      rw [if_neg]
      · exact ⟨_, rfl⟩
      · rw [Fs.State.setInode]
        simpa using hself ▸ htype
    next => exact ⟨s, rfl⟩
  obtain ⟨t, ht⟩ := hok
  obtain ⟨-, hl, hdisk, hinode⟩ := ilock_ok h hi ht
  exact ⟨t, ht, hl, hdisk, hinode⟩

/-- The result for a file with an inode is that of `readi`. -/
theorem fileread_inode (h : Consistent sb s) (hholes : NoHoles sb s) (hf : Opened sb s f)
    (hread : f.readable = true) (htype : f.type = .inode) (addr : ℕ) (n : BitVec 32) :
    ∃ t, Locked sb t f.ip ∧ NoHoles sb t ∧ t.inode sb f.ip = s.inode sb f.ip ∧ ∀ w mem, ∃ r mem',
        Fs.readi sb t f.ip true mem addr f.off.toNat n.toNat = .ok (r, mem', t) ∧
        fileread sb s f w mem addr n = .ok (some (r, mem')) := by
  obtain ⟨hi, hused⟩ := hf.2 htype
  obtain ⟨t, hlock, hl, hdisk, hinode⟩ := ilock_opened h hi hused
  have hholes' := noHoles_of_inode_eq hholes hdisk hinode
  refine ⟨t, hl, hholes', hinode f.ip, fun w mem => ?_⟩
  obtain ⟨r, mem', hrun⟩ := @readi_unchanged sb t f.ip mem f.off.toNat n.toNat addr true hl
    hholes' n.isLt
  refine ⟨r, mem', hrun, ?_⟩
  unfold fileread
  rw [if_neg (by rw [hread]; decide), htype, hlock]
  dsimp only [bind, Except.bind]
  rw [hrun]
  rfl

/-- `fileread` delivers no more than asked for, whatever is mapped and whatever the pipe or
the console contains, unless a negative length is taken for a large one. -/
theorem fileread_within (h : Consistent sb s) (hholes : NoHoles sb s) (hf : Opened sb s f)
    (addr : ℕ) (n : BitVec 32) :
    (∀ w mem, ∃ res, fileread sb s f w mem addr n = .ok res ∧
        ∀ r mem', res = some (r, mem') → Within mem mem' addr n r) ↔
      ¬ Overreads sb s f n := by
  have hn := n.isLt
  have hoff := f.off.isLt
  have hsign : n.toInt = if 2 * n.toNat < 2 ^ 32 then (n.toNat : ℤ) else n.toNat - 2 ^ 32 :=
    BitVec.toInt_eq_toNat_cond n
  constructor
  · rintro hall ⟨hread, htype, hsize, hneg, hwrap⟩
    obtain ⟨t, hl, hholes', hinode, hres⟩ := fileread_inode h hholes hf hread htype addr n
    obtain ⟨r, mem', hrun, hfile⟩ := hres ⟨oneByte, false, []⟩ ⟨fun _ => true, fun _ => 0⟩
    obtain ⟨res, hok, hwithin⟩ := hall ⟨oneByte, false, []⟩ ⟨fun _ => true, fun _ => 0⟩
    rw [hfile] at hok
    have hret := (hwithin r mem' (Except.ok.inj hok).symm).ret
    rw [readi_ok hl hholes' (by omega) fun _ _ _ _ => rfl] at hrun
    have hr := (Prod.mk.inj (Except.ok.inj hrun)).1
    rw [File.length_read, length_content, hinode] at hr
    omega
  · intro hnot w mem
    by_cases hread : f.readable = true
    · cases htype : f.type with
      | none => exact absurd htype hf.1
      | pipe =>
        refine ⟨_, by rw [fileread, if_neg (by rw [hread]; decide), htype], ?_⟩
        intro r mem' hres
        obtain ⟨⟨ret, got, pi⟩, hpipe, heq⟩ := Option.map_eq_some_iff.mp hres
        obtain ⟨rfl, rfl⟩ := Prod.mk.inj heq
        rcases Pipes.piperead_cases hpipe with ⟨rfl, rfl, -⟩ | ⟨rfl, hloop⟩
        · exact within_store (Nat.zero_le _) (by simp)
        · obtain ⟨m, hm, hlen, -⟩ := Pipes.readLoop_spec
            (fun i => mem.mapped ((addr + i) / PGSIZE)) n.toInt.toNat [] w.pipe
          rw [hloop, length_nil, Nat.zero_add] at hlen
          exact within_store (hlen.trans_le hm) le_rfl
      | device =>
        rw [fileread, if_neg (by rw [hread]; decide), htype]
        dsimp only
        split
        · refine ⟨_, rfl, fun r mem' hres => ?_⟩
          cases hres
          exact ⟨fun _ _ => rfl, by omega⟩
        · refine ⟨_, rfl, fun r mem' hres => ?_⟩
          obtain ⟨⟨ret, got, gone⟩, hcons, heq⟩ := Option.map_eq_some_iff.mp hres
          obtain ⟨rfl, rfl⟩ := Prod.mk.inj heq
          obtain ⟨hlen, -, -, rest, -, ⟨hret, -⟩ | ⟨hret, -⟩⟩ := Console.consoleread_spec hcons
          · exact within_store hlen (hret.trans_le (by omega))
          · exact within_store hlen hret.le
      | inode =>
        obtain ⟨t, hl, hholes', hinode, hres⟩ := fileread_inode h hholes hf hread htype addr n
        obtain ⟨r, mem', hrun, hfile⟩ := hres w mem
        refine ⟨_, hfile, fun r' mem'' heq => ?_⟩
        cases heq
        obtain ⟨m, hm, hsize, hwrap, hr, hout⟩ := readi_bound hoff hn hrun
        have hmax : (t.icache f.ip).size.toNat ≤ MAXFILE * BSIZE := by
          have := hholes'.size_le hl.lt (by rw [hl.inode]; exact hl.type)
          rwa [hl.inode] at this
        have hsame : (t.icache f.ip).size = (s.inode sb f.ip).size := by rw [← hinode, hl.inode]
        have hle : m ≤ n.toInt.toNat := by
          by_contra hgt
          refine hnot ⟨hread, htype, ?_, ?_, ?_⟩
          · rw [← hsame]
            omega
          · omega
          · omega
        rw [asInt_of_lt (hsize.trans ((Nat.sub_le _ _).trans hmax) |>.trans_lt (by decide))] at hr
        exact ⟨fun a ha => hout a (by omega), by omega⟩
    · refine ⟨_, by rw [fileread, if_pos (Bool.eq_false_iff.mpr hread)], fun r mem' hres => ?_⟩
      cases hres
      exact ⟨fun _ _ => rfl, by omega⟩

/-- An open file with the inode of the tiny disk, at offset 0. -/
def tinyFile : OpenFile := ⟨.inode, 1, true, false, 1, 0, 0⟩

theorem opened_tinyFile : Opened tinySuperblock tinyState tinyFile := by
  refine ⟨by decide, fun _ => ⟨by decide, ?_⟩⟩
  change (tinyState.inode tinySuperblock 1).type ≠ 0
  rw [tinyState_locked.inode]
  decide

theorem fileread_within_tiny : ¬ Overreads tinySuperblock tinyState tinyFile 5 ∧
      ∀ w mem, ∃ res, fileread tinySuperblock tinyState tinyFile w mem 0 5 = .ok res ∧
        ∀ r mem', res = some (r, mem') → Within mem mem' 0 5 r := by
  have hnot : ¬ Overreads tinySuperblock tinyState tinyFile 5 := fun h =>
    absurd h.2.2.2.1 (by decide)
  exact ⟨hnot, (fileread_within tinyState_planted.consistent tinyState_planted.noHoles
    opened_tinyFile 0 5).mpr hnot⟩

/-- `read(fd, buf, -1)` returns the whole file. -/
theorem fileread_minus_one : Overreads tinySuperblock tinyState tinyFile (-1) ∧
    ∃ mem', fileread tinySuperblock tinyState tinyFile ⟨oneByte, false, []⟩
        ⟨fun _ => true, fun _ => 0⟩ 0 (-1) = .ok (some (1024, mem')) ∧
      ¬ Within ⟨fun _ => true, fun _ => 0⟩ mem' 0 (-1) 1024 := by
  have hsize : (tinyState.inode tinySuperblock tinyFile.ip).size = 1024 := by
    change (tinyState.inode tinySuperblock 1).size = 1024
    rw [tinyState_locked.inode]
    rfl
  refine ⟨⟨rfl, rfl, by rw [hsize]; decide, by decide, by decide⟩, ?_⟩
  obtain ⟨t, hl, hholes, hinode, hres⟩ := @fileread_inode tinySuperblock tinyState tinyFile
    tinyState_planted.consistent tinyState_planted.noHoles opened_tinyFile rfl rfl 0 (-1)
  obtain ⟨r, mem', hrun, hfile⟩ := hres ⟨oneByte, false, []⟩ ⟨fun _ => true, fun _ => 0⟩
  rw [readi_ok hl hholes (by decide) fun _ _ _ _ => rfl] at hrun
  have hr := (Prod.mk.inj (Except.ok.inj hrun)).1
  rw [File.length_read, length_content, hinode, hsize] at hr
  obtain rfl : r = 1024 := hr.symm
  exact ⟨mem', hfile, fun hwithin => absurd hwithin.ret (by decide)⟩

end Reads

end OsCa
