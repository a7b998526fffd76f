import Mathlib.Data.List.Basic
import OsCa.User.Grep.Match

/-!
# The lines that `grep` writes

`buf` is a list of 1024 bytes, and a pointer into it is the list of the bytes from there.
An access outside of the buffer is `none`.  `read` returns at least one byte and at most
what it is asked for, and none at the end of the input or if it is asked for none.
-/

namespace OsCa.Grep

open Bytes List

def newline : Byte := 0x0a

/-- The index of `c` in the string. -/
def strchr (c : Byte) : Str → Option (Option ℕ)
  | [] => none
  | b :: s =>
    if b = 0 then some none
    else if b = c then some (some 0)
    else (strchr c s).map fun k => k.map (· + 1)

/-- The loop over the lines of the buffer, where `s` is the buffer from `p` on.  It returns
what stands before and behind the last `p`, and what has been written. -/
def grepLines (pattern s : Str) : Option (Str × Str × Str) :=
  match strchr newline s with
  | none => none
  | some none => some ([], s, [])
  | some (some q) =>
    if q < s.length then
      let found := «match» pattern ((s.set q 0).takeWhile (· ≠ 0))
      let line := s.take q ++ [if found then newline else 0]
      (grepLines pattern (s.drop (q + 1))).map fun r =>
        (line ++ r.1, r.2.1, if found then line ++ r.2.2 else r.2.2)
    else none
termination_by s.length
decreasing_by
  rw [length_drop]
  omega

/-- `grep` from its read number `i` on, with `size i` for how many bytes there are then.
The result is what is written. -/
def grep (pattern : Str) (size : ℕ → ℕ) (i : ℕ) (input buf : Str) (m : ℕ) : Option Str :=
  let n := min (max (size i) 1) (min (buf.length - m - 1) input.length)
  if n = 0 then some []
  else
    let buf := buf.take m ++ input.take n ++ buf.drop (m + n)
    if m + n < buf.length then
      match grepLines pattern (buf.set (m + n) 0) with
      | none => none
      | some (front, rest, out) =>
        -- `m > 0` holds, and `memmove` leaves the bytes behind the moved ones.
        let left := m + n - front.length
        (grep pattern size (i + 1) (input.drop n)
          (rest.take left ++ (front ++ rest).drop left) left).map (out ++ ·)
    else none
termination_by input.length
decreasing_by
  rw [length_drop]
  omega

/-- The lines that match, among those in front of the first one that is too long. -/
def selected (pattern input : Str) : Str := let lines := (input.splitOnP (· == newline)).dropLast
  ((lines.takeWhile fun l => decide (l.length ≤ 1022)).filter («match» pattern)).flatMap
    (· ++ [newline])

variable {pattern s t z l : Str}

theorem selected_of_notMem (h : newline ∉ s) : selected pattern s = [] := by
  have hsplit : s.splitOnP (· == newline) = [s] :=
    splitOnP_eq_singleton fun c hc => by simpa using fun (heq : c = newline) => h (heq ▸ hc)
  simp [selected, hsplit]

theorem selected_line (h : newline ∉ l) : selected pattern (l ++ newline :: s) =
      if l.length ≤ 1022 then
        (if «match» pattern l then l ++ [newline] else []) ++ selected pattern s
      else [] := by
  have hsplit : (l ++ newline :: s).splitOnP (· == newline) = l :: s.splitOnP (· == newline) :=
    splitOnP_append_cons_of_forall_mem
      (fun c hc => by simpa using fun (heq : c = newline) => h (heq ▸ hc)) _ (by simp) _
  rw [selected, hsplit, dropLast_cons_of_ne_nil (splitOnP_ne_nil _ _), takeWhile_cons]
  by_cases hlen : l.length ≤ 1022
  · by_cases hmatch : «match» pattern l <;> simp [hlen, hmatch, selected]
  · simp [hlen]

theorem strchr_line (h₀ : (0 : Byte) ∉ l) (h : newline ∉ l) (z : Str) :
    strchr newline (l ++ newline :: z) = some (some l.length) := by
  induction l with
  | nil => rfl
  | cons b l ih =>
    simp only [mem_cons, not_or] at h₀ h
    rw [cons_append, strchr, if_neg (Ne.symm h₀.1), if_neg (Ne.symm h.1), ih h₀.2 h.2]
    rfl

theorem strchr_rest (h₀ : (0 : Byte) ∉ t) (h : newline ∉ t) (z : Str) :
    strchr newline (t ++ 0 :: z) = some none := by
  induction t with
  | nil => rfl
  | cons b t ih =>
    simp only [mem_cons, not_or] at h₀ h
    rw [cons_append, strchr, if_neg (Ne.symm h₀.1), if_neg (Ne.symm h.1), ih h₀.2 h.2]
    rfl

/-- The string that `match` gets. -/
theorem cstring_line (h₀ : (0 : Byte) ∉ l) (z : Str) :
    ((l ++ newline :: z).set l.length 0).takeWhile (· ≠ 0) = l := by
  have hpos : ∀ c ∈ l, decide (c ≠ 0) = true := fun c hc => decide_eq_true fun heq => h₀ (heq ▸ hc)
  rw [set_append_right _ _ (Nat.le_refl _), Nat.sub_self, set_cons_zero,
    takeWhile_append_of_pos hpos, takeWhile_cons_of_neg (by simp), append_nil]

/-- The loop takes the lines from the front, whatever follows in the input. -/
theorem grepLines_spec (pattern t z : Str) (h₀ : (0 : Byte) ∉ t) (hlen : t.length ≤ 1023) :
    ∃ front t' out, grepLines pattern (t ++ 0 :: z) = some (front, t' ++ 0 :: z, out) ∧
      front.length + t'.length = t.length ∧ (0 : Byte) ∉ t' ∧ newline ∉ t' ∧
      ∀ r, selected pattern (t ++ r) = out ++ selected pattern (t' ++ r) := by
  induction hn : t.length using Nat.strong_induction_on generalizing t with
  | _ n ih =>
    subst hn
    by_cases h : newline ∈ t
    · obtain ⟨l, u, rfl, hl⟩ := eq_append_cons_of_mem h
      simp only [mem_append, mem_cons, not_or] at h₀
      simp only [length_append, length_cons] at hlen ih ⊢
      obtain ⟨front, t', out, hlines, hfront, h₀', h', hall⟩ :=
        ih u.length (by omega) u h₀.2.2 (by omega) rfl
      rw [grepLines, append_assoc, cons_append, strchr_line h₀.1 hl]
      have hdrop : (l ++ newline :: (u ++ 0 :: z)).drop (l.length + 1) = u ++ 0 :: z := by simp
      simp only [cstring_line h₀.1, hdrop, hlines, take_left, Option.map_some]
      rw [if_pos (by simp)]
      refine ⟨_, t', _, rfl, by simp; omega, h₀', h', fun r => ?_⟩
      rw [append_assoc, cons_append, selected_line hl, if_pos (by omega), hall]
      by_cases hmatch : «match» pattern l <;> simp [hmatch]
    · exact ⟨[], t, [], by rw [grepLines, strchr_rest h₀ h], by simp, h₀, h, fun _ => rfl⟩

/-- What is held back, with the rest of the input, has the lines still to be written. -/
theorem grep_from (pattern : Str) (size : ℕ → ℕ) (i : ℕ) (input buf : Str) (m : ℕ)
    (hbuf : buf.length = 1024) (hm : m ≤ 1023) (hinput : (0 : Byte) ∉ input)
    (h₀ : (0 : Byte) ∉ buf.take m) (h : newline ∉ buf.take m) :
    grep pattern size i input buf m = some (selected pattern (buf.take m ++ input)) := by
  induction hn : input.length using Nat.strong_induction_on generalizing i input buf m with
  | _ k ih =>
    subst hn
    rw [grep]
    generalize hn : min (max (size i) 1) (min (buf.length - m - 1) input.length) = n
    dsimp only
    have hheld : (buf.take m).length = m := by simp [hbuf]; omega
    split_ifs with hzero hroom
    · -- The input has ended, or the buffer is full.
      congr 1
      by_cases hnl : newline ∈ input
      · obtain ⟨l, r, rfl, hl⟩ := eq_append_cons_of_mem hnl
        have hlong : ¬ (buf.take m ++ l).length ≤ 1022 := by
          simp only [length_append, length_cons] at hn ⊢
          omega
        rw [← append_assoc, selected_line (by simp [h, hl]), if_neg hlong]
      · exact (selected_of_notMem (by simp [h, hnl])).symm
    · have htake : (input.take n).length = n := by simp; omega
      have hchunk : (0 : Byte) ∉ buf.take m ++ input.take n :=
        not_mem_append h₀ fun hc => hinput (mem_of_mem_take hc)
      have hset : (buf.take m ++ input.take n ++ buf.drop (m + n)).set (m + n) 0 =
          buf.take m ++ input.take n ++ 0 :: buf.drop (m + n + 1) := by
        have hcons := drop_eq_getElem_cons (l := buf) (i := m + n) (by omega)
        rw [set_append_right _ _ (by simp; omega), length_append, hheld, htake,
          Nat.sub_self, hcons, set_cons_zero]
      obtain ⟨front, t', out, hlines, hfront, h₀', h', hall⟩ :=
        grepLines_spec pattern _ (buf.drop (m + n + 1)) hchunk (by simp; omega)
      rw [length_append, hheld, htake] at hfront
      rw [hset, hlines]
      have hleft : m + n - front.length = t'.length := by omega
      dsimp only
      rw [hleft, take_left, ih (input.drop n).length (by simp; omega) (i + 1) (input.drop n)
        _ _ (by simp; omega) (by omega) (fun hc => hinput (mem_of_mem_drop hc))
        (by simpa using h₀') (by simpa using h') rfl, take_left]
      rw [Option.map_some, ← hall, append_assoc, take_append_drop]
    · simp at hroom
      omega

/-- For every way to split the input into reads, `grep` ends without an access outside of
`buf`, and writes the lines that match. -/
theorem grep_writes_selected (pattern : Str) (size : ℕ → ℕ) (input buf : Str)
    (hbuf : buf.length = 1024) (hinput : (0 : Byte) ∉ input) :
    grep pattern size 0 input buf 0 = some (selected pattern input) :=
  grep_from pattern size 0 input buf 0 hbuf (Nat.zero_le _) hinput (by simp) (by simp)

/-- The pattern `b`, and two lines that are read byte by byte. -/
theorem grep_writes_selected_byteByByte :
    grep [0x62] (fun _ => 1) 0 [0x61, newline, 0x62, newline] (replicate 1024 0) 0 =
      some [0x62, newline] := by
  rw [grep_writes_selected _ _ _ _ (length_replicate ..) (by decide)]
  decide

end OsCa.Grep
