import OsCa.Support.Bytes

/-!
# The matcher of `grep`

This module embeds `match`, `matchhere` and `matchstar` of `user/grep.c`.  A string is the
list of its characters, so `*text` is the head of the list, and the NUL stands at its end.
`matchstar` gets `matchhere(re, ·)` as an argument.

A pattern is a list of items, each for one character or for any number of them.
-/

namespace OsCa.Grep

open Bytes

abbrev Str := List Byte

def caret : Byte := 0x5e

def dollar : Byte := 0x24

def star : Byte := 0x2a

def dot : Byte := 0x2e

/-- `c=='.' || c==t`. -/
def accepts (c t : Byte) : Bool := decide (c = dot ∨ c = t)

def matchstar (here : Str → Bool) (c : Byte) : Str → Bool
  | [] => here []
  | t :: text => here (t :: text) || (accepts c t && matchstar here c text)

def matchhere : Str → Str → Bool
  | [], _ => true
  | [c], text =>
    if c = dollar then text.isEmpty
    else
      match text with
      | [] => false
      | t :: _ => accepts c t
  | c :: d :: re, text =>
    if d = star then matchstar (fun text => matchhere re text) c text
    else
      match text with
      | [] => false
      | t :: text => accepts c t && matchhere (d :: re) text

/-- The loop of `match`. -/
def matchFrom (re : Str) : Str → Bool
  | [] => matchhere re []
  | t :: text => matchhere re (t :: text) || matchFrom re text

def «match» (re text : Str) : Bool :=
  if re.head? = some caret then matchhere re.tail text else matchFrom re text

/-! ## Patterns -/

structure Item where
  char : Byte
  starred : Bool

/-- The items of a pattern, and whether it ends with an unstarred `$`. -/
def items : Str → List Item × Bool
  | [] => ([], false)
  | [c] => if c = dollar then ([], true) else ([⟨c, false⟩], false)
  | c :: d :: re =>
    if d = star then (⟨c, true⟩ :: (items re).1, (items re).2)
    else (⟨c, false⟩ :: (items (d :: re)).1, (items (d :: re)).2)

/-- One accepted character, or any number of them. -/
def Item.Reads (i : Item) (x : Str) : Prop :=
  (∀ t ∈ x, accepts i.char t = true) ∧ (i.starred = false → x.length = 1)

/-- The items read the string one after the other. -/
def Reads : List Item → Str → Prop
  | [], x => x = []
  | i :: is, x => ∃ u v, x = u ++ v ∧ i.Reads u ∧ Reads is v

/-- The items read a beginning of the text, and all of it if it has to end there. -/
def ReadsHere (r : List Item × Bool) (text : Str) : Prop :=
  ∃ x y, text = x ++ y ∧ Reads r.1 x ∧ (r.2 = true → y = [])

variable {re text : Str} {i : Item} {is : List Item} {c : Byte} {e : Bool}

theorem readsHere_cons :
    ReadsHere (i :: is, e) text ↔ ∃ u v, text = u ++ v ∧ i.Reads u ∧ ReadsHere (is, e) v := by
  constructor
  · rintro ⟨_, y, rfl, ⟨u, v, rfl, hu, hv⟩, hend⟩
    exact ⟨u, v ++ y, by simp, hu, v, y, rfl, hv, hend⟩
  · rintro ⟨u, _, rfl, hu, x, y, rfl, hx, hend⟩
    exact ⟨u ++ x, y, by simp, ⟨u, x, rfl, hu, hx⟩, hend⟩

/-- An item without a star takes the first character. -/
theorem readsHere_char : ReadsHere (⟨c, false⟩ :: is, e) text ↔
      ∃ t rest, text = t :: rest ∧ accepts c t = true ∧ ReadsHere (is, e) rest := by
  rw [readsHere_cons]
  constructor
  · rintro ⟨u, v, rfl, ⟨hall, hlen⟩, hv⟩
    obtain ⟨t, rfl⟩ := List.length_eq_one_iff.mp (hlen rfl)
    exact ⟨t, v, rfl, hall t (by simp), hv⟩
  · rintro ⟨t, rest, rfl, ht, hrest⟩
    exact ⟨[t], rest, rfl, ⟨by simpa using ht, fun _ => rfl⟩, hrest⟩

/-- The search with the shortest repetition first is complete. -/
theorem matchstar_iff (here : Str → Bool) (text : Str) : matchstar here c text = true ↔
      ∃ u v, text = u ++ v ∧ (∀ t ∈ u, accepts c t = true) ∧ here v = true := by
  induction text with
  | nil => simp [matchstar]
  | cons t text ih =>
    rw [matchstar, Bool.or_eq_true, Bool.and_eq_true, ih]
    constructor
    · rintro (hhere | ⟨ht, u, v, rfl, hu, hv⟩)
      · exact ⟨[], t :: text, rfl, by simp, hhere⟩
      · exact ⟨t :: u, v, rfl, by simpa using ⟨ht, hu⟩, hv⟩
    · rintro ⟨_ | ⟨t', u⟩, v, heq, hu, hv⟩
      · exact Or.inl (heq ▸ hv)
      · obtain ⟨rfl, rfl⟩ := List.cons.inj heq
        exact Or.inr ⟨hu t (by simp), u, v, rfl, fun x hx => hu x (by simp [hx]), hv⟩

theorem matchhere_iff (re text : Str) : matchhere re text = true ↔ ReadsHere (items re) text := by
  induction re, text using matchhere.induct with
  | case1 text => exact iff_of_true rfl ⟨[], text, rfl, rfl, by simp [items]⟩
  | case2 text =>
    simp only [matchhere, items, if_true, List.isEmpty_iff]
    exact ⟨fun h => ⟨[], [], by simp [h], rfl, by simp⟩, by
      rintro ⟨x, y, rfl, hx, hy⟩
      simp [show x = [] from hx, hy rfl]⟩
  | case3 c hc | case4 c hc t text =>
    rw [items, if_neg hc, readsHere_char]
    simp [matchhere, hc, ReadsHere, Reads]
  | case5 c re text ih =>
    rw [items, if_pos rfl, readsHere_cons]
    simp [matchhere, matchstar_iff, Item.Reads, ih]
  | case6 c d re hd | case7 c d re hd t text ih =>
    rw [items, if_neg hd, readsHere_char]
    simp_all [matchhere]

/-- `match` looks at every place of the text. -/
theorem matchFrom_iff (re text : Str) :
    matchFrom re text = true ↔ ∃ w v, text = w ++ v ∧ ReadsHere (items re) v := by
  induction text with
  | nil => simp [matchFrom, matchhere_iff]
  | cons t text ih =>
    rw [matchFrom, Bool.or_eq_true, matchhere_iff, ih]
    constructor
    · rintro (hhere | ⟨w, v, rfl, hv⟩)
      · exact ⟨[], t :: text, rfl, hhere⟩
      · exact ⟨t :: w, v, rfl, hv⟩
    · rintro ⟨_ | ⟨t', w⟩, v, heq, hv⟩
      · exact Or.inl (heq ▸ hv)
      · obtain ⟨rfl, rfl⟩ := List.cons.inj heq
        exact Or.inr ⟨w, v, rfl, hv⟩

/-- `match` finds a part of the text that the items of the pattern read.  It is at the
beginning of the text if the pattern begins with `^`, and at the end of the text if the
last item is an unstarred `$`; everywhere else these characters are items themselves. -/
theorem match_decides_pattern (re text : Str) :
    «match» re text = true ↔ ∃ w x y, text = w ++ (x ++ y) ∧
      Reads (items (if re.head? = some caret then re.tail else re)).1 x ∧
      (re.head? = some caret → w = []) ∧
      ((items (if re.head? = some caret then re.tail else re)).2 = true → y = []) := by
  unfold «match»
  split
  next hcaret =>
    rw [matchhere_iff]
    constructor
    · rintro ⟨x, y, rfl, hx, hy⟩
      exact ⟨[], x, y, rfl, hx, fun _ => rfl, hy⟩
    · rintro ⟨w, x, y, rfl, hx, hw, hy⟩
      rw [hw hcaret]
      exact ⟨x, y, rfl, hx, hy⟩
  next hcaret =>
    rw [matchFrom_iff]
    constructor
    · rintro ⟨w, _, rfl, x, y, rfl, hx, hy⟩
      exact ⟨w, x, y, rfl, hx, fun h => absurd h hcaret, hy⟩
    · rintro ⟨w, x, y, rfl, hx, -, hy⟩
      exact ⟨w, x ++ y, rfl, x, y, rfl, hx, hy⟩

end OsCa.Grep
