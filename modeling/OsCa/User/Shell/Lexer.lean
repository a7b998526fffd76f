import OsCa.User.Shell.Model
import Mathlib.Data.List.Infix

/-!
# Tokens of a line

`tokens` splits a line at whitespace and symbols.  `gettoken` returns the first
token, and `peek` looks at the first character of it.
-/

namespace OsCa.Shell

open Bytes List

variable {c : Byte} {s : Str}

inductive RedirOp where
  | input
  | output
  | append
  deriving DecidableEq

inductive Token where
  | redir (op : RedirOp)
  | bar
  | amp
  | semi
  | lparen
  | rparen
  | word (w : Str)
  deriving DecidableEq

/-- The token of a symbol that stands alone. -/
def symbolToken (c : Byte) : Token := if c = ch '<' then .redir .input else if c = ch '|' then .bar
  else if c = ch '>' then .redir .output
  else if c = ch '&' then .amp
  else if c = ch ';' then .semi
  else if c = ch '(' then .lparen
  else .rparen

/-- A character of a word before the other tokens.  It belongs to the first of them
if the next character is of a word too. -/
def consWord (c : Byte) (joined : Bool) : List Token → List Token
  | .word w :: ts => if joined then .word (c :: w) :: ts else .word [c] :: .word w :: ts
  | ts => .word [c] :: ts

def tokens : Str → List Token
  | [] => []
  | [c] => if isWhitespace c then [] else if isWord c then [.word [c]] else [symbolToken c]
  | c :: d :: s =>
    if isWhitespace c then tokens (d :: s)
    else if isWord c then consWord c (isWord d) (tokens (d :: s))
    else if c = ch '>' ∧ d = ch '>' then .redir .append :: tokens s
    else symbolToken c :: tokens (d :: s)

/-! ## Classes of characters -/

theorem isWord_eq_false_of_isWhitespace (h : isWhitespace c = true) : isWord c = false := by
  simp only [isWhitespace, decide_eq_true_eq] at h
  simp [isWord, h]

theorem mem_symbols (hspace : isWhitespace c = false) (hword : isWord c = false) : c ∈ symbols := by
  simp only [isWhitespace, decide_eq_false_iff_not] at hspace
  simp only [isWord, decide_eq_false_iff_not, not_and, not_not] at hword
  exact hword hspace

theorem isWord_eq_false_of_mem (h : c ∈ symbols) : isWord c = false := by
  simp [isWord, h]

/-! ## The first token -/

/-- What `gettoken` returns for a token. -/
def Token.code : Token → Byte
  | .redir .input => ch '<'
  | .redir .output => ch '>'
  | .redir .append => ch '+'
  | .bar => ch '|'
  | .amp => ch '&'
  | .semi => ch ';'
  | .lparen => ch '('
  | .rparen => ch ')'
  | .word _ => ch 'a'

/-- The token is a symbol that starts with one of the characters. -/
def Token.startsIn (toks : List Byte) : Token → Bool
  | .redir .append => decide (ch '>' ∈ toks)
  | .word _ => false
  | t => decide (t.code ∈ toks)

/-- The text of the string. -/
def Span.text (a : Span) : Str := a.q.take (a.q.length - a.eq.length)

/-- The string is a word of the line. -/
structure IsSpan (line : Str) (a : Span) : Prop where
  suffix : a.q <:+ line
  stop : a.eq = a.q.dropWhile isWord

theorem IsSpan.text_eq {line : Str} {a : Span} (h : IsSpan line a) :
    a.text = a.q.takeWhile isWord := by
  have hsplit := takeWhile_append_dropWhile (p := isWord) (l := a.q)
  have hlen := congrArg length hsplit
  rw [length_append] at hlen
  have htake : a.q.length - a.eq.length = (a.q.takeWhile isWord).length := by
    rw [h.stop]
    omega
  unfold Span.text
  rw [htake]
  generalize a.q.takeWhile isWord = w at *
  rw [← hsplit, take_left]

theorem tokens_space (h : isWhitespace c = true) (s : Str) : tokens (c :: s) = tokens s := by
  cases s with
  | nil => simp [tokens, h]
  | cons d s => simp [tokens, h]

theorem tokens_skip (s : Str) : tokens (skip s) = tokens s := by
  induction s with
  | nil => rfl
  | cons c s ih =>
    unfold skip
    rw [dropWhile_cons]
    split
    next h => rw [tokens_space h, ← ih, skip]
    next => rfl

theorem isWhitespace_eq_false (h : isWord c = true) : isWhitespace c = false := by
  by_contra hspace
  rw [Bool.not_eq_false] at hspace
  exact absurd (h.symm.trans (isWord_eq_false_of_isWhitespace hspace)) (by simp)

/-- The first token of a line that starts with a word. -/
theorem tokens_word (hc : isWord c = true) : tokens (c :: s) =
      .word ((c :: s).takeWhile isWord) :: tokens ((c :: s).dropWhile isWord) := by
  have hspace := isWhitespace_eq_false hc
  induction s generalizing c with
  | nil => simp [tokens, hspace, hc]
  | cons d s ih =>
    rw [tokens, if_neg (by simp [hspace]), if_pos hc, takeWhile_cons_of_pos hc,
      dropWhile_cons_of_pos hc]
    cases hd : isWord d with
    | true =>
      rw [ih hd (isWhitespace_eq_false hd)]
      rfl
    | false =>
      rw [takeWhile_cons_of_neg (by simp [hd]), dropWhile_cons_of_neg (by simp [hd])]
      cases tokens (d :: s) with
      | nil => rfl
      | cons t ts => cases t <;> rfl

/-- The first token of a line that starts with a symbol. -/
theorem tokens_symbol (hspace : isWhitespace c = false) (hword : isWord c = false) (s : Str) :
    tokens (c :: s) = if c = ch '>' ∧ s.head? = some (ch '>') then .redir .append :: tokens s.tail
      else symbolToken c :: tokens s := by
  cases s with
  | nil => simp [tokens, hspace, hword]
  | cons d s => simp [tokens, hspace, hword]

/-- `gettoken` returns the token. -/
structure Scans (t : Token) (r : Scan) (s : Str) : Prop where
  ret : r.ret = t.code
  rest : tokens s = t :: tokens r.rest
  suffix : r.rest <:+ s
  word : ∀ w, t = .word w → IsSpan s ⟨r.q, r.eq⟩ ∧ Span.text ⟨r.q, r.eq⟩ = w

theorem skip_suffix (s : Str) : skip s <:+ s := dropWhile_suffix _

theorem isWhitespace_of_skip {t : Str} (h : skip s = c :: t) : isWhitespace c = false := by
  have hne : s.dropWhile isWhitespace ≠ [] := by
    rw [skip] at h
    simp [h]
  have hhead := head_dropWhile_not isWhitespace hne
  simp only [skip] at h
  simpa only [h, head_cons] using hhead

/-- A token that is a symbol. -/
theorem scans_symbol {s' : Str} {t : Token} {q : Str} (hs : s' <:+ s)
    (ht : tokens s = t :: tokens s') (hcode : c = t.code) (hword : ∀ w, t ≠ .word w) :
    Scans t (.of c q s') s where
  ret := hcode
  rest := by
    rw [ht]
    exact congrArg _ (tokens_skip s').symm
  suffix := (skip_suffix s').trans hs
  word w hw := absurd hw (hword w)

theorem gt_mem_symbols : ch '>' ∈ symbols := by decide

/-- The token of a symbol starts with it. -/
theorem symbolToken_spec (h : c ∈ symbols) : c = (symbolToken c).code ∧
      ∀ toks : List Byte, decide (c ∈ toks) = (symbolToken c).startsIn toks := by
  simp only [symbols, mem_cons, not_mem_nil, or_false] at h
  rcases h with rfl | rfl | rfl | rfl | rfl | rfl | rfl <;> exact ⟨rfl, fun _ => rfl⟩

theorem mem_of_mem_symbols (h : c ∈ symbols) (hgt : c ≠ ch '>') :
    c ∈ [ch '|', ch '(', ch ')', ch ';', ch '&', ch '<'] := by
  simp only [symbols, mem_cons, not_mem_nil, or_false] at h ⊢
  tauto

theorem mem_symbols_of_mem (h : c ∈ [ch '|', ch '(', ch ')', ch ';', ch '&', ch '<']) :
    c ∈ symbols := by
  simp only [symbols, mem_cons, not_mem_nil, or_false] at h ⊢
  tauto

theorem symbolToken_ne_word (c : Byte) (w : Str) : symbolToken c ≠ .word w := by
  unfold symbolToken
  split_ifs <;> simp

theorem gettoken_spec (s : Str) :
    (tokens s = [] ∧ gettoken s = ⟨0, [], [], []⟩) ∨ ∃ t, Scans t (gettoken s) s := by
  have htokens := tokens_skip s
  have hsuffix := skip_suffix s
  cases hskip : skip s with
  | nil =>
    rw [hskip] at htokens
    refine Or.inl ⟨htokens.symm, ?_⟩
    unfold gettoken
    rw [hskip]
    rfl
  | cons c t =>
    have hspace := isWhitespace_of_skip hskip
    rw [hskip] at htokens hsuffix
    have ht : t <:+ s := (suffix_cons c t).trans hsuffix
    refine Or.inr ?_
    unfold gettoken
    rw [hskip]
    dsimp only
    cases hword : isWord c with
    | true =>
      have hc : c ∉ symbols := fun hmem =>
        absurd (hword.symm.trans (isWord_eq_false_of_mem hmem)) (by simp)
      rw [if_neg fun hmem => hc (mem_symbols_of_mem hmem),
        if_neg fun heq : c = ch '>' => hc (heq ▸ gt_mem_symbols)]
      have hspan : IsSpan s ⟨c :: t, (c :: t).dropWhile isWord⟩ := ⟨hsuffix, rfl⟩
      refine ⟨.word ((c :: t).takeWhile isWord), rfl, ?_, ?_, fun w hw => ⟨hspan, ?_⟩⟩
      · rw [← htokens, tokens_word hword]
        exact congrArg _ (tokens_skip _).symm
      · exact (skip_suffix _).trans ((dropWhile_suffix _).trans hsuffix)
      · cases hw
        exact hspan.text_eq
    | false =>
      have hc := mem_symbols hspace hword
      rw [tokens_symbol hspace hword] at htokens
      by_cases hgt : c = ch '>'
      · subst hgt
        rw [if_neg (by decide), if_pos rfl]
        by_cases hnext : t.head? = some (ch '>')
        · rw [if_pos hnext]
          rw [if_pos ⟨rfl, hnext⟩] at htokens
          exact ⟨_, scans_symbol ((tail_suffix t).trans ht) htokens.symm rfl (by simp)⟩
        · rw [if_neg hnext]
          rw [if_neg fun h => hnext h.2] at htokens
          exact ⟨_, scans_symbol ht htokens.symm rfl (symbolToken_ne_word _)⟩
      · rw [if_pos (mem_of_mem_symbols hc hgt)]
        rw [if_neg fun h => hgt h.1] at htokens
        exact ⟨_, scans_symbol ht htokens.symm (symbolToken_spec hc).1 (symbolToken_ne_word _)⟩

/-- `peek` sees the first token. -/
theorem peek_snd {toks : List Byte} (s : Str) (htoks : toks ⊆ symbols) :
    (peek s toks).2 = (tokens s).head?.any (Token.startsIn toks) := by
  have htokens := tokens_skip s
  unfold peek
  dsimp only
  cases hskip : skip s with
  | nil =>
    rw [hskip] at htokens
    rw [← htokens]
    rfl
  | cons c t =>
    have hspace := isWhitespace_of_skip hskip
    rw [hskip] at htokens
    rw [← htokens, head?_cons, Option.any_some]
    cases hword : isWord c with
    | true =>
      rw [tokens_word hword]
      refine decide_eq_false fun hmem => ?_
      exact absurd (hword.symm.trans (isWord_eq_false_of_mem (htoks hmem))) (by simp)
    | false =>
      rw [tokens_symbol hspace hword]
      split
      next h =>
        rw [h.1]
        rfl
      next => exact (symbolToken_spec (mem_symbols hspace hword)).2 toks

end OsCa.Shell
