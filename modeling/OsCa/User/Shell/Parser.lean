import OsCa.User.Shell.Lexer
import OsCa.Support.Fallible

/-!
# The parser accepts its grammar

A line that is derived from the grammar is parsed into the tree of its derivation,
and what the parser accepts is derived.  The first is proved along the derivation,
for whatever tokens follow, and the second along the calls of the parser.
-/

namespace OsCa.Shell

open Bytes Fallible List

variable {s w buf : Str} {t : Token} {ts rest : List Token} {op : RedirOp}
  {rs : List (RedirOp × Str)} {ws : List Str} {c : Byte} {n i : ℕ} {as : List Span}

/-! ## The grammar -/

/-- The command with a redirection. -/
def RedirOp.wrap {α : Type} (op : RedirOp) (cmd : Cmd α) (file : α) : Cmd α :=
  match op with
  | .input => .redir cmd file O_RDONLY 0
  | .output => .redir cmd file (O_WRONLY ||| O_CREATE ||| O_TRUNC) 1
  | .append => .redir cmd file (O_WRONLY ||| O_CREATE) 1

/-- The command with redirections, the last one outermost. -/
def wrapAll {α : Type} (cmd : Cmd α) (rs : List (RedirOp × α)) : Cmd α :=
  rs.foldl (fun cmd r => r.1.wrap cmd r.2) cmd

/-- `redir*`. -/
inductive Redirs : List Token → List (RedirOp × Str) → Prop
  | nil : Redirs [] []
  | cons {ts : List Token} {rs : List (RedirOp × Str)} (op : RedirOp) (w : Str)
      (h : Redirs ts rs) : Redirs (.redir op :: .word w :: ts) ((op, w) :: rs)

/-- `(word redir*)*`. -/
inductive Args : List Token → List Str → List (RedirOp × Str) → Prop
  | nil : Args [] [] []
  | cons {ts ts' : List Token} {ws : List Str} {rs rs' : List (RedirOp × Str)} (w : Str)
      (hr : Redirs ts rs) (h : Args ts' ws rs') :
      Args (.word w :: (ts ++ ts')) (w :: ws) (rs ++ rs')

inductive Nonterminal where
  | line
  | pipe
  | exec

variable {nt : Nonterminal}

inductive Derives : Nonterminal → List Token → Cmd Str → Prop
  | last {ts : List Token} {c : Cmd Str} (k : ℕ) (h : Derives .pipe ts c) :
      Derives .line (ts ++ replicate k .amp) (Cmd.back^[k] c)
  | seq {ts ts' : List Token} {c c' : Cmd Str} (k : ℕ) (h : Derives .pipe ts c)
      (h' : Derives .line ts' c') :
      Derives .line (ts ++ (replicate k .amp ++ .semi :: ts')) (.list (Cmd.back^[k] c) c')
  | single {ts : List Token} {c : Cmd Str} (h : Derives .exec ts c) : Derives .pipe ts c
  | piped {ts ts' : List Token} {c c' : Cmd Str} (h : Derives .exec ts c)
      (h' : Derives .pipe ts' c') : Derives .pipe (ts ++ .bar :: ts') (.pipe c c')
  | block {ts ts' : List Token} {c : Cmd Str} {rs : List (RedirOp × Str)}
      (h : Derives .line ts c) (hr : Redirs ts' rs) :
      Derives .exec (.lparen :: (ts ++ .rparen :: ts')) (wrapAll c rs)
  | simple {ts ts' : List Token} {ws : List Str} {rs rs' : List (RedirOp × Str)}
      (hr : Redirs ts rs) (h : Args ts' ws rs') (hlen : ws.length ≤ 9) :
      Derives .exec (ts ++ ts') (wrapAll (.exec ws) (rs ++ rs'))

def parse : Nonterminal → ℕ → Str → Except Stop (Cmd Span × Str)
  | .line => parseline
  | .pipe => parsepipe
  | .exec => parseexec

/-! ## Trees -/

section Trees

variable {α β : Type} (f : α → β)

/-- The strings of a redirection. -/
def mapFile (r : RedirOp × α) : RedirOp × β := (r.1, f r.2)

theorem wrapAll_append (c : Cmd α) (rs rs' : List (RedirOp × α)) :
    wrapAll c (rs ++ rs') = wrapAll (wrapAll c rs) rs' :=
  foldl_append

theorem map_wrap (op : RedirOp) (c : Cmd α) (a : α) :
    (op.wrap c a).map f = op.wrap (c.map f) (f a) := by
  cases op <;> rfl

theorem map_wrapAll (c : Cmd α) (rs : List (RedirOp × α)) :
    (wrapAll c rs).map f = wrapAll (c.map f) (rs.map (mapFile f)) := by
  induction rs generalizing c with
  | nil => rfl
  | cons r rs ih =>
    refine (ih (r.1.wrap c r.2)).trans ?_
    rw [map_wrap]
    rfl

theorem map_back (c : Cmd α) (k : ℕ) : (Cmd.back^[k] c).map f = Cmd.back^[k] (c.map f) := by
  induction k generalizing c with
  | zero => rfl
  | succ k ih => exact ih (.back c)

theorem pushArg_wrapAll (argv : List α) (rs : List (RedirOp × α)) (a : α) :
    (wrapAll (.exec argv) rs).pushArg a = wrapAll (.exec (argv ++ [a])) rs := by
  induction rs using reverseRecOn with
  | nil => rfl
  | append_singleton rs r ih =>
    rw [wrapAll_append, wrapAll_append, ← ih]
    obtain ⟨op, file⟩ := r
    cases op <;> rfl

end Trees

/-! ## One token -/

/-- What `gettoken` returns in front of a token. -/
theorem scans_of_tokens (h : tokens s = t :: ts) :
    Scans t (gettoken s) s ∧ tokens (gettoken s).rest = ts := by
  rcases gettoken_spec s with ⟨hnil, -⟩ | ⟨t', ht⟩
  · exact absurd (h.symm.trans hnil) (by simp)
  · obtain ⟨rfl, rfl⟩ := cons.inj (h.symm.trans ht.rest)
    exact ⟨ht, rfl⟩

theorem IsSpan.mono {line : Str} {a : Span} (h : IsSpan s a) (hs : s <:+ line) : IsSpan line a :=
  ⟨h.suffix.trans hs, h.stop⟩

/-- A token that `peek` has seen is taken. -/
theorem next_of_tokens (h : tokens s = t :: ts) :
    (gettoken (skip s)).ret = t.code ∧ tokens (gettoken (skip s)).rest = ts ∧
      (gettoken (skip s)).rest <:+ s := by
  obtain ⟨hscan, hrest⟩ := scans_of_tokens ((tokens_skip s).trans h)
  exact ⟨hscan.ret, hrest, hscan.suffix.trans (skip_suffix s)⟩

theorem code_ne_word (h : ∀ w, t ≠ .word w) : t.code ≠ ch 'a' := by
  cases t with
  | word w => exact absurd rfl (h w)
  | redir op => cases op <;> decide
  | bar | amp | semi | lparen | rparen => decide

theorem code_ne_zero (t : Token) : t.code ≠ 0 := by
  cases t with
  | redir op => cases op <;> decide
  | word w => exact (by decide : ch 'a' ≠ 0)
  | bar | amp | semi | lparen | rparen => decide

/-! ## Redirections -/

/-- The first token is not a redirection. -/
def NoRedir (ts : List Token) : Prop := ∀ op, ts.head? ≠ some (.redir op)

theorem peek_redir_eq_false (h : NoRedir (tokens s)) : (peek s [ch '<', ch '>']).2 = false := by
  rw [peek_snd s (by decide)]
  cases htokens : tokens s with
  | nil => rfl
  | cons t ts =>
    cases t with
    | redir op => exact absurd (by rw [htokens]; rfl) (h op)
    | word | bar | amp | semi | lparen | rparen => rfl

theorem peek_redir_eq_true (h : tokens s = .redir op :: ts) :
    (peek s [ch '<', ch '>']).2 = true := by
  rw [peek_snd s (by decide), h]
  cases op <;> rfl

theorem parseredirs_done (h : NoRedir (tokens s)) (fuel : ℕ) (cmd : Cmd Span) :
    parseredirs (fuel + 1) cmd s = .ok (cmd, skip s) :=
  if_neg (Bool.eq_false_iff.mp (peek_redir_eq_false h))

theorem parseredirs_missing (h : tokens s = .redir op :: ts)
    (hword : ∀ w, ts.head? ≠ some (.word w)) (fuel : ℕ) (cmd : Cmd Span) :
    parseredirs (fuel + 1) cmd s = .error (.panic "missing file for redirection") := by
  obtain ⟨-, hrest, -⟩ := next_of_tokens h
  refine (if_pos (peek_redir_eq_true h)).trans (if_pos ?_)
  rcases gettoken_spec (gettoken (skip s)).rest with ⟨-, hnil⟩ | ⟨t, ht⟩
  · rw [hnil]
    decide
  · rw [ht.ret]
    refine code_ne_word fun w hw => hword w ?_
    rw [← hrest, ht.rest, hw]
    rfl

theorem parseredirs_cons (h : tokens s = .redir op :: .word w :: ts) (fuel : ℕ) (cmd : Cmd Span) :
    ∃ a s', parseredirs (fuel + 1) cmd s = parseredirs fuel (op.wrap cmd a) s' ∧
      tokens s' = ts ∧ s' <:+ s ∧ IsSpan s a ∧ a.text = w := by
  obtain ⟨hret, hrest, hsuffix⟩ := next_of_tokens h
  obtain ⟨hscan, hfile⟩ := scans_of_tokens hrest
  obtain ⟨hspan, htext⟩ := hscan.word w rfl
  refine ⟨_, _, ?_, hfile, hscan.suffix.trans hsuffix, hspan.mono hsuffix, htext⟩
  refine (if_pos (peek_redir_eq_true h)).trans ((if_neg (not_not.mpr hscan.ret)).trans ?_)
  dsimp only
  rw [hret]
  cases op <;> rfl

theorem parseredirs_sound {line : Str} (fuel : ℕ) (cmd : Cmd Span) (s : Str)
    (hfuel : (tokens s).length < fuel) (hs : s <:+ line) :
    Ends (parseredirs fuel cmd s) (fun r => r.2 <:+ line ∧ ∃ ts rs,
      tokens s = ts ++ tokens r.2 ∧ Redirs ts (rs.map (mapFile Span.text)) ∧
      r.1 = wrapAll cmd rs ∧ ∀ x ∈ rs, IsSpan line x.2) (· ≠ .fuel) := by
  induction fuel generalizing cmd s with
  | zero => exact absurd hfuel (Nat.not_lt_zero _)
  | succ fuel ih =>
    by_cases hno : NoRedir (tokens s)
    · rw [parseredirs_done hno]
      refine ⟨(skip_suffix s).trans hs, [], [], ?_, .nil, rfl, by simp⟩
      rw [tokens_skip]
      rfl
    · obtain ⟨op, hop⟩ : ∃ op, (tokens s).head? = some (.redir op) := by simpa [NoRedir] using hno
      obtain ⟨ts, hts⟩ := head?_eq_some_iff.mp hop
      by_cases hword : ∀ w, ts.head? ≠ some (.word w)
      · rw [parseredirs_missing hts hword]
        simp [Ends]
      · obtain ⟨w, hw⟩ : ∃ w, ts.head? = some (.word w) := by simpa using hword
        obtain ⟨ts, rfl⟩ := head?_eq_some_iff.mp hw
        obtain ⟨a, s', heq, hs', hsuffix, hspan, rfl⟩ := parseredirs_cons hts fuel cmd
        rw [heq]
        refine (ih (op.wrap cmd a) s' ?_ (hsuffix.trans hs)).mono ?_
        · rw [hts] at hfuel
          rw [hs']
          simp only [length_cons] at hfuel
          omega
        · rintro r ⟨hr, ts', rs, hsplit, hredirs, hwrap, hrs⟩
          refine ⟨hr, .redir op :: .word a.text :: ts', (op, a) :: rs, ?_, .cons op _ hredirs,
            hwrap, ?_⟩
          · rw [hts, ← hs', hsplit]
            rfl
          · intro x hx
            rcases mem_cons.mp hx with rfl | hx
            · exact hspan.mono hs
            · exact hrs x hx

theorem parseredirs_complete (h : Redirs ts rs) (hrest : NoRedir rest) (fuel : ℕ)
    (cmd : Cmd Span) (s : Str) (hs : tokens s = ts ++ rest) :
    Ends (parseredirs fuel cmd s) (fun r => tokens r.2 = rest ∧
      ∃ xs, xs.map (mapFile Span.text) = rs ∧ r.1 = wrapAll cmd xs) (· = .fuel) := by
  induction h generalizing fuel cmd s with
  | nil =>
    cases fuel with
    | zero => rfl
    | succ fuel =>
      rw [parseredirs_done (by rw [hs]; exact hrest)]
      exact ⟨(tokens_skip s).trans hs, [], rfl, rfl⟩
  | cons op w _ ih =>
    cases fuel with
    | zero => rfl
    | succ fuel =>
      obtain ⟨a, s', heq, hs', -, -, rfl⟩ := parseredirs_cons hs fuel cmd
      rw [heq]
      refine (ih fuel (op.wrap cmd a) s' hs').mono ?_
      rintro r ⟨hr, xs, rfl, hwrap⟩
      exact ⟨hr, (op, a) :: xs, rfl, hwrap⟩

/-! ## Arguments -/

/-- A token that can come after the nonterminal. -/
def Token.ends : Nonterminal → Token → Bool
  | .exec, t => decide (t = .bar ∨ t = .rparen ∨ t = .amp ∨ t = .semi)
  | .pipe, t => decide (t = .rparen ∨ t = .amp ∨ t = .semi)
  | .line, t => decide (t = .rparen)

def Follow (nt : Nonterminal) (ts : List Token) : Prop := ∀ t, ts.head? = some t → t.ends nt = true

theorem peek_stop (s : Str) :
    (peek s [ch '|', ch ')', ch '&', ch ';']).2 = (tokens s).head?.any (Token.ends .exec) := by
  rw [peek_snd s (by decide)]
  cases tokens s with
  | nil => rfl
  | cons t ts =>
    cases t with
    | redir op => cases op <;> rfl
    | word | bar | amp | semi | lparen | rparen => rfl

theorem parseargs_done (h : Follow .exec (tokens s)) (fuel argc : ℕ) (ret : Cmd Span) :
    ∃ s', parseargs (fuel + 1) argc ret s = .ok (ret, s') ∧ tokens s' = tokens s ∧ s' <:+ s := by
  cases htokens : tokens s with
  | nil =>
    have hskip : gettoken (skip s) = ⟨0, [], [], []⟩ := by
      rcases gettoken_spec (skip s) with ⟨-, hnil⟩ | ⟨t, ht⟩
      · exact hnil
      · exact absurd ((htokens.symm.trans (tokens_skip s).symm).trans ht.rest) (by simp)
    refine ⟨[], (if_neg ?_).trans ((if_pos ?_).trans ?_), rfl, nil_suffix⟩
    · refine Bool.eq_false_iff.mp ((peek_stop s).trans ?_)
      rw [htokens]
      rfl
    · rw [hskip]
    · rw [hskip]
  | cons t ts =>
    refine ⟨skip s, if_pos ((peek_stop s).trans ?_), ?_, skip_suffix s⟩
    · rw [htokens]
      exact h t (by rw [htokens]; rfl)
    · rw [tokens_skip, htokens]

theorem parseargs_bad (h : tokens s = t :: ts) (hend : t.ends .exec = false)
    (hword : ∀ w, t ≠ .word w) (fuel argc : ℕ) (ret : Cmd Span) :
    parseargs (fuel + 1) argc ret s = .error (.panic "syntax") := by
  obtain ⟨hret, -, -⟩ := next_of_tokens h
  refine (if_neg ?_).trans ((if_neg ?_).trans (if_pos ?_))
  · refine Bool.eq_false_iff.mp ((peek_stop s).trans ?_)
    rw [h]
    exact hend
  · rw [hret]
    exact code_ne_zero t
  · rw [hret]
    exact code_ne_word hword

theorem parseargs_word (h : tokens s = .word w :: ts) (fuel argc : ℕ) (ret : Cmd Span) :
    ∃ a s', (parseargs (fuel + 1) argc ret s =
        if MAXARGS ≤ argc + 1 then .error (.panic "too many args")
        else parseredirs fuel (ret.pushArg a) s' >>= fun r => parseargs fuel (argc + 1) r.1 r.2) ∧
      tokens s' = ts ∧ s' <:+ s ∧ IsSpan s a ∧ a.text = w := by
  obtain ⟨hscan, hrest⟩ := scans_of_tokens ((tokens_skip s).trans h)
  obtain ⟨hspan, htext⟩ := hscan.word w rfl
  refine ⟨⟨_, _⟩, _, (if_neg ?_).trans ((if_neg ?_).trans (if_neg ?_)), hrest,
    hscan.suffix.trans (skip_suffix s), hspan.mono (skip_suffix s), htext⟩
  · refine Bool.eq_false_iff.mp ((peek_stop s).trans ?_)
    rw [h]
    rfl
  · rw [hscan.ret]
    exact code_ne_zero _
  · exact not_not.mpr hscan.ret

theorem parseargs_sound {line : Str} (fuel : ℕ) (argv : List Span)
    (rs : List (RedirOp × Span)) (s : Str) (hfuel : (tokens s).length < fuel)
    (hs : s <:+ line) (hlen : argv.length ≤ 9) :
    Ends (parseargs fuel argv.length (wrapAll (.exec argv) rs) s) (fun r => r.2 <:+ line ∧
      ∃ ts argv' rs', tokens s = ts ++ tokens r.2 ∧
        Args ts (argv'.map Span.text) (rs'.map (mapFile Span.text)) ∧
        r.1 = wrapAll (.exec (argv ++ argv')) (rs ++ rs') ∧
        (argv ++ argv').length ≤ 9 ∧ (∀ a ∈ argv', IsSpan line a) ∧
        ∀ x ∈ rs', IsSpan line x.2) (· ≠ .fuel) := by
  induction fuel generalizing argv rs s with
  | zero => exact absurd hfuel (Nat.not_lt_zero _)
  | succ fuel ih =>
    by_cases hfollow : Follow .exec (tokens s)
    · obtain ⟨s', heq, hs', hsuffix⟩ :=
        parseargs_done hfollow fuel argv.length (wrapAll (.exec argv) rs)
      rw [heq]
      refine ⟨hsuffix.trans hs, [], [], [], hs'.symm, .nil, ?_, ?_, by simp, by simp⟩
      · simp
      · simpa using hlen
    obtain ⟨t, hhead, hend⟩ : ∃ t, (tokens s).head? = some t ∧ t.ends .exec = false := by
      simpa [Follow] using hfollow
    obtain ⟨ts, hts⟩ := head?_eq_some_iff.mp hhead
    by_cases hword : ∀ w, t ≠ .word w
    · rw [parseargs_bad hts hend hword]
      simp [Ends]
    obtain ⟨w, rfl⟩ : ∃ w, t = .word w := by simpa using hword
    obtain ⟨a, s₁, heq, hs₁, hsuffix₁, hspan, rfl⟩ :=
      parseargs_word hts fuel argv.length (wrapAll (.exec argv) rs)
    rw [heq]
    split
    · simp [Ends]
    next hmax =>
      have hlen' : (argv ++ [a]).length ≤ 9 := by
        rw [length_append, length_singleton]
        simp only [MAXARGS] at hmax
        omega
      have hfuel₁ : (tokens s₁).length < fuel := by
        rw [hts, length_cons] at hfuel
        rw [hs₁]
        omega
      rw [pushArg_wrapAll]
      refine (parseredirs_sound fuel _ s₁ hfuel₁ (hsuffix₁.trans hs)).bind ?_
      rintro ⟨c, s₂⟩ ⟨hs₂, ts₂, rs₂, hsplit₂, hredirs, rfl, hspans₂⟩
      have hfuel₂ : (tokens s₂).length < fuel := by
        rw [hsplit₂, length_append] at hfuel₁
        dsimp only at hfuel₁
        omega
      have hcount : argv.length + 1 = (argv ++ [a]).length := by simp
      rw [← wrapAll_append, hcount]
      refine (ih (argv ++ [a]) (rs ++ rs₂) s₂ hfuel₂ hs₂ hlen').mono ?_
      rintro r ⟨hr, ts₃, argv₃, rs₃, hsplit₃, hargs, hcmd, hlen₃, hspans₃, hspans₃'⟩
      refine ⟨hr, .word a.text :: (ts₂ ++ ts₃), a :: argv₃, rs₂ ++ rs₃, ?_, ?_, ?_, ?_, ?_, ?_⟩
      · rw [hts, ← hs₁, hsplit₂, hsplit₃, cons_append, append_assoc]
      · rw [map_cons, map_append]
        exact .cons a.text hredirs hargs
      · rw [hcmd, append_assoc, append_assoc, singleton_append]
      · rwa [append_assoc, singleton_append] at hlen₃
      · intro b hb
        rcases mem_cons.mp hb with rfl | hb
        · exact hspan.mono hs
        · exact hspans₃ b hb
      · intro x hx
        rcases mem_append.mp hx with hx | hx
        · exact hspans₂ x hx
        · exact hspans₃' x hx

theorem Follow.noRedir (h : Follow nt ts) : NoRedir ts := by
  intro op hop
  have hend := h _ hop
  cases nt <;> cases hend

theorem Args.noRedir (h : Args ts ws rs) (hrest : NoRedir rest) :
    NoRedir (ts ++ rest) := by
  cases h with
  | nil => exact hrest
  | cons => simp [NoRedir]

theorem parseargs_complete (h : Args ts ws rs) (hrest : Follow .exec rest) (fuel : ℕ)
    (argv : List Span) (xs : List (RedirOp × Span)) (s : Str)
    (hs : tokens s = ts ++ rest) (hlen : argv.length + ws.length ≤ 9) :
    Ends (parseargs fuel argv.length (wrapAll (.exec argv) xs) s) (fun r =>
      tokens r.2 = rest ∧ r.1.map Span.text =
        wrapAll (.exec (argv.map Span.text ++ ws)) (xs.map (mapFile Span.text) ++ rs))
      (· = .fuel) := by
  induction h generalizing fuel argv xs s with
  | nil =>
    cases fuel with
    | zero => rfl
    | succ fuel =>
      obtain ⟨s', heq, hs', -⟩ := parseargs_done (s := s) (by rw [hs]; exact hrest) fuel
        argv.length (wrapAll (.exec argv) xs)
      rw [heq]
      refine ⟨hs'.trans hs, ?_⟩
      rw [map_wrapAll, append_nil, append_nil]
      rfl
  | @cons ts ts' ws rs rs' w hr h ih =>
    cases fuel with
    | zero => rfl
    | succ fuel =>
      rw [length_cons] at hlen
      rw [cons_append, append_assoc] at hs
      obtain ⟨a, s₁, heq, hs₁, -, -, rfl⟩ :=
        parseargs_word hs fuel argv.length (wrapAll (.exec argv) xs)
      have hcount : argv.length + 1 = (argv ++ [a]).length := by simp
      rw [heq, if_neg (by simp only [MAXARGS]; omega), pushArg_wrapAll, hcount]
      refine (parseredirs_complete hr (h.noRedir hrest.noRedir) fuel _ s₁ hs₁).bind ?_
      rintro ⟨c, s₂⟩ ⟨hs₂, ys, rfl, rfl⟩
      rw [← wrapAll_append]
      refine (ih fuel (argv ++ [a]) (xs ++ ys) s₂ hs₂ ?_).mono ?_
      · rw [length_append, length_singleton]
        omega
      · rintro r ⟨hr, hcmd⟩
        refine ⟨hr, hcmd.trans ?_⟩
        simp only [map_append, append_assoc, map_cons, map_nil, singleton_append]

/-! ## Single symbols -/

theorem peek_symbol (s : Str) (ht : t = .bar ∨ t = .amp ∨ t = .semi ∨ t = .lparen ∨ t = .rparen) :
    (peek s [t.code]).2 = decide ((tokens s).head? = some t) := by
  have hmem : t.code ∈ symbols := by rcases ht with rfl | rfl | rfl | rfl | rfl <;> decide
  have hstarts : ∀ t', Token.startsIn [t.code] t' = decide (t' = t) := by
    intro t'
    cases t' with
    | redir op => rcases ht with rfl | rfl | rfl | rfl | rfl <;> cases op <;> rfl
    | word | bar | amp | semi | lparen | rparen =>
      rcases ht with rfl | rfl | rfl | rfl | rfl <;> rfl
  rw [peek_snd s (cons_subset.mpr ⟨hmem, nil_subset _⟩)]
  cases tokens s with
  | nil => rfl
  | cons t' ts => simp [hstarts]

theorem peek_eq_true (ht : t = .bar ∨ t = .amp ∨ t = .semi ∨ t = .lparen ∨ t = .rparen)
    (h : tokens s = t :: ts) : (peek s [t.code]).2 = true := by
  rw [peek_symbol s ht, h]
  exact decide_eq_true rfl

theorem peek_eq_false (ht : t = .bar ∨ t = .amp ∨ t = .semi ∨ t = .lparen ∨ t = .rparen)
    (h : (tokens s).head? ≠ some t) : ¬ (peek s [t.code]).2 = true := by
  rw [peek_symbol s ht]
  simpa using h

/-- Either the first token is the symbol, or `peek` does not see it. -/
theorem head_cases (s : Str) (t : Token) :
    (∃ ts, tokens s = t :: ts) ∨ (tokens s).head? ≠ some t := by
  by_cases h : (tokens s).head? = some t
  · exact Or.inl (head?_eq_some_iff.mp h)
  · exact Or.inr h

/-! ## Background commands -/

theorem parseback_done (h : (tokens s).head? ≠ some .amp) (fuel : ℕ) (cmd : Cmd Span) :
    parseback (fuel + 1) cmd s = .ok (cmd, skip s) :=
  if_neg (peek_eq_false (t := .amp) (by simp) h)

theorem parseback_amp (h : tokens s = .amp :: ts) (fuel : ℕ) (cmd : Cmd Span) :
    parseback (fuel + 1) cmd s = parseback fuel (.back cmd) (gettoken (skip s)).rest :=
  if_pos (peek_eq_true (t := .amp) (by simp) h)

theorem parseback_sound {line : Str} (fuel : ℕ) (cmd : Cmd Span) (s : Str)
    (hfuel : (tokens s).length < fuel) (hs : s <:+ line) :
    Ends (parseback fuel cmd s) (fun r => r.2 <:+ line ∧ ∃ k,
      tokens s = replicate k .amp ++ tokens r.2 ∧ r.1 = Cmd.back^[k] cmd)
      (· ≠ .fuel) := by
  induction fuel generalizing cmd s with
  | zero => exact absurd hfuel (Nat.not_lt_zero _)
  | succ fuel ih =>
    rcases head_cases s .amp with ⟨ts, hts⟩ | hno
    · obtain ⟨-, hrest, hsuffix⟩ := next_of_tokens hts
      rw [parseback_amp hts]
      refine (ih _ _ ?_ (hsuffix.trans hs)).mono ?_
      · rw [hts, length_cons] at hfuel
        rw [hrest]
        omega
      · rintro r ⟨hr, k, hsplit, hcmd⟩
        refine ⟨hr, k + 1, ?_, hcmd⟩
        rw [hts, ← hrest, hsplit]
        rfl
    · rw [parseback_done hno]
      exact ⟨(skip_suffix s).trans hs, 0, (tokens_skip s).symm, rfl⟩

theorem parseback_complete (hrest : rest.head? ≠ some .amp) (k fuel : ℕ)
    (cmd : Cmd Span) (s : Str) (hs : tokens s = replicate k .amp ++ rest) :
    Ends (parseback fuel cmd s)
      (fun r => tokens r.2 = rest ∧ r.1 = Cmd.back^[k] cmd) (· = .fuel) := by
  induction k generalizing fuel cmd s with
  | zero =>
    cases fuel with
    | zero => rfl
    | succ fuel =>
      rw [parseback_done (by rw [hs]; exact hrest)]
      exact ⟨(tokens_skip s).trans hs, rfl⟩
  | succ k ih =>
    cases fuel with
    | zero => rfl
    | succ fuel =>
      have hts : tokens s = .amp :: (replicate k .amp ++ rest) := hs
      rw [parseback_amp hts]
      exact ih fuel (.back cmd) _ (next_of_tokens hts).2.1

/-! ## What is accepted is derived -/

/-- The strings of a command, in the order in which `nulterminate` comes to them. -/
def Cmd.strings {α : Type} : Cmd α → List α
  | .exec argv => argv
  | .redir cmd file _ _ => cmd.strings ++ [file]
  | .pipe left right => left.strings ++ right.strings
  | .list left right => left.strings ++ right.strings
  | .back cmd => cmd.strings

/-- How deep the calls can be for a number of tokens. -/
def depth (n : ℕ) : Nonterminal → ℕ
  | .line => 4 * n + 4
  | .pipe => 4 * n + 3
  | .exec => 4 * n + 2

structure Parsed (line : Str) (nt : Nonterminal) (s : Str) (r : Cmd Span × Str) : Prop where
  suffix : r.2 <:+ line
  spans : ∀ a ∈ r.1.strings, IsSpan line a
  derives : ∃ ts, tokens s = ts ++ tokens r.2 ∧ Derives nt ts (r.1.map Span.text)

def Sound (line : Str) (nt : Nonterminal) (fuel : ℕ) : Prop :=
  ∀ s, depth (tokens s).length nt ≤ fuel → s <:+ line →
    Ends (parse nt fuel s) (Parsed line nt s) (· ≠ .fuel)

section Sound

variable {line : Str} {fuel : ℕ}

theorem strings_wrapAll {α : Type} (c : Cmd α) (rs : List (RedirOp × α)) :
    (wrapAll c rs).strings = c.strings ++ rs.map Prod.snd := by
  induction rs generalizing c with
  | nil => simp [wrapAll]
  | cons r rs ih =>
    refine (ih (r.1.wrap c r.2)).trans ?_
    have hwrap : (r.1.wrap c r.2).strings = c.strings ++ [r.2] := by
      cases r.1 <;> rfl
    rw [hwrap, append_assoc]
    rfl

theorem strings_back {α : Type} (c : Cmd α) (k : ℕ) : (Cmd.back^[k] c).strings = c.strings := by
  induction k generalizing c with
  | zero => rfl
  | succ k ih => exact ih (.back c)

theorem parseline_sound (hpipe : Sound line .pipe fuel) (hline : Sound line .line fuel) :
    Sound line .line (fuel + 1) := by
  intro s hfuel hs
  simp only [depth] at hfuel
  refine (hpipe s (by simp only [depth]; omega) hs).bind ?_
  rintro ⟨c₁, s₁⟩ ⟨hs₁, hspans₁, ts₁, hsplit₁, hder₁⟩
  have hlen₁ := congrArg length hsplit₁
  rw [length_append] at hlen₁
  dsimp only at hlen₁
  refine (parseback_sound fuel c₁ s₁ (by omega) hs₁).bind ?_
  rintro ⟨c₂, s₂⟩ ⟨hs₂, k, hsplit₂, rfl⟩
  have hlen₂ := congrArg length hsplit₂
  rw [length_append] at hlen₂
  dsimp only at hlen₂ hsplit₂
  have hspans₂ : ∀ a ∈ (Cmd.back^[k] c₁).strings, IsSpan line a := by
    rw [strings_back]
    exact hspans₁
  rcases head_cases s₂ .semi with ⟨ts₃, hts₃⟩ | hno
  · obtain ⟨-, hrest, hsuffix⟩ := next_of_tokens hts₃
    rw [hts₃, length_cons] at hlen₂
    refine Ends.ite_of_pos (peek_eq_true (t := .semi) (by simp) hts₃) ?_
    refine (hline _ (by simp only [depth]; rw [hrest]; omega) (hsuffix.trans hs₂)).bind ?_
    rintro ⟨c₄, s₄⟩ ⟨hs₄, hspans₄, ts₄, hsplit₄, hder₄⟩
    refine ⟨hs₄, ?_, ts₁ ++ (replicate k .amp ++ .semi :: ts₄), ?_, ?_⟩
    · exact fun a ha => (mem_append.mp ha).elim (hspans₂ a) (hspans₄ a)
    · rw [hsplit₁, hsplit₂, hts₃, ← hrest, hsplit₄]
      simp
    · have hback := map_back Span.text c₁ k
      change Derives _ _ (.list ((Cmd.back^[k] c₁).map Span.text) (c₄.map Span.text))
      rw [hback]
      exact .seq k hder₁ hder₄
  · refine Ends.ite_of_neg (peek_eq_false (t := .semi) (by simp) hno) ?_
    refine ⟨(skip_suffix s₂).trans hs₂, hspans₂, ts₁ ++ replicate k .amp, ?_, ?_⟩
    · change _ = _ ++ tokens (skip s₂)
      rw [hsplit₁, hsplit₂, tokens_skip, append_assoc]
    · change Derives _ _ ((Cmd.back^[k] c₁).map Span.text)
      rw [map_back]
      exact .last k hder₁

theorem parsepipe_sound (hexec : Sound line .exec fuel) (hpipe : Sound line .pipe fuel) :
    Sound line .pipe (fuel + 1) := by
  intro s hfuel hs
  simp only [depth] at hfuel
  refine (hexec s (by simp only [depth]; omega) hs).bind ?_
  rintro ⟨c₁, s₁⟩ ⟨hs₁, hspans₁, ts₁, hsplit₁, hder₁⟩
  have hlen₁ := congrArg length hsplit₁
  rw [length_append] at hlen₁
  dsimp only at hlen₁ hsplit₁
  rcases head_cases s₁ .bar with ⟨ts₂, hts₂⟩ | hno
  · obtain ⟨-, hrest, hsuffix⟩ := next_of_tokens hts₂
    rw [hts₂, length_cons] at hlen₁
    refine Ends.ite_of_pos (peek_eq_true (t := .bar) (by simp) hts₂) ?_
    refine (hpipe _ (by simp only [depth]; rw [hrest]; omega) (hsuffix.trans hs₁)).bind ?_
    rintro ⟨c₃, s₃⟩ ⟨hs₃, hspans₃, ts₃, hsplit₃, hder₃⟩
    refine ⟨hs₃, ?_, ts₁ ++ .bar :: ts₃, ?_, .piped hder₁ hder₃⟩
    · exact fun a ha => (mem_append.mp ha).elim (hspans₁ a) (hspans₃ a)
    · rw [hsplit₁, hts₂, ← hrest, hsplit₃, append_assoc]
      rfl
  · refine Ends.ite_of_neg (peek_eq_false (t := .bar) (by simp) hno) ?_
    refine ⟨(skip_suffix s₁).trans hs₁, hspans₁, ts₁, ?_, .single hder₁⟩
    change _ = _ ++ tokens (skip s₁)
    rw [hsplit₁, tokens_skip]

theorem parseblock_sound (hline : Sound line .line fuel)
    (hts : tokens s = .lparen :: ts) (hfuel : depth ts.length .line ≤ fuel)
    (hs : s <:+ line) :
    Ends (parseblock (fuel + 1) s) (Parsed line .exec s) (· ≠ .fuel) := by
  obtain ⟨-, hrest, hsuffix⟩ := next_of_tokens hts
  refine Ends.ite_of_neg ?_ ?_
  · exact Bool.not_eq_false _ ▸ peek_eq_true (t := .lparen) (by simp) hts
  refine (hline _ (by rw [hrest]; exact hfuel) (hsuffix.trans hs)).bind ?_
  rintro ⟨c₁, s₁⟩ ⟨hs₁, hspans₁, ts₁, hsplit₁, hder₁⟩
  have hlen₁ := congrArg length hsplit₁
  rw [length_append, hrest] at hlen₁
  dsimp only at hlen₁ hsplit₁
  rcases head_cases s₁ .rparen with ⟨ts₂, hts₂⟩ | hno
  · obtain ⟨-, hrest₂, hsuffix₂⟩ := next_of_tokens hts₂
    rw [hts₂, length_cons] at hlen₁
    simp only [depth] at hfuel
    refine Ends.ite_of_neg ?_ ?_
    · exact Bool.not_eq_false _ ▸ peek_eq_true (t := .rparen) (by simp) hts₂
    refine (parseredirs_sound fuel c₁ _ (by rw [hrest₂]; omega) (hsuffix₂.trans hs₁)).mono ?_
    rintro ⟨c₃, s₃⟩ ⟨hs₃, ts₃, rs, hsplit₃, hredirs, rfl, hspans₃⟩
    refine ⟨hs₃, fun a ha => ?_, .lparen :: (ts₁ ++ .rparen :: ts₃), ?_, ?_⟩
    · rw [strings_wrapAll] at ha
      rcases mem_append.mp ha with ha | ha
      · exact hspans₁ a ha
      · obtain ⟨x, hx, rfl⟩ := mem_map.mp ha
        exact hspans₃ x hx
    · rw [hts, ← hrest, hsplit₁, hts₂, ← hrest₂, hsplit₃]
      simp
    · change Derives _ _ ((wrapAll c₁ rs).map Span.text)
      rw [map_wrapAll]
      exact .block hder₁ hredirs
  · refine Ends.ite_of_pos ?_ ?_
    · exact Bool.eq_false_iff.mpr (peek_eq_false (t := .rparen) (by simp) hno)
    · simp [Ends]

theorem parseexec_sound (hblock : ∀ s ts, tokens s = .lparen :: ts →
      depth (tokens s).length .exec ≤ fuel + 1 → s <:+ line →
      Ends (parseblock fuel s) (Parsed line .exec s) (· ≠ .fuel)) :
    Sound line .exec (fuel + 1) := by
  intro s hfuel hs
  have hskip := (skip_suffix s).trans hs
  rcases head_cases s .lparen with ⟨ts, hts⟩ | hno
  · have htokens := tokens_skip s
    refine Ends.ite_of_pos (peek_eq_true (t := .lparen) (by simp) hts) ?_
    refine (hblock (skip s) ts (htokens.trans hts) (by rw [htokens]; exact hfuel) hskip).mono ?_
    rintro r ⟨hr, hspans, ts', hsplit, hder⟩
    exact ⟨hr, hspans, ts', htokens ▸ hsplit, hder⟩
  · simp only [depth] at hfuel
    refine Ends.ite_of_neg (peek_eq_false (t := .lparen) (by simp) hno) ?_
    refine (parseredirs_sound fuel (.exec []) (skip s) (by rw [tokens_skip]; omega) hskip).bind ?_
    rintro ⟨c₁, s₁⟩ ⟨hs₁, ts₁, rs₁, hsplit₁, hredirs, rfl, hspans₁⟩
    rw [tokens_skip] at hsplit₁
    have hlen₁ := congrArg length hsplit₁
    rw [length_append] at hlen₁
    dsimp only at hlen₁ hsplit₁
    refine (parseargs_sound fuel [] rs₁ s₁ (by omega) hs₁ (Nat.zero_le _)).mono ?_
    rintro ⟨c₂, s₂⟩ ⟨hs₂, ts₂, argv, rs₂, hsplit₂, hargs, rfl, hlen, hspans₂, hspans₂'⟩
    refine ⟨hs₂, fun a ha => ?_, ts₁ ++ ts₂, ?_, ?_⟩
    · rw [strings_wrapAll] at ha
      rcases mem_append.mp ha with ha | ha
      · exact hspans₂ a ha
      · obtain ⟨x, hx, rfl⟩ := mem_map.mp ha
        exact (mem_append.mp hx).elim (hspans₁ x) (hspans₂' x)
    · rw [hsplit₁, hsplit₂, append_assoc]
    · change Derives _ _ ((wrapAll (.exec argv) (rs₁ ++ rs₂)).map Span.text)
      rw [map_wrapAll, map_append]
      refine .simple hredirs hargs ?_
      rw [length_map]
      exact hlen

/-- The parser does not run forever, and what it accepts is derived. -/
theorem parse_sound (fuel : ℕ) (nt : Nonterminal) : Sound line nt fuel := by
  induction fuel using Nat.strong_induction_on generalizing nt with
  | h fuel ih =>
    cases fuel with
    | zero =>
      intro s hfuel
      cases nt <;> simp [depth] at hfuel
    | succ fuel =>
      have hbelow := fun nt => ih fuel (Nat.lt_succ_self fuel) nt
      cases nt with
      | line => exact parseline_sound (hbelow .pipe) (hbelow .line)
      | pipe => exact parsepipe_sound (hbelow .exec) (hbelow .pipe)
      | exec =>
        refine parseexec_sound fun s ts hts hfuel hs => ?_
        simp only [depth] at hfuel
        rw [hts, length_cons] at hfuel
        cases fuel with
        | zero => omega
        | succ fuel =>
          refine parseblock_sound (ih fuel (by omega) .line) hts ?_ hs
          simp only [depth]
          omega

end Sound

/-! ## What is derived is accepted -/

theorem Follow.not_head (h : Follow nt ts) (ht : t.ends nt = false) : ts.head? ≠ some t :=
  fun hhead => absurd ((h t hhead).symm.trans ht) (by simp)

theorem Follow.exec_of_pipe (h : Follow .pipe ts) : Follow .exec ts := by
  intro t ht
  have hend := h t ht
  cases t with
  | bar | lparen | redir | word => cases hend
  | amp | semi | rparen => rfl

theorem Follow.pipe_of_line (h : Follow .line ts) : Follow .pipe ts := by
  intro t ht
  have hend := h t ht
  cases t with
  | bar | lparen | redir | word | amp | semi => cases hend
  | rparen => rfl

theorem Follow.cons (ht : t.ends nt = true) (ts : List Token) : Follow nt (t :: ts) := by
  rintro t' ⟨⟩
  exact ht

theorem Follow.amps (h : Follow .pipe rest) (k : ℕ) : Follow .pipe (replicate k .amp ++ rest) := by
  cases k with
  | zero => exact h
  | succ k => exact .cons rfl _

/-- A simple command does not start with a parenthesis. -/
theorem head_ne_lparen {ts' : List Token} {rs' : List (RedirOp × Str)}
    (hr : Redirs ts rs) (h : Args ts' ws rs') (hrest : Follow .exec rest) :
    ((ts ++ ts') ++ rest).head? ≠ some .lparen := by
  cases hr with
  | cons => simp
  | nil =>
    cases h with
    | cons => simp
    | nil => exact hrest.not_head rfl

theorem parse_complete {c : Cmd Str} (h : Derives nt ts c) (rest : List Token)
    (hrest : Follow nt rest) (fuel : ℕ) (s : Str) (hs : tokens s = ts ++ rest) :
    Ends (parse nt fuel s) (fun r => tokens r.2 = rest ∧ r.1.map Span.text = c) (· = .fuel) := by
  induction h generalizing rest fuel s with
  | @last ts c k h ih =>
    cases fuel with
    | zero => rfl
    | succ fuel =>
      rw [append_assoc] at hs
      refine (ih _ (hrest.pipe_of_line.amps k) fuel s hs).bind ?_
      rintro ⟨c₁, s₁⟩ ⟨hs₁, rfl⟩
      refine (parseback_complete (hrest.not_head rfl) k fuel c₁ s₁ hs₁).bind ?_
      rintro ⟨c₂, s₂⟩ ⟨hs₂, rfl⟩
      dsimp only at hs₂
      refine Ends.ite_of_neg (peek_eq_false (t := .semi) (by simp) ?_) ?_
      · rw [hs₂]
        exact hrest.not_head rfl
      · exact ⟨(tokens_skip s₂).trans hs₂, map_back Span.text c₁ k⟩
  | @seq ts ts' c c' k h h' ih ih' =>
    cases fuel with
    | zero => rfl
    | succ fuel =>
      rw [append_assoc, append_assoc, cons_append] at hs
      have hfollow : Follow .pipe (.semi :: (ts' ++ rest)) := .cons rfl _
      refine (ih _ (hfollow.amps k) fuel s hs).bind ?_
      rintro ⟨c₁, s₁⟩ ⟨hs₁, rfl⟩
      refine (parseback_complete (by simp) k fuel c₁ s₁ hs₁).bind ?_
      rintro ⟨c₂, s₂⟩ ⟨hs₂, rfl⟩
      dsimp only at hs₂
      refine Ends.ite_of_pos (peek_eq_true (t := .semi) (by simp) hs₂) ?_
      refine (ih' rest hrest fuel _ (next_of_tokens hs₂).2.1).bind ?_
      rintro ⟨c₃, s₃⟩ ⟨hs₃, rfl⟩
      exact ⟨hs₃, congrArg (Cmd.list · _) (map_back Span.text c₁ k)⟩
  | @single ts c h ih =>
    cases fuel with
    | zero => rfl
    | succ fuel =>
      refine (ih rest hrest.exec_of_pipe fuel s hs).bind ?_
      rintro ⟨c₁, s₁⟩ ⟨hs₁, rfl⟩
      dsimp only at hs₁
      refine Ends.ite_of_neg (peek_eq_false (t := .bar) (by simp) ?_) ?_
      · rw [hs₁]
        exact hrest.not_head rfl
      · exact ⟨(tokens_skip s₁).trans hs₁, rfl⟩
  | @piped ts ts' c c' h h' ih ih' =>
    cases fuel with
    | zero => rfl
    | succ fuel =>
      rw [append_assoc, cons_append] at hs
      refine (ih _ (.cons rfl _) fuel s hs).bind ?_
      rintro ⟨c₁, s₁⟩ ⟨hs₁, rfl⟩
      dsimp only at hs₁
      refine Ends.ite_of_pos (peek_eq_true (t := .bar) (by simp) hs₁) ?_
      refine (ih' rest hrest fuel _ (next_of_tokens hs₁).2.1).bind ?_
      rintro ⟨c₂, s₂⟩ ⟨hs₂, rfl⟩
      exact ⟨hs₂, rfl⟩
  | @block ts ts' c rs h hr ih =>
    cases fuel with
    | zero => rfl
    | succ fuel =>
      rw [cons_append, append_assoc, cons_append] at hs
      have hskip := (tokens_skip s).trans hs
      refine Ends.ite_of_pos (peek_eq_true (t := .lparen) (by simp) hs) ?_
      cases fuel with
      | zero => rfl
      | succ fuel =>
        refine Ends.ite_of_neg ?_ ?_
        · exact Bool.not_eq_false _ ▸ peek_eq_true (t := .lparen) (by simp) hskip
        refine (ih _ (.cons rfl _) fuel _ (next_of_tokens hskip).2.1).bind ?_
        rintro ⟨c₁, s₁⟩ ⟨hs₁, rfl⟩
        dsimp only at hs₁
        refine Ends.ite_of_neg ?_ ?_
        · exact Bool.not_eq_false _ ▸ peek_eq_true (t := .rparen) (by simp) hs₁
        refine (parseredirs_complete hr hrest.noRedir fuel c₁ _ (next_of_tokens hs₁).2.1).mono ?_
        rintro ⟨c₂, s₂⟩ ⟨hs₂, xs, rfl, rfl⟩
        exact ⟨hs₂, map_wrapAll Span.text c₁ xs⟩
  | @simple ts ts' ws rs rs' hr h hlen =>
    cases fuel with
    | zero => rfl
    | succ fuel =>
      refine Ends.ite_of_neg (peek_eq_false (t := .lparen) (by simp) ?_) ?_
      · rw [hs]
        exact head_ne_lparen hr h hrest
      rw [append_assoc] at hs
      refine (parseredirs_complete hr (h.noRedir hrest.noRedir) fuel (.exec []) (skip s)
        ((tokens_skip s).trans hs)).bind ?_
      rintro ⟨c₁, s₁⟩ ⟨hs₁, xs, rfl, rfl⟩
      exact parseargs_complete h hrest fuel [] xs s₁ hs₁ (by simpa using hlen)

/-! ## Strings -/

/-- `nulterminate` writes a NUL behind every string. -/
def terminate (n : ℕ) (buf : Str) (as : List Span) : Str :=
  as.foldl (fun buf a => buf.set (n - a.eq.length) 0) buf

theorem nulterminate_eq (n : ℕ) (c : Cmd Span) (buf : Str) :
    c.nulterminate n buf = terminate n buf c.strings := by
  induction c generalizing buf with
  | exec argv => rfl
  | redir c file mode fd ih =>
    rw [Cmd.nulterminate, ih, Cmd.strings, terminate, terminate, foldl_append]
    rfl
  | pipe left right ihl ihr | list left right ihl ihr =>
    rw [Cmd.nulterminate, ihl, ihr, Cmd.strings, terminate, terminate, terminate, foldl_append]
  | back c ih => exact ih buf

/-- A character that is behind no string stays. -/
theorem getElem?_terminate_of_ne (h : ∀ a ∈ as, n - a.eq.length ≠ i) (buf : Str) :
    (terminate n buf as)[i]? = buf[i]? := by
  induction as generalizing buf with
  | nil => rfl
  | cons a as ih =>
    refine (ih (fun b hb => h b (mem_cons_of_mem a hb)) _).trans ?_
    exact getElem?_set_ne (h a mem_cons_self)

theorem getElem?_terminate_of_zero (as : List Span) (h : buf[i]? = some 0) :
    (terminate n buf as)[i]? = some 0 := by
  induction as generalizing buf with
  | nil => exact h
  | cons a as ih =>
    refine ih ?_
    rw [getElem?_set]
    split
    next heq =>
      subst heq
      rw [if_pos (List.getElem?_eq_some_iff.mp h).1]
    next => exact h

theorem getElem?_terminate_of_mem {a : Span} (ha : a ∈ as) (hlen : n - a.eq.length < buf.length) :
    (terminate n buf as)[n - a.eq.length]? = some 0 := by
  induction as generalizing buf with
  | nil => cases ha
  | cons b as ih =>
    rcases mem_cons.mp ha with rfl | ha
    · exact getElem?_terminate_of_zero as (getElem?_set_self hlen)
    · exact ih ha (by rwa [length_set])

/-- Characters of a word with a NUL behind them are a C string. -/
theorem takeWhile_of_take {l : Str} (htake : l.take w.length = w)
    (hzero : l[w.length]? = some 0) (hw : (0 : Byte) ∉ w) :
    l.takeWhile (fun c => decide (c ≠ 0)) = w := by
  obtain ⟨hlt, hget⟩ := List.getElem?_eq_some_iff.mp hzero
  have hsplit : l = w ++ 0 :: l.drop (w.length + 1) := by
    conv_lhs => rw [← List.take_append_drop w.length l, htake]
    rw [List.drop_eq_getElem_cons hlt, hget]
  have hall : ∀ c ∈ w, decide (c ≠ 0) = true := by
    intro c hc
    refine decide_eq_true ?_
    rintro rfl
    exact hw hc
  rw [hsplit, takeWhile_append_of_pos hall]
  simp

theorem getElem?_of_suffix {q line : Str} (h : q <:+ line) (j : ℕ) :
    (line)[line.length - q.length + j]? = q[j]? := by
  rw [← getElem?_drop, ← suffix_iff_eq_drop.mp h]

namespace IsSpan

variable {line : Str} {a : Span}

theorem split (h : IsSpan line a) : a.text ++ a.eq = a.q := by
  rw [h.text_eq, h.stop, takeWhile_append_dropWhile]

theorem eq_suffix (h : IsSpan line a) : a.eq <:+ line :=
  List.IsSuffix.trans ⟨a.text, h.split⟩ h.suffix

/-- There is no character of a word behind the string. -/
theorem not_word (h : IsSpan line a)
    (hc : (line)[line.length - a.eq.length]? = some c) : isWord c = false := by
  have hget := getElem?_of_suffix h.eq_suffix 0
  rw [Nat.add_zero, hc] at hget
  have hhead := head?_dropWhile_not isWord a.q
  rw [← h.stop, head?_eq_getElem?, ← hget] at hhead
  simpa using hhead

theorem word_of_text (h : IsSpan line a) (hc : c ∈ a.text) : isWord c = true := by
  rw [h.text_eq] at hc
  exact all_eq_true.mp (all_takeWhile (p := isWord) (l := a.q)) c hc

/-- After `nulterminate` the string ends where the word ends. -/
theorem cstring_eq (h : IsSpan line a) (hline : (0 : Byte) ∉ line) (ha : a ∈ as)
    (has : ∀ b ∈ as, IsSpan line b) :
    cstring line.length (terminate line.length (line ++ [0]) as) a.q = a.text := by
  have hq := congrArg length h.split
  have hqlen := h.suffix.length_le
  rw [length_append] at hq
  have hstop : line.length - a.q.length + a.text.length = line.length - a.eq.length := by omega
  refine takeWhile_of_take ?_ ?_ fun hmem => hline ?_
  · refine ext_getElem? fun j => ?_
    rw [getElem?_take]
    split
    next hj =>
      have hget : (line)[line.length - a.q.length + j]? = a.text[j]? := by
        rw [getElem?_of_suffix h.suffix, ← h.split, getElem?_append_left hj]
      rw [getElem?_drop, getElem?_terminate_of_ne, getElem?_append_left, hget]
      · omega
      · intro b hb heq
        rw [← heq] at hget
        have hword := (has b hb).not_word (hget.trans (getElem?_eq_getElem hj))
        exact absurd (hword.symm.trans (h.word_of_text (getElem_mem hj))) (by simp)
    next hj => exact (getElem?_eq_none (Nat.le_of_not_lt hj)).symm
  · rw [getElem?_drop, hstop]
    refine getElem?_terminate_of_mem ha ?_
    rw [length_append, length_singleton]
    omega
  · refine h.suffix.subset ?_
    rw [← h.split]
    exact mem_append_left _ hmem

end IsSpan

theorem map_congr {α β : Type} {f g : α → β} {c : Cmd α} (h : ∀ a ∈ c.strings, f a = g a) :
    c.map f = c.map g := by
  induction c with
  | exec argv => exact congrArg Cmd.exec (map_congr_left h)
  | redir c file mode fd ih =>
    rw [Cmd.map, Cmd.map, ih fun a ha => h a (mem_append_left _ ha),
      h file (mem_append_right _ (mem_singleton_self file))]
  | pipe left right ihl ihr | list left right ihl ihr =>
    rw [Cmd.map, Cmd.map, ihl fun a ha => h a (mem_append_left _ ha),
      ihr fun a ha => h a (mem_append_right _ ha)]
  | back c ih => exact congrArg Cmd.back (ih h)

/-! ## Lines -/

theorem length_consWord_le (c : Byte) (joined : Bool) (ts : List Token) :
    (consWord c joined ts).length ≤ ts.length + 1 := by
  unfold consWord
  split
  · split <;> simp
  · simp

theorem length_tokens_le (s : Str) : (tokens s).length ≤ s.length := by
  fun_induction tokens s with
  | case1 | case2 | case3 | case4 => simp
  | case5 c d s h ih => exact ih.trans (Nat.le_succ _)
  | case6 c d s h h' ih => exact (length_consWord_le _ _ _).trans (Nat.succ_le_succ ih)
  | case7 c d s h h' h'' ih =>
    rw [length_cons, length_cons, length_cons]
    omega
  | case8 c d s h h' h'' ih => exact Nat.succ_le_succ ih

theorem skip_eq_nil (h : tokens s = []) : skip s = [] := by
  rcases gettoken_spec s with ⟨-, hnil⟩ | ⟨t, ht⟩
  · unfold gettoken at hnil
    split at hnil
    next hskip => exact hskip
    next c t hskip => split_ifs at hnil <;> cases hnil
  · exact absurd (h.symm.trans ht.rest) (by simp)

/-- The words of the tree are the C strings that `nulterminate` has made. -/
theorem map_cstring {line : Str} (hline : (0 : Byte) ∉ line) {c : Cmd Span}
    (hspans : ∀ a ∈ c.strings, IsSpan line a) :
    c.map (fun a => cstring line.length (c.nulterminate line.length (line ++ [0])) a.q) =
      c.map Span.text := by
  rw [nulterminate_eq]
  exact map_congr fun a ha => (hspans a ha).cstring_eq hline ha hspans

theorem depth_le (line : Str) : depth (tokens line).length .line ≤ 4 * line.length + 4 := by
  have hlen := length_tokens_le line
  simp only [depth]
  omega

theorem parsecmd_sound (line : Str) :
    Ends (parsecmd line) (fun r => (∀ a ∈ r.1.strings, IsSpan line a) ∧
      r.2 = r.1.nulterminate line.length (line ++ [0]) ∧
      Derives .line (tokens line) (r.1.map Span.text)) (· ≠ .fuel) := by
  refine (parse_sound (4 * line.length + 4) .line line (depth_le line) suffix_rfl).bind ?_
  rintro ⟨c, s⟩ ⟨-, hspans, ts, hsplit, hder⟩
  by_cases hskip : skip s = []
  · have hnil : tokens s = [] := by
      rw [← tokens_skip, hskip]
      rfl
    rw [hnil, append_nil] at hsplit
    exact Ends.ite_of_neg (not_not.mpr hskip) ⟨hspans, rfl, hsplit ▸ hder⟩
  · refine Ends.ite_of_pos hskip ?_
    simp [Ends]

theorem parsecmd_complete {line : Str} {tree : Cmd Str} (hline : (0 : Byte) ∉ line)
    (hder : Derives .line (tokens line) tree) :
    ∃ c buf, parsecmd line = .ok (c, buf) ∧
      c.map (fun a => cstring line.length buf a.q) = tree := by
  have hcomplete := parse_complete hder [] (by simp [Follow]) (4 * line.length + 4) line (by simp)
  have hsound := parse_sound (4 * line.length + 4) .line line (depth_le line) suffix_rfl
  cases hparse : parseline (4 * line.length + 4) line with
  | error e => exact absurd (hcomplete.of_error hparse) (hsound.of_error hparse)
  | ok r =>
    obtain ⟨c, s⟩ := r
    obtain ⟨hnil, rfl⟩ := hcomplete.of_ok hparse
    refine ⟨c, c.nulterminate line.length (line ++ [0]), ?_,
      map_cstring hline (hsound.of_ok hparse).spans⟩
    unfold parsecmd
    rw [hparse]
    exact if_neg (not_not.mpr (skip_eq_nil hnil))

/-- `parsecmd` ends, and it returns a tree exactly for the lines of the grammar.  The
tree is that of the derivation, with the words as C strings. -/
theorem parsecmd_accepts_grammar (line : Str) (hline : (0 : Byte) ∉ line) :
    parsecmd line ≠ .error .fuel ∧
    ∀ tree, (∃ c buf, parsecmd line = .ok (c, buf) ∧
        c.map (fun a => cstring line.length buf a.q) = tree) ↔
      Derives .line (tokens line) tree := by
  have hends := parsecmd_sound line
  refine ⟨fun herr => hends.of_error herr rfl, fun tree => ⟨?_, parsecmd_complete hline⟩⟩
  rintro ⟨c, buf, hok, rfl⟩
  obtain ⟨hspans, hbuf, hder⟩ := hends.of_ok hok
  dsimp only at hspans hbuf hder
  rwa [hbuf, map_cstring hline hspans]

/-- `a|(b>c)&;`. -/
def sampleLine : Str := "a|(b>c)&;".toList.map ch

theorem parsecmd_accepts_grammar_sampleLine : (0 : Byte) ∉ sampleLine ∧
    ∃ c buf, parsecmd sampleLine = .ok (c, buf) ∧
      c.map (fun a => cstring sampleLine.length buf a.q) = .list (.back (.pipe (.exec [[ch 'a']])
          (.redir (.exec [[ch 'b']]) [ch 'c'] (O_WRONLY ||| O_CREATE ||| O_TRUNC) 1)))
          (.exec []) := by
  have hline : (0 : Byte) ∉ sampleLine := by decide
  refine ⟨hline, ((parsecmd_accepts_grammar sampleLine hline).2 _).mpr ?_⟩
  have htokens : tokens sampleLine = [.word [ch 'a'], .bar, .lparen, .word [ch 'b'],
      .redir .output, .word [ch 'c'], .rparen, .amp, .semi] := by
    decide
  rw [htokens]
  have hempty : Derives .line [] (.exec []) := .last 0 (.single (.simple .nil .nil (by simp)))
  have hleft : Derives .exec [.word [ch 'a']] (.exec [[ch 'a']]) :=
    .simple .nil (.cons _ .nil .nil) (by simp)
  have hright : Derives .exec [.word [ch 'b'], .redir .output, .word [ch 'c']]
      (.redir (.exec [[ch 'b']]) [ch 'c'] (O_WRONLY ||| O_CREATE ||| O_TRUNC) 1) :=
    .simple .nil (.cons _ (.cons .output _ .nil) .nil) (by simp)
  exact .seq 1 (.piped hleft (.single (.block (.last 0 (.single hright)) .nil))) hempty

/-! ## What `nulterminate` overwrites -/

/-- The texts of the tree are the words of a parse of the line, and every string of it is,
after `nulterminate`, the C string of its text.  What is overwritten is the character behind
a string, which is not in a word. -/
theorem nulterminate_cuts_words {line buf : Str} {c : Cmd Span} (hline : (0 : Byte) ∉ line)
    (hok : parsecmd line = .ok (c, buf)) :
    Derives .line (tokens line) (c.map Span.text) ∧
    (∀ a ∈ c.strings, IsSpan line a ∧ cstring line.length buf a.q = a.text) ∧
    (∀ (i : ℕ) d, (line)[i]? = some d → isWord d = true → buf[i]? = some d) ∧
    ∀ i : ℕ, buf[i]? ≠ (line ++ [0])[i]? → ∃ a ∈ c.strings, i = line.length - a.eq.length := by
  obtain ⟨hspans, hbuf, hder⟩ := (parsecmd_sound line).of_ok hok
  dsimp only at hspans hbuf
  subst hbuf
  rw [nulterminate_eq]
  refine ⟨hder, fun a ha => ⟨hspans a ha, (hspans a ha).cstring_eq hline ha hspans⟩,
    fun i d hd hword => ?_, fun i hi => ?_⟩
  · have hlt : i < line.length := (List.getElem?_eq_some_iff.mp hd).1
    rw [getElem?_terminate_of_ne, getElem?_append_left hlt, hd]
    rintro a ha rfl
    exact absurd (hword.symm.trans ((hspans a ha).not_word hd)) (by simp)
  · by_contra hnone
    refine hi (getElem?_terminate_of_ne (fun a ha heq => hnone ⟨a, ha, heq.symm⟩) _)

/-- `echo hi>out|wc`. -/
def crowdedLine : Str := "echo hi>out|wc".toList.map ch

theorem nulterminate_cuts_words_crowdedLine : ∃ c buf, parsecmd crowdedLine = .ok (c, buf) ∧
      c.strings.map (fun a => cstring crowdedLine.length buf a.q) =
        ["echo", "hi", "out", "wc"].map fun w => w.toList.map ch := by
  obtain ⟨⟨c, buf⟩, hok, hwords⟩ : ∃ r, parsecmd crowdedLine = .ok r ∧
      r.1.strings.map Span.text = ["echo", "hi", "out", "wc"].map fun w => w.toList.map ch :=
    exists_ok_of_any (by decide +kernel)
  refine ⟨c, buf, hok, (map_congr_left fun a ha => ?_).trans hwords⟩
  exact ((nulterminate_cuts_words (by decide) hok).2.1 a ha).2

/-- In `a|b` the symbol is overwritten. -/
theorem nulterminate_overwrites_symbol :
    (parsecmd ([ch 'a', ch '|', ch 'b'])).toOption.any (fun r =>
      r.1.map Span.text = .pipe (.exec [[ch 'a']]) (.exec [[ch 'b']]) ∧
        r.2 = [ch 'a', 0, ch 'b', 0]) = true := by
  decide +kernel

end OsCa.Shell
