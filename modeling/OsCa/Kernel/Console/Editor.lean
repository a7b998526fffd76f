import OsCa.Kernel.Console.Model

/-!
# The console is a line editor

The editor has a queue of committed bytes and an edit line, and no indices.  The
ring of the console shows the queue between `r` and `w` and the edit line between
`w` and `e`, and the two do the same with every event.
-/

namespace OsCa.Console

open Bytes Function List

variable {target n : ℕ} {got : List Byte}

/-! ## The editor -/

/-- A read that waits for more input. -/
structure Request where
  target : ℕ
  n : ℕ
  got : List Byte

structure Editor (P : Type) where
  queue : List Byte
  edit : List Byte
  request : P → Option Request
  killed : P → Bool
  delivered : List (Delivery P)

/-- A character is appended to the edit line. -/
def append (queue edit : List Byte) (ch : Byte) : List Byte × List Byte :=
  if queue.length + edit.length < INPUT_BUF then
    let ch := if ch = carriageReturn then newline else ch
    if ch = newline ∨ ch = C 'D' ∨ queue.length + edit.length + 1 = INPUT_BUF then
      (queue ++ (edit ++ [ch]), [])
    else (queue, edit ++ [ch])
  else (queue, edit)

/-- A key is pressed. -/
def key (queue edit : List Byte) (ch : Byte) : List Byte × List Byte :=
  if ch = C 'P' ∨ ch = 0 then (queue, edit)
  else if ch = C 'U' then (queue, [])
  else if ch = C 'H' ∨ ch = delete then (queue, edit.dropLast)
  else append queue edit ch

/-- A read takes `n` more bytes from the queue. -/
def take (killed : Bool) : ℕ → List Byte → List Byte → List Byte × Result
  | 0, got, queue => (queue, .returned got.length got)
  | n + 1, got, [] => ([], if killed then .returned (-1) got else .asleep (n + 1) got)
  | n + 1, got, ch :: queue =>
    if ch = C 'D' then
      if got = [] then (queue, .returned 0 []) else (ch :: queue, .returned got.length got)
    else if ch = newline then (queue, .returned (got.length + 1) (got ++ [ch]))
    else take killed n (got ++ [ch]) queue

namespace Editor

variable {P : Type} [DecidableEq P]

def proceed (a : Editor P) (p : P) (k : Request) : Editor P :=
  match take (a.killed p) k.n k.got a.queue with
  | (queue, .asleep n got) =>
    { a with
      queue := queue
      request := update a.request p (some ⟨k.target, n, got⟩) }
  | (queue, .returned ret got) =>
    { a with
      queue := queue
      request := update a.request p none
      delivered := a.delivered ++ [⟨p, k.target, got, ret⟩] }

def step (a : Editor P) : Event P → Option (Editor P)
  | .consoleintr ch =>
    let (queue, edit) := key a.queue a.edit ch
    some { a with queue := queue, edit := edit }
  | .consoleread p _ n =>
    match a.request p with
    | none => some (a.proceed p ⟨n.toInt.toNat, n.toInt.toNat, []⟩)
    | some _ => none
  | .resume p => (a.request p).map (a.proceed p)
  | .kill p => some { a with killed := update a.killed p true }
  | .fork p => some { a with killed := update a.killed p false }

def empty : Editor P where
  queue := []
  edit := []
  request _ := none
  killed _ := false
  delivered := []

def system (P : Type) [DecidableEq P] : EventSystem (Editor P) (Event P) where
  init a := a = empty
  step := step

end Editor

/-! ## The ring shows the queue and the edit line -/

theorem INPUT_BUF_dvd : INPUT_BUF ∣ 2 ^ 32 := by decide

theorem INPUT_BUF_lt : INPUT_BUF < 2 ^ 32 := by decide

structure Shows (c : Cons) (queue edit : List Byte) : Prop where
  holds : Ring.Holds c.buf c.r c.e (queue ++ edit)
  mark : c.w = c.r + BitVec.ofNat 32 queue.length

namespace Shows

variable {c : Cons} {queue edit : List Byte} {ch : Byte}

theorem committed (h : Shows c queue edit) : Ring.Holds c.buf c.r c.w queue := by
  rw [h.mark]
  exact h.holds.append_left

theorem editing (h : Shows c queue edit) : Ring.Holds c.buf c.w c.e edit := by
  rw [h.mark]
  exact h.holds.append_right

/-- The reader takes the first byte. -/
theorem pop (h : Shows c (ch :: queue) edit) : Shows { c with r := c.r + 1 } queue edit := by
  refine ⟨h.holds.pop, ?_⟩
  rw [Ring.add_one_ofNat]
  exact h.mark

theorem erase (h : Shows c queue (edit ++ [ch])) : Shows { c with e := c.e - 1 } queue edit := by
  refine ⟨Ring.Holds.unpush (x := ch) ?_, h.mark⟩
  rw [append_assoc]
  exact h.holds

section

variable (h : Shows c queue edit)

include h

theorem dropLast :
    Shows (if c.e ≠ c.w then { c with e := c.e - 1 } else c) queue edit.dropLast := by
  have hempty := h.editing.empty_iff INPUT_BUF_lt
  rcases edit.eq_nil_or_concat with rfl | ⟨edit, ch, rfl⟩
  · rw [if_neg (not_not.mpr (hempty.mpr rfl).symm)]
    exact h
  · rw [concat_eq_append] at h hempty ⊢
    rw [if_pos (Ne.symm (mt hempty.mp (by simp))), dropLast_concat]
    exact h.erase

theorem killLine (hplain : newline ∉ edit) : Shows (killLine edit.length c) queue [] := by
  induction edit using reverseRecOn generalizing c with
  | nil => exact h
  | append_singleton edit ch ih =>
    have hne : c.e ≠ c.w := by
      refine Ne.symm (mt (h.editing.empty_iff INPUT_BUF_lt).mp ?_)
      simp
    have hlast : c.buf (Ring.slot INPUT_BUF (c.e - 1)) ≠ newline := by
      rw [h.editing.last]
      rintro rfl
      exact hplain (by simp)
    rw [length_append, length_singleton, Console.killLine, if_pos ⟨hne, hlast⟩]
    exact ih h.erase fun hmem => hplain (mem_append_left _ hmem)

/-- A character is appended to the edit line. -/
theorem push (hlen : queue.length + edit.length < INPUT_BUF) (ch : Byte) : Shows { c with
      buf := update c.buf (Ring.slot INPUT_BUF c.e) ch
      e := c.e + 1 } queue (edit ++ [ch]) := by
  refine ⟨?_, h.mark⟩
  rw [← append_assoc]
  refine h.holds.push INPUT_BUF_dvd ?_ ch
  rw [length_append]
  exact hlen

/-- `cons.w = cons.e`. -/
theorem commit : Shows { c with w := c.e } (queue ++ edit) [] := by
  refine ⟨?_, h.holds.tail⟩
  rw [append_nil]
  exact h.holds

theorem lt_iff :
    c.e - c.r < BitVec.ofNat 32 INPUT_BUF ↔ queue.length + edit.length < INPUT_BUF := by
  rw [BitVec.lt_def, h.holds.toNat_sub INPUT_BUF_lt, length_append]
  rfl

theorem full_iff :
    c.e = c.r + BitVec.ofNat 32 INPUT_BUF ↔ queue.length + edit.length = INPUT_BUF := by
  rw [h.holds.full_iff INPUT_BUF_lt, length_append]

theorem store (hch : ch ≠ 0) :
    Shows (store c ch).1 (append queue edit ch).1 (append queue edit ch).2 := by
  unfold Console.store append
  by_cases hlen : queue.length + edit.length < INPUT_BUF
  · have hpush := h.push hlen (if ch = carriageReturn then newline else ch)
    have hfull := hpush.full_iff
    rw [length_append, length_singleton, ← Nat.add_assoc] at hfull
    rw [if_pos ⟨hch, h.lt_iff.mpr hlen⟩, if_pos hlen]
    simp only [hfull]
    generalize (if ch = carriageReturn then newline else ch) = x at hpush ⊢
    split
    · exact hpush.commit
    · exact hpush
  · rw [if_neg fun hs => hlen (h.lt_iff.mp hs.2), if_neg hlen]
    exact h

theorem consoleintr (hplain : newline ∉ edit) (ch : Byte) :
    Shows (consoleintr c ch).1 (key queue edit ch).1 (key queue edit ch).2 := by
  unfold Console.consoleintr key
  by_cases hP : ch = C 'P'
  · rw [if_pos hP, if_pos (Or.inl hP)]
    exact h
  rw [if_neg hP]
  by_cases h0 : ch = 0
  · subst h0
    exact h
  rw [if_neg (not_or_intro hP h0)]
  split
  · rw [h.editing.toNat_sub INPUT_BUF_lt]
    exact h.killLine hplain
  split
  · exact h.dropLast
  · exact h.store h0

theorem readLoop (killed : Bool) {dst : ℕ → Bool} (hdst : ∀ i, dst i = true)
    (htarget : got.length + n = target) :
    Shows (readLoop killed dst target n got c).1 (take killed n got queue).1 edit ∧
      (readLoop killed dst target n got c).2 = (take killed n got queue).2 := by
  induction n generalizing c queue got with
  | zero =>
    cases htarget
    exact ⟨h, rfl⟩
  | succ n ih =>
    have hempty := h.committed.empty_iff INPUT_BUF_lt
    have hm : (target : ℤ) - ((n + 1 : ℕ) : ℤ) = got.length := by omega
    cases queue with
    | nil =>
      rw [Console.readLoop, if_pos (hempty.mpr rfl)]
      exact ⟨h, rfl⟩
    | cons ch queue =>
      have hpop := h.pop
      rw [Console.readLoop, if_neg (mt hempty.mp (by simp)), take]
      simp only [h.holds.head, hm, hdst, Bool.true_eq_false, if_false]
      by_cases hD : ch = C 'D'
      · rw [if_pos hD, if_pos hD]
        by_cases hgot : got = []
        · subst hgot
          rw [if_pos rfl, if_neg (by simp at htarget; omega)]
          exact ⟨hpop, rfl⟩
        · -- The end-of-file character is put back.
          have hpos := length_pos_of_ne_nil hgot
          rw [if_neg hgot, if_pos (by omega), BitVec.add_sub_cancel]
          exact ⟨h, rfl⟩
      · rw [if_neg hD, if_neg hD]
        by_cases hnl : ch = newline
        · rw [if_pos hnl, if_pos hnl]
          exact ⟨hpop, rfl⟩
        · rw [if_neg hnl, if_neg hnl]
          refine ih hpop ?_
          rw [length_append, length_singleton]
          omega

end

end Shows

/-! ## Lines -/

/-- No newline comes into the edit line. -/
theorem newline_notMem_key {queue edit : List Byte} (h : newline ∉ edit) (ch : Byte) :
    newline ∉ (key queue edit ch).2 := by
  unfold key append
  split
  · exact h
  split
  · exact not_mem_nil
  split
  · exact fun hmem => h (dropLast_subset _ hmem)
  split
  · dsimp only
    generalize (if ch = carriageReturn then newline else ch) = x
    split
    · exact not_mem_nil
    next hnot =>
      simp only [mem_append, mem_singleton, not_or]
      exact ⟨h, fun heq => hnot (Or.inl heq.symm)⟩
  · exact h

/-- What a read returns is a part of one line. -/
structure Line (target : ℕ) (bytes : List Byte) (ret : ℤ) : Prop where
  length_le : bytes.length ≤ target
  eof : C 'D' ∉ bytes
  newline : newline ∉ bytes.dropLast
  ret : ret = bytes.length ∨ ret = -1

/-- What a read has got before it sleeps. -/
structure Request.Partial (k : Request) : Prop where
  length_add : k.got.length + k.n = k.target
  eof : C 'D' ∉ k.got
  newline : newline ∉ k.got

/-- What becomes of a read. -/
def Result.Good (target : ℕ) : Result → Prop
  | .asleep n got => Request.Partial ⟨target, n, got⟩
  | .returned ret got => Line target got ret

theorem Request.Partial.line (h : Request.Partial ⟨target, n, got⟩) {ret : ℤ}
    (hret : ret = got.length ∨ ret = -1) : Line target got ret := by
  refine ⟨?_, h.eof, fun hmem => h.newline (dropLast_subset _ hmem), hret⟩
  exact (Nat.le_add_right _ _).trans_eq h.length_add

theorem good_take (killed : Bool) (h : Request.Partial ⟨target, n, got⟩)
    (queue : List Byte) : (take killed n got queue).2.Good target := by
  induction n generalizing got queue with
  | zero => exact h.line (Or.inl rfl)
  | succ n ih =>
    cases queue with
    | nil =>
      cases killed with
      | false => exact h
      | true => exact h.line (Or.inr rfl)
    | cons ch queue =>
      rw [take]
      by_cases hD : ch = C 'D'
      · rw [if_pos hD]
        by_cases hgot : got = []
        · subst hgot
          rw [if_pos rfl]
          exact h.line (Or.inl rfl)
        · rw [if_neg hgot]
          exact h.line (Or.inl rfl)
      · rw [if_neg hD]
        have hlen : (got ++ [ch]).length = got.length + 1 := by simp
        have hadd : got.length + (n + 1) = target := h.length_add
        have heof : C 'D' ∉ got ++ [ch] := by
          simp only [mem_append, mem_singleton, not_or]
          exact ⟨h.eof, Ne.symm hD⟩
        by_cases hnl : ch = newline
        · rw [if_pos hnl]
          refine ⟨by omega, heof, ?_, Or.inl (by omega)⟩
          rw [dropLast_concat]
          exact h.newline
        · rw [if_neg hnl]
          refine ih ⟨by dsimp only; omega, heof, ?_⟩ queue
          simp only [mem_append, mem_singleton, not_or]
          exact ⟨h.newline, Ne.symm hnl⟩

/-! ## Runs -/

section Runs

variable {P : Type} [DecidableEq P] {s t : State P} {a : Editor P} {e : Event P}

def Call.request (k : Call) : Request := ⟨k.target, k.n, k.got⟩

structure Call.Valid (k : Call) : Prop where
  dst : ∀ i, k.dst i = true
  got : k.request.Partial

structure Sim (s : State P) (a : Editor P) : Prop where
  shows : Shows s.cons a.queue a.edit
  plain : newline ∉ a.edit
  request : ∀ p, a.request p = (s.call p).map Call.request
  valid : ∀ p k, s.call p = some k → k.Valid
  killed : a.killed = s.killed
  delivered : a.delivered = s.delivered
  line : ∀ d ∈ s.delivered, Line d.target d.bytes d.ret

theorem Sim.request_update (h : Sim s a) (p : P) (k : Option Call) (q : P) :
    update a.request p (k.map Call.request) q = (update s.call p k q).map Call.request := by
  rw [update_apply, update_apply]
  split
  · rfl
  · exact h.request q

theorem Sim.proceed (h : Sim s a) (p : P) {k : Call} (hk : k.Valid) :
    Sim (s.proceed p k) (a.proceed p k.request) := by
  have hgood : (take (s.killed p) k.n k.got a.queue).2.Good k.target :=
    good_take (s.killed p) hk.got a.queue
  have hlen : k.got.length + k.n = k.target := hk.got.length_add
  obtain ⟨hshows, hres⟩ := h.shows.readLoop (s.killed p) hk.dst hlen
  unfold State.proceed Editor.proceed Call.request
  rw [h.killed]
  dsimp only
  generalize take (s.killed p) k.n k.got a.queue = ta at *
  generalize readLoop (s.killed p) k.dst k.target k.n k.got s.cons = tc at *
  obtain ⟨queue, res⟩ := ta
  obtain ⟨c, _⟩ := tc
  cases hres
  cases res with
  | asleep m got =>
    refine ⟨hshows, h.plain, h.request_update p (some ⟨k.dst, k.target, m, got⟩), ?_,
      rfl, h.delivered, h.line⟩
    intro q k' hk'
    change update s.call p _ q = some k' at hk'
    rw [update_apply] at hk'
    split at hk'
    · cases hk'
      exact ⟨hk.dst, hgood⟩
    · exact h.valid q k' hk'
  | returned ret got =>
    refine ⟨hshows, h.plain, h.request_update p none, ?_, rfl, ?_, ?_⟩
    · intro q k' hk'
      change update s.call p _ q = some k' at hk'
      rw [update_apply] at hk'
      split at hk'
      · cases hk'
      · exact h.valid q k' hk'
    · exact congrArg (· ++ _) h.delivered
    · intro d hd
      rcases mem_append.mp hd with hd | hd
      · exact h.line d hd
      · rw [mem_singleton.mp hd]
        exact hgood

/-- The editor does what the console does. -/
theorem Sim.step (h : Sim s a) (he : e.Valid) (hstep : step s e = some t) :
    ∃ b, Editor.step a e = some b ∧ Sim t b := by
  cases e with
  | consoleintr ch =>
    cases hstep
    exact ⟨_, rfl, h.shows.consoleintr h.plain ch, newline_notMem_key h.plain ch,
      h.request, h.valid, h.killed, h.delivered, h.line⟩
  | consoleread p dst n =>
    simp only [Console.step] at hstep
    split at hstep
    next hcall =>
      cases hstep
      have hreq : a.request p = none := by rw [h.request, hcall]; rfl
      refine ⟨_, ?_, h.proceed p ⟨he, Nat.zero_add _, not_mem_nil, not_mem_nil⟩⟩
      rw [Editor.step, hreq]
      rfl
    next => cases hstep
  | resume p =>
    simp only [Console.step] at hstep
    split at hstep
    next => cases hstep
    next k hcall =>
      split at hstep
      · cases hstep
      · cases hstep
        have hreq : a.request p = some k.request := by rw [h.request, hcall]; rfl
        refine ⟨_, ?_, h.proceed p (h.valid p k hcall)⟩
        rw [Editor.step, hreq]
        rfl
  | kill p =>
    cases hstep
    exact ⟨_, rfl, h.shows, h.plain, h.request, h.valid,
      congrArg (update · p true) h.killed, h.delivered, h.line⟩
  | fork p =>
    simp only [Console.step] at hstep
    split at hstep
    · cases hstep
      exact ⟨_, rfl, h.shows, h.plain, h.request, h.valid,
        congrArg (update · p false) h.killed, h.delivered, h.line⟩
    · cases hstep

omit [DecidableEq P] in
theorem Start.sim (hs : Start s) : Sim s Editor.empty where
  shows := by
    refine ⟨?_, ?_⟩
    · rw [hs.r, hs.e]
      exact Ring.Holds.nil _ _
    · rw [hs.w, hs.r]
      rfl
  plain := not_mem_nil
  request p := by rw [hs.call]; rfl
  valid p k hk := absurd ((hs.call p).symm.trans hk) (by simp)
  killed := (funext hs.killed).symm
  delivered := hs.delivered.symm
  line d hd := by
    rw [hs.delivered] at hd
    cases hd

theorem Sim.run {es : List (Event P)} (h : Sim s a) (hes : ∀ e ∈ es, e.Valid)
    (hrun : (system P).run s es = some t) :
    ∃ b, (Editor.system P).run a es = some b ∧ Sim t b := by
  induction es generalizing s a with
  | nil =>
    cases hrun
    exact ⟨a, rfl, h⟩
  | cons e es ih =>
    obtain ⟨u, hu, hrest⟩ := Option.bind_eq_some_iff.mp hrun
    obtain ⟨b, hb, hsim⟩ := h.step (hes e mem_cons_self) hu
    obtain ⟨b', hb', ht⟩ := ih hsim (fun e' he' => hes e' (mem_cons_of_mem e he')) hrest
    exact ⟨b', Option.bind_eq_some_iff.mpr ⟨b, hb, hb'⟩, ht⟩

/-- The console delivers what the editor delivers, and its indices stay in order. -/
theorem console_is_line_editor {es : List (Event P)} (hstart : Start s)
    (hes : ∀ e ∈ es, e.Valid) (hrun : (system P).run s es = some t) :
    (t.cons.w - t.cons.r).toNat ≤ (t.cons.e - t.cons.r).toNat ∧
    (t.cons.e - t.cons.r).toNat ≤ INPUT_BUF ∧
    (∀ i < (t.cons.e - t.cons.w).toNat,
      t.cons.buf (Ring.slot INPUT_BUF (t.cons.w + BitVec.ofNat 32 i)) ≠ newline) ∧
    (∃ b, (Editor.system P).run Editor.empty es = some b ∧ t.delivered = b.delivered ∧
      Ring.Holds t.cons.buf t.cons.r t.cons.w b.queue ∧
      Ring.Holds t.cons.buf t.cons.w t.cons.e b.edit) ∧
    ∀ d ∈ t.delivered, d.bytes.length ≤ d.target ∧ C 'D' ∉ d.bytes ∧
      newline ∉ d.bytes.dropLast ∧ (d.ret = d.bytes.length ∨ d.ret = -1) := by
  obtain ⟨b, hb, hsim⟩ := hstart.sim.run hes hrun
  have hqueue := hsim.shows.committed
  have hedit := hsim.shows.editing
  refine ⟨?_, ?_, fun i hi => ?_, ⟨b, hb, hsim.delivered.symm, hqueue, hedit⟩, fun d hd => ?_⟩
  · rw [hqueue.toNat_sub INPUT_BUF_lt, hsim.shows.holds.toNat_sub INPUT_BUF_lt, length_append]
    exact Nat.le_add_right _ _
  · rw [hsim.shows.holds.toNat_sub INPUT_BUF_lt]
    exact hsim.shows.holds.length_le
  · rw [hedit.toNat_sub INPUT_BUF_lt] at hi
    rw [hedit.get i hi]
    exact fun heq => hsim.plain (heq ▸ getElem_mem hi)
  · obtain ⟨hlen, heof, hnl, hret⟩ := hsim.line d hd
    exact ⟨hlen, heof, hnl, hret⟩

/-- A line is typed with a character erased, and an end-of-file after it.  It is read
with three bytes at a time. -/
def typeLine : List (Event Unit) :=
  let read : Event Unit := .consoleread () (fun _ => true) 3
  ([0x61, 0x62, C 'H', 0x63, 0x64, 0x65, carriageReturn, C 'D'].map .consoleintr) ++
    [read, read, read]

def idle : State Unit where
  cons := ⟨fun _ => 0, 0, 0, 0⟩
  call _ := none
  sleeping _ := false
  killed _ := false
  delivered := []

theorem console_is_line_editor_typeLine : ∃ t, (system Unit).run idle typeLine = some t ∧
      t.delivered.map Delivery.bytes = [[0x61, 0x63, 0x64], [0x65, newline], []] ∧
      t.delivered.map Delivery.ret = [3, 2, 0] ∧
      ∃ b, (Editor.system Unit).run Editor.empty typeLine = some b ∧ t.delivered = b.delivered := by
  obtain ⟨t, ht, hbytes, hret⟩ : ∃ t, (system Unit).run idle typeLine = some t ∧
      t.delivered.map Delivery.bytes = [[0x61, 0x63, 0x64], [0x65, newline], []] ∧
      t.delivered.map Delivery.ret = [3, 2, 0] :=
    EventSystem.exists_of_any_run (by decide +kernel)
  have hvalid : ∀ e ∈ typeLine, e.Valid := by simp [typeLine, Event.Valid]
  obtain ⟨-, -, -, ⟨b, hb, hsame, -⟩, -⟩ := console_is_line_editor
    ⟨rfl, rfl, rfl, fun _ => rfl, fun _ => rfl, rfl⟩ hvalid ht
  exact ⟨t, ht, hbytes, hret, b, hb, hsame⟩

end Runs

end OsCa.Console
