import OsCa.Kernel.Bio.Model
import OsCa.Support.Counting

/-!
# The order of the buffers

The buffers form a circular list, sorted by the time when `brelse` has last
brought their counts to zero.  The count of a buffer is the number of its
callers and pins, and no block is in two buffers.
-/

namespace OsCa.Bio

open Counting Function List

/-! ## The list -/

namespace Bcache

/-- The buffers from the head back to it. -/
structure Cyclic (c : Bcache) (l : List (Fin NBUF)) : Prop where
  circular : c.links.Circular .head (l.map .buf)
  mem : ∀ i, i ∈ l

variable {c : Bcache} {l : List (Fin NBUF)}

theorem Cyclic.nodup (h : c.Cyclic l) : l.Nodup := (nodup_cons.mp h.circular.nodup).2.of_map

theorem Cyclic.perm (h : c.Cyclic l) : l.Perm (finRange NBUF) :=
  (perm_ext_iff_of_nodup h.nodup (nodup_finRange NBUF)).mpr fun i =>
    ⟨fun _ => mem_finRange i, fun _ => h.mem i⟩

theorem Cyclic.length_lt (h : c.Cyclic l) : (l.map Node.buf).length < NBUF + 1 := by
  rw [length_map, h.perm.length_eq, length_finRange]
  exact Nat.lt_succ_self NBUF

theorem Cyclic.findCached_eq (h : c.Cyclic l) (dev blockno : Uint) : findCached c dev blockno =
      some ((l.find? fun i => decide (c.Holds i dev blockno)).map .buf) := by
  rw [findCached, h.circular.scan_next h.length_lt, find?_map]
  rfl

theorem Cyclic.findUnused_eq (h : c.Cyclic l) : findUnused c =
      some ((l.reverse.find? fun i => decide ((c.buf i).refcnt = 0)).map .buf) := by
  rw [findUnused, h.circular.scan_prev h.length_lt, ← map_reverse, find?_map]
  rfl

theorem modify_buf (c : Bcache) (i j : Fin NBUF) (f : Buf → Buf) :
    (c.modify i f).buf j = if j = i then f (c.buf i) else c.buf j :=
  update_apply ..

@[simp] theorem modify_self (c : Bcache) (i : Fin NBUF) (f : Buf → Buf) :
    (c.modify i f).buf i = f (c.buf i) :=
  update_self ..

theorem modify_of_ne {i j : Fin NBUF} (f : Buf → Buf) (h : j ≠ i) :
    (c.modify i f).buf j = c.buf j :=
  update_of_ne h ..

/-- What `bget` does: it finds the block, or the last buffer in the list with
count zero, or no buffer. -/
theorem Cyclic.bget_cases (h : c.Cyclic l) (dev blockno : Uint) :
    (∃ i, c.Holds i dev blockno ∧ bget c dev blockno =
      some (.ok (i, c.modify i fun b => { b with refcnt := b.refcnt + 1 }))) ∨
    (∀ j, ¬ c.Holds j dev blockno) ∧
      ((∃ i, l.reverse.find? (fun i => decide ((c.buf i).refcnt = 0)) = some i ∧
        bget c dev blockno = some (.ok (i, c.modify i fun b =>
          { b with dev := dev, blockno := blockno, valid := false,
                   refcnt := 1 }))) ∨
      (∀ j, (c.buf j).refcnt ≠ 0) ∧ bget c dev blockno = some (.error .noBuffers)) := by
  unfold bget
  rw [h.findCached_eq]
  cases hcached : l.find? fun i => decide (c.Holds i dev blockno) with
  | some i =>
    have hi := find?_some hcached
    exact Or.inl ⟨i, of_decide_eq_true hi, rfl⟩
  | none =>
    have hnew : ∀ j, ¬ c.Holds j dev blockno := fun j hj => by
      have hnot := find?_eq_none.mp hcached j (h.mem j)
      exact hnot (decide_eq_true hj)
    refine Or.inr ⟨hnew, ?_⟩
    dsimp only [Option.map_none]
    rw [h.findUnused_eq]
    cases hunused : l.reverse.find? fun i => decide ((c.buf i).refcnt = 0) with
    | some i => exact Or.inl ⟨i, rfl, rfl⟩
    | none =>
      refine Or.inr ⟨fun j hj => ?_, rfl⟩
      have hnot := find?_eq_none.mp hunused j (mem_reverse.mpr (h.mem j))
      exact hnot (decide_eq_true hj)

theorem brelse_buf (c : Bcache) (i : Fin NBUF) :
    (brelse c i).buf = (c.modify i fun b => { b with refcnt := b.refcnt - 1 }).buf := by
  unfold brelse
  dsimp only
  split <;> rfl

/-- A buffer whose count `brelse` brings to zero goes to the front. -/
theorem Cyclic.brelse (h : c.Cyclic l) (i : Fin NBUF) : (brelse c i).Cyclic
      (if ((Bio.brelse c i).buf i).refcnt = 0 then i :: l.erase i else l) := by
  rw [brelse_buf, modify_self]
  unfold Bio.brelse
  dsimp only
  rw [modify_self]
  split
  next =>
    refine ⟨?_, fun j => ?_⟩
    · have hinj : Function.Injective Node.buf := fun _ _ h => Node.buf.inj h
      have hfront := h.circular.moveToFront (mem_map_of_mem (h.mem i))
      rwa [← map_erase hinj, ← map_cons] at hfront
    · by_cases hj : j = i
      · exact hj ▸ mem_cons_self
      · exact mem_cons_of_mem i ((mem_erase_of_ne hj).mpr (h.mem j))
  next => exact ⟨h.circular, h.mem⟩

end Bcache

theorem binit_cyclic : binit.Cyclic (finRange NBUF).reverse := by
  refine ⟨?_, fun i => mem_reverse.mpr (mem_finRange i)⟩
  have hempty : Links.Circular ⟨fun _ => Node.head, fun _ => Node.head⟩
      Node.head [] := Links.circular_nil rfl rfl
  have hinj : Function.Injective Node.buf := fun _ _ h => Node.buf.inj h
  have hall := hempty.insertAll ((finRange NBUF).map .buf)
    ((nodup_finRange NBUF).map hinj) (fun b hb => ?_)
  · rwa [foldl_map, append_nil, ← map_reverse] at hall
  · obtain ⟨i, -, rfl⟩ := mem_map.mp hb
    simp

/-! ## Steps -/

section Steps

variable {C : Type*}

variable [DecidableEq C]

@[simp] theorem State.phase_goto_self (s : State C) (c : C) (ph : Phase (Fin NBUF)) :
    (s.goto c ph).phase c = ph :=
  update_self ..

theorem State.phase_goto_of_ne {s : State C} {c c' : C} (ph : Phase (Fin NBUF))
    (h : c' ≠ c) : (s.goto c ph).phase c' = s.phase c' :=
  update_of_ne h ..

theorem State.goto_self (s : State C) (c : C) (i : Fin NBUF) (f : Buf → Buf) :
    (s.modify i f).goto c (s.phase c) = s.modify i f := by
  unfold State.goto
  rw [show s.phase c = (s.modify i f).phase c from rfl, update_eq_self]

namespace State

/-- Caller `c` gets buffer `i`. -/
def take (s : State C) (c : C) (i : Fin NBUF) (f : Buf → Buf) : State C :=
  { (s.modify i f).goto c (.waiting i) with used := update s.used i true }

/-- A pin is set, or taken back. -/
def setPins (s : State C) (i : Fin NBUF) (n : ℕ) (f : Buf → Buf) : State C :=
  { s.modify i f with pins := update s.pins i n }

end State

@[simp] theorem State.phase_take_self (s : State C) (c : C) (i : Fin NBUF)
    (f : Buf → Buf) : (s.take c i f).phase c = .waiting i :=
  update_self ..

section Cache

variable (s : State C) (c : C) (i : Fin NBUF) (f : Buf → Buf)

@[simp] theorem State.goto_cache (ph : Phase (Fin NBUF)) : (s.goto c ph).cache = s.cache := rfl

omit [DecidableEq C] in
@[simp] theorem State.modify_cache : (s.modify i f).cache = s.cache.modify i f := rfl

@[simp] theorem State.take_cache : (s.take c i f).cache = s.cache.modify i f := rfl

omit [DecidableEq C] in
@[simp] theorem State.setPins_cache (n : ℕ) : (s.setPins i n f).cache = s.cache.modify i f := rfl

omit [DecidableEq C] in
theorem State.brelse_buf : (s.brelse i).cache.buf =
      (s.cache.modify i fun b => { b with refcnt := b.refcnt - 1 }).buf :=
  Bcache.brelse_buf s.cache i

end Cache

/-- What a step does, one constructor for each kind. -/
inductive Move (s : State C) : Event C → State C → Prop
  | hit {c : C} {dev blockno : Uint} {i : Fin NBUF} (hc : s.phase c = .outside)
      (hi : s.cache.Holds i dev blockno) :
      Move s (.bget c dev blockno) (s.take c i fun b => { b with refcnt := b.refcnt + 1 })
  | recycle {c : C} {dev blockno : Uint} {i : Fin NBUF} (hc : s.phase c = .outside)
      (hnew : ∀ j, ¬ s.cache.Holds j dev blockno)
      (hfree : (s.cache.buf i).refcnt = 0) :
      Move s (.bget c dev blockno) (s.take c i fun b =>
        { b with dev := dev, blockno := blockno, valid := false, refcnt := 1 })
  | acquiresleep {c : C} {i : Fin NBUF} (hc : s.phase c = .waiting i)
      (hfree : (s.cache.buf i).locked = false) :
      Move s (.acquiresleep c) ((s.modify i fun b => { b with locked := true }).goto c (.filling i))
  | fill {c : C} {i : Fin NBUF} (hc : s.phase c = .filling i) : Move s (.fill c)
        ((s.modify i fun b =>
        if b.valid then b
        else { b with data := s.disk b.blockno.toNat, valid := true }).goto c (.holding i))
  | store {c : C} {i : Fin NBUF} {data : Block} (hc : s.phase c = .holding i) :
      Move s (.store c data) (s.modify i fun b => { b with data := data })
  | bwrite {c : C} {i : Fin NBUF} (hc : s.phase c = .holding i) : Move s (.bwrite c) { s with
        disk := update s.disk (s.cache.buf i).blockno.toNat (s.cache.buf i).data }
  | releasesleep {c : C} {i : Fin NBUF} (hc : s.phase c = .holding i) : Move s (.releasesleep c)
        ((s.modify i fun b => { b with locked := false }).goto c (.releasing i))
  | brelse {c : C} {i : Fin NBUF} (hc : s.phase c = .releasing i) :
      Move s (.brelse c) ((s.brelse i).goto c .outside)
  | bpin {i : Fin NBUF} : Move s (.bpin i)
        (s.setPins i (s.pins i + 1) fun b => { b with refcnt := b.refcnt + 1 })
  | bunpin {c : C} {i : Fin NBUF} (hc : s.phase c = .holding i) (hpins : 0 < s.pins i) :
      Move s (.bunpin c) (s.setPins i (s.pins i - 1) fun b => { b with refcnt := b.refcnt - 1 })

theorem step_move {s t : State C} {l : List (Fin NBUF)} {e : Event C}
    (hl : s.cache.Cyclic l) (h : step s e = some t) : Move s e t := by
  cases e
  all_goals
    unfold step at h
    dsimp only at h
  case bget c dev blockno =>
    split at h
    next hc =>
      rcases hl.bget_cases dev blockno with
        ⟨i, hi, hget⟩ | ⟨hnew, ⟨i, hi, hget⟩ | ⟨-, hget⟩⟩
      · rw [hget] at h
        cases h
        exact .hit hc hi
      · rw [hget] at h
        cases h
        have hfree := find?_some hi
        exact .recycle hc hnew (of_decide_eq_true hfree)
      · rw [hget] at h
        cases h
    next => cases h
  case acquiresleep c =>
    split at h
    next hc =>
      obtain ⟨hfree, ⟨⟩⟩ := Option.ite_none_left_eq_some.mp h
      exact .acquiresleep hc (by simpa using hfree)
    next => cases h
  case bpin i =>
    cases h
    exact .bpin
  case bunpin c =>
    split at h
    next hc =>
      obtain ⟨hpins, ⟨⟩⟩ := Option.ite_none_right_eq_some.mp h
      exact .bunpin hc hpins
    next => cases h
  all_goals
    split at h
    next hc =>
      cases h
      constructor
      exact hc
    next => cases h

end Steps

/-! ## Times and references -/

/-- If `brelse` has brought the count of `b` to zero, it has done so with that
of `a` later. -/
def Newer (zeroed : Fin NBUF → Option ℕ) (a b : Fin NBUF) : Prop :=
  ∀ t, zeroed b = some t → ∃ u, zeroed a = some u ∧ t < u

/-- The buffer that has just come to zero is newer than all others. -/
theorem Newer.front {l : List (Fin NBUF)} {zeroed : Fin NBUF → Option ℕ}
    {clock : ℕ} (hsorted : l.Pairwise (Newer zeroed)) (hnodup : l.Nodup)
    (hpast : ∀ j u, zeroed j = some u → u < clock) (i : Fin NBUF) :
    (i :: l.erase i).Pairwise (Newer (update zeroed i (some clock))) := by
  have hne : ∀ j ∈ l.erase i, j ≠ i := fun j hj heq => hnodup.not_mem_erase (heq ▸ hj)
  refine pairwise_cons.mpr ⟨fun j hj u hu => ?_, ?_⟩
  · rw [update_of_ne (hne j hj)] at hu
    exact ⟨clock, update_self .., hpast j u hu⟩
  · refine (hsorted.sublist erase_sublist).imp_of_mem fun ha hb hab => ?_
    unfold Newer
    rwa [update_of_ne (hne _ ha), update_of_ne (hne _ hb)]

section Invariant

variable {C : Type*} [Fintype C]

/-- How many callers have buffer `i`. -/
def State.users (s : State C) (i : Fin NBUF) : ℕ :=
  (Finset.univ.filter fun c => (s.phase c).buf = some i).card

/-- How many callers and pins buffer `i` has. -/
def State.refs (s : State C) (i : Fin NBUF) : ℕ := s.users i + s.pins i

theorem State.users_pos {s : State C} {c : C} {i : Fin NBUF}
    (h : (s.phase c).buf = some i) : 0 < s.users i :=
  Finset.card_pos.mpr ⟨c, Finset.mem_filter.mpr ⟨Finset.mem_univ c, h⟩⟩

/-- The state of the cache between steps. -/
structure Wf (s : State C) : Prop where
  order : ∃ l, s.cache.Cyclic l ∧ l.Pairwise (Newer s.zeroed)
  past : ∀ i t, s.zeroed i = some t → t < s.clock
  unique : ∀ i j, (s.cache.buf i).dev ≠ 0 →
    s.cache.Holds j (s.cache.buf i).dev (s.cache.buf i).blockno → i = j
  refcnt : ∀ i, (s.cache.buf i).refcnt = BitVec.ofNat 32 (s.refs i)
  alive : ∀ i, s.used i = true → s.zeroed i = none → 0 < s.refs i

theorem wf_start (disk : Disk) : Wf (start C disk) := by
  refine ⟨⟨_, binit_cyclic, ?_⟩, by simp [start], ?_, fun i => ?_, by simp [start]⟩
  · exact pairwise_of_forall fun _ _ _ h => nomatch h
  · intro i j hdev
    exact absurd rfl hdev
  · have husers : (start C disk).refs i = 0 := by simp [State.refs, State.users, start, Phase.buf]
    rw [husers]
    rfl

variable {s t : State C} {c : C} {i : Fin NBUF} {f : Buf → Buf}

section Recount

variable (h : Wf s) (hdev : (f (s.cache.buf i)).dev = (s.cache.buf i).dev)
  (hblockno : (f (s.cache.buf i)).blockno = (s.cache.buf i).blockno)
  (hcount : (f (s.cache.buf i)).refcnt = BitVec.ofNat 32 (t.refs i))
  (hrefs : ∀ j, j ≠ i → t.refs j = s.refs j) (hused : ∀ j, j ≠ i → t.used j = s.used j)

include h hdev hblockno hcount hrefs hused

/-- The buffers keep their blocks, and at most the count of buffer `i`
changes. -/
theorem Wf.recountOrdered (horder : ∃ l, t.cache.Cyclic l ∧ l.Pairwise (Newer t.zeroed))
    (hpast : ∀ i u, t.zeroed i = some u → u < t.clock)
    (hbuf : t.cache.buf = (s.cache.modify i f).buf)
    (hzeroed : ∀ j, j ≠ i → t.zeroed j = s.zeroed j)
    (halive : t.used i = true → t.zeroed i = none → 0 < t.refs i) : Wf t := by
  have hself : t.cache.buf i = f (s.cache.buf i) := by rw [hbuf, Bcache.modify_self]
  have hother : ∀ j, j ≠ i → t.cache.buf j = s.cache.buf j := fun j hj => by
    rw [hbuf, Bcache.modify_of_ne f hj]
  have hblock : ∀ j, (t.cache.buf j).dev = (s.cache.buf j).dev ∧
      (t.cache.buf j).blockno = (s.cache.buf j).blockno := by
    intro j
    by_cases hj : j = i
    · rw [hj, hself]
      exact ⟨hdev, hblockno⟩
    · rw [hother j hj]
      exact ⟨rfl, rfl⟩
  refine ⟨horder, hpast, fun a b hne hab => ?_, fun j => ?_, fun j hu hz => ?_⟩
  · unfold Bcache.Holds at hab
    rw [(hblock a).1] at hne
    rw [(hblock a).1, (hblock a).2, (hblock b).1, (hblock b).2] at hab
    exact h.unique a b hne hab
  · by_cases hj : j = i
    · rw [hj, hself, hcount]
    · rw [hother j hj, hrefs j hj, h.refcnt j]
  · by_cases hj : j = i
    · rw [hj] at hu hz ⊢
      exact halive hu hz
    · rw [hused j hj] at hu
      rw [hzeroed j hj] at hz
      rw [hrefs j hj]
      exact h.alive j hu hz

/-- In addition, the buffers stay in their order. -/
theorem Wf.recount (hcache : t.cache = s.cache.modify i f)
    (hzeroed : t.zeroed = s.zeroed) (hclock : t.clock = s.clock)
    (halive : t.used i = true → s.zeroed i = none → 0 < t.refs i) : Wf t := by
  obtain ⟨l, hl, hsorted⟩ := h.order
  refine h.recountOrdered hdev hblockno hcount hrefs hused ⟨l, ⟨?_, hl.mem⟩, ?_⟩ ?_
    (congrArg _ hcache) (fun j _ => congrFun hzeroed j) ?_
  · rw [hcache]
    exact hl.circular
  · rw [hzeroed]
    exact hsorted
  · rw [hzeroed, hclock]
    exact h.past
  · rw [hzeroed]
    exact halive

end Recount

theorem State.refs_setPins (n : ℕ) (j : Fin NBUF) :
    (s.setPins i n f).refs j = if j = i then s.users i + n else s.refs j := by
  change s.users j + update s.pins i n j = _
  split
  next hj => rw [hj, update_self]
  next hj => rw [update_of_ne hj, State.refs]

theorem Wf.setPins {n : ℕ} {g : Uint → Uint} (h : Wf s)
    (hcount : g (s.cache.buf i).refcnt = BitVec.ofNat 32 (s.users i + n))
    (hpos : 0 < s.users i + n) :
    Wf (s.setPins i n fun b => { b with refcnt := g b.refcnt }) := by
  refine h.recount (f := fun b => { b with refcnt := g b.refcnt }) rfl rfl ?_
    (fun j hj => ?_) (fun _ _ => rfl) rfl rfl rfl fun _ _ => ?_
  · rw [State.refs_setPins, if_pos rfl, hcount]
  · rw [State.refs_setPins, if_neg hj]
  · rwa [State.refs_setPins, if_pos rfl]

theorem Wf.bpin (h : Wf s) :
    Wf (s.setPins i (s.pins i + 1) fun b => { b with refcnt := b.refcnt + 1 }) := by
  refine h.setPins (g := (· + 1)) ?_ (by omega)
  rw [h.refcnt i, ← Nat.add_assoc, BitVec.ofNat_add]
  rfl

theorem Wf.bunpin (h : Wf s) (hc : s.phase c = .holding i) (hpins : 0 < s.pins i) :
    Wf (s.setPins i (s.pins i - 1) fun b => { b with refcnt := b.refcnt - 1 }) := by
  have husers : 0 < s.users i := State.users_pos (by rw [hc]; rfl)
  have hcount : s.refs i = s.users i + (s.pins i - 1) + 1 := by
    unfold State.refs
    omega
  refine h.setPins (g := (· - 1)) ?_ (by omega)
  rw [h.refcnt i, hcount, BitVec.ofNat_add]
  exact BitVec.add_sub_cancel ..

variable [DecidableEq C]

theorem State.users_goto (s : State C) (c : C) (ph : Phase (Fin NBUF)) (i : Fin NBUF) :
    (s.goto c ph).users i + (if (s.phase c).buf = some i then 1 else 0) =
      s.users i + if ph.buf = some i then 1 else 0 :=
  card_filter_update s.phase c ph (·.buf = some i)

/-- A caller that keeps its buffer. -/
theorem State.users_goto_of_buf_eq {s : State C} {c : C}
    {ph : Phase (Fin NBUF)} (h : ph.buf = (s.phase c).buf) (i : Fin NBUF) :
    (s.goto c ph).users i = s.users i := by
  have hgoto := s.users_goto c ph i
  rw [h] at hgoto
  exact Nat.add_right_cancel hgoto

/-- A caller that keeps its buffer changes other fields of it. -/
theorem Wf.edit {ph : Phase (Fin NBUF)} (h : Wf s) (hph : ph.buf = (s.phase c).buf)
    (hdev : (f (s.cache.buf i)).dev = (s.cache.buf i).dev)
    (hblockno : (f (s.cache.buf i)).blockno = (s.cache.buf i).blockno)
    (hrefcnt : (f (s.cache.buf i)).refcnt = (s.cache.buf i).refcnt) :
    Wf ((s.modify i f).goto c ph) := by
  have hrefs : ∀ j, ((s.modify i f).goto c ph).refs j = s.refs j := fun j =>
    congrArg (· + s.pins j) (State.users_goto_of_buf_eq hph j)
  refine h.recount hdev hblockno ?_ (fun j _ => hrefs j) (fun _ _ => rfl) rfl rfl rfl
    fun hu hz => ?_
  · rw [hrefcnt, hrefs i]
    exact h.refcnt i
  · rw [hrefs i]
    exact h.alive i hu hz

/-- A caller that gets a buffer is one more reference. -/
theorem State.refs_take (hc : s.phase c = .outside) (j : Fin NBUF) :
    (s.take c i f).refs j = s.refs j + if j = i then 1 else 0 := by
  have hgoto : (s.take c i f).users j + (if (s.phase c).buf = some j then 1 else 0) =
        s.users j + if some i = some j then 1 else 0 :=
    (s.modify i f).users_goto c (.waiting i) j
  rw [hc, if_neg (by simp [Phase.buf]), Nat.add_zero] at hgoto
  unfold State.refs
  rw [hgoto, Nat.add_right_comm]
  simp [State.take, State.goto, State.modify, eq_comm]

theorem Wf.hit (h : Wf s) (hc : s.phase c = .outside) :
    Wf (s.take c i fun b => { b with refcnt := b.refcnt + 1 }) := by
  have hrefs := fun j => State.refs_take (i := i)
    (f := fun b => { b with refcnt := b.refcnt + 1 }) hc j
  have hself := hrefs i
  rw [if_pos rfl] at hself
  refine h.recount (f := fun b => { b with refcnt := b.refcnt + 1 }) rfl rfl ?_
    (fun j hj => ?_) (fun j hj => update_of_ne hj ..) rfl rfl rfl fun _ _ => ?_
  · rw [hself, h.refcnt i, BitVec.ofNat_add]
    rfl
  · rw [hrefs j, if_neg hj, Nat.add_zero]
  · rw [hself]
    exact Nat.succ_pos _

/-- A buffer with another block. -/
theorem Wf.recycle {dev blockno : Uint} (h : Wf s) (hc : s.phase c = .outside)
    (hnew : ∀ j, ¬ s.cache.Holds j dev blockno)
    (hfree : (s.cache.buf i).refcnt = 0) :
    Wf (s.take c i fun b =>
      { b with dev := dev, blockno := blockno, valid := false, refcnt := 1 }) := by
  set f : Buf → Buf := fun b =>
    { b with dev := dev, blockno := blockno, valid := false, refcnt := 1 }
  have hrefs := fun j => State.refs_take (i := i) (f := f) hc j
  have hself : (s.take c i f).cache.buf i = f (s.cache.buf i) := update_self ..
  have hother : ∀ j, j ≠ i → (s.take c i f).cache.buf j = s.cache.buf j :=
    fun j hj => update_of_ne hj ..
  obtain ⟨l, hl, hsorted⟩ := h.order
  refine ⟨⟨l, ⟨hl.circular, hl.mem⟩, hsorted⟩, h.past, fun a b hne hab => ?_,
    fun j => ?_, fun j hu hz => ?_⟩
  · unfold Bcache.Holds at hab
    by_cases ha : a = i
    · by_cases hb : b = i
      · rw [ha, hb]
      · rw [ha, hself, hother b hb] at hab
        exact absurd hab (hnew b)
    · by_cases hb : b = i
      · rw [hb, hself, hother a ha] at hab
        exact absurd ⟨hab.1.symm, hab.2.symm⟩ (hnew a)
      · rw [hother a ha] at hne hab
        rw [hother b hb] at hab
        exact h.unique a b hne hab
  · rw [hrefs j]
    by_cases hj : j = i
    · rw [hj, hself, if_pos rfl, BitVec.ofNat_add, ← h.refcnt i, hfree]
      rfl
    · rw [hother j hj, if_neg hj]
      exact h.refcnt j
  · rw [hrefs j]
    by_cases hj : j = i
    · rw [if_pos hj]
      exact Nat.succ_pos _
    · rw [if_neg hj]
      refine h.alive j ?_ hz
      rw [← hu]
      exact (update_of_ne hj ..).symm

/-- The caller in `brelse` was a reference. -/
theorem State.refs_brelse (hc : s.phase c = .releasing i) (j : Fin NBUF) :
    ((s.brelse i).goto c .outside).refs j + (if j = i then 1 else 0) = s.refs j := by
  have hgoto : ((s.brelse i).goto c .outside).users j +
      (if (s.phase c).buf = some j then 1 else 0) = s.users j + if none = some j then 1 else 0 :=
    (s.brelse i).users_goto c .outside j
  rw [hc, if_neg (by simp : ¬ none = some j), Nat.add_zero] at hgoto
  unfold State.refs
  rw [← hgoto, Nat.add_right_comm]
  simp [State.brelse, State.goto, Phase.buf, eq_comm]

omit [Fintype C] [DecidableEq C] in
theorem State.zeroed_brelse_of_ne {j : Fin NBUF} (hj : j ≠ i) :
    (s.brelse i).zeroed j = s.zeroed j := by
  unfold State.brelse
  dsimp only
  split
  · exact update_of_ne hj ..
  · rfl

theorem Wf.brelse (h : Wf s) (hc : s.phase c = .releasing i) :
    Wf ((s.brelse i).goto c .outside) := by
  obtain ⟨l, hl, hsorted⟩ := h.order
  have hself := State.refs_brelse hc i
  rw [if_pos rfl] at hself
  have hcount : ((Bio.brelse s.cache i).buf i).refcnt =
      BitVec.ofNat 32 (((s.brelse i).goto c .outside).refs i) := by
    rw [Bcache.brelse_buf, Bcache.modify_self, h.refcnt i, ← hself, BitVec.ofNat_add]
    exact BitVec.add_sub_cancel ..
  refine h.recountOrdered (f := fun b => { b with refcnt := b.refcnt - 1 }) rfl rfl ?_
    (fun j hj => ?_) (fun _ _ => rfl) ⟨_, hl.brelse i, ?_⟩ (fun j u hu => ?_)
    (Bcache.brelse_buf s.cache i) (fun j hj => State.zeroed_brelse_of_ne hj) fun _ hz => ?_
  · rw [← hcount, Bcache.brelse_buf, Bcache.modify_self]
  · have hj' := State.refs_brelse hc j
    rwa [if_neg hj, Nat.add_zero] at hj'
  · change List.Pairwise (Newer (if ((Bio.brelse s.cache i).buf i).refcnt = 0 then _ else _)) _
    split
    next => exact Newer.front hsorted hl.nodup h.past i
    next => exact hsorted
  · change (if ((Bio.brelse s.cache i).buf i).refcnt = 0 then
      update s.zeroed i (some s.clock) else s.zeroed) j = some u at hu
    change u < s.clock + 1
    split at hu
    next =>
      by_cases hj : j = i
      · rw [hj, update_self] at hu
        cases hu
        exact Nat.lt_succ_self _
      · rw [update_of_ne hj] at hu
        exact Nat.lt_succ_of_lt (h.past j u hu)
    next => exact Nat.lt_succ_of_lt (h.past j u hu)
  · -- A count that has not come to zero counts something.
    change (if ((Bio.brelse s.cache i).buf i).refcnt = 0 then
      update s.zeroed i (some s.clock) else s.zeroed) i = none at hz
    split at hz
    next => simp at hz
    next hne =>
      refine Nat.pos_of_ne_zero fun hzero => hne ?_
      rw [hcount, hzero]
      rfl

theorem Wf.move {e : Event C} (h : Wf s) (hm : Move s e t) : Wf t := by
  cases hm with
  | hit hc hi => exact h.hit hc
  | recycle hc hnew hfree => exact h.recycle hc hnew hfree
  | acquiresleep hc hfree => exact h.edit (by rw [hc]; rfl) rfl rfl rfl
  | fill hc =>
    refine h.edit (by rw [hc]; rfl) ?_ ?_ ?_
    all_goals split <;> rfl
  | @store c i data hc =>
    have hgoto : Wf ((s.modify i fun b => { b with data := data }).goto c
      (s.phase c)) := h.edit rfl rfl rfl rfl
    rwa [State.goto_self] at hgoto
  | bwrite hc => exact ⟨h.order, h.past, h.unique, h.refcnt, h.alive⟩
  | releasesleep hc => exact h.edit (by rw [hc]; rfl) rfl rfl rfl
  | brelse hc => exact h.brelse hc
  | bpin => exact h.bpin
  | bunpin hc hpins => exact h.bunpin hc hpins

theorem wf_of_reachable (h : (system C).Reachable s) : Wf s := by
  refine h.invariant ?_ fun s e t hs hstep => ?_
  · rintro s ⟨disk, rfl⟩
    exact wf_start disk
  · obtain ⟨l, hl, -⟩ := hs.order
    exact hs.move (step_move hl hstep)

end Invariant

/-! ## The structure of the cache -/

section Structure

variable {C : Type*} [DecidableEq C] {s t : State C} {e : Event C} {i : Fin NBUF}

/-- What a step does to a buffer: the buffer keeps its block, or it gets another
one that is in no buffer. -/
theorem Move.buf_cases (hm : Move s e t) (i : Fin NBUF) :
    ((t.cache.buf i).dev = (s.cache.buf i).dev ∧ (t.cache.buf i).blockno = (s.cache.buf i).blockno ∧
      ((s.cache.buf i).valid = true → (t.cache.buf i).valid = true)) ∨
    (s.cache.buf i).refcnt = 0 ∧ ∃ c dev blockno, e = .bget c dev blockno ∧
        (∀ j, ¬ s.cache.Holds j dev blockno) ∧ t.cache.Holds i dev blockno := by
  cases hm with
  | @recycle c dev blockno j _ hnew hfree =>
    by_cases hij : i = j
    · subst hij
      exact Or.inr ⟨hfree, c, dev, blockno, rfl, hnew, by simp [Bcache.Holds]⟩
    · simp [Bcache.modify_buf, hij]
  | hit | acquiresleep | fill | store | releasesleep | bpin | bunpin =>
    left
    simp only [State.take_cache, State.goto_cache, State.modify_cache,
      State.setPins_cache, Bcache.modify_buf]
    split
    next hij =>
      subst hij
      grind
    next => exact ⟨rfl, rfl, id⟩
  | bwrite => exact Or.inl ⟨rfl, rfl, id⟩
  | brelse =>
    left
    simp only [State.goto_cache, State.brelse_buf, Bcache.modify_buf]
    split
    next hij => exact hij ▸ ⟨rfl, rfl, id⟩
    next => exact ⟨rfl, rfl, id⟩

/-- Only stores change the data of a valid buffer. -/
theorem Move.data_cases (hm : Move s e t) (hi : (s.cache.buf i).valid = true) :
    (t.cache.buf i).data = (s.cache.buf i).data ∨
      ∃ c, e = .store c (t.cache.buf i).data ∧ s.phase c = .holding i := by
  cases hm with
  | @store c j data hc =>
    by_cases hij : i = j
    · subst hij
      exact Or.inr ⟨c, by simp, hc⟩
    · simp [Bcache.modify_buf, hij]
  | hit | recycle | acquiresleep | fill | releasesleep | bpin | bunpin =>
    left
    simp only [State.take_cache, State.goto_cache, State.modify_cache,
      State.setPins_cache, Bcache.modify_buf]
    split
    next hij =>
      subst hij
      grind
    next => rfl
  | bwrite => exact Or.inl rfl
  | brelse =>
    left
    simp only [State.goto_cache, State.brelse_buf, Bcache.modify_buf]
    split
    next hij =>
      subst hij
      rfl
    next => rfl

/-- Only the pins of buffer `i` and its count change. -/
structure Repins (s t : State C) (i : Fin NBUF) (n : ℕ) : Prop where
  phase : t.phase = s.phase
  pins : t.pins = update s.pins i n
  dev : ∀ j, (t.cache.buf j).dev = (s.cache.buf j).dev
  blockno : ∀ j, (t.cache.buf j).blockno = (s.cache.buf j).blockno
  valid : ∀ j, (t.cache.buf j).valid = (s.cache.buf j).valid
  data : ∀ j, (t.cache.buf j).data = (s.cache.buf j).data

omit [DecidableEq C] in
theorem repins_setPins {n : ℕ} {f : Uint → Uint} :
    Repins s (s.setPins i n fun b => { b with refcnt := f b.refcnt }) i n := by
  have hbuf : ∀ j, (s.setPins i n fun b =>
      { b with refcnt := f b.refcnt }).cache.buf j =
        { s.cache.buf j with refcnt := if j = i then f (s.cache.buf i).refcnt
          else (s.cache.buf j).refcnt } := by
    intro j
    rw [State.setPins_cache, Bcache.modify_buf]
    split
    next hj => rw [hj]
    next => rfl
  refine ⟨rfl, rfl, fun j => ?_, fun j => ?_, fun j => ?_, fun j => ?_⟩
  all_goals rw [hbuf j]

theorem Move.repins_bpin (hm : Move s (.bpin i) t) : Repins s t i (s.pins i + 1) := by
  cases hm
  exact repins_setPins (f := (· + 1))

theorem Move.repins_bunpin {c : C} (hm : Move s (.bunpin c) t)
    (hc : s.phase c = .holding i) : Repins s t i (s.pins i - 1) := by
  cases hm with
  | bunpin hc' =>
    obtain rfl := Phase.holding.inj (hc'.symm.trans hc)
    exact repins_setPins (f := (· - 1))

/-- Only pins change the pins. -/
theorem Move.pins_eq (hm : Move s e t) (hpin : ∀ i, e ≠ .bpin i)
    (hunpin : ∀ c, e ≠ .bunpin c) : t.pins = s.pins := by
  cases hm with
  | hit | recycle | acquiresleep | fill | store | bwrite | releasesleep | brelse => rfl
  | bpin => exact absurd rfl (hpin _)
  | bunpin => exact absurd rfl (hunpin _)

theorem Move.phase_of_ne {c : C} (hm : Move s e t) (hc : e.caller ≠ some c) :
    t.phase c = s.phase c := by
  have hne : ∀ c', some c' ≠ some c → c ≠ c' := fun c' h heq => h (congrArg some heq.symm)
  cases hm with
  | hit | recycle | acquiresleep | fill | releasesleep | brelse => exact update_of_ne (hne _ hc) ..
  | store | bwrite | bpin | bunpin => rfl

/-- A caller that has a buffer had it before, or has just got it for its
block. -/
theorem Move.phase_cases {c : C} (hm : Move s e t) (hc : (t.phase c).buf = some i) :
    (s.phase c).buf = some i ∨
      ∃ dev blockno, e = .bget c dev blockno ∧ t.cache.Holds i dev blockno := by
  by_cases hcaller : e.caller = some c
  · cases hm with
    | @hit c' dev blockno j hc' hj =>
      cases hcaller
      obtain rfl : j = i := by simpa [Phase.buf] using hc
      exact Or.inr ⟨dev, blockno, rfl, by simpa [Bcache.Holds] using hj⟩
    | @recycle c' dev blockno j =>
      cases hcaller
      obtain rfl : j = i := by simpa [Phase.buf] using hc
      exact Or.inr ⟨dev, blockno, rfl, by simp [Bcache.Holds]⟩
    | acquiresleep hc' | fill hc' | releasesleep hc' =>
      cases hcaller
      rw [State.phase_goto_self] at hc
      rw [hc']
      exact Or.inl hc
    | store | bwrite | bunpin => exact Or.inl hc
    | brelse hc' =>
      cases hcaller
      rw [State.phase_goto_self] at hc
      cases hc
    | bpin => cases hcaller
  · rw [hm.phase_of_ne hcaller] at hc
    exact Or.inl hc

/-- After `bread`, the buffer is valid. -/
theorem Move.holding_cases {c : C} (hm : Move s e t) (hc : t.phase c = .holding i) :
    s.phase c = .holding i ∨ (t.cache.buf i).valid = true := by
  by_cases hcaller : e.caller = some c
  · cases hm with
    | hit | recycle | acquiresleep | releasesleep | brelse =>
      cases hcaller
      simp [State.take, State.goto] at hc
    | @fill c' j hc' =>
      cases hcaller
      rw [State.phase_goto_self] at hc
      cases hc
      right
      rw [State.goto_cache, State.modify_cache, Bcache.modify_self]
      split
      next hvalid => exact hvalid
      next => rfl
    | store | bwrite | bunpin => exact Or.inl hc
    | bpin => cases hcaller
  · rw [hm.phase_of_ne hcaller] at hc
    exact Or.inl hc

/-- A buffer that `bget` has never returned has no callers, and `brelse` has
never been called for it. -/
def Untouched (s : State C) : Prop :=
  ∀ i, s.used i = false → s.zeroed i = none ∧ ∀ c, (s.phase c).buf ≠ some i

theorem Untouched.goto {c : C} {ph : Phase (Fin NBUF)} (h : Untouched s)
    (hph : ∀ i, ph.buf = some i → s.used i = true) : Untouched (s.goto c ph) := by
  refine fun i hi => ⟨(h i hi).1, fun c' hc' => ?_⟩
  by_cases hcc : c' = c
  · subst hcc
    rw [State.phase_goto_self] at hc'
    exact Bool.false_ne_true (hi.symm.trans (hph i hc'))
  · rw [State.phase_goto_of_ne ph hcc] at hc'
    exact (h i hi).2 c' hc'

theorem Untouched.take {c : C} {f : Buf → Buf} (h : Untouched s) :
    Untouched (s.take c i f) := by
  have hused : Untouched { s with used := update s.used i true } := by
    intro j hj
    refine h j ?_
    by_cases hji : j = i
    · simp [hji] at hj
    · simpa [hji] using hj
  have hgoto : Untouched (State.goto { s with used := update s.used i true }
      c (.waiting i)) := by
    refine hused.goto fun j hj => ?_
    cases hj
    exact update_self ..
  exact hgoto

omit [DecidableEq C] in
/-- The buffer of a caller is one that `bget` has returned. -/
theorem Untouched.used {c : C} (h : Untouched s)
    (hc : (s.phase c).buf = some i) : s.used i = true := by
  by_contra hi
  exact (h i (Bool.eq_false_iff.mpr hi)).2 c hc

theorem Untouched.move (h : Untouched s) (hm : Move s e t) : Untouched t := by
  cases hm with
  | hit | recycle => exact h.take
  | @acquiresleep c _ hc | @fill c _ hc | @releasesleep c _ hc =>
    refine Untouched.goto (s := s.modify _ _) h fun j hj => ?_
    exact h.used (s := s) (c := c) (by rw [hc]; exact hj)
  | store | bwrite | bpin | bunpin => exact h
  | @brelse c j hc =>
    have hj : s.used j = true := h.used (by rw [hc]; rfl)
    refine Untouched.goto (fun k hk => ⟨?_, (h k hk).2⟩) fun k hk => nomatch hk
    have hkj : k ≠ j := by
      rintro rfl
      exact Bool.false_ne_true (hk.symm.trans hj)
    rw [State.zeroed_brelse_of_ne hkj, (h k hk).1]

variable [Fintype C]

/-- The buffers form a circular list with each buffer once, no block is in two
buffers, a buffer with references keeps its block, and `bget` recycles the
buffer whose count came to zero in `brelse` least recently, and first of all one
that has never been used. -/
theorem buffer_cache_structure (h : (system C).Reachable s) :
    (∃ l : List (Fin NBUF), s.cache.links.Circular .head (l.map .buf) ∧ l.Perm (finRange NBUF)) ∧
    (∀ i j, (s.cache.buf i).dev ≠ 0 → (s.cache.buf i).dev = (s.cache.buf j).dev →
      (s.cache.buf i).blockno = (s.cache.buf j).blockno → i = j) ∧
    (∀ e t i, (system C).step s e = some t → (s.cache.buf i).refcnt ≠ 0 →
      (t.cache.buf i).dev = (s.cache.buf i).dev ∧
        (t.cache.buf i).blockno = (s.cache.buf i).blockno) ∧
    (∀ dev blockno, (∀ j, ¬ s.cache.Holds j dev blockno) →
      (∃ i cache, bget s.cache dev blockno = some (.ok (i, cache)) ∧ (s.cache.buf i).refcnt = 0 ∧
        ∀ j, j ≠ i → (s.cache.buf j).refcnt = 0 → Newer s.zeroed j i) ∨
      bget s.cache dev blockno = some (.error .noBuffers) ∧ ∀ j, (s.cache.buf j).refcnt ≠ 0) ∧
    ∀ i, (s.cache.buf i).refcnt = 0 → s.refs i < 2 ^ 32 →
      (s.zeroed i = none ↔ s.used i = false) := by
  have hs := wf_of_reachable h
  have hun : Untouched s := by
    refine (h.invariant (P := fun s => Wf s ∧ Untouched s) ?_ ?_).2
    · rintro s ⟨disk, rfl⟩
      exact ⟨wf_start disk, fun _ _ => ⟨rfl, fun _ => nofun⟩⟩
    · rintro s e t ⟨hs, hun⟩ hstep
      obtain ⟨l, hl, -⟩ := hs.order
      exact ⟨hs.move (step_move hl hstep), hun.move (step_move hl hstep)⟩
  obtain ⟨l, hl, hsorted⟩ := hs.order
  refine ⟨⟨l, hl.circular, hl.perm⟩, fun i j hdev hd hb => ?_,
    fun e t i hstep hi => ?_, fun dev blockno hnew => ?_, fun i hi hlt => ?_⟩
  · exact hs.unique i j hdev ⟨hd.symm, hb.symm⟩
  · rcases (step_move hl hstep).buf_cases i with ⟨hdev, hblock, -⟩ | ⟨hfree, -⟩
    · exact ⟨hdev, hblock⟩
    · exact absurd hfree hi
  · rcases hl.bget_cases dev blockno with ⟨i, hi, -⟩ | ⟨-, ⟨i, hlast, hget⟩ | ⟨hfull, hget⟩⟩
    · exact absurd hi (hnew i)
    · have hfree := find?_some hlast
      refine Or.inl ⟨i, _, hget, of_decide_eq_true hfree, fun j hj hzero => ?_⟩
      exact pairwise_before_last hsorted hlast (hl.mem j) (decide_eq_true hzero) hj
    · exact Or.inr ⟨hget, hfull⟩
  · refine ⟨fun hz => ?_, fun hu => (hun i hu).1⟩
    by_contra hused
    have hpos := hs.alive i (by simpa using hused) hz
    have hrefs : (s.refs i) % 2 ^ 32 = 0 := by
      have hcount := hs.refcnt i
      rw [hi] at hcount
      simpa using congrArg BitVec.toNat hcount.symm
    rw [Nat.mod_eq_of_lt hlt] at hrefs
    omega

end Structure

/-- The first of two callers reads a block and releases it. -/
def readOnce : List (Event (Fin 2)) :=
  let p : Fin 2 := ⟨0, Nat.two_pos⟩
  [.bget p 1 7, .acquiresleep p, .fill p, .releasesleep p, .brelse p]

/-- Another block does not go to the buffer that has just been released. -/
theorem buffer_cache_structure_readOnce :
    ∃ s, (system (Fin 2)).run (start (Fin 2) fun _ _ => 0) readOnce = some s ∧
      s.zeroed ⟨0, by decide⟩ = some 0 ∧ (∀ j, ¬ s.cache.Holds j 1 8) ∧
      ((∃ i cache, bget s.cache 1 8 = some (.ok (i, cache)) ∧ (s.cache.buf i).refcnt = 0 ∧
        ∀ j, j ≠ i → (s.cache.buf j).refcnt = 0 → Newer s.zeroed j i) ∨
      bget s.cache 1 8 = some (.error .noBuffers) ∧ ∀ j, (s.cache.buf j).refcnt ≠ 0) := by
  have hrun : ∃ s, (system (Fin 2)).run (start (Fin 2) fun _ _ => 0) readOnce =
      some s ∧ s.zeroed ⟨0, by decide⟩ = some 0 ∧ ∀ j, ¬ s.cache.Holds j 1 8 :=
    EventSystem.exists_of_any_run (by decide +kernel)
  obtain ⟨s, hs, hzeroed, hnew⟩ := hrun
  have hreach : (system (Fin 2)).Reachable s := ⟨_, readOnce, ⟨_, rfl⟩, hs⟩
  exact ⟨s, hs, hzeroed, hnew, (buffer_cache_structure hreach).2.2.2.1 1 8 hnew⟩

end OsCa.Bio
