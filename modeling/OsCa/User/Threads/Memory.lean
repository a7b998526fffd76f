import OsCa.User.Threads.Model

/-!
# The memory of the threads library

Two facts about the library's memory are kept by every operation.
`Lib.Holds L ts` says that the allocated blocks are exactly the structures
and stacks of the threads `ts`, and that every block was freed at most once.
`Lib.Queue L q` says that `current_thread` points to the head of the ring `q`.

Splicing a thread into the ring and removing it write only the fields
`previous` and `next`; everything else about a thread is `Thread.unlinked`.
-/

namespace OsCa.Threads

open OsCa.Ring Function List

/-- A thread without its place in the ring. -/
def Thread.unlinked (th : Thread) : Thread :=
  { th with previous := NULL, next := NULL }

theorem Thread.fields_of_unlinked {a b : Thread} (h : a.unlinked = b.unlinked) :
    a.fp = b.fp ∧ a.arg = b.arg ∧ a.stack = b.stack ∧ a.stackP = b.stackP ∧
      a.env = b.env ∧ a.tag = b.tag ∧ a.bufSet = b.bufSet := by
  simp only [Thread.unlinked, Thread.mk.injEq, and_true] at h
  obtain ⟨hfp, harg, hstack, hstackP, henv, -, h⟩ := h
  exact ⟨hfp, harg, hstack, hstackP, henv, h⟩

namespace Lib

def next (L : Lib) (p : Word) : Word := (L.mem p).next

def previous (L : Lib) (p : Word) : Word := (L.mem p).previous

/-! ## Reading after writing -/

section Modify

variable (L : Lib) (p q v : Word) (f : Thread → Thread)

theorem mem_modify : (L.modify p f).mem q = if q = p then f (L.mem q) else L.mem q := by
  by_cases h : q = p
  · subst q
    simp [modify]
  · simp [modify, h]

theorem next_modify : (L.modify p f).next = update L.next p (f (L.mem p)).next :=
  comp_update Thread.next L.mem p _

theorem previous_modify : (L.modify p f).previous = update L.previous p (f (L.mem p)).previous :=
  comp_update Thread.previous L.mem p _

theorem mem_next : (L.mem p).next = L.next p := rfl

theorem mem_previous : (L.mem p).previous = L.previous p := rfl

theorem currentThread_modify : (L.modify p f).currentThread = L.currentThread := rfl

theorem heap_modify : (L.modify p f).heap = L.heap := rfl

theorem freed_modify : (L.modify p f).freed = L.freed := rfl

theorem badFrees_modify : (L.modify p f).badFrees = L.badFrees := rfl

theorem tags_modify : (L.modify p f).tags = L.tags := rfl

theorem next_setNext : (L.modify p fun th => { th with next := v }).next = update L.next p v :=
  L.next_modify p _

theorem previous_setNext : (L.modify p fun th => { th with next := v }).previous = L.previous :=
  (L.previous_modify p _).trans (update_eq_self p L.previous)

theorem next_setPrevious : (L.modify p fun th => { th with previous := v }).next = L.next :=
  (L.next_modify p _).trans (update_eq_self p L.next)

theorem previous_setPrevious :
    (L.modify p fun th => { th with previous := v }).previous = update L.previous p v :=
  L.previous_modify p _

variable {f} in
theorem unlinked_modify (h : ∀ th, (f th).unlinked = th.unlinked) :
    ((L.modify p f).mem q).unlinked = (L.mem q).unlinked := by
  rw [mem_modify]
  split
  · exact h _
  · rfl

theorem unlinked_setNext :
    ((L.modify p fun th => { th with next := v }).mem q).unlinked = (L.mem q).unlinked :=
  L.unlinked_modify p q fun _ => rfl

theorem unlinked_setPrevious : ((L.modify p fun th => { th with previous := v }).mem q).unlinked =
      (L.mem q).unlinked :=
  L.unlinked_modify p q fun _ => rfl

@[simp]
theorem mem_free : (L.free p).mem = L.mem := by
  unfold free
  split <;> rfl

theorem next_free : (L.free p).next = L.next := by
  funext q
  simp [next]

theorem previous_free : (L.free p).previous = L.previous := by
  funext q
  simp [previous]

@[simp]
theorem tags_free : (L.free p).tags = L.tags := by
  unfold free
  split <;> rfl

theorem heap_free : (L.free p).heap = update L.heap p none := by
  unfold free
  split
  next => rfl
  next h =>
    rw [← h]
    exact (update_eq_self p L.heap).symm

theorem freed_free : (L.free p).freed = L.freed ++ (L.heap p).toList := by
  unfold free
  split
  next b h => simp [h]
  next h => simp [h]

theorem badFrees_free : (L.free p).badFrees = L.badFrees + if (L.heap p).isNone then 1 else 0 := by
  unfold free
  split
  next b h => simp [h]
  next h => simp [h]

end Modify

theorem mem_threadCreate_self (L : Lib) (f arg t newStack : Word) :
    (L.threadCreate f arg t newStack).mem t =
      { L.mem t with
        fp := f, arg := arg, ID := L.id, tag := L.tags, bufSet := 0, stack := newStack,
        stackP := newStack + 0x100 * 8 - 0x2 * 8 } := by
  simp [threadCreate, malloc, mem_modify]

theorem mem_threadCreate_of_ne (L : Lib) (f arg : Word) {t u : Word} (newStack : Word) (h : u ≠ t) :
    (L.threadCreate f arg t newStack).mem u = L.mem u := by
  simp [threadCreate, malloc, mem_modify, h]

/-! ## Allocated and freed blocks -/

/-- The address of one of the two blocks of a thread. -/
def address (L : Lib) (t : Word) : BlockKind → Word
  | .struct => t
  | .stack => (L.mem t).stack

structure Holds (L : Lib) (ts : List Word) : Prop where
  nonnull : NULL ∉ ts
  ids : (ts.map fun t => (L.mem t).tag).Nodup
  bound : ∀ t ∈ ts, (L.mem t).tag < L.tags
  heap : ∀ p b, L.heap p = some b ↔ ∃ t ∈ ts, L.address t b.kind = p ∧ (L.mem t).tag = b.thread
  freed : L.freed.Nodup
  gone : ∀ b ∈ L.freed, b.thread < L.tags ∧ ∀ t ∈ ts, (L.mem t).tag ≠ b.thread
  badFrees : L.badFrees = 0

namespace Holds

variable {L L' : Lib} {ts us : List Word} {t : Word}

section

variable (h : L.Holds ts)

include h

theorem perm (hp : ts.Perm us) : L.Holds us where
  nonnull := fun hmem => h.nonnull (hp.mem_iff.mpr hmem)
  ids := (hp.map _).nodup_iff.mp h.ids
  bound := fun t ht => h.bound t (hp.mem_iff.mpr ht)
  heap := fun p b => by simp [h.heap p b, hp.mem_iff]
  freed := h.freed
  gone := fun b hb => ⟨(h.gone b hb).1, fun t ht => (h.gone b hb).2 t (hp.mem_iff.mpr ht)⟩
  badFrees := h.badFrees

/-- Only the identifiers and stacks of the threads matter. -/
theorem congr (hID : ∀ t ∈ ts, (L'.mem t).tag = (L.mem t).tag)
    (hstack : ∀ t ∈ ts, (L'.mem t).stack = (L.mem t).stack) (hid : L'.tags = L.tags)
    (hheap : L'.heap = L.heap) (hfreed : L'.freed = L.freed)
    (hbad : L'.badFrees = L.badFrees) : L'.Holds ts where
  nonnull := h.nonnull
  ids := by
    rw [map_congr_left hID]
    exact h.ids
  bound := fun t ht => by
    rw [hID t ht, hid]
    exact h.bound t ht
  heap := fun p b => by
    rw [hheap, h.heap p b]
    refine exists_congr fun t => and_congr_right fun ht => ?_
    rw [hID t ht]
    cases hk : b.kind with
    | struct => simp [address]
    | stack => simp [address, hstack t ht]
  freed := hfreed ▸ h.freed
  gone := fun b hb => by
    rw [hfreed] at hb
    obtain ⟨hlt, hne⟩ := h.gone b hb
    exact ⟨hid ▸ hlt, fun t ht => hID t ht ▸ hne t ht⟩
  badFrees := hbad.trans h.badFrees

theorem nodup : ts.Nodup := h.ids.of_map

/-- The blocks of a thread are allocated, under its identifier. -/
theorem heap_address (ht : t ∈ ts) (k : BlockKind) :
    L.heap (L.address t k) = some ⟨(L.mem t).tag, k⟩ :=
  (h.heap _ _).mpr ⟨t, ht, rfl, rfl⟩

theorem address_injective {u : Word} (ht : t ∈ ts) (hu : u ∈ ts) {k j : BlockKind}
    (heq : L.address t k = L.address u j) : (L.mem t).tag = (L.mem u).tag ∧ k = j := by
  have ht' := h.heap_address ht k
  rw [heq, h.heap_address hu j] at ht'
  simpa [eq_comm] using ht'

theorem create {f arg newStack : Word} (hok : L.MallocOk t newStack) :
    (L.threadCreate f arg t newStack).Holds (ts ++ [t]) := by
  obtain ⟨hnull, -, hne, ht, hs⟩ := hok
  have hout : ∀ u ∈ ts, u ≠ t := by
    rintro u hu rfl
    have hu' := h.heap_address hu .struct
    rw [address, ht] at hu'
    cases hu'
  have hold : ∀ u ∈ ts, (L.threadCreate f arg t newStack).mem u = L.mem u :=
    fun u hu => L.mem_threadCreate_of_ne f arg newStack (hout u hu)
  have hnew := L.mem_threadCreate_self f arg t newStack
  refine ⟨?_, ?_, ?_, ?_, h.freed, ?_, h.badFrees⟩
  · simp [h.nonnull, hnull.symm]
  · rw [map_append, map_congr_left fun u hu => by rw [hold u hu]]
    apply h.ids.append (by simp)
    intro i hi hi'
    obtain ⟨u, hu, rfl⟩ := mem_map.mp hi
    have := h.bound u hu
    simp only [map_cons, map_nil, hnew, mem_singleton] at hi'
    omega
  · intro u hu
    change _ < L.tags + 1
    rcases mem_append.mp hu with hu | hu
    · rw [hold u hu]
      exact Nat.lt_succ_of_lt (h.bound u hu)
    · rw [mem_singleton.mp hu, hnew]
      exact Nat.lt_succ_self _
  · intro p b
    have hheap : (L.threadCreate f arg t newStack).heap =
        update (update L.heap t (some ⟨L.tags, .struct⟩))
          newStack (some ⟨L.tags, .stack⟩) := rfl
    have holdaddr : ∀ u ∈ ts, ∀ k,
        (L.threadCreate f arg t newStack).address u k = L.address u k := by
      intro u hu k
      cases k with
      | struct => rfl
      | stack => simp [address, hold u hu]
    have hnewaddr : ∀ k, (L.threadCreate f arg t newStack).address t k =
        if k = .struct then t else newStack := by
      intro k
      cases k with
      | struct => rfl
      | stack => simp [address, hnew]
    have hsplit : (∃ u ∈ ts ++ [t], (L.threadCreate f arg t newStack).address u b.kind = p ∧
          ((L.threadCreate f arg t newStack).mem u).tag = b.thread) ↔
        (∃ u ∈ ts, L.address u b.kind = p ∧ (L.mem u).tag = b.thread) ∨
          ((if b.kind = .struct then t else newStack) = p ∧ L.tags = b.thread) := by
      simp only [mem_append, mem_singleton, or_and_right, exists_or, exists_eq_left, hnewaddr, hnew]
      refine or_congr (exists_congr fun u => and_congr_right fun hu => ?_) Iff.rfl
      rw [holdaddr u hu, hold u hu]
    rw [hsplit, ← h.heap p b, hheap]
    obtain ⟨i, k⟩ := b
    by_cases hpn : p = newStack
    · subst p
      cases k <;> simp [hs, hne]
    · by_cases hpt : p = t
      · subst p
        cases k <;> simp [hpn, ht, Ne.symm hpn]
      · cases k <;> simp [hpn, hpt, Ne.symm hpn, Ne.symm hpt]
  · intro b hb
    obtain ⟨hlt, hgone⟩ := h.gone b hb
    refine ⟨Nat.lt_succ_of_lt hlt, ?_⟩
    intro u hu
    rcases mem_append.mp hu with hu | hu
    · rw [hold u hu]
      exact hgone u hu
    · rw [mem_singleton.mp hu, hnew]
      exact Nat.ne_of_gt hlt

theorem heap_struct (ht : t ∈ ts) : L.heap t = some ⟨(L.mem t).tag, .struct⟩ :=
  h.heap_address ht .struct

theorem heap_stack (ht : t ∈ ts) : L.heap (L.mem t).stack = some ⟨(L.mem t).tag, .stack⟩ :=
  h.heap_address ht .stack

end

/-- Giving back the two blocks of a thread. -/
theorem freeThread (h : L.Holds (t :: ts))
    (hheap : L'.heap = update (update L.heap (L.mem t).stack none) t none)
    (hfreed : L'.freed = L.freed ++ ((L.heap (L.mem t).stack).toList ++ (L.heap t).toList))
    (hID : ∀ u ∈ ts, (L'.mem u).tag = (L.mem u).tag)
    (hstack : ∀ u ∈ ts, (L'.mem u).stack = (L.mem u).stack)
    (hid : L'.tags = L.tags) (hbad : L'.badFrees = L.badFrees) :
    L'.Holds ts := by
  obtain ⟨hfront, hids⟩ := nodup_cons.mp h.ids
  have hne : ∀ u ∈ ts, (L.mem u).tag ≠ (L.mem t).tag := by
    intro u hu heq
    exact hfront (mem_map.mpr ⟨u, hu, heq⟩)
  have hmem : ∀ u ∈ ts, u ∈ t :: ts := fun u hu => mem_cons_of_mem _ hu
  have haddr : ∀ u ∈ ts, ∀ k, L'.address u k = L.address u k := by
    intro u hu k
    cases k with
    | struct => rfl
    | stack => exact hstack u hu
  have hthread : ∀ b ∈ (L.heap (L.mem t).stack).toList ++ (L.heap t).toList,
      b.thread = (L.mem t).tag := by
    simp [h.heap_struct, h.heap_stack]
  refine ⟨fun hnull => h.nonnull (hmem _ hnull), ?_, ?_, ?_, ?_, ?_, hbad.trans h.badFrees⟩
  · rw [map_congr_left hID]
    exact hids
  · intro u hu
    rw [hID u hu, hid]
    exact h.bound u (hmem u hu)
  · intro p b
    have hkeep : L'.heap p = some b ↔ L.heap p = some b ∧ p ≠ t ∧ p ≠ (L.mem t).stack := by
      rw [hheap]
      by_cases hpt : p = t
      · subst p
        simp
      · by_cases hps : p = (L.mem t).stack
        · subst p
          simp [hpt]
        · simp [hpt, hps]
    rw [hkeep, h.heap p b]
    constructor
    · rintro ⟨⟨u, hu, hp, hb⟩, hpt, hps⟩
      rcases mem_cons.mp hu with rfl | hu
      · cases hk : b.kind with
        | struct => exact absurd (by rw [← hp, hk]; rfl) hpt
        | stack => exact absurd (by rw [← hp, hk]; rfl) hps
      · exact ⟨u, hu, (haddr u hu _).trans hp, (hID u hu).trans hb⟩
    · rintro ⟨u, hu, hp, hb⟩
      rw [haddr u hu] at hp
      refine ⟨⟨u, hmem u hu, hp, (hID u hu).symm.trans hb⟩, ?_, ?_⟩
      · rintro rfl
        exact hne u hu (h.address_injective (hmem u hu) mem_cons_self (j := .struct) hp).1
      · rintro rfl
        exact hne u hu (h.address_injective (hmem u hu) mem_cons_self (j := .stack) hp).1
  · rw [hfreed]
    apply h.freed.append (by simp [h.heap_struct, h.heap_stack])
    intro b hb hb'
    exact (h.gone b hb).2 t mem_cons_self (hthread b hb').symm
  · intro b hb
    rw [hfreed, mem_append] at hb
    rw [hid]
    rcases hb with hb | hb
    · obtain ⟨hlt, hgone⟩ := h.gone b hb
      refine ⟨hlt, fun u hu => ?_⟩
      rw [hID u hu]
      exact hgone u (hmem u hu)
    · rw [hthread b hb]
      refine ⟨h.bound t mem_cons_self, fun u hu => ?_⟩
      rw [hID u hu]
      exact hne u hu

end Holds

/-! ## The ring of ready threads -/

/-- `current_thread` is the head of the ring `q`, or null if `q` is empty. -/
structure Queue (L : Lib) (q : List Word) : Prop where
  current : L.currentThread = q.headD NULL
  nonnull : NULL ∉ q
  ring : IsRing L.next L.previous q

namespace Queue

variable {L L' : Lib} {q : List Word} {t : Word}

theorem current_eq_null_iff (h : L.Queue q) : L.currentThread = NULL ↔ q = [] := by
  rw [h.current]
  cases q with
  | nil => simp
  | cons x l =>
    have hx : NULL ≠ x := fun heq => h.nonnull (by simp [heq])
    simp [Ne.symm hx]

theorem congr (h : L.Queue q) (hcurrent : L'.currentThread = L.currentThread)
    (hring : IsRing L'.next L'.previous q) : L'.Queue q :=
  ⟨hcurrent.trans h.current, h.nonnull, hring⟩

/-- The thread structures may change as long as the links of the ring
stay. -/
theorem of_links (h : L.Queue q) (hcurrent : L'.currentThread = L.currentThread)
    (hnext : ∀ t ∈ q, L'.next t = L.next t)
    (hprevious : ∀ t ∈ q, L'.previous t = L.previous t) : L'.Queue q := by
  refine h.congr hcurrent ⟨h.ring.nodup, ?_, ?_⟩
  · apply h.ring.linked.imp_of_mem_imp
    intro a b ha hb hab
    exact ⟨(hnext a ha).trans hab.1, (hprevious b hb).trans hab.2⟩
  · intro a b ha hb
    have hab := h.ring.closed a b ha hb
    exact ⟨(hnext a (mem_of_getLast? ha)).trans hab.1, (hprevious b (mem_of_head? hb)).trans hab.2⟩

theorem threadAddRunqueue (h : L.Queue q) (ht : t ∉ q) (hnull : t ≠ NULL) :
    (L.threadAddRunqueue t).Queue (q ++ [t]) := by
  have hnonnull : NULL ∉ q ++ [t] := by simp [h.nonnull, hnull.symm]
  unfold Lib.threadAddRunqueue
  cases q with
  | nil =>
    rw [if_pos (h.current_eq_null_iff.mpr rfl)]
    refine ⟨rfl, hnonnull, isRing_singleton ?_ ?_⟩
    · simp [next_setNext, currentThread_modify]
    · simp [previous_setNext, previous_setPrevious]
  | cons x l =>
    have hx : L.currentThread = x := h.current
    rw [if_neg (fun heq => by simpa using h.current_eq_null_iff.mp heq)]
    refine ⟨hx, hnonnull, ?_⟩
    simp only [mem_previous, currentThread_modify, next_setNext,
      previous_setNext, next_setPrevious, previous_setPrevious, hx]
    exact h.ring.insert ht

theorem schedule {x : Word} {l : List Word} (h : L.Queue (x :: l)) :
    L.schedule.Queue (l ++ [x]) := by
  have hx : L.currentThread = x := h.current
  refine ⟨?_, ?_, h.ring.rotate⟩
  · simp only [Lib.schedule, hx]
    cases l with
    | nil => exact h.ring.next_of_singleton
    | cons y l => exact h.ring.next_of_cons
  · intro hmem
    exact h.nonnull (by simpa [or_comm] using hmem)

theorem threadExit {x : Word} {l : List Word} (h : L.Queue (x :: l)) : L.threadExit.Queue l := by
  have hx : L.currentThread = x := h.current
  have hnonnull : NULL ∉ l := fun hmem => h.nonnull (mem_cons_of_mem _ hmem)
  unfold Lib.threadExit
  simp only [mem_next, hx]
  cases l with
  | nil =>
    rw [if_neg (not_not.mpr h.ring.next_of_singleton)]
    exact ⟨rfl, hnonnull, isRing_nil⟩
  | cons y l =>
    have hne : L.next x ≠ x := fun heq => by simpa using h.ring.next_eq_self_iff.mp heq
    rw [if_pos hne]
    have hxy : L.next x = y := h.ring.next_of_cons
    -- The read of `current_thread->previous` comes after a write of
    -- `previous`, but at another thread.
    have hread : update L.previous (L.next x) (L.previous x) x = L.previous x :=
      update_of_ne hne.symm _ _
    refine ⟨?_, hnonnull, ?_⟩
    · simp only [mem_previous, next_setNext, next_setPrevious,
        next_free, previous_setPrevious, previous_free, hread,
        headD_cons]
      rw [update_apply]
      split <;> exact hxy
    · change IsRing (Lib.next (Lib.free _ _)) (Lib.previous (Lib.free _ _)) _
      simp only [mem_previous, next_setNext, next_setPrevious,
        next_free, previous_setNext, previous_setPrevious, previous_free,
        hread]
      exact h.ring.remove

end Queue

/-! ## Frames

The operations on the ring change nothing but links, and the blocks that
`thread_exit` gives back. -/

theorem unlinked_threadAddRunqueue (L : Lib) (t p : Word) :
    ((L.threadAddRunqueue t).mem p).unlinked = (L.mem p).unlinked := by
  unfold threadAddRunqueue
  split <;> simp only [unlinked_setNext, unlinked_setPrevious]

theorem unlinked_threadExit (L : Lib) (p : Word) :
    (L.threadExit.mem p).unlinked = (L.mem p).unlinked := by
  unfold threadExit
  dsimp only
  split <;> simp only [mem_free, unlinked_setNext, unlinked_setPrevious]

namespace Holds

variable {L : Lib} {ts : List Word} {t : Word}

theorem threadAddRunqueue (h : L.Holds ts) : (L.threadAddRunqueue t).Holds ts := by
  refine h.congr ?_ ?_ ?_ ?_ ?_ ?_
  · intro u _
    exact (Thread.fields_of_unlinked (L.unlinked_threadAddRunqueue t u)).2.2.2.2.2.1
  · intro u _
    exact (Thread.fields_of_unlinked (L.unlinked_threadAddRunqueue t u)).2.2.1
  all_goals
    unfold Lib.threadAddRunqueue
    split <;> rfl

/-- The exiting thread's stack and structure are freed, in this order. -/
theorem threadExit (h : L.Holds (t :: ts)) (ht : L.currentThread = t) :
    L.threadExit.Holds ts ∧ L.threadExit.freed =
        L.freed ++ [⟨(L.mem t).tag, .stack⟩, ⟨(L.mem t).tag, .struct⟩] := by
  subst ht
  generalize hc : L.currentThread = t at h
  have hstruct := h.heap_struct mem_cons_self
  have hstack := h.heap_stack mem_cons_self
  have hne : t ≠ (L.mem t).stack := by
    intro heq
    rw [← heq, hstruct] at hstack
    simp at hstack
  have hfreed : L.threadExit.freed = L.freed ++
      ((L.heap (L.mem t).stack).toList ++ (L.heap t).toList) := by
    unfold Lib.threadExit
    dsimp only
    split <;> simp [freed_free, heap_free, freed_modify, heap_modify, hc, hne]
  refine ⟨h.freeThread ?_ hfreed ?_ ?_ ?_ ?_, ?_⟩
  · unfold Lib.threadExit
    dsimp only
    split <;> simp only [heap_free, heap_modify, hc]
  · intro u _
    exact (Thread.fields_of_unlinked (L.unlinked_threadExit u)).2.2.2.2.2.1
  · intro u _
    exact (Thread.fields_of_unlinked (L.unlinked_threadExit u)).2.2.1
  · unfold Lib.threadExit
    dsimp only
    split <;> simp only [tags_free, tags_modify]
  · unfold Lib.threadExit
    dsimp only
    split <;> simp [badFrees_free, heap_free, badFrees_modify, heap_modify, hc, hne,
        hstruct, hstack]
  · rw [hfreed, hstruct, hstack]
    rfl

end Holds

end Lib

end OsCa.Threads
