import OsCa.User.Malloc.Model

/-!
# The free list

The nodes of the list are given with their units, `base` first.  They are sorted by
address and a gap lies between one and the next.  A walk along the pointers from any
node comes around to every other, which is why both loops end: the loop of `free` at the
node after which the block belongs, the loop of `malloc` at a large enough block or
where it began.
-/

namespace OsCa.Malloc

open List

/-- A node of the free list: its address and its units. -/
abbrev Node := ℕ × ℕ

def Node.ext (n : Node) : Extent := ⟨n.1, unit * n.2⟩

/-- A block with units contains its header. -/
theorem Node.start_mem {n : Node} (hn : 0 < n.2) : n.ext.Mem n.1 :=
  ⟨Nat.le_refl _, Nat.lt_add_of_pos_right (Nat.mul_pos (by decide) hn)⟩

theorem Node.ne_of_disjoint {a b : Node} (h : a.ext.Disjoint b.ext) (ha : 0 < a.2)
    (hb : 0 < b.2) : a.1 ≠ b.1 :=
  fun heq => h a.1 (start_mem ha) (heq ▸ start_mem hb)

/-- The block `a` ends below `b`, and they are not adjacent. -/
def Before (a b : Node) : Prop := a.1 + unit * a.2 < b.1

/-- The header at `a` points to `b`. -/
abbrev Follows (mem : ℕ → Header) (a b : ℕ) : Prop := (mem a).ptr = b

/-- The nodes of the free list in memory. -/
structure Rep (base : ℕ) (mem : ℕ → Header) (N : List Node) : Prop where
  head : N.head? = some (base, 0)
  circle : (N.map Prod.fst ++ [base]).IsChain fun a b => (mem a).ptr = b
  sizes : ∀ n ∈ N, (mem n.1).size = n.2
  sorted : N.Pairwise Before
  pos : ∀ n ∈ N, n.1 ≠ base → 0 < n.2

namespace Rep

variable {base bp : ℕ} {mem mem' : ℕ → Header} {N pre post : List Node} {P X : Node}

theorem base_mem (h : Rep base mem N) : (base, 0) ∈ N := mem_of_mem_head? h.head

theorem units_of_base (h : Rep base mem N) {n : Node} (hn : n ∈ N) (hbase : n.1 = base) :
    n.2 = 0 := by
  rw [← h.sizes n hn, hbase]
  exact h.sizes _ h.base_mem

theorem lt_of_before {a b : Node} (h : Before a b) : a.1 < b.1 :=
  Nat.lt_of_le_of_lt (Nat.le_add_right _ _) h

theorem sorted_addr (h : Rep base mem N) : (N.map Prod.fst).Pairwise (· < ·) :=
  pairwise_map.mpr (h.sorted.imp fun hab => lt_of_before hab)

theorem base_le (h : Rep base mem N) {n : Node} (hn : n ∈ N) : base ≤ n.1 := by
  obtain ⟨l, rfl⟩ := head?_eq_some_iff.mp h.head
  rcases mem_cons.mp hn with rfl | hn
  · exact Nat.le_refl _
  · exact (lt_of_before ((pairwise_cons.mp h.sorted).1 n hn)).le

/-- The chain from a node on. -/
theorem chain_split (h : Rep base mem (pre ++ P :: post)) :
    (pre.map Prod.fst ++ [P.1]).IsChain (Follows mem) ∧
      (P.1 :: (post.map Prod.fst ++ [base])).IsChain (Follows mem) := by
  have hcircle := h.circle
  rw [map_append, map_cons, append_assoc, cons_append] at hcircle
  exact isChain_split.mp hcircle

/-- The place of a new block. -/
theorem exists_place (h : Rep base mem N) (hbase : base < bp) (hbp : ∀ n ∈ N, n.1 ≠ bp) :
    ∃ pre P post, N = pre ++ P :: post ∧ (∀ n ∈ pre, n.1 < bp) ∧ P.1 < bp ∧
      ∀ n ∈ post, bp < n.1 := by
  obtain ⟨l, rfl⟩ := head?_eq_some_iff.mp h.head
  have hsplit : ∀ (l : List Node) (A : Node), A.1 < bp → (A :: l).Pairwise Before →
      (∀ n ∈ l, n.1 ≠ bp) → ∃ pre P post, A :: l = pre ++ P :: post ∧
        (∀ n ∈ pre, n.1 < bp) ∧ P.1 < bp ∧ ∀ n ∈ post, bp < n.1 := by
    intro l
    induction l with
    | nil => exact fun A hA _ _ => ⟨[], A, [], rfl, by simp, hA, by simp⟩
    | cons B l ih =>
      intro A hA hsorted hne
      have htail := (pairwise_cons.mp hsorted).2
      rcases Nat.lt_or_gt_of_ne (hne B mem_cons_self) with hB | hB
      · obtain ⟨pre, P, post, heq, hpre, hP, hpost⟩ :=
          ih B hB htail fun n hn => hne n (mem_cons_of_mem B hn)
        exact ⟨A :: pre, P, post, by rw [heq, cons_append],
          forall_mem_cons.mpr ⟨hA, hpre⟩, hP, hpost⟩
      · refine ⟨[], A, B :: l, rfl, by simp, hA, forall_mem_cons.mpr ⟨hB, fun n hn => ?_⟩⟩
        exact hB.trans (lt_of_before ((pairwise_cons.mp htail).1 n hn))
  exact hsplit l _ hbase h.sorted fun n hn => hbp n (mem_cons_of_mem _ hn)

/-! ## The loop of `free` -/

/-- Nodes below the block are passed, and nodes above it up to the wrap. -/
theorem findPlace_pass {n : Node} {y fuel : ℕ}
    (hchain : (n.1 :: (N.map Prod.fst ++ [y])).IsChain (Follows mem))
    (hsorted : (n :: N).Pairwise Before) (hy : y < bp)
    (hside : (∀ m ∈ n :: N, m.1 < y) ∨ ∀ m ∈ n :: N, bp < m.1) :
    findPlace mem bp (N.length + 1 + fuel) n.1 = findPlace mem bp fuel y := by
  induction N generalizing n with
  | nil =>
    obtain ⟨hptr, -⟩ := isChain_cons_cons.mp hchain
    have hn : n.1 < y ∨ bp < n.1 := hside.imp (· n mem_cons_self) (· n mem_cons_self)
    rw [length_nil, Nat.zero_add, Nat.add_comm, findPlace, hptr, if_neg (by omega),
      if_neg (by omega)]
  | cons z N ih =>
    obtain ⟨hptr, htail⟩ := isChain_cons_cons.mp hchain
    obtain ⟨hlt, hsorted⟩ := pairwise_cons.mp hsorted
    have hnz := lt_of_before (hlt z mem_cons_self)
    have hz : z.1 < y ∨ bp < n.1 := hside.imp (· z (by simp)) (· n mem_cons_self)
    rw [length_cons, Nat.add_right_comm, findPlace, hptr, if_neg (by omega), if_neg (by omega)]
    exact ih htail hsorted (hside.imp (forall_mem_cons.mp · |>.2) (forall_mem_cons.mp · |>.2))

section

variable (h : Rep base mem (pre ++ P :: post))

include h

/-- The loop ends at the place. -/
theorem findPlace_here {fuel : ℕ} (hP : P.1 < bp) (hpost : ∀ n ∈ post, bp < n.1) :
    findPlace mem bp (fuel + 1) P.1 = some P.1 := by
  have hchain := h.chain_split.2
  have hle : base ≤ P.1 := h.base_le (by simp)
  cases post with
  | nil =>
    obtain ⟨hptr, -⟩ := isChain_cons_cons.mp hchain
    rw [findPlace, hptr, if_neg (by omega), if_pos (by omega)]
  | cons Q post =>
    obtain ⟨hptr, -⟩ := isChain_cons_cons.mp hchain
    rw [findPlace, hptr, if_pos ⟨hP, hpost Q mem_cons_self⟩]

/-- From a node at or before the place. -/
theorem findPlace_before (hP : P.1 < bp) (hpost : ∀ n ∈ post, bp < n.1) {n : Node}
    (hn : n ∈ pre ++ [P]) :
    ∃ k, ∀ fuel, findPlace mem bp (k + (fuel + 1)) n.1 = some P.1 := by
  rcases mem_append.mp hn with hn | hn
  · obtain ⟨A, B, rfl⟩ := append_of_mem hn
    obtain ⟨hsorted, -, hcross⟩ := pairwise_append.mp h.sorted
    have hchain : (n.1 :: (B.map Prod.fst ++ [P.1])).IsChain (Follows mem) := by
      have hleft := h.chain_split.1
      rw [map_append, map_cons, append_assoc, cons_append] at hleft
      exact (isChain_split.mp hleft).2
    refine ⟨B.length + 1, fun fuel => ?_⟩
    rw [findPlace_pass hchain (pairwise_append.mp hsorted).2.1 hP (Or.inl fun m hm => ?_),
      h.findPlace_here hP hpost]
    exact lt_of_before (hcross m (mem_append_right A hm) P mem_cons_self)
  · rw [mem_singleton.mp hn]
    refine ⟨0, fun fuel => ?_⟩
    rw [Nat.zero_add, h.findPlace_here hP hpost]

/-- From any node. -/
theorem findPlace_eq (hbase : base < bp) (hP : P.1 < bp) (hpost : ∀ n ∈ post, bp < n.1)
    {n : Node} (hn : n ∈ pre ++ P :: post) :
    ∃ k, ∀ fuel, findPlace mem bp (k + (fuel + 1)) n.1 = some P.1 := by
  rw [append_cons] at hn
  rcases mem_append.mp hn with hn | hn
  · exact h.findPlace_before hP hpost hn
  · have hfirst : (base, 0) ∈ pre ++ [P] := by
      have hmem := h.base_mem
      rw [append_cons] at hmem
      exact (mem_append.mp hmem).resolve_right fun hb => hbase.not_gt (hpost _ hb)
    obtain ⟨k, hk⟩ := h.findPlace_before hP hpost hfirst
    obtain ⟨A, B, rfl⟩ := append_of_mem hn
    have hchain : (n.1 :: (B.map Prod.fst ++ [base])).IsChain (Follows mem) := by
      have hright := h.chain_split.2
      rw [map_append, map_cons, append_assoc, cons_append, ← cons_append] at hright
      exact (isChain_split.mp hright).2
    have hsorted := (pairwise_cons.mp (pairwise_append.mp h.sorted).2.1).2
    refine ⟨B.length + 1 + k, fun fuel => ?_⟩
    rw [Nat.add_assoc, findPlace_pass hchain (pairwise_append.mp hsorted).2.1 hbase
      (Or.inr fun m hm => hpost m (mem_append_right A hm)), hk]

/-! ## The loop of `malloc` -/

/-- The nodes after `P` and then those before it, back to `P`. -/
theorem rotate :
    (P.1 :: ((post.map Prod.fst ++ pre.map Prod.fst) ++ [P.1])).IsChain (Follows mem) := by
  obtain ⟨hleft, hright⟩ := h.chain_split
  cases pre with
  | nil =>
    obtain rfl : P = (base, 0) := Option.some.inj h.head
    simpa using hright
  | cons A pre =>
    obtain rfl : A = (base, 0) := Option.some.inj h.head
    rw [map_cons, append_assoc, cons_append, ← cons_append]
    exact isChain_split.mpr ⟨hright, hleft⟩

end

section Search

variable {nunits fuel prevp p : ℕ} {h : Heap} {sbrk : List (Option ℕ)}

theorem search_found (hsize : nunits ≤ (h.mem p).size) : search nunits (fuel + 1) sbrk h prevp p =
      some ((take h nunits prevp p).1, some (take h nunits prevp p).2) := by
  rw [search.eq_def]
  exact if_pos hsize

theorem search_next (hsize : (h.mem p).size < nunits) (hp : p ≠ h.freep) :
    search nunits (fuel + 1) sbrk h prevp p = search nunits fuel sbrk h p (h.mem p).ptr := by
  rw [search.eq_def]
  exact (if_neg (Nat.not_le.mpr hsize)).trans (if_neg hp)

theorem search_morecore {answer : Option ℕ} (hsize : (h.mem h.freep).size < nunits) :
    search nunits (fuel + 1) (answer :: sbrk) h prevp h.freep =
      match morecore fuel nunits answer h with
      | none => none
      | some (h, none) => some (h, none)
      | some (h, some p) => search nunits fuel sbrk h p (h.mem p).ptr := by
  rw [search.eq_def]
  exact (if_neg (Nat.not_le.mpr hsize)).trans (if_pos rfl)

end Search

/-- In a segment that ends at `freep` a large enough block is found, or there is none
and `morecore` is called. -/
theorem search_segment {nunits x : ℕ} {seg : List ℕ} {h : Heap} {sbrk : List (Option ℕ)}
    (hchain : (x :: (seg ++ [h.freep])).IsChain (Follows h.mem))
    (hseg : h.freep ∉ seg) :
    (∃ pr ∈ x :: seg, nunits ≤ (h.mem (h.mem pr).ptr).size ∧ ∀ fuel,
      search nunits (seg.length + 1 + fuel) sbrk h x (h.mem x).ptr =
        some ((take h nunits pr (h.mem pr).ptr).1, some (take h nunits pr (h.mem pr).ptr).2)) ∨
    (∀ y ∈ seg ++ [h.freep], (h.mem y).size < nunits) ∧ ∃ pr, ∀ fuel,
      search nunits (seg.length + 1 + fuel) sbrk h x (h.mem x).ptr =
        search nunits (fuel + 1) sbrk h pr h.freep := by
  induction seg generalizing x with
  | nil =>
    obtain ⟨hx, -⟩ := isChain_cons_cons.mp hchain
    rcases Nat.lt_or_ge (h.mem h.freep).size nunits with hsize | hsize
    · refine Or.inr ⟨by simpa using hsize, x, fun fuel => ?_⟩
      rw [hx, length_nil, Nat.zero_add, Nat.add_comm]
    · refine Or.inl ⟨x, mem_cons_self, by rwa [hx], fun fuel => ?_⟩
      rw [hx, length_nil, Nat.zero_add, Nat.add_comm, search_found hsize]
  | cons z seg ih =>
    obtain ⟨hx, htail⟩ := isChain_cons_cons.mp hchain
    have hz : z ≠ h.freep := fun heq => hseg (heq ▸ mem_cons_self)
    rcases Nat.lt_or_ge (h.mem z).size nunits with hsize | hsize
    · have hnext : ∀ fuel, search nunits ((z :: seg).length + 1 + fuel) sbrk h x
          (h.mem x).ptr = search nunits (seg.length + 1 + fuel) sbrk h z (h.mem z).ptr := by
        intro fuel
        rw [length_cons, Nat.add_right_comm, hx, search_next hsize hz]
      rcases ih htail (fun hmem => hseg (mem_cons_of_mem z hmem)) with
        ⟨pr, hpr, hfound, heq⟩ | ⟨hsmall, pr, heq⟩
      · refine Or.inl ⟨pr, mem_cons_of_mem x hpr, hfound, fun fuel => ?_⟩
        rw [hnext, heq]
      · refine Or.inr ⟨forall_mem_cons.mpr ⟨hsize, hsmall⟩, pr, fun fuel => ?_⟩
        rw [hnext, heq]
    · refine Or.inl ⟨x, mem_cons_self, by rwa [hx], fun fuel => ?_⟩
      rw [length_cons, Nat.add_right_comm, hx, search_found hsize]

/-- The node before another one. -/
theorem exists_pred {pr : ℕ} (h : Rep base mem N) (hpr : pr ∈ N.map Prod.fst)
    (hy : (mem pr).ptr ≠ base) :
    ∃ pre P Y post, N = pre ++ P :: Y :: post ∧ P.1 = pr ∧ Y.1 = (mem pr).ptr := by
  obtain ⟨P, hP, rfl⟩ := mem_map.mp hpr
  obtain ⟨pre, post, rfl⟩ := append_of_mem hP
  have hchain := h.chain_split.2
  cases post with
  | nil => exact absurd (isChain_cons_cons.mp hchain).1 hy
  | cons Y post => exact ⟨pre, P, Y, post, rfl, rfl, (isChain_cons_cons.mp hchain).1.symm⟩

/-- A list is given by the headers of its nodes. -/
theorem congr (h : Rep base mem N) (hmem : ∀ n ∈ N, mem' n.1 = mem n.1) : Rep base mem' N where
  head := h.head
  circle := by
    refine isChain_congr h.circle fun a ha => ?_
    obtain ⟨n, hn, rfl⟩ := mem_map.mp ha
    rw [hmem n hn]
  sizes := fun n hn => by rw [hmem n hn, h.sizes n hn]
  sorted := h.sorted
  pos := h.pos

/-- The list is changed from `P` on. -/
theorem relink {P' : Node} {tail : List Node} (h : Rep base mem (pre ++ P :: post))
    (haddr : P'.1 = P.1) (hbase : P.1 = base → P'.2 = 0)
    (hpre : ∀ n ∈ pre, mem' n.1 = mem n.1)
    (hchain : (P.1 :: (tail.map Prod.fst ++ [base])).IsChain (Follows mem'))
    (hsizes : ∀ n ∈ P' :: tail, (mem' n.1).size = n.2)
    (hsorted : (P' :: tail).Pairwise Before)
    (hpos : ∀ n ∈ P' :: tail, n.1 ≠ base → 0 < n.2) : Rep base mem' (pre ++ P' :: tail) where
  head := by
    cases pre with
    | nil =>
      obtain rfl : P = (base, 0) := Option.some.inj h.head
      exact congrArg some (Prod.ext haddr (hbase rfl))
    | cons A pre => exact h.head
  circle := by
    rw [map_append, map_cons, append_assoc, cons_append, haddr]
    refine isChain_split.mpr ⟨isChain_congr h.chain_split.1 fun a ha => ?_, hchain⟩
    obtain ⟨n, hn, rfl⟩ := mem_map.mp ha
    rw [hpre n hn]
  sizes := by
    refine forall_mem_append.mpr ⟨fun n hn => ?_, hsizes⟩
    rw [hpre n hn]
    exact h.sizes n (mem_append_left _ hn)
  sorted := by
    obtain ⟨hleft, -, hcross⟩ := pairwise_append.mp h.sorted
    refine pairwise_append.mpr ⟨hleft, hsorted, fun a ha n hn => ?_⟩
    have haP : a.1 + unit * a.2 < P.1 := hcross a ha P mem_cons_self
    have hle : P.1 ≤ n.1 := by
      rcases mem_cons.mp hn with rfl | hn
      · exact haddr.ge
      · rw [← haddr]
        exact (lt_of_before ((pairwise_cons.mp hsorted).1 n hn)).le
    exact haP.trans_le hle
  pos := forall_mem_append.mpr ⟨fun n hn => h.pos n (mem_append_left _ hn), hpos⟩

end Rep

end OsCa.Malloc
