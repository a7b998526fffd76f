import OsCa.User.Malloc.FreeList

/-!
# The allocator is safe

The free list and the blocks outside it tile the memory that was obtained.  `free` takes
a block into the list and joins it to its neighbours, `malloc` cuts one off; both keep
the tiling and the order of the list.

This needs that the regions lie above `base` and that sizes do not wrap.  Otherwise
`base` can drop out of the list, and a joined block can have the wrong size.
-/

namespace OsCa.Malloc

open Function List

variable {b n : Node} {R : List Extent} {a p bp : ℕ} {r : Heap × Option ℕ}

/-- The nodes `N` of the free list and the blocks `B` outside it make up the heap. -/
structure Ok (base : ℕ) (h : Heap) (N B : List Node) : Prop where
  rep : Rep base h.mem N
  freep : h.freep ∈ N.map Prod.fst
  tiles : Tiles ((B ++ N).map Node.ext) h.regions
  out : ∀ b ∈ B, 0 < b.2 ∧ (h.mem b.1).size = b.2
  above : ∀ r ∈ h.regions, base < r.start
  bound : Extent.total h.regions < unit * 2 ^ 32

theorem perm_at (B pre post : List Node) (P : Node) :
    (B ++ (pre ++ P :: post)).Perm (P :: (B ++ (pre ++ post))) := by
  have hperm := @perm_middle _ P (B ++ pre) post
  simpa using hperm

theorem perm_next (B pre post : List Node) (P Q : Node) :
    (B ++ (pre ++ P :: Q :: post)).Perm (Q :: (B ++ (pre ++ P :: post))) := by
  have hperm := perm_at B (pre ++ [P]) post Q
  simpa using hperm

namespace Ok

variable {base : ℕ} {h : Heap} {N B pre post : List Node} {X P : Node}

theorem base_lt (hok : Ok base h N B) (hb : b ∈ B) : base < b.1 := by
  obtain ⟨r, hr, hle, -⟩ := hok.tiles.inside _ (mem_map_of_mem (mem_append_left N hb)) b.1
    (Node.start_mem (hok.out b hb).1)
  exact (hok.above r hr).trans_le hle

theorem disjoint (hok : Ok base h N B) (hb : b ∈ B) (hn : n ∈ N) : b.ext.Disjoint n.ext := by
  have hpair := hok.tiles.disjoint
  rw [map_append] at hpair
  exact (pairwise_append.mp hpair).2.2 _ (mem_map_of_mem hb) _ (mem_map_of_mem hn)

theorem addr_ne (hok : Ok base h N B) (hb : b ∈ B) (hn : n ∈ N) : b.1 ≠ n.1 := by
  by_cases hbase : n.1 = base
  · exact hbase ▸ (hok.base_lt hb).ne'
  · exact Node.ne_of_disjoint (hok.disjoint hb hn) (hok.out b hb).1 (hok.rep.pos n hn hbase)

theorem addr_ne_cons (hok : Ok base h N (X :: B)) (hb : b ∈ B) : b.1 ≠ X.1 := by
  have hpair := hok.tiles.disjoint
  rw [map_append, map_cons, cons_append] at hpair
  have hdisj := (pairwise_cons.mp hpair).1 _ (mem_append_left _ (mem_map_of_mem hb))
  exact (Node.ne_of_disjoint hdisj (hok.out X mem_cons_self).1
    (hok.out b (mem_cons_of_mem X hb)).1).symm

/-- A block outside the list whose header is not written. -/
theorem out_of_eq (hok : Ok base h N B) {mem : ℕ → Header} (hb : b ∈ B)
    (hmem : mem b.1 = h.mem b.1) : 0 < b.2 ∧ (mem b.1).size = b.2 :=
  hmem ▸ hok.out b hb

/-- Headers and `freep` are written. -/
theorem write (hok : Ok base h N B) {N' B' : List Node} {mem : ℕ → Header} {freep : ℕ}
    (hrep : Rep base mem N') (hfreep : freep ∈ N'.map Prod.fst)
    (htiles : Tiles ((B' ++ N').map Node.ext) h.regions)
    (hout : ∀ b ∈ B', 0 < b.2 ∧ (mem b.1).size = b.2) :
    Ok base { h with mem := mem, freep := freep } N' B' :=
  ⟨hrep, hfreep, htiles, hout, hok.above, hok.bound⟩

/-- Sizes of blocks that tile the heap do not wrap. -/
theorem units_lt {bs : List Extent} (ht : Tiles bs R) (hn : n.ext ∈ bs)
    (hR : Extent.total R < unit * 2 ^ 32) : n.2 < 2 ^ 32 := by
  have hle := ht.len_le hn
  exact Nat.lt_of_mul_lt_mul_left (hle.trans_lt hR)

/-- Two adjacent blocks are joined. -/
theorem tiles_join {l : List Node} {Y Z : Node}
    (ht : Tiles ((Y :: Z :: l).map Node.ext) R) (hadj : Y.1 + unit * Y.2 = Z.1) :
    Tiles (((Y.1, Y.2 + Z.2) :: l).map Node.ext) R := by
  have hZ : Z.ext = ⟨Y.1 + unit * Y.2, unit * Z.2⟩ := by
    rw [hadj]
    rfl
  rw [map_cons, map_cons, hZ] at ht
  have hjoin := ht.join
  rwa [← Nat.mul_add] at hjoin

/-! ## `free` -/

/-- The header of `X` is linked to the nodes `tail` above it, with `u` units. -/
structure Linked (base : ℕ) (h : Heap) (mem : ℕ → Header) (pre post : List Node)
    (P X : Node) (B : List Node) (u : ℕ) (tail : List Node) : Prop where
  le : X.2 ≤ u
  sub : tail.Sublist post
  other : ∀ a, a ≠ X.1 → mem a = h.mem a
  size : (mem X.1).size = u
  chain : (X.1 :: (tail.map Prod.fst ++ [base])).IsChain fun a b => (mem a).ptr = b
  sorted : ((X.1, u) :: tail).Pairwise Before
  tiles : Tiles (((X.1, u) :: (B ++ (pre ++ P :: tail))).map Node.ext) h.regions

section Insert

variable {mem : ℕ → Header} {u : ℕ} {tail : List Node}

theorem joinRight_of_ne (ha : a ≠ bp) : joinRight mem p bp a = mem a := by
  unfold joinRight
  split
  · exact update_of_ne ha _ _
  · exact update_of_ne ha _ _

theorem joinLeft_of_ne (ha : a ≠ p) : joinLeft mem p bp a = mem a := by
  unfold joinLeft
  split
  · exact update_of_ne ha _ _
  · exact update_of_ne ha _ _

variable (hok : Ok base h (pre ++ P :: post) (X :: B))

include hok

/-- `X` is linked to the rest of the list, joined to its first block if they are
adjacent. -/
theorem joinRight_spec (hpost : ∀ n ∈ post, X.1 < n.1) :
    ∃ u tail, Linked base h (joinRight h.mem P.1 X.1) pre post P X B u tail := by
  have hchain := hok.rep.chain_split.2
  have hXsize := (hok.out X mem_cons_self).2
  have hXbase : base < X.1 := hok.base_lt mem_cons_self
  have hother : ∀ a, a ≠ X.1 → joinRight h.mem P.1 X.1 a = h.mem a := fun a ha => joinRight_of_ne ha
  have hagree : ∀ a ∈ post.map Prod.fst, (joinRight h.mem P.1 X.1 a).ptr = (h.mem a).ptr := by
    intro a ha
    obtain ⟨n, hn, rfl⟩ := mem_map.mp ha
    rw [hother _ (hpost n hn).ne']
  have hsorted := (pairwise_cons.mp (pairwise_append.mp hok.rep.sorted).2.1).2
  have hend : ∀ n ∈ post, X.1 + unit * X.2 ≤ n.1 := fun n hn => by
    have hmem : n ∈ pre ++ P :: post := by simp [hn]
    have hpos := hok.rep.pos n hmem (hXbase.trans (hpost n hn)).ne'
    exact (hok.disjoint mem_cons_self hmem).end_le (Nat.mul_pos (by decide) hpos) (hpost n hn).le
  by_cases hadj : X.1 + unit * X.2 = (h.mem P.1).ptr
  · -- The block reaches the next one and takes its place.
    cases post with
    | nil =>
      have hptr : (h.mem P.1).ptr = base := (isChain_cons_cons.mp hchain).1
      omega
    | cons Q post =>
      obtain ⟨hptr, hQchain⟩ := isChain_cons_cons.mp hchain
      obtain ⟨hQlt, hsorted⟩ := pairwise_cons.mp hsorted
      have htiles : Tiles (((X.1, X.2 + Q.2) :: (B ++ (pre ++ P :: post))).map Node.ext)
          h.regions := by
        refine tiles_join (hok.tiles.perm (List.Perm.map _ ?_)) (hadj.trans hptr)
        exact (perm_next B pre post P Q).cons X
      have hlt : X.2 + Q.2 < 2 ^ 32 := units_lt htiles mem_cons_self hok.bound
      have heq : joinRight h.mem P.1 X.1 X.1 = ⟨(h.mem Q.1).ptr, X.2 + Q.2⟩ := by
        unfold joinRight
        rw [hXsize, if_pos hadj, update_self, hptr, hok.rep.sizes Q (by simp), Nat.mod_eq_of_lt hlt]
      refine ⟨X.2 + Q.2, post, Nat.le_add_right _ _, sublist_cons_self _ _, hother,
        by rw [heq], isChain_rehead hQchain (by rw [heq]) fun a ha => ?_,
        .cons (fun n hn => ?_) hsorted, htiles⟩
      · exact hagree a (mem_cons_of_mem _ ha)
      · have hQn : Q.1 + unit * Q.2 < n.1 := hQlt n hn
        change X.1 + unit * (X.2 + Q.2) < n.1
        rw [Nat.mul_add]
        omega
  · have heq : joinRight h.mem P.1 X.1 X.1 = ⟨(h.mem P.1).ptr, X.2⟩ := by
      unfold joinRight
      rw [hXsize, if_neg hadj, update_self]
    refine ⟨X.2, post, Nat.le_refl _, .refl _, hother, by rw [heq],
      isChain_rehead hchain (by rw [heq]) hagree, .cons ?_ hsorted, hok.tiles⟩
    cases post with
    | nil => simp
    | cons Q post =>
      rw [(isChain_cons_cons.mp hchain).1] at hadj
      have hlt : X.1 + unit * X.2 < Q.1 := Nat.lt_of_le_of_ne (hend Q mem_cons_self) hadj
      exact forall_mem_cons.mpr ⟨hlt, fun n hn =>
        hlt.trans (Rep.lt_of_before ((pairwise_cons.mp hsorted).1 n hn))⟩

variable (hlink : Linked base h mem pre post P X B u tail) (hP : P.1 < X.1)
  (hpost : ∀ n ∈ post, X.1 < n.1)

include hlink hP hpost

/-- The parts of the heap that `free` does not write. -/
theorem joinLeft_frame : (∀ n ∈ pre, joinLeft mem P.1 X.1 n.1 = h.mem n.1) ∧
      (∀ n ∈ tail, joinLeft mem P.1 X.1 n.1 = mem n.1 ∧
        (joinLeft mem P.1 X.1 n.1).size = n.2 ∧ (n.1 ≠ base → 0 < n.2)) ∧
      ∀ b ∈ B, joinLeft mem P.1 X.1 b.1 = h.mem b.1 := by
  have hPmem : P ∈ pre ++ P :: post := by simp
  have hcross := (pairwise_append.mp hok.rep.sorted).2.2
  refine ⟨fun n hn => ?_, fun n hn => ?_, fun b hb => ?_⟩
  · have hlt : n.1 < P.1 := Rep.lt_of_before (hcross n hn P mem_cons_self)
    rw [joinLeft_of_ne hlt.ne, hlink.other _ (hlt.trans hP).ne]
  · have hlt := hpost n (hlink.sub.subset hn)
    have hmem : n ∈ pre ++ P :: post := by simp [hlink.sub.subset hn]
    have heq : joinLeft mem P.1 X.1 n.1 = mem n.1 := joinLeft_of_ne (hP.trans hlt).ne'
    refine ⟨heq, ?_, hok.rep.pos n hmem⟩
    rw [heq, hlink.other _ hlt.ne', hok.rep.sizes n hmem]
  · rw [joinLeft_of_ne (hok.addr_ne (mem_cons_of_mem X hb) hPmem),
      hlink.other _ (hok.addr_ne_cons hb)]

/-- `P` reaches `X` and takes it over. -/
theorem insert_joined (hadj : P.1 + unit * P.2 = X.1) :
    Ok base { h with mem := joinLeft mem P.1 X.1, freep := P.1 }
      (pre ++ (P.1, P.2 + u) :: tail) B := by
  have hPmem : P ∈ pre ++ P :: post := by simp
  obtain ⟨hpre, htail, hB⟩ := hok.joinLeft_frame hlink hP hpost
  -- `base` has no units, so it cannot reach another block.
  have hPbase : P.1 ≠ base := by
    intro heq
    rw [hok.rep.units_of_base hPmem heq] at hadj
    omega
  have htiles : Tiles (((P.1, P.2 + u) :: (B ++ (pre ++ tail))).map Node.ext) h.regions := by
    have hperm := ((perm_at B pre tail P).cons (X.1, u)).trans (.swap _ _ _)
    exact tiles_join (hlink.tiles.perm (hperm.map Node.ext)) hadj
  have hlt : P.2 + u < 2 ^ 32 := units_lt htiles mem_cons_self hok.bound
  have heq : joinLeft mem P.1 X.1 P.1 = ⟨(mem X.1).ptr, P.2 + u⟩ := by
    unfold joinLeft
    rw [hlink.other P.1 hP.ne, hok.rep.sizes P hPmem, if_pos hadj, update_self,
      hlink.size, Nat.mod_eq_of_lt hlt]
  have hptr : (joinLeft mem P.1 X.1 P.1).ptr = (mem X.1).ptr := by rw [heq]
  refine hok.write ?_ (by simp) (htiles.perm ((perm_at B pre tail _).symm.map _))
    fun b hb => hok.out_of_eq (mem_cons_of_mem X hb) (hB b hb)
  · refine hok.rep.relink rfl (fun hb => absurd hb hPbase) hpre
      (isChain_rehead hlink.chain hptr fun a ha => ?_) (forall_mem_cons.mpr
        ⟨congrArg Header.size heq, fun n hn => (htail n hn).2.1⟩)
      (.cons (fun n hn => ?_) (pairwise_cons.mp hlink.sorted).2) (forall_mem_cons.mpr
        ⟨fun _ => ?_, fun n hn => (htail n hn).2.2⟩)
    · obtain ⟨n, hn, rfl⟩ := mem_map.mp ha
      exact congrArg Header.ptr (htail n hn).1
    · have hXn : X.1 + unit * u < n.1 := (pairwise_cons.mp hlink.sorted).1 n hn
      change P.1 + unit * (P.2 + u) < n.1
      rw [Nat.mul_add]
      omega
    · exact Nat.add_pos_left (hok.rep.pos P hPmem hPbase) _

/-- `X` becomes a node of its own. -/
theorem insert_alone (hadj : P.1 + unit * P.2 ≠ X.1) :
    Ok base { h with mem := joinLeft mem P.1 X.1, freep := P.1 }
      (pre ++ P :: (X.1, u) :: tail) B := by
  have hPmem : P ∈ pre ++ P :: post := by simp
  have hXpos := (hok.out X mem_cons_self).1
  obtain ⟨hpre, htail, hB⟩ := hok.joinLeft_frame hlink hP hpost
  have heq : joinLeft mem P.1 X.1 P.1 = ⟨X.1, P.2⟩ := by
    unfold joinLeft
    rw [hlink.other P.1 hP.ne, hok.rep.sizes P hPmem, if_neg hadj, update_self]
  have hX : joinLeft mem P.1 X.1 X.1 = mem X.1 := joinLeft_of_ne hP.ne'
  have hend : P.1 + unit * P.2 < X.1 :=
    Nat.lt_of_le_of_ne ((hok.disjoint mem_cons_self hPmem).symm.end_le
      (Nat.mul_pos (by decide) hXpos) hP.le) hadj
  have hperm := (perm_next B pre tail P (X.1, u)).symm
  refine hok.write ?_ (by simp) (hlink.tiles.perm (hperm.map Node.ext))
    fun b hb => hok.out_of_eq (mem_cons_of_mem X hb) (hB b hb)
  · have hchain : (X.1 :: (tail.map Prod.fst ++ [base])).IsChain
        (Follows (joinLeft mem P.1 X.1)) := by
      refine isChain_rehead hlink.chain (congrArg Header.ptr hX) fun a ha => ?_
      obtain ⟨n, hn, rfl⟩ := mem_map.mp ha
      exact congrArg Header.ptr (htail n hn).1
    have hXn : ∀ n ∈ tail, X.1 < n.1 := fun n hn => hpost n (hlink.sub.subset hn)
    exact hok.rep.relink rfl (hok.rep.units_of_base hPmem) hpre
      (.cons_cons (congrArg Header.ptr heq) hchain)
      (forall_mem_cons.mpr ⟨congrArg Header.size heq, forall_mem_cons.mpr
        ⟨(congrArg Header.size hX).trans hlink.size, fun n hn => (htail n hn).2.1⟩⟩)
      (.cons (forall_mem_cons.mpr ⟨hend, fun n hn => hend.trans (hXn n hn)⟩) hlink.sorted)
      (forall_mem_cons.mpr ⟨hok.rep.pos P hPmem, forall_mem_cons.mpr
        ⟨fun _ => hXpos.trans_le hlink.le, fun n hn => (htail n hn).2.2⟩⟩)

end Insert

/-- `free` comes to an end, and the block is in the list, or part of one that is. -/
theorem free (hok : Ok base h N (X :: B)) :
    ∃ k h' N', (∀ fuel, free (k + (fuel + 1)) h X.1 = some h') ∧ Ok base h' N' B ∧
      h'.regions = h.regions ∧ ∃ n ∈ N', X.2 ≤ n.2 := by
  have hXbase : base < X.1 := hok.base_lt mem_cons_self
  obtain ⟨pre, P, post, rfl, -, hP, hpost⟩ := hok.rep.exists_place hXbase fun n hn =>
    (hok.addr_ne mem_cons_self hn).symm
  obtain ⟨n, hn, hfreep⟩ := mem_map.mp hok.freep
  obtain ⟨k, hk⟩ := hok.rep.findPlace_eq hXbase hP hpost hn
  obtain ⟨u, tail, hlink⟩ := hok.joinRight_spec hpost
  have hfree : ∀ fuel, Malloc.free (k + (fuel + 1)) h X.1 = some { h with
      mem := joinLeft (joinRight h.mem P.1 X.1) P.1 X.1, freep := P.1 } := by
    intro fuel
    rw [Malloc.free, ← hfreep, hk fuel]
    rfl
  by_cases hadj : P.1 + unit * P.2 = X.1
  · exact ⟨k, _, _, hfree, hok.insert_joined hlink hP hpost hadj, rfl, (P.1, P.2 + u),
      by simp, hlink.le.trans (Nat.le_add_left _ _)⟩
  · exact ⟨k, _, _, hfree, hok.insert_alone hlink hP hpost hadj, rfl, (X.1, u), by simp, hlink.le⟩

/-! ## `malloc` -/

section Take

variable {Y : Node} {nunits : ℕ}

/-- The first node of a split list is passed over. -/
theorem rep_next (hok : Ok base h (pre ++ P :: Y :: post) B) :
    Rep base h.mem ((pre ++ [P]) ++ Y :: post) := by
  simpa using hok.rep

/-- The block has the size asked for and leaves the list. -/
theorem take_whole (hok : Ok base h (pre ++ P :: Y :: post) B) (hpos : 0 < Y.2) : Ok base { h with
      mem := update h.mem P.1 ⟨(h.mem Y.1).ptr, (h.mem P.1).size⟩
      freep := P.1 } (pre ++ P :: post) (Y :: B) := by
  have hPmem : P ∈ pre ++ P :: Y :: post := by simp
  obtain ⟨-, hPsorted, hcross⟩ := pairwise_append.mp hok.rep.sorted
  obtain ⟨hPlt, hYsorted⟩ := pairwise_cons.mp hPsorted
  generalize hmem : update h.mem P.1 ⟨(h.mem Y.1).ptr, (h.mem P.1).size⟩ = mem
  have hatP : mem P.1 = ⟨(h.mem Y.1).ptr, (h.mem P.1).size⟩ := by rw [← hmem, update_self]
  have hframe : ∀ a, a ≠ P.1 → mem a = h.mem a := by
    intro a ha
    rw [← hmem, update_of_ne ha]
  have hpost : ∀ n ∈ post, n.1 ≠ P.1 := fun n hn =>
    (Rep.lt_of_before (hPlt n (mem_cons_of_mem Y hn))).ne'
  refine hok.write ?_ (by simp) (hok.tiles.perm ((perm_next B pre post P Y).map _))
    (forall_mem_cons.mpr ⟨⟨hpos, ?_⟩, fun b hb => hok.out_of_eq hb ?_⟩)
  · refine hok.rep.relink rfl (hok.rep.units_of_base hPmem) (fun n hn => hframe _ ?_)
      (isChain_rehead hok.rep_next.chain_split.2 (by rw [hatP]) fun a ha => ?_)
      (forall_mem_cons.mpr ⟨by rw [hatP, hok.rep.sizes P hPmem], fun n hn => ?_⟩)
      (.cons (fun n hn => hPlt n (mem_cons_of_mem Y hn)) (pairwise_cons.mp hYsorted).2)
      (forall_mem_cons.mpr ⟨hok.rep.pos P hPmem, fun n hn => hok.rep.pos n (by simp [hn])⟩)
    · exact (Rep.lt_of_before (hcross n hn P mem_cons_self)).ne
    · obtain ⟨n, hn, rfl⟩ := mem_map.mp ha
      exact congrArg Header.ptr (hframe _ (hpost n hn))
    · rw [hframe _ (hpost n hn), hok.rep.sizes n (by simp [hn])]
  · rw [hframe _ (Rep.lt_of_before (hPlt Y mem_cons_self)).ne', hok.rep.sizes Y (by simp)]
  · exact hframe _ (hok.addr_ne hb hPmem)

/-- The tail of a larger block is cut off. -/
theorem take_tail (hok : Ok base h (pre ++ P :: Y :: post) B) (hY : Y.1 ≠ base)
    (hn : 0 < nunits) (hlt : nunits < Y.2) :
    Ok base { h with
      mem := update (update h.mem Y.1 ⟨(h.mem Y.1).ptr, Y.2 - nunits⟩) (Y.1 + unit * (Y.2 - nunits))
        ⟨(update h.mem Y.1 ⟨(h.mem Y.1).ptr, Y.2 - nunits⟩
          (Y.1 + unit * (Y.2 - nunits))).ptr, nunits⟩
      freep := P.1 } (pre ++ P :: (Y.1, Y.2 - nunits) :: post)
      ((Y.1 + unit * (Y.2 - nunits), nunits) :: B) := by
  have hYmem : Y ∈ pre ++ P :: Y :: post := by simp
  have hunit : 0 < unit := by decide
  have hcut : 0 < unit * (Y.2 - nunits) := Nat.mul_pos hunit (by omega)
  have hsum : unit * (Y.2 - nunits) + unit * nunits = unit * Y.2 := by
    rw [← Nat.mul_add, Nat.sub_add_cancel hlt.le]
  have hnpos : 0 < unit * nunits := Nat.mul_pos hunit hn
  generalize hq : Y.1 + unit * (Y.2 - nunits) = q at *
  generalize hx : (update h.mem Y.1 ⟨(h.mem Y.1).ptr, Y.2 - nunits⟩ q).ptr = x
  generalize hmem : update (update h.mem Y.1 ⟨(h.mem Y.1).ptr, Y.2 - nunits⟩) q ⟨x, nunits⟩ = mem
  have hYq : Y.1 < q := by omega
  have hqend : q < Y.1 + unit * Y.2 := by omega
  have hrep := hok.rep_next
  obtain ⟨-, hYsorted, hcross⟩ := pairwise_append.mp hrep.sorted
  have hframe : ∀ a, a ≠ Y.1 → a ≠ q → mem a = h.mem a := by
    intro a haY haq
    rw [← hmem, update_of_ne haq, update_of_ne haY]
  have hatY : mem Y.1 = ⟨(h.mem Y.1).ptr, Y.2 - nunits⟩ := by
    rw [← hmem, update_of_ne hYq.ne, update_self]
  have hpost : ∀ n ∈ post, Y.1 + unit * Y.2 < n.1 := (pairwise_cons.mp hYsorted).1
  have hframePost : ∀ n ∈ post, mem n.1 = h.mem n.1 := by
    intro n hn
    have hlt := hpost n hn
    exact hframe _ (by omega) (by omega)
  refine hok.write ?_ (by simp) ?_ (forall_mem_cons.mpr ⟨⟨hn, by simp [← hmem]⟩, fun b hb => ?_⟩)
  · have hnew : Rep base _ ((pre ++ [P]) ++ (Y.1, Y.2 - nunits) :: post) := hrep.relink
      rfl (fun hb => absurd hb hY) (fun n hn => hframe _ ?_ ?_)
      (isChain_rehead hrep.chain_split.2 (by rw [hatY]) fun a ha => ?_)
      (forall_mem_cons.mpr ⟨by rw [hatY], fun n hn => ?_⟩)
      (.cons (fun n hn => ?_) (pairwise_cons.mp hYsorted).2) (forall_mem_cons.mpr
        ⟨fun _ => Nat.sub_pos_of_lt hlt, fun n hn => hrep.pos n (by simp [hn])⟩)
    · simpa using hnew
    · exact (Rep.lt_of_before (hcross n hn Y mem_cons_self)).ne
    · have hnY := Rep.lt_of_before (hcross n hn Y mem_cons_self)
      omega
    · obtain ⟨n, hn, rfl⟩ := mem_map.mp ha
      exact congrArg Header.ptr (hframePost n hn)
    · rw [hframePost n hn, hrep.sizes n (by simp [hn])]
    · have hYn := hpost n hn
      change Y.1 + unit * (Y.2 - nunits) < n.1
      omega
  · have hwhole := hok.tiles.perm ((perm_next B pre post P Y).map Node.ext)
    rw [map_cons, Node.ext, ← hsum] at hwhole
    have hparts : Tiles (((Y.1, Y.2 - nunits) :: (Y.1 + unit * (Y.2 - nunits), nunits) ::
        (B ++ (pre ++ P :: post))).map Node.ext) h.regions := hwhole.cut
    rw [hq] at hparts
    have hperm := (((perm_next B pre post P (Y.1, Y.2 - nunits)).cons (q, nunits)).trans
      (.swap _ _ _)).symm
    exact hparts.perm (hperm.map Node.ext)
  · have hbq : b.1 ≠ q := fun heq =>
      hok.disjoint hb hYmem b.1 (Node.start_mem (hok.out b hb).1) ⟨heq ▸ hYq.le, heq ▸ hqend⟩
    exact hok.out_of_eq hb (hframe _ (hok.addr_ne hb hYmem) hbq)

/-- The block after a node is taken. -/
theorem take {pr : ℕ} (hok : Ok base h N B) (hpr : pr ∈ N.map Prod.fst) (hn : 0 < nunits)
    (hsize : nunits ≤ (h.mem (h.mem pr).ptr).size) :
    ∃ N', Ok base (take h nunits pr (h.mem pr).ptr).1 N'
      (((take h nunits pr (h.mem pr).ptr).2, nunits) :: B) := by
  have hne : (h.mem pr).ptr ≠ base := by
    intro heq
    rw [heq, hok.rep.sizes _ hok.rep.base_mem] at hsize
    exact absurd (hn.trans_le hsize) (Nat.lt_irrefl 0)
  obtain ⟨pre, P, Y, post, rfl, rfl, hY⟩ := hok.rep.exists_pred hpr hne
  rw [← hY] at hsize hne ⊢
  have hYsize := hok.rep.sizes Y (by simp)
  rw [hYsize] at hsize
  unfold Malloc.take
  rw [hYsize]
  split
  next heq =>
    rw [← heq]
    exact ⟨_, hok.take_whole (heq ▸ hn)⟩
  next hdiff => exact ⟨_, hok.take_tail hne hn (Nat.lt_of_le_of_ne hsize (Ne.symm hdiff))⟩

end Take

section Search

variable {nunits : ℕ} {sbrk : List (Option ℕ)}

/-- Once around the list a block is found, or there is none. -/
theorem search_around (hok : Ok base h N B) (hn : 0 < nunits) :
    (∃ k h' q N', (∀ fuel, search nunits (k + fuel) sbrk h h.freep (h.mem h.freep).ptr =
        some (h', some q)) ∧ Ok base h' N' ((q, nunits) :: B)) ∨
    (∀ n ∈ N, n.2 < nunits) ∧ ∃ k pr, ∀ fuel,
      search nunits (k + fuel) sbrk h h.freep (h.mem h.freep).ptr =
        search nunits (fuel + 1) sbrk h pr h.freep := by
  obtain ⟨P, hP, hfreep⟩ := mem_map.mp hok.freep
  obtain ⟨pre, post, rfl⟩ := append_of_mem hP
  have hchain := hok.rep.rotate
  rw [hfreep] at hchain
  have hnodup : ((pre ++ P :: post).map Prod.fst).Nodup := hok.rep.sorted_addr.imp fun hab => hab.ne
  have hseg : h.freep ∉ post.map Prod.fst ++ pre.map Prod.fst := by
    rw [map_append, map_cons, nodup_middle, hfreep] at hnodup
    exact fun hmem => (nodup_cons.mp hnodup).1 (mem_append.mpr (mem_append.mp hmem).symm)
  rcases Rep.search_segment hchain hseg with ⟨pr, hpr, hsize, heq⟩ | ⟨hsmall, pr, heq⟩
  · have hmem : pr ∈ (pre ++ P :: post).map Prod.fst := by
      simp only [map_append, map_cons, hfreep, mem_append, mem_cons] at hpr ⊢
      tauto
    obtain ⟨N', hN'⟩ := hok.take hmem hn hsize
    exact Or.inl ⟨_, _, _, N', heq, hN'⟩
  · refine Or.inr ⟨fun n hnN => ?_, _, pr, heq⟩
    rw [← hok.rep.sizes n hnN]
    refine hsmall _ ?_
    have hmem := mem_map_of_mem (f := Prod.fst) hnN
    simp only [map_append, map_cons, hfreep, mem_append, mem_cons, not_mem_nil, or_false] at hmem ⊢
    tauto

/-- `sbrk` has given a region. -/
theorem grow {u : ℕ} {x : ℕ} (hok : Ok base h N B) (hu : 0 < u) (ha : base < a)
    (hdisj : ∀ r ∈ h.regions, (Extent.mk a (unit * u)).Disjoint r)
    (hbound : Extent.total h.regions + unit * u < unit * 2 ^ 32) :
    Ok base { h with
      mem := update h.mem a ⟨x, u⟩
      regions := ⟨a, unit * u⟩ :: h.regions } N ((a, u) :: B) := by
  have hout : ∀ n ∈ B ++ N, 0 < n.2 → n.1 ≠ a := by
    intro n hn hnpos heq
    obtain ⟨r, hr, hmem⟩ := hok.tiles.inside n.ext (mem_map_of_mem hn) n.1 (Node.start_mem hnpos)
    exact hdisj r hr a (Node.start_mem (n := (a, u)) hu) (heq ▸ hmem)
  refine ⟨hok.rep.congr fun n hn => update_of_ne ?_ _ _, hok.freep, hok.tiles.add hdisj,
    forall_mem_cons.mpr ⟨⟨hu, by simp⟩, fun b hb => hok.out_of_eq hb (update_of_ne ?_ _ _)⟩,
    forall_mem_cons.mpr ⟨ha, hok.above⟩, ?_⟩
  · by_cases hbase : n.1 = base
    · exact hbase ▸ ha.ne
    · exact hout n (mem_append_right _ hn) (hok.rep.pos n hn hbase)
  · exact hout b (mem_append_left _ hb) (hok.out b hb).1
  · simp only [Extent.total, map_cons, sum_cons] at hbound ⊢
    omega

theorem moreUnits_ge (nu : ℕ) : nu ≤ moreUnits nu ∧ 0 < moreUnits nu := by
  unfold moreUnits
  split
  · omega
  · omega

/-- The loop of `malloc` ends, with at most one call of `sbrk`. -/
theorem search {answer : Option ℕ} (hok : Ok base h N B) (hn : 0 < nunits)
    (hfit : ∀ a, answer = some a → base < a ∧
      (∀ r ∈ h.regions, (Extent.mk a (unit * moreUnits nunits)).Disjoint r) ∧
      Extent.total h.regions + unit * moreUnits nunits < unit * 2 ^ 32) :
    ∃ k h' r N', (∀ fuel, search nunits (k + fuel) [answer] h h.freep (h.mem h.freep).ptr =
        some (h', r)) ∧
      Ok base h' N' (r.elim B fun q => (q, nunits) :: B) := by
  rcases hok.search_around hn with ⟨k, h', q, N', heq, hok'⟩ | ⟨hsmall, k, pr, heq⟩
  · exact ⟨k, h', some q, N', heq, hok'⟩
  have hfreep : (h.mem h.freep).size < nunits := by
    obtain ⟨P, hP, hfreep⟩ := mem_map.mp hok.freep
    rw [← hfreep, hok.rep.sizes P hP]
    exact hsmall P hP
  cases answer with
  | none =>
    refine ⟨k, h, none, N, fun fuel => ?_, hok⟩
    rw [heq, Rep.search_morecore hfreep]
    rfl
  | some a =>
    obtain ⟨ha, hdisj, hbound⟩ := hfit a rfl
    obtain ⟨k₁, h₁, N₁, hfree, hok₁, -, n, hnN, hlarge⟩ :=
      (hok.grow (x := (h.mem a).ptr) (moreUnits_ge nunits).2 ha hdisj hbound).free
    -- The list now has a large enough block, so the next round does not end without.
    rcases hok₁.search_around hn with ⟨k₂, h', q, N', heq', hok'⟩ | ⟨hnone, -⟩
    · refine ⟨k + (k₁ + 1 + k₂), h', some q, N', fun fuel => ?_, hok'⟩
      have hmore : morecore (k₁ + 1 + k₂ + fuel) nunits (some a) h =
          some (h₁, some h₁.freep) := by
        have hk := hfree (k₂ + fuel)
        rw [show k₁ + (k₂ + fuel + 1) = k₁ + 1 + k₂ + fuel by omega] at hk
        simp only [morecore, hk, Option.map_some]
      rw [Nat.add_assoc, heq, Rep.search_morecore hfreep, hmore]
      simp only
      rw [show k₁ + 1 + k₂ + fuel = k₂ + (k₁ + 1 + fuel) by omega, heq']
    · exact absurd ((moreUnits_ge nunits).1.trans hlarge) (Nat.not_le.mpr (hnone n hnN))

end Search

end Ok

/-! ## More rounds do not change a result -/

section Fuel

variable {mem : ℕ → Header} {h : Heap} {nunits fuel j : ℕ}

theorem findPlace_mono {q : ℕ} (hq : findPlace mem bp fuel p = some q) :
    findPlace mem bp (fuel + j) p = some q := by
  induction fuel generalizing p with
  | zero => cases hq
  | succ fuel ih =>
    rw [Nat.succ_add]
    unfold findPlace at hq ⊢
    split
    next hstop => rwa [if_pos hstop] at hq
    next hstop =>
      rw [if_neg hstop] at hq
      split
      next hwrap => rwa [if_pos hwrap] at hq
      next hwrap =>
        rw [if_neg hwrap] at hq
        exact ih hq

theorem free_mono {h' : Heap} (hfree : free fuel h bp = some h') :
    free (fuel + j) h bp = some h' := by
  obtain ⟨p, hp, heq⟩ := Option.map_eq_some_iff.mp hfree
  rw [free, findPlace_mono hp, ← heq]
  rfl

theorem morecore_mono {nu : ℕ} {sbrk : Option ℕ} (hr : morecore fuel nu sbrk h = some r) :
    morecore (fuel + j) nu sbrk h = some r := by
  cases sbrk with
  | none => exact hr
  | some hp =>
    obtain ⟨h', hfree, heq⟩ := Option.map_eq_some_iff.mp hr
    rw [morecore, free_mono hfree, ← heq]
    rfl

theorem search_mono {sbrk : List (Option ℕ)} {prevp : ℕ}
    (hr : search nunits fuel sbrk h prevp p = some r) :
    search nunits (fuel + j) sbrk h prevp p = some r := by
  induction fuel generalizing sbrk h prevp p with
  | zero => cases hr
  | succ fuel ih =>
    rw [Nat.succ_add]
    rcases Nat.lt_or_ge (h.mem p).size nunits with hsize | hsize
    · by_cases hp : p = h.freep
      · subst hp
        cases sbrk with
        | nil =>
          rw [search.eq_def] at hr
          cases ((if_neg (Nat.not_le.mpr hsize)).trans (if_pos rfl)).symm.trans hr
        | cons answer sbrk =>
          rw [Rep.search_morecore hsize] at hr ⊢
          cases hmore : morecore fuel nunits answer h with
          | none =>
            rw [hmore] at hr
            cases hr
          | some r' =>
            rw [hmore] at hr
            rw [morecore_mono hmore]
            obtain ⟨h', _ | p⟩ := r'
            · exact hr
            · exact ih hr
      · rw [Rep.search_next hsize hp] at hr ⊢
        exact ih hr
    · rw [Rep.search_found hsize] at hr ⊢
      exact hr

end Fuel

/-! ## Runs -/

def Live.node (b : Live) : Node := (b.addr, b.units)

theorem unitsFor_eq (nbytes : BitVec 32) : unitsFor nbytes = (nbytes.toNat + 15) / 16 + 1 := by
  have hlt := nbytes.isLt
  have hunits : (nbytes.toNat + 15) / 16 + 1 < 2 ^ 32 := by omega
  exact Nat.mod_eq_of_lt hunits

section Runs

variable {base : ℕ} {s t : State}

/-- Nothing has happened yet, or the heap is in order. -/
def Inv (base : ℕ) (s : State) : Prop := (s.heap.freep = 0 ∧ s.heap.regions = [] ∧ s.live = [] ∨
    ∃ N, Ok base s.heap N (s.live.map Live.node)) ∧
  ∀ b ∈ s.live, b.nbytes ≤ unit * (b.units - 1)

/-- After the first lines of `malloc` there is a free list. -/
theorem Inv.start (hbase : 0 < base) (h : Inv base s) :
    ∃ N, Ok base (start base s.heap) N (s.live.map Live.node) ∧
      (start base s.heap).regions = s.heap.regions := by
  rcases h.1 with ⟨hfreep, hregions, hlive⟩ | ⟨N, hok⟩
  · rw [Malloc.start, if_pos hfreep]
    refine ⟨[(base, 0)], ⟨⟨rfl, ?_, by simp, pairwise_singleton _ _, by simp⟩,
      by simp, ?_, by simp [hlive], by simp [hregions], ?_⟩, rfl⟩
    · simp
    · rw [hlive, hregions]
      refine ⟨pairwise_singleton _ _, fun b hb x hx => ?_, rfl⟩
      obtain rfl := mem_singleton.mp hb
      exact absurd hx.2 (Nat.not_lt.mpr hx.1)
    · rw [hregions]
      decide
  · have hne : s.heap.freep ≠ 0 := by
      obtain ⟨n, hn, heq⟩ := mem_map.mp hok.freep
      have hle := hok.rep.base_le hn
      omega
    rw [Malloc.start, if_neg hne]
    exact ⟨N, hok, rfl⟩

/-- `malloc` returns, whatever the number of rounds it needs. -/
theorem Inv.malloc {nbytes : BitVec 32} {sbrk : Option ℕ} {fuel₀ : ℕ} (hbase : 0 < base)
    (h : Inv base s) (hfair : Fair base s (.malloc nbytes sbrk fuel₀)) :
    ∃ k h' r N', (∀ fuel, malloc base (k + fuel) [sbrk] s.heap nbytes = some (h', r)) ∧
      Ok base h' N' (r.elim (s.live.map Live.node) fun q =>
        (q, unitsFor nbytes) :: s.live.map Live.node) := by
  obtain ⟨N, hok, hregions⟩ := h.start hbase
  have hpos : 0 < unitsFor nbytes := by
    rw [unitsFor_eq]
    omega
  refine hok.search hpos fun a ha => ?_
  obtain ⟨-, hdisj⟩ := hfair.1.2 a ha
  obtain ⟨hle, hbound⟩ := hfair.2 a ha
  rw [hregions]
  exact ⟨(Nat.lt_add_of_pos_right (by decide)).trans_le hle, hdisj, hbound⟩

/-- A block that the program has can be freed. -/
theorem Inv.free {b : Live} (h : Inv base s) (hb : b ∈ s.live) :
    ∃ k h' N', (∀ fuel, free (k + fuel) s.heap b.addr = some h') ∧
      Ok base h' N' ((s.live.erase b).map Live.node) := by
  rcases h.1 with ⟨-, -, hlive⟩ | ⟨N, hok⟩
  · rw [hlive] at hb
    exact absurd hb not_mem_nil
  have hperm : (s.live.map Live.node).Perm (b.node :: (s.live.erase b).map Live.node) :=
    (perm_cons_erase hb).map Live.node
  have hok' : Ok base s.heap N (b.node :: (s.live.erase b).map Live.node) :=
    ⟨hok.rep, hok.freep, hok.tiles.perm ((hperm.append_right N).map _),
      fun c hc => hok.out c (hperm.mem_iff.mpr hc), hok.above, hok.bound⟩
  obtain ⟨k, h', N', hfree, hokNew, -⟩ := hok'.free
  refine ⟨k + 1, h', N', fun fuel => ?_, hokNew⟩
  have hk := hfree fuel
  rwa [show k + (fuel + 1) = k + 1 + fuel by omega] at hk

theorem Inv.step {e : Event} (hbase : 0 < base) (h : Inv base s) (hfair : Fair base s e)
    (ht : step base s e = some t) : Inv base t := by
  cases e with
  | malloc nbytes sbrk fuel =>
    obtain ⟨k, h', r, N', hmalloc, hok⟩ := h.malloc hbase hfair
    have hunits := unitsFor_eq nbytes
    cases hres : Malloc.malloc base fuel [sbrk] s.heap nbytes with
    | none =>
      simp only [Malloc.step, hres] at ht
      cases ht
    | some res =>
      have hmore : Malloc.malloc base (fuel + k) [sbrk] s.heap nbytes = some res := search_mono hres
      rw [Nat.add_comm, hmalloc] at hmore
      obtain rfl := Option.some.inj hmore
      simp only [Malloc.step, hres] at ht
      cases r with
      | none =>
        cases ht
        exact ⟨Or.inr ⟨N', hok⟩, h.2⟩
      | some q =>
        cases ht
        refine ⟨Or.inr ⟨N', hok⟩, forall_mem_cons.mpr ⟨?_, h.2⟩⟩
        change nbytes.toNat ≤ 16 * (unitsFor nbytes - 1)
        omega
  | free b fuel =>
    simp only [Malloc.step] at ht
    obtain ⟨hb, ht⟩ := Option.ite_none_right_eq_some.mp ht
    obtain ⟨k, h', N', hfree, hok⟩ := h.free hb
    obtain ⟨h₁, hres, rfl⟩ := Option.map_eq_some_iff.mp ht
    have hmore : Malloc.free (fuel + k) s.heap b.addr = some h₁ := free_mono hres
    rw [Nat.add_comm, hfree] at hmore
    obtain rfl := Option.some.inj hmore
    exact ⟨Or.inr ⟨N', hok⟩, fun c hc => h.2 c (mem_of_mem_erase hc)⟩

theorem Inv.safe (h : Inv base s) : Safe base s := by
  obtain ⟨⟨hfreep, hregions, hlive⟩ | ⟨N, hok⟩, hbytes⟩ := h
  · refine ⟨[], Or.inr ⟨hfreep, rfl⟩, ?_, hbytes⟩
    rw [hlive, hregions]
    exact .nil
  · obtain ⟨l, rfl⟩ := head?_eq_some_iff.mp hok.rep.head
    have hsizes : ∀ n ∈ l, (s.heap.mem n.1).size = n.2 := fun n hn =>
      hok.rep.sizes n (mem_cons_of_mem _ hn)
    refine ⟨l.map Prod.fst, Or.inl ⟨hok.rep.circle, hok.rep.sorted_addr, ?_, hok.freep⟩, ?_, hbytes⟩
    · refine pairwise_map.mpr
        ((pairwise_cons.mp hok.rep.sorted).2.imp_of_mem fun ha _ hab heq => ?_)
      rw [hsizes _ ha] at heq
      exact absurd heq (Nat.ne_of_lt hab)
    · -- `base` has no units and can be left out of the tiling.
      have htiles := hok.tiles.perm ((perm_at (s.live.map Live.node) [] l (base, 0)).map Node.ext)
      have hfree : (l.map Prod.fst).map (fun a =>
          (⟨a, unit * (s.heap.mem a).size⟩ : Extent)) = l.map Node.ext := by
        rw [map_map]
        refine map_congr_left fun n hn => ?_
        simp only [comp, hsizes n hn]
        rfl
      have hlive : s.live.map Live.ext = (s.live.map Live.node).map Node.ext := by
        rw [map_map]
        rfl
      rw [hfree, hlive, ← map_append]
      exact Tiles.of_cons htiles rfl

/-- In every run of requests below `2 ^ 31` bytes, with regions above `base` of less than
`2 ^ 32` units in all, the heap is safe, and the next call comes to an end. -/
theorem malloc_safe {base : ℕ} {s t : State} {es : List Event} (hbase : 0 < base)
    (hs : (system base).init s) (hfair : (system base).Meets (Fair base) s es)
    (hrun : (system base).run s es = some t) :
    Safe base t ∧ (∀ nbytes sbrk, Fair base t (.malloc nbytes sbrk 0) →
        ∃ k, ∀ fuel, (step base t (.malloc nbytes sbrk (k + fuel))).isSome) ∧
      ∀ b ∈ t.live, ∃ k, ∀ fuel, (step base t (.free b (k + fuel))).isSome := by
  have hstart : Inv base s := ⟨Or.inl hs, by simp [hs.2.2]⟩
  have hinv : Inv base t := hfair.invariant
    (fun _ _ _ h hok ht => Inv.step hbase h hok ht) hstart hrun
  refine ⟨hinv.safe, fun nbytes sbrk hok => ?_, fun b hb => ?_⟩
  · obtain ⟨k, h', r, N', hmalloc, -⟩ := hinv.malloc hbase hok
    refine ⟨k, fun fuel => ?_⟩
    simp only [step, hmalloc]
    cases r with
    | none => rfl
    | some q => rfl
  · obtain ⟨k, h', N', hfree, -⟩ := hinv.free hb
    refine ⟨k, fun fuel => ?_⟩
    simp only [step, if_pos hb, hfree]
    rfl

end Runs

/-! ## Runs on fixed requests -/

/-- No memory has been obtained. -/
def boot : State := ⟨⟨fun _ => ⟨0, 0⟩, 0, []⟩, []⟩

/-- Two blocks are cut from one region, and the first is freed. -/
def cutAndFree : List Event :=
  [.malloc 100 (some 8192) 10, .malloc 50 none 10, .free ⟨73600, 8, 100⟩ 10]

theorem malloc_safe_cutAndFree : ∃ t, (system 4096).run boot cutAndFree = some t ∧
      t.live = [⟨73520, 5, 50⟩] ∧ Safe 4096 t := by
  obtain ⟨t, ht, hlive⟩ : ∃ t, (system 4096).run boot cutAndFree = some t ∧
      t.live = [⟨73520, 5, 50⟩] := EventSystem.exists_of_any_run (by decide +kernel)
  have hfair : (system 4096).Meets (Fair 4096) boot cutAndFree := by
    refine ⟨⟨⟨by decide, fun a ha => ?_⟩, fun a ha => ?_⟩, fun _ _ =>
      ⟨⟨⟨by decide, by simp⟩, by simp⟩, fun _ _ => ⟨trivial, fun _ _ => trivial⟩⟩⟩
    · cases ha
      exact ⟨by decide, by simp [boot]⟩
    · cases ha
      exact ⟨by decide, by decide⟩
  exact ⟨t, ht, hlive, (malloc_safe (by decide) ⟨rfl, rfl, rfl⟩ hfair ht).1⟩

/-- A free list of one block besides `base`. -/
theorem FreeList.eq_singleton {base : ℕ} {h : Heap} {l : List ℕ}
    (hl : FreeList base h l) (hbase : (h.mem base).ptr = a) (ha : (h.mem a).ptr = base)
    (hne : a ≠ base) : l = [a] := by
  cases l with
  | nil => exact absurd (hbase.symm.trans (isChain_cons_cons.mp hl.circle).1) hne
  | cons b l =>
    obtain ⟨hptr, htail⟩ := isChain_cons_cons.mp hl.circle
    obtain rfl : a = b := hbase.symm.trans hptr
    cases l with
    | nil => rfl
    | cons c l =>
      obtain ⟨hc, -⟩ := isChain_cons_cons.mp htail
      have hlt : base < c := (pairwise_cons.mp hl.sorted).1 c (by simp)
      exact absurd (ha.symm.trans hc) hlt.ne

/-- The second region ends at `base`, which is 1048576.  When both blocks have been
freed `base` is no longer in the list. -/
def regionBelowBase : List Event := [.malloc 65520 (some 65536) 10, .malloc 65520 (some 983040) 10,
    .free ⟨65536, 4096, 65520⟩ 10, .free ⟨983040, 4096, 65520⟩ 10,
    .malloc 65520 none 10, .malloc 65520 none 10, .malloc 65520 none 10]

/-- The address of one of the adjacent regions in `manyRegions`. -/
def regionAt (i : ℕ) : ℕ := 2097152 + i * (unit * 134217727)

/-- 33 regions of nearly `2 ^ 27` units, whose blocks are all freed. -/
def manyRegions : List Event :=
  (range 33).map (fun i => .malloc 2147483616 (some (regionAt i)) 50) ++
    (range 33).map fun i => .free ⟨regionAt i, 134217727, 2147483616⟩ 50

/-- With a region that ends at `base` the same block is given out twice.  With regions
above `base` of more than `2 ^ 32` units the size of a joined block wraps. -/
theorem malloc_unsafe : (∃ t, (system 1048576).Meets Regular boot regionBelowBase ∧
      (system 1048576).run boot regionBelowBase = some t ∧ ¬ Safe 1048576 t) ∧
    ∃ t, (system 1048576).Meets Regular boot manyRegions ∧
      (system 1048576).run boot manyRegions = some t ∧ ¬ Safe 1048576 t := by
  refine ⟨?_, ?_⟩
  · obtain ⟨t, ht, hlive⟩ : ∃ t, (system 1048576).run boot regionBelowBase = some t ∧
        t.live = [⟨65536, 4096, 65520⟩, ⟨65536, 4096, 65520⟩, ⟨983040, 4096, 65520⟩] :=
      EventSystem.exists_of_any_run (by decide +kernel)
    refine ⟨t, by decide +kernel, ht, ?_⟩
    rintro ⟨l, -, htiles, -⟩
    have hpair := htiles.disjoint
    rw [hlive, map_cons, map_cons, cons_append, cons_append] at hpair
    have htwice := (pairwise_cons.mp hpair).1 _ mem_cons_self
    exact htwice 65536 ⟨by decide, by decide⟩ ⟨by decide, by decide⟩
  · obtain ⟨t, ht, hlive, hfreep, hbase, hback, hsize⟩ :
        ∃ t, (system 1048576).run boot manyRegions = some t ∧ t.live = [] ∧
        t.heap.freep ≠ 0 ∧ (t.heap.mem 1048576).ptr = regionAt 0 ∧
        (t.heap.mem (regionAt 0)).ptr = 1048576 ∧
        unit * (t.heap.mem (regionAt 0)).size ≠ Extent.total t.heap.regions :=
      EventSystem.exists_of_any_run (by decide +kernel)
    refine ⟨t, by decide +kernel, ht, ?_⟩
    rintro ⟨l, hl | hl, htiles, -⟩
    · obtain rfl := hl.eq_singleton hbase hback (by decide)
      have htotal := htiles.total
      rw [hlive] at htotal
      exact hsize (by simpa [Extent.total] using htotal)
    · exact hfreep hl.1

end OsCa.Malloc
