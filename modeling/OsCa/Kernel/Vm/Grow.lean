import OsCa.Support.Fallible
import OsCa.Kernel.Vm.Frames
import Mathlib.Data.Finset.Card

/-!
# Growing and shrinking a process

The page table of a process maps exactly the pages below its size, the trapframe and the
trampoline, and every user page has a frame of its own.  `growproc` keeps this up and sets the
size to the sum, or fails and changes nothing, unless it is asked to take away more than the
process has.  In this case the new size wraps, `uvmdealloc` takes it for a larger one, and
`growproc` reports success.
-/

namespace OsCa.Vm

open Bytes OsCa.Action Radix List
open Fs (PGSIZE)

/-- The page table `root` is that of a process of size `sz`. -/
structure AddressSpace (kend : ℕ) (s : Machine) (root : Addr) (sz : ℕ) : Prop
    extends Sound kend s root where
  mapped : ∀ v < NPAGES, (lookup s root v).isSome ↔
    v < pagesOf sz ∨ v = TRAPFRAME / PGSIZE ∨ v = TRAMPOLINE / PGSIZE
  user : ∀ v < pagesOf sz, ∀ e, lookup s root v = some e → PTE_FLAGS e ≠ PTE_V ∧
    InRam kend (PTE2PA e) ∧ PTE2PA e ∉ tables s root ∧ PTE2PA e ∉ s.freelist
  inj : ∀ v w e e', v < pagesOf sz → w < pagesOf sz → lookup s root v = some e →
    lookup s root w = some e' → PTE2PA e = PTE2PA e' → v = w

variable {kend sz newsz : ℕ} {s t : Machine} {root : Addr} {E : Panic → Prop}

theorem InRam.ext {a b : Addr} (hk : KERNBASE ≤ kend) (ha : InRam kend a) (hb : InRam kend b)
    (h : a.toNat / PGSIZE - KERNBASE / PGSIZE = b.toNat / PGSIZE - KERNBASE / PGSIZE) :
    a = b := by
  obtain ⟨ha, halo, -⟩ := ha
  obtain ⟨hb, hblo, -⟩ := hb
  refine BitVec.eq_of_toNat_eq ?_
  unfold Fs.PGSIZE at ha hb h
  unfold KERNBASE at hk h
  omega

namespace AddressSpace

section

variable (h : AddressSpace kend s root sz)

include h

/-- A process has no more pages than there are in memory. -/
theorem pages_le (hk : KERNBASE ≤ kend) : pagesOf sz ≤ 32768 := by
  by_contra hmany
  have hsome : ∀ v ∈ Finset.range 32769, ∃ e, lookup s root v = some e := fun v hv => by
    rw [Finset.mem_range] at hv
    exact Option.isSome_iff_exists.mp
      ((h.mapped v (lt_trans hv (by decide))).mpr (Or.inl (by omega)))
  let frame : ℕ → ℕ := fun v =>
    (PTE2PA ((lookup s root v).getD 0)).toNat / PGSIZE - KERNBASE / PGSIZE
  have hmaps : Set.MapsTo frame (Finset.range 32769) (Finset.range 32768) := fun v hv => by
    obtain ⟨e, he⟩ := hsome v hv
    rw [Finset.coe_range, Set.mem_Iio] at hv
    obtain ⟨-, -, hhi⟩ := (h.user v (by omega) e he).2.1
    simp only [frame, he, Option.getD_some, Finset.coe_range, Set.mem_Iio]
    unfold PHYSTOP KERNBASE at hhi
    unfold KERNBASE Fs.PGSIZE
    omega
  obtain ⟨v, hv, w, hw, hne, heq⟩ := Finset.exists_ne_map_eq_of_card_lt_of_maps_to (by simp) hmaps
  obtain ⟨e, he⟩ := hsome v hv
  obtain ⟨e', he'⟩ := hsome w hw
  rw [Finset.mem_range] at hv hw
  simp only [frame, he, he', Option.getD_some] at heq
  refine hne (h.inj v w e e' (by omega) (by omega) he he' (InRam.ext hk ?_ ?_ heq))
  · exact (h.user v (by omega) e he).2.1
  · exact (h.user w (by omega) e' he').2.1

theorem sz_le (hk : KERNBASE ≤ kend) : sz ≤ 2 ^ 27 := by
  have hle := h.pages_le hk
  unfold pagesOf rounds Fs.PGSIZE at hle
  omega

theorem lookup_none {v : ℕ} (hlo : pagesOf sz ≤ v) (hhi : v < 2 ^ 25) : lookup s root v = none := by
  have hv : v < NPAGES := lt_trans hhi (by decide)
  rw [← Option.not_isSome_iff_eq_none, h.mapped v hv]
  rintro (hlt | rfl | rfl)
  · omega
  · exact absurd hhi (by decide)
  · exact absurd hhi (by decide)

theorem exists_entry (hk : KERNBASE ≤ kend) {v : ℕ} (hv : v < pagesOf sz) :
    ∃ e, lookup s root v = some e :=
  Option.isSome_iff_exists.mp ((h.mapped v
    (lt_of_lt_of_le hv ((h.pages_le hk).trans (by decide)))).mpr (Or.inl hv))

/-- The user pages below both sizes and their bytes are the same. -/
def Survives (root : Addr) (s t : Machine) (sz : ℕ) : Prop :=
  ∀ v < pagesOf sz, ∀ e, lookup s root v = some e →
    lookup t root v = some e ∧ t.mem (PTE2PA e) = s.mem (PTE2PA e)

theorem grown {new fs : List Addr} (hg : Grown root (pagesOf sz) s t new fs)
    (hlen : fs.length = pagesOf newsz - pagesOf sz) (hle : sz ≤ newsz)
    (hmax : pagesOf newsz < 2 ^ 25) :
    AddressSpace kend t root newsz ∧ Survives root s t sz := by
  have hmono := pagesOf_mono hle
  have hNP : (2 : ℕ) ^ 25 < NPAGES := by decide
  have hrange : pagesOf sz + fs.length = pagesOf newsz := by omega
  have hlook := hg.lookup
  rw [hrange] at hlook
  have hs := h.toSound
  have hfs : ∀ i < fs.length, fs.getD i 0 ∈ s.freelist := fun i hi =>
    hg.toTaken.free_of_mem (mem_append_left _ (mem_append_right _ (Populated.getD_mem hi)))
  have holdtable : ∀ a, a ∉ tables s root → a ∉ s.freelist → a ∉ tables t root ∧
      a ∉ t.freelist := fun a htable hfree => by
    rw [hg.tables, not_or]
    refine ⟨⟨htable, fun hnew => hfree (hg.toTaken.free_of_mem ?_)⟩,
      fun hin => hfree (hg.toTaken.free_of_mem (mem_append_right _ hin))⟩
    exact mem_append_left _ (mem_append_left _ hnew)
  -- A page of the process is one it had or a new one.
  have hcases : ∀ v < pagesOf newsz, ∀ e, lookup t root v = some e →
      v < pagesOf sz ∧ lookup s root v = some e ∨
      pagesOf sz ≤ v ∧ v - pagesOf sz < fs.length ∧ e = newPte (fs.getD (v - pagesOf sz) 0)
        userFlags ∧ PTE2PA e = fs.getD (v - pagesOf sz) 0 := fun v hv e he => by
    rw [hlook v (by omega)] at he
    split at he
    next hin =>
      have hi : v - pagesOf sz < fs.length := by omega
      obtain rfl := Option.some.inj he
      exact Or.inr ⟨hin.1, hi, rfl, PTE2PA_newPte (hs.ram _ (hfs _ hi)).1 (by decide)⟩
    next hout => exact Or.inl ⟨by omega, he⟩
  refine ⟨⟨hg.toTaken.sound hs, fun v hv => ?_, fun v hv e he => ?_,
    fun v w e e' hv hw he he' heq => ?_⟩, fun v hv e he => ⟨?_, ?_⟩⟩
  · rw [hlook v hv]
    split
    next hin => exact iff_of_true rfl (Or.inl hin.2)
    next hout =>
      rw [h.mapped v hv]
      exact or_congr_left (by omega)
  · rcases hcases v hv e he with ⟨hold, hbefore⟩ | ⟨hlo, hi, rfl, hpa⟩
    · obtain ⟨hleaf, hram, htable, hfree⟩ := h.user v hold e hbefore
      exact ⟨hleaf, hram, holdtable _ htable hfree⟩
    · rw [PTE_FLAGS_newPte (by decide), hpa]
      exact ⟨by decide, hs.ram _ (hfs _ hi), hg.toTaken.apart hs (Populated.getD_mem hi)⟩
  · rcases hcases v hv e he with ⟨hv', hbefore⟩ | ⟨hlo, hi, -, hpa⟩
    · rcases hcases w hw e' he' with ⟨hw', hbefore'⟩ | ⟨hlo', hi', -, hpa'⟩
      · exact h.inj v w e e' hv' hw' hbefore hbefore' heq
      · rw [hpa'] at heq
        exact absurd (heq ▸ hfs _ hi') (h.user v hv' e hbefore).2.2.2
    · rcases hcases w hw e' he' with ⟨hw', hbefore'⟩ | ⟨hlo', hi', -, hpa'⟩
      · rw [hpa] at heq
        exact absurd (heq ▸ hfs _ hi) (h.user w hw' e' hbefore').2.2.2
      · have hnodup : fs.Nodup := (nodup_append.mp (nodup_append.mp (hg.toTaken.nodup hs)).1).2.1
        rw [hpa, hpa', getD_eq_getElem _ _ hi, getD_eq_getElem _ _ hi',
          hnodup.getElem_inj_iff] at heq
        omega
  · rw [hlook v (by omega), if_neg (by omega), he]
  · obtain ⟨-, -, htable, hfree⟩ := h.user v hv e he
    exact hg.other _ htable hfree

theorem shrunk (hk : KERNBASE ≤ kend) (hle : newsz ≤ sz) {e : ℕ → Pte}
    (he : ∀ w < pagesOf sz, lookup s root w = some (e w))
    (hd : Drops root s t ((range' (pagesOf newsz) (pagesOf sz - pagesOf newsz)).flatMap
      fun w => freed true (e w))
      (dropRange (lookup s root) (pagesOf newsz) (pagesOf sz - pagesOf newsz))) :
    AddressSpace kend t root newsz ∧ Survives root s t newsz := by
  have hmono := pagesOf_mono hle
  have hmax := h.pages_le hk
  have hNP : 32768 < NPAGES := by decide
  rw [flatMap_freed] at hd
  set frames := (range' (pagesOf newsz) (pagesOf sz - pagesOf newsz)).map
    fun w => PTE2PA (e w) with hframes
  have hmem : ∀ a, a ∈ frames ↔ ∃ w, pagesOf newsz ≤ w ∧ w < pagesOf sz ∧ PTE2PA (e w) = a :=
    fun a => by
      rw [hframes, mem_map]
      refine exists_congr fun w => ?_
      rw [mem_range'_1]
      constructor
      · rintro ⟨⟨hlo, hhi⟩, rfl⟩
        exact ⟨hlo, by omega, rfl⟩
      · rintro ⟨hlo, hhi, rfl⟩
        exact ⟨⟨hlo, by omega⟩, rfl⟩
  have hframe : ∀ a ∈ frames, InRam kend a ∧ a ∉ tables s root ∧ a ∉ s.freelist := fun a ha => by
      obtain ⟨w, -, hw, rfl⟩ := (hmem a).mp ha
      exact (h.user w hw _ (he w hw)).2
  have hnodup : frames.Nodup := by
    refine List.Nodup.map_on (fun v hv w hw heq => ?_) nodup_range'
    rw [mem_range'_1] at hv hw
    exact h.inj v w _ _ (by omega) (by omega) (he v (by omega)) (he w (by omega)) heq
  have hkept : ∀ v < pagesOf newsz, ∀ e', lookup s root v = some e' → PTE2PA e' ∉ frames :=
    fun v hv e' he' hin => by
      obtain ⟨w, hlo, hw, heq⟩ := (hmem _).mp hin
      have := h.inj v w _ _ (by omega) hw he' (he w hw) heq.symm
      omega
  have hbelow : ∀ v < pagesOf newsz, lookup t root v = lookup s root v := fun v hv => by
    rw [hd.lookup v (by omega), dropRange, if_neg (by omega)]
  refine ⟨⟨⟨hd.separate, ?_, fun a ha => ?_, fun a ha => ?_⟩, fun v hv => ?_,
    fun v hv e' he' => ?_, fun v w e' e'' hv hw he' he'' heq => ?_⟩,
    fun v hv e' he' => ⟨(hbelow v hv).trans he', ?_⟩⟩
  · rw [hd.freelist.nodup_iff, nodup_append]
    refine ⟨hnodup, h.nodup, fun a ha b hb heq => ?_⟩
    exact (hframe a ha).2.2 (heq ▸ hb)
  · rcases mem_append.mp (hd.freelist.mem_iff.mp ha) with hin | hin
    · exact (hframe a hin).1
    · exact h.ram a hin
  · rw [hd.tables]
    rcases mem_append.mp (hd.freelist.mem_iff.mp ha) with hin | hin
    · exact (hframe a hin).2.1
    · exact h.apart a hin
  · rw [hd.lookup v hv, dropRange]
    split
    next hin =>
      have hsmall : v < 2 ^ 25 := by omega
      refine iff_of_false (by simp) ?_
      rintro (hlt | rfl | rfl)
      · omega
      · exact absurd hsmall (by decide)
      · exact absurd hsmall (by decide)
    next hout =>
      rw [h.mapped v hv]
      exact or_congr_left (by omega)
  · rw [hbelow v hv] at he'
    obtain ⟨hleaf, hram, htable, hfree⟩ := h.user v (by omega) e' he'
    refine ⟨hleaf, hram, by rwa [hd.tables], ?_⟩
    rw [hd.freelist.mem_iff, mem_append, not_or]
    exact ⟨hkept v hv e' he', hfree⟩
  · rw [hbelow v hv] at he'
    rw [hbelow w hw] at he''
    exact h.inj v w e' e'' (by omega) (by omega) he' he'' heq
  · obtain ⟨-, -, htable, -⟩ := h.user v (by omega) e' he'
    exact hd.other _ htable (hkept v hv e' he')

end

end AddressSpace

/-! ## `growproc` -/

/-- `growproc` has failed and changed nothing, apart from new tables, or it has changed the
size by `n`. -/
def Exact (kend : ℕ) (s : Machine) (root : Addr) (sz : ℕ) (n : ℤ) (r : ℤ) (sz' : ℕ)
    (t : Machine) : Prop :=
  r = -1 ∧ sz' = sz ∧ (∀ v < NPAGES, lookup t root v = lookup s root v) ∧
      AddressSpace.Survives root s t sz ∧
      (∃ new, (new ++ t.freelist).Perm s.freelist ∧
        ∀ a, a ∈ tables t root ↔ a ∈ tables s root ∨ a ∈ new) ∨
    r = 0 ∧ (sz' : ℤ) = sz + n ∧ AddressSpace kend t root sz' ∧
      AddressSpace.Survives root s t (min sz sz')

theorem growproc_grow (h : AddressSpace kend s root sz) (hk : KERNBASE ≤ kend)
    (n : BitVec 32) (hpos : 0 < n.toInt) :
    wp (growproc kend root sz n) s (fun r t => Exact kend s root sz n.toInt r.1 r.2 t) E := by
  have hsz := h.sz_le hk
  have hn : (n.toNat : ℤ) = n.toInt := by
    rw [BitVec.toInt_eq_toNat_cond] at hpos ⊢
    split at hpos
    next hlt => rw [if_pos hlt]
    next => omega
  have hlt : n.toNat < 2 ^ 31 := by
    have := BitVec.toInt_lt (x := n)
    omega
  unfold growproc
  rw [Nat.mod_eq_of_lt (by omega : sz < 2 ^ 32), if_pos hpos,
    Nat.mod_eq_of_lt (by omega : sz + n.toNat < 2 ^ 32)]
  have hmax : pagesOf (sz + n.toNat) < 2 ^ 25 := by
    unfold pagesOf rounds Fs.PGSIZE
    omega
  have hva : sz + n.toNat ≤ MAXVA := by
    unfold MAXVA
    omega
  refine wp_bind (uvmalloc_spec h.toSound (Nat.le_add_right sz n.toNat) hva
    fun v hlo hhi => h.lookup_none hlo (by omega)) ?_
  rintro r t (⟨rfl, new, fs, hlen, hg⟩ | ⟨rfl, new, hg⟩)
  · rw [Nat.mod_eq_of_lt (by omega : sz + n.toNat < 2 ^ 32), if_neg (by omega)]
    obtain ⟨hspace, hkeep⟩ := h.grown hg hlen (Nat.le_add_right sz n.toNat) hmax
    refine wp_pure (Or.inr ⟨rfl, by push_cast; omega, hspace, ?_⟩)
    rwa [min_eq_left (Nat.le_add_right sz n.toNat)]
  · rw [Nat.zero_mod, if_pos rfl]
    have hlook : ∀ v < NPAGES, lookup t root v = lookup s root v := fun v hv => by
      rw [hg.lookup v hv, if_neg]
      rw [length_nil]
      omega
    refine wp_pure (Or.inl ⟨rfl, rfl, hlook, fun v hv e he => ⟨?_, ?_⟩, new, ?_, hg.tables⟩)
    · have := h.pages_le hk
      rw [hlook v (lt_of_lt_of_le hv (this.trans (by decide))), he]
    · obtain ⟨-, -, htable, hfree⟩ := h.user v hv e he
      exact hg.other _ htable hfree
    · have := hg.perm
      rwa [append_nil] at this

theorem growproc_shrink (h : AddressSpace kend s root sz) (hk : KERNBASE ≤ kend)
    (n : BitVec 32) (hneg : n.toInt < 0) (hle : 0 ≤ (sz : ℤ) + n.toInt) :
    wp (growproc kend root sz n) s (fun r t => Exact kend s root sz n.toInt r.1 r.2 t) E := by
  have hsz := h.sz_le hk
  have hn : (n.toNat : ℤ) = n.toInt + 2 ^ 32 := by
    rw [BitVec.toInt_eq_toNat_cond] at hneg ⊢
    split at hneg <;> omega
  obtain ⟨newsz, hnew⟩ : ∃ newsz : ℕ, (newsz : ℤ) = sz + n.toInt := ⟨_, Int.toNat_of_nonneg hle⟩
  have hmod : (sz + n.toNat) % 2 ^ 32 = newsz := by omega
  unfold growproc
  rw [Nat.mod_eq_of_lt (by omega : sz < 2 ^ 32), if_neg (by omega), if_pos hneg, hmod,
    uvmdealloc_eq (by unfold MAXVA; omega)]
  have hentry : ∀ w < pagesOf sz, lookup s root w = some ((lookup s root w).getD 0) :=
    fun w hw => by
      obtain ⟨e, he⟩ := h.exists_entry hk hw
      rw [he, Option.getD_some]
  have hmono : pagesOf newsz ≤ pagesOf sz := pagesOf_mono (by omega)
  have hmax := h.pages_le hk
  have hNP : 32768 < NPAGES := by decide
  have hunmap : wp (uvmunmap kend root (pagesOf newsz * PGSIZE) (pagesOf sz - pagesOf newsz)
      true) s (fun _ t => AddressSpace kend t root newsz ∧
        AddressSpace.Survives root s t newsz) E := by
    refine wp_mono (uvmunmap_spec h.separate (by omega) fun w hlo hhi => ?_)
      fun _ t ht => h.shrunk hk (by omega) hentry ht
    have hw : w < pagesOf sz := by omega
    obtain ⟨hleaf, hram, htable, -⟩ := h.user w hw _ (hentry w hw)
    refine ⟨hentry w hw, hleaf, fun a ha => ?_⟩
    obtain rfl := mem_singleton.mp ha
    exact ⟨hram, htable⟩
  refine wp_bind (wp_bind hunmap fun _ t ht => wp_pure (Q := fun r t => r = newsz ∧
    AddressSpace kend t root newsz ∧ AddressSpace.Survives root s t newsz)
    ⟨min_eq_left (by omega), ht⟩) ?_
  rintro r t ⟨rfl, hspace, hkeep⟩
  rw [Nat.mod_eq_of_lt (by omega)]
  refine wp_pure (Or.inr ⟨rfl, hnew, hspace, ?_⟩)
  rwa [min_eq_right (by omega)]

/-- A shrink by more than the size is not noticed. -/
theorem growproc_below (n : BitVec 32) (hsz : sz ≤ 2 ^ 27) (hlt : (sz : ℤ) + n.toInt < 0) :
    growproc kend root sz n s = .ok ((0, sz), s) := by
  have hneg : n.toInt < 0 := by omega
  have hn : (n.toNat : ℤ) = n.toInt + 2 ^ 32 := by
    rw [BitVec.toInt_eq_toNat_cond] at hneg ⊢
    split at hneg <;> omega
  have hlo := BitVec.le_toInt (x := n)
  have hmod : (sz + n.toNat) % 2 ^ 32 ≥ sz := by omega
  unfold growproc
  rw [Nat.mod_eq_of_lt (by omega : sz < 2 ^ 32), if_neg (by omega), if_pos hneg, uvmdealloc,
    if_pos hmod]
  change Except.ok ((0, sz % 2 ^ 32), s) = _
  rw [Nat.mod_eq_of_lt (by omega)]

/-- `growproc` is exact if and only if the process keeps a size that is not negative. -/
theorem growproc_exact (hk : KERNBASE ≤ kend) (h : AddressSpace kend s root sz) (n : BitVec 32) :
    ∃ r sz' t, growproc kend root sz n s = .ok ((r, sz'), t) ∧
      (Exact kend s root sz n.toInt r sz' t ↔ 0 ≤ (sz : ℤ) + n.toInt) := by
  rcases lt_or_ge ((sz : ℤ) + n.toInt) 0 with hbelow | hle
  · refine ⟨0, sz, s, growproc_below n (h.sz_le hk) hbelow, iff_of_false ?_ (by omega)⟩
    rintro (⟨hr, -⟩ | ⟨-, hsum, -⟩)
    · exact absurd hr (by decide)
    · omega
  · have hexact : wp (growproc kend root sz n) s
        (fun r t => Exact kend s root sz n.toInt r.1 r.2 t) fun _ => False := by
      rcases lt_trichotomy n.toInt 0 with hneg | hzero | hpos
      · exact growproc_shrink h hk n hneg hle
      · unfold growproc
        rw [if_neg (by omega), if_neg (by omega),
          Nat.mod_eq_of_lt (lt_of_le_of_lt (h.sz_le hk) (by decide))]
        refine wp_pure (Or.inr ⟨rfl, by omega, h, fun v _ e he => ⟨he, rfl⟩⟩)
      · exact growproc_grow h hk n hpos
    obtain ⟨⟨r, sz'⟩, t, hrun, hres⟩ := exists_of_wp hexact
    exact ⟨r, sz', t, hrun, iff_of_true hres hle⟩

/-! ## A process without user pages -/

/-- Memory of zeros with eight free pages. -/
def bare : Machine where
  mem _ _ := 0
  freelist := (range 8).map fun i => BitVec.ofNat 64 (KERNBASE + (i + 1) * PGSIZE)
  dry := []

def bareRoot : Addr := BitVec.ofNat 64 KERNBASE

/-- Map the trampoline and the trapframe. -/
def mapTop : M (ℤ × ℤ) := do
  let r ← mappages bareRoot (TRAMPOLINE / PGSIZE * PGSIZE) PGSIZE bareRoot (PTE_R ||| PTE_X)
  let r' ← mappages bareRoot (TRAPFRAME / PGSIZE * PGSIZE) PGSIZE bareRoot (PTE_R ||| PTE_W)
  return (r, r')

section Empty

variable {s : Machine} {root : Addr} (hnone : ∀ i, next (s.pte root i) = none)
include hnone

theorem descend_empty {p : List ℕ} {a : Addr} (h : descend next s.pte root p = some a) :
    p = [] ∧ a = root := by
  cases p with
  | nil => exact ⟨rfl, (Option.some.inj h).symm⟩
  | cons i p =>
    rw [descend, hnone] at h
    cases h

theorem lookup_empty (v : ℕ) : lookup s root v = none := by
  rw [lookup, leafTable, walkPath, descend, hnone]
  rfl

theorem sound_empty (hfree : s.freelist = bare.freelist) (hroot : root ∉ bare.freelist) :
    Sound KERNBASE s root := by
  refine ⟨fun p q a _ _ hp hq => ?_, by rw [hfree]; decide, fun a ha => ?_, fun a ha => ?_⟩
  · rw [(descend_empty hnone hp).1, (descend_empty hnone hq).1]
  · rw [hfree] at ha
    obtain ⟨i, hi, rfl⟩ := mem_map.mp ha
    rw [mem_range] at hi
    unfold InRam PHYSTOP KERNBASE Fs.PGSIZE
    rw [BitVec.toNat_ofNat]
    omega
  · rintro ⟨p, -, hp⟩
    rw [(descend_empty hnone hp).2, hfree] at ha
    exact hroot ha

end Empty

theorem next_bare (a : Addr) (i : ℕ) : next (bare.pte a i) = none := by
  have hzero : bare.pte a i = 0 := by
    refine word_of_bytes fun j _ => ?_
    unfold peek
    split <;> simp [bare]
  rw [hzero]
  rfl

theorem lookup_bare (v : ℕ) : lookup bare bareRoot v = none := lookup_empty (next_bare _) v

theorem sound_bare : Sound KERNBASE bare bareRoot := sound_empty (next_bare _) rfl (by decide)

/-- There is a process without user pages, and memory for one. -/
theorem exists_addressSpace : ∃ s, AddressSpace KERNBASE s bareRoot 0 ∧
    ∃ r, growproc KERNBASE bareRoot 0 4096 s = .ok r ∧ r.1 = (0, 4096) := by
  have hspace : wp mapTop bare
      (fun r t => r = (0, 0) → AddressSpace KERNBASE t bareRoot 0) fun _ => True := by
    refine wp_bind (mappages_page_spec sound_bare (by decide) (lookup_bare _)) ?_
    rintro r s ⟨new, ⟨rfl, hs⟩ | ⟨rfl, -⟩⟩
    · refine wp_bind (mappages_page_spec (hs.sound sound_bare) (by decide) ?_) ?_
      · rw [hs.lookup _ (by decide), Function.update_of_ne (by decide), lookup_bare]
      rintro r t ⟨new', ⟨rfl, ht⟩ | ⟨rfl, -⟩⟩
      · refine wp_pure fun _ => ⟨ht.sound (hs.sound sound_bare), fun v hv => ?_,
          fun v hv => absurd hv (Nat.not_lt_zero v),
          fun v w _ _ hv => absurd hv (Nat.not_lt_zero v)⟩
        rw [ht.lookup v hv, Function.update_apply, hs.lookup v hv, Function.update_apply,
          lookup_bare]
        have hzero : ¬ v < pagesOf 0 := Nat.not_lt_zero v
        split_ifs with htf htr
        · simp [htf]
        · simp [htr]
        · simp [htf, htr, hzero]
      · exact wp_pure fun h => absurd h (by decide)
    · refine wp_bind (R := fun _ _ => True) (wp_iff.mpr ⟨fun _ _ _ => trivial,
        fun _ _ => trivial⟩) fun r' t _ => wp_pure fun h => ?_
      have hfst : (-1 : ℤ) = 0 := congrArg Prod.fst h
      exact absurd hfst (by decide)
  obtain ⟨r, hrun, hr, hgrow⟩ : ∃ r, mapTop bare = .ok r ∧ r.1 = (0, 0) ∧
      (growproc KERNBASE bareRoot 0 4096 r.2).toOption.any (·.1 = (0, 4096)) = true :=
    Fallible.exists_ok_of_any (by decide +kernel)
  exact ⟨r.2, wp_ok hspace hrun hr, Fallible.exists_ok_of_any hgrow⟩

theorem growproc_exact_bare : ∃ s, AddressSpace KERNBASE s bareRoot 0 ∧ ∃ r sz' t,
      growproc KERNBASE bareRoot 0 5000 s = .ok ((r, sz'), t) ∧
      (Exact KERNBASE s bareRoot 0 5000 r sz' t ↔ 0 ≤ (0 : ℤ) + 5000) := by
  obtain ⟨s, hs, -⟩ := exists_addressSpace
  exact ⟨s, hs, growproc_exact le_rfl hs 5000⟩

/-- `sbrk(-4097)` of a process with one page succeeds. -/
theorem growproc_not_exact : ∃ s, AddressSpace KERNBASE s bareRoot 4096 ∧
      growproc KERNBASE bareRoot 4096 (-4097) s = .ok ((0, 4096), s) ∧
      ¬ Exact KERNBASE s bareRoot 4096 (-4097) 0 4096 s := by
  obtain ⟨s, hs, r, hrun, hr⟩ := exists_addressSpace
  obtain ⟨hfail, -⟩ | ⟨-, -, hspace, -⟩ :=
    wp_ok (growproc_grow hs le_rfl 4096 (by decide) (E := fun _ => True)) hrun
  · exact absurd (hr ▸ hfail) (by decide)
  rw [hr] at hspace
  refine ⟨r.2, hspace, growproc_below (-4097) (by decide) (by decide), ?_⟩
  rintro (⟨hr, -⟩ | ⟨-, hsum, -⟩)
  · exact absurd hr (by decide)
  · exact absurd hsum (by decide)

end OsCa.Vm
