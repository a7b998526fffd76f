import OsCa.Kernel.Vm.Tree

/-!
# Giving pages to a process and taking them back

`uvmunmap` takes pages out of a page table, and `uvmalloc` and `uvmcopy` put new pages in,
one by one.  `Populated` is the state of these two loops.  When they fail they give back
what they have taken, apart from the tables that have become part of the page table.
-/

namespace OsCa.Vm

open Bytes OsCa.Action Radix List
open Fs (PGSIZE)

variable {kend : ℕ} {s t u : Machine} {root a : Addr} {v : ℕ} {E : Panic → Prop}

variable {doFree : Bool} {e : ℕ → Pte} {sz oldsz : ℕ} {r : Addr}

/-! ## `uvmunmap` -/

/-- From `s` to `t` the pages `frames` have been given back, and the map is now `map`. -/
structure Drops (root : Addr) (s t : Machine) (frames : List Addr) (map : ℕ → Option Pte) :
    Prop where
  freelist : t.freelist.Perm (frames ++ s.freelist)
  tables : tables t root = tables s root
  lookup : ∀ v < NPAGES, lookup t root v = map v
  separate : Separate next t.pte root 2
  other : ∀ a, a ∉ Vm.tables s root → a ∉ frames → t.mem a = s.mem a

theorem mem_push_of_ne {b : Addr} (hb : b ≠ a) : ((s.memset a 1).push a).mem b = s.mem b :=
  (Function.update_of_ne hb _ _).trans (Function.update_of_ne hb _ _)

theorem kfree_spec {Q : Unit → Machine → Prop} (ha : InRam kend a)
    (hQ : Q () ((s.memset a 1).push a)) :
    wp (kfree kend a) s Q E := by
  unfold kfree
  refine wp_ite (fun hbad => ?_) fun _ => ?_
  · obtain ⟨haligned, hlo, hhi⟩ := ha
    omega
  · exact wp_update_bind (wp_update hQ)

/-- The pages that a round of `uvmunmap` gives back. -/
def freed (doFree : Bool) (e : Pte) : List Addr := if doFree then [PTE2PA e] else []

theorem flatMap_freed (l : List ℕ) (g : ℕ → Pte) :
    (l.flatMap fun w => freed true (g w)) = l.map fun w => PTE2PA (g w) :=
  map_eq_flatMap.symm

theorem unmapPage_spec {e : Pte} (hs : Separate next s.pte root 2) (hv : v < NPAGES)
    (he : lookup s root v = some e) (hleaf : PTE_FLAGS e ≠ PTE_V)
    (hfree : ∀ a ∈ freed doFree e, InRam kend a ∧ a ∉ tables s root) :
    wp (unmapPage kend root doFree (v * PGSIZE)) s (fun _ t => Drops root s t
      (freed doFree e) (Function.update (lookup s root) v none)) E := by
  have hpage : v * PGSIZE / PGSIZE = v := Nat.mul_div_cancel _ (by decide)
  have hva : v * PGSIZE < MAXVA := by
    rw [← NPAGES_mul]
    exact Nat.mul_lt_mul_of_pos_right hv (by decide)
  obtain ⟨table, htable, hentry⟩ := Option.bind_eq_some_iff.mp he
  have hvalid : s.pte table (index 0 v) &&& PTE_V ≠ 0 := by
    intro hzero
    rw [present, if_neg (not_not.mpr hzero)] at hentry
    cases hentry
  obtain rfl : s.pte table (index 0 v) = e := by
    rw [present, if_pos hvalid] at hentry
    exact Option.some.inj hentry
  -- After the page has been given back the tables are as before.
  have hclear : ∀ t : Machine, t.freelist = freed doFree (s.pte table (index 0 v)) ++ s.freelist →
      (∀ a, a ∉ freed doFree (s.pte table (index 0 v)) → t.mem a = s.mem a) →
      Drops root s (t.setPte table (index 0 v) 0) (freed doFree (s.pte table (index 0 v)))
        (Function.update (lookup s root) v none) := by
    intro t hlist hmem
    have hagree : ∀ a ∈ tables s root, t.mem a = s.mem a := fun a ha =>
      hmem a fun hin => (hfree a hin).2 ha
    have hleaf' : leafTable t root v = some table :=
      (descend_eq_of_mem hagree (by rw [length_walkPath]; omega)).trans htable
    have hset := setLeaf_evolves (e := 0) (separate_of_mem hagree hs) hleaf' hv
    refine ⟨by rw [← hlist]; rfl, ?_, fun w hw => ?_, hset.separate, fun a ha hin => ?_⟩
    · rw [← tables_eq_of_mem hagree]
      ext a
      rw [hset.tables, or_iff_left not_mem_nil]
    · rw [hset.lookup w hw, Function.update_apply, Function.update_apply, lookup_eq_of_mem hagree]
      rfl
    · rw [← tables_eq_of_mem hagree] at ha
      have hne : a ≠ table := by
        rintro rfl
        exact ha (mem_tables_of_leaf hleaf')
      rw [mem_setPte_of_ne hne, hmem a hin]
  unfold unmapPage
  have hwalk : wp (walk root (v * PGSIZE) false) s
      (fun r t => r = some (table, index 0 v) ∧ t = s) E := by
    rw [wp, walk_read hva, hpage, htable]
    exact ⟨rfl, rfl⟩
  refine wp_bind hwalk ?_
  rintro r t ⟨rfl, rfl⟩
  refine wp_read_bind (wp_ite (fun hzero => absurd hzero hvalid) fun _ => ?_)
  refine wp_ite (fun hnot => absurd hnot hleaf) fun _ => ?_
  cases doFree with
  | false =>
    refine wp_bind (R := fun _ u => u = t) (wp_pure rfl) ?_
    rintro - u rfl
    exact wp_update (hclear u rfl fun _ _ => rfl)
  | true =>
    rw [if_pos rfl]
    have hpa := (hfree _ mem_cons_self).1
    generalize hfr : PTE2PA (t.pte table (index 0 v)) = pa at hpa ⊢
    have hkfree : wp (kfree kend pa) t (fun _ w =>
        w = (t.memset pa 1).push pa) E := kfree_spec hpa rfl
    refine wp_bind hkfree fun _ w hw => wp_update ?_
    subst hw
    refine hclear _ (by rw [freed, if_pos rfl, hfr]; rfl) fun a ha => ?_
    rw [freed, if_pos rfl, hfr, mem_singleton] at ha
    exact mem_push_of_ne ha

/-- The map after `n` pages from `v` on have been removed. -/
def dropRange (map : ℕ → Option Pte) (v n : ℕ) : ℕ → Option Pte :=
  fun w => if v ≤ w ∧ w < v + n then none else map w

/-- `uvmunmap` of pages that are mapped. -/
theorem uvmunmapLoop_spec {n : ℕ} (hs : Separate next s.pte root 2) (hv : v + n ≤ NPAGES)
    (he : ∀ w, v ≤ w → w < v + n → lookup s root w = some (e w) ∧
      PTE_FLAGS (e w) ≠ PTE_V ∧ ∀ a ∈ freed doFree (e w), InRam kend a ∧
      a ∉ tables s root) :
    wp (uvmunmapLoop kend root doFree n (v * PGSIZE)) s (fun _ t => Drops root s t
      ((range' v n).flatMap fun w => freed doFree (e w))
      (dropRange (lookup s root) v n)) E := by
  induction n generalizing s v with
  | zero =>
    refine wp_pure ⟨List.Perm.refl _, rfl, fun w _ => ?_, hs, fun _ _ _ => rfl⟩
    exact (if_neg (by omega)).symm
  | succ n ih =>
    obtain ⟨hlook, hleaf, hfree⟩ := he v le_rfl (by omega)
    unfold uvmunmapLoop
    refine wp_bind (unmapPage_spec hs (by omega) hlook hleaf hfree) fun _ t ht => ?_
    have hnext := @ih t (v + 1) ht.separate (by omega) fun w hlo hhi => by
      obtain ⟨hw, hw', hfree'⟩ := he w (by omega) (by omega)
      rw [ht.lookup w (by omega), Function.update_of_ne (by omega), ht.tables]
      exact ⟨hw, hw', hfree'⟩
    rw [Nat.succ_mul] at hnext
    refine wp_mono hnext fun _ u hu => ?_
    have hframes : (range' v (n + 1)).flatMap (fun w => freed doFree (e w)) =
        freed doFree (e v) ++ (range' (v + 1) n).flatMap fun w => freed doFree (e w) := by
      rw [range'_succ, flatMap_cons]
    rw [hframes]
    refine ⟨?_, hu.tables.trans ht.tables, fun w hw => ?_, hu.separate, fun a ha hin => ?_⟩
    · refine (hu.freelist.trans (ht.freelist.append_left _)).trans ?_
      rw [← append_assoc]
      exact perm_append_comm.append_right _
    · rw [hu.lookup w hw]
      unfold dropRange
      by_cases hin : v + 1 ≤ w ∧ w < v + 1 + n
      · rw [if_pos hin, if_pos (by omega)]
      · rw [if_neg hin, ht.lookup w hw, Function.update_apply]
        by_cases hwv : w = v
        · rw [if_pos hwv, if_pos (by omega)]
        · rw [if_neg hwv, if_neg (by omega)]
    · rw [mem_append, not_or] at hin
      have htables : a ∉ tables t root := by
        rw [ht.tables]
        exact ha
      rw [hu.other a htables hin.2, ht.other a ha hin.1]

theorem rounds_pages (v n : ℕ) : rounds (v * PGSIZE) ((v + n) * PGSIZE) = n := by
  unfold rounds Fs.PGSIZE
  omega

theorem uvmunmap_spec {n : ℕ} (hs : Separate next s.pte root 2) (hv : v + n ≤ NPAGES)
    (he : ∀ w, v ≤ w → w < v + n → lookup s root w = some (e w) ∧
      PTE_FLAGS (e w) ≠ PTE_V ∧ ∀ a ∈ freed doFree (e w), InRam kend a ∧
      a ∉ tables s root) :
    wp (uvmunmap kend root (v * PGSIZE) n doFree) s (fun _ t => Drops root s t
      ((range' v n).flatMap fun w => freed doFree (e w))
      (dropRange (lookup s root) v n)) E := by
  have hend : (v * PGSIZE + n * PGSIZE) % 2 ^ 64 = (v + n) * PGSIZE := by
    rw [← Nat.add_mul, Nat.mod_eq_of_lt]
    refine lt_of_le_of_lt (Nat.mul_le_mul_right PGSIZE hv) ?_
    decide
  rw [uvmunmap, if_neg (by simp), hend, rounds_pages]
  exact uvmunmapLoop_spec hs hv he

/-! ## Sizes -/

/-- The number of pages of a process of size `sz`. -/
def pagesOf (sz : ℕ) : ℕ := rounds 0 sz

theorem PGROUNDUP_eq (h : sz ≤ MAXVA) : PGROUNDUP sz = pagesOf sz * PGSIZE := by
  have h' : sz ≤ 274877906944 := h
  unfold PGROUNDUP pagesOf rounds Fs.PGSIZE
  omega

theorem pagesOf_mul (n : ℕ) : pagesOf (n * PGSIZE) = n := by
  unfold pagesOf rounds Fs.PGSIZE
  omega

theorem pagesOf_mono {m n : ℕ} (h : m ≤ n) : pagesOf m ≤ pagesOf n := by
  unfold pagesOf rounds Fs.PGSIZE
  omega

theorem pagesOf_le (h : sz ≤ MAXVA) : pagesOf sz ≤ NPAGES := by
  rw [← pagesOf_mul NPAGES]
  exact pagesOf_mono h

theorem throughInt_eq {n : ℕ} (h : n ≤ NPAGES) : throughInt n = n := by
  have h' : n ≤ 67108864 := h
  have hmsb : (BitVec.ofNat 32 n).msb = false := by
    rw [BitVec.msb_eq_false_iff_two_mul_lt, BitVec.toNat_ofNat]
    omega
  rw [throughInt, BitVec.signExtend_eq_setWidth_of_msb_false hmsb, BitVec.toNat_setWidth,
    BitVec.toNat_ofNat]
  omega

/-- `uvmdealloc` removes the pages between the two sizes. -/
theorem uvmdealloc_eq {newsz : ℕ} (hold : oldsz ≤ MAXVA) :
    uvmdealloc kend root oldsz newsz = (do
      uvmunmap kend root (pagesOf newsz * PGSIZE) (pagesOf oldsz - pagesOf newsz) true
      return min newsz oldsz) := by
  have hnone : ∀ m, (do
      uvmunmap kend root (m * PGSIZE) 0 true
      return min newsz oldsz : M ℕ) = pure (min newsz oldsz) := fun m => by
    have hrounds : rounds (m * PGSIZE) ((m * PGSIZE + 0 * PGSIZE) % 2 ^ 64) = 0 := by
      unfold rounds Fs.PGSIZE
      omega
    rw [uvmunmap, if_neg (by simp), hrounds]
    rfl
  unfold uvmdealloc
  split
  next hle => rw [Nat.sub_eq_zero_of_le (pagesOf_mono hle), hnone, min_eq_right hle]
  next hlt =>
    have hmono : pagesOf newsz ≤ pagesOf oldsz := pagesOf_mono (by omega)
    have hmax := pagesOf_le hold
    rw [PGROUNDUP_eq (by omega : newsz ≤ MAXVA), PGROUNDUP_eq hold,
      min_eq_left (by omega : newsz ≤ oldsz)]
    split
    next => rw [← Nat.sub_mul, Nat.mul_div_cancel _ (by decide), throughInt_eq (by omega)]
    next hge =>
      have hle := Nat.le_of_mul_le_mul_right (Nat.not_lt.mp hge) (by decide)
      have := hnone (pagesOf newsz)
      rw [min_eq_left (by omega : newsz ≤ oldsz)] at this
      rw [Nat.sub_eq_zero_of_le hle, this]

/-! ## Pages taken from the free list -/

/-- From `s` to `t` the free pages `new` have become tables of `root`, and the free pages
`held` have been taken for something else. -/
structure Taken (root : Addr) (s t : Machine) (new held : List Addr) : Prop where
  perm : (new ++ held ++ t.freelist).Perm s.freelist
  tables : ∀ a, a ∈ tables t root ↔ a ∈ tables s root ∨ a ∈ new
  separate : Separate next t.pte root 2
  other : ∀ a, a ∉ Vm.tables s root → a ∉ s.freelist → t.mem a = s.mem a

namespace Taken

variable {new new' held frames : List Addr} {map : ℕ → Option Pte}

theorem refl (h : Sound kend s root) : Taken root s s [] [] :=
  ⟨List.Perm.refl _, fun a => by simp, h.separate, fun _ _ _ => rfl⟩

section

variable (h : Taken root s t new held)

include h

theorem nodup (hs : Sound kend s root) : (new ++ held ++ t.freelist).Nodup :=
  h.perm.nodup_iff.mpr hs.nodup

theorem free_of_mem (ha : a ∈ new ++ held ++ t.freelist) : a ∈ s.freelist := h.perm.mem_iff.mp ha

theorem sound (hs : Sound kend s root) : Sound kend t root := by
  have hnodup := nodup_append.mp (h.nodup hs)
  have hfree : ∀ a ∈ t.freelist, a ∈ s.freelist := fun a ha => h.free_of_mem (mem_append_right _ ha)
  refine ⟨h.separate, hnodup.2.1, fun a ha => hs.ram a (hfree a ha), fun a ha => ?_⟩
  rw [h.tables, not_or]
  exact ⟨hs.apart a (hfree a ha), fun hnew => hnodup.2.2 a (mem_append_left _ hnew) a ha rfl⟩

/-- The pages that are held are neither tables nor free. -/
theorem apart (hs : Sound kend s root) (ha : a ∈ held) : a ∉ Vm.tables t root ∧ a ∉ t.freelist := by
  have hnodup := nodup_append.mp (h.nodup hs)
  have hmem : a ∈ new ++ held := mem_append_right _ ha
  refine ⟨?_, fun hfree => hnodup.2.2 a hmem a hfree rfl⟩
  rw [h.tables, not_or]
  refine ⟨hs.apart a (h.free_of_mem (mem_append_left _ hmem)), fun hnew => ?_⟩
  exact (nodup_append.mp hnodup.1).2.2 a hnew a ha rfl

/-- A page is taken, and only its contents change. -/
theorem take (hs : Sound kend s root) (hfree : t.freelist = r :: u.freelist)
    (hmem : ∀ a, a ≠ r → u.mem a = t.mem a) :
    Taken root s u new (held ++ [r]) ∧ (∀ v, lookup u root v = lookup t root v) ∧
      ∀ a ∈ held, u.mem a = t.mem a := by
  have hr : r ∈ t.freelist := hfree ▸ mem_cons_self
  have hagree : ∀ a ∈ Vm.tables t root, u.mem a = t.mem a := fun a ha =>
    hmem a fun heq => (h.sound hs).apart r hr (heq ▸ ha)
  refine ⟨⟨?_, ?_, separate_of_mem hagree h.separate, fun a ha hnot => ?_⟩,
    fun v => lookup_eq_of_mem hagree, fun a ha => hmem a fun heq => ?_⟩
  · have := h.perm
    rw [hfree] at this
    simpa using this
  · rw [tables_eq_of_mem hagree]
    exact h.tables
  · have hne : a ≠ r := fun heq => hnot (h.free_of_mem (heq ▸ mem_append_right _ hr))
    rw [hmem a hne, h.other a ha hnot]
  · rw [heq] at ha
    exact (h.apart hs ha).2 hr

/-- The page table changes, and takes tables from the free list. -/
theorem evolve (hs : Sound kend s root) (hev : Evolves root t u new' map) :
    Taken root s u (new ++ new') held ∧ ∀ a ∈ held, u.mem a = t.mem a := by
  refine ⟨⟨?_, fun a => ?_, hev.separate, fun a ha hnot => ?_⟩, fun a ha => ?_⟩
  · refine List.Perm.trans ?_ h.perm
    rw [hev.freelist, append_assoc, append_assoc, append_assoc]
    refine List.Perm.append_left _ ?_
    rw [← append_assoc, ← append_assoc]
    exact perm_append_comm.append_right _
  · rw [hev.tables, h.tables, mem_append, or_assoc]
  · rw [hev.other a, h.other a ha hnot]
    · rw [h.tables, not_or]
      refine ⟨ha, fun hnew => hnot (h.free_of_mem ?_)⟩
      exact mem_append_left _ (mem_append_left _ hnew)
    · exact fun hfree => hnot (h.free_of_mem (mem_append_right _ hfree))
  · obtain ⟨htable, hfree⟩ := h.apart hs ha
    exact hev.other a htable hfree

/-- Pages are given back. -/
theorem drop {rest : List Addr} (hd : Drops root t u frames map)
    (hheld : held.Perm (frames ++ rest)) : Taken root s u new rest := by
  refine ⟨?_, ?_, hd.separate, fun a ha hnot => ?_⟩
  · refine List.Perm.trans ?_ h.perm
    rw [append_assoc, append_assoc]
    refine List.Perm.append_left _ ?_
    refine (hd.freelist.append_left _).trans ?_
    rw [← append_assoc]
    exact (perm_append_comm.trans hheld.symm).append_right _
  · rw [hd.tables]
    exact h.tables
  · have hnew : a ∉ Vm.tables t root := by
      rw [h.tables, not_or]
      refine ⟨ha, fun hin => hnot (h.free_of_mem ?_)⟩
      exact mem_append_left _ (mem_append_left _ hin)
    rw [hd.other a hnew, h.other a ha hnot]
    intro hin
    refine hnot (h.free_of_mem (mem_append_left _ (mem_append_right _ ?_)))
    exact hheld.mem_iff.mpr (mem_append_left _ hin)

end

end Taken

/-- `kfree` of a page that no table uses. -/
theorem kfree_drops (hs : Separate next s.pte root 2) (hnot : a ∉ tables s root) :
    Drops root s ((s.memset a 1).push a) [a] (lookup s root) := by
  have hagree : ∀ b ∈ tables s root, ((s.memset a 1).push a).mem b = s.mem b := fun b hb =>
    mem_push_of_ne fun heq => hnot (heq ▸ hb)
  exact ⟨List.Perm.refl _, tables_eq_of_mem hagree, fun v _ => lookup_eq_of_mem hagree,
    separate_of_mem hagree hs, fun b _ hb => mem_push_of_ne fun heq => hb (mem_singleton.mpr heq)⟩

/-! ## Loops that add pages -/

/-- The entry of a new page. -/
def newPte (pa : Addr) (flags : Pte) : Pte := PA2PTE pa ||| flags ||| PTE_V

theorem PTE2PA_newPte {flags : Pte} (ha : a.toNat % PGSIZE = 0) (hflags : flags.toNat < 1024) :
    PTE2PA (newPte a flags) = a := by
  rw [newPte, BitVec.or_assoc]
  refine PTE2PA_PA2PTE ha ?_
  rw [BitVec.toNat_or]
  exact Nat.or_lt_two_pow (n := 10) hflags (by decide)

theorem PTE_FLAGS_newPte {flags : Pte} (hflags : flags.toNat < 1024) :
    PTE_FLAGS (newPte a flags) = flags ||| PTE_V := by
  refine BitVec.eq_of_getLsbD_eq fun i hi => ?_
  have hmask : (0x3FF : Pte).getLsbD i = decide (i < 10) := by
    have : ∀ j : Fin 64, (0x3FF : Pte).getLsbD j = decide (j.val < 10) := by decide
    exact this ⟨i, hi⟩
  simp only [PTE_FLAGS, newPte, BitVec.getLsbD_and, BitVec.getLsbD_or, hmask, PA2PTE,
    BitVec.getLsbD_shiftLeft]
  by_cases h : i < 10
  · simp [h]
  · have hflag : flags.getLsbD i = false := Nat.testBit_lt_two_pow (lt_of_lt_of_le hflags
        (Nat.pow_le_pow_right (n := 2) (by decide) (Nat.not_lt.mp h)))
    have hv : PTE_V.getLsbD i = false := by
      have : ∀ j : Fin 64, ¬ j.val < 10 → PTE_V.getLsbD j = false := by decide
      exact this ⟨i, hi⟩ h
    simp [h, hflag, hv]

/-- The pages from `first` on have been added, with the frames `fs`. -/
structure Populated (root : Addr) (first : ℕ) (flags : ℕ → Pte) (page : ℕ → Page)
    (s t : Machine) (new fs : List Addr) : Prop extends Taken root s t new fs where
  lookup : ∀ v < NPAGES, lookup t root v =
    if first ≤ v ∧ v < first + fs.length then some (newPte (fs.getD (v - first) 0) (flags v))
    else Vm.lookup s root v
  page : ∀ i < fs.length, t.mem (fs.getD i 0) = page (first + i)

namespace Populated

variable {first : ℕ} {flags : ℕ → Pte} {page : ℕ → Page} {new fs : List Addr}

theorem refl (h : Sound kend s root) : Populated root first flags page s s [] [] :=
  ⟨.refl h, fun v _ => (if_neg (by simp)).symm, fun i hi => absurd hi (Nat.not_lt_zero i)⟩

theorem getD_mem {i : ℕ} (hi : i < fs.length) : fs.getD i 0 ∈ fs := by
  rw [getD_eq_getElem _ _ hi]
  exact getElem_mem hi

/-- `kalloc` gives a page, the page is filled, and `mappages` maps it or does not.  In the
second case `kfree` gives it back. -/
theorem round {t' : Machine} (h : Populated root first flags page s t new fs)
    (hs : Sound kend s root) (hv : first + fs.length < NPAGES)
    (hnone : Vm.lookup s root (first + fs.length) = none)
    (hfree : t.freelist = r :: t'.freelist) (hmem : ∀ a, a ≠ r → t'.mem a = t.mem a) :
    wp (mappages root ((first + fs.length) * PGSIZE) PGSIZE r (flags (first + fs.length)))
      (t'.setPage r (page (first + fs.length))) (fun res u =>
        res = 0 ∧ (∃ new', Populated root first flags page s u new' (fs ++ [r])) ∨
        res = -1 ∧ InRam kend r ∧ ∃ new', Populated root first flags page s
          ((u.memset r 1).push r) new' fs) E := by
  have hmem' : ∀ a, a ≠ r → (t'.setPage r (page (first + fs.length))).mem a = t.mem a :=
    fun a ha => (Function.update_of_ne ha _ _).trans (hmem a ha)
  obtain ⟨htaken, hlook, hpages⟩ := h.toTaken.take hs
    (u := t'.setPage r (page (first + fs.length))) hfree hmem'
  have hbefore : ∀ v < NPAGES, Vm.lookup (t'.setPage r (page (first + fs.length))) root v =
      if first ≤ v ∧ v < first + fs.length then
        some (newPte (fs.getD (v - first) 0) (flags v)) else Vm.lookup s root v :=
    fun v hv => (hlook v).trans (h.lookup v hv)
  have hempty := (hbefore _ hv).trans ((if_neg (by omega)).trans hnone)
  refine wp_mono (mappages_page_spec (htaken.sound hs) hv hempty) ?_
  rintro res u ⟨new', ⟨rfl, hev⟩ | ⟨rfl, hev⟩⟩
  · obtain ⟨htaken', hheld⟩ := htaken.evolve hs hev
    refine Or.inl ⟨rfl, _, htaken', fun v hv' => ?_, fun i hi => ?_⟩
    · rw [hev.lookup v hv', Function.update_apply, length_append, length_singleton]
      by_cases hlast : v = first + fs.length
      · subst hlast
        rw [if_pos rfl, if_pos (by omega), Nat.add_sub_cancel_left,
          getD_append_right _ _ _ _ le_rfl, Nat.sub_self]
        rfl
      · rw [if_neg hlast, hbefore v hv']
        by_cases hin : first ≤ v ∧ v < first + fs.length
        · rw [if_pos hin, if_pos (by omega), getD_append _ _ _ _ (by omega)]
        · rw [if_neg hin, if_neg (by omega)]
    · rw [hheld _ (getD_mem hi)]
      rw [length_append, length_singleton] at hi
      by_cases hlast : i < fs.length
      · rw [getD_append _ _ _ _ hlast, hpages _ (getD_mem hlast), h.page i hlast]
      · obtain rfl : i = fs.length := by omega
        rw [getD_append_right _ _ _ _ le_rfl, Nat.sub_self]
        exact Function.update_self ..
  · obtain ⟨htaken', hheld⟩ := htaken.evolve hs hev
    have hr := htaken'.apart hs (a := r) (by simp)
    have hdrop := kfree_drops htaken'.separate hr.1
    have hmemr : ∀ i < fs.length, fs.getD i 0 ≠ r := fun i hi heq => by
      have hnodup := (h.toTaken.nodup hs)
      rw [hfree] at hnodup
      refine (nodup_append.mp hnodup).2.2 r ?_ r mem_cons_self rfl
      exact mem_append_right _ (heq ▸ getD_mem hi)
    refine Or.inr ⟨rfl, ?_, _, htaken'.drop hdrop perm_append_comm, fun v hv' => ?_, fun i hi => ?_⟩
    · refine hs.ram r (h.toTaken.free_of_mem (mem_append_right _ ?_))
      rw [hfree]
      exact mem_cons_self
    · rw [hdrop.lookup v hv', hev.lookup v hv', hbefore v hv']
    · refine (mem_push_of_ne (hmemr i hi)).trans ?_
      rw [hheld _ (mem_append_left _ (getD_mem hi)), hpages _ (getD_mem hi), h.page i hi]

theorem frames_eq (fs : List Addr) (first : ℕ) (g : ℕ → Pte)
    (hg : ∀ i < fs.length, PTE2PA (g (first + i)) = fs.getD i 0) :
    ((range' first fs.length).flatMap fun w => freed true (g w)) = fs := by
  rw [flatMap_freed]
  refine ext_getElem (by simp) fun i hi hi' => ?_
  rw [getElem_map, getElem_range', Nat.one_mul, hg i hi', getD_eq_getElem _ _ hi']

/-- What has been added can be taken out again. -/
theorem undo (h : Populated root first flags page s t new fs) (hs : Sound kend s root)
    (hv : first + fs.length ≤ NPAGES) (hnone : ∀ v, first ≤ v → v < first + fs.length →
      Vm.lookup s root v = none)
    (hflags : ∀ v, first ≤ v → v < first + fs.length →
      (flags v).toNat < 1024 ∧ flags v ||| PTE_V ≠ PTE_V) :
    wp (uvmunmap kend root (first * PGSIZE) fs.length true) t (fun _ u =>
      Populated root first flags page s u new []) E := by
  have hpa : ∀ i < fs.length, PTE2PA (newPte (fs.getD (first + i - first) 0)
      (flags (first + i))) = fs.getD i 0 := fun i hi => by
    have hram := hs.ram _ (h.toTaken.free_of_mem (mem_append_left _
      (mem_append_right _ (getD_mem hi))))
    rw [Nat.add_sub_cancel_left, PTE2PA_newPte hram.1 (hflags _ (by omega) (by omega)).1]
  refine wp_mono (uvmunmap_spec (e := fun w => newPte (fs.getD (w - first) 0) (flags w))
    h.separate hv fun w hlo hhi => ⟨?_, ?_, fun a ha => ?_⟩) fun _ u hu => ?_
  · rw [h.lookup w (by omega), if_pos ⟨hlo, hhi⟩]
  · rw [PTE_FLAGS_newPte (hflags w hlo hhi).1]
    exact (hflags w hlo hhi).2
  · obtain ⟨i, rfl⟩ := Nat.exists_eq_add_of_le hlo
    obtain rfl := mem_singleton.mp ha
    have hin : fs.getD i 0 ∈ fs := getD_mem (by omega)
    rw [hpa i (by omega)]
    refine ⟨hs.ram _ (h.toTaken.free_of_mem ?_), (h.toTaken.apart hs hin).1⟩
    exact mem_append_left _ (mem_append_right _ hin)
  · rw [frames_eq fs first (fun w => newPte (fs.getD (w - first) 0) (flags w)) hpa] at hu
    refine ⟨h.toTaken.drop hu (by simp), fun v hv' => ?_, fun i hi => ?_⟩
    · have hnot : ¬ (first ≤ v ∧ v < first + ([] : List Addr).length) := by
        rw [length_nil]
        omega
      rw [hu.lookup v hv', if_neg hnot, dropRange]
      split
      next hin => exact (hnone v hin.1 hin.2).symm
      next hin => rw [h.lookup v hv', if_neg hin]
    · exact absurd hi (Nat.not_lt_zero i)

end Populated

/-! ## `uvmalloc` -/

/-- The flags of a page that `uvmalloc` adds. -/
def userFlags : Pte := PTE_W ||| PTE_X ||| PTE_R ||| PTE_U

section Uvmalloc

variable {first newsz n : ℕ} {new fs : List Addr}

/-- `uvmalloc` has added the pages `fs` with zeros. -/
abbrev Grown (root : Addr) (first : ℕ) (s t : Machine) (new fs : List Addr) : Prop :=
  Populated root first (fun _ => userFlags) (fun _ _ => 0) s t new fs

/-- The `uvmdealloc` of a failed `uvmalloc`. -/
theorem Grown.dealloc (h : Grown root first s t new fs) (hs : Sound kend s root)
    (hv : first + fs.length ≤ NPAGES)
    (hnone : ∀ v, first ≤ v → v < first + fs.length → lookup s root v = none) :
    wp (uvmdealloc kend root ((first + fs.length) * PGSIZE) (first * PGSIZE)) t
      (fun _ u => Grown root first s u new []) E := by
  rw [uvmdealloc_eq (Nat.mul_le_mul_right PGSIZE hv), pagesOf_mul, pagesOf_mul,
    Nat.add_sub_cancel_left]
  refine wp_bind (h.undo hs hv hnone fun _ _ _ => ⟨by decide, by decide⟩) fun _ u hu => ?_
  exact wp_pure hu

theorem uvmallocLoop_spec (h : Grown root first s t new fs) (hs : Sound kend s root)
    (hv : first + fs.length + n ≤ NPAGES)
    (hnone : ∀ v, first ≤ v → v < first + fs.length + n → lookup s root v = none) :
    wp (uvmallocLoop kend root (first * PGSIZE) newsz n ((first + fs.length) * PGSIZE)) t
      (fun r u => (r = newsz ∧ ∃ new' fs', fs'.length = fs.length + n ∧
          Grown root first s u new' fs') ∨
        r = 0 ∧ ∃ new', Grown root first s u new' []) E := by
  induction n generalizing t new fs with
  | zero => exact wp_pure (Or.inl ⟨rfl, new, fs, rfl, h⟩)
  | succ n ih =>
    unfold uvmallocLoop
    refine wp_bind (kalloc_spec t) fun r t' ht => ?_
    cases r with
    | none =>
      -- Only the pattern of failures has changed.
      have hsame : Grown root first s t' new fs := by
        obtain ⟨mem, freelist, dry⟩ := t'
        obtain ⟨rfl, rfl⟩ := ht
        exact ⟨⟨h.perm, h.tables, h.separate, h.other⟩, h.lookup, h.page⟩
      refine wp_bind (hsame.dealloc hs (by omega) fun v hlo hhi => hnone v hlo (by omega)) ?_
      exact fun _ u hu => wp_pure (Or.inr ⟨rfl, new, hu⟩)
    | some mem =>
      refine wp_update_bind ?_
      refine wp_bind (h.round hs (by omega) (hnone _ (by omega) (by omega)) ht.1 ht.2) ?_
      rintro res u (⟨rfl, new', hu⟩ | ⟨rfl, hram, new', hu⟩)
      · rw [if_neg (by decide)]
        have hnext := @ih u new' (fs ++ [mem]) hu (by simp; omega) fun v hlo hhi => by
          rw [length_append, length_singleton] at hhi
          exact hnone v hlo (by omega)
        rw [length_append, length_singleton, ← Nat.add_assoc, Nat.succ_mul] at hnext
        refine wp_mono hnext fun r w hw => ?_
        rwa [show fs.length + 1 + n = fs.length + (n + 1) by omega] at hw
      · rw [if_pos (by decide)]
        have hkfree : wp (kfree kend mem) u (fun _ w => Grown root first s w new' fs) E :=
          kfree_spec hram hu
        refine wp_bind hkfree fun _ w hw => ?_
        refine wp_bind (hw.dealloc hs (by omega) fun v hlo hhi => hnone v hlo (by omega)) ?_
        exact fun _ u hu => wp_pure (Or.inr ⟨rfl, new', hu⟩)

/-- `uvmalloc` adds the pages between the two sizes or none. -/
theorem uvmalloc_spec (hs : Sound kend s root) (hle : oldsz ≤ newsz) (hmax : newsz ≤ MAXVA)
    (hnone : ∀ v, pagesOf oldsz ≤ v → v < pagesOf newsz → lookup s root v = none) :
    wp (uvmalloc kend root oldsz newsz) s (fun r u =>
      (r = newsz ∧ ∃ new fs, fs.length = pagesOf newsz - pagesOf oldsz ∧
          Grown root (pagesOf oldsz) s u new fs) ∨
        r = 0 ∧ ∃ new, Grown root (pagesOf oldsz) s u new []) E := by
  have hmono := pagesOf_mono hle
  have hrounds : rounds (pagesOf oldsz * PGSIZE) newsz = pagesOf newsz - pagesOf oldsz := by
    unfold pagesOf rounds Fs.PGSIZE
    omega
  rw [uvmalloc, if_neg (by omega), PGROUNDUP_eq (by omega), hrounds]
  have hloop := @uvmallocLoop_spec kend s s root E (pagesOf oldsz) newsz
    (pagesOf newsz - pagesOf oldsz) [] [] (.refl hs) hs ?_ ?_
  · rwa [length_nil, Nat.add_zero, Nat.zero_add] at hloop
  · have := pagesOf_le hmax
    rw [length_nil]
    omega
  · intro v hlo hhi
    rw [length_nil] at hhi
    exact hnone v hlo (by omega)

end Uvmalloc

end OsCa.Vm
