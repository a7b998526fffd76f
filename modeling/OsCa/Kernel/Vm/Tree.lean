import OsCa.Kernel.Vm.Model
import OsCa.Support.RadixTree

/-!
# The page table as a map

A page is known by its number `va / PGSIZE`.  `lookup` follows the three levels of a page
table and gives the entry of a page if it is valid.  `Evolves` says what the functions that
change a table leave: the new table pages, which come from the free list, and the map.
-/

namespace OsCa.Vm

open Bytes OsCa.Action Radix List
open Function (update_apply update_of_ne update_self)
open Fs (PGSIZE)

variable {i va : ℕ} {e perm : Pte} {table pa : Addr} {p : List ℕ}

/-! ## Entries -/

theorem getLsbD_of_aligned {a : Addr} (h : a.toNat % PGSIZE = 0) (hi : i < 12) :
    a.getLsbD i = false := by
  have hmod := Nat.testBit_mod_two_pow a.toNat 12 i
  have h' : a.toNat % 2 ^ 12 = 0 := h
  rw [h', Nat.zero_testBit, decide_eq_true hi, Bool.true_and] at hmod
  exact hmod.symm

theorem PTE2PA_PA2PTE {a : Addr} {x : Pte} (ha : a.toNat % PGSIZE = 0) (hx : x.toNat < 1024) :
    PTE2PA (PA2PTE a ||| x) = a := by
  refine BitVec.eq_of_getLsbD_eq fun i hi => ?_
  have hbit : ∀ j, 10 ≤ j → x.getLsbD j = false := fun j hj =>
    Nat.testBit_lt_two_pow (lt_of_lt_of_le hx (Nat.pow_le_pow_right (n := 2) (by decide) hj))
  simp only [PTE2PA, PA2PTE, BitVec.getLsbD_shiftLeft, BitVec.getLsbD_ushiftRight,
    BitVec.getLsbD_or]
  by_cases h : i < 12
  · simp [h, getLsbD_of_aligned ha h]
  · have hlt : 10 + (i - 12) < 64 := by omega
    rw [show 12 + (10 + (i - 12) - 10) = i by omega, hbit (10 + (i - 12)) (by omega)]
    simp [h, hi, hlt]

theorem valid_or (x : Pte) : (x ||| PTE_V) &&& PTE_V ≠ 0 := by
  intro h
  have := congrArg (fun y : Pte => y.getLsbD 0) h
  simp [PTE_V] at this
/-- The entry, if it is valid. -/
def present (e : Pte) : Option Pte := if e &&& PTE_V ≠ 0 then some e else none

/-- The table that an entry points to. -/
def next (e : Pte) : Option Addr := (present e).map PTE2PA

theorem present_or (x : Pte) : present (x ||| PTE_V) = some (x ||| PTE_V) := if_pos (valid_or x)

theorem present_eq_some {e' : Pte} (h : present e = some e') : e = e' ∧ e &&& PTE_V ≠ 0 := by
  unfold present at h
  split at h
  next hv => exact ⟨Option.some.inj h, hv⟩
  next => cases h

theorem present_of_invalid (h : ¬ e &&& PTE_V ≠ 0) : present e = none := if_neg h

theorem next_table {a : Addr} (ha : a.toNat % PGSIZE = 0) : next (PA2PTE a ||| PTE_V) = some a := by
  rw [next, present_or, Option.map_some, PTE2PA_PA2PTE ha (by decide)]

/-! ## Page numbers -/

/-- The number of pages below `MAXVA`. -/
def NPAGES : ℕ := 2 ^ 26

theorem NPAGES_mul : NPAGES * PGSIZE = MAXVA := rfl

def index (level v : ℕ) : ℕ := v / 512 ^ level % 512

theorem index_lt (level v : ℕ) : index level v < 512 := Nat.mod_lt _ (by decide)

theorem PX_eq (level va : ℕ) : PX level va = index level (va / PGSIZE) := by
  have hpow : 2 ^ (PGSHIFT + 9 * level) = PGSIZE * 512 ^ level := by
    rw [pow_add, pow_mul]
    rfl
  have hmask : (0x1FF : ℕ) = 2 ^ 9 - 1 := rfl
  rw [PX, hmask, Nat.and_two_pow_sub_one_eq_mod, Nat.shiftRight_eq_div_pow, hpow, index,
    Nat.div_div_eq_div_mul]

/-- The indices used by `walk` from a level on. -/
def walkPath (v : ℕ) : ℕ → List ℕ
  | 0 => []
  | level + 1 => index (level + 1) v :: walkPath v level

theorem length_walkPath (v level : ℕ) : (walkPath v level).length = level := by
  induction level with
  | zero => rfl
  | succ level ih => rw [walkPath, length_cons, ih]

/-- The three indices determine the page. -/
theorem page_inj {v w : ℕ} (hv : v < NPAGES) (hw : w < NPAGES)
    (hpath : walkPath v 2 = walkPath w 2) (hindex : index 0 v = index 0 w) : v = w := by
  simp only [walkPath, index, cons.injEq, and_true] at hpath hindex
  have hv' : v < 67108864 := hv
  have hw' : w < 67108864 := hw
  omega

/-! ## Tables -/

/-- The pages that hold the tables. -/
def tables (s : Machine) (root : Addr) : Set Addr :=
  {t | ∃ p : List ℕ, p.length ≤ 2 ∧ descend next s.pte root p = some t}

/-- The table with the entry of page `v`. -/
def leafTable (s : Machine) (root : Addr) (v : ℕ) : Option Addr :=
  descend next s.pte root (walkPath v 2)

/-- The valid entry of page `v`. -/
def lookup (s : Machine) (root : Addr) (v : ℕ) : Option Pte :=
  (leafTable s root v).bind fun t => present (s.pte t (index 0 v))

variable {kend : ℕ} {s t u : Machine} {root a : Addr} {v w : ℕ}

theorem mem_tables_of_leaf (h : leafTable s root v = some a) : a ∈ tables s root :=
  ⟨_, (length_walkPath v 2).le, h⟩

theorem pte_congr (h : t.mem table = s.mem table) : t.pte table = s.pte table := by
  funext i
  rw [Machine.pte, Machine.pte, h]

section

variable (h : ∀ a ∈ tables s root, t.mem a = s.mem a)

include h

/-- A tree is the same in two memories that agree on its tables. -/
theorem descend_eq_of_mem (hp : p.length ≤ 3) :
    descend next t.pte root p = descend next s.pte root p := by
  refine descend_congr fun q k table hpre hq => congrFun (pte_congr (h table ⟨q, ?_, hq⟩)) k
  have hle := hpre.length_le
  rw [length_append, length_singleton] at hle
  omega

theorem tables_eq_of_mem : tables t root = tables s root := by
  ext a
  refine exists_congr fun p => and_congr_right fun hp => ?_
  rw [descend_eq_of_mem h (by omega)]

theorem lookup_eq_of_mem : lookup t root v = lookup s root v := by
  have hleaf : leafTable t root v = leafTable s root v :=
    descend_eq_of_mem h (by rw [length_walkPath]; omega)
  rw [lookup, lookup, hleaf]
  cases hat : leafTable s root v with
  | none => rw [Option.bind_none, Option.bind_none]
  | some a => rw [Option.bind_some, Option.bind_some, pte_congr (h a (mem_tables_of_leaf hat))]

theorem separate_of_mem (hs : Separate next s.pte root 2) : Separate next t.pte root 2 := by
  intro p q a hp hq hpa hqa
  rw [descend_eq_of_mem h (by omega)] at hpa hqa
  exact hs p q a hp hq hpa hqa

end

/-! ## Changes of memory -/

theorem pte_setPage_of_ne {page : Page} (h : table ≠ a) :
    (s.setPage a page).pte table = s.pte table :=
  pte_congr (update_of_ne h _ _)

theorem pte_setPte {table' : Addr} {j : ℕ} (hi : i < 512) : (s.setPte table i e).pte table' j =
      if table' = table ∧ j = i then e else s.pte table' j := by
  by_cases ht : table' = table
  · subst ht
    have hpage : (s.setPte table' i e).mem table' = setWord (s.mem table') (8 * i) 8 e :=
      update_self ..
    rw [Machine.pte, hpage]
    by_cases hj : j = i
    · subst hj
      rw [if_pos ⟨rfl, rfl⟩]
      exact word_setWord_self (by unfold Fs.PGSIZE; omega)
    · rw [if_neg fun hx => hj hx.2]
      exact word_setWord_of_disjoint (by omega)
  · rw [if_neg fun hx => ht hx.1]
    exact congrFun (pte_setPage_of_ne ht) j

theorem mem_setPte_of_ne (h : a ≠ table) : (s.setPte table i e).mem a = s.mem a :=
  update_of_ne h _ _

theorem pte_memset_zero (i : ℕ) : (s.memset a 0).pte a i = 0 := by
  have hpage : (s.memset a 0).mem a = fun _ => 0 := update_self ..
  rw [Machine.pte, hpage]
  refine word_of_bytes fun j hj => ?_
  unfold peek
  split <;> simp

/-! ## Sound page tables -/

/-- A page that `kfree` accepts. -/
def InRam (kend : ℕ) (a : Addr) : Prop := a.toNat % PGSIZE = 0 ∧ kend ≤ a.toNat ∧ a.toNat < PHYSTOP

/-- The tables are distinct, and the free pages are distinct pages of memory that hold no
table. -/
structure Sound (kend : ℕ) (s : Machine) (root : Addr) : Prop where
  separate : Separate next s.pte root 2
  nodup : s.freelist.Nodup
  ram : ∀ a ∈ s.freelist, InRam kend a
  apart : ∀ a ∈ s.freelist, a ∉ tables s root

/-- From `s` to `t` the free pages `new` have become tables, and the map is now `map`.
Memory that was neither a table nor free is unchanged. -/
structure Evolves (root : Addr) (s t : Machine) (new : List Addr) (map : ℕ → Option Pte) :
    Prop where
  freelist : s.freelist = new ++ t.freelist
  tables : ∀ a, a ∈ tables t root ↔ a ∈ tables s root ∨ a ∈ new
  lookup : ∀ v < NPAGES, lookup t root v = map v
  separate : Separate next t.pte root 2
  other : ∀ a, a ∉ Vm.tables s root → a ∉ s.freelist → t.mem a = s.mem a

namespace Evolves

variable {new new' : List Addr} {map map' : ℕ → Option Pte}

theorem of_same (hs : Separate next s.pte root 2) (hmem : t.mem = s.mem)
    (hfree : t.freelist = s.freelist) : Evolves root s t [] (Vm.lookup s root) := by
  have hagree : ∀ a ∈ Vm.tables s root, t.mem a = s.mem a := fun a _ => congrFun hmem a
  refine ⟨by rw [hfree]; rfl, fun a => ?_, fun v _ => lookup_eq_of_mem hagree,
    separate_of_mem hagree hs, fun a _ _ => congrFun hmem a⟩
  simp [tables_eq_of_mem hagree]

theorem trans (h : Evolves root s t new map) (h' : Evolves root t u new' map') :
    Evolves root s u (new ++ new') map' := by
  refine ⟨?_, fun a => ?_, h'.lookup, h'.separate, fun a ha hfree => ?_⟩
  · rw [h.freelist, h'.freelist, append_assoc]
  · rw [h'.tables, h.tables, mem_append, or_assoc]
  · rw [h.freelist, mem_append, not_or] at hfree
    have htable : a ∉ Vm.tables t root := by
      rw [h.tables, not_or]
      exact ⟨ha, hfree.1⟩
    rw [h'.other a htable hfree.2]
    refine h.other a ha ?_
    rw [h.freelist, mem_append, not_or]
    exact hfree

theorem congr (h : Evolves root s t new map) (hmap : ∀ v < NPAGES, map v = map' v) :
    Evolves root s t new map' :=
  ⟨h.freelist, h.tables, fun v hv => (h.lookup v hv).trans (hmap v hv), h.separate, h.other⟩

theorem sound (h : Evolves root s t new map) (hs : Sound kend s root) : Sound kend t root := by
  have hnodup := hs.nodup
  rw [h.freelist, nodup_append] at hnodup
  have hsub : ∀ a ∈ t.freelist, a ∈ s.freelist := fun a ha => by
    rw [h.freelist]
    exact mem_append_right _ ha
  refine ⟨h.separate, hnodup.2.1, fun a ha => hs.ram a (hsub a ha), fun a ha => ?_⟩
  rw [h.tables, not_or]
  exact ⟨hs.apart a (hsub a ha), fun hnew => hnodup.2.2 a hnew a ha rfl⟩

end Evolves

/-- An entry of a page is set. -/
theorem setLeaf_evolves (hs : Separate next s.pte root 2)
    (htable : leafTable s root v = some table) (hv : v < NPAGES) :
    Evolves root s (s.setPte table (index 0 v) e) []
      (Function.update (lookup s root) v (present e)) := by
  have hi := index_lt 0 v
  have hm : ∀ t' k', ¬ (t' = table ∧ k' = index 0 v) →
      (s.setPte table (index 0 v) e).pte t' k' = s.pte t' k' := fun t' k' hne => by
    rw [pte_setPte hi, if_neg hne]
  have hdesc : ∀ p : List ℕ, p.length ≤ 2 → descend next
      (s.setPte table (index 0 v) e).pte root p = descend next s.pte root p := fun p hp =>
    descend_of_leaf hs htable (length_walkPath v 2) hm hp
  refine ⟨rfl, fun a => ?_, fun w hw => ?_, hs.leaf htable (length_walkPath v 2) hm,
    fun a ha _ => mem_setPte_of_ne fun heq => ?_⟩
  · rw [or_iff_left not_mem_nil]
    exact exists_congr fun p => and_congr_right fun hp => by rw [hdesc p hp]
  · have hleaf : leafTable (s.setPte table (index 0 v) e) root w = leafTable s root w :=
      hdesc _ (length_walkPath w 2).le
    rw [lookup, hleaf]
    by_cases hwv : w = v
    · subst hwv
      rw [htable, Option.bind_some, pte_setPte hi, if_pos ⟨rfl, rfl⟩, update_self]
    · rw [update_of_ne hwv, lookup]
      cases hat : leafTable s root w with
      | none => rw [Option.bind_none, Option.bind_none]
      | some table' =>
        rw [Option.bind_some, Option.bind_some, hm]
        rintro ⟨rfl, hindex⟩
        have hpath := hs _ _ _ (length_walkPath w 2).le (length_walkPath v 2).le hat htable
        exact hwv (page_inj hw hv hpath hindex)
  · rw [heq] at ha
    exact ha (mem_tables_of_leaf htable)

/-- A free page is cleared and hung in as a table. -/
theorem insert_evolves {page : Addr} (h : Sound kend s root)
    (hp : descend next s.pte root p = some table) (hlen : p.length < 2) (hi : i < 512)
    (hnone : next (s.pte table i) = none) (hfree : s.freelist = page :: t.freelist)
    (hmem : ∀ a, a ≠ page → t.mem a = s.mem a) :
    let u := (t.memset page 0).setPte table i (PA2PTE page ||| PTE_V)
    Evolves root s u [page] (lookup s root) ∧ descend next u.pte root (p ++ [i]) = some page := by
  intro u
  have hpage : page ∈ s.freelist := hfree ▸ mem_cons_self
  have hfresh : ∀ q : List ℕ, q.length ≤ 2 → descend next s.pte root q ≠ some page :=
    fun q hq hat => h.apart page hpage ⟨q, hq, hat⟩
  have hne : table ≠ page := fun heq => hfresh p hlen.le (heq ▸ hp)
  have hu : ∀ t' k', t' ≠ page → ¬ (t' = table ∧ k' = i) → u.pte t' k' = s.pte t' k' := by
    intro t' k' ht' hk
    rw [pte_setPte hi, if_neg hk, Machine.memset, pte_setPage_of_ne ht', pte_congr (hmem t' ht')]
  have hentry : u.pte table i = PA2PTE page ||| PTE_V := by rw [pte_setPte hi, if_pos ⟨rfl, rfl⟩]
  have hzero : ∀ k, u.pte page k = 0 := fun k => by
    rw [pte_setPte hi, if_neg fun hx => hne hx.1.symm, pte_memset_zero]
  have hdesc : ∀ q : List ℕ, q.length ≤ 2 → descend next u.pte root q =
      if q = p ++ [i] then some page else descend next s.pte root q := fun q hq =>
    descend_of_insert h.separate hp hlen hnone
      (by rw [hentry]; exact next_table (h.ram page hpage).1) hfresh
      (fun k => by rw [hzero]; rfl) hu hq
  refine ⟨⟨hfree, fun a => ?_, fun v _ => ?_, h.separate.insert hdesc hfresh,
    fun a ha hfree' => ?_⟩, ?_⟩
  · constructor
    · rintro ⟨q, hq, hat⟩
      rw [hdesc q hq] at hat
      split at hat
      next => exact Or.inr (mem_singleton.mpr (Option.some.inj hat).symm)
      next => exact Or.inl ⟨q, hq, hat⟩
    · rintro (⟨q, hq, hat⟩ | hnew)
      · refine ⟨q, hq, ?_⟩
        rw [hdesc q hq, if_neg]
        · exact hat
        · rintro rfl
          rw [descend_append, hp] at hat
          simp [descend, hnone] at hat
      · obtain rfl := mem_singleton.mp hnew
        refine ⟨p ++ [i], by simp; omega, ?_⟩
        rw [hdesc _ (by simp; omega), if_pos rfl]
  · have hleaf : leafTable u root v = if walkPath v 2 = p ++ [i] then some page
        else leafTable s root v := hdesc _ (length_walkPath v 2).le
    rw [lookup, hleaf, lookup]
    split
    next heq =>
      have hbefore : leafTable s root v = none := by
        rw [leafTable, heq, descend_append, hp]
        simp [descend, hnone]
      rw [Option.bind_some, hzero, hbefore]
      rfl
    next hpath =>
      cases hat : leafTable s root v with
      | none => rw [Option.bind_none, Option.bind_none]
      | some table' =>
        rw [Option.bind_some, Option.bind_some, hu]
        · rintro rfl
          exact hfresh _ (length_walkPath v 2).le hat
        · rintro ⟨rfl, -⟩
          have heq := h.separate _ _ _ (length_walkPath v 2).le hlen.le hat hp
          rw [← heq, length_walkPath] at hlen
          exact absurd hlen (lt_irrefl 2)
  · have ha' : a ≠ page := fun heq => hfree' (heq ▸ hpage)
    have htable : a ≠ table := by
      rintro rfl
      exact ha ⟨p, hlen.le, hp⟩
    rw [mem_setPte_of_ne htable]
    exact (update_of_ne ha' _ _).trans (hmem a ha')
  · rw [hdesc _ (by simp; omega), if_pos rfl]

/-! ## `kalloc` and `walk` -/

variable {E : Panic → Prop}

theorem kalloc_spec (s : Machine) :
    wp kalloc s (fun r t => match r with
      | none => t.mem = s.mem ∧ t.freelist = s.freelist
      | some page => s.freelist = page :: t.freelist ∧ ∀ a, a ≠ page → t.mem a = s.mem a) E := by
  unfold kalloc
  refine wp_read_bind (wp_update_bind ?_)
  cases hfree : s.freelist with
  | nil => exact wp_pure ⟨rfl, rfl⟩
  | cons r rest =>
    refine wp_ite (fun _ => wp_pure ⟨rfl, rfl⟩) fun _ => ?_
    refine wp_update_bind (wp_update_bind (wp_pure ⟨rfl, fun a ha => ?_⟩))
    exact update_of_ne ha _ _

/-- `walk` without `alloc` only reads. -/
theorem walkLoop_read (va level : ℕ) (table : Addr) :
    walkLoop va false level table s = .ok ((descend next s.pte table
      (walkPath (va / PGSIZE) level)).map (·, index 0 (va / PGSIZE)), s) := by
  induction level generalizing table with
  | zero =>
    rw [← PX_eq]
    rfl
  | succ level ih =>
    change (if s.pte table (PX (level + 1) va) &&& PTE_V ≠ 0 then
      walkLoop va false level (PTE2PA (s.pte table (PX (level + 1) va))) else _) s = _
    rw [walkPath, descend, PX_eq]
    split
    next hvalid =>
      rw [ih, next, present, if_pos hvalid]
      rfl
    next hinvalid =>
      rw [next, present_of_invalid hinvalid]
      rfl

theorem walk_read (hva : va < MAXVA) :
    walk root va false s = .ok ((leafTable s root (va / PGSIZE)).map
      (·, index 0 (va / PGSIZE)), s) := by
  rw [walk, if_neg (Nat.not_le.mpr hva)]
  exact walkLoop_read va 2 root

theorem walkLoop_spec {level : ℕ} (h : Sound kend s root)
    (hp : descend next s.pte root p = some table) (hlen : p.length + level = 2) :
    wp (walkLoop va true level table) s (fun r t => ∃ new,
      Evolves root s t new (lookup s root) ∧ ∀ q, r = some q →
        descend next t.pte root (p ++ walkPath (va / PGSIZE) level) = some q.1 ∧
          q.2 = index 0 (va / PGSIZE)) E := by
  induction level generalizing s p table with
  | zero =>
    refine wp_pure ⟨[], .of_same h.separate rfl rfl, ?_⟩
    rintro q ⟨⟩
    rw [walkPath, append_nil, PX_eq]
    exact ⟨hp, rfl⟩
  | succ level ih =>
    unfold walkLoop
    refine wp_read_bind ?_
    rw [PX_eq]
    have hpath : ∀ i, p ++ i :: walkPath (va / PGSIZE) level =
        (p ++ [i]) ++ walkPath (va / PGSIZE) level := fun i => by simp
    refine wp_ite (fun hvalid => ?_) fun hinvalid => ?_
    · -- The table exists.
      rw [walkPath, hpath]
      refine ih h ?_ (by simp; omega)
      rw [descend_append, hp, Option.bind_some, descend, next, present, if_pos hvalid]
      rfl
    · refine wp_ite (fun hno => by cases hno) fun _ => ?_
      refine wp_bind (kalloc_spec s) fun r t ht => ?_
      cases r with
      | none =>
        refine wp_pure ⟨[], .of_same h.separate ht.1 ht.2, ?_⟩
        rintro q ⟨⟩
      | some page =>
        have hnone : next (s.pte table (index (level + 1) (va / PGSIZE))) = none := by
          rw [next, present_of_invalid hinvalid]
          rfl
        obtain ⟨hev, hat⟩ := insert_evolves h hp (by omega) (index_lt _ _) hnone ht.1 ht.2
        refine wp_update_bind (wp_update_bind ?_)
        refine wp_mono (ih (hev.sound h) hat (by simp; omega)) ?_
        rintro r u ⟨new, hu, hr⟩
        refine ⟨_, (hev.trans hu).congr fun v hv => hev.lookup v hv, fun q hq => ?_⟩
        rw [walkPath, hpath]
        exact hr q hq

theorem walk_spec (h : Sound kend s root) (hva : va < MAXVA) :
    wp (walk root va true) s (fun r t => ∃ new,
      Evolves root s t new (lookup s root) ∧ ∀ q, r = some q →
        leafTable t root (va / PGSIZE) = some q.1 ∧ q.2 = index 0 (va / PGSIZE)) E := by
  rw [walk, if_neg (Nat.not_le.mpr hva)]
  exact walkLoop_spec (p := []) h rfl rfl

/-! ## `mappages` -/

/-- The map after `k` pages from `v` on have been mapped. -/
def mapRange (map : ℕ → Option Pte) (v k : ℕ) (pa : Addr) (perm : Pte) : ℕ → Option Pte :=
  fun w => if v ≤ w ∧ w < v + k then
    some (PA2PTE (pa + BitVec.ofNat 64 ((w - v) * PGSIZE)) ||| perm ||| PTE_V) else map w

theorem mapRange_zero (map : ℕ → Option Pte) (pa : Addr) (perm : Pte) :
    mapRange map v 0 pa perm = map := by
  funext w
  exact if_neg (by omega)

theorem mapRange_succ (map : ℕ → Option Pte) (k : ℕ) (pa : Addr) (perm : Pte) :
    mapRange (Function.update map v (some (PA2PTE pa ||| perm ||| PTE_V))) (v + 1) k
      (pa + BitVec.ofNat 64 PGSIZE) perm = mapRange map v (k + 1) pa perm := by
  funext w
  unfold mapRange
  rcases Nat.lt_trichotomy w v with hlt | rfl | hgt
  · rw [if_neg (by omega), if_neg (by omega), update_of_ne (by omega)]
  · rw [if_neg (by omega), if_pos (by omega), update_self, Nat.sub_self, Nat.zero_mul]
    simp
  · by_cases hw : w < v + 1 + k
    · rw [if_pos (by omega), if_pos (by omega), BitVec.add_assoc, ← BitVec.ofNat_add]
      have hdist : PGSIZE + (w - (v + 1)) * PGSIZE = (w - v) * PGSIZE := by
        rw [show w - v = (w - (v + 1)) + 1 by omega, Nat.add_mul, Nat.one_mul, Nat.add_comm]
      rw [hdist]
    · rw [if_neg (by omega), if_neg (by omega), update_of_ne (by omega)]

/-- The loop of `mappages` over the pages `v, ..., v + n`.  If it fails it has mapped some of
them. -/
theorem mappagesLoop_spec {n fuel : ℕ} (h : Sound kend s root) (hn : n < fuel)
    (hv : v + n < NPAGES) (hfree : ∀ w, v ≤ w → w ≤ v + n → lookup s root w = none) :
    wp (mappagesLoop root ((v + n) * PGSIZE) perm fuel (v * PGSIZE) pa) s (fun r t =>
      ∃ new k, Evolves root s t new (mapRange (lookup s root) v k pa perm) ∧
        (r = 0 ∧ k = n + 1 ∨ r = -1 ∧ k ≤ n)) E := by
  induction fuel generalizing s v n pa with
  | zero => omega
  | succ fuel ih =>
    have hpage : v * PGSIZE / PGSIZE = v := Nat.mul_div_cancel _ (by decide)
    have hva : v * PGSIZE < MAXVA := by
      rw [← NPAGES_mul]
      exact Nat.mul_lt_mul_of_pos_right (by omega) (by decide)
    unfold mappagesLoop
    refine wp_bind (walk_spec h hva) ?_
    rintro r t ⟨new, hev, hr⟩
    rw [hpage] at hr
    cases r with
    | none =>
      refine wp_pure ⟨new, 0, ?_, Or.inr ⟨rfl, Nat.zero_le _⟩⟩
      rwa [mapRange_zero]
    | some q =>
      obtain ⟨hleaf, hindex⟩ := hr q rfl
      obtain ⟨table, i⟩ := q
      dsimp only at hleaf hindex
      subst hindex
      refine wp_read_bind (wp_ite (fun hvalid => ?_) fun _ => ?_)
      · -- The page is not mapped.
        have hnone := (hev.lookup v (by omega)).trans (hfree v le_rfl (by omega))
        rw [lookup, hleaf, Option.bind_some, present, if_pos hvalid] at hnone
        cases hnone
      have hset := setLeaf_evolves (e := PA2PTE pa ||| perm ||| PTE_V) hev.separate hleaf (by omega)
      have hmap : ∀ w < NPAGES, Function.update (lookup t root) v
          (present (PA2PTE pa ||| perm ||| PTE_V)) w =
          Function.update (lookup s root) v (some (PA2PTE pa ||| perm ||| PTE_V)) w := by
        intro w hw
        rw [present_or, update_apply, update_apply, hev.lookup w hw]
      have hdone := (hev.trans hset).congr hmap
      refine wp_update_bind (wp_ite (fun hlast => wp_pure ?_) fun hlast => ?_)
      · have hn0 : n = 0 := by
          have := Nat.eq_of_mul_eq_mul_right (by decide) hlast
          omega
        subst hn0
        refine ⟨_, 1, hdone.congr fun w _ => ?_, Or.inl ⟨rfl, rfl⟩⟩
        rw [← mapRange_succ, mapRange_zero]
      · obtain ⟨m, rfl⟩ : ∃ m, n = m + 1 := by
          refine Nat.exists_eq_succ_of_ne_zero ?_
          rintro rfl
          exact hlast rfl
        have hnext := @ih (pa + BitVec.ofNat 64 PGSIZE) _ (v + 1) m
          (hdone.sound h) (by omega) (by omega) fun w hlo hhi => by
            rw [hdone.lookup w (by omega), update_of_ne (by omega)]
            exact hfree w (by omega) (by omega)
        rw [show v + 1 + m = v + (m + 1) by omega, Nat.succ_mul v] at hnext
        refine wp_mono hnext ?_
        rintro r u ⟨new', k, hu, hk⟩
        refine ⟨_, k + 1, (hdone.trans hu).congr fun w hw => ?_, ?_⟩
        · rw [← mapRange_succ]
          unfold mapRange
          split
          · rfl
          · exact hdone.lookup w hw
        · rcases hk with ⟨rfl, rfl⟩ | ⟨rfl, hk⟩
          · exact Or.inl ⟨rfl, rfl⟩
          · exact Or.inr ⟨rfl, by omega⟩

/-- `mappages` of pages that are not mapped.  If it fails it has mapped some of them. -/
theorem mappages_spec {size : ℕ} (h : Sound kend s root) (hsize : 0 < size)
    (hend : va + size ≤ MAXVA)
    (hfree : ∀ w, va / PGSIZE ≤ w → w ≤ (va + size - 1) / PGSIZE → lookup s root w = none) :
    wp (mappages root va size pa perm) s (fun r t => ∃ new k,
      Evolves root s t new (mapRange (lookup s root) (va / PGSIZE) k pa perm) ∧
        (r = 0 ∧ va / PGSIZE + k = (va + size - 1) / PGSIZE + 1 ∨
          r = -1 ∧ va / PGSIZE + k ≤ (va + size - 1) / PGSIZE)) E := by
  have hmax : va + size ≤ 274877906944 := hend
  obtain ⟨n, hn⟩ : ∃ n, (va + size - 1) / PGSIZE = va / PGSIZE + n :=
    Nat.exists_eq_add_of_le (Nat.div_le_div_right (by omega))
  have hlast : (va + size + 2 ^ 64 - 1) % 2 ^ 64 = va + size - 1 := by omega
  have hpages : va / PGSIZE + n < NPAGES := by
    rw [← hn]
    exact Nat.div_lt_of_lt_mul (by rw [Nat.mul_comm, NPAGES_mul]; omega)
  rw [mappages, hlast, PGROUNDDOWN, PGROUNDDOWN, hn]
  have hfuel : n < MAXVA / PGSIZE + 1 :=
    lt_of_le_of_lt (Nat.le_add_left ..) (hpages.trans (by decide))
  refine wp_mono (mappagesLoop_spec h hfuel hpages fun w hlo hhi => hfree w hlo (by omega)) ?_
  rintro r t ⟨new, k, hev, hr⟩
  exact ⟨new, k, hev, by omega⟩

/-- `mappages` for one page. -/
theorem mappages_page_spec (h : Sound kend s root) (hv : v < NPAGES)
    (hfree : lookup s root v = none) :
    wp (mappages root (v * PGSIZE) PGSIZE pa perm) s (fun r t => ∃ new,
      r = 0 ∧ Evolves root s t new (Function.update (lookup s root) v
        (some (PA2PTE pa ||| perm ||| PTE_V))) ∨
      r = -1 ∧ Evolves root s t new (lookup s root)) E := by
  have hfirst : v * PGSIZE / PGSIZE = v := Nat.mul_div_cancel _ (by decide)
  have hlast : (v * PGSIZE + PGSIZE - 1) / PGSIZE = v := by
    unfold Fs.PGSIZE
    omega
  have hend : v * PGSIZE + PGSIZE ≤ MAXVA := by
    rw [← Nat.succ_mul]
    exact Nat.mul_le_mul_right _ hv
  refine wp_mono (mappages_spec h (by decide) hend fun w hlo hhi => ?_) ?_
  · rwa [show w = v by omega]
  · rw [hfirst, hlast]
    rintro r t ⟨new, k, hev, ⟨rfl, hk⟩ | ⟨rfl, hk⟩⟩
    · obtain rfl : k = 0 + 1 := by omega
      refine ⟨new, Or.inl ⟨rfl, ?_⟩⟩
      rwa [← mapRange_succ, mapRange_zero] at hev
    · obtain rfl : k = 0 := by omega
      rw [mapRange_zero] at hev
      exact ⟨new, Or.inr ⟨rfl, hev⟩⟩

end OsCa.Vm
