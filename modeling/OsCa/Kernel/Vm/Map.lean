import OsCa.Kernel.Vm.Grow

/-!
# Page tables are finite maps

Translating addresses with `walk` gives a partial map from page numbers to entries.  New
tables are not seen in this map, and `mappages` and `uvmunmap` change it for the pages of
their range and for no others.
-/

namespace OsCa.Vm

open OsCa.Action Radix
open Fs (PGSIZE)

variable {kend : ℕ} {s : Machine} {root : Addr}

/-- The entry that `walk` finds for an address is that of its page, and of no other page. -/
theorem walk_finds (h : Sound kend s root) {va : ℕ} (hva : va < MAXVA) :
    ∃ r, walk root va false s = .ok (r, s) ∧
      (r.bind fun q => present (s.pte q.1 q.2)) = lookup s root (va / PGSIZE) ∧
      ∀ va' < MAXVA, ∀ q, r = some q → walk root va' false s = .ok (some q, s) →
        va' / PGSIZE = va / PGSIZE := by
  refine ⟨_, walk_read hva, ?_, fun va' hva' q hq hwalk => ?_⟩
  · rw [lookup]
    cases leafTable s root (va / PGSIZE) <;> rfl
  · rw [walk_read hva'] at hwalk
    obtain ⟨a, ha, rfl⟩ := Option.map_eq_some_iff.mp hq
    obtain ⟨b, hb, hab⟩ := Option.map_eq_some_iff.mp (Prod.mk.inj (Except.ok.inj hwalk)).1
    obtain ⟨rfl, hindex⟩ := Prod.mk.inj hab
    have hpath := h.separate _ _ _ (length_walkPath _ 2).le (length_walkPath _ 2).le hb ha
    rw [← NPAGES_mul] at hva hva'
    exact page_inj (Nat.div_lt_of_lt_mul (Nat.mul_comm .. ▸ hva'))
      (Nat.div_lt_of_lt_mul (Nat.mul_comm .. ▸ hva)) hpath hindex

/-- A page table whose tables are distinct is a partial map from page numbers to entries,
whichever calls of `kalloc` fail.

* `walk` translates every address below `MAXVA`, each page through an entry of its own.
* With `alloc` it changes no translation, whether it succeeds or not.
* If `mappages` of unmapped pages succeeds, these pages have consecutive frames from `pa` on,
  with the flags `perm|PTE_V`, and the other pages are as before.
* `uvmunmap` of mapped pages removes them and no others, if the frames that it frees do not
  hold tables.

The tables stay distinct. -/
theorem page_table_is_map (h : Sound kend s root) :
    (∀ va < MAXVA, ∃ r, walk root va false s = .ok (r, s) ∧
      (r.bind fun q => present (s.pte q.1 q.2)) = lookup s root (va / PGSIZE) ∧
      ∀ va' < MAXVA, ∀ q, r = some q → walk root va' false s = .ok (some q, s) →
        va' / PGSIZE = va / PGSIZE) ∧
    (∀ va < MAXVA, ∃ r t, walk root va true s = .ok (r, t) ∧ Sound kend t root ∧
      ∀ v < NPAGES, lookup t root v = lookup s root v) ∧
    (∀ va size pa perm, 0 < size → va + size ≤ MAXVA →
      (∀ v, va / PGSIZE ≤ v → v ≤ (va + size - 1) / PGSIZE → lookup s root v = none) →
      ∃ r t, mappages root va size pa perm s = .ok (r, t) ∧ Sound kend t root ∧ (r = 0 ∨ r = -1) ∧
        (r = 0 → ∀ v < NPAGES, lookup t root v =
          if va / PGSIZE ≤ v ∧ v ≤ (va + size - 1) / PGSIZE then
            some (PA2PTE (pa + BitVec.ofNat 64 ((v - va / PGSIZE) * PGSIZE)) ||| perm ||| PTE_V)
          else lookup s root v)) ∧
    ∀ v n doFree, v + n ≤ NPAGES →
      (∀ w, v ≤ w → w < v + n → ∃ e, lookup s root w = some e ∧ PTE_FLAGS e ≠ PTE_V ∧
        (doFree = true → InRam kend (PTE2PA e) ∧ PTE2PA e ∉ tables s root)) →
      ∃ t, uvmunmap kend root (v * PGSIZE) n doFree s = .ok ((), t) ∧ Separate next t.pte root 2 ∧
        ∀ w < NPAGES, lookup t root w = if v ≤ w ∧ w < v + n then none else lookup s root w := by
  refine ⟨fun va hva => walk_finds h hva, fun va hva => ?_,
    fun va size pa perm hsize hend hfree => ?_, fun v n doFree hv he => ?_⟩
  · obtain ⟨r, t, hrun, new, hev, -⟩ := exists_of_wp (walk_spec h hva)
    exact ⟨r, t, hrun, hev.sound h, hev.lookup⟩
  · have hspec : wp (mappages root va size pa perm) s _ fun _ => False :=
      mappages_spec h hsize hend hfree
    obtain ⟨r, t, hrun, new, k, hev, hr⟩ := exists_of_wp hspec
    refine ⟨r, t, hrun, hev.sound h, by omega, fun hzero v hv => ?_⟩
    rw [hev.lookup v hv, mapRange]
    exact if_congr (by omega) rfl rfl
  · choose! e he using he
    have hfrees : ∀ w, v ≤ w → w < v + n → ∀ a ∈ freed doFree (e w),
        InRam kend a ∧ a ∉ tables s root := by
      intro w hlo hhi a ha
      unfold freed at ha
      split at ha
      next hdo =>
        obtain rfl := List.mem_singleton.mp ha
        exact (he w hlo hhi).2.2 hdo
      next => cases ha
    have hspec : wp (uvmunmap kend root (v * PGSIZE) n doFree) s _ fun _ => False :=
      uvmunmap_spec h.separate hv fun w hlo hhi =>
        ⟨(he w hlo hhi).1, (he w hlo hhi).2.1, hfrees w hlo hhi⟩
    obtain ⟨_, t, hrun, ht⟩ := exists_of_wp hspec
    exact ⟨t, hrun, ht.separate, ht.lookup⟩

theorem page_table_is_map_bare : Sound KERNBASE bare bareRoot ∧
    ∃ r t, mappages bareRoot 4095 2 bareRoot PTE_R bare = .ok (r, t) ∧
      Sound KERNBASE t bareRoot := by
  obtain ⟨-, -, hmap, -⟩ := page_table_is_map sound_bare
  obtain ⟨r, t, hrun, ht, -⟩ := hmap 4095 2 bareRoot PTE_R (by decide) (by decide)
    fun v _ _ => lookup_bare v
  exact ⟨sound_bare, r, t, hrun, ht⟩

/-- A page whose frame holds the root of the page table is unmapped and its frame freed: the
next page is not mapped any more. -/
theorem unmap_depends_on_frames :
    ∃ s t, Sound KERNBASE s bareRoot ∧ uvmunmap KERNBASE bareRoot 0 1 true s = .ok ((), t) ∧
      (lookup s bareRoot 1).isSome = true ∧ lookup t bareRoot 1 = none := by
  have hspec : wp (mappages bareRoot 0 (2 * PGSIZE) bareRoot PTE_R) bare _ fun _ => False :=
    mappages_spec sound_bare (by decide) (by decide) fun v _ _ => lookup_bare v
  obtain ⟨r, s, hrun, new, k, hev, -⟩ := exists_of_wp hspec
  have hcheck : ((mappages bareRoot 0 (2 * PGSIZE) bareRoot PTE_R bare).toOption.any fun q =>
      (uvmunmap KERNBASE bareRoot 0 1 true q.2).toOption.any fun u =>
        (lookup q.2 bareRoot 1).isSome = true ∧ lookup u.2 bareRoot 1 = none) = true := by
    decide +kernel
  rw [hrun] at hcheck
  dsimp only [Except.toOption, Option.any_some] at hcheck
  obtain ⟨⟨_, t⟩, hun, hsome, hnone⟩ := Fallible.exists_ok_of_any hcheck
  exact ⟨s, t, hev.sound sound_bare, hun, hsome, hnone⟩

end OsCa.Vm
