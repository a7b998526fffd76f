import OsCa.Kernel.Vm.Copy
import OsCa.Kernel.Vm.Grow

/-!
# Copying a page table

`uvmcopy` gives the child a page of its own, with the same bytes and flags, for every page of
the parent below the size.  Since the frames are different, what is written through one table
is not seen through the other.
-/

namespace OsCa.Vm

open Bytes OsCa.Action Radix List Option
open Fs (PGSIZE)

/-- `fork` can copy `old` to `new`: the pages of the parent below `sz` are mapped, the child
has none, and what belongs to the parent is neither free nor part of the table of the child. -/
structure Forkable (kend : ℕ) (s : Machine) (old new : Addr) (sz : ℕ) : Prop where
  child : Sound kend s new
  parent : ∀ v < pagesOf sz, v < NPAGES ∧ ∃ e, lookup s old v = some e ∧ PTE_FLAGS e ≠ PTE_V
  empty : ∀ v < pagesOf sz, lookup s new v = none
  noUser : ∀ v, userFrame s new v = none
  tables : ∀ a ∈ tables s old, a ∉ tables s new ∧ a ∉ s.freelist
  frames : ∀ v < NPAGES, ∀ e, lookup s old v = some e →
    PTE2PA e ∉ Vm.tables s new ∧ PTE2PA e ∉ s.freelist

/-- The flags and the bytes of a page of the parent. -/
def parentFlags (s : Machine) (old : Addr) (v : ℕ) : Pte := PTE_FLAGS ((lookup s old v).getD 0)

def parentPage (s : Machine) (old : Addr) (v : ℕ) : Page := s.mem (PTE2PA ((lookup s old v).getD 0))

variable {kend sz : ℕ} {s t u : Machine} {old new : Addr} {nw fs : List Addr}
  {E : Panic → Prop}

/-- The child has the pages `fs`. -/
abbrev Copied (s : Machine) (old new : Addr) (t : Machine) (nw fs : List Addr) : Prop :=
  Populated new 0 (parentFlags s old) (parentPage s old) s t nw fs

theorem valid_of_lookup {root : Addr} {v : ℕ} {e : Pte} (h : lookup s root v = some e) :
    e &&& PTE_V ≠ 0 := by
  obtain ⟨table, -, hpte⟩ := bind_eq_some_iff.mp h
  obtain ⟨rfl, hvalid⟩ := present_eq_some hpte
  exact hvalid

theorem PTE_FLAGS_lt (e : Pte) : (PTE_FLAGS e).toNat < 1024 := by
  rw [PTE_FLAGS, BitVec.toNat_and]
  exact Nat.and_lt_two_pow (n := 10) _ (by decide)

theorem PTE_FLAGS_or {e : Pte} (h : e &&& PTE_V ≠ 0) : PTE_FLAGS e ||| PTE_V = PTE_FLAGS e := by
  have hbit : e.getLsbD 0 = true := by
    by_contra hfalse
    refine h ?_
    have htwo : PTE_V = BitVec.twoPow 64 0 := rfl
    rw [htwo, BitVec.and_twoPow, if_neg hfalse]
    rfl
  refine BitVec.eq_of_getLsbD_eq fun i hi => ?_
  rw [PTE_FLAGS, BitVec.getLsbD_or, BitVec.getLsbD_and]
  cases i with
  | zero =>
    rw [hbit]
    rfl
  | succ i =>
    have hv : PTE_V.getLsbD (i + 1) = false := by
      have : ∀ j : Fin 64, j.val ≠ 0 → PTE_V.getLsbD j = false := by decide
      exact this ⟨i + 1, hi⟩ (Nat.succ_ne_zero i)
    rw [hv, Bool.or_false]

namespace Forkable

section

variable (h : Forkable kend s old new sz)

include h

theorem exists_entry {v : ℕ} (hv : v < pagesOf sz) :
    lookup s old v = some ((lookup s old v).getD 0) ∧
      PTE_FLAGS ((lookup s old v).getD 0) ≠ PTE_V := by
  obtain ⟨-, e, he, hleaf⟩ := h.parent v hv
  rw [he]
  exact ⟨rfl, hleaf⟩

/-- The parent is not touched. -/
theorem same {held : List Addr} (ht : Taken new s t nw held) :
    (∀ a ∈ Vm.tables s old, t.mem a = s.mem a) ∧ ∀ v < NPAGES, ∀ e,
      lookup s old v = some e → t.mem (PTE2PA e) = s.mem (PTE2PA e) :=
  ⟨fun a ha => ht.other a (h.tables a ha).1 (h.tables a ha).2,
    fun v hv e he => ht.other _ (h.frames v hv e he).1 (h.frames v hv e he).2⟩

theorem err (hc : Copied s old new t nw fs) (hlen : fs.length ≤ pagesOf sz) :
    wp (uvmcopyErr kend new (fs.length * PGSIZE)) t
      (fun r u => r = -1 ∧ Copied s old new u nw []) E := by
  have hundo : wp (uvmunmap kend new 0 fs.length true) t
      (fun _ u => Copied s old new u nw []) E := by
    have := hc.undo (E := E) h.child ?_ (fun v _ hv => h.empty v (by omega)) fun v _ hv => ?_
    · rwa [Nat.zero_mul] at this
    · rw [Nat.zero_add]
      rcases Nat.eq_zero_or_pos fs.length with h0 | hpos
      · omega
      · have := (h.parent (fs.length - 1) (by omega)).1
        omega
    · obtain ⟨hentry, hleaf⟩ := h.exists_entry (v := v) (by omega)
      refine ⟨PTE_FLAGS_lt _, ?_⟩
      rw [parentFlags, PTE_FLAGS_or (valid_of_lookup hentry)]
      exact hleaf
  unfold uvmcopyErr
  rw [Nat.mul_div_cancel _ (by decide)]
  exact wp_bind hundo fun _ u hu => wp_pure ⟨rfl, hu⟩

theorem loop {n : ℕ} (hc : Copied s old new t nw fs) (hn : fs.length + n = pagesOf sz) :
    wp (uvmcopyLoop kend old new n (fs.length * PGSIZE)) t (fun r u =>
      (r = 0 ∧ ∃ nw' fs', fs'.length = pagesOf sz ∧ Copied s old new u nw' fs') ∨
        r = -1 ∧ ∃ nw', Copied s old new u nw' []) E := by
  induction n generalizing t nw fs with
  | zero => exact wp_pure (Or.inl ⟨rfl, nw, fs, hn, hc⟩)
  | succ n ih =>
    have hv : fs.length < pagesOf sz := by omega
    obtain ⟨hNP, -⟩ := h.parent fs.length hv
    obtain ⟨hentry, -⟩ := h.exists_entry hv
    set e := (lookup s old fs.length).getD 0 with he
    obtain ⟨hsame, hpages⟩ := h.same hc.toTaken
    have hva : fs.length * PGSIZE < MAXVA := by
      rw [← NPAGES_mul]
      exact Nat.mul_lt_mul_of_pos_right hNP (by decide)
    -- The entry of the parent.
    obtain ⟨table, htable, hpte⟩ : ∃ table, leafTable t old fs.length = some table ∧
        t.pte table (index 0 fs.length) = e := by
      have hlook : lookup t old fs.length = some e := (lookup_eq_of_mem hsame).trans hentry
      obtain ⟨table, htable, hpte⟩ := bind_eq_some_iff.mp hlook
      exact ⟨table, htable, (present_eq_some hpte).1⟩
    have hwalk : wp (walk old (fs.length * PGSIZE) false) t
        (fun r w => r = some (table, index 0 fs.length) ∧ w = t) E := by
      rw [wp, walk_read hva, Nat.mul_div_cancel _ (by decide), htable]
      exact ⟨rfl, rfl⟩
    unfold uvmcopyLoop
    refine wp_bind hwalk ?_
    rintro r w ⟨rfl, rfl⟩
    refine wp_read_bind ?_
    rw [hpte]
    refine wp_ite (fun hzero => absurd hzero (valid_of_lookup hentry)) fun _ => ?_
    refine wp_bind (kalloc_spec w) fun r t' ht => ?_
    cases r with
    | none =>
      have hsame' : Copied s old new t' nw fs := by
        obtain ⟨mem, freelist, dry⟩ := t'
        obtain ⟨rfl, rfl⟩ := ht
        exact ⟨⟨hc.perm, hc.tables, hc.separate, hc.other⟩, hc.lookup, hc.page⟩
      exact wp_mono (h.err hsame' (by omega)) fun r u hu => Or.inr ⟨hu.1, nw, hu.2⟩
    | some mem =>
      have hframe : PTE2PA e ≠ mem := fun heq =>
        (h.frames _ hNP e hentry).2 (hc.toTaken.free_of_mem (mem_append_right _ (by
          rw [ht.1, heq]
          exact mem_cons_self)))
      have hpage : t'.mem (PTE2PA e) = parentPage s old fs.length :=
        (ht.2 _ hframe).trans (hpages _ hNP e hentry)
      have hround := hc.round (E := E) h.child (by rwa [Nat.zero_add])
        (h.empty _ (by omega)) ht.1 ht.2
      rw [Nat.zero_add, ← hpage] at hround
      refine wp_update_bind (wp_bind hround ?_)
      rintro res w (⟨rfl, nw', hw⟩ | ⟨rfl, hram, nw', hw⟩)
      · rw [if_neg (by decide)]
        have hnext := @ih w nw' (fs ++ [mem]) hw (by simp; omega)
        rwa [length_append, length_singleton, Nat.succ_mul] at hnext
      · rw [if_pos (by decide)]
        have hkfree : wp (kfree kend mem) w (fun _ u => Copied s old new u nw' fs) E :=
          kfree_spec hram hw
        refine wp_bind hkfree fun _ u hu => ?_
        exact wp_mono (h.err hu (by omega)) fun r u hu => Or.inr ⟨hu.1, nw', hu.2⟩

end

end Forkable

/-- Every page below `sz` has a frame of its own, which was free before, with the flags and
the bytes of the page of the parent. -/
structure Clone (s : Machine) (old new : Addr) (sz : ℕ) (t : Machine) : Prop where
  page : ∀ v < pagesOf sz, ∀ e, lookup s old v = some e → ∃ e', lookup t new v = some e' ∧
    PTE_FLAGS e' = PTE_FLAGS e ∧ PTE2PA e' ∈ s.freelist ∧ PTE2PA e' ∉ t.freelist ∧
    t.mem (PTE2PA e') = s.mem (PTE2PA e)
  inj : ∀ v w e e', v < pagesOf sz → w < pagesOf sz → lookup t new v = some e →
    lookup t new w = some e' → PTE2PA e = PTE2PA e' → v = w
  apart : ∀ v w e e', v < pagesOf sz → w < NPAGES → lookup t new v = some e →
    lookup s old w = some e' → PTE2PA e ≠ PTE2PA e'

/-- A list of stores through the page table `a`, which maps the same pages at each. -/
inductive Stores (a : Addr) (t : Machine) : Machine → Prop
  | refl : Stores a t t
  | tail {u w va src k} : Stores a t u → userFrame u a = userFrame t a →
      Stored a u w va src k → Stores a t w

theorem Stores.mem_eq {a f : Addr} {u : Machine} (h : Stores a t u)
    (hf : ∀ v, userFrame t a v ≠ some f) : u.mem f = t.mem f := by
  induction h with
  | refl => rfl
  | tail _ hframe hst ih => exact (hst.mem_eq fun v => by rw [hframe]; exact hf v).trans ih

/-- What is stored through the page table `a` is not seen through `b`. -/
def Isolated (t : Machine) (a b : Addr) : Prop :=
  ∀ u, Stores a t u → ∀ va', userByte u b va' = userByte t b va'

theorem isolated_of_apart {a b : Addr}
    (h : ∀ v f, userFrame t a v = some f → f ∉ tables t b ∧ ∀ w, userFrame t b w ≠ some f) :
    Isolated t a b := by
  intro u hst va'
  have htables : ∀ f ∈ tables t b, u.mem f = t.mem f := fun f hf =>
    hst.mem_eq fun v hv => (h v f hv).1 hf
  have hframe : userFrame u b (va' / PGSIZE) = userFrame t b (va' / PGSIZE) := by
    rw [userFrame, lookup_eq_of_mem htables, userFrame]
  rw [userByte, hframe, userByte]
  cases hat : userFrame t b (va' / PGSIZE) with
  | none => rfl
  | some f => rw [elim_some, elim_some, hst.mem_eq fun v hv => (h v f hv).2 _ hat]

namespace Forkable

section

variable (h : Forkable kend s old new sz) (hc : Copied s old new t nw fs)
  (hlen : fs.length = pagesOf sz)

include h hc hlen

theorem frame_eq {v : ℕ} (hv : v < pagesOf sz) :
    lookup t new v = some (newPte (fs.getD v 0) (parentFlags s old v)) ∧
      PTE2PA (newPte (fs.getD v 0) (parentFlags s old v)) = fs.getD v 0 ∧
      fs.getD v 0 ∈ s.freelist := by
  have hin : fs.getD v 0 ∈ fs := Populated.getD_mem (by omega)
  have hfree := hc.toTaken.free_of_mem (mem_append_left _ (mem_append_right _ hin))
  refine ⟨?_, PTE2PA_newPte (h.child.ram _ hfree).1 (PTE_FLAGS_lt _), hfree⟩
  have hlook := hc.lookup v (h.parent v hv).1
  rwa [Nat.zero_add, if_pos ⟨Nat.zero_le v, by omega⟩] at hlook

theorem clone : Clone s old new sz t := by
  have hframe := fun {v} (hv : v < pagesOf sz) => h.frame_eq hc hlen hv
  refine ⟨fun v hv e he => ?_, fun v w e e' hv hw he he' heq => ?_,
    fun v w e e' hv hw he he' heq => ?_⟩
  · obtain ⟨hlook, hpa, hfree⟩ := hframe hv
    refine ⟨_, hlook, ?_, by rwa [hpa], ?_, ?_⟩
    · rw [parentFlags, PTE_FLAGS_newPte (PTE_FLAGS_lt _), he, getD_some,
        PTE_FLAGS_or (valid_of_lookup he)]
    · rw [hpa]
      exact (hc.toTaken.apart h.child (Populated.getD_mem (by omega))).2
    · have hpage := hc.page v (by omega)
      rw [Nat.zero_add, parentPage, he, getD_some] at hpage
      rw [hpa, hpage]
  · rw [(hframe hv).1] at he
    rw [(hframe hw).1] at he'
    rw [← some.inj he, ← some.inj he', (hframe hv).2.1, (hframe hw).2.1,
      getD_eq_getElem _ _ (by omega), getD_eq_getElem _ _ (by omega)] at heq
    have hnodup : fs.Nodup := (nodup_append.mp (nodup_append.mp (hc.toTaken.nodup h.child)).1).2.1
    exact hnodup.getElem_inj_iff.mp heq
  · rw [(hframe hv).1] at he
    rw [← some.inj he, (hframe hv).2.1] at heq
    exact (h.frames w hw e' he').2 (heq ▸ (hframe hv).2.2)

/-- The frames of the child were free, and those of the parent were not. -/
theorem isolated : Isolated t old new ∧ Isolated t new old := by
  obtain ⟨hsame, -⟩ := h.same hc.toTaken
  have hold : ∀ v f, userFrame t old v = some f → f ∉ Vm.tables s new ∧ f ∉ s.freelist := by
    intro v f hf
    obtain ⟨hv, e, he, rfl, -⟩ := lookup_of_userFrame hf
    rw [lookup_eq_of_mem hsame] at he
    exact h.frames v hv e he
  have hnew : ∀ v f, userFrame t new v = some f → f ∈ s.freelist := by
    intro v f hf
    obtain ⟨hv, e, he, rfl, huser⟩ := lookup_of_userFrame hf
    rcases Nat.lt_or_ge v (pagesOf sz) with hlt | hge
    · obtain ⟨hlook, hpa, hfree⟩ := h.frame_eq hc hlen hlt
      rw [hlook] at he
      rwa [← some.inj he, hpa]
    · have hlook := hc.lookup v hv
      rw [if_neg (by omega), he] at hlook
      have hno := h.noUser v
      rw [userFrame, if_pos hv, ← hlook, bind_some, if_pos huser] at hno
      cases hno
  refine ⟨isolated_of_apart fun v f hf => ⟨?_, fun w hw => ?_⟩,
    isolated_of_apart fun v f hf => ⟨?_, fun w hw => ?_⟩⟩
  · obtain ⟨htable, hfree⟩ := hold v f hf
    rw [hc.tables, not_or]
    refine ⟨htable, fun hin => hfree (hc.toTaken.free_of_mem ?_)⟩
    exact mem_append_left _ (mem_append_left _ hin)
  · exact (hold v f hf).2 (hnew w f hw)
  · rw [tables_eq_of_mem hsame]
    exact fun hin => (h.tables f hin).2 (hnew v f hf)
  · exact (hold w f hw).2 (hnew v f hf)

end

end Forkable

/-- `uvmcopy` makes a clone that shares nothing with the parent, or leaves the child as it was
and gives back the pages it has taken, apart from new tables.  The parent is not touched. -/
theorem uvmcopy_clones (h : Forkable kend s old new sz) :
    ∃ r t, uvmcopy kend old new sz s = .ok (r, t) ∧ (∀ a ∈ tables s old, t.mem a = s.mem a) ∧
      (∀ v < NPAGES, ∀ e, lookup s old v = some e →
        lookup t old v = some e ∧ t.mem (PTE2PA e) = s.mem (PTE2PA e)) ∧
      (r = 0 ∧ Clone s old new sz t ∧ Isolated t old new ∧ Isolated t new old ∨
        r = -1 ∧ (∀ v < NPAGES, lookup t new v = lookup s new v) ∧
          ∃ nw, (nw ++ t.freelist).Perm s.freelist ∧
            ∀ a, a ∈ tables t new ↔ a ∈ tables s new ∨ a ∈ nw) := by
  have hwp : wp (uvmcopy kend old new sz) s (fun r u =>
      (r = 0 ∧ ∃ nw' fs', fs'.length = pagesOf sz ∧ Copied s old new u nw' fs') ∨
        r = -1 ∧ ∃ nw', Copied s old new u nw' []) fun _ => False := by
    have hloop := h.loop (E := fun _ => False) (n := pagesOf sz) (.refl h.child)
      (by rw [length_nil, Nat.zero_add])
    rwa [length_nil, Nat.zero_mul] at hloop
  obtain ⟨r, t, hrun, hres⟩ := exists_of_wp hwp
  have hparent : ∀ {nw held}, Taken new s t nw held →
      (∀ a ∈ tables s old, t.mem a = s.mem a) ∧ ∀ v < NPAGES, ∀ e, lookup s old v = some e →
        lookup t old v = some e ∧ t.mem (PTE2PA e) = s.mem (PTE2PA e) := fun ht =>
    ⟨(h.same ht).1, fun v hv e he =>
      ⟨(lookup_eq_of_mem (h.same ht).1).trans he, (h.same ht).2 v hv e he⟩⟩
  refine ⟨r, t, hrun, ?_⟩
  rcases hres with ⟨rfl, nw, fs, hlen, hc⟩ | ⟨rfl, nw, hc⟩
  · obtain ⟨htab, hpages⟩ := hparent hc.toTaken
    exact ⟨htab, hpages, Or.inl ⟨rfl, h.clone hc hlen, h.isolated hc hlen⟩⟩
  · obtain ⟨htab, hpages⟩ := hparent hc.toTaken
    refine ⟨htab, hpages, Or.inr ⟨rfl, fun v hv => ?_, nw, ?_, hc.tables⟩⟩
    · rw [hc.lookup v hv, if_neg]
      rw [length_nil]
      omega
    · have := hc.perm
      rwa [append_nil] at this

/-- A parent with one page, an empty table for the child, and eight free pages. -/
def forkStart : Machine := { onePage 0x1017 with freelist := bare.freelist }

theorem next_forkStart (i : ℕ) : next (forkStart.pte bareRoot i) = none := by
  have hpte : forkStart.pte bareRoot i = (onePage 0x1017).pte bareRoot i := rfl
  have hroot : bareRoot ≠ 0x3000 ∧ bareRoot ≠ 0x2000 ∧ bareRoot ≠ 0x1000 := by decide
  rw [hpte, pte_onePage, if_neg fun h => hroot.1 h.1, if_neg fun h => hroot.2.1 h.1,
    if_neg fun h => hroot.2.2 h.1]
  rfl

theorem forkable_forkStart : Forkable KERNBASE forkStart 0x1000 bareRoot 5 := by
  have hchild : ∀ a, a ∈ tables forkStart bareRoot → a = bareRoot := by
    rintro a ⟨p, -, hp⟩
    exact (descend_empty next_forkStart hp).2
  refine ⟨sound_empty next_forkStart rfl (by decide), fun v hv => ?_,
    fun v _ => lookup_empty next_forkStart v, fun v => ?_, fun a ha => ?_, fun v hv e he => ?_⟩
  · obtain rfl : v = 0 := Nat.lt_one_iff.mp hv
    exact ⟨by decide, 0x1017, by decide +kernel, by decide⟩
  · unfold userFrame
    rw [lookup_empty next_forkStart, bind_none, ite_self]
  · obtain ⟨p, hlen, hp⟩ := ha
    have hparent : a ≠ bareRoot ∧ a ∉ bare.freelist := by
      rcases descend_onePage hlen hp with ⟨-, rfl⟩ | ⟨-, rfl⟩ | ⟨-, rfl⟩
      · decide
      · decide
      · decide
    exact ⟨fun hin => hparent.1 (hchild a hin), hparent.2⟩
  · obtain ⟨-, rfl⟩ := lookup_onePage hv he
    exact ⟨fun hin => absurd (hchild _ hin) (by decide), by decide⟩

theorem uvmcopy_clones_forkStart :
    ∃ r t, uvmcopy KERNBASE 0x1000 bareRoot 5 forkStart = .ok (r, t) ∧
      (r = 0 ∧ Clone forkStart 0x1000 bareRoot 5 t ∨
        r = -1 ∧ ∀ v < NPAGES, lookup t bareRoot v = none) := by
  obtain ⟨r, t, hrun, -, -, hres⟩ := uvmcopy_clones forkable_forkStart
  refine ⟨r, t, hrun, ?_⟩
  rcases hres with ⟨hr, hclone, -⟩ | ⟨hr, hlook, -⟩
  · exact Or.inl ⟨hr, hclone⟩
  · exact Or.inr ⟨hr, fun v hv => (hlook v hv).trans (lookup_empty next_forkStart v)⟩

end OsCa.Vm
