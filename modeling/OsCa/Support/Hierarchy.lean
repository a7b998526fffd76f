import Mathlib.Data.Finset.Card

/-!
# Trees of named nodes

This module is independent of the repository.  An edge `(d, k, i)` says that
entry `k` of node `d` leads to node `i`.  One entry, `up`, leads from an inner
node back to the node that has an entry for it, and from the root to itself.
Leaves have no entries, and may be entered in several nodes.

The edges form a tree if there is a way down from the root to every node that
is entered somewhere.  Adding a leaf or an inner node and removing a leaf or an
empty inner node keep a tree a tree, and the lemmas say how many edges lead to
each node afterwards.
-/

namespace OsCa.Hierarchy

open Function Finset

variable {α κ : Type*} {E : Finset (α × κ × α)} {up k : κ} {root d i j : α}

section Counting

variable [DecidableEq α]

/-- The number of edges that lead to a node. -/
def indegree (E : Finset (α × κ × α)) (i : α) : ℕ := (E.filter fun e => e.2.2 = i).card

theorem indegree_pos_iff : 0 < indegree E i ↔ ∃ d k, (d, k, i) ∈ E := by
  unfold indegree
  rw [card_pos]
  constructor
  · rintro ⟨⟨d, k, j⟩, he⟩
    obtain ⟨hmem, rfl⟩ := mem_filter.mp he
    exact ⟨d, k, hmem⟩
  · rintro ⟨d, k, hmem⟩
    exact ⟨(d, k, i), mem_filter.mpr ⟨hmem, rfl⟩⟩

variable [DecidableEq κ]

theorem indegree_insert (h : (d, k, i) ∉ E) (j : α) :
    indegree (insert (d, k, i) E) j = indegree E j + if i = j then 1 else 0 := by
  unfold indegree
  rw [filter_insert]
  by_cases hij : i = j
  · rw [if_pos hij, if_pos hij, card_insert_of_notMem]
    exact fun hmem => h (mem_filter.mp hmem).1
  · rw [if_neg hij, if_neg hij, Nat.add_zero]

theorem indegree_erase (h : (d, k, i) ∈ E) (j : α) :
    indegree (E.erase (d, k, i)) j + (if i = j then 1 else 0) = indegree E j := by
  have hinsert := indegree_insert (notMem_erase (d, k, i) E) j
  rw [insert_erase h] at hinsert
  exact hinsert.symm

end Counting

structure Tree (up : κ) (root : α) (E : Finset (α × κ × α)) : Prop where
  functional : ∀ d k i j, (d, k, i) ∈ E → (d, k, j) ∈ E → i = j
  inner : ∀ d k i, (d, k, i) ∈ E → ∃ e, (d, up, e) ∈ E
  root_up : (root, up, root) ∈ E
  root_top : ∀ d k, (d, k, root) ∈ E → k = up
  parent : ∀ d e, (d, up, e) ∈ E → d ≠ root → ∃ k, k ≠ up ∧ (e, k, d) ∈ E
  single : ∀ d e, (d, up, e) ∈ E → ∀ p q k l, k ≠ up → l ≠ up →
    (p, k, d) ∈ E → (q, l, d) ∈ E → p = q ∧ k = l
  ranked : ∃ rank : α → ℕ, ∀ d e, (d, up, e) ∈ E → d ≠ root → rank e < rank d

namespace Tree

/-- The conditions can be checked edge by edge. -/
theorem of_edges (rank : α → ℕ)
    (hfunctional : ∀ e ∈ E, ∀ f ∈ E, e.1 = f.1 ∧ e.2.1 = f.2.1 → e.2.2 = f.2.2)
    (hinner : ∀ e ∈ E, ∃ f ∈ E, f.1 = e.1 ∧ f.2.1 = up)
    (hroot : (root, up, root) ∈ E) (htop : ∀ e ∈ E, e.2.2 = root → e.2.1 = up)
    (hparent : ∀ e ∈ E, e.2.1 = up → e.1 ≠ root →
      (∃ f ∈ E, f.1 = e.2.2 ∧ f.2.1 ≠ up ∧ f.2.2 = e.1) ∧ rank e.2.2 < rank e.1)
    (hsingle : ∀ e ∈ E, ∀ f ∈ E, e.2.1 ≠ up ∧ f.2.1 ≠ up ∧ e.2.2 = f.2.2 →
      (∃ g ∈ E, g.1 = e.2.2) → e = f) :
    Tree up root E where
  functional d k i j hi hj := hfunctional _ hi _ hj ⟨rfl, rfl⟩
  inner d k i hmem := by
    obtain ⟨⟨d', k', e⟩, hf, rfl, rfl⟩ := hinner _ hmem
    exact ⟨e, hf⟩
  root_up := hroot
  root_top d k hmem := htop _ hmem rfl
  parent d e hmem hne := by
    obtain ⟨⟨⟨a, k, b⟩, hf, rfl, hk, rfl⟩, -⟩ := hparent _ hmem rfl hne
    exact ⟨k, hk, hf⟩
  single d e he p q k l hk hl hp hq := by
    have heq := hsingle _ hp _ hq ⟨hk, hl, rfl⟩ ⟨_, he, rfl⟩
    exact ⟨(Prod.mk.inj heq).1, (Prod.mk.inj (Prod.mk.inj heq).2).1⟩
  ranked := ⟨rank, fun d e hmem hne => (hparent _ hmem rfl hne).2⟩

/-- One step down. -/
def Below (up : κ) (E : Finset (α × κ × α)) (d i : α) : Prop := ∃ k, k ≠ up ∧ (d, k, i) ∈ E

/-- There is a way down from the root to every inner node. -/
theorem reach_inner (h : Tree up root E) {e : α} (hd : (d, up, e) ∈ E) :
    Relation.ReflTransGen (Below up E) root d := by
  obtain ⟨rank, hrank⟩ := h.ranked
  induction hn : rank d using Nat.strong_induction_on generalizing d e with
  | _ n ih =>
    by_cases hroot : d = root
    · rw [hroot]
    · obtain ⟨k, hk, hmem⟩ := h.parent d e hd hroot
      obtain ⟨e', he'⟩ := h.inner e k d hmem
      exact (ih (rank e) (hn ▸ hrank d e hd hroot) he' rfl).tail ⟨k, hk, hmem⟩

/-- There is a way down from the root to every node that is entered somewhere. -/
theorem reach (h : Tree up root E) (hmem : (d, k, i) ∈ E) :
    Relation.ReflTransGen (Below up E) root i := by
  by_cases hk : k = up
  · subst k
    -- An upward edge leads to an inner node.
    by_cases hroot : d = root
    · rw [hroot] at hmem
      rw [← h.functional root up root i h.root_up hmem]
    · obtain ⟨k, -, hdown⟩ := h.parent d i hmem hroot
      obtain ⟨e, he⟩ := h.inner i k d hdown
      exact h.reach_inner he
  · obtain ⟨e, he⟩ := h.inner d k i hmem
    exact (h.reach_inner he).tail ⟨k, hk, hmem⟩

/-- The upward edge of a node other than the root leads to where it is entered. -/
theorem up_eq (h : Tree up root E) (hmem : (d, k, i) ∈ E) (hk : k ≠ up) {e : α}
    (he : (i, up, e) ∈ E) : e = d := by
  have hroot : i ≠ root := by
    rintro rfl
    exact hk (h.root_top d k hmem)
  obtain ⟨l, hl, hx⟩ := h.parent i e he hroot
  exact (h.single i e he e d l k hl hk hx hmem).1

variable [DecidableEq α] [DecidableEq κ]

section

variable (h : Tree up root E)

include h

/-- A new entry for a leaf. -/
theorem insert_leaf (hinner : ∃ e, (d, up, e) ∈ E) (hfree : ∀ j, (d, k, j) ∉ E)
    (hleaf : ∀ e, (i, up, e) ∉ E) : Tree up root (insert (d, k, i) E) := by
  have hk : k ≠ up := by
    rintro rfl
    obtain ⟨e, he⟩ := hinner
    exact hfree e he
  have hup : ∀ a b, (a, up, b) ∈ insert (d, k, i) E ↔ (a, up, b) ∈ E := by
    intro a b
    rw [mem_insert, or_iff_right]
    intro heq
    exact hk (Prod.mk.inj (Prod.mk.inj heq).2).1.symm
  refine ⟨fun a l x y hx hy => ?_, fun a l x hx => ?_, ?_, fun a l hx => ?_,
    fun a b hab hne => ?_, fun a b hab p q l m hl hm hp hq => ?_, ?_⟩
  · rw [mem_insert, Prod.mk.injEq, Prod.mk.injEq] at hx hy
    rcases hx with ⟨rfl, rfl, rfl⟩ | hx <;> rcases hy with ⟨hd', hk', rfl⟩ | hy
    · rfl
    · exact absurd hy (hfree y)
    · rw [hd', hk'] at hx
      exact absurd hx (hfree x)
    · exact h.functional a l x y hx hy
  · simp only [hup]
    rw [mem_insert, Prod.mk.injEq] at hx
    rcases hx with ⟨rfl, -⟩ | hx
    · exact hinner
    · exact h.inner a l x hx
  · exact (hup root root).mpr h.root_up
  · rw [mem_insert, Prod.mk.injEq, Prod.mk.injEq] at hx
    rcases hx with ⟨-, -, rfl⟩ | hx
    · exact absurd h.root_up (hleaf root)
    · exact h.root_top a l hx
  · obtain ⟨l, hl, hmem⟩ := h.parent a b ((hup a b).mp hab) hne
    exact ⟨l, hl, mem_insert_of_mem hmem⟩
  · have hab := (hup a b).mp hab
    have hold : ∀ p l, (p, l, a) ∈ insert (d, k, i) E → (p, l, a) ∈ E := by
      intro p l hmem
      rw [mem_insert, Prod.mk.injEq, Prod.mk.injEq] at hmem
      rcases hmem with ⟨-, -, heq⟩ | hmem
      · rw [heq] at hab
        exact absurd hab (hleaf b)
      · exact hmem
    exact h.single a b hab p q l m hl hm (hold p l hp) (hold q m hq)
  · obtain ⟨rank, hrank⟩ := h.ranked
    exact ⟨rank, fun a b hab hne => hrank a b ((hup a b).mp hab) hne⟩

/-- A new inner node. -/
theorem insert_inner (hinner : ∃ e, (d, up, e) ∈ E) (hfree : ∀ j, (d, k, j) ∉ E)
    (hout : ∀ l e, (i, l, e) ∉ E) (hin : ∀ a l, (a, l, i) ∉ E) :
    Tree up root (insert (d, k, i) (insert (i, up, d) E)) := by
  have hk : k ≠ up := by
    rintro rfl
    obtain ⟨e, he⟩ := hinner
    exact hfree e he
  have hdi : d ≠ i := by
    rintro rfl
    obtain ⟨e, he⟩ := hinner
    exact hout up e he
  have hroot : root ≠ i := by
    rintro rfl
    exact hout up root h.root_up
  have hmem : ∀ a l b, (a, l, b) ∈ insert (d, k, i) (insert (i, up, d) E) ↔
      a = d ∧ l = k ∧ b = i ∨ a = i ∧ l = up ∧ b = d ∨ (a, l, b) ∈ E := by
    intro a l b
    simp only [mem_insert, Prod.mk.injEq]
  have hup : ∀ a b, (a, up, b) ∈ insert (d, k, i) (insert (i, up, d) E) ↔
      a = i ∧ b = d ∨ (a, up, b) ∈ E := by
    intro a b
    rw [hmem]
    constructor
    · rintro (⟨-, hx, -⟩ | ⟨ha, -, hb⟩ | hx)
      · exact absurd hx.symm hk
      · exact Or.inl ⟨ha, hb⟩
      · exact Or.inr hx
    · rintro (⟨ha, hb⟩ | hx)
      · exact Or.inr (Or.inl ⟨ha, rfl, hb⟩)
      · exact Or.inr (Or.inr hx)
  refine ⟨fun a l x y hx hy => ?_, fun a l x hx => ?_, ?_, fun a l hx => ?_,
    fun a b hab hne => ?_, fun a b hab p q l m hl hm hp hq => ?_, ?_⟩
  · rw [hmem] at hx hy
    rcases hx with ⟨rfl, rfl, rfl⟩ | ⟨rfl, rfl, rfl⟩ | hx
    · rcases hy with ⟨-, -, rfl⟩ | ⟨hx, -, -⟩ | hy
      · rfl
      · exact absurd hx hdi
      · exact absurd hy (hfree y)
    · rcases hy with ⟨hx, -, -⟩ | ⟨-, -, rfl⟩ | hy
      · exact absurd hx.symm hdi
      · rfl
      · exact absurd hy (hout _ y)
    · rcases hy with ⟨rfl, rfl, -⟩ | ⟨rfl, rfl, -⟩ | hy
      · exact absurd hx (hfree x)
      · exact absurd hx (hout _ x)
      · exact h.functional a l x y hx hy
  · simp only [hup]
    rw [hmem] at hx
    rcases hx with ⟨rfl, -, -⟩ | ⟨rfl, -, -⟩ | hx
    · obtain ⟨e, he⟩ := hinner
      exact ⟨e, Or.inr he⟩
    · exact ⟨d, Or.inl ⟨rfl, rfl⟩⟩
    · obtain ⟨e, he⟩ := h.inner a l x hx
      exact ⟨e, Or.inr he⟩
  · exact (hup root root).mpr (Or.inr h.root_up)
  · rw [hmem] at hx
    rcases hx with ⟨-, -, hx⟩ | ⟨-, hx, -⟩ | hx
    · exact absurd hx hroot
    · exact hx
    · exact h.root_top a l hx
  · rw [hup] at hab
    simp only [hmem]
    rcases hab with ⟨rfl, rfl⟩ | hab
    · exact ⟨k, hk, Or.inl ⟨rfl, rfl, rfl⟩⟩
    · obtain ⟨l, hl, hx⟩ := h.parent a b hab hne
      exact ⟨l, hl, Or.inr (Or.inr hx)⟩
  · -- The new node has one entry, and the entries of the others are old.
    rw [hup] at hab
    rw [hmem] at hp hq
    by_cases hai : a = i
    · rcases hp with ⟨rfl, rfl, -⟩ | ⟨-, hx, -⟩ | hp
      · rcases hq with ⟨rfl, rfl, -⟩ | ⟨-, hx, -⟩ | hq
        · exact ⟨rfl, rfl⟩
        · exact absurd hx hm
        · rw [hai] at hq
          exact absurd hq (hin q m)
      · exact absurd hx hl
      · rw [hai] at hp
        exact absurd hp (hin p l)
    · have hab : (a, up, b) ∈ E := hab.resolve_left fun hx => hai hx.1
      have hp : (p, l, a) ∈ E := (hp.resolve_left fun hx => hai hx.2.2).resolve_left
        fun hx => hl hx.2.1
      have hq : (q, m, a) ∈ E := (hq.resolve_left fun hx => hai hx.2.2).resolve_left
        fun hx => hm hx.2.1
      exact h.single a b hab p q l m hl hm hp hq
  · obtain ⟨rank, hrank⟩ := h.ranked
    refine ⟨update rank i (rank d + 1), fun a b hab hne => ?_⟩
    rw [hup] at hab
    rcases hab with ⟨rfl, rfl⟩ | hab
    · rw [update_self, update_of_ne hdi]
      exact Nat.lt_succ_self _
    · have ha : a ≠ i := by
        rintro rfl
        exact hout up b hab
      have hb : b ≠ i := by
        rintro rfl
        exact hin a up hab
      rw [update_of_ne ha, update_of_ne hb]
      exact hrank a b hab hne

/-- An entry for a leaf is removed. -/
theorem erase_leaf (hk : k ≠ up) (hleaf : ∀ e, (i, up, e) ∉ E) :
    Tree up root (E.erase (d, k, i)) := by
  have hmem : ∀ a l b, (a, l, b) ∈ E.erase (d, k, i) → (a, l, b) ∈ E :=
    fun _ _ _ hx => mem_of_mem_erase hx
  have hup : ∀ a b, (a, up, b) ∈ E → (a, up, b) ∈ E.erase (d, k, i) := by
    intro a b hx
    refine mem_erase.mpr ⟨fun heq => ?_, hx⟩
    exact hk (Prod.mk.inj (Prod.mk.inj heq).2).1.symm
  refine ⟨fun a l x y hx hy => h.functional a l x y (hmem _ _ _ hx) (hmem _ _ _ hy),
    fun a l x hx => ?_, hup root root h.root_up,
    fun a l hx => h.root_top a l (hmem _ _ _ hx), fun a b hab hne => ?_,
    fun a b hab p q l m hl hm hp hq => h.single a b (hmem _ _ _ hab) p q l m hl hm
      (hmem _ _ _ hp) (hmem _ _ _ hq), ?_⟩
  · obtain ⟨e, he⟩ := h.inner a l x (hmem _ _ _ hx)
    exact ⟨e, hup a e he⟩
  · obtain ⟨l, hl, hx⟩ := h.parent a b (hmem _ _ _ hab) hne
    refine ⟨l, hl, mem_erase.mpr ⟨fun heq => ?_, hx⟩⟩
    obtain rfl := (Prod.mk.inj (Prod.mk.inj heq).2).2
    exact hleaf b (hmem _ _ _ hab)
  · obtain ⟨rank, hrank⟩ := h.ranked
    exact ⟨rank, fun a b hab hne => hrank a b (hmem _ _ _ hab) hne⟩

/-- The only edge to an inner node without entries is the one from its parent. -/
theorem eq_of_empty (hmem : (d, k, i) ∈ E) (hk : k ≠ up) (hinner : ∃ e, (i, up, e) ∈ E)
    (hempty : ∀ l e, (i, l, e) ∈ E → l = up) {a : α} {l : κ} (hx : (a, l, i) ∈ E) :
    a = d ∧ l = k := by
  obtain ⟨e, he⟩ := hinner
  by_cases hl : l = up
  · subst l
    by_cases ha : a = root
    · subst a
      obtain rfl := h.functional root up root i h.root_up hx
      exact absurd (h.root_top d k hmem) hk
    · obtain ⟨m, hm, hdown⟩ := h.parent a i hx ha
      exact absurd (hempty m a hdown) hm
  · exact h.single i e he a d l k hl hk hx hmem

theorem indegree_of_empty (hmem : (d, k, i) ∈ E) (hk : k ≠ up)
    (hinner : ∃ e, (i, up, e) ∈ E) (hempty : ∀ l e, (i, l, e) ∈ E → l = up) :
    indegree E i = 1 := by
  refine card_eq_one.mpr ⟨(d, k, i), ext fun ⟨a, l, b⟩ => ?_⟩
  rw [mem_filter, mem_singleton, Prod.mk.injEq, Prod.mk.injEq]
  constructor
  · rintro ⟨hx, rfl⟩
    obtain ⟨ha, hl⟩ := h.eq_of_empty hmem hk hinner hempty hx
    exact ⟨ha, hl, rfl⟩
  · rintro ⟨rfl, rfl, rfl⟩
    exact ⟨hmem, rfl⟩

/-- An inner node without entries is removed. -/
theorem erase_inner (hmem : (d, k, i) ∈ E) (hk : k ≠ up) (hup : (i, up, d) ∈ E)
    (hempty : ∀ l e, (i, l, e) ∈ E → l = up) :
    Tree up root ((E.erase (d, k, i)).erase (i, up, d)) := by
  have hroot : root ≠ i := by
    rintro rfl
    exact hk (h.root_top d k hmem)
  have hold : ∀ a l b, (a, l, b) ∈ (E.erase (d, k, i)).erase (i, up, d) →
      a ≠ i ∧ (a, l, b) ∈ E := by
    intro a l b hx
    simp only [mem_erase, ne_eq, Prod.mk.injEq] at hx
    refine ⟨?_, hx.2.2⟩
    rintro rfl
    obtain rfl := hempty l b hx.2.2
    exact hx.1 ⟨rfl, rfl, h.functional _ _ _ _ hx.2.2 hup⟩
  have hnew : ∀ a l b, (a, l, b) ∈ E → a ≠ i → b ≠ i →
      (a, l, b) ∈ (E.erase (d, k, i)).erase (i, up, d) := by
    intro a l b hx ha hb
    simp only [mem_erase, ne_eq, Prod.mk.injEq]
    exact ⟨fun heq => ha heq.1, fun heq => hb heq.2.2, hx⟩
  have hupward : ∀ a b, (a, up, b) ∈ E → a ≠ i → b ≠ i := by
    rintro a b hx ha rfl
    exact hk (h.eq_of_empty hmem hk ⟨d, hup⟩ hempty hx).2.symm
  refine ⟨fun a l x y hx hy =>
      h.functional a l x y (hold _ _ _ hx).2 (hold _ _ _ hy).2,
    fun a l x hx => ?_, hnew _ _ _ h.root_up hroot hroot,
    fun a l hx => h.root_top a l (hold _ _ _ hx).2, fun a b hab hne => ?_,
    fun a b hab p q l m hl hm hp hq => h.single a b (hold _ _ _ hab).2 p q l m hl
      hm (hold _ _ _ hp).2 (hold _ _ _ hq).2, ?_⟩
  · obtain ⟨ha, hx⟩ := hold _ _ _ hx
    obtain ⟨e, he⟩ := h.inner a l x hx
    exact ⟨e, hnew _ _ _ he ha (hupward a e he ha)⟩
  · obtain ⟨ha, hab⟩ := hold _ _ _ hab
    obtain ⟨l, hl, hx⟩ := h.parent a b hab hne
    exact ⟨l, hl, hnew _ _ _ hx (hupward a b hab ha) ha⟩
  · obtain ⟨rank, hrank⟩ := h.ranked
    exact ⟨rank, fun a b hab hne => hrank a b (hold _ _ _ hab).2 hne⟩

end

end Tree

end OsCa.Hierarchy
