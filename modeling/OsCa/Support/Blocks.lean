import Mathlib.Algebra.Order.BigOperators.Group.List
import Mathlib.Data.List.Chain
import Mathlib.Data.List.Nodup
import Mathlib.Tactic.Linarith

/-!
# Blocks of memory

This module is independent of the repository.  An extent is an interval of addresses.
`Tiles bs rs` says that the blocks `bs` are pairwise disjoint, lie in the regions `rs`
and have the same total length, so that nothing of the regions is lost.  Cutting a block
in two, joining two adjacent blocks and adding a region keep this.

The last section is about nodes that are chained by pointers.
-/

namespace OsCa

open List

/-- The addresses from `start`, `len` of them. -/
structure Extent where
  start : ℕ
  len : ℕ
  deriving DecidableEq

namespace Extent

protected def Mem (b : Extent) (x : ℕ) : Prop := b.start ≤ x ∧ x < b.start + b.len

/-- No address is in both. -/
def Disjoint (a b : Extent) : Prop := ∀ x, a.Mem x → ¬ b.Mem x

/-- Every address is in one of the regions. -/
def Inside (b : Extent) (rs : List Extent) : Prop := ∀ x, b.Mem x → ∃ r ∈ rs, r.Mem x

theorem Disjoint.symm {a b : Extent} (h : a.Disjoint b) : b.Disjoint a := fun x hb ha => h x ha hb

/-- Of two disjoint blocks that are not empty, the one with the lower address ends
before the other begins. -/
theorem Disjoint.end_le {a b : Extent} (h : a.Disjoint b) (hb : 0 < b.len)
    (hab : a.start ≤ b.start) : a.start + a.len ≤ b.start := by
  by_contra hlt
  exact h b.start ⟨hab, Nat.lt_of_not_le hlt⟩ ⟨Nat.le_refl _, Nat.lt_add_of_pos_right hb⟩

theorem disjoint_iff {a b : Extent} : a.Disjoint b ↔
    a.len = 0 ∨ b.len = 0 ∨ a.start + a.len ≤ b.start ∨ b.start + b.len ≤ a.start := by
  constructor
  · intro h
    have hx := h (max a.start b.start)
    simp only [Extent.Mem] at hx
    omega
  · intro h x hax hbx
    simp only [Extent.Mem] at hax hbx
    omega

instance (a b : Extent) : Decidable (a.Disjoint b) := decidable_of_iff _ disjoint_iff.symm

theorem mem_cut {a m n x : ℕ} :
    (Extent.mk a (m + n)).Mem x ↔ (Extent.mk a m).Mem x ∨ (Extent.mk (a + m) n).Mem x := by
  simp only [Extent.Mem]
  omega

theorem disjoint_cut {a m n : ℕ} : (Extent.mk a m).Disjoint (Extent.mk (a + m) n) := by
  rintro x ⟨-, hx⟩ ⟨hx', -⟩
  exact absurd hx (Nat.not_lt.mpr hx')

end Extent

/-- The total length. -/
def Extent.total (bs : List Extent) : ℕ := (bs.map Extent.len).sum

structure Tiles (bs rs : List Extent) : Prop where
  disjoint : bs.Pairwise Extent.Disjoint
  inside : ∀ b ∈ bs, b.Inside rs
  total : Extent.total bs = Extent.total rs

namespace Tiles

variable {bs bs' rs : List Extent} {r : Extent} {a m n : ℕ}

theorem nil : Tiles [] [] := ⟨.nil, by simp, rfl⟩

theorem perm (h : Tiles bs rs) (hp : bs.Perm bs') : Tiles bs' rs where
  disjoint := (hp.pairwise_iff Extent.Disjoint.symm).mp h.disjoint
  inside := fun b hb => h.inside b (hp.mem_iff.mpr hb)
  total := by
    rw [← h.total]
    exact (hp.map Extent.len).sum_nat.symm

theorem cut (h : Tiles (⟨a, m + n⟩ :: bs) rs) : Tiles (⟨a, m⟩ :: ⟨a + m, n⟩ :: bs) rs where
  disjoint := by
    obtain ⟨hb, hbs⟩ := pairwise_cons.mp h.disjoint
    refine .cons (fun c hc => ?_) (.cons (fun c hc x hx => ?_) hbs)
    · rcases mem_cons.mp hc with rfl | hc
      · exact Extent.disjoint_cut
      · exact fun x hx => hb c hc x (Extent.mem_cut.mpr (Or.inl hx))
    · exact hb c hc x (Extent.mem_cut.mpr (Or.inr hx))
  inside := by
    intro b hb x hx
    have hwhole := h.inside _ mem_cons_self x
    rcases mem_cons.mp hb with rfl | hb
    · exact hwhole (Extent.mem_cut.mpr (Or.inl hx))
    rcases mem_cons.mp hb with rfl | hb
    · exact hwhole (Extent.mem_cut.mpr (Or.inr hx))
    · exact h.inside b (mem_cons_of_mem _ hb) x hx
  total := by
    rw [← h.total]
    simp only [Extent.total, map_cons, sum_cons]
    omega

theorem join (h : Tiles (⟨a, m⟩ :: ⟨a + m, n⟩ :: bs) rs) : Tiles (⟨a, m + n⟩ :: bs) rs where
  disjoint := by
    obtain ⟨hleft, hrest⟩ := pairwise_cons.mp h.disjoint
    obtain ⟨hright, hbs⟩ := pairwise_cons.mp hrest
    refine .cons (fun c hc x hx => ?_) hbs
    rcases Extent.mem_cut.mp hx with hx | hx
    · exact hleft c (mem_cons_of_mem _ hc) x hx
    · exact hright c hc x hx
  inside := by
    intro b hb x hx
    rcases mem_cons.mp hb with rfl | hb
    · rcases Extent.mem_cut.mp hx with hx | hx
      · exact h.inside _ mem_cons_self x hx
      · exact h.inside _ (mem_cons_of_mem _ mem_cons_self) x hx
    · exact h.inside b (mem_cons_of_mem _ (mem_cons_of_mem _ hb)) x hx
  total := by
    rw [← h.total]
    simp only [Extent.total, map_cons, sum_cons]
    omega

/-- A new region is a block of its own. -/
theorem add (h : Tiles bs rs) (hr : ∀ q ∈ rs, r.Disjoint q) : Tiles (r :: bs) (r :: rs) where
  disjoint := by
    refine .cons (fun b hb x hrx hbx => ?_) h.disjoint
    obtain ⟨q, hq, hqx⟩ := h.inside b hb x hbx
    exact hr q hq x hrx hqx
  inside := by
    intro b hb x hx
    rcases mem_cons.mp hb with rfl | hb
    · exact ⟨b, mem_cons_self, hx⟩
    · obtain ⟨q, hq, hqx⟩ := h.inside b hb x hx
      exact ⟨q, mem_cons_of_mem _ hq, hqx⟩
  total := by
    simp only [Extent.total, map_cons, sum_cons]
    exact congrArg (r.len + ·) h.total

/-- An empty extent can be left out. -/
theorem of_cons (h : Tiles (r :: bs) rs) (hr : r.len = 0) : Tiles bs rs where
  disjoint := (pairwise_cons.mp h.disjoint).2
  inside := fun b hb => h.inside b (mem_cons_of_mem r hb)
  total := by
    rw [← h.total]
    simp [Extent.total, hr]

theorem len_le (h : Tiles bs rs) {b : Extent} (hb : b ∈ bs) : b.len ≤ Extent.total rs := by
  rw [← h.total]
  exact single_le_sum (fun _ _ => Nat.zero_le _) _ (mem_map_of_mem hb)

end Tiles

/-! ## Chains of pointers -/

section Chain

variable {α : Type*} {next next' : α → α} {p p' q : α} {l : List α}

/-- A chain is given by the pointers of all its nodes but the last. -/
theorem isChain_congr (h : (l ++ [q]).IsChain fun a b => next a = b)
    (hnext : ∀ a ∈ l, next' a = next a) : (l ++ [q]).IsChain fun a b => next' a = b := by
  induction l with
  | nil => exact .singleton q
  | cons a l ih =>
    have htail := ih h.tail fun b hb => hnext b (mem_cons_of_mem a hb)
    have ha := hnext a mem_cons_self
    cases l with
    | nil =>
      obtain ⟨hab, -⟩ := isChain_cons_cons.mp h
      exact .cons_cons (ha.trans hab) htail
    | cons b l =>
      obtain ⟨hab, -⟩ := isChain_cons_cons.mp h
      exact .cons_cons (ha.trans hab) htail

/-- Another node takes the place of the first. -/
theorem isChain_rehead (h : (p :: (l ++ [q])).IsChain fun a b => next a = b)
    (hp : next' p' = next p) (hnext : ∀ a ∈ l, next' a = next a) :
    (p' :: (l ++ [q])).IsChain fun a b => next' a = b := by
  have htail := isChain_congr h.tail hnext
  cases l with
  | nil =>
    obtain ⟨hpq, -⟩ := isChain_cons_cons.mp h
    exact .cons_cons (hp.trans hpq) htail
  | cons a l =>
    obtain ⟨hpa, -⟩ := isChain_cons_cons.mp h
    exact .cons_cons (hp.trans hpa) htail

end Chain

end OsCa
