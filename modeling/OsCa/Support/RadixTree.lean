import Mathlib.Data.List.Infix

/-!
# Trees of tables

This module is independent of the repository.  A table at `t` has entries `m t k`, and
`child` says which entries point to another table.  A path is the list of the indices
used from the root on.  In a tree whose tables are distinct, a change of one entry is seen
on the paths through this entry and on no others.
-/

namespace OsCa.Radix

open List

variable {ι κ ε : Type} (child : ε → Option ι)

/-- The table at the end of a path from `r`. -/
def descend (m : ι → κ → ε) : ι → List κ → Option ι
  | r, [] => some r
  | r, k :: ks => (child (m r k)).bind fun t => descend m t ks

/-- Paths of at most `n` indices lead to distinct tables. -/
def Separate (m : ι → κ → ε) (r : ι) (n : ℕ) : Prop :=
  ∀ p q t, p.length ≤ n → q.length ≤ n → descend child m r p = some t →
    descend child m r q = some t → p = q

variable {child} {m m' : ι → κ → ε} {r t u : ι} {n : ℕ} {p q : List κ} {k : κ}

theorem descend_append : descend child m r (p ++ q) =
      (descend child m r p).bind fun t => descend child m t q := by
  induction p generalizing r with
  | nil => rfl
  | cons i p ih =>
    simp only [cons_append, descend, Option.bind_assoc]
    exact congrArg _ (funext fun t => ih)

/-- A path is the same in two memories that agree on its entries. -/
theorem descend_congr
    (h : ∀ p k t, p ++ [k] <+: q → descend child m r p = some t → m' t k = m t k) :
    descend child m' r q = descend child m r q := by
  induction q generalizing r with
  | nil => rfl
  | cons i q ih =>
    have hroot : m' r i = m r i := h [] i r ⟨q, rfl⟩ rfl
    rw [descend, descend, hroot]
    cases hchild : child (m r i) with
    | none => rfl
    | some t =>
      refine ih fun p k u hp hu => h (i :: p) k u ?_ ?_
      · exact cons_prefix_cons.mpr ⟨rfl, hp⟩
      · rw [descend, hchild]
        exact hu

section

variable (hs : Separate child m r n) (hp : descend child m r p = some t)
  (hlen : p.length = n) (hm : ∀ t' k', ¬ (t' = t ∧ k' = k) → m' t' k' = m t' k')

include hs hp hlen hm

/-- The last entry of the longest paths is not on any path to a table. -/
theorem descend_of_leaf (hq : q.length ≤ n) : descend child m' r q = descend child m r q := by
  refine descend_congr fun p' k' t' hpre ht' => hm t' k' ?_
  rintro ⟨rfl, rfl⟩
  have hle := hpre.length_le
  rw [length_append, length_singleton] at hle
  have heq := hs p' p t' (by omega) (by omega) ht' hp
  subst heq
  omega

theorem Separate.leaf : Separate child m' r n := by
  intro q q' u hq hq' hu hu'
  rw [descend_of_leaf hs hp hlen hm hq] at hu
  rw [descend_of_leaf hs hp hlen hm hq'] at hu'
  exact hs q q' u hq hq' hu hu'

end

section Insert

variable [DecidableEq κ]

/-- A table `u` without children is hung in at an entry without a child. -/
theorem descend_of_insert (hs : Separate child m r n) (hp : descend child m r p = some t)
    (hlen : p.length < n) (hnone : child (m t k) = none) (hsome : child (m' t k) = some u)
    (hfresh : ∀ q, q.length ≤ n → descend child m r q ≠ some u)
    (hempty : ∀ k', child (m' u k') = none)
    (hm : ∀ t' k', t' ≠ u → ¬ (t' = t ∧ k' = k) → m' t' k' = m t' k') (hq : q.length ≤ n) :
    descend child m' r q = if q = p ++ [k] then some u else descend child m r q := by
  -- The paths that do not go through the changed entry are as before.
  have hother : ∀ q, q.length ≤ n → ¬ p ++ [k] <+: q →
      descend child m' r q = descend child m r q := by
    intro q hq hnot
    refine descend_congr fun p' k' t' hpre ht' => ?_
    have hle := hpre.length_le
    rw [length_append, length_singleton] at hle
    refine hm t' k' ?_ ?_
    · rintro rfl
      exact hfresh p' (by omega) ht'
    · rintro ⟨rfl, rfl⟩
      obtain rfl := hs p' p t' (by omega) (by omega) ht' hp
      exact hnot hpre
  by_cases hthrough : p ++ [k] <+: q
  · obtain ⟨ks, rfl⟩ := hthrough
    have hp' : descend child m' r p = some t := by
      refine (hother p (by omega) fun hpre => ?_).trans hp
      have hle := hpre.length_le
      rw [length_append, length_singleton] at hle
      omega
    rw [append_assoc, descend_append, descend_append, hp', hp]
    simp only [Option.bind_some, singleton_append, descend, hsome, hnone, Option.bind_none]
    cases ks with
    | nil => simp [descend]
    | cons k' ks => simp [descend, hempty]
  · rw [hother q hq hthrough, if_neg]
    rintro rfl
    exact hthrough prefix_rfl

theorem Separate.insert (hs : Separate child m r n) (hdesc : ∀ q, q.length ≤ n →
      descend child m' r q = if q = p ++ [k] then some u else descend child m r q)
    (hfresh : ∀ q, q.length ≤ n → descend child m r q ≠ some u) :
    Separate child m' r n := by
  intro q q' v hq hq' hv hv'
  rw [hdesc q hq] at hv
  rw [hdesc q' hq'] at hv'
  split at hv
  next heq =>
    obtain rfl := Option.some.inj hv
    split at hv'
    next heq' => rw [heq, heq']
    next => exact absurd hv' (hfresh q' hq')
  next =>
    split at hv'
    next =>
      obtain rfl := Option.some.inj hv'
      exact absurd hv (hfresh q hq)
    next => exact hs q q' v hq hq' hv hv'

end Insert

end OsCa.Radix
