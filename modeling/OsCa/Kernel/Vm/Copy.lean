import OsCa.Kernel.Vm.Tree

/-!
# Copies between user memory and the kernel

`copyout`, `copyin` and `copyinstr` go through the range page by page.  What one round does
is said once, in `page_step`; the three loops then differ in what they do with the bytes.

An address is accessible if its page is mapped for the user.  Addresses from `MAXVA` on are
not, so a range that would wrap around is not accessible either.
-/

namespace OsCa.Vm

open Bytes OsCa.Action Radix Option
open Fs (PGSIZE)

variable {f g : ℕ → Byte} {v i : ℕ} {r : ℤ} {e : Pte}

/-- The frame of a page that the user can access. -/
def userFrame (s : Machine) (root : Addr) (v : ℕ) : Option Addr := if v < NPAGES then
    (lookup s root v).bind fun e => if e &&& PTE_U ≠ 0 then some (PTE2PA e) else none
  else none

def Accessible (s : Machine) (root : Addr) (va : ℕ) : Prop :=
  (userFrame s root (va / PGSIZE)).isSome

/-- The byte at a user address. -/
def userByte (s : Machine) (root : Addr) (va : ℕ) : Byte :=
  (userFrame s root (va / PGSIZE)).elim 0 fun a => peek (s.mem a) (va % PGSIZE)

/-- Distinct user pages have distinct frames, which are not the page at address 0 and hold no
tables. -/
structure UserMap (s : Machine) (root : Addr) : Prop where
  inj : ∀ v w a, userFrame s root v = some a → userFrame s root w = some a → v = w
  nonzero : ∀ v a, userFrame s root v = some a → a ≠ 0
  apart : ∀ v a, userFrame s root v = some a → a ∉ tables s root

variable {s t u : Machine} {root a : Addr} {va len : ℕ}

theorem lookup_of_userFrame {f : Addr} (h : userFrame s root v = some f) :
    v < NPAGES ∧ ∃ e, lookup s root v = some e ∧ PTE2PA e = f ∧ e &&& PTE_U ≠ 0 := by
  unfold userFrame at h
  split at h
  next hv =>
    obtain ⟨e, he, hu⟩ := bind_eq_some_iff.mp h
    split at hu
    next huser => exact ⟨hv, e, he, some.inj hu, huser⟩
    next => cases hu
  next => cases h

theorem walkaddr_eq (s : Machine) (root : Addr) (va : ℕ) :
    walkaddr root va s = .ok ((userFrame s root (va / PGSIZE)).getD 0, s) := by
  have hiff : va < MAXVA ↔ va / PGSIZE < NPAGES := by
    unfold MAXVA NPAGES Fs.PGSIZE
    omega
  unfold walkaddr userFrame
  split
  next hge =>
    rw [if_neg (by rw [← hiff]; omega)]
    rfl
  next hlt =>
    have hva : va < MAXVA := by omega
    rw [bind_of_ok (walk_read hva), if_pos (hiff.mp hva), lookup]
    cases leafTable s root (va / PGSIZE) with
    | none => rfl
    | some table =>
      change (if s.pte table (index 0 (va / PGSIZE)) &&& PTE_V = 0 then _ else _ : M Addr) s = _
      rw [bind_some, present]
      split
      next hv =>
        rw [if_neg (not_not.mpr hv)]
        rfl
      next hv =>
        rw [bind_some]
        split
        next hu =>
          rw [if_neg (not_not.mpr hu)]
          rfl
        next => rfl

theorem walkaddr_round (s : Machine) (root : Addr) (va : ℕ) :
    walkaddr root (PGROUNDDOWN va) s = .ok ((userFrame s root (va / PGSIZE)).getD 0, s) := by
  rw [walkaddr_eq, PGROUNDDOWN, Nat.mul_div_cancel _ (by decide)]

/-- One round at an accessible address handles `n` bytes of its page. -/
theorem page_step (h : userFrame s root (va / PGSIZE) = some a) (hlen : 0 < len) :
    ∃ n, min (PGSIZE - (va - PGROUNDDOWN va)) len = n ∧ 0 < n ∧ n ≤ len ∧
      va - PGROUNDDOWN va = va % PGSIZE ∧ va % PGSIZE + n ≤ PGSIZE ∧
      (∀ i < n, (va + i) / PGSIZE = va / PGSIZE ∧ (va + i) % PGSIZE = va % PGSIZE + i) ∧
      (n < len → PGSIZE ∣ va + n ∧ (PGROUNDDOWN va + PGSIZE) % 2 ^ 64 = va + n) := by
  have hpage : va / PGSIZE < 67108864 := by
    by_contra hge
    have hout : ¬ va / PGSIZE < NPAGES := hge
    rw [userFrame, if_neg hout] at h
    cases h
  refine ⟨_, rfl, ?_⟩
  unfold PGROUNDDOWN
  unfold Fs.PGSIZE at hpage ⊢
  refine ⟨by omega, by omega, by omega, by omega, fun i hi => ⟨by omega, by omega⟩,
    fun hlt => ⟨?_, by omega⟩⟩
  exact Nat.dvd_of_mod_eq_zero (by omega)

/-! ## `copyout` -/

/-- The bytes `src 0, ..., src (k - 1)` have been stored from `va` on, and nothing else has
changed. -/
structure Stored (root : Addr) (s t : Machine) (va : ℕ) (src : ℕ → Byte) (k : ℕ) : Prop where
  freelist : t.freelist = s.freelist
  hit : ∀ i < k, ∀ a, userFrame s root ((va + i) / PGSIZE) = some a →
    peek (t.mem a) ((va + i) % PGSIZE) = src i
  miss : ∀ a o, (∀ i < k, userFrame s root ((va + i) / PGSIZE) = some a →
    (va + i) % PGSIZE ≠ o) → peek (t.mem a) o = peek (s.mem a) o

namespace Stored

variable {src : ℕ → Byte} {k n : ℕ}

theorem refl (s : Machine) : Stored root s s va src 0 :=
  ⟨rfl, fun i hi => absurd hi (Nat.not_lt_zero i), fun _ _ _ => rfl⟩

/-- Pages that are not mapped for the user are unchanged. -/
theorem mem_eq (h : Stored root s t va src k) (ha : ∀ v, userFrame s root v ≠ some a) :
    t.mem a = s.mem a :=
  ext_peek fun o _ => h.miss a o fun _ _ hin => absurd hin (ha _)

section

variable (h : Stored root s t va src k) (hs : UserMap s root)

include h hs

theorem lookup_eq (v : ℕ) : lookup t root v = lookup s root v :=
  lookup_eq_of_mem fun _ ha => h.mem_eq fun v hv => hs.apart v _ hv ha

theorem userFrame_eq : userFrame t root = userFrame s root := by
  funext v
  rw [userFrame, h.lookup_eq hs, userFrame]

theorem userMap : UserMap t root := by
  have hframe := h.userFrame_eq hs
  have htables : tables t root = tables s root :=
    tables_eq_of_mem fun _ ha => h.mem_eq fun v hv => hs.apart v _ hv ha
  refine ⟨?_, ?_, ?_⟩
  · rw [hframe]
    exact hs.inj
  · rw [hframe]
    exact hs.nonzero
  · rw [hframe, htables]
    exact hs.apart

end

/-- A store within one page. -/
theorem page (h : userFrame s root (va / PGSIZE) = some a) (hfit : va % PGSIZE + n ≤ PGSIZE)
    (hpage : ∀ i < n, (va + i) / PGSIZE = va / PGSIZE ∧ (va + i) % PGSIZE = va % PGSIZE + i) :
    Stored root s (s.store a (va % PGSIZE) n src) va src n := by
  have hmem : (s.store a (va % PGSIZE) n src).mem a = blit (s.mem a) (va % PGSIZE) n src :=
    Function.update_self ..
  refine ⟨rfl, fun i hi b hb => ?_, fun b o hmiss => ?_⟩
  · obtain ⟨hdiv, hmod⟩ := hpage i hi
    rw [hdiv, h] at hb
    obtain rfl := some.inj hb
    rw [hmem, hmod, peek_blit_of_mem (by omega) (by omega) (by omega), Nat.add_sub_cancel_left]
  · by_cases hb : b = a
    · subst hb
      rw [hmem, peek_blit_of_not_mem]
      by_contra hin
      refine hmiss (o - va % PGSIZE) (by omega) ?_ ?_
      · rw [(hpage _ (by omega)).1, h]
      · rw [(hpage _ (by omega)).2]
        omega
    · exact congrArg (peek · o) (Function.update_of_ne hb _ _)

theorem append (h : Stored root s t va src n) (hs : UserMap s root)
    (h' : Stored root t u (va + n) (fun i => src (n + i)) k) :
    Stored root s u va src (n + k) := by
  have hframe := h.userFrame_eq hs
  refine ⟨h'.freelist.trans h.freelist, fun i hi a ha => ?_, fun a o hmiss => ?_⟩
  · rcases Nat.lt_or_ge i n with hlt | hge
    · rw [h'.miss a _ fun j hj hin => ?_, h.hit i hlt a ha]
      rw [hframe] at hin
      have hpage := hs.inj _ _ _ ha hin
      unfold Fs.PGSIZE at hpage ⊢
      omega
    · obtain ⟨j, rfl⟩ := Nat.exists_eq_add_of_le hge
      rw [← Nat.add_assoc] at ha ⊢
      exact h'.hit j (by omega) a (by rwa [hframe])
  · rw [h'.miss a o fun j hj hin => ?_, h.miss a o fun i hi => hmiss i (by omega)]
    rw [hframe] at hin
    have := hmiss (n + j) (by omega)
    rw [← Nat.add_assoc] at this
    exact this hin

theorem userByte_eq (h : Stored root s t va src k) (hs : UserMap s root) (hi : i < k)
    (hacc : Accessible s root (va + i)) : userByte t root (va + i) = src i := by
  obtain ⟨a, ha⟩ := isSome_iff_exists.mp hacc
  rw [userByte, h.userFrame_eq hs, ha]
  exact h.hit i hi a ha

end Stored

/-- How far a copy of `len` bytes has come: all is done, or the address after `k` bytes, which
begins the range or a page, is not accessible. -/
def Ends (s : Machine) (root : Addr) (va len : ℕ) (r : ℤ) (k : ℕ) : Prop :=
  r = 0 ∧ k = len ∧ (∀ i < len, Accessible s root (va + i)) ∨
    r = -1 ∧ k < len ∧ (k = 0 ∨ PGSIZE ∣ va + k) ∧ ¬ Accessible s root (va + k)

theorem Ends.zero_iff {k : ℕ} (h : Ends s root va len r k) :
    r = 0 ↔ ∀ i < len, Accessible s root (va + i) := by
  rcases h with ⟨rfl, -, hall⟩ | ⟨rfl, hlt, -, hnot⟩
  · exact iff_of_true rfl hall
  · exact iff_of_false (by decide) fun hall => hnot (hall k hlt)

/-- A round of `n` bytes before the rest. -/
theorem Ends.step {n k : ℕ} (h : userFrame s root (va / PGSIZE) = some a)
    (hpage : ∀ i < n, (va + i) / PGSIZE = va / PGSIZE ∧
      (va + i) % PGSIZE = va % PGSIZE + i) (hle : n ≤ len)
    (hdvd : n < len → PGSIZE ∣ va + n) (hrest : Ends s root (va + n) (len - n) r k) :
    Ends s root va len r (n + k) := by
  rcases hrest with ⟨rfl, rfl, hall⟩ | ⟨rfl, hlt, hk, hnot⟩
  · refine Or.inl ⟨rfl, by omega, fun i hi => ?_⟩
    rcases Nat.lt_or_ge i n with hin | hge
    · rw [Accessible, (hpage i hin).1, h]
      rfl
    · have := hall (i - n) (by omega)
      rwa [show va + n + (i - n) = va + i by omega] at this
  · rw [Nat.add_assoc] at hk hnot
    refine Or.inr ⟨rfl, by omega, Or.inr ?_, hnot⟩
    rcases hk with rfl | hk
    · exact hdvd (by omega)
    · exact hk

/-- The next address does not matter once all bytes have been handled. -/
theorem next_eq {α : Type} {n : ℕ} {f : ℕ → ℕ → α}
    (hnext : n < len → PGSIZE ∣ va + n ∧ (PGROUNDDOWN va + PGSIZE) % 2 ^ 64 = va + n)
    (hzero : ∀ x y, f x 0 = f y 0) :
    f ((PGROUNDDOWN va + PGSIZE) % 2 ^ 64) (len - n) = f (va + n) (len - n) := by
  rcases Nat.lt_or_ge n len with hlt | hge
  · rw [(hnext hlt).2]
  · rw [Nat.sub_eq_zero_of_le hge]
    exact hzero _ _

theorem copyoutLoop_zero (fuel : ℕ) (src : ℕ → Byte) :
    copyoutLoop root fuel va src 0 s = .ok (0, s) := by
  cases fuel <;> rfl

theorem Ends.zero (s : Machine) (root : Addr) (va : ℕ) : Ends s root va 0 0 0 :=
  Or.inl ⟨rfl, rfl, fun i hi => absurd hi (Nat.not_lt_zero i)⟩

theorem Ends.none (h : userFrame s root (va / PGSIZE) = none) (hlen : 0 < len) :
    Ends s root va len (-1) 0 := by
  refine Or.inr ⟨rfl, hlen, Or.inl rfl, ?_⟩
  rw [Accessible, Nat.add_zero, h]
  simp

theorem copyoutLoop_spec {fuel : ℕ} {src : ℕ → Byte} (h : UserMap s root)
    (hfuel : len ≤ fuel) : ∃ r t k, copyoutLoop root fuel va src len s = .ok (r, t) ∧
      Stored root s t va src k ∧ Ends s root va len r k := by
  induction fuel generalizing s va src len with
  | zero =>
    obtain rfl : len = 0 := by omega
    exact ⟨0, s, 0, rfl, .refl s, .zero ..⟩
  | succ fuel ih =>
    rcases Nat.eq_zero_or_pos len with rfl | hpos
    · exact ⟨0, s, 0, copyoutLoop_zero .., .refl s, .zero ..⟩
    unfold copyoutLoop
    rw [if_pos hpos, bind_of_ok (walkaddr_round s root va)]
    cases hframe : userFrame s root (va / PGSIZE) with
    | none => exact ⟨-1, s, 0, rfl, .refl s, .none hframe hpos⟩
    | some a =>
      obtain ⟨n, hn, hn0, hle, hoff, hfit, hpage, hnext⟩ := page_step hframe hpos
      rw [getD_some, if_neg (h.nonzero _ a hframe), hn, hoff]
      have hst : Stored root s (s.store a (va % PGSIZE) n src) va src n := .page hframe hfit hpage
      obtain ⟨r, t, k, hrun, hk, hends⟩ := @ih _ (va + n) (len - n) (fun i => src (n + i))
        (hst.userMap h) (by omega)
      unfold Ends Accessible at hends
      rw [hst.userFrame_eq h] at hends
      refine ⟨r, t, n + k, ?_, hst.append h hk,
        .step hframe hpage hle (fun hlt => (hnext hlt).1) hends⟩
      rw [← hrun]
      exact next_eq (f := fun x y => copyoutLoop root fuel x (fun i => src (n + i)) y
        (s.store a (va % PGSIZE) n src)) hnext fun x y => by rw [copyoutLoop_zero, copyoutLoop_zero]

/-! ## `copyin` -/

section Copyin

variable {fuel pos max : ℕ} {dst : ℕ → Byte}

theorem fill_zero (f : ℕ → Byte) : fill dst pos 0 f = dst := by
  funext j
  exact if_neg (by omega)

theorem fill_congr {n : ℕ} (h : ∀ i < n, f i = g i) : fill dst pos n f = fill dst pos n g := by
  funext j
  unfold fill
  split
  next => exact h _ (by omega)
  next => rfl

theorem fill_fill {n k : ℕ} (b : ℕ → Byte) (hf : ∀ i < n, f i = b i)
    (hg : ∀ i < k, g i = b (n + i)) :
    fill (fill dst pos n f) (pos + n) k g = fill dst pos (n + k) b := by
  funext j
  unfold fill
  by_cases hk : pos + n ≤ j ∧ j < pos + n + k
  · rw [if_pos hk, if_pos (by omega), hg _ (by omega)]
    congr 1
    omega
  · rw [if_neg hk]
    by_cases hn : pos ≤ j ∧ j < pos + n
    · rw [if_pos hn, if_pos (by omega), hf _ (by omega)]
    · rw [if_neg hn, if_neg (by omega)]

theorem userByte_page {n : ℕ} (h : userFrame s root (va / PGSIZE) = some a)
    (hpage : ∀ i < n, (va + i) / PGSIZE = va / PGSIZE ∧
      (va + i) % PGSIZE = va % PGSIZE + i) (hi : i < n) :
    Accessible s root (va + i) ∧ userByte s root (va + i) = peek (s.mem a) (va % PGSIZE + i) := by
  obtain ⟨hdiv, hmod⟩ := hpage i hi
  rw [Accessible, userByte, hdiv, hmod, h]
  exact ⟨rfl, rfl⟩

theorem copyinLoop_zero (fuel : ℕ) (dst : ℕ → Byte) :
    copyinLoop root fuel dst pos va 0 s = .ok ((0, dst), s) := by
  cases fuel <;> rfl

theorem copyinLoop_spec (h : UserMap s root) (hfuel : len ≤ fuel) :
    ∃ r k, copyinLoop root fuel dst pos va len s =
        .ok ((r, fill dst pos k fun i => userByte s root (va + i)), s) ∧
      Ends s root va len r k := by
  induction fuel generalizing dst pos va len with
  | zero =>
    obtain rfl : len = 0 := by omega
    refine ⟨0, 0, ?_, .zero ..⟩
    rw [fill_zero, copyinLoop_zero]
  | succ fuel ih =>
    rcases Nat.eq_zero_or_pos len with rfl | hpos
    · refine ⟨0, 0, ?_, .zero ..⟩
      rw [fill_zero, copyinLoop_zero]
    unfold copyinLoop
    rw [if_pos hpos, bind_of_ok (walkaddr_round s root va)]
    cases hframe : userFrame s root (va / PGSIZE) with
    | none =>
      refine ⟨-1, 0, ?_, .none hframe hpos⟩
      rw [fill_zero]
      rfl
    | some a =>
      obtain ⟨n, hn, hn0, hle, hoff, hfit, hpage, hnext⟩ := page_step hframe hpos
      rw [getD_some, if_neg (h.nonzero _ a hframe), hn, hoff]
      obtain ⟨r, k, hrun, hends⟩ := @ih (va + n) (len - n) (pos + n)
        (fill dst pos n fun i => peek (s.mem a) (va % PGSIZE + i)) (by omega)
      refine ⟨r, n + k, ?_, .step hframe hpage hle (fun hlt => (hnext hlt).1) hends⟩
      rw [fill_fill (fun i => userByte s root (va + i))
        (fun i hi => (userByte_page hframe hpage hi).2.symm)
        (fun i _ => by rw [Nat.add_assoc])] at hrun
      rw [← hrun]
      exact next_eq (f := fun x y => copyinLoop root fuel
        (fill dst pos n fun i => peek (s.mem a) (va % PGSIZE + i)) (pos + n) x y s) hnext
        fun x y => by rw [copyinLoop_zero, copyinLoop_zero]

/-! ## `copyinstr` -/

theorem update_eq_fill (x : Byte) : Function.update dst pos x = fill dst pos 1 fun _ => x := by
  funext j
  unfold fill
  rw [Function.update_apply]
  exact if_congr (by omega) rfl rfl

/-- The inner loop copies up to the first `NUL`. -/
theorem scanPage_spec (page : Page) (n p : ℕ) (dst : ℕ → Byte) (pos : ℕ) :
    (∃ k < n, (∀ i < k, peek page (p + i) ≠ 0) ∧ peek page (p + k) = 0 ∧
      scanPage page n p dst pos = (true, fill dst pos (k + 1) fun i => peek page (p + i))) ∨
    (∀ i < n, peek page (p + i) ≠ 0) ∧
      scanPage page n p dst pos = (false, fill dst pos n fun i => peek page (p + i)) := by
  induction n generalizing p dst pos with
  | zero =>
    refine Or.inr ⟨fun i hi => absurd hi (Nat.not_lt_zero i), ?_⟩
    rw [fill_zero]
    rfl
  | succ n ih =>
    have hfill : ∀ k, fill (fill dst pos 1 fun _ => peek page p) (pos + 1) k
        (fun i => peek page (p + 1 + i)) = fill dst pos (1 + k) fun i => peek page (p + i) :=
      fun k => fill_fill _ (fun i hi => by rw [show i = 0 by omega, Nat.add_zero])
        (fun i _ => by rw [Nat.add_assoc])
    have hshift : ∀ k, (∀ i < k, peek page (p + 1 + i) ≠ 0) → peek page p ≠ 0 →
        ∀ i < k + 1, peek page (p + i) ≠ 0 := by
      intro k hk h0 i hi
      cases i with
      | zero => exact h0
      | succ i =>
        rw [Nat.add_comm i 1, ← Nat.add_assoc]
        exact hk i (by omega)
    unfold scanPage
    split
    next hzero =>
      refine Or.inl ⟨0, by omega, fun i hi => absurd hi (Nat.not_lt_zero i), hzero, ?_⟩
      rw [update_eq_fill, ← hzero]
      have := hfill 0
      rw [fill_zero] at this
      rw [this]
    next hne =>
      rw [update_eq_fill]
      rcases ih (p + 1) (fill dst pos 1 fun _ => peek page p) (pos + 1) with
        ⟨k, hk, hbefore, hnul, heq⟩ | ⟨hall, heq⟩
      · refine Or.inl ⟨k + 1, by omega, hshift k hbefore hne, ?_, ?_⟩
        · rwa [Nat.add_comm k 1, ← Nat.add_assoc]
        · rw [heq, hfill, Nat.add_comm 1]
      · refine Or.inr ⟨hshift n hall hne, ?_⟩
        rw [heq, hfill, Nat.add_comm 1]

/-- The string at `va` ends after `k` bytes. -/
def StringAt (s : Machine) (root : Addr) (va k : ℕ) : Prop :=
  (∀ i ≤ k, Accessible s root (va + i)) ∧ (∀ i < k, userByte s root (va + i) ≠ 0) ∧
    userByte s root (va + k) = 0

/-- No byte before the first inaccessible one, or before the end, is a `NUL`. -/
def Endless (s : Machine) (root : Addr) (va max : ℕ) : Prop :=
  ∀ k < max, (∀ i ≤ k, Accessible s root (va + i)) → userByte s root (va + k) ≠ 0

theorem copyinstrLoop_zero (fuel : ℕ) (dst : ℕ → Byte) :
    copyinstrLoop root fuel dst pos va 0 s = .ok ((-1, dst), s) := by
  cases fuel <;> rfl

theorem copyinstrLoop_spec (h : UserMap s root) (hfuel : max ≤ fuel) :
    (∃ k < max, StringAt s root va k ∧ copyinstrLoop root fuel dst pos va max s =
      .ok ((0, fill dst pos (k + 1) fun i => userByte s root (va + i)), s)) ∨
    Endless s root va max ∧ ∃ buf,
      copyinstrLoop root fuel dst pos va max s = .ok ((-1, buf), s) := by
  induction fuel generalizing dst pos va max with
  | zero =>
    obtain rfl : max = 0 := by omega
    exact Or.inr ⟨fun k hk => absurd hk (Nat.not_lt_zero k), dst, rfl⟩
  | succ fuel ih =>
    rcases Nat.eq_zero_or_pos max with rfl | hpos
    · exact Or.inr ⟨fun k hk => absurd hk (Nat.not_lt_zero k), dst, copyinstrLoop_zero ..⟩
    cases hframe : userFrame s root (va / PGSIZE) with
    | none =>
      refine Or.inr ⟨fun k _ hacc => ?_, dst, ?_⟩
      · have hfirst := hacc 0 (Nat.zero_le k)
        rw [Accessible, Nat.add_zero, hframe] at hfirst
        cases hfirst
      · rw [copyinstrLoop, if_pos hpos, bind_of_ok (walkaddr_round s root va), hframe]
        rfl
    | some a =>
      obtain ⟨n, hn, hn0, hle, hoff, hfit, hpage, hnext⟩ := page_step hframe hpos
      have hround : ∀ found buf, scanPage (s.mem a) n (va % PGSIZE) dst pos = (found, buf) →
          copyinstrLoop root (fuel + 1) dst pos va max s =
            if found then .ok ((0, buf), s) else copyinstrLoop root fuel buf (pos + n)
              ((PGROUNDDOWN va + PGSIZE) % 2 ^ 64) (max - n) s := by
        intro found buf heq
        rw [copyinstrLoop, if_pos hpos, bind_of_ok (walkaddr_round s root va), hframe,
          getD_some, if_neg (h.nonzero _ a hframe), hn, hoff,
          bind_of_ok (x := read) rfl, heq]
        cases found <;> rfl
      have hbyte := fun {i} (hi : i < n) => userByte_page hframe hpage hi
      rcases scanPage_spec (s.mem a) n (va % PGSIZE) dst pos with
        ⟨k, hk, hbefore, hnul, heq⟩ | ⟨hall, heq⟩
      · -- The string ends on this page.
        refine Or.inl ⟨k, by omega, ⟨fun i hi => (hbyte (by omega)).1, fun i hi => ?_, ?_⟩, ?_⟩
        · rw [(hbyte (by omega)).2]
          exact hbefore i hi
        · rw [(hbyte hk).2, hnul]
        · rw [hround _ _ heq, if_pos rfl, fill_congr fun i hi => (hbyte (by omega)).2]
      · rw [hround _ _ heq, if_neg Bool.false_ne_true]
        have hrest := next_eq (f := fun x y => copyinstrLoop root fuel
          (fill dst pos n fun i => peek (s.mem a) (va % PGSIZE + i)) (pos + n) x y s) hnext
          fun x y => by rw [copyinstrLoop_zero, copyinstrLoop_zero]
        rw [hrest]
        rcases @ih (va + n) (pos + n) (max - n)
          (fill dst pos n fun i => peek (s.mem a) (va % PGSIZE + i)) (by omega) with
          ⟨k, hk, ⟨hacc, hbefore, hnul⟩, heq'⟩ | ⟨hendless, buf, heq'⟩
        · refine Or.inl ⟨n + k, by omega, ⟨fun i hi => ?_, fun i hi => ?_, ?_⟩, ?_⟩
          · rcases Nat.lt_or_ge i n with hlt | hge
            · exact (hbyte hlt).1
            · have := hacc (i - n) (by omega)
              rwa [show va + n + (i - n) = va + i by omega] at this
          · rcases Nat.lt_or_ge i n with hlt | hge
            · rw [(hbyte hlt).2]
              exact hall i hlt
            · have := hbefore (i - n) (by omega)
              rwa [show va + n + (i - n) = va + i by omega] at this
          · rwa [← Nat.add_assoc]
          · rw [heq', fill_fill (fun i => userByte s root (va + i))
              (fun i hi => (hbyte hi).2.symm) (fun i _ => by rw [Nat.add_assoc]),
              Nat.add_assoc]
        · refine Or.inr ⟨fun k hk hacc => ?_, buf, heq'⟩
          rcases Nat.lt_or_ge k n with hlt | hge
          · rw [(hbyte hlt).2]
            exact hall k hlt
          · have := hendless (k - n) (by omega) fun i hi => by
              have := hacc (n + i) (by omega)
              rwa [← Nat.add_assoc] at this
            rwa [show va + n + (k - n) = va + k by omega] at this

end Copyin

/-- The copies succeed exactly if they can, move exactly the bytes asked for, and stop at the
end of a page when they fail. -/
theorem user_copies (h : UserMap s root) (va len : ℕ) (src dst : ℕ → Byte) :
    (∃ r t, copyout root va src len s = .ok (r, t) ∧
      (r = 0 ↔ ∀ i < len, Accessible s root (va + i)) ∧
      (r = 0 → Stored root s t va src len ∧
        copyin root dst va len t = .ok ((0, fill dst 0 len src), t)) ∧
      (r ≠ 0 → r = -1 ∧ ∃ k < len, (k = 0 ∨ PGSIZE ∣ va + k) ∧ Stored root s t va src k)) ∧
    (∃ r k, copyin root dst va len s =
        .ok ((r, fill dst 0 k fun i => userByte s root (va + i)), s) ∧
      (r = 0 ↔ ∀ i < len, Accessible s root (va + i)) ∧ (r = 0 → k = len) ∧
      (r ≠ 0 → r = -1 ∧ k < len ∧ (k = 0 ∨ PGSIZE ∣ va + k))) ∧
    ∃ r buf, copyinstr root dst va len s = .ok ((r, buf), s) ∧
      (r = 0 ↔ ∃ k < len, (∀ i ≤ k, Accessible s root (va + i)) ∧ userByte s root (va + k) = 0) ∧
      (r = 0 → ∃ k < len, StringAt s root va k ∧
        buf = fill dst 0 (k + 1) fun i => userByte s root (va + i)) := by
  refine ⟨?_, ?_, ?_⟩
  · obtain ⟨r, t, k, hrun, hst, hends⟩ := @copyoutLoop_spec s root va len len src h le_rfl
    refine ⟨r, t, hrun, hends.zero_iff, fun hr => ?_, fun hr => ?_⟩
    · rcases hends with ⟨-, rfl, hall⟩ | ⟨rfl, -⟩
      · obtain ⟨r', k', hrun', hends'⟩ := copyinLoop_spec (hst.userMap h) le_rfl
        have hacc : ∀ i < k, Accessible t root (va + i) := fun i hi => by
          rw [Accessible, hst.userFrame_eq h]
          exact hall i hi
        obtain rfl := hends'.zero_iff.mpr hacc
        obtain rfl : k' = k := by
          rcases hends' with ⟨-, hk, -⟩ | ⟨hr', -⟩
          · exact hk
          · exact absurd hr' (by decide)
        refine ⟨hst, hrun'.trans ?_⟩
        rw [fill_congr fun i hi => hst.userByte_eq h hi (hall i hi)]
      · exact absurd hr (by decide)
    · rcases hends with ⟨rfl, -⟩ | ⟨rfl, hlt, hk, -⟩
      · exact absurd rfl hr
      · exact ⟨rfl, k, hlt, hk, hst⟩
  · obtain ⟨r, k, hrun, hends⟩ := @copyinLoop_spec s root va len len 0 dst h le_rfl
    refine ⟨r, k, hrun, hends.zero_iff, fun hr => ?_, fun hr => ?_⟩
    · rcases hends with ⟨-, hk, -⟩ | ⟨rfl, -⟩
      · exact hk
      · exact absurd hr (by decide)
    · rcases hends with ⟨rfl, -⟩ | ⟨rfl, hlt, hk, -⟩
      · exact absurd rfl hr
      · exact ⟨rfl, hlt, hk⟩
  · rcases @copyinstrLoop_spec s root va len 0 len dst h le_rfl with
      ⟨k, hk, hstr, hrun⟩ | ⟨hendless, buf, hrun⟩
    · refine ⟨0, _, hrun, iff_of_true rfl ⟨k, hk, hstr.1, hstr.2.2⟩, fun _ => ⟨k, hk, hstr, rfl⟩⟩
    · refine ⟨-1, buf, hrun, iff_of_false (by decide) ?_, fun hr => absurd hr (by decide)⟩
      rintro ⟨k, hk, hacc, hnul⟩
      exact hendless k hk hacc hnul

/-! ## One page -/

/-- Three tables, with the entry `e` for page 0. -/
def onePage (e : Pte) : Machine :=
  (((⟨fun _ _ => 0, [], []⟩ : Machine).setPte 0x1000 0 0x801).setPte 0x2000 0 0xc01).setPte
    0x3000 0 e

theorem pte_onePage (e : Pte) (a : Addr) (i : ℕ) :
    (onePage e).pte a i = if a = 0x3000 ∧ i = 0 then e else if a = 0x2000 ∧ i = 0 then 0xc01
      else if a = 0x1000 ∧ i = 0 then 0x801 else 0 := by
  have hzero : (⟨fun _ _ => 0, [], []⟩ : Machine).pte a i = 0 := by
    refine word_of_bytes fun j _ => ?_
    unfold peek
    split <;> simp
  rw [onePage, pte_setPte (by decide), pte_setPte (by decide), pte_setPte (by decide), hzero]

theorem descend_onePage {p : List ℕ} (hlen : p.length ≤ 2)
    (h : descend next (onePage e).pte 0x1000 p = some a) :
    p = [] ∧ a = 0x1000 ∨ p = [0] ∧ a = 0x2000 ∨ p = [0, 0] ∧ a = 0x3000 := by
  have hfirst : ∀ i, next ((onePage e).pte 0x1000 i) = if i = 0 then some 0x2000 else none := by
    intro i
    rw [pte_onePage]
    split_ifs with h1 h2 h3 h4 h5 h6 <;> first | decide | simp_all
  have hsecond : ∀ i, next ((onePage e).pte 0x2000 i) = if i = 0 then some 0x3000 else none := by
    intro i
    rw [pte_onePage]
    split_ifs with h1 h2 h3 h4 h5 h6 <;> first | decide | simp_all
  match p with
  | [] => exact Or.inl ⟨rfl, (some.inj h).symm⟩
  | [i] =>
    rw [descend, hfirst] at h
    split at h
    next hi => exact Or.inr (Or.inl ⟨by rw [hi], (some.inj h).symm⟩)
    next => cases h
  | [i, j] =>
    rw [descend, hfirst] at h
    split at h
    next hi =>
      rw [bind_some, descend, hsecond] at h
      split at h
      next hj => exact Or.inr (Or.inr ⟨by rw [hi, hj], (some.inj h).symm⟩)
      next => cases h
    next => cases h
  | _ :: _ :: _ :: _ => simp at hlen

theorem lookup_onePage {e' : Pte} (hv : v < NPAGES)
    (h : lookup (onePage e) 0x1000 v = some e') : v = 0 ∧ e' = e := by
  obtain ⟨table, htable, hpte⟩ := bind_eq_some_iff.mp h
  have hpath := descend_onePage (length_walkPath v 2).le htable
  simp only [walkPath, List.cons.injEq, reduceCtorEq, false_and, and_true, and_false,
    false_or] at hpath
  obtain ⟨⟨h2, h1⟩, rfl⟩ := hpath
  rw [pte_onePage] at hpte
  have hindex : index 0 v = 0 := by
    by_contra hne
    simp [hne, present] at hpte
  rw [if_pos ⟨rfl, hindex⟩] at hpte
  refine ⟨page_inj hv (by decide) ?_ hindex, (present_eq_some hpte).1.symm⟩
  simp only [walkPath, h1, h2]
  rfl

theorem userFrame_onePage (h : userFrame (onePage e) 0x1000 v = some a) : v = 0 ∧ a = PTE2PA e := by
  obtain ⟨hv, e', he, rfl, -⟩ := lookup_of_userFrame h
  obtain ⟨rfl, rfl⟩ := lookup_onePage hv he
  exact ⟨rfl, rfl⟩

theorem userMap_onePage : UserMap (onePage 0x1017) 0x1000 := by
  refine ⟨fun v w a hv hw => ?_, fun v a hv => ?_, fun v a hv => ?_⟩
  · rw [(userFrame_onePage hv).1, (userFrame_onePage hw).1]
  · rw [(userFrame_onePage hv).2]
    decide
  · rw [(userFrame_onePage hv).2]
    rintro ⟨p, hlen, hp⟩
    rcases descend_onePage hlen hp with ⟨-, h⟩ | ⟨-, h⟩ | ⟨-, h⟩
    · exact absurd h (by decide)
    · exact absurd h (by decide)
    · exact absurd h (by decide)

theorem user_copies_onePage : Accessible (onePage 0x1017) 0x1000 5 ∧
    ∃ r t, copyout 0x1000 4094 (fun _ => 7) 4 (onePage 0x1017) = .ok (r, t) ∧
      (r = 0 ↔ ∀ i < 4, Accessible (onePage 0x1017) 0x1000 (4094 + i)) := by
  obtain ⟨⟨r, t, hrun, hiff, -⟩, -⟩ := user_copies userMap_onePage 4094 4 (fun _ => 7) fun _ => 0
  exact ⟨by unfold Accessible; decide +kernel, r, t, hrun, hiff⟩

/-- A page with the frame at address 0 is accessible, but `copyout` fails.  A page with the
frame of its own table can be written, but not read afterwards. -/
theorem copies_depend_on_frames : (∀ v w a, userFrame (onePage 0x17) 0x1000 v = some a →
      userFrame (onePage 0x17) 0x1000 w = some a → v = w) ∧
    Accessible (onePage 0x17) 0x1000 0 ∧
    (match copyout 0x1000 0 (fun _ => 0) 1 (onePage 0x17) with
      | .ok (r, _) => decide (r = -1)
      | .error _ => false) = true ∧
    (∀ v w a, userFrame (onePage 0xc17) 0x1000 v = some a →
      userFrame (onePage 0xc17) 0x1000 w = some a → v = w) ∧
    (match copyout 0x1000 0 (fun _ => 0) 1 (onePage 0xc17) with
      | .ok (r, t) => decide (r = 0) && (match copyin 0x1000 (fun _ => 0) 0 1 t with
          | .ok ((r, _), _) => decide (r = -1)
          | .error _ => false)
      | .error _ => false) = true := by
  refine ⟨fun v w a hv hw => ?_, by unfold Accessible; decide +kernel, by decide +kernel,
    fun v w a hv hw => ?_, by decide +kernel⟩
  · rw [(userFrame_onePage hv).1, (userFrame_onePage hw).1]
  · rw [(userFrame_onePage hv).1, (userFrame_onePage hw).1]

end OsCa.Vm
