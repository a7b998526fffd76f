import OsCa.Kernel.Fs.Content

/-!
# Changed blocks are logged

Every function of the file system calls `log_write` for the blocks it changes
before it releases their buffers, with one exception: when `either_copyin` fails
in `writei`, the buffer is released as it is.  If the copy has stored bytes
before it failed, the block has changed and is not logged.
-/

namespace OsCa.Fs

open Bytes Fallible

variable {addr : Uint} {i n tot off src m len : ℕ} {userDst ok userSrc : Bool}
  {dst dst' : Block} {mem mem' : Memory} {r : ℤ}

/-- From `s` to `t`, only logged blocks change. -/
structure Logs (s t : State) : Prop where
  mono : ∀ b ∈ s.logged, b ∈ t.logged
  same : ∀ b, b ∉ t.logged → t.disk b = s.disk b

variable {sb : Superblock} {s t u : State} {inum : ℕ}

namespace Logs

theorem refl (s : State) : Logs s s := ⟨fun _ hb => hb, fun _ _ => rfl⟩

theorem trans (h : Logs s t) (h' : Logs t u) : Logs s u where
  mono b hb := h'.mono b (h.mono b hb)
  same b hb := (h'.same b hb).trans (h.same b fun ht => hb (h'.mono b ht))

theorem setInode (s : State) (inum : ℕ) (f : Inode → Inode) : Logs s (s.setInode inum f) :=
  ⟨fun _ hb => hb, fun _ _ => rfl⟩

/-- Change a block and log it. -/
theorem put (s : State) (b : ℕ) (data : Block) : Logs s ((s.putBlock b data).logWrite b) where
  mono _ hc := List.mem_append_left _ hc
  same c hc := by
    have hcb : c ≠ b := fun heq => hc (List.mem_append_right _ (List.mem_singleton.mpr heq))
    exact putBlock_of_ne _ _ hcb

end Logs

/-! ## Blocks and inodes -/

theorem bzero_logs (s : State) (b : ℕ) : Logs s (bzero s b) := .put s b zeroBlock

theorem balloc_logs (h : balloc sb s = .ok (addr, t)) : Logs s t := by
  unfold balloc at h
  split at h
  · cases h
    exact (Logs.put ..).trans (bzero_logs _ _)
  · cases h

theorem bfree_logs {b : ℕ} (h : bfree sb s b = .ok t) : Logs s t := by
  unfold bfree at h
  split at h
  · cases h
  · cases h
    exact .put ..

theorem iupdate_logs (s : State) (inum : ℕ) : Logs s (iupdate sb s inum) := .put ..

theorem ilock_logs (h : ilock sb s inum = .ok t) : Logs s t := by
  unfold ilock at h
  split at h
  · dsimp only at h
    split at h
    · cases h
    · cases h
      exact .setInode ..
  · cases h
    exact .refl s

theorem ialloc_logs {type : Short} (h : ialloc sb s type = .ok (i, t)) : Logs s t := by
  unfold ialloc at h
  split at h
  · cases h
    exact .put ..
  · cases h

theorem ensureAddr_logs {i : Fin (NDIRECT + 1)}
    (h : ensureAddr sb s inum i = .ok (addr, t)) : Logs s t := by
  unfold ensureAddr at h
  dsimp only at h
  split at h
  · obtain ⟨⟨a, u⟩, hu, h⟩ := bind_eq_ok_iff.mp h
    cases h
    exact (balloc_logs hu).trans (.setInode ..)
  · cases h
    exact .refl s

theorem bmap_logs {bn : ℕ} (h : bmap sb s inum bn = .ok (addr, t)) : Logs s t := by
  unfold bmap at h
  split at h
  · exact ensureAddr_logs h
  · split at h
    · obtain ⟨⟨a, u⟩, hu, h⟩ := bind_eq_ok_iff.mp h
      have hsu := ensureAddr_logs hu
      dsimp only at h
      split at h
      · obtain ⟨⟨a', v⟩, hv, h⟩ := bind_eq_ok_iff.mp h
        cases h
        exact (hsu.trans (balloc_logs hv)).trans (.put ..)
      · cases h
        exact hsu
    · cases h

theorem truncDirect_logs {i : Fin NDIRECT} (h : truncDirect sb inum s i = .ok t) : Logs s t := by
  unfold truncDirect at h
  dsimp only at h
  split at h
  · obtain ⟨u, hu, h⟩ := bind_eq_ok_iff.mp h
    cases h
    exact (bfree_logs hu).trans (.setInode ..)
  · cases h
    exact .refl s

theorem truncEntry_logs {a : Block} {j : Fin NINDIRECT}
    (h : truncEntry sb a s j = .ok t) : Logs s t := by
  unfold truncEntry at h
  dsimp only at h
  split at h
  · exact bfree_logs h
  · cases h
    exact .refl s

theorem foldlM_logs {α : Type} {f : State → α → Except Panic State}
    (hf : ∀ s a t, f s a = .ok t → Logs s t) {l : List α}
    (h : l.foldlM f s = .ok t) : Logs s t :=
  (foldlM_invariant (P := Logs s) (Q := fun _ => True)
    (fun u a v hu hv => hu.trans (hf u a v hv)) (fun _ _ _ _ _ => trivial) l
    (.refl s)).1 t h

theorem itrunc_logs (h : itrunc sb s inum = .ok t) : Logs s t := by
  unfold itrunc at h
  obtain ⟨u, hu, h⟩ := bind_eq_ok_iff.mp h
  have hsu : Logs s u := foldlM_logs (fun _ _ _ => truncDirect_logs) hu
  dsimp only at h
  split at h
  · obtain ⟨v, hv, h⟩ := bind_eq_ok_iff.mp h
    obtain ⟨w, hw, h⟩ := bind_eq_ok_iff.mp h
    cases h
    have huw : Logs u w := (foldlM_logs (fun _ _ _ => truncEntry_logs) hv).trans (bfree_logs hw)
    exact (((hsu.trans huw).trans (.setInode ..)).trans (.setInode ..)).trans (iupdate_logs _ _)
  · cases h
    exact (hsu.trans (.setInode ..)).trans (iupdate_logs _ _)

theorem iput_logs {last : Bool} (h : iput sb s inum last = .ok t) : Logs s t := by
  unfold iput at h
  split at h
  · obtain ⟨u, hu, h⟩ := bind_eq_ok_iff.mp h
    cases h
    exact (((itrunc_logs hu).trans (.setInode ..)).trans (iupdate_logs _ _)).trans (.setInode ..)
  · cases h
    exact .refl s

/-! ## Reading and writing -/

theorem readLoop_logs {dst : ℕ}
    (h : readLoop sb inum userDst n mem dst tot off s = .ok (ok, mem', t)) :
    Logs s t := by
  fun_induction readLoop sb inum userDst n mem dst tot off s with
  | case1 mem dst tot off s hlt ih =>
    obtain ⟨⟨addr, u⟩, hu, h⟩ := bind_eq_ok_iff.mp h
    dsimp only at h
    split at h
    next => exact (bmap_logs hu).trans (ih _ _ h)
    next =>
      cases h
      exact bmap_logs hu
  | case2 mem dst tot off s hge =>
    cases h
    exact .refl _

theorem readi_logs {dst : ℕ}
    (h : readi sb s inum userDst mem dst off n = .ok (r, mem', t)) : Logs s t := by
  unfold readi at h
  dsimp only at h
  split at h
  · cases h
    exact .refl s
  · obtain ⟨⟨ok, mem₁, u⟩, hu, h⟩ := bind_eq_ok_iff.mp h
    cases h
    exact readLoop_logs hu

/-- Wherever the pages of the source stop being mapped, the bytes go to the
beginning of a block. -/
def Aligned (mem : Memory) (src n off : ℕ) : Prop := ∀ k, src < k * PGSIZE → k * PGSIZE < src + n →
    mem.mapped (k - 1) = true → mem.mapped k = false →
    BSIZE ∣ off + (k * PGSIZE - src)

theorem Aligned.shorten (h : Aligned mem src n off) (hm : m ≤ n) : Aligned mem src m off :=
  fun k hlo hhi => h k hlo (by omega)

theorem Aligned.advance (h : Aligned mem src n off) (hi : i + m ≤ n) :
    Aligned mem (src + i) m (off + i) := by
  intro k hlo hhi hmapped hunmapped
  have hk := h k (by omega) (by omega) hmapped hunmapped
  rwa [show off + i + (k * PGSIZE - (src + i)) = off + (k * PGSIZE - src) by omega]

/-- A copy that fails finds its first page unmapped and stores nothing, or it
comes to the end of the mapped pages in its middle. -/
theorem copyin_fails (h : copyin mem dst off src len = (dst', false)) :
    (dst' = dst ∧ 0 < len ∧ mem.mapped (src / PGSIZE) = false) ∨
      ∃ k, src < k * PGSIZE ∧ k * PGSIZE < src + len ∧
        mem.mapped (k - 1) = true ∧ mem.mapped k = false := by
  have hpos : 0 < PGSIZE := by decide
  fun_induction copyin mem dst off src len with
  | case1 dst off src len hlen va0 hunmapped =>
    cases h
    rw [show va0 / PGSIZE = src / PGSIZE from Nat.mul_div_cancel _ hpos] at hunmapped
    exact Or.inl ⟨rfl, hlen, hunmapped⟩
  | case2 dst off src len hlen va0 hmapped n ih =>
    have hva0 : va0 / PGSIZE = src / PGSIZE := Nat.mul_div_cancel _ hpos
    have hmod : src % PGSIZE < PGSIZE := Nat.mod_lt _ hpos
    have hsrc : va0 + src % PGSIZE = src := Nat.div_add_mod' src PGSIZE
    have hn : n = min (PGSIZE - (src - va0)) len := rfl
    right
    rcases ih h with ⟨-, hlen', hunmapped⟩ | ⟨k, hlo, hhi, hpage⟩
    -- The next page is not mapped.
    · have hva1 : (va0 + PGSIZE) / PGSIZE = src / PGSIZE + 1 := by
        rw [Nat.add_div_right _ hpos, hva0]
      have hnext : (src / PGSIZE + 1) * PGSIZE = va0 + PGSIZE := Nat.succ_mul ..
      rw [hva0] at hmapped
      rw [hva1] at hunmapped
      refine ⟨src / PGSIZE + 1, ?_, ?_, ?_, hunmapped⟩
      · omega
      · omega
      · simpa using hmapped
    · exact ⟨k, by omega, by omega, hpage⟩
  | case3 dst off src len hlen => cases h

/-- An aligned copy to one block that fails has stored nothing. -/
theorem copyin_fails_of_aligned (haligned : Aligned mem src len off)
    (hlen : off % BSIZE + len ≤ BSIZE)
    (h : copyin mem dst (off % BSIZE) src len = (dst', false)) : dst' = dst := by
  rcases copyin_fails h with ⟨heq, -⟩ | ⟨k, hlo, hhi, hmapped, hunmapped⟩
  · exact heq
  · have hdvd := haligned k hlo hhi hmapped hunmapped
    have hmod : (off + (k * PGSIZE - src)) % BSIZE = off % BSIZE + (k * PGSIZE - src) := by
      rw [Nat.add_mod, Nat.mod_eq_of_lt (b := BSIZE) (a := k * PGSIZE - src)
        (by omega), Nat.mod_eq_of_lt (by omega)]
    have := Nat.mod_eq_zero_of_dvd hdvd
    omega

theorem eitherCopyin_fails_of_aligned (haligned : userSrc = true → Aligned mem src len off)
    (hlen : off % BSIZE + len ≤ BSIZE)
    (h : (eitherCopyin userSrc mem dst (off % BSIZE) src len).2 = false) :
    (eitherCopyin userSrc mem dst (off % BSIZE) src len).1 = dst := by
  cases userSrc with
  | false => cases h
  | true => exact copyin_fails_of_aligned (haligned rfl) hlen (Prod.ext rfl h)

theorem writeLoop_logs {off' : ℕ} (haligned : userSrc = true → Aligned mem src (n - tot) off)
    (h : writeLoop sb inum userSrc mem n src tot off s = .ok (ok, off', t)) :
    Logs s t := by
  fun_induction writeLoop sb inum userSrc mem n src tot off s with
  | case1 src tot off s hlt ih =>
    obtain ⟨⟨addr, u⟩, hu, h⟩ := bind_eq_ok_iff.mp h
    have hsu := bmap_logs hu
    have hblock := chunk_fits n tot off
    have htot := chunk_le n tot off
    have hpos := chunk_pos off hlt
    dsimp only at h
    split at h
    next =>
      refine (hsu.trans (.put ..)).trans (ih addr u _ (fun huser => ?_) h)
      refine Aligned.advance (haligned huser) ?_
      omega
    -- The buffer is released without `log_write`.
    next hfail =>
      have hsame : (eitherCopyin userSrc mem (u.disk addr.toNat) (off % BSIZE)
          src (chunk n tot off)).1 = u.disk addr.toNat :=
        eitherCopyin_fails_of_aligned (fun huser => (haligned huser).shorten (by omega)) hblock
          (by simpa using hfail)
      cases h
      rw [hsame]
      refine hsu.trans ⟨fun _ hb => hb, fun b _ => ?_⟩
      exact congrFun (Function.update_eq_self ..) b
  | case2 src tot off s hge =>
    cases h
    exact .refl _

/-- `writei` logs the blocks it changes, if its source is aligned. -/
theorem writei_logs (haligned : userSrc = true → Aligned mem src n off)
    (h : writei sb s inum userSrc mem src off n = .ok (r, t)) : Logs s t := by
  unfold writei at h
  split at h
  · cases h
    exact .refl s
  · split at h
    · cases h
      exact .refl s
    · obtain ⟨⟨ok, off', u⟩, hu, h⟩ := bind_eq_ok_iff.mp h
      have hsu := writeLoop_logs haligned hu
      dsimp only at h
      generalize (if ok = true then n else 2 ^ 32 - 1) = n' at h
      split at h
      · cases h
        refine hsu.trans (Logs.trans ?_ (iupdate_logs _ _))
        split
        · exact .setInode ..
        · exact .refl u
      · cases h
        exact hsu

end OsCa.Fs
