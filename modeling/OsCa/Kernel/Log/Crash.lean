import OsCa.Kernel.Log.Model

/-!
# Crash atomicity of the write-ahead log

The abstract contents of a disk are what a completed recovery would leave in
the home blocks.  `replay` computes them directly from the disk: a block
listed in the header is taken from the log, every other block from its home
location.

With respect to `replay`, every disk write of `commit()` and of
`recover_from_log()` is a stutter step, except for the one write of the header
in `commit()`, which applies the whole transaction.  Crash atomicity follows,
because a crash only forgets the memory and recovery only stutters.
-/

namespace OsCa.Log

open Bytes Function List

variable {lh : List Uint} {i b j n k : ℕ} {L : LogArea} {d target e : Disk}
  {m : Machine}

/-! ## Abstract contents of a disk -/

/-- Home block numbers of a header, as indices of the disk. -/
def nos (lh : List Uint) : List ℕ := lh.map BitVec.toNat

/-- The block numbers recorded in the header on disk. -/
def header (L : LogArea) (d : Disk) : List Uint := decodeHead (d L.start)

/-- The disk as a completed recovery would leave it, home blocks only. -/
def replay (L : LogArea) (d : Disk) : Disk := fun b =>
  if b ∈ nos (header L d) then
    d (L.start + (nos (header L d)).idxOf b + 1)
  else d b

/-- Two disks agree on every home block. -/
def HomeEq (L : LogArea) (d e : Disk) : Prop := ∀ b, L.Home b → d b = e b

/-- The headers `log_write` can build: distinct home blocks that fit in the
header block and in the log blocks. -/
structure ValidHeader (L : LogArea) (lh : List Uint) : Prop where
  nodup : (nos lh).Nodup
  fitsHeader : lh.length ≤ LOGSIZE
  fitsLog : lh.length < L.size
  home : ∀ b, b ∈ nos lh → L.Home b

/-- The disk is consistent and its abstract contents are `target`. -/
structure Represents (L : LogArea) (target d : Disk) : Prop where
  valid : ValidHeader L (header L d)
  contents : HomeEq L (replay L d) target

/-- Buffers of log blocks agree with the disk. -/
def Coherent (L : LogArea) (m : Machine) : Prop := ∀ b, L.Owns b → bread m b = m.disk b

/-- The log is empty and its buffers are clean: the state `initlog` leaves and
in which a new transaction may start. -/
structure Ready (L : LogArea) (m : Machine) : Prop where
  empty : header L m.disk = []
  coherent : Coherent L m

theorem nos_length (lh : List Uint) : (nos lh).length = lh.length := by
  simp [nos]

theorem nos_getD (hi : i < lh.length) : (nos lh)[i]? = some (lh.getD i 0).toNat := by
  simp [nos, getD_eq_getElem?_getD, getElem?_eq_getElem hi]

theorem mem_nos_getD (hi : i < lh.length) : (lh.getD i 0).toNat ∈ nos lh :=
  mem_of_getElem? (nos_getD hi)

theorem getD_idxOf (hb : b ∈ nos lh) :
    (nos lh).idxOf b < lh.length ∧ (lh.getD ((nos lh).idxOf b) 0).toNat = b := by
  have hlt : (nos lh).idxOf b < (nos lh).length := idxOf_lt_length_of_mem hb
  have hlt' : (nos lh).idxOf b < lh.length := by rwa [nos_length] at hlt
  have hget := nos_getD hlt'
  rw [getElem?_eq_getElem hlt, getElem_idxOf hlt] at hget
  exact ⟨hlt', (Option.some.inj hget).symm⟩

theorem replay_of_empty (h : header L d = []) : replay L d = d := by
  funext b
  simp [replay, h, nos]

theorem validHeader_nil (L : LogArea) : ValidHeader L [] where
  nodup := nodup_nil
  fitsHeader := Nat.zero_le _
  fitsLog := L.hasHeader
  home := by simp [nos]

theorem LogArea.owns_start (L : LogArea) : L.Owns L.start :=
  ⟨Nat.le_refl _, Nat.lt_add_of_pos_right L.hasHeader⟩

theorem ValidHeader.owns_block (h : ValidHeader L lh) (hi : i < lh.length) :
    L.Owns (L.start + i + 1) :=
  ⟨by omega, by have := h.fitsLog; omega⟩

/-- Writing a home block that the header lists does not change the abstract
contents: recovery takes that block from the log. -/
theorem replay_update_home (data : Block) (hvalid : ValidHeader L (header L d))
    (hb : b ∈ nos (header L d)) :
    header L (update d b data) = header L d ∧ replay L (update d b data) = replay L d := by
  have hhome : L.Home b := hvalid.home b hb
  have hheader : header L (update d b data) = header L d := by
    unfold header
    rw [update_of_ne]
    exact (hhome.ne_of_owns L.owns_start).symm
  refine ⟨hheader, ?_⟩
  funext c
  simp only [replay, hheader]
  by_cases hc : c ∈ nos (header L d)
  · have hlog := hvalid.owns_block (getD_idxOf hc).1
    rw [if_pos hc, if_pos hc, update_of_ne]
    exact (hhome.ne_of_owns hlog).symm
  · rw [if_neg hc, if_neg hc, update_of_ne]
    rintro rfl
    exact hc hb

theorem coherent_bwrite (b : ℕ) (data : Block) (h : Coherent L m) :
    Coherent L (bwrite m b data) := by
  intro c hc
  by_cases hcb : c = b
  · subst c
    rw [bread_bwrite_self, bwrite_disk_self]
  · rw [bread_bwrite_of_ne hcb, bwrite_disk_of_ne hcb]
    exact h c hc

/-! ## Installing a committed transaction

Both `commit()` and `recover_from_log()` end with `install_trans` followed by
the erasure of the header.  The invariant below is what they share. -/

/-- The first `j` blocks of the committed transaction are installed. -/
structure Installing (L : LogArea) (target : Disk) (j : ℕ) (m : Machine) :
    Prop where
  lh_eq : m.lh = header L m.disk
  coherent : Coherent L m
  represents : Represents L target m.disk
  installed : ∀ i, i < j → m.disk (m.lh.getD i 0).toNat = m.disk (L.start + i + 1)

theorem Installing.step (h : Installing L target j m) (hj : j < m.lh.length) :
    Installing L target (j + 1) (installTransBody L j m) := by
  have hvalid := h.represents.valid
  have hlen : m.lh.length = (header L m.disk).length := by rw [h.lh_eq]
  have hmem : (m.lh.getD j 0).toNat ∈ nos (header L m.disk) := by
    rw [← h.lh_eq]
    exact mem_nos_getD hj
  have hhome : L.Home (m.lh.getD j 0).toNat := hvalid.home _ hmem
  have howns : L.Owns (L.start + j + 1) := hvalid.owns_block (by omega)
  obtain ⟨hheader, hreplay⟩ := replay_update_home (bread m (L.start + j + 1)) hvalid hmem
  refine ⟨?_, coherent_bwrite _ _ h.coherent, ⟨?_, ?_⟩, ?_⟩
  · exact h.lh_eq.trans hheader.symm
  · exact (congrArg (ValidHeader L) hheader).mpr hvalid
  · intro b hb
    rw [show (installTransBody L j m).disk = update m.disk
      (m.lh.getD j 0).toNat (bread m (L.start + j + 1)) from rfl, hreplay]
    exact h.represents.contents b hb
  · intro i hi
    have hne : L.start + i + 1 ≠ (m.lh.getD j 0).toNat :=
      (hhome.ne_of_owns (hvalid.owns_block (by omega))).symm
    simp only [installTransBody, bwrite_lh]
    rw [bwrite_disk_of_ne hne]
    rcases Nat.lt_succ_iff_lt_or_eq.mp hi with hlt | rfl
    · -- an earlier block is not overwritten, since the blocks are distinct
      have hdistinct : (m.lh.getD i 0).toNat ≠ (m.lh.getD j 0).toNat := by
        intro heq
        have hnodup : (nos m.lh).Nodup := by
          rw [h.lh_eq]
          exact hvalid.nodup
        have hij := (nodup_iff_getElem?_ne_getElem?.mp hnodup) i j hlt (by rwa [nos_length])
        rw [nos_getD (by omega), nos_getD hj, heq] at hij
        exact hij rfl
      rw [bwrite_disk_of_ne hdistinct]
      exact h.installed i hlt
    · rw [bwrite_disk_self]
      exact h.coherent _ howns

theorem Installing.run (h : Installing L target 0 m) (hj : j ≤ m.lh.length) :
    Installing L target j (runActions (installTrans L j) m) ∧
      (runActions (installTrans L j) m).lh = m.lh := by
  induction j with
  | zero => exact ⟨h, rfl⟩
  | succ j ih =>
    obtain ⟨hprev, hlh⟩ := ih (by omega)
    rw [installTrans, runActions_range_succ]
    exact ⟨hprev.step (by rw [hlh]; omega), hlh⟩

/-- Erasing the header after everything is installed leaves an empty log and
the abstract contents in the home blocks. -/
theorem Installing.erase (h : Installing L target j m) (hj : m.lh.length = j) :
    Ready L (eraseHead L m) ∧ HomeEq L (eraseHead L m).disk target := by
  have hvalid := h.represents.valid
  refine ⟨⟨?_, coherent_bwrite _ _ h.coherent⟩, ?_⟩
  · simp only [eraseHead, writeHead, header]
    rw [bwrite_disk_self]
    exact decodeHead_encodeHead (Nat.zero_le _)
  · intro b hb
    rw [← h.represents.contents b hb]
    have hne : b ≠ L.start := hb.ne_of_owns L.owns_start
    simp only [eraseHead, writeHead]
    rw [bwrite_disk_of_ne hne]
    by_cases hmem : b ∈ nos (header L m.disk)
    · obtain ⟨hlt, hget⟩ := getD_idxOf hmem
      have hinst := h.installed _ (by rwa [← hj, h.lh_eq])
      rw [h.lh_eq, hget] at hinst
      rw [replay, if_pos hmem]
      exact hinst
    · rw [replay, if_neg hmem]

theorem Ready.represents (hready : Ready L m) (hhome : HomeEq L m.disk target) :
    Represents L target m.disk where
  valid := by
    rw [hready.empty]
    exact validHeader_nil L
  contents := by
    rw [replay_of_empty hready.empty]
    exact hhome

theorem Installing.complete (h : Installing L target 0 m) :
    Ready L (runActions (recoverActions L m.lh.length) m) ∧
      HomeEq L (runActions (recoverActions L m.lh.length) m).disk target := by
  obtain ⟨hinst, hlh⟩ := h.run (Nat.le_refl m.lh.length)
  rw [recoverActions, runActions_append, runActions_cons, runActions_nil]
  exact hinst.erase (by rw [hlh])

/-- Installing and erasing, cut after any number of disk writes, keep the
abstract contents. -/
theorem Installing.take (h : Installing L target 0 m) (k : ℕ) :
    Represents L target (runActions ((recoverActions L m.lh.length).take k) m).disk := by
  have hlen : (installTrans L m.lh.length).length = m.lh.length := by simp [installTrans]
  by_cases hk : k ≤ m.lh.length
  · -- the cut is in `install_trans`
    have htake : (recoverActions L m.lh.length).take k = installTrans L k := by
      rw [recoverActions, take_append_of_le_length (by omega)]
      rw [installTrans, installTrans, ← map_take, take_range, Nat.min_eq_left hk]
    rw [htake]
    exact (h.run hk).1.represents
  · -- all writes have been made
    have hall : (recoverActions L m.lh.length).take k = recoverActions L m.lh.length := by
      apply take_of_length_le
      rw [recoverActions, length_append, hlen, length_singleton]
      omega
    obtain ⟨hready, hhome⟩ := h.complete
    rw [hall]
    exact hready.represents hhome

/-! ## Recovery -/

theorem installing_readHead (h : Represents L target d) :
    Installing L target 0 (readHead L (boot d)) where
  lh_eq := rfl
  coherent := fun _ _ => rfl
  represents := h
  installed := by
    intro i hi
    omega

theorem recoverSteps_represents (h : Represents L target d) (k : ℕ) :
    Represents L target (recoverSteps L k (boot d)).disk :=
  (installing_readHead h).take k

/-- A completed recovery leaves the abstract contents in the home blocks and
an empty log. -/
theorem recoverFromLog_spec (h : Represents L target d) : Ready L (recoverFromLog L (boot d)) ∧
      HomeEq L (recoverFromLog L (boot d)).disk target :=
  (installing_readHead h).complete

/-- The disk after a row of interrupted recoveries; the `i`-th is cut after
`ks[i]` disk writes. -/
def crashedRecoveries (L : LogArea) (ks : List ℕ) (d : Disk) : Disk :=
  ks.foldl (fun d k => (recoverSteps L k (boot d)).disk) d

theorem crashedRecoveries_represents (h : Represents L target d) (ks : List ℕ) :
    Represents L target (crashedRecoveries L ks d) := by
  induction ks generalizing d with
  | nil => exact h
  | cons k ks ih => exact ih (recoverSteps_represents h k)

/-! ## Transactions -/

/-- A transaction handed to `commit()`: the home blocks that `log_write`
recorded and the contents of their pinned buffers. -/
structure Tx where
  lh : List Uint
  data : ℕ → Block

variable {tx : Tx} {txs : List Tx}

/-- The transaction applied in full. -/
def Tx.apply (tx : Tx) (d : Disk) : Disk := fun b => if b ∈ nos tx.lh then tx.data b else d b

def applyTxs (txs : List Tx) (d : Disk) : Disk := txs.foldl (fun d tx => tx.apply d) d

/-- The machine on which `commit()` of `tx` starts: its block numbers are in
`log.lh` and its contents in the buffer cache. -/
def loadTx (m : Machine) (tx : Tx) : Machine :=
  { m with
    cache := fun b => if b ∈ nos tx.lh then some (tx.data b) else m.cache b
    lh := tx.lh }

theorem Tx.apply_homeEq (tx : Tx) (h : HomeEq L d e) : HomeEq L (tx.apply d) (tx.apply e) := by
  intro b hb
  simp only [Tx.apply, h b hb]

theorem applyTxs_homeEq (txs : List Tx) (h : HomeEq L d e) :
    HomeEq L (applyTxs txs d) (applyTxs txs e) := by
  induction txs generalizing d e with
  | nil => exact h
  | cons tx txs ih => exact ih (tx.apply_homeEq h)

theorem Represents.congr {target' : Disk} (h : Represents L target d)
    (heq : HomeEq L target target') :
    Represents L target' d where
  valid := h.valid
  contents := fun b hb => (h.contents b hb).trans (heq b hb)

/-- The first `j` iterations of `write_log` are done: the contents wait in
the log blocks, but the header on disk is still empty. -/
structure Logging (L : LogArea) (tx : Tx) (d : Disk) (j : ℕ) (m : Machine) :
    Prop where
  lh_eq : m.lh = tx.lh
  ready : Ready L m
  home : HomeEq L m.disk d
  cached : ∀ b, b ∈ nos tx.lh → bread m b = tx.data b
  copied : ∀ i, i < j → m.disk (L.start + i + 1) = tx.data (tx.lh.getD i 0).toNat

theorem logging_loadTx (hready : Ready L m) (hvalid : ValidHeader L tx.lh) :
    Logging L tx m.disk 0 (loadTx m tx) where
  lh_eq := rfl
  ready := by
    refine ⟨hready.empty, ?_⟩
    intro b hb
    have hnot : b ∉ nos tx.lh := fun hmem => (hvalid.home b hmem).ne_of_owns hb rfl
    simpa [bread, loadTx, hnot] using hready.coherent b hb
  home := fun _ _ => rfl
  cached := by
    intro b hb
    simp [bread, loadTx, hb]
  copied := by
    intro i hi
    omega

theorem Logging.step (h : Logging L tx d j m) (hvalid : ValidHeader L tx.lh)
    (hj : j < tx.lh.length) : Logging L tx d (j + 1) (writeLogBody L j m) := by
  have howns : L.Owns (L.start + j + 1) := hvalid.owns_block hj
  have hne : L.start ≠ L.start + j + 1 := by omega
  refine ⟨h.lh_eq, ⟨?_, coherent_bwrite _ _ h.ready.coherent⟩, ?_, ?_, ?_⟩
  · rw [← h.ready.empty, header, header, writeLogBody, bwrite_disk_of_ne hne]
  · intro b hb
    rw [writeLogBody, bwrite_disk_of_ne (hb.ne_of_owns howns)]
    exact h.home b hb
  · intro b hb
    rw [writeLogBody, bread_bwrite_of_ne ((hvalid.home b hb).ne_of_owns howns)]
    exact h.cached b hb
  · intro i hi
    rcases Nat.lt_succ_iff_lt_or_eq.mp hi with hlt | rfl
    · have hother : L.start + i + 1 ≠ L.start + j + 1 := by omega
      rw [writeLogBody, bwrite_disk_of_ne hother]
      exact h.copied i hlt
    · rw [writeLogBody, bwrite_disk_self, h.lh_eq]
      exact h.cached _ (mem_nos_getD hj)

theorem Logging.run (h : Logging L tx d 0 m) (hvalid : ValidHeader L tx.lh)
    (hj : j ≤ tx.lh.length) : Logging L tx d j (runActions (writeLog L j) m) := by
  induction j with
  | zero => exact h
  | succ j ih =>
    rw [writeLog, runActions_range_succ]
    exact (ih (by omega)).step hvalid (by omega)

/-- The one write that commits: it turns the abstract contents from those
before the transaction into those after it. -/
theorem Logging.writeHead (h : Logging L tx d tx.lh.length m)
    (hvalid : ValidHeader L tx.lh) : Installing L (tx.apply d) 0 (writeHead L m) := by
  have hheader : header L (Log.writeHead L m).disk = tx.lh := by
    rw [header, Log.writeHead, bwrite_disk_self, h.lh_eq]
    exact decodeHead_encodeHead hvalid.fitsHeader
  have hdisk : ∀ b, b ≠ L.start → (Log.writeHead L m).disk b = m.disk b :=
    fun b hb => bwrite_disk_of_ne hb
  refine ⟨h.lh_eq.trans hheader.symm, coherent_bwrite _ _ h.ready.coherent,
    ⟨by rwa [hheader], ?_⟩, ?_⟩
  · intro b hb
    simp only [replay, hheader, Tx.apply]
    by_cases hmem : b ∈ nos tx.lh
    · obtain ⟨hlt, hget⟩ := getD_idxOf hmem
      have hne : L.start + (nos tx.lh).idxOf b + 1 ≠ L.start := by omega
      rw [if_pos hmem, if_pos hmem, hdisk _ hne, h.copied _ hlt, hget]
    · rw [if_neg hmem, if_neg hmem, hdisk b (hb.ne_of_owns L.owns_start)]
      exact h.home b hb
  · intro i hi
    omega

/-! ## Crashes during a commit -/

theorem commitActions_eq (hn : 0 < n) :
    commitActions L n = writeLog L n ++ writeHead L :: recoverActions L n := by
  simp [commitActions, hn, recoverActions]

/-- Number of disk writes of the `commit()` of a transaction. -/
def Tx.writes (tx : Tx) : ℕ := if 0 < tx.lh.length then 2 * tx.lh.length + 2 else 0

theorem take_commitActions_of_le (hn : 0 < n) (hk : k ≤ n) :
    (commitActions L n).take k = writeLog L k := by
  rw [commitActions_eq hn, take_append_of_le_length (by simp [writeLog, hk])]
  rw [writeLog, writeLog, ← map_take, take_range, Nat.min_eq_left hk]

theorem take_commitActions_of_gt (hn : 0 < n) (hk : n < k) : (commitActions L n).take k =
      writeLog L n ++ writeHead L :: (recoverActions L n).take (k - n - 1) := by
  obtain ⟨i, rfl⟩ : ∃ i, k = n + (i + 1) := ⟨k - n - 1, by omega⟩
  have hlen : (writeLog L n).length = n := by simp [writeLog]
  rw [commitActions_eq hn, take_append, hlen, take_of_length_le (by omega), Nat.add_sub_cancel_left,
    take_succ_cons, Nat.add_sub_cancel]

/-- A `commit()` cut after `k` disk writes leaves the old contents up to the
write of the header and the new contents from there on. -/
theorem commit_take_represents (hready : Ready L m) (hvalid : ValidHeader L tx.lh)
    (hn : 0 < tx.lh.length) (k : ℕ) :
    Represents L (if tx.lh.length < k then tx.apply m.disk else m.disk)
      (runActions ((commitActions L tx.lh.length).take k) (loadTx m tx)).disk := by
  have hload := logging_loadTx hready hvalid
  by_cases hk : tx.lh.length < k
  · have hlog := hload.run hvalid (Nat.le_refl _)
    have hinst := hlog.writeHead hvalid
    have hlh : (writeHead L (runActions (writeLog L tx.lh.length)
        (loadTx m tx))).lh = tx.lh := hlog.lh_eq
    rw [if_pos hk, take_commitActions_of_gt hn hk, runActions_append, runActions_cons]
    have htake := hinst.take (k - tx.lh.length - 1)
    rwa [hlh] at htake
  · have hlog := hload.run hvalid (Nat.le_of_not_lt hk)
    rw [if_neg hk, take_commitActions_of_le hn (Nat.le_of_not_lt hk)]
    exact hlog.ready.represents hlog.home

/-- A completed `commit()` applies the transaction and empties the log. -/
theorem commit_spec (hready : Ready L m) (hvalid : ValidHeader L tx.lh) :
    Ready L (commit L (loadTx m tx)) ∧
      HomeEq L (commit L (loadTx m tx)).disk (tx.apply m.disk) := by
  have hload := logging_loadTx hready hvalid
  by_cases hn : 0 < tx.lh.length
  · have hlog := hload.run hvalid (Nat.le_refl _)
    have hinst := hlog.writeHead hvalid
    have hlh : (writeHead L (runActions (writeLog L tx.lh.length)
        (loadTx m tx))).lh = tx.lh := hlog.lh_eq
    have hdone := hinst.complete
    rw [hlh] at hdone
    rw [commit, hload.lh_eq, commitActions_eq hn, runActions_append, runActions_cons]
    exact hdone
  · have hnil : tx.lh = [] := eq_nil_of_length_eq_zero (by omega)
    rw [commit, hload.lh_eq, commitActions, if_neg hn, runActions_nil]
    refine ⟨hload.ready, ?_⟩
    intro b _
    simp [loadTx, Tx.apply, hnil, nos]

/-! ## Runs of transactions -/

/-- The disk after the first `k` disk writes of the commits of `txs`, one
transaction after the other. -/
def crashAfter (L : LogArea) : Machine → List Tx → ℕ → Disk
  | m, [], _ => m.disk
  | m, tx :: txs, k =>
    if k < tx.writes then
      (runActions ((commitActions L tx.lh.length).take k) (loadTx m tx)).disk
    else
      crashAfter L (commit L (loadTx m tx)) txs (k - tx.writes)

/-- The committing `write_head` of transaction `i` is among the first `k` disk
writes: it comes after the commits of the earlier transactions and after the
transaction's own log blocks. -/
def HeadWritten (txs : List Tx) (k i : ℕ) : Prop := ∃ tx, txs[i]? = some tx ∧ 0 < tx.lh.length ∧
    ((txs.take i).map Tx.writes).sum + tx.lh.length + 1 ≤ k

/-- Number of leading transactions that are committed after `k` disk
writes. -/
def committed : List Tx → ℕ → ℕ
  | [], _ => 0
  | tx :: txs, k =>
    if k < tx.writes then (if tx.lh.length < k then 1 else 0)
    else committed txs (k - tx.writes) + 1

theorem committed_le (txs : List Tx) (k : ℕ) : committed txs k ≤ txs.length := by
  induction txs generalizing k with
  | nil => exact Nat.zero_le _
  | cons tx txs ih =>
    have htail := ih (k - tx.writes)
    simp only [committed, length_cons]
    split
    · split <;> omega
    · omega

theorem lt_committed_iff (hget : txs[i]? = some tx) (hpos : 0 < tx.lh.length) :
    i < committed txs k ↔ HeadWritten txs k i := by
  induction txs generalizing k i with
  | nil => simp at hget
  | cons t txs ih =>
    cases i with
    | zero =>
      obtain rfl : t = tx := by simpa using hget
      have hw : t.writes = 2 * t.lh.length + 2 := by simp [Tx.writes, hpos]
      have hhead : HeadWritten (t :: txs) k 0 ↔ t.lh.length < k := by
        simp only [HeadWritten, getElem?_cons_zero, Option.some.injEq, take_zero, map_nil, sum_nil]
        constructor
        · rintro ⟨_, rfl, -, hle⟩
          omega
        · intro hlt
          exact ⟨t, rfl, hpos, by omega⟩
      rw [hhead, committed]
      split
      · split <;> omega
      · omega
    | succ i =>
      have hget' : txs[i]? = some tx := by simpa using hget
      have hshift : HeadWritten (t :: txs) k (i + 1) ↔
          t.writes ≤ k ∧ HeadWritten txs (k - t.writes) i := by
        simp only [HeadWritten, getElem?_cons_succ, take_succ_cons, map_cons, sum_cons]
        constructor
        · rintro ⟨u, hu, hupos, hle⟩
          exact ⟨by omega, u, hu, hupos, by omega⟩
        · rintro ⟨hle, u, hu, hupos, hle'⟩
          exact ⟨u, hu, hupos, by omega⟩
      rw [hshift, committed, ← ih hget']
      split
      · split <;> omega
      · omega

theorem crashAfter_represents (hready : Ready L m)
    (hvalid : ∀ tx, tx ∈ txs → ValidHeader L tx.lh) (k : ℕ) :
    Represents L (applyTxs (txs.take (committed txs k)) m.disk) (crashAfter L m txs k) := by
  induction txs generalizing m k with
  | nil => exact hready.represents (fun _ _ => rfl)
  | cons tx txs ih =>
    have htx : ValidHeader L tx.lh := hvalid tx (by simp)
    by_cases hk : k < tx.writes
    · -- the crash hits this transaction
      have hn : 0 < tx.lh.length := by
        by_contra hzero
        simp [Tx.writes, hzero] at hk
      have hcut := commit_take_represents hready htx hn k
      rw [crashAfter, committed, if_pos hk, if_pos hk]
      by_cases hhead : tx.lh.length < k
      · rw [if_pos hhead] at hcut ⊢
        exact hcut
      · rw [if_neg hhead] at hcut ⊢
        exact hcut
    · -- this transaction is committed, installed and erased
      obtain ⟨hready', hhome⟩ := commit_spec hready htx
      rw [crashAfter, committed, if_neg hk, if_neg hk, take_succ_cons]
      have htail := ih hready' (fun t ht => hvalid t (mem_cons_of_mem _ ht)) (k - tx.writes)
      exact htail.congr (applyTxs_homeEq _ hhome)

/-! ## Reboots -/

/-- One boot of the kernel: the transactions it runs, the number of disk
writes after which it crashes, and the number of disk writes of each of the
recoveries that crash afterwards. -/
structure Epoch where
  txs : List Tx
  crash : ℕ
  recoveries : List ℕ

/-- Run an epoch until a recovery completes. -/
def Epoch.run (L : LogArea) (m : Machine) (e : Epoch) : Machine :=
  recoverFromLog L (boot (crashedRecoveries L e.recoveries (crashAfter L m e.txs e.crash)))

/-- The transactions of an epoch that survive its crash. -/
def Epoch.survivors (e : Epoch) : List Tx := e.txs.take (committed e.txs e.crash)

theorem Epoch.run_spec {e : Epoch} (hready : Ready L m)
    (hvalid : ∀ tx, tx ∈ e.txs → ValidHeader L tx.lh) :
    Ready L (e.run L m) ∧ HomeEq L (e.run L m).disk (applyTxs e.survivors m.disk) := by
  have hcrash := crashAfter_represents hready hvalid e.crash
  exact recoverFromLog_spec (crashedRecoveries_represents hcrash e.recoveries)

/-- Crash atomicity.  Run any sequence of transactions from an empty log and
crash after any number `k` of disk writes; let any number of recoveries crash
as well, the `i`-th after `ks[i]` disk writes.  Once a recovery completes, the
home blocks hold the initial contents with a prefix of the transactions
applied in order and in full, the prefix consists of the transactions whose
committing `write_head` had completed, and the log is empty again. -/
theorem crash_atomicity {L : LogArea} {m : Machine} {txs : List Tx}
    (hready : Ready L m) (hvalid : ∀ tx, tx ∈ txs → ValidHeader L tx.lh)
    (k : ℕ) (ks : List ℕ) :
    ∃ j, j ≤ txs.length ∧ (∀ i tx, txs[i]? = some tx → 0 < tx.lh.length →
        (i < j ↔ HeadWritten txs k i)) ∧
      HomeEq L (recoverFromLog L (boot (crashedRecoveries L ks (crashAfter L m txs k)))).disk
        (applyTxs (txs.take j) m.disk) ∧
      Ready L (recoverFromLog L (boot (crashedRecoveries L ks (crashAfter L m txs k)))) := by
  obtain ⟨hdone, hhome⟩ := Epoch.run_spec (e := ⟨txs, k, ks⟩) hready hvalid
  exact ⟨committed txs k, committed_le txs k,
    fun i tx hget hpos => lt_committed_iff hget hpos, hhome, hdone⟩

/-- The transaction that overwrites block 46 with a constant. -/
def sampleTx : Tx where
  lh := [46]
  data := fun _ _ => 7

/-- `crash_atomicity` on the log of a fresh disk: one transaction, a crash
right after its header is written, and one crashed recovery. -/
theorem crash_atomicity_mkfsLog :
    Ready mkfsLog (boot fun _ _ => 0) ∧ ValidHeader mkfsLog sampleTx.lh ∧ ∃ j, j ≤ 1 ∧
        (∀ i tx, [sampleTx][i]? = some tx → 0 < tx.lh.length →
          (i < j ↔ HeadWritten [sampleTx] 2 i)) ∧
        HomeEq mkfsLog (recoverFromLog mkfsLog (boot (crashedRecoveries mkfsLog [1]
            (crashAfter mkfsLog (boot fun _ _ => 0) [sampleTx] 2)))).disk
          (applyTxs ([sampleTx].take j) fun _ _ => 0) ∧
        Ready mkfsLog (recoverFromLog mkfsLog (boot (crashedRecoveries mkfsLog [1]
            (crashAfter mkfsLog (boot fun _ _ => 0) [sampleTx] 2)))) := by
  have hready : Ready mkfsLog (boot fun _ _ => 0) := ⟨rfl, fun _ _ => rfl⟩
  have hvalid : ValidHeader mkfsLog sampleTx.lh := by
    refine ⟨by decide, by decide, by decide, ?_⟩
    intro b hb
    obtain rfl : b = 46 := by simpa [sampleTx, nos] using hb
    exact Or.inr (by decide)
  have hall : ∀ tx, tx ∈ [sampleTx] → ValidHeader mkfsLog tx.lh := by
    intro tx htx
    obtain rfl : tx = sampleTx := by simpa using htx
    exact hvalid
  exact ⟨hready, hvalid, crash_atomicity hready hall 2 [1]⟩

end OsCa.Log
