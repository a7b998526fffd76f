import Mathlib.Data.List.DropRight
import OsCa.Kernel.Sysfile.Model
import OsCa.Kernel.Fs.Effects

/-!
# Directories are maps from names to inodes

What a directory is for: it maps names to inode numbers.  This module reads a
directory off the bytes of its file, as a sequence of entries, and says what a
search for a name finds after an entry has been added or removed.  A name is
what `namecmp` sees of a string: its bytes before the first `NUL`, of which only
the first `DIRSIZ` count.
-/

namespace OsCa.Sysfile

open Bytes Fs List

variable {path rest : List Byte} {name : ℕ → Byte} {inum : ℕ}

/-! ## Names -/

abbrev Name := List Byte

/-- The first `n` bytes of a string. -/
def cstr (p : ℕ → Byte) : ℕ → List Byte
  | 0 => []
  | n + 1 => if p 0 = 0 then [] else p 0 :: cstr (fun i => p (i + 1)) n

def nameOf (p : ℕ → Byte) : Name := cstr p DIRSIZ

theorem strncmp_eq_zero_iff (p q : ℕ → Byte) (n : ℕ) : strncmp p q n = 0 ↔ cstr p n = cstr q n := by
  induction n generalizing p q with
  | zero => simp [strncmp, cstr]
  | succ n ih =>
    rw [strncmp, cstr, cstr]
    by_cases heq : p 0 = q 0
    · rw [← heq]
      by_cases hzero : p 0 = 0
      · simp [hzero]
      · rw [if_pos ⟨hzero, rfl⟩, if_neg hzero, if_neg hzero, ih, cons.injEq]
        exact ⟨fun h => ⟨rfl, h⟩, And.right⟩
    · have hne : ((p 0).toNat : ℤ) - (q 0).toNat ≠ 0 := by
        intro h
        exact heq (BitVec.eq_of_toNat_eq (by omega))
      rw [if_neg (fun h => heq h.2)]
      refine iff_of_false hne fun h => ?_
      split at h <;> split at h <;> simp_all

theorem namecmp_eq_zero_iff (p q : ℕ → Byte) : namecmp p q = 0 ↔ nameOf p = nameOf q :=
  strncmp_eq_zero_iff p q DIRSIZ

theorem cstr_eq_take {p : ℕ → Byte} {l : List Byte} {n : ℕ}
    (hl : ∀ b ∈ l, b ≠ 0) (hp : ∀ i < n, i ≤ l.length → p i = literal l i) :
    cstr p n = l.take n := by
  induction l generalizing p n with
  | nil =>
    cases n with
    | zero => rfl
    | succ n =>
      have hzero : p 0 = 0 := hp 0 (Nat.succ_pos n) (Nat.le_refl _)
      rw [cstr, if_pos hzero, take_nil]
  | cons b l ih =>
    cases n with
    | zero => rfl
    | succ n =>
      have hb : p 0 = b := hp 0 (Nat.succ_pos n) (Nat.zero_le _)
      rw [cstr, hb, if_neg (hl b mem_cons_self), take_succ_cons]
      congr 1
      refine ih (fun c hc => hl c (mem_cons_of_mem b hc)) fun i hi hle => ?_
      exact hp (i + 1) (Nat.succ_lt_succ hi) (Nat.succ_le_succ hle)

/-- `strncpy` keeps the name. -/
theorem cstr_strncpy (t : ℕ → Byte) (n : ℕ) : cstr (literal (strncpy t n)) n = cstr t n := by
  induction n generalizing t with
  | zero => rfl
  | succ n ih =>
    rw [strncpy, cstr, cstr]
    by_cases hzero : t 0 = 0
    · rw [if_neg (not_not.mpr hzero), if_pos hzero]
      exact if_pos rfl
    · rw [if_pos hzero, if_neg hzero, if_neg]
      · exact congrArg (cons (t 0)) (ih fun i => t (i + 1))
      · exact hzero

/-! ## Paths -/

/-- The next element of a path, and the rest. -/
def splitElem (path : List Byte) : Option (Name × List Byte) :=
  let path := path.dropWhile (· = slash)
  if path = [] then
    none
  else
    some ((path.takeWhile (· ≠ slash)).take DIRSIZ,
      (path.dropWhile (· ≠ slash)).dropWhile (· = slash))

theorem skipelem_none_iff {name : NameBuffer} :
    skipelem path name = none ↔ splitElem path = none := by
  unfold skipelem splitElem
  dsimp only
  split <;> simp

/-- `skipelem` copies the element, cut to `DIRSIZ` bytes. -/
theorem splitElem_of_skipelem {path' : List Byte} {name name' : NameBuffer}
    (hpath : ∀ b ∈ path, b ≠ 0) (h : skipelem path name = some (path', name')) :
    splitElem path = some (nameOf (peek name'), path') := by
  unfold skipelem at h
  dsimp only at h
  unfold splitElem
  dsimp only
  split at h
  · cases h
  next hne =>
    obtain ⟨rfl, rfl⟩ := Prod.mk.inj (Option.some.inj h)
    rw [if_neg hne]
    have hs : ∀ b ∈ (path.dropWhile (· = slash)).takeWhile (· ≠ slash), b ≠ 0 := fun b hb => hpath b
      ((dropWhile_suffix _).subset (( takeWhile_prefix _).subset hb))
    generalize (path.dropWhile (· = slash)).takeWhile (· ≠ slash) = s at hs
    congr 2
    refine (cstr_eq_take hs fun i hi hle => ?_).symm
    split
    next => rw [peek_blit_of_mem (by omega) (by omega) hi, Nat.sub_zero]
    next =>
      by_cases hlen : i = s.length
      · subst i
        rw [peek_blit_of_mem (by omega) (by omega) hi]
        simp [literal]
      · rw [peek_blit_of_not_mem (by omega),
          peek_blit_of_mem (by omega) (by omega) hi, Nat.sub_zero]

theorem splitElem_rest {n : Name} (h : splitElem path = some (n, rest)) :
    rest.length < path.length ∧ ∀ b ∈ rest, b ∈ path := by
  have hskip : ∃ name', skipelem path (fun _ => 0) = some (rest, name') := by
    unfold splitElem at h
    unfold skipelem
    dsimp only at h ⊢
    split at h
    · cases h
    next hne =>
      obtain ⟨-, rfl⟩ := Prod.mk.inj (Option.some.inj h)
      exact ⟨_, if_neg hne⟩
  obtain ⟨name', hskip⟩ := hskip
  refine ⟨length_of_skipelem hskip, fun b hb => ?_⟩
  unfold splitElem at h
  dsimp only at h
  split at h
  · cases h
  · obtain ⟨-, rfl⟩ := Prod.mk.inj (Option.some.inj h)
    exact (dropWhile_suffix _).subset ((dropWhile_suffix _).subset ((dropWhile_suffix _).subset hb))

/-- The elements of a path. -/
def elements (path : List Byte) : List Name :=
  match _h : splitElem path with
  | none => []
  | some (n, rest) => n :: elements rest
termination_by path.length
decreasing_by exact (splitElem_rest _h).1

theorem elements_of_none (h : splitElem path = none) : elements path = [] := by
  rw [elements]
  split
  next => rfl
  next hs => simp [h] at hs

theorem elements_of_some {n : Name} (h : splitElem path = some (n, rest)) :
    elements path = n :: elements rest := by
  rw [elements]
  split
  next hs => simp [h] at hs
  next n' rest' hs =>
    rw [h] at hs
    cases hs
    rfl

theorem elements_nil : elements [] = [] := elements_of_none rfl

/-- After an element the path has no leading slash, so it is empty if it has no
further element. -/
theorem rest_eq_nil_iff {n : Name} (h : splitElem path = some (n, rest)) :
    rest = [] ↔ elements rest = [] := by
  refine ⟨fun hr => by rw [hr, elements_nil], fun hr => ?_⟩
  cases hs : splitElem rest with
  | some r =>
    rw [elements_of_some hs] at hr
    cases hr
  | none =>
    unfold splitElem at h hs
    dsimp only at h hs
    split at h
    · cases h
    · obtain ⟨-, rfl⟩ := Prod.mk.inj (Option.some.inj h)
      split at hs
      next hnil => rwa [dropWhile_idempotent] at hnil
      next => cases hs

/-! ## Entries -/

namespace Dirent

theorem decode_byte (de : Dirent) : decode de.byte = de := by
  refine Dirent.ext ?_ (funext fun i => ?_)
  · refine BitVec.eq_of_toNat_eq ?_
    have := de.inum.isLt
    simp only [decode, byte, BitVec.toNat_append, BitVec.toNat_setWidth,
      BitVec.toNat_ushiftRight, Nat.shiftRight_eq_div_pow]
    rw [Nat.shiftLeft_eq, Nat.mul_comm, ← Nat.two_pow_add_eq_or_of_lt (Nat.mod_lt _ (by decide))]
    omega
  · have hi : (i : ℕ) < DIRSIZ := i.isLt
    simp only [decode]
    rw [Nat.add_comm]
    simp [byte, peek]

/-- The name of the entry. -/
def label (de : Dirent) : Name := nameOf (peek de.name)

/-- The bytes of the entry on disk. -/
def bytes (de : Dirent) : List Byte := de.memory.bytes 0 direntSize

theorem length_bytes (de : Dirent) : de.bytes.length = direntSize :=
  de.memory.length_bytes 0 direntSize

theorem getD_bytes (de : Dirent) {i : ℕ} (hi : i < direntSize) : de.bytes.getD i 0 = de.byte i := by
  rw [bytes, Memory.getD_bytes _ hi, Nat.zero_add]
  rfl

theorem decode_congr {b c : ℕ → Byte} (h : ∀ i < direntSize, b i = c i) : decode b = decode c := by
  unfold direntSize at h
  refine Dirent.ext ?_ (funext fun i => ?_)
  · simp only [decode]
    rw [h 0 (by omega), h 1 (by omega)]
  · have hi : (i : ℕ) < 14 := i.isLt
    exact h _ (by omega)

end Dirent

/-- An entry that is not in use. -/
def freeDirent : Dirent := ⟨0, fun _ => 0⟩

/-- The entry that `dirlink` writes. -/
def newDirent (name : ℕ → Byte) (inum : ℕ) : Dirent where
  inum := BitVec.ofNat 16 inum
  name i := (strncpy name DIRSIZ).getD i 0

theorem label_newDirent (name : ℕ → Byte) (inum : ℕ) :
    (newDirent name inum).label = nameOf name := by
  unfold Dirent.label nameOf
  rw [← cstr_strncpy name DIRSIZ]
  have hcongr : ∀ (n : ℕ) (p q : ℕ → Byte), (∀ i < n, p i = q i) → cstr p n = cstr q n := by
    intro n
    induction n with
    | zero => exact fun _ _ _ => rfl
    | succ n ih =>
      intro p q h
      rw [cstr, cstr, h 0 (Nat.succ_pos n), ih _ _ fun i hi => h (i + 1) (Nat.succ_lt_succ hi)]
  refine hcongr _ _ _ fun i hi => ?_
  simp [peek, hi, newDirent, literal]

/-! ## Directories -/

/-- The number of entries. -/
def slots (f : File) : ℕ := (f.length + direntSize - 1) / direntSize

/-- Entry `k` of a directory; past the end there are only free entries. -/
def entry (f : File) (k : ℕ) : Dirent := Dirent.decode fun i => f.getD (direntSize * k + i) 0

/-- The first entry in use with this name. -/
def find (f : File) (n : Name) : Option ℕ :=
  (range (slots f)).find? fun k => decide ((entry f k).inum ≠ 0 ∧ (entry f k).label = n)

/-- The entry that `dirlink` uses. -/
def freeSlot (f : File) : ℕ :=
  ((range (slots f)).find? fun k => decide ((entry f k).inum = 0)).getD (slots f)

def setEntry (f : File) (k : ℕ) (de : Dirent) : File := File.write f (direntSize * k) de.bytes

/-- The directory after `dirlink`. -/
def addEntry (f : File) (name : ℕ → Byte) (inum : ℕ) : File :=
  setEntry f (freeSlot f) (newDirent name inum)

variable {f : File} {k j : ℕ} {n : Name} {de : Dirent}

theorem lt_slots_iff : k < slots f ↔ direntSize * k < f.length := by
  unfold slots direntSize
  omega

theorem slots_of_dvd (h : direntSize ∣ f.length) : direntSize * slots f = f.length := by
  obtain ⟨m, hm⟩ := h
  unfold slots
  rw [hm]
  unfold direntSize
  omega

theorem entry_of_le (h : f.length ≤ direntSize * k) : (entry f k).inum = 0 := by
  have hzero : ∀ i, f.getD (direntSize * k + i) 0 = 0 := fun i => by
    rw [getD_eq_getElem?_getD, getElem?_eq_none (by omega)]
    rfl
  simp only [entry, Dirent.decode, hzero]
  rfl

theorem lt_slots_of_used (h : (entry f k).inum ≠ 0) : k < slots f := by
  by_contra hge
  exact h (entry_of_le (Nat.le_of_not_lt (mt lt_slots_iff.mpr hge)))

theorem length_setEntry (hk : direntSize * k ≤ f.length) :
    (setEntry f k de).length = max f.length (direntSize * k + direntSize) := by
  unfold setEntry File.write
  simp only [length_append, length_take, length_drop, Dirent.length_bytes]
  omega

theorem entry_setEntry (hk : direntSize * k ≤ f.length) (j : ℕ) :
    entry (setEntry f k de) j = if j = k then de else entry f j := by
  have hbyte : ∀ o, (setEntry f k de).getD o 0 =
      if direntSize * k ≤ o ∧ o < direntSize * k + direntSize then
        de.byte (o - direntSize * k) else f.getD o 0 := by
    intro o
    rw [getD_eq_getElem?_getD, setEntry, File.getElem?_write hk, Dirent.length_bytes]
    split
    next h => rw [← getD_eq_getElem?_getD, Dirent.getD_bytes _ (by omega)]
    next => rw [← getD_eq_getElem?_getD]
  unfold entry
  by_cases hj : j = k
  · subst j
    rw [if_pos rfl]
    refine (Dirent.decode_congr fun i hi => ?_).trans de.decode_byte
    rw [hbyte, if_pos (by omega), Nat.add_sub_cancel_left]
  · rw [if_neg hj]
    refine Dirent.decode_congr fun i hi => ?_
    rw [hbyte, if_neg]
    unfold direntSize at *
    omega

/-! ### Entries in a row -/

theorem length_flatMap_bytes (l : List Dirent) :
    (l.flatMap Dirent.bytes).length = direntSize * l.length := by
  induction l with
  | nil => rfl
  | cons de l ih =>
    rw [flatMap_cons, length_append, ih, Dirent.length_bytes,
      length_cons, Nat.mul_succ, Nat.add_comm]

theorem slots_flatMap_bytes (l : List Dirent) : slots (l.flatMap Dirent.bytes) = l.length := by
  unfold slots
  rw [length_flatMap_bytes]
  unfold direntSize
  omega

theorem entry_flatMap_bytes (l : List Dirent) (k : ℕ) :
    entry (l.flatMap Dirent.bytes) k = l.getD k freeDirent := by
  induction l generalizing k with
  | nil => exact Dirent.ext (entry_of_le (Nat.zero_le _)) (funext fun _ => rfl)
  | cons de l ih =>
    rw [flatMap_cons]
    cases k with
    | zero =>
      refine (Dirent.decode_congr fun i hi => ?_).trans de.decode_byte
      rw [Nat.mul_zero, Nat.zero_add, getD_append _ _ _ _
        (by rw [Dirent.length_bytes]; exact hi), Dirent.getD_bytes _ hi]
    | succ k =>
      rw [getD_cons_succ, ← ih k]
      refine Dirent.decode_congr fun i _ => ?_
      rw [getD_append_right _ _ _ _ (by rw [Dirent.length_bytes, Nat.mul_succ]; omega),
        Dirent.length_bytes, Nat.mul_succ]
      congr 1
      omega

/-! ## Searching -/

theorem find_eq_some_iff : find f n = some k ↔ (entry f k).inum ≠ 0 ∧ (entry f k).label = n ∧
      ∀ j < k, ¬ ((entry f j).inum ≠ 0 ∧ (entry f j).label = n) := by
  unfold find
  rw [find?_range_eq_some]
  simp only [decide_eq_true_eq, mem_range]
  constructor
  · rintro ⟨⟨hused, hlabel⟩, -, hfirst⟩
    exact ⟨hused, hlabel, fun j hj hx => by
      have hnot := hfirst j hj
      rw [decide_eq_true hx] at hnot
      cases hnot⟩
  · rintro ⟨hused, hlabel, hfirst⟩
    exact ⟨⟨hused, hlabel⟩, lt_slots_of_used hused, fun j hj => by
      rw [decide_eq_false (hfirst j hj)]
      rfl⟩

theorem find_eq_none_iff : find f n = none ↔ ∀ k, (entry f k).inum ≠ 0 → (entry f k).label ≠ n := by
  unfold find
  rw [find?_eq_none]
  simp only [decide_eq_true_eq, mem_range]
  constructor
  · exact fun h k hused hlabel => h k (lt_slots_of_used hused) ⟨hused, hlabel⟩
  · exact fun h k _ hk => h k hk.1 hk.2

theorem freeSlot_spec (f : File) : freeSlot f ≤ slots f ∧ (entry f (freeSlot f)).inum = 0 ∧
      ∀ j < freeSlot f, (entry f j).inum ≠ 0 := by
  unfold freeSlot
  cases hfind : (range (slots f)).find? fun k => decide ((entry f k).inum = 0) with
  | none =>
    rw [find?_eq_none] at hfind
    refine ⟨Nat.le_refl _, ?_, fun j hj => ?_⟩
    · by_contra hused
      exact absurd (lt_slots_of_used hused) (Nat.lt_irrefl _)
    · simpa using hfind j (mem_range.mpr hj)
  | some k =>
    rw [find?_range_eq_some] at hfind
    obtain ⟨hfree, hmem, hfirst⟩ := hfind
    refine ⟨(mem_range.mp hmem).le, of_decide_eq_true hfree, fun j hj => ?_⟩
    simpa using hfirst j hj

theorem freeSlot_fits (h : direntSize ∣ f.length) : direntSize * freeSlot f ≤ f.length := by
  rw [← slots_of_dvd h]
  exact Nat.mul_le_mul_left _ (freeSlot_spec f).1

theorem entry_addEntry (h : direntSize ∣ f.length) (name : ℕ → Byte) (inum j : ℕ) :
    entry (addEntry f name inum) j = if j = freeSlot f then newDirent name inum else entry f j :=
  entry_setEntry (freeSlot_fits h) j

/-- A directory with inode number `d`: a whole number of entries, of which
the first two are `.` and `..`, and no name occurs twice. -/
structure Directory (d : ℕ) (f : File) : Prop where
  aligned : direntSize ∣ f.length
  dot_used : (entry f 0).inum ≠ 0
  dot_self : (entry f 0).inum.toNat = d
  dot_label : (entry f 0).label = dot
  dotdot_used : (entry f 1).inum ≠ 0
  dotdot_label : (entry f 1).label = dotdot
  unique : ∀ j k, (entry f j).inum ≠ 0 → (entry f k).inum ≠ 0 →
    (entry f j).label = (entry f k).label → j = k

namespace Directory

variable {d : ℕ}

theorem two_le_freeSlot (h : Directory d f) : 2 ≤ freeSlot f := by
  have hfree := (freeSlot_spec f).2.1
  rcases Nat.lt_or_ge (freeSlot f) 2 with hlt | hge
  · have hcases : freeSlot f = 0 ∨ freeSlot f = 1 := by omega
    rcases hcases with heq | heq
    · exact absurd (heq ▸ hfree) h.dot_used
    · exact absurd (heq ▸ hfree) h.dotdot_used
  · exact hge

theorem aligned_setEntry (h : direntSize ∣ f.length) (hk : direntSize * k ≤ f.length) :
    direntSize ∣ (setEntry f k de).length := by
  rw [length_setEntry hk]
  rcases max_choice f.length (direntSize * k + direntSize) with hmax | hmax
  · rwa [hmax]
  · rw [hmax]
    exact ⟨k + 1, by ring⟩

/-- An entry after the first two can be overwritten by one whose name is not
taken. -/
theorem setEntry (h : Directory d f) (hk : 2 ≤ k) (hfit : direntSize * k ≤ f.length)
    (hde : de.inum ≠ 0 → find f de.label = none) :
    Directory d (setEntry f k de) := by
  have hentry := @entry_setEntry f k de hfit
  have h0 : entry (Sysfile.setEntry f k de) 0 = entry f 0 := by rw [hentry, if_neg (by omega)]
  have h1 : entry (Sysfile.setEntry f k de) 1 = entry f 1 := by rw [hentry, if_neg (by omega)]
  refine ⟨aligned_setEntry h.aligned hfit, ?_, ?_, ?_, ?_, ?_, ?_⟩
  · rw [h0]
    exact h.dot_used
  · rw [h0]
    exact h.dot_self
  · rw [h0]
    exact h.dot_label
  · rw [h1]
    exact h.dotdot_used
  · rw [h1]
    exact h.dotdot_label
  · intro i j hi hj hlabel
    rw [hentry] at hi hlabel
    rw [hentry] at hj hlabel
    by_cases hik : i = k
    · rw [if_pos hik] at hi hlabel
      by_cases hjk : j = k
      · rw [hik, hjk]
      · rw [if_neg hjk] at hj hlabel
        exact absurd hlabel.symm (find_eq_none_iff.mp (hde hi) j hj)
    · rw [if_neg hik] at hi hlabel
      by_cases hjk : j = k
      · rw [if_pos hjk] at hj hlabel
        exact absurd hlabel (find_eq_none_iff.mp (hde hj) i hi)
      · rw [if_neg hjk] at hj hlabel
        exact h.unique i j hi hj hlabel

theorem addEntry (h : Directory d f) (hnew : find f (nameOf name) = none) :
    Directory d (addEntry f name inum) :=
  h.setEntry h.two_le_freeSlot (freeSlot_fits h.aligned) fun _ => by rwa [label_newDirent]

theorem clearEntry (h : Directory d f) (hk : 2 ≤ k) (hfit : direntSize * k ≤ f.length) :
    Directory d (Sysfile.setEntry f k freeDirent) :=
  h.setEntry hk hfit fun hne => absurd rfl hne

/-- A directory from the list of its entries. -/
theorem of_list {l : List Dirent} (hdot : (l.getD 0 freeDirent).inum ≠ 0 ∧
      (l.getD 0 freeDirent).inum.toNat = d ∧ (l.getD 0 freeDirent).label = dot)
    (hdotdot : (l.getD 1 freeDirent).inum ≠ 0 ∧ (l.getD 1 freeDirent).label = dotdot)
    (hunique : ∀ j < l.length, ∀ k < l.length,
      (l.getD j freeDirent).inum ≠ 0 ∧ (l.getD k freeDirent).inum ≠ 0 ∧
      (l.getD j freeDirent).label = (l.getD k freeDirent).label → j = k) :
    Directory d (l.flatMap Dirent.bytes) := by
  refine ⟨⟨l.length, length_flatMap_bytes l⟩, ?_, ?_, ?_, ?_, ?_, fun j k hj hk heq => ?_⟩
  · rw [entry_flatMap_bytes]
    exact hdot.1
  · rw [entry_flatMap_bytes]
    exact hdot.2.1
  · rw [entry_flatMap_bytes]
    exact hdot.2.2
  · rw [entry_flatMap_bytes]
    exact hdotdot.1
  · rw [entry_flatMap_bytes]
    exact hdotdot.2
  · have hjlt := lt_slots_of_used hj
    have hklt := lt_slots_of_used hk
    rw [slots_flatMap_bytes] at hjlt hklt
    rw [entry_flatMap_bytes] at hj hk heq
    rw [entry_flatMap_bytes] at heq
    exact hunique j hjlt k hklt ⟨hj, hk, heq⟩

end Directory

end OsCa.Sysfile
