import OsCa.Kernel.Sysfile.Directories
import OsCa.Support.Hierarchy

/-!
# The tree of linked directories

The entries of the directories that have links, apart from `.`, are the edges of
a tree, and the link count of an inode is the number of edges that lead to it.
Every move keeps this up, as long as it makes no entry in a directory without
links and lets no link count overflow.
-/

namespace OsCa.Sysfile

open Bytes Fs OsCa.Action Relation Hierarchy Finset

variable {f : File} {n type major minor : Short} {m m' : List ℕ × View}

/-! ## Entries as edges -/

namespace View

/-- The directory has links. -/
def Linked (v : View) (d : ℕ) : Prop := (v.node d).type = T_DIR ∧ 0 < (v.node d).nlink.toInt

instance (v : View) (d : ℕ) : Decidable (v.Linked d) := inferInstanceAs (Decidable (_ ∧ _))

theorem Linked.nlink_ne {v : View} {d : ℕ} (h : v.Linked d) : (v.node d).nlink ≠ 0 := by
  intro hzero
  rw [Linked, hzero] at h
  exact absurd h.2 (by decide)

/-- The entries other than `.` of the directories that have links: in which
directory, which entry, and the inode it names. -/
def edges (sb : Superblock) (v : View) : Finset (ℕ × ℕ × ℕ) :=
  ((range sb.ninodes).filter v.Linked).biUnion fun d =>
    ((range (slots (v.node d).data)).filter fun k =>
      (entry (v.node d).data k).inum ≠ 0 ∧
        (entry (v.node d).data k).label ≠ dot).image fun k => (d, k, v.inumAt d k)

/-- How many entries other than `.` of directories that have links name `i`. -/
def links (sb : Superblock) (v : View) (i : ℕ) : ℕ := indegree (v.edges sb) i

end View

variable {sb : Superblock} {P : Policy} {L : List ℕ} {v w : View}
  {d dp ip i j k : ℕ} {name : ℕ → Byte}

theorem mem_edges : (d, k, i) ∈ v.edges sb ↔
    d < sb.ninodes ∧ v.Linked d ∧ (entry (v.node d).data k).inum ≠ 0 ∧
      (entry (v.node d).data k).label ≠ dot ∧ v.inumAt d k = i := by
  unfold View.edges
  simp only [mem_biUnion, mem_filter, mem_range, mem_image, Prod.mk.injEq]
  constructor
  · rintro ⟨d', ⟨hlt, hlinked⟩, k', ⟨-, hused, hlabel⟩, rfl, rfl, hi⟩
    exact ⟨hlt, hlinked, hused, hlabel, hi⟩
  · rintro ⟨hlt, hlinked, hused, hlabel, hi⟩
    exact ⟨d, ⟨hlt, hlinked⟩, k, ⟨lt_slots_of_used hused, hused, hlabel⟩, rfl, rfl, hi⟩

/-- Entry `k` is in use, for inode `i`. -/
def Points (f : File) (k i : ℕ) : Prop := (entry f k).inum ≠ 0 ∧ (entry f k).inum.toNat = i

theorem points_addEntry (h : direntSize ∣ f.length)
    (hip : BitVec.ofNat 16 ip ≠ 0 ∧ (BitVec.ofNat 16 ip).toNat = ip) :
    Points (addEntry f name ip) k i ↔ k = freeSlot f ∧ i = ip ∨ Points f k i := by
  unfold Points
  rw [entry_addEntry h]
  by_cases hk : k = freeSlot f
  · rw [if_pos hk, hk]
    change BitVec.ofNat 16 ip ≠ 0 ∧ (BitVec.ofNat 16 ip).toNat = i ↔ _
    rw [hip.2, (freeSlot_spec f).2.1]
    constructor
    · exact fun hx => Or.inl ⟨rfl, hx.2.symm⟩
    · rintro (⟨-, hi⟩ | ⟨hx, -⟩)
      · exact ⟨hip.1, hi.symm⟩
      · exact absurd rfl hx
  · rw [if_neg hk, or_iff_right fun hx => hk hx.1]

theorem points_clear (h : direntSize * dp ≤ f.length) :
    Points (setEntry f dp freeDirent) k i ↔ k ≠ dp ∧ Points f k i := by
  unfold Points
  rw [entry_setEntry h]
  by_cases hk : k = dp
  · rw [if_pos hk]
    exact iff_of_false (fun hx => hx.1 rfl) fun hx => hx.1 hk
  · rw [if_neg hk, and_iff_right hk]

theorem points_dots (hip : BitVec.ofNat 16 ip ≠ 0 ∧ (BitVec.ofNat 16 ip).toNat = ip)
    (hdp : BitVec.ofNat 16 dp ≠ 0 ∧ (BitVec.ofNat 16 dp).toNat = dp) :
    Points (dots ip dp) k i ↔ k = 1 ∧ i = dp ∨ k = 0 ∧ i = ip := by
  unfold dots
  rw [points_addEntry aligned_dots_first hdp, freeSlot_dots_first hip.1,
    points_addEntry (dvd_zero _) hip, freeSlot_nil]
  exact or_congr_right (or_iff_left fun hx => hx.1 (entry_nil k))

/-- In a well-formed directory, the entries other than `.` are those after the
first. -/
theorem Base.mem_edges_iff (h : Base sb L v) :
    (d, k, i) ∈ v.edges sb ↔ v.Linked d ∧ 1 ≤ k ∧ Points (v.node d).data k i := by
  rw [mem_edges]
  constructor
  · rintro ⟨-, hlinked, hused, hlabel, hi⟩
    refine ⟨hlinked, Nat.one_le_iff_ne_zero.mpr ?_, hused, hi⟩
    rintro rfl
    exact hlabel (h.dirs d hlinked.1).dot_label
  · rintro ⟨hlinked, hk, hused, hi⟩
    have hd := h.dirs d hlinked.1
    have hself : v.inumAt d 0 = d := hd.dot_self
    have hlt := h.range d 0 hlinked.1 hd.dot_used
    rw [hself] at hlt
    refine ⟨hlt, hlinked, hused, fun hdot => ?_, hi⟩
    have := hd.unique k 0 hused hd.dot_used (hdot.trans hd.dot_label.symm)
    omega

/-- A linked directory has an edge for `..`. -/
theorem Base.up_mem_edges (h : Base sb L v) (hlinked : v.Linked d) :
    (d, 1, v.inumAt d 1) ∈ v.edges sb :=
  h.mem_edges_iff.mpr ⟨hlinked, Nat.le_refl 1, (h.dirs d hlinked.1).dotdot_used, rfl⟩

/-- The edges depend on the directories only. -/
theorem edges_congr (h : ∀ d, v.Linked d ∨ w.Linked d →
    (w.node d).type = (v.node d).type ∧ (w.node d).data = (v.node d).data ∧
      (0 < (w.node d).nlink.toInt ↔ 0 < (v.node d).nlink.toInt)) :
    w.edges sb = v.edges sb := by
  have hlinked : ∀ d, w.Linked d ↔ v.Linked d := by
    intro d
    constructor
    · intro hd
      obtain ⟨htype, -, hpos⟩ := h d (Or.inr hd)
      exact ⟨htype ▸ hd.1, hpos.mp hd.2⟩
    · intro hd
      obtain ⟨htype, -, hpos⟩ := h d (Or.inl hd)
      exact ⟨htype ▸ hd.1, hpos.mpr hd.2⟩
  refine ext fun ⟨d, k, i⟩ => ?_
  rw [mem_edges, mem_edges, hlinked]
  refine and_congr_right fun _ => and_congr_right fun hd => ?_
  rw [View.inumAt, View.inumAt, (h d (Or.inl hd)).2.1]

/-! ## The invariant -/

/-- The link counts are exact, and the linked directories form a tree.  An inode
without links is a file or an empty directory that somebody refers to, and its
cache entry is valid, so that the last `iput` frees it. -/
structure Exact (sb : Superblock) (v : View) : Prop where
  tree : Tree 1 ROOTINO (v.edges sb)
  exact : ∀ i, (v.node i).type ≠ 0 → (v.node i).nlink.toInt = v.links sb i
  used : ∀ d k i, (d, k, i) ∈ v.edges sb → (v.node i).type ≠ 0
  empty : ∀ d, (v.node d).type = T_DIR → (v.node d).nlink = 0 → EmptyDir (v.node d).data
  kept : ∀ i, (v.node i).type ≠ 0 → (v.node i).nlink = 0 → v.ref i ≠ 0
  live : ∀ i, (v.node i).type ≠ 0 → (v.node i).nlink = 0 → v.valid i = true

namespace Exact

section

variable (h : Exact sb v)

include h

theorem nlink_nonneg (hi : (v.node i).type ≠ 0) : 0 ≤ (v.node i).nlink.toInt := by
  rw [h.exact i hi]
  exact Int.natCast_nonneg _

theorem nlink_pos (hi : (v.node i).type ≠ 0) (hne : (v.node i).nlink ≠ 0) :
    0 < (v.node i).nlink.toInt := by
  refine lt_of_le_of_ne (h.nlink_nonneg hi) fun heq => hne ?_
  exact BitVec.eq_of_toInt_eq (by simpa using heq.symm)

theorem linked_of_dir (hd : (v.node d).type = T_DIR) (hne : (v.node d).nlink ≠ 0) : v.Linked d :=
  ⟨hd, h.nlink_pos (hd ▸ T_DIR_ne_zero) hne⟩

/-- An inode that something leads to has links. -/
theorem nlink_ne (hmem : (d, k, i) ∈ v.edges sb) : (v.node i).nlink ≠ 0 := by
  intro hzero
  have hlinks := h.exact i (h.used d k i hmem)
  have hpos : 0 < v.links sb i := indegree_pos_iff.mpr ⟨d, k, hmem⟩
  rw [hzero] at hlinks
  simp at hlinks
  omega

/-- Nothing leads to a free inode. -/
theorem links_of_free (hi : (v.node i).type = 0) (d k : ℕ) :
    (d, k, i) ∉ v.edges sb := fun hmem => h.used d k i hmem hi

/-- Files may change, and inodes without links may become free. -/
theorem of_nodes (hnode : ∀ i, (w.node i).type ≠ 0 → (w.node i).type = (v.node i).type ∧
      (w.node i).nlink = (v.node i).nlink ∧
      ((v.node i).type = T_DIR → (w.node i).data = (v.node i).data))
    (hused : ∀ i, (v.node i).nlink ≠ 0 → (v.node i).type ≠ 0 → (w.node i).type ≠ 0)
    (hkept : ∀ i, (w.node i).type ≠ 0 → (v.node i).nlink = 0 → v.ref i ≠ 0 →
      v.valid i = true → w.ref i ≠ 0 ∧ w.valid i = true) : Exact sb w := by
  have hedges : w.edges sb = v.edges sb := by
    refine edges_congr fun d hd => ?_
    obtain ⟨htype, hnlink, hdata⟩ := hnode d <| hd.elim
      (fun hd => hused d hd.nlink_ne (hd.1 ▸ T_DIR_ne_zero)) fun hd => hd.1 ▸ T_DIR_ne_zero
    exact ⟨htype, hdata (hd.elim And.left fun hd => htype.symm.trans hd.1), by rw [hnlink]⟩
  have hrest : ∀ i, (w.node i).type ≠ 0 → (w.node i).nlink = 0 →
      w.ref i ≠ 0 ∧ w.valid i = true := by
    intro i hi hzero
    obtain ⟨htype, hnlink, -⟩ := hnode i hi
    rw [hnlink] at hzero
    have hold : (v.node i).type ≠ 0 := htype ▸ hi
    exact hkept i hi hzero (h.kept i hold hzero) (h.live i hold hzero)
  refine ⟨hedges ▸ h.tree, fun i hi => ?_, fun d k i hmem => ?_, fun d hd hzero => ?_,
    fun i hi hzero => (hrest i hi hzero).1, fun i hi hzero => (hrest i hi hzero).2⟩
  · obtain ⟨htype, hnlink, -⟩ := hnode i hi
    rw [View.links, hedges, hnlink]
    exact h.exact i (htype ▸ hi)
  · rw [hedges] at hmem
    exact hused i (h.nlink_ne hmem) (h.used d k i hmem)
  · obtain ⟨htype, hnlink, hdata⟩ := hnode d (hd ▸ T_DIR_ne_zero)
    rw [htype] at hd
    rw [hnlink] at hzero
    rw [hdata hd]
    exact h.empty d hd hzero

/-- The tree has changed, but not the inodes without links. -/
theorem of_tree (htree : Tree 1 ROOTINO (w.edges sb))
    (hexact : ∀ i, (w.node i).type ≠ 0 → (w.node i).nlink.toInt = w.links sb i)
    (hused : ∀ d k i, (d, k, i) ∈ w.edges sb → (w.node i).type ≠ 0)
    (hrest : ∀ i, (w.node i).nlink = 0 →
      w.node i = v.node i ∧ w.ref i = v.ref i ∧ w.valid i = v.valid i) :
    Exact sb w := by
  refine ⟨htree, hexact, hused, fun i hi hzero => ?_, fun i hi hzero => ?_, fun i hi hzero => ?_⟩
  all_goals
    obtain ⟨heq, href, hvalid⟩ := hrest i hzero
    rw [heq] at hi hzero
  · rw [heq]
    exact h.empty i hi hzero
  · rw [href]
    exact h.kept i hi hzero
  · rw [hvalid]
    exact h.live i hi hzero

/-- Nothing but references has changed. -/
theorem of_same (hnode : w.node = v.node) (href : ∀ i, v.ref i ≠ 0 → w.ref i ≠ 0)
    (hvalid : ∀ i, v.ref i ≠ 0 → v.valid i = true → w.valid i = true) : Exact sb w := by
  refine h.of_nodes (fun i _ => ?_) (fun i _ hi => ?_) fun i _ _ hi hv =>
    ⟨href i hi, hvalid i hi hv⟩
  · rw [hnode]
    exact ⟨rfl, rfl, fun _ => rfl⟩
  · rwa [hnode]

theorem look {H : List ℕ} (hl : Looked v w H) : Exact sb w := by
  refine h.of_same (funext fun i => ?_) (fun i hi => ?_) fun i hi hv =>
    hl.valid i (Nat.pos_of_ne_zero hi) hv
  · rcases hl.node i with heq | ⟨hzero, htype, hnlink, -⟩
    · exact heq
    · exact absurd hzero (h.kept i htype hnlink)
  · rw [hl.ref]
    omega

/-- Of the inodes without links, the last reference to one frees it. -/
theorem release (hvalid : v.valid i = true → (v.node i).type ≠ 0) : Exact sb (v.release i) := by
  have hnode : ∀ j, ((v.release i).node j).type ≠ 0 → ¬ (j = i ∧ v.Dying i) := by
    intro j hj hdying
    rw [View.node_release, if_pos hdying] at hj
    exact hj rfl
  refine h.of_nodes (fun j hj => ?_) (fun j hj htype => ?_) fun j hj hnlink href hv => ?_
  · rw [View.node_release, if_neg (hnode j hj)]
    exact ⟨rfl, rfl, fun _ => rfl⟩
  · rw [View.node_release, if_neg]
    · exact htype
    · rintro ⟨rfl, hdying⟩
      exact hj hdying.2.2
  · have hdying := hnode j hj
    rw [View.ref_release, View.valid_release, if_neg hdying]
    refine ⟨?_, hv⟩
    split
    next heq =>
      subst heq
      intro hone
      exact hdying ⟨rfl, by omega, hv, hnlink⟩
    next => exact href

theorem setData {data : File} (hfile : (v.node ip).type ≠ T_DIR) :
    Exact sb (v.setNode ip { v.node ip with data := data }) := by
  have hnode : ∀ j, ((v.setNode ip { v.node ip with data := data }).node j).type = (v.node j).type ∧
      ((v.setNode ip { v.node ip with data := data }).node j).nlink = (v.node j).nlink ∧
      ((v.node j).type = T_DIR →
        ((v.setNode ip { v.node ip with data := data }).node j).data = (v.node j).data) := by
    intro j
    rw [View.node_setNode]
    split
    next heq =>
      subst heq
      exact ⟨rfl, rfl, fun hd => absurd hd hfile⟩
    next => exact ⟨rfl, rfl, fun _ => rfl⟩
  refine h.of_nodes (fun i _ => hnode i) (fun i _ hi => ?_) fun _ _ _ href hv => ⟨href, hv⟩
  rwa [(hnode i).1]

end

end Exact

/-! ## New and removed entries -/

theorem toInt_add_one (h : n ≠ 32767) : (n + 1).toInt = n.toInt + 1 := by
  have hne : n.toInt ≠ 32767 := fun heq => h (BitVec.eq_of_toInt_eq heq)
  have hlt := BitVec.toInt_lt (x := n)
  have hle := BitVec.le_toInt (x := n)
  rw [BitVec.toInt_add, show BitVec.toInt (1 : Short) = 1 from rfl,
    Int.bmod_eq_of_le (by omega) (by omega)]

theorem toInt_sub_one (h : 1 ≤ n.toInt) : (n - 1).toInt = n.toInt - 1 := by
  have hlt := BitVec.toInt_lt (x := n)
  rw [BitVec.toInt_sub, show BitVec.toInt (1 : Short) = 1 from rfl,
    Int.bmod_eq_of_le (by omega) (by omega)]

theorem View.linked_congr (h : w.node d = v.node d) : w.Linked d ↔ v.Linked d := by
  unfold View.Linked
  rw [h]

theorem mem_edges_congr (h : w.node d = v.node d) :
    (d, k, i) ∈ w.edges sb ↔ (d, k, i) ∈ v.edges sb := by
  rw [mem_edges, mem_edges, View.linked_congr h, View.inumAt, View.inumAt, h]

theorem edges_linked (hb : Base sb L v) (hb' : Base sb L (v.linked dp ip name))
    (hdp : v.Linked dp) (hfile : (v.node ip).type ≠ T_DIR)
    (hip : BitVec.ofNat 16 ip ≠ 0 ∧ (BitVec.ofNat 16 ip).toNat = ip) :
    (v.linked dp ip name).edges sb =
      insert (dp, freeSlot (v.node dp).data, ip) (v.edges sb) := by
  have hdir := hb.dirs dp hdp.1
  refine ext fun ⟨d, k, i⟩ => ?_
  rw [mem_insert, Prod.mk.injEq, Prod.mk.injEq]
  by_cases hd : d = dp
  · subst d
    have hlinked : (v.linked dp ip name).Linked dp ↔ v.Linked dp := by
      unfold View.Linked
      rw [View.node_linked, if_pos rfl]
    rw [hb'.mem_edges_iff, hb.mem_edges_iff, hlinked, View.node_linked, if_pos rfl,
      points_addEntry hdir.aligned hip]
    have htwo := hdir.two_le_freeSlot
    constructor
    · rintro ⟨-, hk, ⟨rfl, rfl⟩ | hx⟩
      · exact Or.inl ⟨rfl, rfl, rfl⟩
      · exact Or.inr ⟨hdp, hk, hx⟩
    · rintro (⟨-, rfl, rfl⟩ | ⟨-, hk, hx⟩)
      · exact ⟨hdp, by omega, Or.inl ⟨rfl, rfl⟩⟩
      · exact ⟨hdp, hk, Or.inr hx⟩
  · rw [or_iff_right fun hx => hd hx.1]
    by_cases hi : d = ip
    · subst d
      refine iff_of_false (fun hx => hfile ?_) fun hx => hfile (mem_edges.mp hx).2.1.1
      exact View.type_linked.symm.trans (mem_edges.mp hx).2.1.1
    · exact mem_edges_congr (View.linked_of_ne hd hi)

theorem Exact.linked (h : Exact sb v) (hb : Base sb L v)
    (hb' : Base sb L (v.linked dp ip name)) (hdir : (v.node dp).type = T_DIR)
    (hip : BitVec.ofNat 16 ip ≠ 0 ∧ (BitVec.ofNat 16 ip).toNat = ip)
    (hused : (v.node ip).type ≠ 0) (hfile : (v.node ip).type ≠ T_DIR)
    (hentry : (v.node dp).nlink ≠ 0) (hlink : (v.node ip).nlink ≠ 32767) :
    Exact sb (v.linked dp ip name) := by
  have hdp := h.linked_of_dir hdir hentry
  have hedges := edges_linked hb hb' hdp hfile hip
  set slot := freeSlot (v.node dp).data
  have hfree : ∀ j, (dp, slot, j) ∉ v.edges sb := fun j hmem =>
    (hb.mem_edges_iff.mp hmem).2.2.1 (freeSlot_spec _).2.1
  have hne : ip ≠ dp := by
    rintro rfl
    exact hfile hdir
  have hleaf : ∀ e, (ip, 1, e) ∉ v.edges sb := fun e hmem => hfile (hb.mem_edges_iff.mp hmem).1.1
  have hnlink : ∀ j, ((v.linked dp ip name).node j).nlink =
      if j = ip then (v.node ip).nlink + 1 else (v.node j).nlink := by
    intro j
    rw [View.node_linked]
    by_cases hj : j = dp
    · rw [if_pos hj, hj, if_neg hne.symm]
    · rw [if_neg hj]
      by_cases hji : j = ip
      · rw [if_pos hji, if_pos hji]
      · rw [if_neg hji, if_neg hji]
  refine h.of_tree ?_ (fun j hj => ?_) (fun d k j hmem => ?_) fun j hzero => ?_
  · rw [hedges]
    exact h.tree.insert_leaf ⟨_, hb.up_mem_edges hdp⟩ hfree hleaf
  · rw [View.type_linked] at hj
    rw [View.links, hedges, indegree_insert (hfree ip), hnlink]
    have hexact := h.exact j hj
    rw [View.links] at hexact
    by_cases hji : j = ip
    · subst j
      rw [if_pos rfl, if_pos rfl, toInt_add_one hlink, hexact]
      rfl
    · rw [if_neg hji, if_neg (Ne.symm hji), hexact, Nat.add_zero]
  · rw [hedges, mem_insert, Prod.mk.injEq, Prod.mk.injEq] at hmem
    rw [View.type_linked]
    rcases hmem with ⟨-, -, rfl⟩ | hmem
    · exact hused
    · exact h.used d k j hmem
  · -- The inode with the new name has links, and so has the directory.
    rw [hnlink] at hzero
    have hji : j ≠ ip := by
      rintro rfl
      have hpos := h.nlink_nonneg hused
      have hint := toInt_add_one hlink
      rw [if_pos rfl] at hzero
      rw [hzero] at hint
      simp at hint
      omega
    rw [if_neg hji] at hzero
    have hjdp : j ≠ dp := by
      rintro rfl
      exact hentry hzero
    exact ⟨View.linked_of_ne hjdp hji, rfl, rfl⟩

theorem edges_created (hb : Base sb L v)
    (hb' : Base sb (ip :: L) (v.created dp ip name type major minor))
    (hdp : v.Linked dp) (hdp' : (v.created dp ip name type major minor).Linked dp)
    (hfree : (v.node ip).type = 0)
    (hip : BitVec.ofNat 16 ip ≠ 0 ∧ (BitVec.ofNat 16 ip).toNat = ip)
    (hinum : BitVec.ofNat 16 dp ≠ 0 ∧ (BitVec.ofNat 16 dp).toNat = dp) :
    (v.created dp ip name type major minor).edges sb = insert (dp, freeSlot (v.node dp).data, ip)
        (if type = T_DIR then insert (ip, 1, dp) (v.edges sb) else v.edges sb) := by
  have hdir := hb.dirs dp hdp.1
  have hne : ip ≠ dp := by
    rintro rfl
    rw [hdp.1] at hfree
    exact T_DIR_ne_zero hfree
  have hmem : ∀ d k i, (d, k, i) ∈ (if type = T_DIR then
      insert (ip, 1, dp) (v.edges sb) else v.edges sb) ↔
        type = T_DIR ∧ d = ip ∧ k = 1 ∧ i = dp ∨ (d, k, i) ∈ v.edges sb := by
    intro d k i
    split
    next htype => simp [htype]
    next htype => simp [htype]
  refine ext fun ⟨d, k, i⟩ => ?_
  rw [mem_insert, hmem, Prod.mk.injEq, Prod.mk.injEq]
  by_cases hd : d = dp
  · subst d
    rw [hb'.mem_edges_iff, hb.mem_edges_iff, View.node_created, if_pos rfl,
      points_addEntry hdir.aligned hip]
    have htwo := hdir.two_le_freeSlot
    constructor
    · rintro ⟨-, hk, ⟨rfl, rfl⟩ | hx⟩
      · exact Or.inl ⟨rfl, rfl, rfl⟩
      · exact Or.inr (Or.inr ⟨hdp, hk, hx⟩)
    · rintro (⟨-, rfl, rfl⟩ | ⟨-, hx, -⟩ | ⟨-, hk, hx⟩)
      · exact ⟨hdp', by omega, Or.inl ⟨rfl, rfl⟩⟩
      · exact absurd hx.symm hne
      · exact ⟨hdp', hk, Or.inr hx⟩
  · rw [or_iff_right fun hx => hd hx.1]
    by_cases hi : d = ip
    · subst d
      have hnode : (v.created dp ip name type major minor).node ip =
          ⟨type, major, minor, 1, if type = T_DIR then dots ip dp else []⟩ := by
        rw [View.node_created, if_neg hne, if_pos rfl]
      rw [hb'.mem_edges_iff, hb.mem_edges_iff, View.Linked, hnode, or_iff_left fun hx => ?_]
      · constructor
        · rintro ⟨⟨htype, -⟩, hk, hx⟩
          rw [if_pos htype, points_dots hip hinum] at hx
          rcases hx with ⟨rfl, rfl⟩ | ⟨rfl, -⟩
          · exact ⟨htype, rfl, rfl, rfl⟩
          · omega
        · rintro ⟨htype, -, rfl, rfl⟩
          have hone : 0 < BitVec.toInt (1 : Short) := by decide
          refine ⟨⟨htype, hone⟩, Nat.le_refl 1, ?_⟩
          rw [if_pos htype, points_dots hip hinum]
          exact Or.inl ⟨rfl, rfl⟩
      · have htype := hx.1.1
        rw [hfree] at htype
        exact T_DIR_ne_zero htype.symm
    · rw [or_iff_right fun hx => hi hx.2.1]
      exact mem_edges_congr (View.created_of_ne hd hi)

theorem Exact.created (h : Exact sb v) (hb : Base sb L v)
    (hb' : Base sb (ip :: L) (v.created dp ip name type major minor))
    (hdir : (v.node dp).type = T_DIR)
    (hip : BitVec.ofNat 16 ip ≠ 0 ∧ (BitVec.ofNat 16 ip).toNat = ip)
    (hinum : BitVec.ofNat 16 dp ≠ 0 ∧ (BitVec.ofNat 16 dp).toNat = dp)
    (hfree : (v.node ip).type = 0) (htype : type ≠ 0) (hentry : (v.node dp).nlink ≠ 0)
    (hlink : type = T_DIR → (v.node dp).nlink ≠ 32767) :
    Exact sb (v.created dp ip name type major minor) ∧
      (v.created dp ip name type major minor).Linked dp := by
  have hdp := h.linked_of_dir hdir hentry
  set u := v.created dp ip name type major minor
  have hne : ip ≠ dp := by
    rintro rfl
    rw [hdir] at hfree
    exact T_DIR_ne_zero hfree
  have hudp : (u.node dp).type = T_DIR ∧ (u.node dp).nlink.toInt =
      (v.node dp).nlink.toInt + if type = T_DIR then 1 else 0 := by
    rw [View.node_created, if_pos rfl]
    refine ⟨hdir, ?_⟩
    by_cases hd : type = T_DIR
    · rw [if_pos hd, if_pos hd, toInt_add_one (hlink hd)]
    · rw [if_neg hd, if_neg hd, Int.add_zero]
  have huip : u.node ip = ⟨type, major, minor, 1, if type = T_DIR then dots ip dp else []⟩ := by
    rw [View.node_created, if_neg hne, if_pos rfl]
  have hother : ∀ j, j ≠ dp → j ≠ ip → u.node j = v.node j := fun _ hd hi =>
    View.created_of_ne hd hi
  have hdp' : u.Linked dp := by
    refine ⟨hudp.1, ?_⟩
    have := hdp.2
    rw [hudp.2]
    split <;> omega
  have hedges := edges_created hb hb' hdp hdp' hfree hip hinum
  set slot := freeSlot (v.node dp).data
  have hslot : ∀ j, (dp, slot, j) ∉ v.edges sb := fun j hmem =>
    (hb.mem_edges_iff.mp hmem).2.2.1 (freeSlot_spec _).2.1
  have hout : ∀ l e, (ip, l, e) ∉ v.edges sb := fun l e hmem => by
    have htype := (hb.mem_edges_iff.mp hmem).1.1
    rw [hfree] at htype
    exact T_DIR_ne_zero htype.symm
  have hin : ∀ a l, (a, l, ip) ∉ v.edges sb := h.links_of_free hfree
  have hinner : ∃ e, (dp, 1, e) ∈ v.edges sb := ⟨_, hb.up_mem_edges hdp⟩
  -- How many links there are now.
  have hlinks : ∀ j, u.links sb j = v.links sb j + (if ip = j then 1 else 0) +
      if type = T_DIR ∧ dp = j then 1 else 0 := by
    intro j
    unfold View.links
    rw [hedges]
    by_cases hd : type = T_DIR
    · rw [if_pos hd, indegree_insert, indegree_insert (hout 1 dp)]
      · simp only [hd, true_and]
        omega
      · rw [mem_insert, not_or, Prod.mk.injEq]
        exact ⟨fun hx => hne hx.1.symm, hslot ip⟩
    · rw [if_neg hd, indegree_insert (hslot ip)]
      simp only [hd, false_and, if_false, Nat.add_zero]
  have hfreeLinks : v.links sb ip = 0 := by
    by_contra hpos
    obtain ⟨a, l, hmem⟩ := indegree_pos_iff.mp (Nat.pos_of_ne_zero hpos)
    exact hin a l hmem
  -- Inodes without links are not involved.
  have hzero : ∀ j, (u.node j).nlink = 0 → j ≠ dp ∧ j ≠ ip := by
    intro j hj
    constructor
    · rintro rfl
      exact hdp'.nlink_ne hj
    · rintro rfl
      rw [huip] at hj
      exact absurd (show (1 : Short) = 0 from hj) (by decide)
  refine ⟨h.of_tree ?_ (fun j hj => ?_) (fun d k j hmem => ?_) fun j hj => ?_, hdp'⟩
  · rw [hedges]
    split
    next => exact h.tree.insert_inner hinner hslot hout hin
    next => exact h.tree.insert_leaf hinner hslot fun e => hout 1 e
  · rw [hlinks]
    by_cases hjip : j = ip
    · subst j
      have hup : ¬ (type = T_DIR ∧ dp = ip) := fun hx => hne hx.2.symm
      rw [huip, hfreeLinks, if_pos rfl, if_neg hup]
      rfl
    · rw [if_neg (Ne.symm hjip)]
      by_cases hjdp : j = dp
      · subst j
        have hexact := h.exact dp (hdir ▸ T_DIR_ne_zero)
        rw [hudp.2, hexact]
        simp only [and_true]
        split <;> simp
      · rw [if_neg fun hx => hjdp hx.2.symm, hother j hjdp hjip]
        rw [hother j hjdp hjip] at hj
        exact h.exact j hj
  · have hold : (v.node j).type ≠ 0 → (u.node j).type ≠ 0 := by
      intro hj
      by_cases hjdp : j = dp
      · rw [hjdp, hudp.1]
        exact T_DIR_ne_zero
      · by_cases hjip : j = ip
        · rw [hjip, huip]
          exact htype
        · rw [hother j hjdp hjip]
          exact hj
    rw [hedges, mem_insert, Prod.mk.injEq, Prod.mk.injEq] at hmem
    rcases hmem with ⟨-, -, rfl⟩ | hmem
    · rw [huip]
      exact htype
    · split at hmem
      next =>
        rw [mem_insert, Prod.mk.injEq, Prod.mk.injEq] at hmem
        rcases hmem with ⟨-, -, rfl⟩ | hmem
        · rw [hudp.1]
          exact T_DIR_ne_zero
        · exact hold (h.used d k j hmem)
      next => exact hold (h.used d k j hmem)
  · obtain ⟨hjdp, hjip⟩ := hzero j hj
    refine ⟨hother j hjdp hjip, ?_, ?_⟩
    · change (View.hold _ ip).ref j = _
      rw [View.ref_hold, if_neg hjip]
      rfl
    · change ((View.hold _ ip).lock ip).valid j = _
      rw [View.valid_lock, if_neg hjip, View.valid_hold, if_neg fun hx => hjip hx.1]
      rfl

theorem edges_unlinked (hb : Base sb L v) (hb' : Base sb L (v.unlinked dp ip k))
    (hdp : v.Linked dp) (hdp' : (v.unlinked dp ip k).Linked dp)
    (hip' : ¬ (v.unlinked dp ip k).Linked ip) (hne : dp ≠ ip)
    (hused : (entry (v.node dp).data k).inum ≠ 0) (hinum : v.inumAt dp k = ip)
    (hup : ∀ l e, (ip, l, e) ∈ v.edges sb → l = 1 ∧ e = dp) :
    (v.unlinked dp ip k).edges sb = ((v.edges sb).erase (dp, k, ip)).erase (ip, 1, dp) := by
  have hfit := (lt_slots_iff.mp (lt_slots_of_used hused)).le
  refine ext fun ⟨d, l, x⟩ => ?_
  simp only [mem_erase, ne_eq, Prod.mk.injEq]
  by_cases hd : d = ip
  · subst d
    refine iff_of_false (fun hx => hip' (hb'.mem_edges_iff.mp hx).1) ?_
    rintro ⟨hx, -, hmem⟩
    obtain ⟨hl, he⟩ := hup l x hmem
    exact hx ⟨rfl, hl, he⟩
  · rw [and_iff_right fun hx => hd hx.1]
    by_cases hddp : d = dp
    · subst d
      rw [hb'.mem_edges_iff, hb.mem_edges_iff, View.node_unlinked, if_neg hne, if_pos rfl,
        points_clear hfit]
      constructor
      · rintro ⟨-, hl, hlk, hx⟩
        exact ⟨fun heq => hlk heq.2.1, hdp, hl, hx⟩
      · rintro ⟨hneq, -, hl, hx⟩
        refine ⟨hdp', hl, fun hlk => hneq ⟨rfl, hlk, ?_⟩, hx⟩
        rw [hlk] at hx
        exact hx.2.symm.trans hinum
    · rw [and_iff_right fun hx => hddp hx.1]
      exact mem_edges_congr (View.unlinked_of_ne hddp hd)

namespace Exact

/-- Only a directory with links has entries that can be removed. -/
theorem linked_of_entry (h : Exact sb v) (hdir : (v.node dp).type = T_DIR)
    (hk : 2 ≤ k) (hused : (entry (v.node dp).data k).inum ≠ 0) :
    v.Linked dp :=
  h.linked_of_dir hdir fun hzero => hused (h.empty dp hdir hzero k hk)

/-- The number of links of a directory whose entry is removed. -/
theorem unlink_dir (h : Exact sb v) (hb : Base sb L v)
    (hmem : (dp, k, ip) ∈ v.edges sb) (hk : 2 ≤ k)
    (htype : (v.node ip).type = T_DIR) (hnlink : 1 ≤ (v.node ip).nlink.toInt)
    (hempty : EmptyDir (v.node ip).data) :
    (ip, 1, dp) ∈ v.edges sb ∧ (∀ l e, (ip, l, e) ∈ v.edges sb → l = 1) ∧
      (v.node ip).nlink.toInt = 1 := by
  have hlinked : v.Linked ip := ⟨htype, by omega⟩
  have hup := hb.up_mem_edges hlinked
  have honly : ∀ l e, (ip, l, e) ∈ v.edges sb → l = 1 := by
    intro l e hx
    obtain ⟨-, hl, hx⟩ := hb.mem_edges_iff.mp hx
    by_contra hne
    exact hx.1 (hempty l (by omega))
  have heq := h.tree.up_eq hmem (by omega) hup
  rw [heq] at hup
  refine ⟨hup, honly, ?_⟩
  rw [h.exact ip (htype ▸ T_DIR_ne_zero), View.links,
    h.tree.indegree_of_empty hmem (by omega) ⟨dp, hup⟩ honly]
  rfl

/-- The edges without the removed entry, and without that of the directory it
was for, are those of a tree. -/
theorem tree_erase (h : Exact sb v) (hb : Base sb L v)
    (hmem : (dp, k, ip) ∈ v.edges sb) (hk : 2 ≤ k)
    (hnlink : 1 ≤ (v.node ip).nlink.toInt)
    (hempty : (v.node ip).type = T_DIR → EmptyDir (v.node ip).data) :
    Tree 1 ROOTINO (((v.edges sb).erase (dp, k, ip)).erase (ip, 1, dp)) ∧
      ∀ j, indegree (((v.edges sb).erase (dp, k, ip)).erase (ip, 1, dp)) j +
        (if (v.node ip).type = T_DIR ∧ dp = j then 1 else 0) +
        (if ip = j then 1 else 0) = v.links sb j := by
  by_cases htype : (v.node ip).type = T_DIR
  · obtain ⟨hup, honly, -⟩ := h.unlink_dir hb hmem hk htype hnlink (hempty htype)
    refine ⟨h.tree.erase_inner hmem (by omega) hup honly, fun j => ?_⟩
    have hmem' : (ip, 1, dp) ∈ (v.edges sb).erase (dp, k, ip) := by
      refine mem_erase.mpr ⟨fun heq => ?_, hup⟩
      have := (Prod.mk.inj (Prod.mk.inj heq).2).1
      omega
    simp only [htype, true_and]
    rw [indegree_erase hmem', indegree_erase hmem]
    rfl
  · have hleaf : ∀ e, (ip, 1, e) ∉ v.edges sb := fun e hx => htype (hb.mem_edges_iff.mp hx).1.1
    have herase : ((v.edges sb).erase (dp, k, ip)).erase (ip, 1, dp) =
        (v.edges sb).erase (dp, k, ip) :=
      erase_eq_of_notMem fun hx => hleaf dp (mem_of_mem_erase hx)
    rw [herase]
    refine ⟨h.tree.erase_leaf (by omega) hleaf, fun j => ?_⟩
    simp only [htype, false_and, if_false, Nat.add_zero]
    exact indegree_erase hmem j

theorem unlinked (h : Exact sb v) (hb : Base sb L v)
    (hb' : Base sb L (v.unlinked dp ip k)) (hheld : ip ∈ L)
    (hdir : (v.node dp).type = T_DIR) (hk : 2 ≤ k)
    (hused : (entry (v.node dp).data k).inum ≠ 0) (hinum : v.inumAt dp k = ip)
    (hvalid : v.valid ip = true) (hnlink : 1 ≤ (v.node ip).nlink.toInt)
    (hempty : (v.node ip).type = T_DIR → EmptyDir (v.node ip).data) :
    Exact sb (v.unlinked dp ip k) ∧ (v.unlinked dp ip k).Linked dp ∧
      ((v.node ip).type = T_DIR → v.inumAt ip 1 = dp) := by
  have hdp := h.linked_of_entry hdir hk hused
  have hne : dp ≠ ip := ne_of_unlink hdir hk hused hempty
  have hmem : (dp, k, ip) ∈ v.edges sb := hb.mem_edges_iff.mpr ⟨hdp, by omega, hused, hinum⟩
  obtain ⟨htree, hlinks⟩ := h.tree_erase hb hmem hk hnlink hempty
  set E := ((v.edges sb).erase (dp, k, ip)).erase (ip, 1, dp)
  set u := v.unlinked dp ip k
  have huip : u.node ip = { v.node ip with nlink := (v.node ip).nlink - 1 } := by
    rw [View.node_unlinked, if_pos rfl]
  have hudp : (u.node dp).type = T_DIR ∧ (u.node dp).nlink =
      if (v.node ip).type = T_DIR then (v.node dp).nlink - 1
      else (v.node dp).nlink := by
    rw [View.node_unlinked, if_neg hne, if_pos rfl]
    exact ⟨hdir, rfl⟩
  have hother : ∀ j, j ≠ ip → j ≠ dp → u.node j = v.node j := fun _ hi hd =>
    View.unlinked_of_ne hd hi
  have hutype : ∀ j, (u.node j).type = (v.node j).type := by
    intro j
    by_cases hji : j = ip
    · rw [hji, huip]
    · by_cases hjd : j = dp
      · rw [hjd, hudp.1, hdir]
      · rw [hother j hji hjd]
  -- Every link count is right for the smaller tree.
  have hexact : ∀ j, (v.node j).type ≠ 0 → (u.node j).nlink.toInt = indegree E j := by
    intro j hj
    have hlinksj := hlinks j
    have hold := h.exact j hj
    by_cases hji : j = ip
    · subst j
      rw [if_neg fun hx => hne hx.2, if_pos rfl] at hlinksj
      rw [huip, toInt_sub_one hnlink, hold]
      omega
    · rw [if_neg (Ne.symm hji)] at hlinksj
      by_cases hjd : j = dp
      · subst j
        rw [hudp.2]
        by_cases hd : (v.node ip).type = T_DIR
        · rw [if_pos ⟨hd, rfl⟩] at hlinksj
          rw [if_pos hd, toInt_sub_one (by omega)]
          omega
        · rw [if_neg fun hx => hd hx.1] at hlinksj
          rw [if_neg hd]
          omega
      · rw [if_neg fun hx => hjd hx.2.symm] at hlinksj
        rw [hother j hji hjd]
        omega
  have hdp' : u.Linked dp := by
    refine ⟨hudp.1, ?_⟩
    rw [hexact dp (hdir ▸ T_DIR_ne_zero), Int.natCast_pos, indegree_pos_iff]
    by_cases hroot : dp = ROOTINO
    · exact ⟨_, _, hroot ▸ htree.root_up⟩
    · have hup : (dp, 1, v.inumAt dp 1) ∈ E := by
        simp only [E, mem_erase, ne_eq, Prod.mk.injEq]
        exact ⟨fun hx => hne hx.1, fun hx => by omega, hb.up_mem_edges hdp⟩
      obtain ⟨l, -, hl⟩ := htree.parent dp _ hup hroot
      exact ⟨_, l, hl⟩
  have hip' : ¬ u.Linked ip := by
    rintro ⟨hd, hpos⟩
    rw [hutype] at hd
    have hone := (h.unlink_dir hb hmem hk hd hnlink (hempty hd)).2.2
    rw [huip, toInt_sub_one hnlink] at hpos
    omega
  have hup : ∀ l e, (ip, l, e) ∈ v.edges sb → l = 1 ∧ e = dp := by
    intro l e hx
    have hd := (hb.mem_edges_iff.mp hx).1.1
    obtain ⟨hmemup, honly, -⟩ := h.unlink_dir hb hmem hk hd hnlink (hempty hd)
    obtain rfl := honly l e hx
    exact ⟨rfl, h.tree.functional ip 1 e dp hx hmemup⟩
  have hedges : u.edges sb = E := edges_unlinked hb hb' hdp hdp' hip' hne hused hinum hup
  -- What has no links now is the inode that lost a name, or had none before.
  have hzero : ∀ j, (u.node j).nlink = 0 → j ≠ ip → j ≠ dp := by
    rintro j hj - rfl
    exact hdp'.nlink_ne hj
  refine ⟨⟨by rw [hedges]; exact htree, fun j hj => ?_, fun d l j hx => ?_,
    fun d hd hj => ?_, fun j hj hjz => ?_, fun j hj hjz => ?_⟩, hdp', fun hd => ?_⟩
  · rw [hutype] at hj
    rw [View.links, hedges]
    exact hexact j hj
  · rw [hedges] at hx
    rw [hutype]
    exact h.used d l j (mem_of_mem_erase (mem_of_mem_erase hx))
  · rw [hutype] at hd
    by_cases hdi : d = ip
    · rw [hdi, huip]
      rw [hdi] at hd
      exact hempty hd
    · have hdd := hzero d hj hdi
      rw [hother d hdi hdd] at hj ⊢
      exact h.empty d hd hj
  · by_cases hji : j = ip
    · rw [hji, hb'.refs]
      have := List.count_pos_iff.mpr hheld
      omega
    · have hjd := hzero j hjz hji
      rw [hother j hji hjd] at hj hjz
      exact h.kept j hj hjz
  · by_cases hji : j = ip
    · rw [hji]
      exact hvalid
    · have hjd := hzero j hjz hji
      rw [hother j hji hjd] at hj hjz
      exact h.live j hj hjz
  · exact (hup 1 _ (hb.up_mem_edges ⟨hd, by omega⟩)).2

end Exact

/-! ## Every move -/

/-- No entry is made in a directory without links, and no link count overflows. -/
structure Careful (P : Policy) : Prop where
  entry : ∀ v dp, P.entry v dp → (v.node dp).nlink ≠ 0
  link : ∀ v i, P.link v i → (v.node i).nlink ≠ 32767

theorem Exact.move (hsb : sb.ninodes ≤ 2 ^ 16) (hP : Careful P) (hb : Base sb m.1 m.2)
    (h : Exact sb m.2) (hm : Move sb P m m') : Exact sb m'.2 := by
  have hb' := hb.move hsb hm
  cases hm with
  | perm => exact h
  | look hl => exact h.look hl
  | @lock L v i =>
    refine h.of_same rfl (fun _ hi => hi) fun j _ hv => ?_
    dsimp only
    rw [View.valid_lock, hv, ite_self]
  | release hv => exact h.release hv
  | @create L v dp ip name type major minor hheld hdir hnew hpos hlt hfree htype hentry hlink =>
    exact (h.created hb hb' hdir (ofNat_inum hsb hpos hlt)
      (hb.inum_of_dir hsb hdir) hfree htype (hP.entry v dp hentry)
      fun hd => hP.link v dp (hlink hd)).1
  | @link L v dp ip name hdp hip hdir hnew hpos hlt hused hfile hentry hlink =>
    exact h.linked hb hb' hdir (ofNat_inum hsb hpos hlt) hused hfile
      (hP.entry v dp hentry) (hP.link v ip hlink)
  | unlink hdp hip hdir hk hused hinum hvalid htype hnlink hempty =>
    exact (h.unlinked hb hb' hip hdir hk hused hinum hvalid hnlink hempty).1
  | file | opened | close | fds | chdir | exit =>
    exact h.of_same rfl (fun _ hi => hi) fun _ _ hv => hv
  | data data _ hfile => exact h.setData hfile

theorem Exact.moves (hsb : sb.ninodes ≤ 2 ^ 16) (hP : Careful P) (hb : Base sb m.1 m.2)
    (h : Exact sb m.2) (hm : Moves sb P m m') : Exact sb m'.2 := by
  induction hm with
  | refl => exact h
  | tail hmoves hmove ih => exact ih.move hsb hP (hb.moves hsb hmoves) hmove

/-! ## The small tree -/

theorem edges_smallTree : (smallTree.view smallSuperblock).edges smallSuperblock =
    {(1, 1, 1), (1, 2, 17), (17, 1, 1), (17, 2, 33), (33, 1, 17)} := by
  decide +kernel

theorem nlink_smallTree (h : ((smallTree.view smallSuperblock).node i).type ≠ 0) :
    (((smallTree.view smallSuperblock).node i).nlink.toInt =
      (smallTree.view smallSuperblock).links smallSuperblock i) ∧
      ((smallTree.view smallSuperblock).node i).nlink ≠ 0 := by
  rw [View.links, edges_smallTree]
  rcases smallTree_cases h with rfl | rfl | rfl <;> decide +kernel

theorem smallTree_exact : Exact smallSuperblock (smallTree.view smallSuperblock) := by
  refine ⟨?_, fun i hi => (nlink_smallTree hi).1, fun d k i hmem => ?_, fun d hd hzero => ?_,
    fun i hi hzero => absurd hzero (nlink_smallTree hi).2,
    fun i hi hzero => absurd hzero (nlink_smallTree hi).2⟩
  · rw [edges_smallTree]
    exact .of_edges id (by decide) (by decide) (by decide) (by decide) (by decide) (by decide)
  · rw [edges_smallTree] at hmem
    have htarget : i = 1 ∨ i = 17 ∨ i = 33 := by
      revert hmem
      simp only [mem_insert, mem_singleton, Prod.mk.injEq]
      omega
    rcases htarget with rfl | rfl | rfl <;> decide +kernel
  · exact absurd hzero (nlink_smallTree (hd ▸ T_DIR_ne_zero)).2

end OsCa.Sysfile
