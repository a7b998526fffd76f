import OsCa.User.Malloc.Safety

/-!
# What `malloc` asks `sbrk` for

`morecore` multiplies a `uint` by `sizeof(Header)`, which is an `unsigned long`, and passes
the product as an `int`; the stub of the system call and `argint` leave the 32 bits as they
are.  This module records the arguments of all calls of `sbrk` in a call of `malloc`.
-/

namespace OsCa.Malloc

/-- The argument of `sbrk` in `morecore`. -/
def sbrkArgument (nu : ℕ) : BitVec 32 := BitVec.ofNat 32 (moreUnits nu * unit)

/-- The arguments of `sbrk` in the loop of `malloc`. -/
def searchRequests (nunits : ℕ) : ℕ → List (Option ℕ) → Heap → ℕ → List (BitVec 32)
  | 0, _, _, _ => []
  | fuel + 1, sbrk, h, p =>
    if nunits ≤ (h.mem p).size then []
    else if p = h.freep then
      match sbrk with
      | [] => [sbrkArgument nunits]
      | answer :: sbrk =>
        match morecore fuel nunits answer h with
        | some (h, some p) => sbrkArgument nunits :: searchRequests nunits fuel sbrk h (h.mem p).ptr
        | _ => [sbrkArgument nunits]
    else searchRequests nunits fuel sbrk h (h.mem p).ptr

/-- The arguments of `sbrk` in `malloc`. -/
def mallocRequests (base fuel : ℕ) (sbrk : List (Option ℕ)) (h : Heap) (nbytes : BitVec 32) :
    List (BitVec 32) :=
  let h := start base h
  searchRequests (unitsFor nbytes) fuel sbrk h (h.mem h.freep).ptr

theorem eq_of_mem_searchRequests {nunits fuel p : ℕ} {sbrk : List (Option ℕ)} {h : Heap}
    {r : BitVec 32} (hr : r ∈ searchRequests nunits fuel sbrk h p) :
    r = sbrkArgument nunits := by
  fun_induction searchRequests nunits fuel sbrk h p with
  | case1 | case2 => cases hr
  | case3 => exact List.mem_singleton.mp hr
  | case4 fuel h answer sbrk h' p' hmore hsize ih =>
    rcases List.mem_cons.mp hr with rfl | hr
    · rfl
    · exact ih hr
  | case5 => simpa using hr
  | case6 fuel sbrk h p hsize hp ih => exact ih hr

/-- A search that returns has used one answer for each of its requests. -/
theorem search_answers {nunits fuel prevp p : ℕ} {sbrk : List (Option ℕ)} {h : Heap}
    {r : Heap × Option ℕ} (hs : search nunits fuel sbrk h prevp p = some r) :
    ∃ used rest, sbrk = used ++ rest ∧ used.length = (searchRequests nunits fuel sbrk h p).length ∧
      ∀ rest', search nunits fuel (used ++ rest') h prevp p = some r := by
  fun_induction searchRequests nunits fuel sbrk h p generalizing prevp with
  | case1 => cases hs
  | case2 fuel sbrk h p hsize => exact ⟨[], sbrk, rfl, rfl, by simpa [search, hsize] using hs⟩
  | case3 fuel h hsize => simp [search, hsize] at hs
  | case4 fuel h answer sbrk h' p' hmore hsize ih =>
    obtain ⟨used, rest, rfl, hlen, hused⟩ := ih (by simpa [search, hsize, hmore] using hs)
    exact ⟨answer :: used, rest, rfl, congrArg (· + 1) hlen,
      by simpa [search, hsize, hmore] using hused⟩
  | case5 fuel h answer sbrk hmore hsize =>
    refine ⟨[answer], sbrk, rfl, rfl, ?_⟩
    rcases hm : morecore fuel nunits answer h with _ | ⟨h', _ | p'⟩
    · simp [search, hsize, hm] at hs
    · simpa [search, hsize, hm] using hs
    · exact (hmore h' p' hm).elim
  | case6 fuel sbrk h p hsize hp ih =>
    obtain ⟨used, rest, rfl, hlen, hused⟩ := ih (by simpa [search, hsize, hp] using hs)
    exact ⟨used, rest, rfl, hlen, by simpa [search, hsize, hp] using hused⟩

/-- The argument is the size of the block, unless it does not fit into an `int`. -/
theorem sbrkArgument_toInt_iff {nu : ℕ} (hnu : nu < 2 ^ 32) :
    (sbrkArgument nu).toInt = (unit * moreUnits nu : ℕ) ↔ unit * moreUnits nu < 2 ^ 31 := by
  have hmore : moreUnits nu < 2 ^ 32 := by
    unfold moreUnits
    split <;> omega
  have hint := BitVec.toInt_eq_toNat_cond (sbrkArgument nu)
  rw [hint, sbrkArgument, BitVec.toNat_ofNat, unit]
  split <;> omega

/-- The units of a block have room for the header and the bytes asked for.  Whatever the
state of the allocator, the `int` of every call of `sbrk` is the size of the block that
`morecore` records, exactly if at most `2 ^ 31 - 32` bytes are asked for. -/
theorem malloc_requests_iff (nbytes : BitVec 32) : nbytes.toNat + unit ≤ unit * unitsFor nbytes ∧
    ∀ base fuel sbrk h, ∀ r ∈ mallocRequests base fuel sbrk h nbytes,
      (r.toInt = (unit * moreUnits (unitsFor nbytes) : ℕ) ∧ 0 < r.toInt ↔
        nbytes.toNat ≤ 2 ^ 31 - 32) := by
  have hunits := unitsFor_eq nbytes
  have hlt := nbytes.isLt
  have hbound : unit * moreUnits (unitsFor nbytes) < 2 ^ 31 ↔ nbytes.toNat ≤ 2 ^ 31 - 32 := by
    rw [unit, moreUnits]
    split <;> omega
  refine ⟨by rw [unit]; omega, fun base fuel sbrk h r hr => ?_⟩
  rw [eq_of_mem_searchRequests hr, ← hbound, ← sbrkArgument_toInt_iff (by omega)]
  refine and_iff_left_of_imp fun hint => ?_
  have hpos := (Ok.moreUnits_ge (unitsFor nbytes)).2
  rw [hint, unit]
  omega

/-- For the largest request `sbrk` is asked for 16 bytes, and the block that `malloc`
returns is recorded with more than `2 ^ 32`. -/
theorem malloc_largest_request : mallocRequests 4096 10 [some 8192] boot.heap (-1) = [16] ∧
      ∃ h q, malloc 4096 10 [some 8192] boot.heap (-1) = some (h, some q) ∧
        2 ^ 32 < unit * (h.mem q).size := by
  refine ⟨by decide +kernel, ?_⟩
  have hrun : (malloc 4096 10 [some 8192] boot.heap (-1)).any (fun r => r.2.any fun q =>
      decide (2 ^ 32 < unit * (r.1.mem q).size)) = true := by
    decide +kernel
  obtain ⟨⟨h, o⟩, hr, ho⟩ := (Option.any_eq_true ..).mp hrun
  obtain ⟨q, rfl, hq⟩ := (Option.any_eq_true ..).mp ho
  exact ⟨h, q, hr, of_decide_eq_true hq⟩

end OsCa.Malloc
