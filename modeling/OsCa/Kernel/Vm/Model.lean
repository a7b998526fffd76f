import OsCa.Support.Action
import OsCa.Kernel.Fs.Model

/-!
# Page tables and user memory

This module embeds `kernel/kalloc.c`, the functions of `kernel/vm.c` on user page tables,
and `growproc` of `kernel/proc.c`.

Physical memory is a function from the addresses of pages to their bytes; a `pagetable_t`
is such an address, and a `pte_t *` is a table with an index.  Virtual addresses are
numbers below `2 ^ 64`.  The free list is the list of the addresses on it.  Other processes
may have taken all free pages when `kalloc` is called: `dry` says so for each of the next
calls.
-/

namespace OsCa.Vm

open Bytes OsCa.Action
open Fs (PGSIZE)

/-! ## Addresses and entries -/

abbrev Addr := BitVec 64

abbrev Pte := BitVec 64

abbrev Page := Buffer PGSIZE

def PGSHIFT : ℕ := 12

/-- One beyond the highest possible virtual address. -/
def MAXVA : ℕ := 2 ^ 38

def KERNBASE : ℕ := 0x80000000

def PHYSTOP : ℕ := KERNBASE + 128 * 1024 * 1024

def TRAMPOLINE : ℕ := MAXVA - PGSIZE

def TRAPFRAME : ℕ := TRAMPOLINE - PGSIZE

def PGROUNDUP (sz : ℕ) : ℕ := (sz + PGSIZE - 1) % 2 ^ 64 / PGSIZE * PGSIZE

def PGROUNDDOWN (a : ℕ) : ℕ := a / PGSIZE * PGSIZE

def PTE_V : Pte := 1

def PTE_R : Pte := 2

def PTE_W : Pte := 4

def PTE_X : Pte := 8

def PTE_U : Pte := 16

def PA2PTE (pa : Addr) : Pte := pa >>> 12 <<< 10

def PTE2PA (pte : Pte) : Addr := pte >>> 10 <<< 12

def PTE_FLAGS (pte : Pte) : Pte := pte &&& 0x3FF

/-- The page table index for one level. -/
def PX (level va : ℕ) : ℕ := va >>> (PGSHIFT + 9 * level) &&& 0x1FF

/-! ## The machine -/

inductive Panic where
  | kfree
  | walk
  | remap
  | uvmunmapNotAligned
  | uvmunmapWalk
  | uvmunmapNotMapped
  | uvmunmapNotLeaf
  | uvmcopyPte
  | uvmcopyPresent
  deriving DecidableEq

structure Machine where
  mem : Addr → Page
  freelist : List Addr
  dry : List Bool

namespace Machine

/-- `table[i]` -/
def pte (s : Machine) (table : Addr) (i : ℕ) : Pte := word (s.mem table) (8 * i) 8

/-- Replace the bytes of a page. -/
def setPage (s : Machine) (pa : Addr) (page : Page) : Machine :=
  { s with mem := Function.update s.mem pa page }

/-- `table[i] = v` -/
def setPte (s : Machine) (table : Addr) (i : ℕ) (v : Pte) : Machine :=
  s.setPage table (setWord (s.mem table) (8 * i) 8 v)

/-- `memset(pa, c, PGSIZE)` -/
def memset (s : Machine) (pa : Addr) (c : Byte) : Machine := s.setPage pa fun _ => c

/-- Store the bytes `f 0, ..., f (len - 1)` at offset `off` of a page. -/
def store (s : Machine) (pa : Addr) (off len : ℕ) (f : ℕ → Byte) : Machine :=
  s.setPage pa (blit (s.mem pa) off len f)

/-- `r->next = kmem.freelist; kmem.freelist = r` -/
def push (s : Machine) (r : Addr) : Machine :=
  { s.setPte r 0 (s.freelist.headD 0) with freelist := r :: s.freelist }

end Machine

abbrev M := Action Panic Machine

/-- `kalloc`; `none` is the null pointer. -/
def kalloc : M (Option Addr) := do
  let s ← read
  update fun s => { s with dry := s.dry.tail }
  match s.freelist with
  | [] => return none
  | r :: rest =>
    if s.dry.headD false then
      return none
    else do
      update fun s => { s with freelist := rest }
      update fun s => s.memset r 5
      return some r

/-- `kfree`, where `kend` is the address `end`. -/
def kfree (kend : ℕ) (pa : Addr) : M Unit :=
  if pa.toNat % PGSIZE ≠ 0 ∨ pa.toNat < kend ∨ PHYSTOP ≤ pa.toNat then
    fail .kfree
  else do
    update fun s => s.memset pa 1
    update fun s => s.push pa

/-! ## Page tables -/

/-- The loop of `walk` from `level` on. -/
def walkLoop (va : ℕ) (alloc : Bool) : ℕ → Addr → M (Option (Addr × ℕ))
  | 0, pagetable => return some (pagetable, PX 0 va)
  | level + 1, pagetable => do
      let s ← read
      let pte := s.pte pagetable (PX (level + 1) va)
      if pte &&& PTE_V ≠ 0 then
        walkLoop va alloc level (PTE2PA pte)
      else if alloc = false then
        return none
      else
        match ← kalloc with
        | none => return none
        | some page => do
            update fun s => s.memset page 0
            update fun s => s.setPte pagetable (PX (level + 1) va) (PA2PTE page ||| PTE_V)
            walkLoop va alloc level page

def walk (pagetable : Addr) (va : ℕ) (alloc : Bool) : M (Option (Addr × ℕ)) :=
  if va ≥ MAXVA then fail .walk else walkLoop va alloc 2 pagetable

/-- `walkaddr`, which returns 0 if the page is not mapped. -/
def walkaddr (pagetable : Addr) (va : ℕ) : M Addr := if va ≥ MAXVA then
    return 0
  else do
    match ← walk pagetable va false with
    | none => return 0
    | some (table, i) => do
        let s ← read
        if s.pte table i &&& PTE_V = 0 then
          return 0
        else if s.pte table i &&& PTE_U = 0 then
          return 0
        else
          return PTE2PA (s.pte table i)

/-- The loop of `mappages`.  After `MAXVA / PGSIZE` rounds `a` is at least `MAXVA`, so that
`walk` panics. -/
def mappagesLoop (pagetable : Addr) (last : ℕ) (perm : Pte) : ℕ → ℕ → Addr → M ℤ
  | 0, _, _ => fail .walk
  | fuel + 1, a, pa => do
      match ← walk pagetable a true with
      | none => return -1
      | some (table, i) => do
          let s ← read
          if s.pte table i &&& PTE_V ≠ 0 then
            fail .remap
          else do
            update fun s => s.setPte table i (PA2PTE pa ||| perm ||| PTE_V)
            if a = last then
              return 0
            else
              mappagesLoop pagetable last perm fuel (a + PGSIZE) (pa + BitVec.ofNat 64 PGSIZE)

def mappages (pagetable : Addr) (va size : ℕ) (pa : Addr) (perm : Pte) : M ℤ :=
  mappagesLoop pagetable (PGROUNDDOWN ((va + size + 2 ^ 64 - 1) % 2 ^ 64)) perm
    (MAXVA / PGSIZE + 1) (PGROUNDDOWN va) pa

/-- The rounds of a loop `for(; a < b; a += PGSIZE)`. -/
def rounds (a b : ℕ) : ℕ := (b - a + PGSIZE - 1) / PGSIZE

section Kernel

variable (kend : ℕ)

/-- The body of the loop of `uvmunmap`. -/
def unmapPage (pagetable : Addr) (doFree : Bool) (a : ℕ) : M Unit := do
  match ← walk pagetable a false with
  | none => fail .uvmunmapWalk
  | some (table, i) => do
      let s ← read
      if s.pte table i &&& PTE_V = 0 then
        fail .uvmunmapNotMapped
      else if PTE_FLAGS (s.pte table i) = PTE_V then
        fail .uvmunmapNotLeaf
      else do
        (if doFree then kfree kend (PTE2PA (s.pte table i)) else pure ())
        update fun s => s.setPte table i 0

def uvmunmapLoop (pagetable : Addr) (doFree : Bool) : ℕ → ℕ → M Unit
  | 0, _ => return ()
  | n + 1, a => do
      unmapPage kend pagetable doFree a
      uvmunmapLoop pagetable doFree n (a + PGSIZE)

def uvmunmap (pagetable : Addr) (va npages : ℕ) (doFree : Bool) : M Unit := if va % PGSIZE ≠ 0 then
    fail .uvmunmapNotAligned
  else
    uvmunmapLoop kend pagetable doFree (rounds va ((va + npages * PGSIZE) % 2 ^ 64)) va

/-- A number stored in an `int` and passed as a `uint64`. -/
def throughInt (n : ℕ) : ℕ := ((BitVec.ofNat 32 n).signExtend 64).toNat

def uvmdealloc (pagetable : Addr) (oldsz newsz : ℕ) : M ℕ := if newsz ≥ oldsz then
    return oldsz
  else if PGROUNDUP newsz < PGROUNDUP oldsz then do
    uvmunmap kend pagetable (PGROUNDUP newsz)
      (throughInt ((PGROUNDUP oldsz - PGROUNDUP newsz) / PGSIZE)) true
    return newsz
  else
    return newsz

def uvmallocLoop (pagetable : Addr) (oldsz newsz : ℕ) : ℕ → ℕ → M ℕ
  | 0, _ => return newsz
  | n + 1, a => do
      match ← kalloc with
      | none => do
          let _ ← uvmdealloc kend pagetable a oldsz
          return 0
      | some mem => do
          update fun s => s.memset mem 0
          let r ← mappages pagetable a PGSIZE mem (PTE_W ||| PTE_X ||| PTE_R ||| PTE_U)
          if r ≠ 0 then do
            kfree kend mem
            let _ ← uvmdealloc kend pagetable a oldsz
            return 0
          else
            uvmallocLoop pagetable oldsz newsz n (a + PGSIZE)

/-- `uvmalloc`, which returns the new size, or 0 on error. -/
def uvmalloc (pagetable : Addr) (oldsz newsz : ℕ) : M ℕ := if newsz < oldsz then
    return oldsz
  else
    uvmallocLoop kend pagetable (PGROUNDUP oldsz) newsz
      (rounds (PGROUNDUP oldsz) newsz) (PGROUNDUP oldsz)

/-- The label `err` of `uvmcopy`. -/
def uvmcopyErr (new : Addr) (i : ℕ) : M ℤ := do
  uvmunmap kend new 0 (i / PGSIZE) true
  return -1

def uvmcopyLoop (old new : Addr) : ℕ → ℕ → M ℤ
  | 0, _ => return 0
  | n + 1, i => do
      match ← walk old i false with
      | none => fail .uvmcopyPte
      | some (table, index) => do
          let s ← read
          let pte := s.pte table index
          if pte &&& PTE_V = 0 then
            fail .uvmcopyPresent
          else
            match ← kalloc with
            | none => uvmcopyErr kend new i
            | some mem => do
                update fun s => s.setPage mem (s.mem (PTE2PA pte))
                let r ← mappages new i PGSIZE mem (PTE_FLAGS pte)
                if r ≠ 0 then do
                  kfree kend mem
                  uvmcopyErr kend new i
                else
                  uvmcopyLoop old new n (i + PGSIZE)

def uvmcopy (old new : Addr) (sz : ℕ) : M ℤ := uvmcopyLoop kend old new (rounds 0 sz) 0

/-- `growproc` for a process with `p->pagetable` and `p->sz`.  The result is the return
value and the new `p->sz`. -/
def growproc (pagetable : Addr) (psz : ℕ) (n : BitVec 32) : M (ℤ × ℕ) := do
  -- `uint sz`
  let sz := psz % 2 ^ 32
  if n.toInt > 0 then do
    let sz := (← uvmalloc kend pagetable sz ((sz + n.toNat) % 2 ^ 32)) % 2 ^ 32
    if sz = 0 then return (-1, psz) else return (0, sz)
  else if n.toInt < 0 then do
    let sz := (← uvmdealloc kend pagetable sz ((sz + n.toNat) % 2 ^ 32)) % 2 ^ 32
    return (0, sz)
  else
    return (0, sz)

end Kernel

/-! ## Copies between user memory and the kernel

Every round of a loop handles at least one byte, so `len` rounds are enough.
-/

def copyoutLoop (pagetable : Addr) : ℕ → ℕ → (ℕ → Byte) → ℕ → M ℤ
  | 0, _, _, _ => return 0
  | fuel + 1, dstva, src, len =>
    if len > 0 then do
      let va0 := PGROUNDDOWN dstva
      let pa0 ← walkaddr pagetable va0
      if pa0 = 0 then
        return -1
      else do
        let n := min (PGSIZE - (dstva - va0)) len
        update fun s => s.store pa0 (dstva - va0) n src
        copyoutLoop pagetable fuel ((va0 + PGSIZE) % 2 ^ 64) (fun i => src (n + i)) (len - n)
    else
      return 0

/-- `copyout` of the bytes `src 0, ..., src (len - 1)`. -/
def copyout (pagetable : Addr) (dstva : ℕ) (src : ℕ → Byte) (len : ℕ) : M ℤ :=
  copyoutLoop pagetable len dstva src len

/-- Overwrite the bytes of a kernel buffer from `pos` on. -/
def fill (dst : ℕ → Byte) (pos len : ℕ) (f : ℕ → Byte) : ℕ → Byte := fun j =>
  if pos ≤ j ∧ j < pos + len then f (j - pos) else dst j

def copyinLoop (pagetable : Addr) : ℕ → (ℕ → Byte) → ℕ → ℕ → ℕ → M (ℤ × (ℕ → Byte))
  | 0, dst, _, _, _ => return (0, dst)
  | fuel + 1, dst, pos, srcva, len =>
    if len > 0 then do
      let va0 := PGROUNDDOWN srcva
      let pa0 ← walkaddr pagetable va0
      if pa0 = 0 then
        return (-1, dst)
      else do
        let n := min (PGSIZE - (srcva - va0)) len
        let s ← read
        copyinLoop pagetable fuel
          (fill dst pos n fun i => peek (s.mem pa0) (srcva - va0 + i)) (pos + n)
          ((va0 + PGSIZE) % 2 ^ 64) (len - n)
    else
      return (0, dst)

/-- `copyin`; the result has the bytes of the kernel buffer `dst` afterwards. -/
def copyin (pagetable : Addr) (dst : ℕ → Byte) (srcva len : ℕ) : M (ℤ × (ℕ → Byte)) :=
  copyinLoop pagetable len dst 0 srcva len

/-- The inner loop of `copyinstr` over `n` bytes from offset `p` of a page.  The result says
whether it has met a `NUL`. -/
def scanPage (page : Page) : ℕ → ℕ → (ℕ → Byte) → ℕ → Bool × (ℕ → Byte)
  | 0, _, dst, _ => (false, dst)
  | n + 1, p, dst, pos =>
    if peek page p = 0 then (true, Function.update dst pos 0)
    else scanPage page n (p + 1) (Function.update dst pos (peek page p)) (pos + 1)

def copyinstrLoop (pagetable : Addr) : ℕ → (ℕ → Byte) → ℕ → ℕ → ℕ → M (ℤ × (ℕ → Byte))
  | 0, dst, _, _, _ => return (-1, dst)
  | fuel + 1, dst, pos, srcva, max =>
    if max > 0 then do
      let va0 := PGROUNDDOWN srcva
      let pa0 ← walkaddr pagetable va0
      if pa0 = 0 then
        return (-1, dst)
      else do
        let n := min (PGSIZE - (srcva - va0)) max
        let s ← read
        match scanPage (s.mem pa0) n (srcva - va0) dst pos with
        | (true, dst) => return (0, dst)
        | (false, dst) =>
          copyinstrLoop pagetable fuel dst (pos + n) ((va0 + PGSIZE) % 2 ^ 64) (max - n)
    else
      return (-1, dst)

def copyinstr (pagetable : Addr) (dst : ℕ → Byte) (srcva max : ℕ) :
    M (ℤ × (ℕ → Byte)) :=
  copyinstrLoop pagetable max dst 0 srcva max

end OsCa.Vm
