import Xv6.Vm.Phys

/-!
# Vm/Table — the page tables of `kernel/vm.c`

A page table is the page number of its root.  Loops over virtual addresses count their iterations;
`uint64` arithmetic that can wrap does so.
-/

namespace Xv6

open Machinery Function

variable (im : Image)

/-! ## Walking and mapping -/

/-- The loop of `walk` from `level` down, at the page-table page `n`. -/
def walkFrom (va : ℕ) (alloc : Bool) : ℕ → ℕ → Exec KPanic Phys (Option (ℕ × ℕ))
  | 0, n => return some (n, px 0 va)
  | level + 1, n => do
    let e ← getPte n (px (level + 1) va)
    if e % 2 = 1 then walkFrom va alloc level (pte2page e)
    else if alloc then
      match ← kalloc with
      | none => return none
      | some c =>
        memsetPage c 0
        setPte n (px (level + 1) va) (mkPte c 0)
        walkFrom va alloc level c
    else return none

/-- `walk`: the page-table page and the index of the PTE of `va`. -/
def walk (root va : ℕ) (alloc : Bool) : Exec KPanic Phys (Option (ℕ × ℕ)) := do
  if MAXVA ≤ va then throw .walk
  walkFrom va alloc 2 root

/-- `walkaddr`: the user page at `va`; page 0 stands for failure. -/
def walkaddr (root va : ℕ) : Exec KPanic Phys (Option ℕ) := do
  if MAXVA ≤ va then return none
  match ← walk root va false with
  | none => return none
  | some (n, j) =>
    let e ← getPte n j
    if e % 2 = 1 ∧ e / 16 % 2 = 1 ∧ pte2page e ≠ 0 then return some (pte2page e) else return none

/-- The loop of `mappages`. -/
def mapLoop (root perm : ℕ) : ℕ → ℕ → ℕ → Exec KPanic Phys Bool
  | 0, _, _ => return true
  | k + 1, a, pn => do
    match ← walk root a true with
    | none => return false
    | some (n, j) =>
      if (← getPte n j) % 2 = 1 then throw .mappagesRemap
      setPte n j (mkPte pn perm)
      mapLoop root perm k (a + PGSIZE) (pn + 1)

/-- `mappages`, from page `pn` on; `true` stands for 0. -/
def mappages (root va size pn perm : ℕ) : Exec KPanic Phys Bool := do
  if size = 0 then throw .mappagesSize
  let a := pgRoundDown va
  let last := pgRoundDown ((va + size - 1) % 2 ^ 64)
  mapLoop root perm ((last + 2 ^ 64 - a) % 2 ^ 64 / PGSIZE + 1) a pn

/-- The loop of `uvmunmap`. -/
def unmapLoop (root : ℕ) (doFree : Bool) : ℕ → ℕ → Exec KPanic Phys Unit
  | 0, _ => return ()
  | k + 1, a => do
    match ← walk root a false with
    | none => throw .uvmunmapWalk
    | some (n, j) =>
      let e ← getPte n j
      if e % 2 = 0 then throw .uvmunmapNotMapped
      if e % 1024 = PTE_V then throw .uvmunmapNotALeaf
      if doFree then kfree im (pte2page e)
      setPte n j 0
      unmapLoop root doFree k (a + PGSIZE)

def uvmunmap (root va npages : ℕ) (doFree : Bool) : Exec KPanic Phys Unit := do
  if va % PGSIZE ≠ 0 then throw .uvmunmapNotAligned
  unmapLoop im root doFree (((va + npages * PGSIZE) % 2 ^ 64 - va + PGSIZE - 1) / PGSIZE) va

/-! ## User memory -/

def uvmcreate : Exec KPanic Phys (Option ℕ) := do
  match ← kalloc with
  | none => return none
  | some n =>
    memsetPage n 0
    return some n

def uvmdealloc (root oldsz newsz : ℕ) : Exec KPanic Phys ℕ := do
  if oldsz ≤ newsz then return oldsz
  if pgRoundUp newsz < pgRoundUp oldsz then
    uvmunmap im root (pgRoundUp newsz) ((pgRoundUp oldsz - pgRoundUp newsz) / PGSIZE) true
  return newsz

/-- The loop of `uvmalloc`: `false` if memory ran out, with what it had mapped unmapped again. -/
def allocLoop (root oldsz xperm : ℕ) : ℕ → ℕ → Exec KPanic Phys Bool
  | 0, _ => return true
  | k + 1, a => do
    match ← kalloc with
    | none =>
      let _ ← uvmdealloc im root a oldsz
      return false
    | some n =>
      memsetPage n 0
      if ← mappages root a PGSIZE n (PTE_R ||| PTE_U ||| xperm) then
        allocLoop root oldsz xperm k (a + PGSIZE)
      else
        kfree im n
        let _ ← uvmdealloc im root a oldsz
        return false

/-- `uvmalloc`: the new size, or 0 on error. -/
def uvmalloc (root oldsz newsz xperm : ℕ) : Exec KPanic Phys ℕ := do
  if newsz < oldsz then return oldsz
  let oldsz := pgRoundUp oldsz
  if ← allocLoop im root oldsz xperm ((newsz - oldsz + PGSIZE - 1) / PGSIZE) oldsz then return newsz
  else return 0

/-- `freewalk`, with `depth` levels of tables to go. -/
def freewalk : ℕ → ℕ → Exec KPanic Phys Unit
  | 0, _ => throw .freewalkDeep
  | depth + 1, n => do
    (List.range 512).forM fun i => do
      let e ← getPte n i
      if e % 2 = 1 ∧ e / 2 % 8 = 0 then
        freewalk depth (pte2page e)
        setPte n i 0
      else if e % 2 = 1 then throw .freewalkLeaf
    kfree im n

def uvmfree (root sz : ℕ) : Exec KPanic Phys Unit := do
  if 0 < sz then uvmunmap im root 0 (pgRoundUp sz / PGSIZE) true
  freewalk im 3 root

/-- `uvmfirst`: `src` is `initcode`. -/
def uvmfirst (root : ℕ) (src : List Byte) : Exec KPanic Phys Unit := do
  if PGSIZE ≤ src.length then throw .uvmfirstMoreThanAPage
  match ← kalloc with
  | none => throw .kerneltrap
  | some n =>
    memsetPage n 0
    let _ ← mappages root 0 PGSIZE n (PTE_W ||| PTE_R ||| PTE_X ||| PTE_U)
    modify fun σ => σ.put n ((σ.mem n).splice 0 src)

/-- The loop of `uvmcopy`: `false` sends it to `err`. -/
def copyLoop (old new : ℕ) : ℕ → ℕ → Exec KPanic Phys Bool
  | 0, _ => return true
  | k + 1, i => do
    match ← walk old i false with
    | none => throw .uvmcopyPteShouldExist
    | some (n, j) =>
      let e ← getPte n j
      if e % 2 = 0 then throw .uvmcopyPageNotPresent
      match ← kalloc with
      | none =>
        uvmunmap im new 0 (i / PGSIZE) true
        return false
      | some c =>
        modify fun σ => σ.put c (σ.mem (pte2page e))
        if ← mappages new i PGSIZE c (e % 1024) then copyLoop old new k (i + PGSIZE)
        else
          kfree im c
          uvmunmap im new 0 (i / PGSIZE) true
          return false

/-- `uvmcopy`; `true` stands for 0. -/
def uvmcopy (old new sz : ℕ) : Exec KPanic Phys Bool :=
  copyLoop im old new ((sz + PGSIZE - 1) / PGSIZE) 0

def uvmclear (root va : ℕ) : Exec KPanic Phys Unit := do
  match ← walk root va false with
  | none => throw .uvmclear
  | some (n, j) =>
    let e ← getPte n j
    setPte n j (if e / 16 % 2 = 1 then e - PTE_U else e)

/-! ## Copies between kernel and user -/

/-- `copyout`; the fuel is the length of `src`, of which every round takes at least a byte. -/
def copyoutLoop (root : ℕ) : ℕ → ℕ → List Byte → Exec KPanic Phys Bool
  | _, _, [] => return true
  | 0, _, _ :: _ => return true
  | k + 1, dstva, src => do
    let va0 := pgRoundDown dstva
    match ← walkaddr root va0 with
    | none => return false
    | some n =>
      let len := min (PGSIZE - (dstva - va0)) src.length
      modify fun σ => σ.put n ((σ.mem n).splice (dstva - va0) (src.take len))
      copyoutLoop root k ((va0 + PGSIZE) % 2 ^ 64) (src.drop len)

/-- `copyout`; `true` stands for 0. -/
def copyout (root dstva : ℕ) (src : List Byte) : Exec KPanic Phys Bool :=
  copyoutLoop root src.length dstva src

/-- `copyin` of `len` bytes, with `len` rounds at most. -/
def copyinLoop (root : ℕ) : ℕ → ℕ → ℕ → Exec KPanic Phys (Option (List Byte))
  | _, _, 0 => return some []
  | 0, _, _ + 1 => return some []
  | k + 1, srcva, len => do
    let va0 := pgRoundDown srcva
    match ← walkaddr root va0 with
    | none => return none
    | some n =>
      let m := min (PGSIZE - (srcva - va0)) len
      let bs := ((← get).mem n).slice (srcva - va0) m
      match ← copyinLoop root k ((va0 + PGSIZE) % 2 ^ 64) (len - m) with
      | none => return none
      | some rest => return some (bs ++ rest)

def copyin (root srcva len : ℕ) : Exec KPanic Phys (Option (List Byte)) :=
  copyinLoop root len srcva len

/-- The bytes of `bs` up to and with its first NUL, and whether there is one. -/
def untilNul : List Byte → List Byte × Bool
  | [] => ([], false)
  | b :: bs => if b = 0 then ([b], true) else let r := untilNul bs; (b :: r.1, r.2)

/-- `copyinstr`, with `max` rounds at most: the bytes stored to `dst`, and whether it succeeded. -/
def copyinstrLoop (root : ℕ) : ℕ → ℕ → ℕ → Exec KPanic Phys (List Byte × Bool)
  | _, _, 0 => return ([], false)
  | 0, _, _ + 1 => return ([], false)
  | k + 1, srcva, max => do
    let va0 := pgRoundDown srcva
    match ← walkaddr root va0 with
    | none => return ([], false)
    | some n =>
      let m := min (PGSIZE - (srcva - va0)) max
      let r := untilNul (((← get).mem n).slice (srcva - va0) m)
      if r.2 then return r
      else
        let rest ← copyinstrLoop root k ((va0 + PGSIZE) % 2 ^ 64) (max - m)
        return (r.1 ++ rest.1, rest.2)

def copyinstr (root srcva max : ℕ) : Exec KPanic Phys (List Byte × Bool) :=
  copyinstrLoop root max srcva max

end Xv6
