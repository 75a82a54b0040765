import Xv6.Param
import Xv6.Machinery.Exec
import Xv6.Machinery.Radix

/-!
# Vm/Phys — physical pages, the page allocator and page-table entries

Memory is addressed by page number, `pa / PGSIZE`.  The free list of `kernel/kalloc.c` is a list of
page numbers, and stands for the link words in free pages, which nobody else sees.  The ghost
`sound` records whether every `kfree` got a page that was not free already, and every page `kalloc`
returned had left the list.
-/

namespace Xv6

open Machinery Function

/-- Where the linker put the kernel: `etext`, `end` and, by page number, the trampoline. -/
structure Image where
  etext : ℕ
  endAddr : ℕ
  trampoline : ℕ
  etext_ge : KERNBASE < etext
  etext_le : etext ≤ endAddr
  end_le : endAddr ≤ PHYSTOP
  etext_aligned : etext % PGSIZE = 0
  trampoline_lt : trampoline * PGSIZE < etext

/-! An image with one page of text. -/

theorem Image.one_page_ge : KERNBASE < KERNBASE + PGSIZE := by decide

theorem Image.one_page_aligned : (KERNBASE + PGSIZE) % PGSIZE = 0 := by decide

theorem Image.one_page_trampoline : KERNBASE / PGSIZE * PGSIZE < KERNBASE + PGSIZE := by decide

/-- The panics of the kernel's memory code. -/
inductive KPanic
  | kfree
  | walk
  | kvmmap
  | kalloc
  | mappagesSize
  | mappagesRemap
  | uvmunmapNotAligned
  | uvmunmapWalk
  | uvmunmapNotMapped
  | uvmunmapNotALeaf
  | uvmfirstMoreThanAPage
  | freewalkLeaf
  /-- `freewalk` met a fourth level of tables. -/
  | freewalkDeep
  | uvmcopyPteShouldExist
  | uvmcopyPageNotPresent
  | uvmclear
  | loadsegAddress
  /-- A store or load through a null pointer. -/
  | kerneltrap
  deriving DecidableEq, Repr

/-- Physical memory and `kmem.freelist`. -/
structure Phys where
  mem : ℕ → Page
  freelist : List ℕ
  sound : Bool

/-! ## The allocator -/

/-- `end <= pa < PHYSTOP`, the test of `kfree`. -/
def InPool (im : Image) (n : ℕ) : Prop := im.endAddr ≤ n * PGSIZE ∧ n * PGSIZE < PHYSTOP

instance (im : Image) (n : ℕ) : Decidable (InPool im n) := inferInstanceAs (Decidable (_ ∧ _))

/-- Page `n` becomes `b`. -/
def Phys.put (σ : Phys) (n : ℕ) (b : Page) : Phys := { σ with mem := update σ.mem n b }

@[simp] theorem Phys.put_put (σ : Phys) (n : ℕ) (b b' : Page) : (σ.put n b).put n b' = σ.put n b' := by
  simp only [put, update_idem]

def kalloc : Exec KPanic Phys (Option ℕ) := do
  let σ ← get
  match σ.freelist with
  | [] => return none
  | n :: fl =>
    set { σ.put n (.fill PGSIZE 5) with freelist := fl, sound := σ.sound && decide (n ∉ fl) }
    return some n

def kfree (im : Image) (n : ℕ) : Exec KPanic Phys Unit := do
  if ¬ InPool im n then throw .kfree
  modify fun σ => { σ.put n (.fill PGSIZE 1) with
    freelist := n :: σ.freelist
    sound := σ.sound && decide (n ∉ σ.freelist) }

/-- `memset(page, v, PGSIZE)`. -/
def memsetPage (n : ℕ) (v : Byte) : Exec KPanic Phys Unit :=
  modify fun σ => σ.put n (.fill PGSIZE v)

/-! ## Page-table entries -/

/-- `pagetable[j]` of the page-table page `n`. -/
def pte (m : ℕ → Page) (n j : ℕ) : ℕ := (m n).getLE (8 * j) 8

/-- `PTE2PA`, as a page number. -/
def pte2page (e : ℕ) : ℕ := e / 1024 % 2 ^ 52

/-- `PA2PTE(pa) | perm | PTE_V`. -/
def mkPte (n perm : ℕ) : ℕ := n * 1024 ||| perm ||| PTE_V

/-- `PX(level, va)`. -/
def px (level va : ℕ) : ℕ := va / 2 ^ (12 + 9 * level) % 512

def getPte (n j : ℕ) : Exec KPanic Phys ℕ := do return pte (← get).mem n j

theorem getPte_run (n j : ℕ) (σ : Phys) : getPte n j σ = .ok (pte σ.mem n j, σ) := rfl

def setPte (n j e : ℕ) : Exec KPanic Phys Unit :=
  modify fun σ => σ.put n ((σ.mem n).putLE (8 * j) 8 e)

/-- The page tables of a memory: an inner entry is a bare pointer, a bottom entry is readable. -/
def nodes (m : ℕ → Page) : Radix.Nodes ℕ ℕ where
  child n j := if pte m n j % 2 = 1 then some (pte2page (pte m n j)) else none
  value n j := if pte m n j % 2 = 1 then some (pte m n j) else none
  dirOk n j := pte m n j % 2 = 1 → pte m n j % 1024 = 1
  lowOk n j := pte m n j % 2 = 1 → pte m n j % 4 = 3

-- read through its lemmas: the unifier is not to decode pages
attribute [irreducible] pte

end Xv6
