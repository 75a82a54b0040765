import Xv6.Machinery.Circle
import Xv6.Param

/-!
# User/Umalloc — the memory allocator of `user/umalloc.c`

A header is known by its address; `p + k` on `Header *` is `p + 16 * k`.  The loops take fuel, and
run out of it if they do not end.  `sbrk` takes an `int`, returns the old size `brk`, and fails only
if it is to grow and there is no memory, which is a parameter of `malloc`.  A process that uses a
header outside its pages is killed.
-/

namespace Xv6.Umalloc

open Machinery Function

/-- `sizeof(Header)` -/
def HEADER : ℕ := 16

/-- The headers in memory, and what `malloc` and `sbrk` keep. -/
structure Heap where
  /-- `s.ptr` of the header at an address. -/
  ptr : ℕ → ℕ
  /-- `s.size` of the header at an address. -/
  size : ℕ → ℕ
  /-- `freep`, or 0. -/
  freep : ℕ
  /-- The size of the process. -/
  brk : ℕ
  /-- The units that `morecore` has obtained. -/
  obtained : ℕ

/-- The fields of the header at `p` are in pages of the process. -/
def Heap.mapped (h : Heap) (p : ℕ) : Bool := p + 12 ≤ (h.brk + PGSIZE - 1) / PGSIZE * PGSIZE

/-- The end of the block at `p`. -/
def Heap.fin (h : Heap) (p : ℕ) : ℕ := p + HEADER * h.size p

/-- Stores to the header at `p`. -/
def Heap.setPtr (h : Heap) (p q : ℕ) : Heap := { h with ptr := update h.ptr p q }

def Heap.setSize (h : Heap) (p n : ℕ) : Heap := { h with size := update h.size p (n % 2 ^ 32) }

/-- The condition on which the loop of `free` stops at `p`. -/
def between (h : Heap) (bp p : ℕ) : Bool :=
  (bp > p ∧ bp < h.ptr p) ∨ (p ≥ h.ptr p ∧ (bp > p ∨ bp < h.ptr p))

/-- `free(bp + 1)`, after its loop. -/
def link (h : Heap) (bp p : ℕ) : Heap :=
  let h :=
    if h.fin bp = h.ptr p then
      (h.setSize bp (h.size bp + h.size (h.ptr p))).setPtr bp (h.ptr (h.ptr p))
    else h.setPtr bp (h.ptr p)
  let h :=
    if h.fin p = bp then (h.setSize p (h.size p + h.size bp)).setPtr p (h.ptr bp)
    else h.setPtr p bp
  { h with freep := p }

/-- **`free(bp + 1)`**: `some none` if the process is killed. -/
def free (fuel : ℕ) (h : Heap) (bp : ℕ) : Option (Option Heap) :=
  (hunt (fun p => !h.mapped p || between h bp p) h.ptr fuel h.freep).map fun p =>
    if h.mapped p && h.mapped bp && (h.fin bp != h.ptr p || h.mapped (h.ptr p)) then some (link h bp p) else none

/-- The conversion of `nu * sizeof(Header)` to `int`. -/
def toInt (n : ℕ) : ℤ := (BitVec.ofNat 32 n).toInt

/-- `sbrk`: `growproc` keeps the size if it is to shrink below 0. -/
def sbrk (h : Heap) (n : ℤ) (memory : Bool) : Option (ℕ × Heap) :=
  if 0 < n then if memory then some (h.brk, { h with brk := h.brk + n.toNat }) else none
  else if 0 ≤ h.brk + n then some (h.brk, { h with brk := (h.brk + n).toNat })
  else some (h.brk, h)

/-- What `morecore` asks for. -/
def coreUnits (nu : ℕ) : ℕ := if nu < 4096 then 4096 else nu

/-- How a call ends: with 0, with the header of a block, or not at all. -/
inductive Outcome where
  | null
  | block (p : ℕ)
  | killed
  deriving DecidableEq

/-- `morecore`: it returns `freep`. -/
def morecore (fuel : ℕ) (h : Heap) (nu : ℕ) (memory : Bool) : Option (Outcome × Heap) :=
  match sbrk h (toInt (coreUnits nu * HEADER)) memory with
  | none => some (.null, h)
  | some (hp, h) =>
    if h.mapped hp then
      let h := { h.setSize hp (coreUnits nu) with obtained := h.obtained + coreUnits nu }
      (free fuel h hp).map fun
        | none => (.killed, h)
        | some h => (.block h.freep, h)
    else some (.killed, h)

/-- `malloc`, once it has found a block of the list. -/
def take (h : Heap) (nunits prevp p : ℕ) : Outcome × Heap :=
  if h.size p = nunits then (.block p, { h.setPtr prevp (h.ptr p) with freep := prevp })
  else
    let h := h.setSize p (h.size p - nunits)
    if h.mapped (h.fin p) then (.block (h.fin p), { h.setSize (h.fin p) nunits with freep := prevp })
    else (.killed, h)

/-- A call goes on if the one in it has returned a pointer. -/
def andThen (r : Outcome × Heap) (f : ℕ → Heap → Option (Outcome × Heap)) : Option (Outcome × Heap) :=
  match r.1 with
  | .block p => f p r.2
  | _ => some r

/-- The loop of `malloc`. -/
def mallocLoop (nunits : ℕ) : (fuel : ℕ) → (memory : List Bool) → Heap → (prevp p : ℕ) → Option (Outcome × Heap)
  | 0, _, _, _, _ => none
  | fuel + 1, memory, h, prevp, p =>
    if !h.mapped p then some (.killed, h)
    else if h.size p ≥ nunits then some (take h nunits prevp p)
    else if p = h.freep then
      (morecore fuel h nunits (memory.headD false)).bind fun r =>
        andThen r fun p h => mallocLoop nunits fuel memory.tail h p (h.ptr p)
    else mallocLoop nunits fuel memory h p (h.ptr p)

/-- `nunits`, for a request of `nbytes` bytes. -/
def units (nbytes : ℕ) : ℕ := (nbytes + HEADER - 1) / HEADER + 1

/-- The first call of `malloc` makes the list. -/
def setup (base : ℕ) (h : Heap) : Heap :=
  if h.freep = 0 then { (h.setPtr base base).setSize base 0 with freep := base } else h

/-- **`malloc(nbytes)`**: the header before the bytes that it returns. -/
def malloc (base fuel nbytes : ℕ) (memory : List Bool) (h : Heap) : Option (Outcome × Heap) :=
  let h := setup base h
  if h.mapped h.freep then mallocLoop (units nbytes) fuel memory h h.freep (h.ptr h.freep)
  else some (.killed, h)

end Xv6.Umalloc
