import Xv6.Proc.Space

/-!
# Proc/Load — the code of `exec` up to its commit

The file is what `readi` makes of it, a `Reader`: any contents, and reads that stop short.  `Proc/Image`
follows the segments into memory, `Proc/Args` the arguments.
-/

namespace Xv6

open Machinery Function

/-- A file, as `readi` into the kernel sees it: the bytes that a read of `n` at `off` yields. -/
structure Reader where
  read : ℕ → ℕ → List Byte
  length_le : ∀ off n, (read off n).length ≤ n

/-! ## The code -/

def ELF_MAGIC : ℕ := 0x464C457F

def ELF_PROG_LOAD : ℕ := 1

def field (bs : List Byte) (off w : ℕ) : ℕ := leNat ((bs.drop off).take w)

/-- The fields of `struct elfhdr` that `exec` reads. -/
structure ElfHdr where
  magic : ℕ
  entry : ℕ
  phoff : ℕ
  phnum : ℕ

/-- `sizeof(struct elfhdr)`. -/
def ElfHdr.size : ℕ := 64

def ElfHdr.parse (bs : List Byte) : ElfHdr where
  magic := field bs 0 4
  entry := field bs 24 8
  phoff := field bs 32 8
  phnum := field bs 56 2

/-- The fields of `struct proghdr` that `exec` reads. -/
structure ProgHdr where
  type : ℕ
  flags : ℕ
  off : ℕ
  vaddr : ℕ
  filesz : ℕ
  memsz : ℕ
  deriving DecidableEq

/-- `sizeof(struct proghdr)`. -/
def ProgHdr.size : ℕ := 56

def ProgHdr.parse (bs : List Byte) : ProgHdr where
  type := field bs 0 4
  flags := field bs 4 4
  off := field bs 8 8
  vaddr := field bs 16 8
  filesz := field bs 32 8
  memsz := field bs 40 8

def flags2perm (flags : ℕ) : ℕ :=
  (if flags % 2 = 1 then PTE_X else 0) ||| (if flags / 2 % 2 = 1 then PTE_W else 0)

variable (im : Image) (f : Reader)

/-- The loop of `loadseg`. -/
def loadsegLoop (root : ℕ) : ℕ → ℕ → ℕ → ℕ → Exec KPanic Phys Bool
  | 0, _, _, _ => return true
  | k + 1, va, off, sz => do
    match ← walkaddr root va with
    | none => throw .loadsegAddress
    | some n =>
      let len := min sz PGSIZE
      let bs := f.read (off % 2 ^ 32) len
      modify fun σ => σ.put n ((σ.mem n).splice 0 bs)
      if bs.length ≠ len then return false
      else loadsegLoop root k (va + PGSIZE) (off + PGSIZE) (sz - PGSIZE)

/-- `loadseg`, whose `offset` and `sz` are `uint`. -/
def loadseg (root va off sz : ℕ) : Exec KPanic Phys Bool :=
  loadsegLoop f root ((sz % 2 ^ 32 + PGSIZE - 1) / PGSIZE) va (off % 2 ^ 32) (sz % 2 ^ 32)

/-- The loop of `exec` over the program headers, with the size so far; `false` sends it to `bad`. -/
def loadLoop (root : ℕ) : ℕ → ℕ → ℕ → Exec KPanic Phys (ℕ × Bool)
  | 0, _, sz => return (sz, true)
  | k + 1, off, sz => do
    let bs := f.read (off % 2 ^ 32) ProgHdr.size
    if bs.length ≠ ProgHdr.size then return (sz, false)
    let ph := ProgHdr.parse bs
    if ph.type ≠ ELF_PROG_LOAD then loadLoop root k (off + ProgHdr.size) sz
    else if ph.memsz < ph.filesz then return (sz, false)
    else if (ph.vaddr + ph.memsz) % 2 ^ 64 < ph.vaddr then return (sz, false)
    else if ph.vaddr % PGSIZE ≠ 0 then return (sz, false)
    else
      let sz1 ← uvmalloc im root sz ((ph.vaddr + ph.memsz) % 2 ^ 64) (flags2perm ph.flags)
      if sz1 = 0 then return (sz, false)
      else if ← loadseg f root ph.vaddr ph.off ph.filesz then
        loadLoop root k (off + ProgHdr.size) sz1
      else return (sz1, false)

def cstr (b : Page) : List Byte := (untilNul (b.slice 0 PGSIZE)).1

/-- The difference of two `uint64`s. -/
def sub64 (a b : ℕ) : ℕ := (a + 2 ^ 64 - b) % 2 ^ 64

/-- The loop of `exec` that pushes the argument strings, with `ustack` so far, by a subtraction `sub`. -/
def pushArgs (sub : ℕ → ℕ → ℕ) (root stackbase : ℕ) :
    List ℕ → ℕ → List ℕ → Exec KPanic Phys (Option (ℕ × List ℕ))
  | [], sp, ustack => return some (sp, ustack)
  | a :: argv, sp, ustack => do
    if MAXARG ≤ ustack.length then return none
    let s := cstr ((← get).mem a)
    let sp := sub sp s.length
    let sp := sp - sp % 16
    if sp < stackbase then return none
    if ← copyout root sp s then pushArgs sub root stackbase argv sp (ustack ++ [sp])
    else return none

/-- What `exec` commits to. -/
structure Loaded where
  pagetable : ℕ
  sz : ℕ
  entry : ℕ
  sp : ℕ
  argc : ℕ

/-- The stack of `exec`: the strings, then the array of pointers to them. -/
def pushStackBy (sub : ℕ → ℕ → ℕ) (root sz : ℕ) (argv : List ℕ) : Exec KPanic Phys (Option (ℕ × ℕ)) := do
  let stackbase := sz - PGSIZE
  match ← pushArgs sub root stackbase argv sz [] with
  | none => return none
  | some (sp, ustack) =>
    let sp := sub sp ((ustack.length + 1) * 8)
    let sp := sp - sp % 16
    if sp < stackbase then return none
    if ← copyout root sp ((ustack ++ [0]).flatMap (leBytes 8)) then return some (sp, ustack.length)
    else return none

def pushStack (root sz : ℕ) (argv : List ℕ) : Exec KPanic Phys (Option (ℕ × ℕ)) :=
  pushStackBy sub64 root sz argv

/-- The first half of `exec`: the image and the two pages of the stack, with the size and the entry. -/
def execImage (tf : ℕ) : Exec KPanic Phys (Option (ℕ × ℕ × ℕ)) := do
  let hdr := f.read 0 ElfHdr.size
  if hdr.length ≠ ElfHdr.size then return none
  let elf := ElfHdr.parse hdr
  if elf.magic ≠ ELF_MAGIC then return none
  match ← procPagetable im tf with
  | none => return none
  | some root =>
    let (sz, ok) ← loadLoop im f root elf.phnum (elf.phoff % 2 ^ 32) 0
    if ok = false then
      procFreepagetable im root sz
      return none
    let sz := pgRoundUp sz
    let sz1 ← uvmalloc im root sz (sz + 2 * PGSIZE) PTE_W
    if sz1 = 0 then
      procFreepagetable im root sz
      return none
    uvmclear root (sz1 - 2 * PGSIZE)
    return some (root, sz1, elf.entry)

/-- The second half of `exec`: the stack. -/
def execArgs (argv : List ℕ) : Option (ℕ × ℕ × ℕ) → Exec KPanic Phys (Option Loaded)
  | none => return none
  | some (root, sz, entry) => do
    match ← pushStack root sz argv with
    | none =>
      procFreepagetable im root sz
      return none
    | some (sp, argc) => return some ⟨root, sz, entry, sp, argc⟩

/-- `exec` up to its commit, for a process with its trapframe at page `tf`: `none` stands for `-1`. -/
def execLoad (tf : ℕ) (argv : List ℕ) : Exec KPanic Phys (Option Loaded) := do
  execArgs im argv (← execImage im f tf)

end Xv6
