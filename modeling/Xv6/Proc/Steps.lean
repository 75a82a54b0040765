import Xv6.Proc.Kernel
import Xv6.Machinery.Runs

/-!
# Proc/Steps — `sys_exec`, booting, and the runs of the kernel

The steps are the parts of `main` after `kinit`, in order, system calls by running processes, and
the scheduler's choice of who runs; a step that panics has no successor.
-/

namespace Xv6

open Machinery Function

namespace Kernel

variable (im : Image)

/-! ## `sys_exec` -/

/-- `exec`: `argc`, or `-1`; `none` is a path that `namei` does not find. -/
def exec (p : Slot) (f : Option Reader) (argv : List ℕ) : KExec ℤ := do
  match f with
  | none => return -1
  | some f =>
    let tf ← deref ((← get).proc p).trapframe
    match ← onPhys (execLoad im f tf argv) with
    | none => return -1
    | some l =>
      let oldsz := ((← get).proc p).sz
      let old ← deref ((← get).proc p).pagetable
      setTrapframe tf tfA1 l.sp
      setProc p fun q => { q with pagetable := some l.pagetable, sz := l.sz }
      setTrapframe tf tfEpc l.entry
      setTrapframe tf tfSp l.sp
      onPhys (procFreepagetable im old oldsz)
      return l.argc

/-- The loop at the end of `sys_exec` that frees `argv`. -/
def freeArgs : List ℕ → KExec Unit
  | [] => return ()
  | a :: argv => do
    onPhys (kfree im a)
    freeArgs argv

/-- The way out of `sys_exec`. -/
def leaveExec (p : Slot) (argv : List ℕ) : KExec Unit := do
  freeArgs im argv
  setProc p fun q => { q with frame := .user }

def fetchaddr (p : Slot) (addr : ℕ) : KExec (Option ℕ) := do
  let sz := ((← get).proc p).sz
  if sz ≤ addr ∨ sz < (addr + 8) % 2 ^ 64 then return none
  let root ← deref ((← get).proc p).pagetable
  match ← onPhys (copyin root addr 8) with
  | none => return none
  | some bs => return some (leNat bs)

/-- `sys_exec` up to its loop: `none` goes on. -/
def execBegin (p : Slot) (path uargv : ℕ) : KExec (Option ℤ) := do
  let root ← deref ((← get).proc p).pagetable
  let r ← onPhys (copyinstr root path MAXPATH)
  if r.2 then
    setProc p fun q => { q with frame := .exec uargv [] }
    return none
  else return some (-1)

/-- One round of the loop of `sys_exec`, and `exec` after the last: `none` goes on. -/
def execStep (p : Slot) (f : Option Reader) : KExec (Option ℤ) := do
  match ((← get).proc p).frame with
  | .exec uargv argv =>
    if MAXARG ≤ argv.length then
      leaveExec im p argv
      return some (-1)
    match ← fetchaddr p ((uargv + 8 * argv.length) % 2 ^ 64) with
    | none =>
      leaveExec im p argv
      return some (-1)
    | some 0 =>
      let ret ← exec im p f argv
      leaveExec im p argv
      return some ret
    | some uarg =>
      match ← onPhys kalloc with
      | none =>
        leaveExec im p argv
        return some (-1)
      | some a =>
        let root ← deref ((← get).proc p).pagetable
        let r ← onPhys (copyinstr root uarg PGSIZE)
        onPhys (modify fun σ => σ.put a ((σ.mem a).splice 0 r.1))
        if r.2 then
          setProc p fun q => { q with frame := .exec uargv (argv ++ [a]) }
          return none
        else
          leaveExec im p (argv ++ [a])
          return some (-1)
  | _ => throw .kerneltrap

/-! ## Booting -/

def kvmmap (root va pn sz perm : ℕ) : Exec KPanic Phys Unit := do
  if ← mappages root va sz pn perm then return () else throw .kvmmap

/-- The loop of `proc_mapstacks`. -/
def mapstacksLoop (root : ℕ) : List Slot → Exec KPanic Phys Unit
  | [] => return ()
  | p :: ps => do
    match ← kalloc with
    | none => throw .kalloc
    | some pa =>
      kvmmap root (KSTACK p) pa PGSIZE (PTE_R ||| PTE_W)
      mapstacksLoop root ps

def procMapstacks (root : ℕ) : Exec KPanic Phys Unit := mapstacksLoop root (List.finRange NPROC)

def kvmmake : Exec KPanic Phys ℕ := do
  match ← kalloc with
  | none => throw .kerneltrap
  | some root =>
    memsetPage root 0
    kvmmap root UART0 (UART0 / PGSIZE) PGSIZE (PTE_R ||| PTE_W)
    kvmmap root VIRTIO0 (VIRTIO0 / PGSIZE) PGSIZE (PTE_R ||| PTE_W)
    kvmmap root PLIC (PLIC / PGSIZE) 0x400000 (PTE_R ||| PTE_W)
    kvmmap root KERNBASE (KERNBASE / PGSIZE) (im.etext - KERNBASE) (PTE_R ||| PTE_X)
    kvmmap root im.etext (im.etext / PGSIZE) (PHYSTOP - im.etext) (PTE_R ||| PTE_W)
    kvmmap root TRAMPOLINE im.trampoline PGSIZE (PTE_R ||| PTE_X)
    procMapstacks root
    return root

def kvminit : KExec Unit := do
  let root ← onPhys (kvmmake im)
  modify fun k => { k with kernelPagetable := some root }

/-- The allocations of `virtio_disk_init`. -/
def virtioDiskInit : KExec Unit := do
  let desc ← onPhys kalloc
  let avail ← onPhys kalloc
  let used ← onPhys kalloc
  match desc, avail, used with
  | some desc, some avail, some used =>
    onPhys (memsetPage desc 0)
    onPhys (memsetPage avail 0)
    onPhys (memsetPage used 0)
    modify fun k => { k with virtio := [desc, avail, used] }
  | _, _, _ => throw .virtioDiskKalloc

def initcode : List Byte :=
  [0x17, 0x05, 0x00, 0x00, 0x13, 0x05, 0x45, 0x02,
    0x97, 0x05, 0x00, 0x00, 0x93, 0x85, 0x35, 0x02,
    0x93, 0x08, 0x70, 0x00, 0x73, 0x00, 0x00, 0x00,
    0x93, 0x08, 0x20, 0x00, 0x73, 0x00, 0x00, 0x00,
    0xef, 0xf0, 0x9f, 0xff, 0x2f, 0x69, 0x6e, 0x69,
    0x74, 0x00, 0x00, 0x24, 0x00, 0x00, 0x00, 0x00,
    0x00, 0x00, 0x00, 0x00]

def userinit : KExec Unit := do
  let r ← allocproc im
  modify fun k => { k with initproc := r }
  let p ← deref r
  let root ← deref ((← get).proc p).pagetable
  onPhys (uvmfirst root initcode)
  setProc p fun q => { q with sz := PGSIZE }
  let tf ← deref ((← get).proc p).trapframe
  setTrapframe tf tfEpc 0
  setTrapframe tf tfSp PGSIZE
  setProc p fun q => { q with state := .runnable }

/-- An entry of `proc[]` after `procinit`. -/
def procinit : Proc where
  state := .unused
  chan := none
  killed := false
  xstate := 0
  pid := 0
  exitMsg := .fill 32 0
  parent := none
  sz := 0
  pagetable := none
  trapframe := none
  ofile := fun _ => none
  frame := .user

/-- The pages that `freerange` frees, the last one first. -/
def freerange : List ℕ :=
  (List.range' (pgRoundUp im.endAddr / PGSIZE)
    (PHYSTOP / PGSIZE - pgRoundUp im.endAddr / PGSIZE)).reverse

-- a list of up to 2^15 pages, not to be computed
attribute [irreducible] freerange

/-- The state after `kinit`, with the memory `mem`. -/
def kinit (mem : ℕ → Page) : Kernel where
  phys := ⟨fun n => if InPool im n then .fill PGSIZE 1 else mem n, freerange im, true⟩
  proc := fun _ => procinit
  nextpid := 1
  initproc := none
  file := fun _ => ⟨0, .none, false, false, 0, 0⟩
  pipe := fun _ => ⟨false, false⟩
  kernelPagetable := none
  virtio := []
  trace := []

/-! ## Runs -/

/-- A step of the kernel. -/
inductive Op
  | kvminit
  | virtioDiskInit
  | userinit
  /-- The scheduler runs `p`, and `p` yields. -/
  | run (p : Slot)
  | yield (p : Slot)
  | fork (p : Slot)
  | exit (p : Slot) (n : ℤ) (va : ℕ) (junk : Bytes 32)
  /-- `exit(-1, 0)`, of a process that has been killed. -/
  | exitKilled (p : Slot)
  | wait (p : Slot) (addr va : ℕ) (junk : Bytes 32)
  | rewait (p : Slot)
  | kill (p : Slot) (pid : ℤ)
  | sbrk (p : Slot) (n : ℤ)
  | pipe (p : Slot) (fdarray : ℕ)
  | close (p : Slot) (fd : ℤ)
  | dup (p : Slot) (fd : ℤ)
  | openFile (p : Slot) (ip : ℕ) (device readable writable : Bool)
  | read (p : Slot) (fd : ℤ) (addr : ℕ) (bs : List Byte)
  | write (p : Slot) (fd n : ℤ)
  | execBegin (p : Slot) (path uargv : ℕ)
  | execStep (p : Slot) (f : Option Reader)

/-- `p` runs in user space. -/
def InUser (k : Kernel) (p : Slot) : Prop := (k.proc p).state = .running ∧ (k.proc p).frame = .user

def Enabled (k : Kernel) : Op → Prop
  | .kvminit => k.kernelPagetable = none
  | .virtioDiskInit => k.kernelPagetable ≠ none ∧ k.virtio = []
  | .userinit => k.virtio ≠ [] ∧ k.initproc = none
  | .run p => (k.proc p).state = .runnable
  | .yield p => (k.proc p).state = .running
  | .exitKilled p => k.InUser p ∧ (k.proc p).killed
  | .rewait p => (k.proc p).state = .running
  | .execStep p _ => (k.proc p).state = .running
  | .fork p => k.InUser p
  | .exit p _ _ _ => k.InUser p
  | .wait p _ _ _ => k.InUser p
  | .kill p _ => k.InUser p
  | .sbrk p _ => k.InUser p
  | .pipe p _ => k.InUser p
  | .close p _ => k.InUser p
  | .dup p _ => k.InUser p
  | .openFile p _ _ _ _ => k.InUser p
  | .read p _ _ _ => k.InUser p
  | .write p _ _ => k.InUser p
  | .execBegin p _ _ => k.InUser p

/-- What a step does, and what a system call returns. -/
def perform : Op → KExec (Option ℤ)
  | .kvminit => do kvminit im; return none
  | .virtioDiskInit => do virtioDiskInit; return none
  | .userinit => do userinit im; return none
  | .run p => do setProc p fun q => { q with state := .running }; return none
  | .yield p => do setProc p fun q => { q with state := .runnable }; return none
  | .fork p => do return some (← fork im p)
  | .exit p n va junk => do sysExit im p n va junk; return none
  | .exitKilled p => do exit im p (-1) none; return none
  | .wait p addr va junk => sysWait p addr va junk
  | .rewait p => rewait p
  | .kill _ pid => do return some (if ← kill pid then 0 else -1)
  | .sbrk p n => do
    let addr := ((← get).proc p).sz
    return some (if ← growproc im p n then addr else -1)
  | .pipe p fdarray => do return some (← sysPipe im p fdarray)
  | .close p fd => do return some (← sysClose im p fd)
  | .dup p fd => do return some (← sysDup p fd)
  | .openFile p ip device readable writable => do
    return some (← sysOpen im p ip (if device then .device else .inode) readable writable)
  | .read p fd addr bs => do return some (← sysRead p fd addr bs)
  | .write p fd n => do return some (← sysWrite p fd n)
  | .execBegin p path uargv => execBegin p path uargv
  | .execStep p f => execStep im p f

/-- The kernel, from `kinit` on; a label is a step and what it returns. -/
def system : System Kernel (Op × Option ℤ) where
  init k := ∃ mem, k = kinit im mem
  step k l k' := k.Enabled l.1 ∧ perform im l.1 k = .ok (l.2, k')

end Kernel

end Xv6
