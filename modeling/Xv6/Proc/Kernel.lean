import Xv6.Proc.Load
import Xv6.Sched.Table

/-!
# Proc/Kernel — processes, open files and pipes

The state and the functions of `kernel/proc.c`, `kernel/file.c` and `kernel/pipe.c`.  A system call
is one program; only `wait`, which sleeps, and `sys_exec`, which collects its arguments one by one,
stop in between and leave what they hold in their `Frame`.  Left out are the scheduler's fields
(`Sched/Table`), the name, the current directory, and of a pipe all but its two flags.
-/

namespace Xv6

open Machinery Function

/-! ## The state -/

/-- The `type` of `struct file`. -/
inductive FileType
  | none
  | pipe
  | inode
  | device
  deriving DecidableEq, Repr

/-- `struct file`; `ip` tells entries of the inode table apart. -/
structure File where
  ref : ℕ
  type : FileType
  readable : Bool
  writable : Bool
  pipe : ℕ
  ip : ℕ
  deriving DecidableEq, Repr

/-- The flags of `struct pipe`. -/
structure Pipe where
  readopen : Bool
  writeopen : Bool
  deriving DecidableEq, Repr

/-- Where a process is in the kernel between two steps. -/
inductive Frame
  /-- In user space, or not in one of the calls below. -/
  | user
  /-- In the loop of `wait`, with `addr` and `*msg`. -/
  | wait (addr dst : ℕ)
  /-- In the loop of `sys_exec`, with `uargv` and `argv`. -/
  | exec (uargv : ℕ) (argv : List ℕ)
  deriving DecidableEq, Repr

def Frame.pages : Frame → List ℕ
  | .user => []
  | .wait _ _ => []
  | .exec _ argv => argv

/-- `struct proc`. -/
structure Proc where
  state : ProcState
  /-- The channel of `sleep` in `wait`, which is a process. -/
  chan : Option Slot
  killed : Bool
  xstate : ℤ
  pid : ℤ
  exitMsg : Bytes 32
  parent : Option Slot
  sz : ℕ
  pagetable : Option ℕ
  trapframe : Option ℕ
  ofile : Fin NOFILE → Option (Fin NFILE)
  frame : Frame

/-- What happens to pipes and to the inodes of open files. -/
inductive FileEvent
  | pipealloc (pi : ℕ)
  | pipeclose (pi : ℕ) (writable : Bool)
  /-- `kfree` of the pipe's page. -/
  | pipefree (pi : ℕ)
  /-- `sys_open` has a reference to the inode. -/
  | iref (ip : ℕ)
  | iput (ip : ℕ)
  deriving DecidableEq, Repr

/-- The state of the kernel; `trace` is a ghost, which no function reads. -/
structure Kernel where
  phys : Phys
  proc : Slot → Proc
  nextpid : ℤ
  initproc : Option Slot
  file : Fin NFILE → File
  pipe : ℕ → Pipe
  kernelPagetable : Option ℕ
  /-- `disk.desc`, `disk.avail` and `disk.used`. -/
  virtio : List ℕ
  trace : List FileEvent

/-- The panics of the kernel. -/
inductive Panic
  | mem (e : KPanic)
  | filedup
  | fileclose
  | fileread
  | filewrite
  | initExiting
  | virtioDiskKalloc
  /-- A store or load through a null pointer. -/
  | kerneltrap
  deriving DecidableEq, Repr

abbrev KExec (α : Type) := Exec Panic Kernel α

namespace Kernel

def onPhys {α : Type} (x : Exec KPanic Phys α) : KExec α :=
  x.zoom Panic.mem Kernel.phys fun k σ => { k with phys := σ }

def setProc (p : Slot) (f : Proc → Proc) : KExec Unit :=
  modify fun k => { k with proc := update k.proc p (f (k.proc p)) }

def setFile (i : Fin NFILE) (f : File → File) : KExec Unit :=
  modify fun k => { k with file := update k.file i (f (k.file i)) }

def setPipe (pi : ℕ) (f : Pipe → Pipe) : KExec Unit :=
  modify fun k => { k with pipe := update k.pipe pi (f (k.pipe pi)) }

def record (e : FileEvent) : KExec Unit := modify fun k => { k with trace := k.trace ++ [e] }

def deref {α : Type} : Option α → KExec α
  | none => throw .kerneltrap
  | some a => return a

variable (im : Image)

/-! ## Files and pipes -/

def filealloc : KExec (Option (Fin NFILE)) := do
  let k ← get
  match (List.finRange NFILE).find? fun i => decide ((k.file i).ref = 0) with
  | none => return none
  | some i =>
    setFile i fun f => { f with ref := 1 }
    return some i

def filedup (i : Fin NFILE) : KExec Unit := do
  if ((← get).file i).ref < 1 then throw .filedup
  setFile i fun f => { f with ref := f.ref + 1 }

def pipeclose (pi : ℕ) (writable : Bool) : KExec Unit := do
  if writable then setPipe pi fun q => { q with writeopen := false }
  else setPipe pi fun q => { q with readopen := false }
  record (.pipeclose pi writable)
  let q := (← get).pipe pi
  if q.readopen = false ∧ q.writeopen = false then
    record (.pipefree pi)
    onPhys (kfree im pi)

def fileclose (i : Fin NFILE) : KExec Unit := do
  let ff := (← get).file i
  if ff.ref < 1 then throw .fileclose
  if 1 < ff.ref then setFile i fun f => { f with ref := f.ref - 1 }
  else
    setFile i fun f => { f with ref := 0, type := .none }
    if ff.type = .pipe then pipeclose im ff.pipe ff.writable
    else if ff.type = .inode ∨ ff.type = .device then record (.iput ff.ip)

def pipealloc : KExec (Option (Fin NFILE × Fin NFILE)) := do
  match ← filealloc with
  | none => return none
  | some f0 =>
    match ← filealloc with
    | none =>
      fileclose im f0
      return none
    | some f1 =>
      match ← onPhys kalloc with
      | none =>
        fileclose im f0
        fileclose im f1
        return none
      | some pi =>
        record (.pipealloc pi)
        setPipe pi fun _ => ⟨true, true⟩
        setFile f0 fun f => { f with type := .pipe, readable := true, writable := false, pipe := pi }
        setFile f1 fun f => { f with type := .pipe, readable := false, writable := true, pipe := pi }
        return some (f0, f1)

/-! ## Processes -/

/-- `if(p->trapframe) kfree(p->trapframe)`. -/
def freeTrapframe : Option ℕ → Exec KPanic Phys Unit
  | none => return ()
  | some tf => kfree im tf

/-- `if(p->pagetable) proc_freepagetable(p->pagetable, p->sz)`. -/
def freePagetable (sz : ℕ) : Option ℕ → Exec KPanic Phys Unit
  | none => return ()
  | some root => procFreepagetable im root sz

def freeproc (p : Slot) : KExec Unit := do
  let q := (← get).proc p
  onPhys (freeTrapframe im q.trapframe)
  onPhys (freePagetable im q.sz q.pagetable)
  setProc p fun q => { q with
    trapframe := none, pagetable := none, sz := 0, pid := 0, parent := none, chan := none
    killed := false, xstate := 0, state := .unused }

def allocpid : KExec ℤ := do
  let pid := (← get).nextpid
  modify fun k => { k with nextpid := (pid + 1).bmod (2 ^ 32) }
  return pid

def allocproc : KExec (Option Slot) := do
  let k ← get
  match (List.finRange NPROC).find? fun p => decide ((k.proc p).state = .unused) with
  | none => return none
  | some p =>
    let pid ← allocpid
    setProc p fun q => { q with pid := pid, state := .used }
    match ← onPhys kalloc with
    | none =>
      setProc p fun q => { q with trapframe := none }
      freeproc im p
      return none
    | some tf =>
      setProc p fun q => { q with trapframe := some tf }
      match ← onPhys (procPagetable im tf) with
      | none =>
        setProc p fun q => { q with pagetable := none }
        freeproc im p
        return none
      | some root =>
        setProc p fun q => { q with pagetable := some root }
        return some p

/-- A store to a field of the trapframe at page `tf`. -/
def setTrapframe (tf off v : ℕ) : KExec Unit :=
  onPhys (modify fun σ => σ.put tf ((σ.mem tf).putLE off 8 v))

/-- The offsets of `epc`, `sp`, `a0` and `a1` in `struct trapframe`, and its size. -/
def tfEpc : ℕ := 24
def tfSp : ℕ := 48
def tfA0 : ℕ := 112
def tfA1 : ℕ := 120
def tfSize : ℕ := 288

/-- `growproc`; `true` stands for 0. -/
def growproc (p : Slot) (n : ℤ) : KExec Bool := do
  let sz := ((← get).proc p).sz
  let root ← deref ((← get).proc p).pagetable
  let newsz := ((sz + n) % 2 ^ 64).toNat
  if 0 < n then
    let sz1 ← onPhys (uvmalloc im root sz newsz PTE_W)
    if sz1 = 0 then return false
    setProc p fun q => { q with sz := sz1 }
    return true
  else if n < 0 then
    let sz1 ← onPhys (uvmdealloc im root sz newsz)
    setProc p fun q => { q with sz := sz1 }
    return true
  else return true

/-- One round of the loop of `fork` over the descriptors of the parent. -/
def dupFile (np : Slot) (fd : Fin NOFILE) : Option (Fin NFILE) → KExec Unit
  | none => return ()
  | some f => do
    filedup f
    setProc np fun q => { q with ofile := update q.ofile fd (some f) }

def dupFiles (p np : Slot) : List (Fin NOFILE) → KExec Unit
  | [] => return ()
  | fd :: fds => do
    dupFile np fd (((← get).proc p).ofile fd)
    dupFiles p np fds

/-- `fork`: the pid of the child, or `-1`. -/
def fork (p : Slot) : KExec ℤ := do
  match ← allocproc im with
  | none => return -1
  | some np =>
    let old ← deref ((← get).proc p).pagetable
    let new ← deref ((← get).proc np).pagetable
    let sz := ((← get).proc p).sz
    if ← onPhys (uvmcopy im old new sz) then
      setProc np fun q => { q with sz := sz }
      let tf ← deref ((← get).proc p).trapframe
      let ntf ← deref ((← get).proc np).trapframe
      onPhys (modify fun σ => σ.put ntf ((σ.mem ntf).splice 0 ((σ.mem tf).slice 0 tfSize)))
      setTrapframe ntf tfA0 0
      dupFiles p np (List.finRange NOFILE)
      setProc np fun q => { q with parent := some p, state := .runnable }
      return ((← get).proc np).pid
    else
      freeproc im np
      return -1

/-! ## `exit`, `wait` and `kill` -/

/-- What `wakeup(chan)` does to a process. -/
def woken (chan : Option Slot) (q : Proc) : Proc :=
  if q.state = .sleeping ∧ q.chan = chan then { q with state := .runnable } else q

/-- `wakeup(chan)`, called by `p`. -/
def wakeup (p : Slot) (chan : Option Slot) : KExec Unit :=
  modify fun k => { k with proc := fun q => if q = p then k.proc q else woken chan (k.proc q) }

/-- The loop of `reparent(p)`. -/
def reparentLoop (p : Slot) : List Slot → KExec Unit
  | [] => return ()
  | pp :: pps => do
    if ((← get).proc pp).parent = some p then
      let init := (← get).initproc
      setProc pp fun q => { q with parent := init }
      wakeup p init
      reparentLoop p pps
    else reparentLoop p pps

def reparent (p : Slot) : KExec Unit := reparentLoop p (List.finRange NPROC)

/-- One round of the loop of `exit` that closes all open files. -/
def closeFile (p : Slot) (fd : Fin NOFILE) : Option (Fin NFILE) → KExec Unit
  | none => return ()
  | some f => do
    fileclose im f
    setProc p fun q => { q with ofile := update q.ofile fd none }

def closeFiles (p : Slot) : List (Fin NOFILE) → KExec Unit
  | [] => return ()
  | fd :: fds => do
    closeFile im p fd (((← get).proc p).ofile fd)
    closeFiles p fds

/-- `strncpy(s, t, 32)`. -/
def strncpy32 (t : Bytes 32) : Bytes 32 :=
  (Bytes.fill 32 0).splice 0 (untilNul (t.slice 0 32)).1

/-- `exit`; a null `msg` is `none`. -/
def exit (p : Slot) (status : ℤ) (msg : Option (Bytes 32)) : KExec Unit := do
  if (← get).initproc = some p then throw .initExiting
  closeFiles im p (List.finRange NOFILE)
  reparent p
  wakeup p ((← get).proc p).parent
  let buf ← deref msg
  setProc p fun q => { q with exitMsg := strncpy32 buf, xstate := status, state := .zombie }

/-- The buffer `buff` of `sys_exit` and `sys_wait` after `argstr(1, buff, 32)`, which held `junk`. -/
def argBuff (p : Slot) (va : ℕ) (junk : Bytes 32) : KExec (Bytes 32) := do
  let root ← deref ((← get).proc p).pagetable
  let r ← onPhys (copyinstr root va 32)
  return junk.splice 0 r.1

def sysExit (p : Slot) (n : ℤ) (va : ℕ) (junk : Bytes 32) : KExec Unit := do
  let buff ← argBuff p va junk
  exit im p n (some buff)

/-- The first `strlen(s)` bytes of `exit_msg`. -/
def strBytes (s : Bytes 32) : List Byte := (s.slice 0 32).takeWhile (· ≠ 0)

/-- `sizeof(int)` bytes of an `int`. -/
def intBytes (n : ℤ) : List Byte := leBytes 4 (n % 2 ^ 32).toNat

/-- The scan of `wait`: what it returns, if it does, and `havekids`. -/
def waitScan (p : Slot) (root addr dst : ℕ) : List Slot → Bool → KExec (Option ℤ × Bool)
  | [], havekids => return (none, havekids)
  | pp :: pps, havekids => do
    let q := (← get).proc pp
    if q.parent = some p then
      -- the result of this copy is only printed
      let _ ← onPhys (copyout root dst (strBytes q.exitMsg))
      if q.state = .zombie then
        if addr ≠ 0 then
          if ← onPhys (copyout root addr (intBytes q.xstate)) then return (some q.pid, true)
          else return (some (-1), true)
        else return (some q.pid, true)
      else waitScan p root addr dst pps true
    else waitScan p root addr dst pps havekids

/-- One round of the loop of `wait`: what it returns, or `none` if it sleeps. -/
def waitOnce (p : Slot) (addr dst : ℕ) : KExec (Option ℤ) := do
  let root ← deref ((← get).proc p).pagetable
  let (r, havekids) ← waitScan p root addr dst (List.finRange NPROC) false
  match r with
  | some r =>
    setProc p fun q => { q with frame := .user }
    return some r
  | none =>
    if havekids = false ∨ ((← get).proc p).killed then
      setProc p fun q => { q with frame := .user }
      return some (-1)
    else
      setProc p fun q => { q with frame := .wait addr dst, chan := some p, state := .sleeping }
      return none

/-- `sys_wait`: `wait` dereferences its `msg`, the kernel buffer. -/
def sysWait (p : Slot) (addr va : ℕ) (junk : Bytes 32) : KExec (Option ℤ) := do
  let buff ← argBuff p va junk
  waitOnce p addr (buff.byteAt 0).toNat

/-- `wait` after its `sleep` has returned. -/
def rewait (p : Slot) : KExec (Option ℤ) := do
  setProc p fun q => { q with chan := none }
  match ((← get).proc p).frame with
  | .wait addr dst => waitOnce p addr dst
  | _ => throw .kerneltrap

/-- `kill`; `true` stands for 0. -/
def kill (pid : ℤ) : KExec Bool := do
  let k ← get
  match (List.finRange NPROC).find? fun p => decide ((k.proc p).pid = pid) with
  | none => return false
  | some p =>
    setProc p fun q => { q with
      killed := true, state := if q.state = .sleeping then .runnable else q.state }
    return true

/-! ## Descriptors -/

def fdalloc (p : Slot) (f : Fin NFILE) : KExec (Option (Fin NOFILE)) := do
  let q := (← get).proc p
  match (List.finRange NOFILE).find? fun fd => (q.ofile fd).isNone with
  | none => return none
  | some fd =>
    setProc p fun q => { q with ofile := update q.ofile fd (some f) }
    return some fd

/-- `argfd`: the descriptor and its file. -/
def argfd (p : Slot) (fd : ℤ) : KExec (Option (Fin NOFILE × Fin NFILE)) := do
  let q := (← get).proc p
  if 0 ≤ fd then
    if h : fd.toNat < NOFILE then
      match q.ofile ⟨fd.toNat, h⟩ with
      | none => return none
      | some f => return some (⟨fd.toNat, h⟩, f)
    else return none
  else return none

def sysDup (p : Slot) (fd : ℤ) : KExec ℤ := do
  match ← argfd p fd with
  | none => return -1
  | some (_, f) =>
    match ← fdalloc p f with
    | none => return -1
    | some fd =>
      filedup f
      return fd

def sysClose (p : Slot) (fd : ℤ) : KExec ℤ := do
  match ← argfd p fd with
  | none => return -1
  | some (fd, f) =>
    setProc p fun q => { q with ofile := update q.ofile fd none }
    fileclose im f
    return 0

/-- `sys_open` from the point where it has the inode `ip` of a file of type `ty`. -/
def sysOpen (p : Slot) (ip : ℕ) (ty : FileType) (readable writable : Bool) : KExec ℤ := do
  record (.iref ip)
  match ← filealloc with
  | none =>
    record (.iput ip)
    return -1
  | some f =>
    match ← fdalloc p f with
    | none =>
      fileclose im f
      record (.iput ip)
      return -1
    | some fd =>
      setFile f fun g => { g with type := ty, ip := ip, readable := readable, writable := writable }
      return fd

/-- What `fileread` reads from; `none` stands for `-1`. -/
def fileread (i : Fin NFILE) : KExec (Option FileType) := do
  let f := (← get).file i
  if f.readable = false then return none
  else if f.type = .none then throw .fileread
  else return some f.type

/-- What `filewrite` writes to; `none` stands for `-1`. -/
def filewrite (i : Fin NFILE) : KExec (Option FileType) := do
  let f := (← get).file i
  if f.writable = false then return none
  else if f.type = .none then throw .filewrite
  else return some f.type

/-- `sys_read` of the bytes `bs` of a file, pipe or device. -/
def sysRead (p : Slot) (fd : ℤ) (addr : ℕ) (bs : List Byte) : KExec ℤ := do
  match ← argfd p fd with
  | none => return -1
  | some (_, f) =>
    match ← fileread f with
    | none => return -1
    | some _ =>
      let root ← deref ((← get).proc p).pagetable
      if ← onPhys (copyout root addr bs) then return bs.length else return -1

/-- `sys_write`: what it stores is outside of this model. -/
def sysWrite (p : Slot) (fd : ℤ) (n : ℤ) : KExec ℤ := do
  match ← argfd p fd with
  | none => return -1
  | some (_, f) =>
    match ← filewrite f with
    | none => return -1
    | some _ => return n

def sysPipe (p : Slot) (fdarray : ℕ) : KExec ℤ := do
  match ← pipealloc im with
  | none => return -1
  | some (rf, wf) =>
    match ← fdalloc p rf with
    | none =>
      fileclose im rf
      fileclose im wf
      return -1
    | some fd0 =>
      match ← fdalloc p wf with
      | none =>
        setProc p fun q => { q with ofile := update q.ofile fd0 none }
        fileclose im rf
        fileclose im wf
        return -1
      | some fd1 =>
        let root ← deref ((← get).proc p).pagetable
        let ok ← onPhys do
          if ← copyout root fdarray (intBytes fd0) then
            copyout root ((fdarray + 4) % 2 ^ 64) (intBytes fd1)
          else return false
        if ok then return 0
        else
          setProc p fun q => { q with ofile := update (update q.ofile fd0 none) fd1 none }
          fileclose im rf
          fileclose im wf
          return -1

end Kernel

end Xv6
