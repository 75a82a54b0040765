import Xv6.Proc.Fork

/-!
# Proc/Sys — `fork` and `exec` with the fields that `Proc/Kernel` leaves out

`Sys` adds the rest of `struct proc`, the reference counts and locks of the in-memory inodes, and
the number of file system operations in flight.  `fork` once more, with every assignment of the
source; on the kernel it does what `Kernel.fork` does (`fork_follows`).
-/

namespace Xv6

open Machinery Function Ensures Kernel

/-! ## The state -/

/-- The fields of `struct proc` that `Proc` does not have. -/
structure ProcRest where
  /-- The current directory, by its entry of the inode table. -/
  cwd : Option ℕ
  name : Bytes 16
  accumulator : ℤ
  psPriority : ℤ
  cfsPriority : ℤ
  rtime : ℤ
  stime : ℤ
  retime : ℤ

/-- The fields `ref` and `lock` of `struct inode`. -/
structure InodeUse where
  ref : ℕ
  locked : Bool

/-- The kernel and what its model leaves out. -/
structure Sys where
  kernel : Kernel
  rest : Slot → ProcRest
  inode : ℕ → InodeUse
  /-- `log.outstanding`. -/
  outstanding : ℕ

abbrev SExec (α : Type) := Exec Panic Sys α

namespace Sys

def onKernel {α : Type} (x : KExec α) : SExec α := x.zoom id Sys.kernel fun s k => { s with kernel := k }

def setRest (p : Slot) (f : ProcRest → ProcRest) : SExec Unit :=
  modify fun s => { s with rest := update s.rest p (f (s.rest p)) }

def setInode (ip : ℕ) (f : InodeUse → InodeUse) : SExec Unit :=
  modify fun s => { s with inode := update s.inode ip (f (s.inode ip)) }

def idup (ip : ℕ) : SExec Unit := setInode ip fun i => { i with ref := i.ref + 1 }

/-- `safestrcpy(s, t, 16)`: after a NUL it stores another one. -/
def safestrcpy (s : Bytes 16) (t : List Byte) : Bytes 16 := s.splice 0 ((untilNul (t.take 15)).1 ++ [0])

/-- The process table that `set_accumulator` reads. -/
def schedTable (s : Sys) : SchedTable := fun q =>
  { state := (s.kernel.proc q).state, chan := 0, killed := (s.kernel.proc q).killed
    pid := (s.kernel.proc q).pid, accumulator := (s.rest q).accumulator
    psPriority := (s.rest q).psPriority }

variable (im : Image)

/-! ## `fork` -/

def freeproc (p : Slot) : SExec Unit := do
  onKernel (Kernel.freeproc im p)
  setRest p fun r => { r with name := r.name.splice 0 [0], accumulator := -1, psPriority := 0 }

def allocproc : SExec (Option Slot) := do
  let s ← get
  match (List.finRange NPROC).find? fun p => decide ((s.kernel.proc p).state = .unused) with
  | none => return none
  | some p =>
    let pid ← onKernel Kernel.allocpid
    onKernel (Kernel.setProc p fun q => { q with pid := pid, state := .used })
    match ← onKernel (Kernel.onPhys kalloc) with
    | none =>
      onKernel (Kernel.setProc p fun q => { q with trapframe := none })
      freeproc im p
      return none
    | some tf =>
      onKernel (Kernel.setProc p fun q => { q with trapframe := some tf })
      match ← onKernel (Kernel.onPhys (procPagetable im tf)) with
      | none =>
        onKernel (Kernel.setProc p fun q => { q with pagetable := none })
        freeproc im p
        return none
      | some root =>
        onKernel (Kernel.setProc p fun q => { q with pagetable := some root })
        return some p

/-- `set_accumulator(np)`. -/
def setAccumulator (np : Slot) : SExec Unit := do
  let s ← get
  setRest np fun r => { r with accumulator := (Xv6.setAccumulator s.schedTable np np).accumulator }

/-- `fork`: the pid of the child, or `-1`. -/
def fork (p : Slot) : SExec ℤ := do
  match ← allocproc im with
  | none => return -1
  | some np =>
    let old ← onKernel (Kernel.deref ((← get).kernel.proc p).pagetable)
    let new ← onKernel (Kernel.deref ((← get).kernel.proc np).pagetable)
    let sz := ((← get).kernel.proc p).sz
    if ← onKernel (Kernel.onPhys (uvmcopy im old new sz)) then
      onKernel (Kernel.setProc np fun q => { q with sz := sz })
      let tf ← onKernel (Kernel.deref ((← get).kernel.proc p).trapframe)
      let ntf ← onKernel (Kernel.deref ((← get).kernel.proc np).trapframe)
      onKernel (Kernel.onPhys (modify fun σ =>
        σ.put ntf ((σ.mem ntf).splice 0 ((σ.mem tf).slice 0 Kernel.tfSize))))
      onKernel (Kernel.setTrapframe ntf Kernel.tfA0 0)
      onKernel (Kernel.dupFiles p np (List.finRange NOFILE))
      let ip ← onKernel (Kernel.deref ((← get).rest p).cwd)
      idup ip
      setRest np fun r => { r with cwd := some ip }
      let name := ((← get).rest p).name
      setRest np fun r => { r with name := safestrcpy r.name (name.slice 0 16) }
      let pid := ((← get).kernel.proc np).pid
      onKernel (Kernel.setProc np fun q => { q with parent := some p })
      setRest np fun r => { r with psPriority := 5 }
      setAccumulator np
      let prio := ((← get).rest p).cfsPriority
      setRest np fun r => { r with retime := 0, rtime := 0, stime := 0, cfsPriority := prio }
      onKernel (Kernel.setProc np fun q => { q with state := .runnable })
      return pid
    else
      freeproc im np
      return -1

/-! ## What follows the kernel -/

variable {im} {s : Sys} {p : Slot}

/-- `s'` is `s` but for its kernel. -/
def SameRest (s s' : Sys) : Prop := s' = { s with kernel := s'.kernel }

theorem SameRest.refl (s : Sys) : SameRest s s := rfl

theorem SameRest.trans {s s' s'' : Sys} (h : SameRest s s') (h' : SameRest s' s'') : SameRest s s'' := by
  rw [SameRest, h', h]

theorem onKernel_follows {α : Type} (x : KExec α) (s : Sys) :
    Follows Sys.kernel (onKernel x) x s (fun _ s' => SameRest s s') := by
  rw [Follows, onKernel, zoom_iff, Ensures]
  cases hx : x s.kernel with
  | ok r => exact ⟨rfl, rfl⟩
  | error e => rfl

theorem setRest_iff {f : ProcRest → ProcRest} {Q : Unit → Sys → Prop} {E : Panic → Prop} :
    Ensures (setRest p f) s Q E ↔ Q ⟨⟩ { s with rest := update s.rest p (f (s.rest p)) } := by
  rw [setRest, modify_iff]

theorem onKernel_iff {α : Type} {x : KExec α} {Q : α → Sys → Prop} {E : Panic → Prop} :
    Ensures (onKernel x) s Q E ↔ Ensures x s.kernel (fun a k => Q a { s with kernel := k }) E :=
  zoom_iff

/-- `s'` is `s` but for its kernel and for the entry `np`, which is unused. -/
structure Cleared (np : Slot) (s s' : Sys) : Prop where
  state : (s'.kernel.proc np).state = .unused
  rest : ∀ q, q ≠ np → s'.rest q = s.rest q
  inode : s'.inode = s.inode
  outstanding : s'.outstanding = s.outstanding

theorem freeproc_unused (k : Kernel) (p : Slot) :
    Ensures (Kernel.freeproc im p) k (fun _ k' => (k'.proc p).state = .unused) fun _ => True := by
  rw [Kernel.freeproc, get_bind_iff]
  refine Ensures.trivial.bind fun _ k1 _ => Ensures.trivial.bind fun _ k2 _ => ?_
  rw [setProc_iff]
  simp only [update_self]

theorem freeproc_follows {s0 : Sys} (h : SameRest s0 s) :
    Follows Sys.kernel (freeproc im p) (Kernel.freeproc im p) s (fun _ s' => Cleared p s0 s') := by
  have hx := (onKernel_follows (Kernel.freeproc im p) s).ensures (freeproc_unused s.kernel p)
  refine Follows.tail (R := fun _ s' => SameRest s s' ∧ (s'.kernel.proc p).state = .unused) ?_
    fun _ s' ⟨hs, hu⟩ => ?_
  · exact (Ensures.and (onKernel_follows _ s) hx).mono (fun _ _ ⟨⟨hy, hr⟩, hu, _⟩ => ⟨hy, hr, hu⟩) fun _ he => he.1
  · have hs := h.trans hs
    rw [setRest_iff]
    refine ⟨rfl, rfl, hu, fun q hq => ?_, ?_, ?_⟩
    · rw [hs]
      exact update_of_ne hq _ _
    · rw [hs]
    · rw [hs]

theorem allocproc_follows (s : Sys) :
    Follows Sys.kernel (allocproc im) (Kernel.allocproc im) s (fun r s' =>
      (∀ np, r = some np → s.kernel.firstUnused = some np ∧ SameRest s s') ∧
      (r = none → s' = s ∨ ∃ np, s.kernel.firstUnused = some np ∧ Cleared np s s')) := by
  rw [allocproc, Kernel.allocproc]
  refine Follows.get_bind ?_
  change Follows Sys.kernel (match s.kernel.firstUnused with | none => _ | some p => _)
    (match s.kernel.firstUnused with | none => _ | some p => _) s _
  cases hfirst : s.kernel.firstUnused with
  | none => exact .pure ⟨by simp, fun _ => .inl rfl⟩
  | some p =>
    refine (onKernel_follows _ s).bind fun pid s1 h1 => ?_
    refine (onKernel_follows _ s1).bind fun _ s2 h2 => ?_
    refine (onKernel_follows _ s2).bind fun r s3 h3 => ?_
    cases r with
    | none =>
      refine (onKernel_follows _ s3).bind fun _ s4 h4 => ?_
      refine (freeproc_follows (((h1.trans h2).trans h3).trans h4)).bind fun _ s5 h5 => ?_
      exact .pure ⟨by simp, fun _ => .inr ⟨p, rfl, h5⟩⟩
    | some tf =>
      refine (onKernel_follows _ s3).bind fun _ s4 h4 => ?_
      refine (onKernel_follows _ s4).bind fun r s5 h5 => ?_
      have hs := (((h1.trans h2).trans h3).trans h4).trans h5
      cases r with
      | none =>
        refine (onKernel_follows _ s5).bind fun _ s6 h6 => ?_
        refine (freeproc_follows (hs.trans h6)).bind fun _ s7 h7 => ?_
        exact .pure ⟨by simp, fun _ => .inr ⟨p, rfl, h7⟩⟩
      | some root =>
        refine (onKernel_follows _ s5).bind fun _ s6 h6 => ?_
        exact .pure ⟨fun np hnp => ⟨hnp, hs.trans h6⟩, by simp⟩

/-- What the child `np` of `p` gets that is not in the kernel; `c` is the current directory of `p`. -/
structure Inherits (p np : Slot) (c : ℕ) (s s' : Sys) : Prop where
  state : (s'.kernel.proc np).state = .runnable
  cwd : (s'.rest np).cwd = some c
  name : (s'.rest np).name = safestrcpy (s.rest np).name ((s.rest p).name.slice 0 16)
  cfsPriority : (s'.rest np).cfsPriority = (s.rest p).cfsPriority
  rest : ∀ q, q ≠ np → s'.rest q = s.rest q
  inode : s'.inode = update s.inode c { s.inode c with ref := (s.inode c).ref + 1 }
  outstanding : s'.outstanding = s.outstanding

/-- **On the kernel, `fork` is `Kernel.fork`.** -/
theorem fork_follows {c : ℕ} (hp : (s.kernel.proc p).state ≠ .unused) (hc : (s.rest p).cwd = some c) :
    Follows Sys.kernel (fork im p) (Kernel.fork im p) s (fun r s' =>
      (r = -1 ∧ (s' = s ∨ ∃ np, s.kernel.firstUnused = some np ∧ Cleared np s s')) ∨
      ∃ np, s.kernel.firstUnused = some np ∧ Inherits p np c s s') := by
  rw [fork, Kernel.fork]
  refine (allocproc_follows s).bind ?_
  rintro r s1 ⟨hsome, hnone⟩
  cases r with
  | none => exact .pure (.inl ⟨rfl, hnone rfl⟩)
  | some np =>
    obtain ⟨hfirst, h1⟩ := hsome np rfl
    have hne : p ≠ np := fun he => hp (by rw [he, unused_of_firstUnused hfirst])
    refine .get_bind ((onKernel_follows _ s1).bind fun old s2 h2 => ?_)
    refine .get_bind ((onKernel_follows _ s2).bind fun new s3 h3 => ?_)
    refine .get_bind ((onKernel_follows _ s3).bind fun ok s4 h4 => ?_)
    have h4 := ((h1.trans h2).trans h3).trans h4
    cases ok with
    | false =>
      refine (freeproc_follows h4).bind fun _ s5 h5 => .pure (.inl ⟨rfl, .inr ⟨np, hfirst, h5⟩⟩)
    | true =>
      refine (onKernel_follows _ s4).bind fun _ s5 h5 => ?_
      refine .get_bind ((onKernel_follows _ s5).bind fun tf s6 h6 => ?_)
      refine .get_bind ((onKernel_follows _ s6).bind fun ntf s7 h7 => ?_)
      refine (onKernel_follows _ s7).bind fun _ s8 h8 => ?_
      refine (onKernel_follows _ s8).bind fun _ s9 h9 => ?_
      refine (onKernel_follows _ s9).bind fun _ t ht => ?_
      have ht : SameRest s t := (((((h4.trans h5).trans h6).trans h7).trans h8).trans h9).trans ht
      have hrest : t.rest = s.rest := by rw [ht]
      have hct : (t.rest p).cwd = some c := by rw [hrest, hc]
      rw [Follows]
      simp only [bind_iff, get_iff, onKernel_iff, deref_some_iff hct, idup, setInode,
        modify_iff, setRest_iff, setAccumulator, setProc_iff, pure_iff]
      refine ⟨?_, .inr ⟨np, hfirst, ?_⟩⟩
      · refine (Exec.bind_ok rfl).trans ((Exec.bind_ok (Exec.get_run _)).trans ?_)
        change Except.ok (_, _) = _
        simp only [update_self, update_idem]
      · refine ⟨?_, ?_, ?_, ?_, fun q hq => ?_, ?_, ?_⟩ <;>
          simp only [update_self, update_of_ne hne, hrest]
        · simp only [update_of_ne hq]
        · rw [ht]
        · rw [ht]

end Sys

end Xv6
