import Xv6.Proc.Conserve

/-!
# Proc/Slots — what programs do to the process table

It is said once: `OnlyPhys` if a program works on memory, `OnlyFds` on open files, `Works` on its own
entry, `Rouses` if it wakes processes and gives them a parent, `Nurses` if it sets up a new entry.
-/

namespace Xv6

open Machinery Function Ensures

/-- The panics of `file.c`. -/
def filePanics : List Panic := [.filedup, .fileclose, .fileread, .filewrite]

theorem mem_notMem_filePanics (e : KPanic) : Panic.mem e ∉ filePanics := by
  simp [filePanics]

namespace Kernel

variable {im : Image} {k k' : Kernel} {p np : Slot}

/-! ## Programs that work on memory -/

/-- Only memory has changed. -/
def OnlyPhys (k k' : Kernel) : Prop := k' = { k with phys := k'.phys }

instance reflOnlyPhys : Std.Refl OnlyPhys := ⟨fun _ => rfl⟩

instance transOnlyPhys : IsTrans Kernel OnlyPhys := ⟨fun _ _ _ h h' => h'.trans (by rw [h])⟩

/-- A program that works on memory, and does not panic over open files. -/
abbrev OnMemory {α : Type} (x : KExec α) : Prop := Respects OnlyPhys x (· ∉ filePanics)

variable {α : Type} {a b c : Proc}

theorem onPhys_frame (x : Exec KPanic Phys α) (k : Kernel) :
    Ensures (onPhys x) k (fun _ k' => ∃ σ, k' = { k with phys := σ }) (· ∉ filePanics) := by
  rw [onPhys_iff]
  cases h : x k.phys with
  | error e => exact (error_iff h).2 (mem_notMem_filePanics e)
  | ok r => exact (ok_iff h).2 ⟨r.2, rfl⟩

theorem onPhys_same (x : Exec KPanic Phys α) (k : Kernel) :
    Ensures (onPhys x) k (fun _ k' => ∃ σ, k' = { k with phys := σ }) fun _ => True :=
  (onPhys_frame x k).mono (fun _ _ h => h) fun _ _ => trivial

theorem onPhys_memory (x : Exec KPanic Phys α) : OnMemory (onPhys x) := fun k =>
  (onPhys_frame x k).imp (by rintro _ _ ⟨σ, rfl⟩; rfl)

theorem deref_memory (o : Option α) : OnMemory (deref o) := by
  cases o with
  | none => exact .throw (by decide)
  | some a => exact .pure a

theorem setTrapframe_memory (tf off v : ℕ) : OnMemory (setTrapframe tf off v) := onPhys_memory _

theorem argBuff_memory (p : Slot) (va : ℕ) (junk : Bytes 32) : OnMemory (argBuff p va junk) :=
  .get_bind fun _ => (deref_memory _).bind fun _ => (onPhys_memory _).bind fun _ => .pure _

theorem waitScan_memory (p : Slot) (root addr dst : ℕ) (pps : List Slot) (havekids : Bool) :
    OnMemory (waitScan p root addr dst pps havekids) := by
  induction pps generalizing havekids with
  | nil => exact .pure _
  | cons pp pps ih =>
    refine .get_bind fun k => .ite ?_ (ih _)
    refine (onPhys_memory _).bind fun _ => .ite (.ite ?_ (.pure _)) (ih _)
    exact (onPhys_memory _).bind fun _ => .ite (.pure _) (.pure _)

theorem fetchaddr_memory (p : Slot) (addr : ℕ) : OnMemory (fetchaddr p addr) := by
  refine .get_bind fun k => .ite (.pure _) (.get_bind fun k => (deref_memory _).bind fun root => ?_)
  refine (onPhys_memory _).bind fun r => ?_
  split
  · exact .pure _
  · exact .pure _

theorem freeArgs_memory (argv : List ℕ) : OnMemory (freeArgs im argv) := by
  induction argv with
  | nil => exact .pure _
  | cons a argv ih => exact (onPhys_memory _).bind fun _ => ih

/-! ## Programs that change no entry but its descriptors

The functions on open files, from `filealloc` up to the system calls. -/

/-- Of the process table only descriptors have changed. -/
structure OnlyFds (k k' : Kernel) : Prop where
  proc : ∀ q, ∃ o, k'.proc q = { k.proc q with ofile := o }
  nextpid : k'.nextpid = k.nextpid
  initproc : k'.initproc = k.initproc
  kernelPagetable : k'.kernelPagetable = k.kernelPagetable
  virtio : k'.virtio = k.virtio

theorem OnlyFds.of_eq (h : k'.proc = k.proc) (hn : k'.nextpid = k.nextpid)
    (hi : k'.initproc = k.initproc) (hk : k'.kernelPagetable = k.kernelPagetable)
    (hv : k'.virtio = k.virtio) : OnlyFds k k' :=
  ⟨fun q => ⟨(k.proc q).ofile, by rw [h]⟩, hn, hi, hk, hv⟩

instance : Std.Refl OnlyFds := ⟨fun _ => .of_eq rfl rfl rfl rfl rfl⟩

instance : IsTrans Kernel OnlyFds := ⟨fun _ _ _ h h' =>
  ⟨fun q => by
    obtain ⟨o, ho⟩ := h.proc q
    obtain ⟨o', ho'⟩ := h'.proc q
    exact ⟨o', by rw [ho', ho]⟩,
  h'.nextpid.trans h.nextpid, h'.initproc.trans h.initproc,
  h'.kernelPagetable.trans h.kernelPagetable, h'.virtio.trans h.virtio⟩⟩

section OnlyFds

theorem fds_of_memory {α : Type} {x : KExec α} (h : OnMemory x) : Respects OnlyFds x := fun k =>
  (h k).mono (fun _ _ hk => by rw [hk]; exact .of_eq rfl rfl rfl rfl rfl) fun _ _ => trivial

theorem onPhys_fds {α : Type} (x : Exec KPanic Phys α) : Respects OnlyFds (onPhys x) :=
  fds_of_memory (onPhys_memory x)

theorem record_fds (e : FileEvent) : Respects OnlyFds (record e) :=
  .modify fun _ => .of_eq rfl rfl rfl rfl rfl

theorem setFile_fds (i : Fin NFILE) (f : File → File) : Respects OnlyFds (setFile i f) :=
  .modify fun _ => .of_eq rfl rfl rfl rfl rfl

theorem setPipe_fds (pi : ℕ) (f : Pipe → Pipe) : Respects OnlyFds (setPipe pi f) :=
  .modify fun _ => .of_eq rfl rfl rfl rfl rfl

theorem setFd_fds (p : Slot) (f : Proc → Fin NOFILE → Option (Fin NFILE)) :
    Respects OnlyFds (setProc p fun q => { q with ofile := f q }) :=
  .modify fun k => ⟨fun q => by
    by_cases hq : q = p
    · subst hq
      exact ⟨_, update_self _ _ _⟩
    · exact ⟨(k.proc q).ofile, update_of_ne hq _ _⟩, rfl, rfl, rfl, rfl⟩

theorem deref_fds {α : Type} (o : Option α) : Respects OnlyFds (deref o) := fds_of_memory (deref_memory o)

theorem filealloc_fds : Respects OnlyFds filealloc := by
  refine .get_bind fun k => ?_
  split
  · exact .pure _
  · exact (setFile_fds _ _).bind fun _ => .pure _

theorem filedup_fds (i : Fin NFILE) : Respects OnlyFds (filedup i) :=
  .get_bind fun _ => .ite (.throw_bind trivial _) (setFile_fds _ _)

theorem pipeclose_fds (pi : ℕ) (w : Bool) : Respects OnlyFds (pipeclose im pi w) := by
  have htail : Respects OnlyFds (do
      record (.pipeclose pi w)
      let q := (← get).pipe pi
      if q.readopen = false ∧ q.writeopen = false then
        record (.pipefree pi)
        onPhys (kfree im pi)) := by
    refine (record_fds _).bind fun _ => .get_bind fun k => .ite ?_ (.pure _)
    exact (record_fds _).bind fun _ => onPhys_fds _
  rw [pipeclose]
  split_ifs
  · exact (setPipe_fds _ _).bind fun _ => htail
  · exact (setPipe_fds _ _).bind fun _ => htail

theorem fileclose_fds (i : Fin NFILE) : Respects OnlyFds (fileclose im i) := by
  refine .get_bind fun k => .ite (.throw_bind trivial _) (.ite (setFile_fds _ _) ?_)
  exact (setFile_fds _ _).bind fun _ => .ite (pipeclose_fds _ _) (.ite (record_fds _) (.pure _))

theorem pipealloc_fds : Respects OnlyFds (pipealloc im) := by
  refine filealloc_fds.bind fun r => ?_
  split
  · exact .pure _
  refine filealloc_fds.bind fun r => ?_
  split
  · exact (fileclose_fds _).bind fun _ => .pure _
  refine (onPhys_fds _).bind fun r => ?_
  split
  · exact (fileclose_fds _).bind fun _ => (fileclose_fds _).bind fun _ => .pure _
  · exact (record_fds _).bind fun _ => (setPipe_fds _ _).bind fun _ => (setFile_fds _ _).bind fun _ =>
      (setFile_fds _ _).bind fun _ => .pure _

theorem fdalloc_fds (p : Slot) (f : Fin NFILE) : Respects OnlyFds (fdalloc p f) := by
  refine .get_bind fun k => ?_
  dsimp only
  split
  · exact .pure _
  · exact (setFd_fds _ _).bind fun _ => .pure _

theorem argfd_fds (p : Slot) (fd : ℤ) : Respects OnlyFds (argfd p fd) := by
  refine .get_bind fun k => ?_
  dsimp only
  split_ifs
  · split
    · exact .pure _
    · exact .pure _
  · exact .pure _
  · exact .pure _

theorem dupFiles_fds (p np : Slot) (fds : List (Fin NOFILE)) : Respects OnlyFds (dupFiles p np fds) := by
  induction fds with
  | nil => exact .pure _
  | cons fd fds ih =>
    refine .get_bind fun k => ?_
    cases (k.proc p).ofile fd with
    | none => exact ih
    | some f => exact ((filedup_fds f).bind fun _ => setFd_fds _ _).bind fun _ => ih

theorem closeFiles_fds (p : Slot) (fds : List (Fin NOFILE)) :
    Respects OnlyFds (closeFiles im p fds) := by
  induction fds with
  | nil => exact .pure _
  | cons fd fds ih =>
    refine .get_bind fun k => ?_
    cases (k.proc p).ofile fd with
    | none => exact ih
    | some f => exact ((fileclose_fds f).bind fun _ => setFd_fds _ _).bind fun _ => ih

theorem sysDup_fds (p : Slot) (fd : ℤ) : Respects OnlyFds (sysDup p fd) := by
  refine (argfd_fds _ _).bind fun r => ?_
  split
  · exact .pure _
  refine (fdalloc_fds _ _).bind fun r => ?_
  split
  · exact .pure _
  · exact (filedup_fds _).bind fun _ => .pure _

theorem sysClose_fds (p : Slot) (fd : ℤ) : Respects OnlyFds (sysClose im p fd) := by
  refine (argfd_fds _ _).bind fun r => ?_
  split
  · exact .pure _
  · exact (setFd_fds _ _).bind fun _ => (fileclose_fds _).bind fun _ => .pure _

theorem sysOpen_fds (p : Slot) (ip : ℕ) (ty : FileType) (r w : Bool) :
    Respects OnlyFds (sysOpen im p ip ty r w) := by
  refine (record_fds _).bind fun _ => filealloc_fds.bind fun r => ?_
  split
  · exact (record_fds _).bind fun _ => .pure _
  refine (fdalloc_fds _ _).bind fun r => ?_
  split
  · exact (fileclose_fds _).bind fun _ => (record_fds _).bind fun _ => .pure _
  · exact (setFile_fds _ _).bind fun _ => .pure _

theorem fileread_fds (i : Fin NFILE) : Respects OnlyFds (fileread i) :=
  .get_bind fun _ => .ite (.pure _) (.ite (.throw trivial) (.pure _))

theorem filewrite_fds (i : Fin NFILE) : Respects OnlyFds (filewrite i) :=
  .get_bind fun _ => .ite (.pure _) (.ite (.throw trivial) (.pure _))

theorem sysRead_fds (p : Slot) (fd : ℤ) (addr : ℕ) (bs : List Byte) :
    Respects OnlyFds (sysRead p fd addr bs) := by
  refine (argfd_fds _ _).bind fun r => ?_
  split
  · exact .pure _
  refine (fileread_fds _).bind fun r => ?_
  split
  · exact .pure _
  refine .get_bind fun k => (deref_fds _).bind fun root => (onPhys_fds _).bind fun ok => ?_
  exact .ite (.pure _) (.pure _)

theorem sysWrite_fds (p : Slot) (fd n : ℤ) : Respects OnlyFds (sysWrite p fd n) := by
  refine (argfd_fds _ _).bind fun r => ?_
  split
  · exact .pure _
  refine (filewrite_fds _).bind fun r => ?_
  split
  · exact .pure _
  · exact .pure _

theorem sysPipe_fds (p : Slot) (fdarray : ℕ) : Respects OnlyFds (sysPipe im p fdarray) := by
  have hboth : ∀ rf wf : Fin NFILE, Respects OnlyFds (do
      fileclose im rf
      fileclose im wf
      return (-1 : ℤ)) := fun rf wf =>
    (fileclose_fds _).bind fun _ => (fileclose_fds _).bind fun _ => .pure _
  refine pipealloc_fds.bind fun r => ?_
  split
  · exact .pure _
  refine (fdalloc_fds _ _).bind fun r => ?_
  split
  · exact hboth _ _
  refine (fdalloc_fds _ _).bind fun r => ?_
  split
  · exact (setFd_fds _ _).bind fun _ => hboth _ _
  refine .get_bind fun k => (deref_fds _).bind fun root => (onPhys_fds _).bind fun ok => ?_
  exact .ite (.pure _) ((setFd_fds _ _).bind fun _ => hboth _ _)

theorem setTrapframe_fds (tf off v : ℕ) : Respects OnlyFds (setTrapframe tf off v) := onPhys_fds _

end OnlyFds

/-! ## What a process does to its own entry -/

/-- The entry `a` has become `b`, by what its process does in `wait`, `sbrk` and `exec`. -/
structure Worked (a b : Proc) : Prop where
  eq : b = { a with state := b.state, chan := b.chan, sz := b.sz, pagetable := b.pagetable, frame := b.frame }
  state : b.state = a.state ∨ b.state = .sleeping
  pagetable : a.pagetable ≠ none → b.pagetable ≠ none
  frame : ∀ addr dst, b.frame = .wait addr dst → dst < 256 ∨ a.frame = .wait addr dst

theorem Worked.refl (a : Proc) : Worked a a := ⟨rfl, .inl rfl, id, fun _ _ => .inr⟩

theorem Worked.trans (h : Worked a b) (h' : Worked b c) : Worked a c where
  eq := h'.eq.trans (by rw [h.eq])
  state := h'.state.elim (fun hc => by rw [hc]; exact h.state) .inr
  pagetable := h'.pagetable ∘ h.pagetable
  frame addr dst hc := (h'.frame addr dst hc).elim .inl (h.frame addr dst)

/-- Memory and the entry of `p` have changed, as `p` may change it. -/
structure Works (p : Slot) (k k' : Kernel) : Prop where
  eq : k' = k.become k'.phys p (k'.proc p)
  entry : Worked (k.proc p) (k'.proc p)

theorem works_become {q : Proc} (σ : Phys) (h : Worked (k.proc p) q) : Works p k (k.become σ p q) :=
  ⟨by simp, by simpa using h⟩

theorem Works.of_phys (h : OnlyPhys k k') : Works p k k' := by
  have hk' := works_become (p := p) k'.phys (.refl (k.proc p))
  rwa [become, update_eq_self, ← h] at hk'

instance reflWorks : Std.Refl (Works p) := ⟨fun _ => .of_phys rfl⟩

instance transWorks : IsTrans Kernel (Works p) := ⟨fun _ _ _ h h' =>
  ⟨h'.eq.trans (by rw [h.eq, become_become]), h.entry.trans h'.entry⟩⟩

theorem Works.proc_of_ne (h : Works p k k') {q : Slot} (hq : q ≠ p) : k'.proc q = k.proc q := by
  rw [h.eq, become_proc_of_ne hq]

/-- A program by which a process works on memory and on its own entry. -/
abbrev OnSelf (p : Slot) {α : Type} (x : KExec α) : Prop := Respects (Works p) x (· ∉ filePanics)

theorem self_of_memory {x : KExec α} (h : OnMemory x) : OnSelf p x := fun k =>
  (h k).imp fun _ _ => .of_phys

theorem setProc_self {f : Proc → Proc} (h : ∀ q, Worked q (f q)) : OnSelf p (setProc p f) :=
  .modify fun k => works_become k.phys (h _)

theorem setFrame_self {fr : Frame} (hf : ∀ addr dst, fr ≠ .wait addr dst) :
    OnSelf p (setProc p fun q => { q with frame := fr }) :=
  setProc_self fun _ => ⟨rfl, .inl rfl, id, fun _ _ h => absurd h (hf _ _)⟩

theorem leave_self (r : α) : OnSelf p (do
    setProc p fun q => { q with frame := .user }
    return r) :=
  (setFrame_self (by simp)).bind fun _ => .pure _

theorem waitOnce_self {addr dst : ℕ} (hd : dst < 256 ∨ (k.proc p).frame = .wait addr dst) :
    Ensures (waitOnce p addr dst) k (fun _ k' => Works p k k') (· ∉ filePanics) := by
  refine .get_bind ((deref_memory _ _).bind fun root k1 h1 => ?_)
  refine ((waitScan_memory p root addr dst _ false).after h1).bind fun r k2 h2 => ?_
  obtain ⟨r, havekids⟩ := r
  cases r with
  | some r => exact (leave_self _).after (.of_phys h2)
  | none =>
    rw [get_bind_iff]
    split_ifs
    · exact (leave_self _).after (.of_phys h2)
    · rw [bind_iff, setProc_iff, pure_iff, h2]
      refine works_become _ ⟨rfl, .inr rfl, id, fun a d h => ?_⟩
      obtain ⟨rfl, rfl⟩ := Frame.wait.inj h
      exact hd

theorem sysWait_self (addr va : ℕ) (junk : Bytes 32) : OnSelf p (sysWait p addr va junk) := fun k => by
  refine (argBuff_memory p va junk k).bind fun buff k1 h1 => ?_
  exact (waitOnce_self (.inl (buff.byteAt 0).isLt)).imp fun _ _ => IsTrans.trans _ _ _ (.of_phys h1)

theorem rewait_self : OnSelf p (rewait p) := fun k => by
  have hset : Works p k (k.become k.phys p { k.proc p with chan := none }) :=
    works_become _ ⟨rfl, .inl rfl, id, fun _ _ => .inr⟩
  rw [rewait, bind_iff, setProc_iff, get_bind_iff]
  split
  · rename_i addr dst hframe
    exact (waitOnce_self (.inr hframe)).imp fun _ _ => IsTrans.trans _ _ _ hset
  · exact .throw (by decide)

theorem growproc_self (n : ℤ) : OnSelf p (growproc im p n) := by
  have hset : ∀ sz : ℕ, OnSelf p (do
      setProc p fun q => { q with sz := sz }
      return true) := fun sz =>
    (setProc_self (by intro _; exact ⟨rfl, .inl rfl, id, fun _ _ => .inr⟩)).bind fun _ => .pure _
  refine .get_bind fun k => .get_bind fun k => (self_of_memory (deref_memory _)).bind fun root => ?_
  dsimp only
  refine .ite ((self_of_memory (onPhys_memory _)).bind fun sz => .ite (.pure _) (hset _)) (.ite ?_ (.pure _))
  exact (self_of_memory (onPhys_memory _)).bind fun sz => hset _

theorem exec_self (f : Option Reader) (argv : List ℕ) : OnSelf p (exec im p f argv) := by
  cases f with
  | none => exact .pure _
  | some f =>
    refine .get_bind fun k => (self_of_memory (deref_memory _)).bind fun tf => ?_
    refine (self_of_memory (onPhys_memory _)).bind fun r => ?_
    split
    · exact .pure _
    refine .get_bind fun k => .get_bind fun k => (self_of_memory (deref_memory _)).bind fun old => ?_
    refine (self_of_memory (setTrapframe_memory _ _ _)).bind fun _ => ?_
    refine (setProc_self (by intro _; exact ⟨rfl, .inl rfl, by simp, fun _ _ => .inr⟩)).bind fun _ => ?_
    exact self_of_memory <| (setTrapframe_memory _ _ _).bind fun _ => (setTrapframe_memory _ _ _).bind fun _ =>
      (onPhys_memory _).bind fun _ => .pure _

theorem leaveExec_self (argv : List ℕ) (r : α) : OnSelf p (do leaveExec im p argv; return r) :=
  ((self_of_memory (freeArgs_memory argv)).bind fun _ => setFrame_self (by simp)).bind fun _ => .pure _

theorem execBegin_self (path uargv : ℕ) : OnSelf p (execBegin p path uargv) := by
  refine .get_bind fun k => (self_of_memory (deref_memory _)).bind fun root => ?_
  refine (self_of_memory (onPhys_memory _)).bind fun r => .ite ?_ (.pure _)
  exact (setFrame_self (by simp)).bind fun _ => .pure _

theorem execStep_self (f : Option Reader) : OnSelf p (execStep im p f) := by
  refine .get_bind fun k => ?_
  split
  swap
  · exact .throw (by decide)
  refine .ite (leaveExec_self _ _) ((self_of_memory (fetchaddr_memory _ _)).bind fun r => ?_)
  split
  · exact leaveExec_self _ _
  · exact (exec_self f _).bind fun _ => leaveExec_self _ _
  refine (self_of_memory (onPhys_memory _)).bind fun r => ?_
  split
  · exact leaveExec_self _ _
  refine .get_bind fun k => (self_of_memory (deref_memory _)).bind fun root => ?_
  refine (self_of_memory (onPhys_memory _)).bind fun r => (self_of_memory (onPhys_memory _)).bind fun _ => ?_
  exact .ite ((setFrame_self (by simp)).bind fun _ => .pure _) (leaveExec_self _ _)

/-! ## Programs that wake processes and give them a parent -/

/-- The entry `a` has become `b`, by what `exit` of `p` does to other processes. -/
structure Roused (p : Slot) (a b : Proc) : Prop where
  eq : b = { a with parent := b.parent, state := b.state }
  parent : b.parent = a.parent ∨ a.parent = some p
  state : b.state = a.state ∨ a.state = .sleeping ∧ b.state = .runnable

/-- Processes were woken, and children of `p` have another parent. -/
def Rouses (p : Slot) (k k' : Kernel) : Prop :=
  k' = { k with proc := k'.proc } ∧ ∀ q, Roused p (k.proc q) (k'.proc q)

theorem Roused.refl (a : Proc) : Roused p a a := ⟨rfl, .inl rfl, .inl rfl⟩

theorem Roused.trans (h : Roused p a b) (h' : Roused p b c) : Roused p a c where
  eq := h'.eq.trans (by rw [h.eq])
  parent := h.parent.elim (fun he => he ▸ h'.parent) .inr
  state := by
    rcases h.state with he | ⟨ha, hb⟩
    · rw [← he]
      exact h'.state
    · exact .inr ⟨ha, h'.state.elim (·.trans hb) (·.2)⟩

instance reflRouses : Std.Refl (Rouses p) := ⟨fun _ => ⟨rfl, fun _ => .refl _⟩⟩

instance transRouses : IsTrans Kernel (Rouses p) := ⟨fun _ _ _ h h' =>
  ⟨h'.1.trans (by rw [h.1]), fun q => (h.2 q).trans (h'.2 q)⟩⟩

theorem wakeup_rouses (p : Slot) (chan : Option Slot) {E : Panic → Prop} :
    Respects (Rouses p) (wakeup p chan) E := by
  refine .modify fun k => ⟨rfl, fun q => ?_⟩
  dsimp only
  split_ifs
  · exact .refl _
  · rw [woken]
    split_ifs with h
    · exact ⟨rfl, .inl rfl, .inr ⟨h.1, rfl⟩⟩
    · exact .refl _

theorem reparentLoop_rouses (p : Slot) (pps : List Slot) {E : Panic → Prop} :
    Respects (Rouses p) (reparentLoop p pps) E := fun k => by
  induction pps generalizing k with
  | nil => exact .pure (refl k)
  | cons pp pps ih =>
    rw [reparentLoop, get_bind_iff]
    split_ifs with hpp
    · rw [get_bind_iff, bind_iff, setProc_iff]
      refine Ensures.bind ((wakeup_rouses p _).after ⟨rfl, fun q => ?_⟩) fun _ k2 h2 =>
        (ih k2).imp fun _ _ => IsTrans.trans _ _ _ h2
      by_cases hq : q = pp
      · subst hq
        simp only [update_self]
        exact ⟨rfl, .inr hpp, .inl rfl⟩
      · simpa only [update_of_ne hq] using Roused.refl _
    · exact ih k

/-! ## Programs that set up a new entry

`allocproc` chooses the entry, `fork` and `userinit` go on with it. -/

/-- Only the entry `np` has changed, and not its message; `fs` tells whether open files are as they
were. -/
structure Nurses (fs : Prop) (np : Slot) (k k' : Kernel) : Prop where
  others : ∀ q, q ≠ np → k'.proc q = k.proc q
  msg : (k'.proc np).exitMsg = (k.proc np).exitMsg
  frame : (k'.proc np).frame = (k.proc np).frame
  zombie : (k'.proc np).state = .zombie → (k.proc np).state = .zombie
  initproc : k'.initproc = none → k.initproc = none
  files : fs → k'.file = k.file ∧ k'.pipe = k.pipe ∧ k'.trace = k.trace ∧
    (k'.proc np).ofile = (k.proc np).ofile

variable {fs : Prop}

instance reflNurses : Std.Refl (Nurses fs np) :=
  ⟨fun _ => ⟨fun _ _ => rfl, rfl, rfl, id, id, fun _ => ⟨rfl, rfl, rfl, rfl⟩⟩⟩

instance transNurses : IsTrans Kernel (Nurses fs np) := ⟨fun _ _ _ h h' =>
  ⟨fun q hq => (h'.others q hq).trans (h.others q hq), h'.msg.trans h.msg, h'.frame.trans h.frame,
    h.zombie ∘ h'.zombie, h.initproc ∘ h'.initproc, fun hfs => by
      obtain ⟨hf, hp, ht, ho⟩ := h.files hfs
      obtain ⟨hf', hp', ht', ho'⟩ := h'.files hfs
      exact ⟨hf'.trans hf, hp'.trans hp, ht'.trans ht, ho'.trans ho⟩⟩⟩

section Child

variable {E : Panic → Prop}

theorem setProc_child {f : Proc → Proc} (h : ∀ q, (f q).exitMsg = q.exitMsg ∧ (f q).frame = q.frame ∧
    ((f q).state = .zombie → q.state = .zombie) ∧ (fs → (f q).ofile = q.ofile)) :
    Respects (Nurses fs np) (setProc np f) E := .modify fun k => by
  obtain ⟨hm, hf, hz, ho⟩ := h (k.proc np)
  refine ⟨fun q hq => update_of_ne hq _ _, ?_, ?_, ?_, id, fun hfs => ⟨rfl, rfl, rfl, ?_⟩⟩ <;>
    simp only [update_self]
  · exact hm
  · exact hf
  · exact hz
  · exact ho hfs

/-- Nothing has changed, or an unused entry was set up. -/
def Born (fs : Prop) (k k' : Kernel) : Prop :=
  k' = k ∨ ∃ np, (k.proc np).state = .unused ∧ Nurses fs np k k'

variable (hE : ∀ e, e ∉ filePanics → E e)

include hE

theorem child_of_memory {α : Type} {x : KExec α} (h : OnMemory x) : Respects (Nurses fs np) x E := fun k =>
  (h k).mono (fun _ _ hk => by
    rw [hk]
    exact ⟨fun _ _ => rfl, rfl, rfl, id, id, fun _ => ⟨rfl, rfl, rfl, rfl⟩⟩) hE

theorem freeproc_child : Respects (Nurses fs np) (freeproc im np) E :=
  .get_bind fun _ => (child_of_memory hE (onPhys_memory _)).bind fun _ =>
    (child_of_memory hE (onPhys_memory _)).bind fun _ =>
      setProc_child (by intro _; exact ⟨rfl, rfl, by simp, fun _ => rfl⟩)

/-- **`allocproc` sets up an unused entry**, and what follows goes on with it. -/
theorem allocproc_bind {α : Type} {f : Option Slot → KExec α} {Q : α → Kernel → Prop}
    (hnone : ∀ k', Born fs k k' → Ensures (f none) k' Q E)
    (hsome : ∀ np k', (k.proc np).state = .unused → Nurses fs np k k' → Ensures (f (some np)) k' Q E) :
    Ensures (allocproc im >>= f) k Q E := by
  rw [allocproc, bind_assoc, get_bind_iff, ← firstUnused]
  cases hfind : k.firstUnused with
  | none =>
    rw [pure_bind]
    exact hnone k (.inl rfl)
  | some np =>
    have hun := unused_of_firstUnused hfind
    have hset : ∀ {g : Proc → Proc}, (∀ q, (g q).exitMsg = q.exitMsg ∧ (g q).frame = q.frame ∧
        ((g q).state = .zombie → q.state = .zombie) ∧ (g q).ofile = q.ofile) →
        Respects (Nurses fs np) (setProc np g) E := fun hg =>
      setProc_child fun q => ⟨(hg q).1, (hg q).2.1, (hg q).2.2.1, fun _ => (hg q).2.2.2⟩
    have hgive : ∀ {k1}, Nurses fs np k k1 → Ensures (freeproc im np >>= fun _ => f none) k1 Q E := fun h =>
      ((freeproc_child hE).after h).bind fun _ k2 h2 => hnone k2 (.inr ⟨np, hun, h2⟩)
    have hpid : Respects (Nurses fs np) allocpid E := .get_bind fun _ => (Respects.modify fun k =>
      ⟨fun _ _ => rfl, rfl, rfl, id, id, fun _ => ⟨rfl, rfl, rfl, rfl⟩⟩).bind fun _ => .pure _
    simp only [bind_assoc]
    refine (hpid k).bind fun pid k1 h1 => ?_
    refine ((hset (by intro _; exact ⟨rfl, rfl, by simp, rfl⟩)).after h1).bind fun _ k2 h2 => ?_
    refine ((child_of_memory hE (onPhys_memory _)).after h2).bind fun r k3 h3 => ?_
    cases r with
    | none =>
      simp only [bind_assoc, pure_bind]
      exact ((hset (by intro _; exact ⟨rfl, rfl, id, rfl⟩)).after h3).bind fun _ _ h => hgive h
    | some tf =>
      simp only [bind_assoc]
      refine ((hset (by intro _; exact ⟨rfl, rfl, id, rfl⟩)).after h3).bind fun _ k4 h4 => ?_
      refine ((child_of_memory hE (onPhys_memory _)).after h4).bind fun r k5 h5 => ?_
      cases r with
      | none =>
        simp only [bind_assoc, pure_bind]
        exact ((hset (by intro _; exact ⟨rfl, rfl, id, rfl⟩)).after h5).bind fun _ _ h => hgive h
      | some root =>
        simp only [bind_assoc, pure_bind]
        exact ((hset (by intro _; exact ⟨rfl, rfl, id, rfl⟩)).after h5).bind fun _ _ h => hsome np _ hun h

omit hE

theorem dupFiles_child (p : Slot) (fds : List (Fin NOFILE)) :
    Respects (Nurses False np) (dupFiles p np fds) := by
  have hfile : ∀ i f, Respects (Nurses False np) (setFile i f) := fun i f =>
    .modify fun _ => ⟨fun _ _ => rfl, rfl, rfl, id, id, False.elim⟩
  induction fds with
  | nil => exact .pure _
  | cons fd fds ih =>
    refine .get_bind fun k => ?_
    cases (k.proc p).ofile fd with
    | none => exact ih
    | some f =>
      refine Respects.bind ?_ fun _ => ih
      refine Respects.bind (.get_bind fun _ => .ite (.throw_bind trivial _) (hfile _ _)) fun _ => ?_
      exact setProc_child fun _ => ⟨rfl, rfl, id, False.elim⟩

theorem fork_born (p : Slot) (k : Kernel) :
    Ensures (fork im p) k (fun _ k' => Born False k k') fun _ => True := by
  have hE : ∀ e, e ∉ filePanics → True := fun _ _ => trivial
  refine allocproc_bind hE (fun _ h => .pure h) fun np k' hun hn => ?_
  suffices h : Respects (Nurses False np) _ from (h.after hn).imp fun _ _ h => .inr ⟨np, hun, h⟩
  refine .get_bind fun k => (child_of_memory hE (deref_memory _)).bind fun old => ?_
  refine .get_bind fun k => (child_of_memory hE (deref_memory _)).bind fun new => ?_
  refine .get_bind fun k => (child_of_memory hE (onPhys_memory _)).bind fun ok => .ite ?_ ?_
  · refine (setProc_child (by intro _; exact ⟨rfl, rfl, id, False.elim⟩)).bind fun _ => ?_
    refine .get_bind fun k => (child_of_memory hE (deref_memory _)).bind fun tf => ?_
    refine .get_bind fun k => (child_of_memory hE (deref_memory _)).bind fun ntf => ?_
    refine (child_of_memory hE (onPhys_memory _)).bind fun _ => ?_
    refine (child_of_memory hE (setTrapframe_memory _ _ _)).bind fun _ => (dupFiles_child _ _).bind fun _ => ?_
    refine (setProc_child (by intro _; exact ⟨rfl, rfl, by simp, False.elim⟩)).bind fun _ => ?_
    exact .get_bind fun _ => .pure _
  · exact (freeproc_child hE).bind fun _ => .pure _

theorem userinit_born (k : Kernel) :
    Ensures (userinit im) k (fun _ k' => Born True k k') (· ∉ filePanics) := by
  refine allocproc_bind (fun _ => id) (fun k' (_ : Born True k k') => ?_) fun np k' hun hn => ?_
  · rw [bind_iff, modify_iff]
    exact .throw_bind (by decide)
  suffices h : Respects (Nurses True np) _ (· ∉ filePanics) from
    (h.after hn).imp fun _ _ h => .inr ⟨np, hun, h⟩
  have hinit : Respects (Nurses True np) (modify fun k => { k with initproc := some np } : KExec PUnit)
      (· ∉ filePanics) :=
    .modify fun _ => ⟨fun _ _ => rfl, rfl, rfl, id, by simp, fun _ => ⟨rfl, rfl, rfl, rfl⟩⟩
  refine hinit.bind fun _ => ?_
  change Respects _ (pure np >>= _) _
  rw [pure_bind]
  refine .get_bind fun k => (child_of_memory (fun _ => id) (deref_memory _)).bind fun root => ?_
  refine (child_of_memory (fun _ => id) (onPhys_memory _)).bind fun _ => ?_
  refine (setProc_child (by intro _; exact ⟨rfl, rfl, id, fun _ => rfl⟩)).bind fun _ => ?_
  refine .get_bind fun k => (child_of_memory (fun _ => id) (deref_memory _)).bind fun tf => ?_
  refine (child_of_memory (fun _ => id) (setTrapframe_memory _ _ _)).bind fun _ => ?_
  refine (child_of_memory (fun _ => id) (setTrapframe_memory _ _ _)).bind fun _ => ?_
  exact setProc_child (by intro _; exact ⟨rfl, rfl, by simp, fun _ => rfl⟩)

end Child

end Kernel

end Xv6
