import Xv6.Proc.Message

/-!
# Proc/Live — what leaves the open files alone, and who can make a system call

`LeavesFiles`: a program never touches the file table.  A system call is an instruction in a page of
its process that is open to the user.  When `userinit` loses the page of `initcode` nobody makes
one; in every other run the kernel keeps its account of pages.
-/

namespace Xv6

open Machinery Function Ensures

/-- An entry of the process table that no process has, or that is being set up. -/
def Proc.Young (q : Proc) : Prop := q.state = .unused ∨ q.state = .used

namespace Kernel

variable {im : Image} {k k' : Kernel} {p : Slot} {S : Slot → Prop}

/-! ## Programs that leave open files alone -/

/-- Files and descriptors are as they were, and processes outside `S` have not become young. -/
structure SameFiles (S : Slot → Prop) (k k' : Kernel) : Prop where
  file : k'.file = k.file
  pipe : k'.pipe = k.pipe
  trace : k'.trace = k.trace
  ofile : ∀ q, (k'.proc q).ofile = (k.proc q).ofile
  young : ∀ q, ¬ S q → (k'.proc q).Young → (k.proc q).Young
  initproc : k'.initproc = none → k.initproc = none

instance : Std.Refl (SameFiles S) := ⟨fun _ => ⟨rfl, rfl, rfl, fun _ => rfl, fun _ _ => id, id⟩⟩

instance : IsTrans Kernel (SameFiles S) := ⟨fun _ _ _ h h' =>
  ⟨h'.file.trans h.file, h'.pipe.trans h.pipe, h'.trace.trans h.trace,
    fun q => (h'.ofile q).trans (h.ofile q), fun q hq => h.young q hq ∘ h'.young q hq,
    h.initproc ∘ h'.initproc⟩⟩

/-- A program that leaves open files alone, and does not panic over them. -/
abbrev LeavesFiles (S : Slot → Prop) {α : Type} (x : KExec α) : Prop :=
  Respects (SameFiles S) x (· ∉ filePanics)

variable {x : KExec α} {α : Type}

theorem leaves_of_memory (h : OnMemory x) : LeavesFiles S x := fun k =>
  (h k).imp fun _ _ hk => by
    rw [hk]
    exact ⟨rfl, rfl, rfl, fun _ => rfl, fun _ _ => id, id⟩

theorem not_young_of_state {q : Proc} (h : q.state ≠ .unused) (h' : q.state ≠ .used) : ¬ q.Young :=
  not_or.2 ⟨h, h'⟩

theorem Works.sameFiles (h : Works p k k') : SameFiles S k k' where
  file := by rw [h.eq]; rfl
  pipe := by rw [h.eq]; rfl
  trace := by rw [h.eq]; rfl
  ofile q := by
    by_cases hq : q = p
    · subst hq
      rw [h.entry.eq]
    · rw [h.proc_of_ne hq]
  young q _ hy := by
    by_cases hq : q = p
    · subst hq
      rcases h.entry.state with hs | hs <;> rw [Proc.Young, hs] at hy
      · exact hy
      · exact absurd hy (by simp)
    · rwa [h.proc_of_ne hq] at hy
  initproc := by rw [h.eq]; exact id

theorem leaves_of_self (h : OnSelf p x) : LeavesFiles S x := fun k =>
  (h k).imp fun _ _ => Works.sameFiles

theorem Rouses.sameFiles (h : Rouses p k k') : SameFiles S k k' where
  file := by rw [h.1]
  pipe := by rw [h.1]
  trace := by rw [h.1]
  ofile q := by rw [(h.2 q).eq]
  young q _ hy := by
    rcases (h.2 q).state with hs | hs
    · rwa [Proc.Young, hs] at hy
    · rw [Proc.Young, hs.2] at hy
      exact absurd hy (by simp)
  initproc := by rw [h.1]; exact id

theorem leaves_of_rouses (h : Respects (Rouses p) x (· ∉ filePanics)) :
    LeavesFiles S x := fun k => (h k).imp fun _ _ => Rouses.sameFiles

theorem Nurses.sameFiles {np : Slot} (h : Nurses True np k k') (hS : S np) : SameFiles S k k' := by
  obtain ⟨hf, hp, ht, ho⟩ := h.files trivial
  refine ⟨hf, hp, ht, fun q => ?_, fun q hq hy => ?_, h.initproc⟩ <;> by_cases hqn : q = np
  · rw [hqn, ho]
  · rw [h.others q hqn]
  · exact absurd (hqn ▸ hS) hq
  · rwa [h.others q hqn] at hy

theorem Born.sameFiles (h : Born True k k') : SameFiles (fun q => (k.proc q).state = .unused) k k' := by
  obtain rfl | ⟨np, hun, hn⟩ := h
  · exact refl _
  · exact hn.sameFiles hun

theorem sameFiles_update {q : Proc} (ho : q.ofile = (k.proc p).ofile)
    (hy : ¬ S p → q.Young → (k.proc p).Young) :
    SameFiles S k { k with proc := update k.proc p q } where
  file := rfl
  pipe := rfl
  trace := rfl
  ofile r := by
    by_cases hr : r = p
    · subst hr
      simpa only [update_self] using ho
    · simp only [update_of_ne hr]
  young r := by
    by_cases hr : r = p
    · subst hr
      simpa only [update_self] using hy
    · simp only [update_of_ne hr]
      exact fun _ => id
  initproc := id

theorem setState_leaves {f : Proc → Proc} (ho : ∀ q, (f q).ofile = q.ofile)
    (hy : S p ∨ ∀ q, ¬ (f q).Young) : LeavesFiles S (setProc p f) :=
  .modify fun _ => sameFiles_update (ho _) fun hp hf => hy.elim (absurd · hp) fun h => absurd hf (h _)

theorem kill_leaves (pid : ℤ) : LeavesFiles S (kill pid) := fun k => by
  rw [ok_iff (kill_run k pid)]
  cases k.target pid with
  | none => exact refl k
  | some p =>
    refine sameFiles_update rfl fun _ hy => ?_
    by_cases hs : (k.proc p).state = .sleeping
    · rw [Proc.Young, marked, if_pos hs] at hy
      exact absurd hy (not_or.2 ⟨by simp, by simp⟩)
    · rwa [Proc.Young, marked, if_neg hs] at hy

theorem kvminit_leaves : LeavesFiles S (kvminit im) :=
  (leaves_of_memory (onPhys_memory _)).bind fun _ =>
    .modify fun _ => ⟨rfl, rfl, rfl, fun _ => rfl, fun _ _ => id, id⟩

theorem virtioDiskInit_leaves : LeavesFiles S virtioDiskInit := by
  have h : ∀ {α : Type} (x : Exec KPanic Phys α), LeavesFiles S (onPhys x) := fun x =>
    leaves_of_memory (onPhys_memory x)
  refine (h _).bind fun _ => (h _).bind fun _ => (h _).bind fun _ => ?_
  split
  · refine (h _).bind fun _ => (h _).bind fun _ => (h _).bind fun _ => ?_
    exact .modify fun _ => ⟨rfl, rfl, rfl, fun _ => rfl, fun _ _ => id, id⟩
  · exact .throw (by decide)

def Op.UsesFiles : Op → Prop
  | .fork _ | .exit _ _ _ _ | .exitKilled _ | .pipe _ _ | .close _ _ | .dup _ _ | .openFile _ _ _ _ _
  | .read _ _ _ _ | .write _ _ _ => True
  | _ => False

/-- **The other steps leave open files alone.** -/
theorem perform_leaves {op : Op} (hf : ¬ op.UsesFiles) :
    Ensures (perform im op) k (fun _ k' => SameFiles (fun q => (k.proc q).state = .unused) k k')
      (· ∉ filePanics) := by
  have hmap : ∀ {α : Type} {x : KExec α} (f : α → Option ℤ),
      Ensures x k (fun _ k' => SameFiles (fun q => (k.proc q).state = .unused) k k') (· ∉ filePanics) →
      Ensures (do return f (← x)) k
        (fun _ k' => SameFiles (fun q => (k.proc q).state = .unused) k k') (· ∉ filePanics) :=
    fun f hx => hx.bind fun _ _ h => .pure h
  cases op with
  | kvminit => exact hmap _ (kvminit_leaves k)
  | virtioDiskInit => exact hmap _ (virtioDiskInit_leaves k)
  | userinit => exact hmap _ ((userinit_born k).imp fun _ _ => Born.sameFiles)
  | run p | yield p =>
    refine hmap (fun _ => none) (setState_leaves (by intro _; rfl) (.inr ?_) k)
    exact fun _ => not_young_of_state nofun nofun
  | wait p addr va junk => exact leaves_of_self (sysWait_self addr va junk) k
  | rewait p => exact leaves_of_self rewait_self k
  | kill p pid => exact hmap _ (kill_leaves pid k)
  | sbrk p n => exact .get_bind (hmap _ (leaves_of_self (growproc_self n) k))
  | execBegin p path uargv => exact leaves_of_self (execBegin_self path uargv) k
  | execStep p f => exact leaves_of_self (execStep_self f) k
  | _ => exact absurd trivial hf

/-! ## The first process stays

Before `userinit` only the steps of booting are enabled; once `initproc` is set it stays so. -/

/-- `initproc` is not taken back. -/
def KeepsInit (k k' : Kernel) : Prop := k'.initproc = none → k.initproc = none

instance : Std.Refl KeepsInit := ⟨fun _ => id⟩

instance : IsTrans Kernel KeepsInit := ⟨fun _ _ _ h h' => h ∘ h'⟩

theorem Born.initproc {fs : Prop} (h : Born fs k k') : KeepsInit k k' := by
  obtain rfl | ⟨np, -, hn⟩ := h
  · exact id
  · exact hn.initproc

theorem init_of_fds (h : Respects OnlyFds x) : Respects KeepsInit x :=
  fun k => (h k).imp fun _ _ h => h.initproc.symm.trans

theorem exit_init (p : Slot) (n : ℤ) (msg : Option (Bytes 32)) : Respects KeepsInit (exit im p n msg) := by
  refine .get_bind fun k => .ite (.throw_bind trivial _) ?_
  refine (init_of_fds (closeFiles_fds p _)).bind fun _ => ?_
  have hrouse : ∀ {x : KExec Unit}, Respects (Rouses p) x → Respects KeepsInit x := fun h k =>
    (h k).imp fun _ _ h => by rw [KeepsInit, h.1]; exact id
  refine (hrouse (reparentLoop_rouses p _)).bind fun _ => .get_bind fun k => ?_
  refine (hrouse (wakeup_rouses p _)).bind fun _ => (init_of_fds (deref_fds _)).bind fun _ => ?_
  exact .modify fun _ => id

/-- **Every step keeps the first process.** -/
theorem perform_init (op : Op) : Respects KeepsInit (perform im op) := by
  by_cases hf : op.UsesFiles
  swap
  · exact fun k => (perform_leaves hf).mono (fun _ _ h => h.initproc) fun _ _ => trivial
  have hfds : ∀ {α : Type} {x : KExec α} {f : α → Option ℤ}, Respects OnlyFds x →
      Respects KeepsInit (do return f (← x)) := fun h => (init_of_fds h).bind fun _ => .pure _
  cases op with
  | fork p => exact Respects.bind (fun k => (fork_born p k).imp fun _ _ => Born.initproc) fun _ => .pure _
  | exit p n va junk =>
    exact Respects.bind ((init_of_fds (fds_of_memory (argBuff_memory p va junk))).bind fun buff => exit_init p n _)
      fun _ => .pure _
  | exitKilled p => exact (exit_init p _ _).bind fun _ => .pure _
  | pipe p fdarray => exact hfds (sysPipe_fds p fdarray)
  | close p fd => exact hfds (sysClose_fds p fd)
  | dup p fd => exact hfds (sysDup_fds p fd)
  | openFile p ip device r w => exact hfds (sysOpen_fds p ip _ r w)
  | read p fd addr bs => exact hfds (sysRead_fds p fd addr bs)
  | write p fd n => exact hfds (sysWrite_fds p fd n)
  | _ => exact absurd hf id

/-- Before `userinit` there are no processes, the disk comes after the kernel's page table, and these
two are what memory was taken for. -/
def Early (im : Image) (k : Kernel) : Prop :=
  k.initproc = none → (∀ p, k.proc p = procinit) ∧ (k.virtio ≠ [] → k.kernelPagetable ≠ none) ∧
    k.phys.freelist.length + (if k.kernelPagetable = none then 0 else 136) +
      (if k.virtio = [] then 0 else 3) = (freerange im).length

theorem early_kinit (im : Image) (mem : ℕ → Page) : Early im (kinit im mem) :=
  fun _ => ⟨fun _ => rfl, absurd rfl, rfl⟩

theorem Early.booting (h : Early im k) (hi : k.initproc = none) {op : Op} (he : k.Enabled op) :
    op = .kvminit ∨ op = .virtioDiskInit ∨ op = .userinit := by
  have hun : ∀ p, (k.proc p).state = .unused := fun p => by rw [(h hi).1 p]; rfl
  have hidle : ∀ p s, s ≠ .unused → (k.proc p).state ≠ s := fun p s hs hps => hs (hps.symm.trans (hun p))
  have huser : ∀ p, ¬ k.InUser p := fun p hp => hidle p .running nofun hp.1
  cases op with
  | kvminit => exact .inl rfl
  | virtioDiskInit => exact .inr (.inl rfl)
  | userinit => exact .inr (.inr rfl)
  | run p => exact absurd he (hidle p .runnable nofun)
  | yield p | rewait p | execStep p f => exact absurd he (hidle p .running nofun)
  | exitKilled p => exact absurd he.1 (huser p)
  | fork p | exit p n va junk | wait p addr va junk | kill p pid | sbrk p n | pipe p fdarray
  | close p fd | dup p fd | openFile p ip device r w | read p fd addr bs | write p fd n
  | execBegin p path uargv => exact absurd he (huser p)

theorem Early.step (hI : Inv im k) (h : Early im k) {l : Op × Option ℤ} (hst : (system im).step k l k') :
    Early im k' := fun hi' => by
  have hi : k.initproc = none := (perform_init l.1 k).of_ok hst.2 hi'
  obtain ⟨hproc, hord, hlen⟩ := h hi
  obtain ⟨op, r⟩ := l
  obtain rfl | rfl | rfl := h.booting hi hst.1
  · have hkpt : k.kernelPagetable = none := hst.1
    obtain ⟨-, -, -, root, σ, rfl, hroom⟩ :=
      ((kvminit_spec hI hkpt).map fun _ => (none : Option ℤ)).of_ok hst.2
    have hno : k.virtio = [] := by
      by_contra hv
      exact hord hv hkpt
    refine ⟨hproc, nofun, ?_⟩
    simp only [hkpt, hno, reduceCtorEq, if_true, if_false] at hlen ⊢
    omega
  · obtain ⟨hkpt, hno⟩ : k.kernelPagetable ≠ none ∧ k.virtio = [] := hst.1
    obtain ⟨-, -, -, σ, l, rfl, hl, hroom⟩ :=
      ((virtioDiskInit_spec hI hno).map fun _ => (none : Option ℤ)).of_ok hst.2
    refine ⟨hproc, fun _ => hkpt, ?_⟩
    simp only [hkpt, hno, hl, if_true, if_false] at hlen ⊢
    omega
  · obtain ⟨σ, np, tf, root, -, rfl, -⟩ := userinit_step hI hst
    exact absurd hi' nofun

/-! ## System calls come from user code -/

/-- The runs in which a system call comes from a process that can execute an instruction. -/
def live (im : Image) : System Kernel (Op × Option ℤ) :=
  (system im).restrict fun k l => ∀ p, l.1.caller = some p → k.HasCode p

/-- The kernel after a `userinit` that lost its page: the first process has nothing to execute. -/
structure Stuck (k : Kernel) : Prop where
  code : ∀ p, ¬ k.HasCode p
  frame : ∀ p, (k.proc p).frame = .user
  killed : ∀ p, (k.proc p).killed = false
  booted : k.kernelPagetable ≠ none ∧ k.virtio ≠ [] ∧ k.initproc ≠ none

theorem userPage_of_empty {m : ℕ → Page} {root tf : ℕ} (h : UserSpace im m root tf 0) (va : ℕ) :
    userPage m root va = none := by
  cases hn : userPage m root va with
  | none => rfl
  | some n =>
    obtain ⟨e, he, -, hlt⟩ := leaf_of_userPage h.guarded hn
    exact absurd ((h.sized _ hlt).1 (by rw [he]; nofun)) (Nat.not_lt_zero _)

theorem Early.stuck (h : Early im k) (he : k.Enabled .userinit) {σ : Phys} {np : Slot} {tf root : ℕ}
    (hu : UserSpace im σ.mem root tf 0) : Stuck (k.started σ np tf root) := by
  obtain ⟨hproc, hord, -⟩ := h he.2
  have hself := started_proc_self k σ np tf root
  have hother : ∀ p, p ≠ np → (k.started σ np tf root).proc p = procinit := fun p hp =>
    (update_of_ne hp _ _).trans (hproc p)
  refine ⟨fun p ⟨root', va, hroot, hva⟩ => ?_, fun p => ?_, fun p => ?_, hord he.1, he.1, nofun⟩
  all_goals by_cases hp : p = np
  · subst hp
    rw [hself] at hroot
    obtain rfl := Option.some.inj hroot
    exact hva (userPage_of_empty hu va)
  · rw [hother p hp] at hroot
    exact absurd hroot nofun
  · rw [hp, hself, first, hproc]
    rfl
  · rw [hother p hp]
    rfl
  · rw [hp, hself, first, hproc]
    rfl
  · rw [hother p hp]
    rfl

section Stuck

variable {op : Op} (h : Stuck k) (hc : ∀ p, op.caller = some p → k.HasCode p) (he : k.Enabled op)

include h hc he

theorem Stuck.not_usesFiles : ¬ op.UsesFiles := fun hf => by
  cases op with
  | exitKilled p => exact absurd he.2 (by rw [h.killed]; nofun)
  | fork p | exit p n va junk | pipe p fdarray | close p fd | dup p fd | openFile p ip device r w
  | read p fd addr bs | write p fd n => exact h.code p (hc p rfl)
  | _ => exact hf

/-- **Nobody makes a system call in a stuck kernel**: the scheduler runs processes, and they are
interrupted. -/
theorem Stuck.idles {r : Option ℤ} (hr : perform im op k = .ok (r, k')) :
    ∃ p s, k' = { k with proc := update k.proc p { k.proc p with state := s } } := by
  cases op with
  | kvminit => exact absurd he h.booted.1
  | virtioDiskInit => exact absurd he.2 h.booted.2.1
  | userinit => exact absurd he.2 h.booted.2.2
  | run p => exact ⟨p, .running, (Prod.mk.inj (Except.ok.inj hr)).2.symm⟩
  | yield p => exact ⟨p, .runnable, (Prod.mk.inj (Except.ok.inj hr)).2.symm⟩
  | exitKilled p => exact absurd he.2 (by rw [h.killed]; nofun)
  | rewait p =>
    have hthrow : Ensures (rewait p) k (fun _ _ => False) fun _ => True := by
      rw [rewait, bind_iff, setProc_iff, get_bind_iff]
      simp only [update_self]
      rw [h.frame p]
      exact .throw trivial
    exact (hthrow.of_ok hr).elim
  | execStep p f =>
    have hthrow : Ensures (execStep im p f) k (fun _ _ => False) fun _ => True := by
      rw [execStep, get_bind_iff, h.frame p]
      exact .throw trivial
    exact (hthrow.of_ok hr).elim
  | fork p | exit p n va junk | wait p addr va junk | kill p pid | sbrk p n | pipe p fdarray
  | close p fd | dup p fd | openFile p ip device r w | read p fd addr bs | write p fd n
  | execBegin p path uargv => exact absurd (hc p rfl) (h.code p)

end Stuck

theorem Stuck.setState (h : Stuck k) (p : Slot) (s : ProcState) :
    Stuck { k with proc := update k.proc p { k.proc p with state := s } } := by
  have hsame : ∀ q, ∃ s', update k.proc p { k.proc p with state := s } q = { k.proc q with state := s' } :=
    fun q => by
      by_cases hq : q = p
      · subst hq
        exact ⟨s, update_self _ _ _⟩
      · exact ⟨(k.proc q).state, update_of_ne hq _ _⟩
  refine ⟨fun q ⟨root, va, hroot, hva⟩ => ?_, fun q => ?_, fun q => ?_, h.booted⟩
  all_goals obtain ⟨s', hs'⟩ := hsame q
  · exact h.code q ⟨root, va, (congrArg Proc.pagetable hs').symm.trans hroot, hva⟩
  · exact (congrArg Proc.frame hs').trans (h.frame q)
  · exact (congrArg Proc.killed hs').trans (h.killed q)

/-- **In every run the kernel keeps its account of pages, or nobody makes a system call.** -/
theorem inv_or_stuck (hk : (live im).Reachable k) : (Inv im k ∧ Early im k) ∨ Stuck k := by
  refine hk.invariant (I := fun k => (Inv im k ∧ Early im k) ∨ Stuck k) (fun k hk => ?_)
    fun k l k' _ hI hst => ?_
  · obtain ⟨mem, rfl⟩ := hk
    exact .inl ⟨inv_kinit im mem, early_kinit im mem⟩
  obtain ⟨hc, hst⟩ := hst
  obtain ⟨hI, hearly⟩ | hs := hI
  · by_cases ha : k.Affords l.1
    · exact .inl ⟨(perform_keeps hI hst.1 ha).of_ok hst.2, hearly.step hI hst⟩
    -- `userinit` has lost a page
    obtain ⟨op, r⟩ := l
    cases op with
    | userinit =>
      obtain ⟨σ, np, tf, root, -, rfl, hr⟩ := userinit_step hI hst
      rw [if_pos (by simp only [Affords] at ha; tauto)] at hr
      exact .inr (hearly.stuck hst.1 hr)
    | _ => exact absurd trivial ha
  · obtain ⟨p, s, rfl⟩ := hs.idles hc hst.1 hst.2
    exact .inr (hs.setState p s)

theorem inv_of_usesFiles (hk : (live im).Reachable k) {op : Op} (he : k.Enabled op)
    (hc : ∀ p, op.caller = some p → k.HasCode p) (hf : op.UsesFiles) : Inv im k :=
  (inv_or_stuck hk).elim (·.1) fun hs => absurd hf (hs.not_usesFiles hc he)

end Kernel

end Xv6
