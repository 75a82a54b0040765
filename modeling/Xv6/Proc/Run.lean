import Xv6.Proc.Boot
import Xv6.Proc.Fork
import Xv6.Proc.Tidy

/-!
# Proc/Run — the account of pages, in every run

As long as `userinit` does not start with exactly five or six free pages, every step keeps `Inv`.
-/

namespace Xv6

open Machinery Function Option

namespace Kernel

variable {im : Image} {k k' : Kernel} {p : Slot}

/-! ## Every step keeps the account -/

/-- There is the memory for the page of `initcode`, or none for anything before it. -/
def Affords (k : Kernel) : Op → Prop
  | .userinit => k.phys.freelist.length ≠ 5 ∧ k.phys.freelist.length ≠ 6
  | _ => True

theorem Keeps.map {α β : Type} {x : KExec α} (h : Keeps im x k) (f : α → β) :
    Keeps im (do return f (← x)) k :=
  h.bind fun _ _ h' => .pure h' _

theorem userinit_keeps (h : Inv im k) (ha : k.Affords .userinit) : Keeps im (userinit im) k := by
  refine (userinit_spec h).mono (fun _ k' hr => ?_) fun e he => he.1
  obtain ⟨σ, np, tf, root, -, rfl, hr⟩ := hr
  rw [if_neg (not_or.2 ha)] at hr
  exact hr.1

/-- **Every step keeps the account of pages.** -/
theorem perform_keeps (h : Inv im k) {op : Op} (he : k.Enabled op) (ha : k.Affords op) :
    Keeps im (perform im op) k := by
  have hframe : ∀ {p : Slot}, k.InUser p → (k.proc p).frame.pages = [] := fun hp => by
    rw [hp.2]
    rfl
  have hstate : ∀ {p : Slot}, (k.proc p).state = .running → (k.proc p).state ≠ .unused := fun hp => by
    rw [hp]
    nofun
  cases op with
  | kvminit =>
    exact Keeps.map ((kvminit_spec h he).mono (fun _ _ hr => hr.1) fun _ hp => hp.1) fun _ => none
  | virtioDiskInit =>
    exact Keeps.map ((virtioDiskInit_spec h he.2).mono (fun _ _ hr => hr.1) fun _ hp => hp.1)
      fun _ => none
  | userinit => exact (userinit_keeps h ha).map fun _ => none
  | run p =>
    exact Keeps.map (setProc_keeps (f := fun q => { q with state := .running }) h
      ⟨rfl, rfl, rfl, rfl, nofun⟩) fun _ => none
  | yield p =>
    exact Keeps.map (setProc_keeps (f := fun q => { q with state := .runnable }) h
      ⟨rfl, rfl, rfl, rfl, nofun⟩) fun _ => none
  | fork p => exact (fork_keeps h (hstate he.1)).map some
  | exit p n va junk => exact (sysExit_keeps h p n va junk).map fun _ => none
  | exitKilled p => exact (exit_keeps h p (-1) none).map fun _ => none
  | wait p addr va junk => exact sysWait_keeps h (hframe he) addr va junk
  | rewait p => exact rewait_keeps h p
  | kill p pid => exact (kill_keeps h pid).map fun r => some (if r then 0 else -1)
  | sbrk p n => exact .of_get ((growproc_keeps h p n).map _)
  | pipe p fdarray => exact (sysPipe_keeps h p fdarray).map some
  | close p fd => exact (sysClose_keeps h p fd).map some
  | dup p fd => exact (sysDup_keeps h p fd).map some
  | openFile p ip device r w =>
    exact (sysOpen_keeps h p ip (by cases device <;> nofun) r w).map some
  | read p fd addr bs => exact (sysRead_keeps h p fd addr bs).map some
  | write p fd n => exact (sysWrite_keeps h p fd n).map some
  | execBegin p path uargv => exact execBegin_keeps h (hframe he) path uargv
  | execStep p f => exact execStep_keeps h (hstate he) f

theorem inv_kinit (im : Image) (mem : ℕ → Page) : Inv im (kinit im mem) where
  pages := by
    have hpipes : pipePages (kinit im mem).file = 0 := by
      rw [pipePages, pipeEnds, Finset.filter_false_of_mem fun i _ => by rintro ⟨⟩, Finset.image_empty,
        Finset.empty_val]
    have hprocs : ∑ p : Slot, procPages (kinit im mem).phys.mem ((kinit im mem).proc p) = 0 :=
      Finset.sum_eq_zero fun p _ => (⟨rfl, rfl, rfl, rfl⟩ : Empty procinit).procPages _
    have hkern : (kinit im mem).kernelPages = 0 := rfl
    have hvirtio : ((kinit im mem).virtio : Multiset ℕ) = 0 := rfl
    rw [held, hpipes, hprocs, hkern, hvirtio, add_zero, add_zero, add_zero, add_zero]
    rfl
  sound := rfl
  kernel := by rintro _ ⟨⟩
  procs p := (⟨rfl, rfl, rfl, rfl⟩ : Empty procinit).procOk _
  files := by
    have hends : ∀ i, i ∉ pipeEnds (kinit im mem).file := fun i hi =>
      absurd (Finset.mem_filter.1 hi).2 (by rintro ⟨⟩)
    exact ⟨fun _ _ => rfl, fun i hi => absurd hi (hends i), fun i hi => absurd hi (hends i),
      fun i hi => absurd hi (hends i)⟩

/-- The runs in which `userinit` finds memory. -/
def bootable (im : Image) : System Kernel (Op × Option ℤ) :=
  (system im).restrict fun k l => k.Affords l.1

theorem Inv.of_reachable (h : (bootable im).Reachable k) : Inv im k := by
  refine h.invariant (fun k hk => ?_) fun k l k' _ hI hst => ?_
  · obtain ⟨mem, rfl⟩ := hk
    exact inv_kinit im mem
  · exact (perform_keeps hI hst.2.1 hst.1).of_ok hst.2.2

theorem userinit_step (h : Inv im k) {r : Option ℤ} (hst : (system im).step k (.userinit, r) k') :
    ∃ σ np tf root, k.firstUnused = some np ∧ k' = k.started σ np tf root ∧
      if k.phys.freelist.length = 5 ∨ k.phys.freelist.length = 6 then
        UserSpace im σ.mem root tf 0
      else Inv im (k.started σ np tf root) ∧ σ.freelist.length + 7 = k.phys.freelist.length ∧
        userPage σ.mem root 0 ≠ none := by
  obtain ⟨u, -, hr⟩ := ((userinit_spec h).map fun _ => (none : Option ℤ)).of_ok hst.2
  exact hr

/-! ## Booting -/

theorem length_freerange (im : Image) :
    (freerange im).length = PHYSTOP / PGSIZE - pgRoundUp im.endAddr / PGSIZE := by
  rw [freerange, List.length_reverse, List.length_range']

/-- The kernel before `userinit`. -/
def booted (im : Image) (mem : ℕ → Page) (σ : Phys) (r : ℕ) (l : List ℕ) : Kernel :=
  { kinit im mem with phys := σ, kernelPagetable := some r, virtio := l }

/-- A condition on steps that a kernel with memory meets while it boots. -/
structure Lenient (C : Kernel → Op × Option ℤ → Prop) : Prop where
  kvminit : ∀ k, C k (.kvminit, none)
  virtio : ∀ k, C k (.virtioDiskInit, none)
  userinit : ∀ k, k.Affords .userinit → C k (.userinit, none)
  run : ∀ k p, C k (.run p, none)

variable {C : Kernel → Op × Option ℤ → Prop}

/-- The process that makes a system call. -/
def Op.caller : Op → Option Slot
  | .fork p | .exit p _ _ _ | .wait p _ _ _ | .kill p _ | .sbrk p _ | .pipe p _ | .close p _
  | .dup p _ | .openFile p _ _ _ _ | .read p _ _ _ | .write p _ _ | .execBegin p _ _ => some p
  | _ => none

/-- `p` has a page that is open to the user. -/
def HasCode (k : Kernel) (p : Slot) : Prop :=
  ∃ root va, (k.proc p).pagetable = some root ∧ userPage k.phys.mem root va ≠ none

/-- A condition that steps meet if there is memory and their process can execute an instruction. -/
def Permits (C : Kernel → Op × Option ℤ → Prop) : Prop :=
  ∀ k l, k.Affords l.1 → (∀ p, l.1.caller = some p → k.HasCode p) → C k l

theorem Permits.lenient (h : Permits C) : Lenient C :=
  ⟨fun k => h k _ trivial nofun, fun k => h k _ trivial nofun, fun k ha => h k _ ha nofun,
    fun k _ => h k _ trivial nofun⟩

theorem permits_affords : Permits fun k l => k.Affords l.1 := fun _ _ h _ => h

theorem lenient_affords : Lenient fun k l => k.Affords l.1 := permits_affords.lenient

theorem reachable_perform (op : Op) {r : Option ℤ} (hC : C k (op, r))
    (hk : ((system im).restrict C).Reachable k) (hI : Inv im k) (he : k.Enabled op) (ha : k.Affords op)
    (hrun : perform im op k = .ok (r, k')) : ((system im).restrict C).Reachable k' ∧ Inv im k' :=
  ⟨hk.step (l := (op, r)) ⟨hC, he, hrun⟩, (perform_keeps hI he ha).of_ok hrun⟩

/-- **With 139 pages the kernel comes as far as `userinit`.** -/
theorem exists_booted (im : Image) (hC : Lenient C) (mem : ℕ → Page) (h : 139 ≤ (freerange im).length) :
    ∃ σ r l, l ≠ [] ∧ σ.freelist.length + 139 = (freerange im).length ∧
      Inv im (booted im mem σ r l) ∧ ((system im).restrict C).Reachable (booted im mem σ r l) := by
  have h0 : ((system im).restrict C).Reachable (kinit im mem) := .init ⟨mem, rfl⟩
  have hlen : (kinit im mem).phys.freelist.length = (freerange im).length := rfl
  obtain ⟨u, k1, hrun1, hI1, r, σ1, rfl, hlen1⟩ :=
    (kvminit_spec (inv_kinit im mem) rfl).exists_ok fun e he => by omega
  have h₁ := h0.step (l := (Op.kvminit, none)) ⟨hC.kvminit _, rfl, Exec.bind_ok hrun1⟩
  obtain ⟨u, k2, hrun2, hI2, σ2, l, rfl, hl, hlen2⟩ :=
    (virtioDiskInit_spec hI1 rfl).exists_ok fun e he => by
      have h1 : σ1.freelist.length < 3 := he.2
      omega
  have h2 := h₁.step (l := (Op.virtioDiskInit, none))
    ⟨hC.virtio _, ⟨nofun, rfl⟩, Exec.bind_ok hrun2⟩
  have hlen2' : σ2.freelist.length + 3 = σ1.freelist.length := hlen2
  exact ⟨σ2, r, l, hl, by omega, hI2, h2⟩

theorem firstUnused_booted (mem : ℕ → Page) (σ : Phys) (r : ℕ) (l : List ℕ) :
    (booted im mem σ r l).firstUnused = some ⟨0, by decide⟩ := rfl

/-- **With 144 pages the kernel comes as far as its first process.** -/
theorem exists_userinit (im : Image) (hC : Lenient C) (h : 144 ≤ (freerange im).length) :
    ∃ k k', ((system im).restrict C).Reachable k ∧ Inv im k ∧
      (system im).step k (.userinit, none) k' ∧
      k.phys.freelist.length + 139 = (freerange im).length ∧ k.proc = (fun _ => procinit) ∧
      k.nextpid = 1 ∧ ∀ i, (k.file i).ref = 0 := by
  obtain ⟨σ, r, l, hl, hroom, hI, hk⟩ := exists_booted im hC (fun _ => .fill PGSIZE 0) (by omega)
  obtain ⟨u, k', hrun, -⟩ := (userinit_spec hI).exists_ok fun e he => by
    obtain ⟨-, he | he⟩ := he
    · rw [firstUnused_booted] at he
      exact absurd he nofun
    · exact absurd he (by change ¬ σ.freelist.length < 5; omega)
  exact ⟨_, k', hk, hI, ⟨⟨hl, rfl⟩, Exec.bind_ok hrun⟩, hroom, rfl, rfl, fun _ => rfl⟩

/-- An image that leaves `n` pages. -/
def imageOf (n : ℕ) (h : n < 0x8000) : Image where
  etext := KERNBASE + PGSIZE
  endAddr := PHYSTOP - n * PGSIZE
  trampoline := KERNBASE / PGSIZE
  etext_ge := Image.one_page_ge
  etext_le := by
    unfold PHYSTOP KERNBASE PGSIZE
    omega
  end_le := Nat.sub_le _ _
  etext_aligned := Image.one_page_aligned
  trampoline_lt := Image.one_page_trampoline

variable {n root tf : ℕ}

theorem length_freerange_imageOf (h : n < 0x8000) : (freerange (imageOf n h)).length = n := by
  rw [length_freerange]
  unfold imageOf pgRoundUp PHYSTOP KERNBASE PGSIZE
  simp only
  omega

def roomyImage : Image := imageOf 1000 (by norm_num)

theorem exists_roomy_userinit (hC : Lenient C) :
    ∃ k k', ((system roomyImage).restrict C).Reachable k ∧ Inv roomyImage k ∧
      (system roomyImage).step k (.userinit, none) k' ∧ k.phys.freelist.length = 861 ∧
      k.proc = (fun _ => procinit) ∧ k.nextpid = 1 ∧ ∀ i, (k.file i).ref = 0 := by
  have hlen : (freerange roomyImage).length = 1000 := length_freerange_imageOf _
  obtain ⟨k, k', hk, hI, hst, hroom, hproc⟩ := exists_userinit roomyImage hC (by omega)
  exact ⟨k, k', hk, hI, hst, by omega, hproc⟩

def initSlot : Slot := ⟨0, NPROC_pos⟩

def secondSlot : Slot := ⟨1, one_lt_NPROC⟩

def initRunning (tf root : ℕ) : Proc :=
  { procinit with
    pid := 1, state := .running, trapframe := some tf, pagetable := some root, sz := PGSIZE }

/-- A kernel in which the first process runs, alone. -/
structure InitRuns (tf root : ℕ) (k : Kernel) : Prop where
  inv : Inv roomyImage k
  proc : k.proc = update (fun _ => procinit) initSlot (initRunning tf root)
  initproc : k.initproc = some initSlot
  nextpid : k.nextpid = 2
  room : k.phys.freelist.length = 854
  file : ∀ i, (k.file i).ref = 0
  code : userPage k.phys.mem root 0 ≠ none

namespace InitRuns

variable (h : InitRuns tf root k)
include h

theorem proc_init : k.proc initSlot = initRunning tf root := by rw [h.proc, update_self]

theorem inUser : k.InUser initSlot := by
  rw [InUser, h.proc_init]
  exact ⟨rfl, rfl⟩

theorem pagetable : (k.proc initSlot).pagetable = some root := by
  rw [h.proc_init]
  rfl

theorem sz : (k.proc initSlot).sz = PGSIZE := by
  rw [h.proc_init]
  rfl

theorem hasCode : k.HasCode initSlot := ⟨root, 0, h.pagetable, h.code⟩

end InitRuns

theorem exists_initRuns (hC : Lenient C) :
    ∃ k tf root, ((system roomyImage).restrict C).Reachable k ∧ InitRuns tf root k := by
  obtain ⟨k, k', hk, hI, hst, hlen, hproc, hpid, hfile⟩ := exists_roomy_userinit hC
  have ha : k.Affords .userinit := by
    rw [Affords, hlen]
    decide
  have hk' := hk.step (l := (Op.userinit, none)) ⟨hC.userinit k ha, hst⟩
  obtain ⟨σ, np, tf, root, hfirst, rfl, hr⟩ := userinit_step hI hst
  rw [hlen, if_neg (by norm_num)] at hr
  have hnp : np = initSlot := by
    rw [firstUnused, hproc] at hfirst
    exact (some.inj hfirst).symm
  subst hnp
  have hself := started_proc_self k σ initSlot tf root
  set k1 := k.started σ initSlot tf root with hk1
  have hstep : (system roomyImage).step k1 (.run initSlot, none) { k1 with
      proc := update k1.proc initSlot { k1.proc initSlot with state := .running } } :=
    ⟨by rw [Enabled, hself]; rfl, rfl⟩
  refine ⟨_, tf, root, hk'.step (l := (Op.run initSlot, none)) ⟨hC.run _ _, hstep⟩, ?_, ?_, rfl, ?_, ?_, hfile,
    hr.2.2⟩
  · exact (perform_keeps hr.1 hstep.1 trivial).of_ok hstep.2
  · simp only [hself]
    simp only [hk1, started, first, hproc, hpid, update_idem]
    rfl
  · change (k.nextpid + 1).bmod (2 ^ 32) = 2
    rw [hpid]
    decide
  · change σ.freelist.length = 854
    omega

end Kernel

end Xv6
