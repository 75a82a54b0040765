import Xv6.Proc.Steps

/-!
# Proc/Owner — who holds which page of memory

`held k` are the pages of the kernel's page table and stacks, of the disk's queues and the open
pipes, and the trapframe, tables, user pages and `sys_exec` arguments of each process, with
multiplicity.  `Inv` says that the free list and `held` together are the pages that `kinit` freed.
-/

namespace Xv6

open Machinery Function Option Multiset Finset

/-- The flag of the write end of a pipe, or of its read end. -/
def Pipe.isOpen (q : Pipe) (w : Bool) : Bool := if w then q.writeopen else q.readopen

def Pipe.shut (q : Pipe) (w : Bool) : Pipe :=
  if w then { q with writeopen := false } else { q with readopen := false }

@[simp] theorem Pipe.isOpen_shut_self (q : Pipe) (w : Bool) : (q.shut w).isOpen w = false := by
  cases w <;> rfl

theorem Pipe.isOpen_shut_of_ne (q : Pipe) {w w' : Bool} (h : w ≠ w') :
    (q.shut w').isOpen w = q.isOpen w := by
  cases w <;> cases w' <;> first | rfl | exact absurd rfl h

namespace Kernel

variable (im : Image) (k : Kernel)

/-! ## Owners -/

/-- The tables of the kernel's page table, and the kernel stacks. -/
def kernelPages : Multiset ℕ := k.kernelPagetable.elim 0 fun r =>
  tabs k.phys.mem r + ∑ p : Slot, pageOf (leaf k.phys.mem r (KSTACK p / PGSIZE))

/-- The pages of a process: its trapframe, its page table with its user pages, its `argv`. -/
def procPages (m : ℕ → Page) (q : Proc) : Multiset ℕ :=
  q.trapframe.elim 0 (fun tf => {tf}) + q.pagetable.elim 0 (owned m USERTOP) + q.frame.pages

def pipeEnds (file : Fin NFILE → File) : Finset (Fin NFILE) :=
  Finset.univ.filter fun i => (file i).type = .pipe

def pipePages (file : Fin NFILE → File) : Multiset ℕ :=
  ((pipeEnds file).image fun i => (file i).pipe).val

def held : Multiset ℕ :=
  k.kernelPages + k.virtio + pipePages k.file + ∑ p : Slot, procPages k.phys.mem (k.proc p)

/-! ## The invariant -/

/-- A process has an address space of its size, or none; an unused one holds nothing. -/
structure ProcOk (m : ℕ → Page) (q : Proc) : Prop where
  space : ∀ root, q.pagetable = some root →
    ∃ tf, q.trapframe = some tf ∧ UserSpace im m root tf (npages q.sz)
  bare : q.pagetable = none → q.sz = 0
  unused : q.state = .unused → q.trapframe = none ∧ q.pagetable = none ∧ q.frame.pages = []

/-- A pipe is open at an end iff some file is that end, and then one file is. -/
structure FilesOk (file : Fin NFILE → File) (pipe : ℕ → Pipe) : Prop where
  unref : ∀ i, (file i).ref = 0 → (file i).type = .none
  unique : ∀ i ∈ pipeEnds file, ∀ j ∈ pipeEnds file, (file i).pipe = (file j).pipe →
    (file i).writable = (file j).writable → i = j
  opened : ∀ i ∈ pipeEnds file, (pipe (file i).pipe).isOpen (file i).writable = true
  ends : ∀ i ∈ pipeEnds file, ∀ w, (pipe (file i).pipe).isOpen w = true →
    ∃ j ∈ pipeEnds file, (file j).pipe = (file i).pipe ∧ (file j).writable = w

/-- **Every page that `kinit` freed is free or has one owner.** -/
structure Inv : Prop where
  pages : (k.phys.freelist : Multiset ℕ) + k.held = freerange im
  sound : k.phys.sound = true
  kernel : ∀ r, k.kernelPagetable = some r → Radix.Proper 512 (nodes k.phys.mem) 2 r
  procs : ∀ p, ProcOk im k.phys.mem (k.proc p)
  files : FilesOk k.file k.pipe

variable {im k} {k' : Kernel} {p : Slot}

/-! ## The pool -/

theorem mem_freerange {n : ℕ} : n ∈ freerange im ↔ InPool im n := by
  have h1 := im.end_le
  unfold freerange InPool pgRoundUp
  rw [List.mem_reverse, List.mem_range'_1]
  unfold PHYSTOP KERNBASE PGSIZE at *
  omega

theorem nodup_freerange (im : Image) : (freerange im).Nodup := by
  rw [freerange, List.nodup_reverse]
  exact List.nodup_range'

theorem Inv.nodup (h : Inv im k) : ((k.phys.freelist : Multiset ℕ) + k.held).Nodup := by
  rw [h.pages]
  exact coe_nodup.2 (nodup_freerange im)

theorem Inv.nodup_free (h : Inv im k) : k.phys.freelist.Nodup :=
  coe_nodup.1 (nodup_add.1 h.nodup).1

theorem Inv.pool (h : Inv im k) : ∀ x ∈ (k.phys.freelist : Multiset ℕ) + k.held, InPool im x := by
  rw [h.pages]
  exact fun x hx => mem_freerange.1 (mem_coe.1 hx)

theorem Inv.stock (h : Inv im k) {inn rest : Multiset ℕ} (he : k.held = inn + rest) :
    Stock im (inn + rest) k.phys :=
  ⟨by rw [← he]; exact h.nodup, by rw [← he]; exact h.pool⟩

/-! ## A step of one process -/

/-- What of a process other processes do not touch. -/
structure SameMem (q q' : Proc) : Prop where
  trapframe : q'.trapframe = q.trapframe
  pagetable : q'.pagetable = q.pagetable
  sz : q'.sz = q.sz
  frame : q'.frame.pages = q.frame.pages
  state : q'.state = .unused → q.state = .unused

theorem SameMem.refl (q : Proc) : SameMem q q := ⟨rfl, rfl, rfl, rfl, id⟩

/-- Everything but the memory of `p` is as it was. -/
structure Elsewhere (p : Slot) (k k' : Kernel) : Prop where
  proc : ∀ q, q ≠ p → SameMem (k.proc q) (k'.proc q)
  file : k'.file = k.file
  pipe : k'.pipe = k.pipe
  kernelPagetable : k'.kernelPagetable = k.kernelPagetable
  virtio : k'.virtio = k.virtio

/-- The pages that do not belong to `p`. -/
def others (k : Kernel) (p : Slot) : Multiset ℕ :=
  k.kernelPages + k.virtio + pipePages k.file + ∑ q ∈ Finset.univ.erase p, procPages k.phys.mem (k.proc q)

theorem held_eq (k : Kernel) (p : Slot) :
    k.held = procPages k.phys.mem (k.proc p) + k.others p := by
  rw [held, others, ← add_sum_erase _ _ (mem_univ p), add_left_comm]

variable {q q' : Proc} {root r : ℕ} {m m' : ℕ → Page}

theorem owned_le_procPages (m : ℕ → Page) (h : q.pagetable = some root) :
    owned m USERTOP root ≤ procPages m q := by
  rw [procPages, h, elim_some, add_right_comm]
  exact le_add_left _ _

theorem tabs_le_procPages (m : ℕ → Page) (h : q.pagetable = some root) : tabs m root ≤ procPages m q :=
  (le_add_right _ _).trans (owned_le_procPages m h)

theorem procPages_le_others {q : Slot} (hq : q ≠ p) :
    procPages k.phys.mem (k.proc q) ≤ k.others p := by
  have hm : q ∈ Finset.univ.erase p := mem_erase.2 ⟨hq, mem_univ q⟩
  rw [others, ← add_sum_erase _ _ hm, add_left_comm]
  exact le_add_right _ _

theorem tabs_le_kernelPages (h : k.kernelPagetable = some r) : tabs k.phys.mem r ≤ k.kernelPages := by
  rw [kernelPages, h, elim_some]
  exact le_add_right _ _

theorem procPages_congr (hs : SameMem q q')
    (ht : ∀ root, q.pagetable = some root → SameTable root m m') : procPages m' q' = procPages m q := by
  rw [procPages, procPages, hs.trapframe, hs.pagetable, hs.frame]
  cases hp : q.pagetable with
  | none => rw [elim_none, elim_none]
  | some root => rw [elim_some, elim_some, (ht root hp).owned]

theorem ProcOk.congr (h : ProcOk im m q) (hs : SameMem q q')
    (ht : ∀ root, q.pagetable = some root → SameTable root m m') : ProcOk im m' q' where
  space root hr := by
    rw [hs.pagetable] at hr
    obtain ⟨tf, htf, hu⟩ := h.space root hr
    exact ⟨tf, by rw [hs.trapframe, htf], by rw [hs.sz]; exact hu.congr (ht root hr)⟩
  bare hn := by
    rw [hs.pagetable] at hn
    rw [hs.sz, h.bare hn]
  unused hu := by
    rw [hs.trapframe, hs.pagetable, hs.frame]
    exact h.unused (hs.state hu)

theorem kernelPages_congr (hk : k'.kernelPagetable = k.kernelPagetable)
    (ht : ∀ r, k.kernelPagetable = some r → SameTable r k.phys.mem k'.phys.mem) :
    k'.kernelPages = k.kernelPages := by
  rw [kernelPages, kernelPages, hk]
  cases hr : k.kernelPagetable with
  | none => rw [elim_none, elim_none]
  | some r =>
    rw [elim_some, elim_some, (ht r hr).tabs]
    refine congrArg _ (sum_congr rfl fun p _ => ?_)
    rw [(ht r hr).leaf]

/-- **A step that exchanges pages between the free list and one process keeps the invariant.** -/
theorem Inv.step (h : Inv im k) (he : Elsewhere p k k')
    (hm : Moved k.phys k'.phys (procPages k.phys.mem (k.proc p))
      (procPages k'.phys.mem (k'.proc p)))
    (hok : ProcOk im k'.phys.mem (k'.proc p)) : Inv im k' := by
  have hst := h.stock (held_eq k p)
  have hnd := hst.nodup
  rw [← add_assoc] at hnd
  have hkern : ∀ r, k.kernelPagetable = some r → SameTable r k.phys.mem k'.phys.mem := fun r hr =>
    hm.sameTable hnd ((tabs_le_kernelPages hr).trans (by
      rw [others, add_assoc, add_assoc]
      exact le_add_right _ _))
  have hproc : ∀ q, q ≠ p → ∀ root, (k.proc q).pagetable = some root →
      SameTable root k.phys.mem k'.phys.mem := fun q hq root hr =>
    hm.sameTable hnd ((tabs_le_procPages _ hr).trans (procPages_le_others hq))
  have hothers : k'.others p = k.others p := by
    rw [others, others, kernelPages_congr he.kernelPagetable hkern, he.virtio, he.file]
    refine congrArg _ (sum_congr rfl fun q hq => ?_)
    obtain ⟨hq, -⟩ := mem_erase.1 hq
    exact procPages_congr (he.proc q hq) (hproc q hq)
  refine ⟨?_, hm.sound.trans h.sound, fun r hr => ?_, fun q => ?_, ?_⟩
  · rw [held_eq k' p, hothers, ← add_assoc, hm.account, add_assoc, ← held_eq, h.pages]
  · rw [he.kernelPagetable] at hr
    exact (hkern r hr).proper (h.kernel r hr)
  · by_cases hq : q = p
    · rw [hq]
      exact hok
    · exact (h.procs q).congr (he.proc q hq) (hproc q hq)
  · rw [he.file, he.pipe]
    exact h.files

/-- **A step that exchanges pages between the free list and the pipes keeps the invariant.** -/
theorem Inv.step_files (h : Inv im k)
    (hm : Moved k.phys k'.phys (pipePages k.file) (pipePages k'.file))
    (hproc : ∀ q, SameMem (k.proc q) (k'.proc q)) (hfiles : FilesOk k'.file k'.pipe)
    (hkern : k'.kernelPagetable = k.kernelPagetable) (hvirtio : k'.virtio = k.virtio) :
    Inv im k' := by
  set rest : Multiset ℕ :=
    k.kernelPages + k.virtio + ∑ q : Slot, procPages k.phys.mem (k.proc q) with hrest
  have hheld : k.held = pipePages k.file + rest := by
    rw [held, hrest]
    abel
  have hnd := (h.stock hheld).nodup
  rw [← add_assoc] at hnd
  have hkern' : ∀ r, k.kernelPagetable = some r → SameTable r k.phys.mem k'.phys.mem := fun r hr =>
    hm.sameTable hnd ((tabs_le_kernelPages hr).trans (by
      rw [hrest, add_assoc]
      exact le_add_right _ _))
  have hproc' : ∀ q root, (k.proc q).pagetable = some root →
      SameTable root k.phys.mem k'.phys.mem := fun q root hr => by
    refine hm.sameTable hnd ((tabs_le_procPages _ hr).trans ?_)
    rw [hrest]
    exact (single_le_sum (fun _ _ => zero_le _) (mem_univ q)).trans
      (le_add_left _ _)
  have hheld' : k'.held = pipePages k'.file + rest := by
    rw [held, kernelPages_congr hkern hkern', hvirtio, hrest]
    rw [sum_congr rfl fun q _ => procPages_congr (hproc q) (hproc' q)]
    abel
  refine ⟨?_, hm.sound.trans h.sound, fun r hr => ?_, fun q => ?_, hfiles⟩
  · rw [hheld', ← add_assoc, hm.account, add_assoc, ← hheld, h.pages]
  · rw [hkern] at hr
    exact (hkern' r hr).proper (h.kernel r hr)
  · exact (h.procs q).congr (hproc q) (hproc' q)

theorem Inv.sameTable_of_taken (h : Inv im k) {σ : Phys} {out : Multiset ℕ}
    (hm : Moved k.phys σ 0 out) (ht : tabs k.phys.mem root ≤ k.held) :
    SameTable root k.phys.mem σ.mem :=
  hm.sameTable (by rw [add_zero]; exact h.nodup) ht

theorem tabs_le_held (h : (k.proc p).pagetable = some root) : tabs k.phys.mem root ≤ k.held := by
  rw [held_eq k p]
  exact (tabs_le_procPages _ h).trans (le_add_right _ _)

theorem Inv.step_kvm (h : Inv im k) (hk : k.kernelPagetable = none) {σ : Phys}
    (hm : Moved k.phys σ 0 (tabs σ.mem r + ∑ p : Slot, pageOf (leaf σ.mem r (KSTACK p / PGSIZE))))
    (hp : Radix.Proper 512 (nodes σ.mem) 2 r) :
    Inv im { k with phys := σ, kernelPagetable := some r } := by
  have hsame := fun p root (hr : (k.proc p).pagetable = some root) =>
    h.sameTable_of_taken hm (tabs_le_held hr)
  refine ⟨?_, hm.sound.trans h.sound, fun r' hr' => Option.some.inj hr' ▸ hp,
    fun p => (h.procs p).congr (.refl _) (hsame p), h.files⟩
  rw [← h.pages, held, held, sum_congr rfl fun p _ => procPages_congr (.refl _) (hsame p),
    kernelPages, kernelPages, hk, elim_none, elim_some, zero_add, ← add_zero
    (k.phys.freelist : Multiset ℕ), ← hm.account]
  abel

theorem Inv.step_virtio (h : Inv im k) (hv : k.virtio = []) {σ : Phys} {l : List ℕ}
    (hm : Moved k.phys σ 0 l) : Inv im { k with phys := σ, virtio := l } := by
  have hsame := fun p root (hr : (k.proc p).pagetable = some root) =>
    h.sameTable_of_taken hm (tabs_le_held hr)
  have hkern : ∀ r, k.kernelPagetable = some r → SameTable r k.phys.mem σ.mem := fun r hr =>
    h.sameTable_of_taken hm ((tabs_le_kernelPages hr).trans (by
      rw [held, add_assoc, add_assoc]
      exact le_add_right _ _))
  have hkp : kernelPages { k with phys := σ, virtio := l } = k.kernelPages :=
    kernelPages_congr rfl hkern
  refine ⟨?_, hm.sound.trans h.sound, fun r hr => (hkern r hr).proper (h.kernel r hr),
    fun p => (h.procs p).congr (.refl _) (hsame p), h.files⟩
  rw [← h.pages, held, held, sum_congr rfl fun p _ => procPages_congr (.refl _) (hsame p),
    hkp, hv, ← add_zero (k.phys.freelist : Multiset ℕ), ← hm.account, coe_nil]
  abel

theorem Inv.same (h : Inv im k) (hphys : k'.phys = k.phys)
    (hproc : ∀ q, SameMem (k.proc q) (k'.proc q)) (hfile : k'.file = k.file)
    (hpipe : k'.pipe = k.pipe) (hkern : k'.kernelPagetable = k.kernelPagetable)
    (hvirtio : k'.virtio = k.virtio) : Inv im k' :=
  h.step_files (by rw [hphys, hfile]; exact .refl _ _) hproc (by rw [hfile, hpipe]; exact h.files)
    hkern hvirtio

end Kernel

end Xv6
