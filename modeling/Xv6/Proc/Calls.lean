import Xv6.Proc.Files
import Xv6.Proc.Args

/-!
# Proc/Calls — every system call keeps the account of pages
-/

namespace Xv6

open Machinery Function Ensures

namespace Kernel

variable {im : Image} {k : Kernel} {p : Slot}

/-! ## Stores into the pages of a process -/

theorem become_proc (k : Kernel) (σ : Phys) (p : Slot) :
    k.become σ p (k.proc p) = { k with phys := σ } := by
  rw [become, update_eq_self]

variable {root tf uargv : ℕ} {σ : Phys} {argv : List ℕ}

theorem Inv.stored (h : Inv im k) (hr : (k.proc p).pagetable = some root)
    (hs : Stored root k.phys σ) : Inv im { k with phys := σ } := by
  have hsp := h.space hr
  have hsame := hs.sameTable hsp
  obtain ⟨tf, -, hu⟩ := (h.procs p).space root hr
  have hu' := hu.congr hsame
  rw [← become_proc k σ p]
  exact h.resize hr (hs.kept hsp) (show SameOutside 0 root _ _ from ⟨fun w _ _ => hsame.leaf w, nofun⟩)
    hu'.sized hu'.le

theorem copyout_keeps (h : Inv im k) (hr : (k.proc p).pagetable = some root) (dst : ℕ)
    (src : List Byte) : Ensures (onPhys (copyout root dst src)) k
      (fun _ k' => Inv im k' ∧ ∃ σ, k' = { k with phys := σ }) := by
  obtain ⟨tf, -, hu⟩ := (h.procs p).space root hr
  refine onPhys_total (copyout_spec (h.space hr) hu.guarded) fun _ σ hs => ?_
  exact ⟨h.stored hr hs, σ, rfl⟩

theorem Inv.put_trapframe (h : Inv im k) (htf : (k.proc p).trapframe = some tf) (b : Page) :
    Inv im { k with phys := k.phys.put tf b } := by
  have hpages : ∀ m, procPages m (k.proc p) = {tf} +
      ((k.proc p).pagetable.elim 0 (owned m USERTOP) + (k.proc p).frame.pages) := fun m => by
    rw [procPages, htf, Option.elim_some, add_assoc]
  have hst := h.stock (held_eq k p)
  have hsame : ∀ root, (k.proc p).pagetable = some root →
      SameTable root k.phys.mem (k.phys.put tf b).mem := fun root hr => by
    refine (Moved.put k.phys tf b).sameTable ?_ (r := (k.proc p).pagetable.elim 0
      (owned k.phys.mem USERTOP) + (k.proc p).frame.pages + k.others p) ?_
    · have hnd := hst.nodup
      rwa [hpages, add_assoc, ← add_assoc] at hnd
    · rw [hr, Option.elim_some, owned, add_assoc, add_assoc]
      exact Multiset.le_add_right _ _
  rw [← become_proc k _ p]
  refine h.become ?_ ((h.procs p).congr (.refl _) hsame)
  rw [procPages_congr (.refl _) hsame, hpages]
  exact (Moved.put k.phys tf b).add_rest _

/-! ## `fork` -/

theorem dupFile_keeps (h : Inv im k) (np : Slot) (fd : Fin NOFILE) (o : Option (Fin NFILE)) :
    Keeps im (dupFile np fd o) k := by
  cases o with
  | none => exact .pure h _
  | some f =>
    exact (filedup_keeps h f).bind fun _ k' h' => setProc_keeps h' ⟨rfl, rfl, rfl, rfl, id⟩

theorem dupFiles_keeps (h : Inv im k) (p np : Slot) (fds : List (Fin NOFILE)) :
    Keeps im (dupFiles p np fds) k := by
  induction fds generalizing k with
  | nil => exact .pure h _
  | cons fd fds ih =>
    rw [dupFiles]
    exact .of_get ((dupFile_keeps h np fd _).bind fun _ k' h' => ih h')

theorem Inv.readable (h : Inv im k) (hr : (k.proc p).pagetable = some root) :
    Readable k.phys.mem root (npages (k.proc p).sz) := by
  obtain ⟨tf, -, hu⟩ := (h.procs p).space root hr
  intro w hw
  obtain ⟨e, he⟩ := Option.ne_none_iff_exists'.1 ((hu.sized w (hw.trans_le hu.le)).2 hw)
  exact ⟨e, he, (h.space hr).mod_four he⟩

/-! ## `exit`, `wait` and `kill` -/

theorem closeFile_keeps (h : Inv im k) (p : Slot) (fd : Fin NOFILE) (o : Option (Fin NFILE)) :
    Keeps im (closeFile im p fd o) k := by
  cases o with
  | none => exact .pure h _
  | some f =>
    exact (fileclose_keeps h f).bind fun _ k' h' => setProc_keeps h' ⟨rfl, rfl, rfl, rfl, id⟩

theorem closeFiles_keeps (h : Inv im k) (p : Slot) (fds : List (Fin NOFILE)) :
    Keeps im (closeFiles im p fds) k := by
  induction fds generalizing k with
  | nil => exact .pure h _
  | cons fd fds ih =>
    rw [closeFiles]
    exact .of_get ((closeFile_keeps h p fd _).bind fun _ k' h' => ih h')

theorem sameMem_woken (chan : Option Slot) (q : Proc) : SameMem q (woken chan q) := by
  unfold woken
  split_ifs
  · exact ⟨rfl, rfl, rfl, rfl, nofun⟩
  · exact .refl q

theorem wakeup_keeps (h : Inv im k) (p : Slot) (chan : Option Slot) :
    Keeps im (wakeup p chan) k := by
  rw [Keeps, wakeup, modify_iff]
  refine h.same rfl (fun q => ?_) rfl rfl rfl rfl
  simp only
  split_ifs
  · exact .refl _
  · exact sameMem_woken chan _

theorem reparentLoop_keeps (h : Inv im k) (p : Slot) (pps : List Slot) :
    Keeps im (reparentLoop p pps) k := by
  induction pps generalizing k with
  | nil => exact .pure h _
  | cons pp pps ih =>
    rw [reparentLoop]
    refine .of_get ?_
    split_ifs
    · refine .of_get (Keeps.bind (setProc_keeps h ⟨rfl, rfl, rfl, rfl, id⟩) fun _ k1 h1 => ?_)
      exact (wakeup_keeps h1 p _).bind fun _ k2 h2 => ih h2
    · exact ih h

theorem deref_keeps {α : Type} (h : Inv im k) (o : Option α) : Keeps im (deref o) k :=
  deref_iff.2 fun _ _ => h

theorem exit_keeps (h : Inv im k) (p : Slot) (status : ℤ) (msg : Option (Bytes 32)) :
    Keeps im (exit im p status msg) k := by
  rw [exit]
  refine .of_get ?_
  split_ifs
  · exact .throw trivial
  · refine (closeFiles_keeps h p _).bind fun _ k1 h1 => ?_
    refine (reparentLoop_keeps h1 p _).bind fun _ k2 h2 => .of_get ?_
    refine (wakeup_keeps h2 p _).bind fun _ k3 h3 => ?_
    exact (deref_keeps h3 msg).bind fun _ k4 h4 => setProc_keeps h4 ⟨rfl, rfl, rfl, rfl, nofun⟩

/-- `argstr` does not change the state. -/
theorem argBuff_spec (p : Slot) (va : ℕ) (junk : Bytes 32) :
    Ensures (argBuff p va junk) k (fun _ k' => k' = k) Panic.Expected := by
  rw [argBuff, bind_iff, get_iff, bind_iff, deref_iff]
  intro root _
  rw [bind_iff]
  refine onPhys_total copyinstr_spec fun _ σ hσ => .pure ?_
  rw [hσ]

section

variable (h : Inv im k)
include h

theorem sysExit_keeps (p : Slot) (n : ℤ) (va : ℕ) (junk : Bytes 32) :
    Keeps im (sysExit im p n va junk) k := by
  rw [sysExit]
  exact (argBuff_spec p va junk).bind fun buff k1 he => by
    rw [he]
    exact exit_keeps h p n _

theorem waitScan_spec (hr : (k.proc p).pagetable = some root)
    (addr dst : ℕ) (pps : List Slot) (havekids : Bool) :
    Ensures (waitScan p root addr dst pps havekids) k
      (fun _ k' => Inv im k' ∧ k'.proc = k.proc) := by
  induction pps generalizing k havekids with
  | nil => exact .pure ⟨h, rfl⟩
  | cons pp pps ih =>
    rw [waitScan, bind_iff, get_iff]
    simp only
    split_ifs with hchild hzombie haddr
    · refine (copyout_keeps h hr dst _).bind fun _ k1 ⟨h1, σ₁, hk1⟩ => ?_
      refine (copyout_keeps (p := p) h1 (by rw [hk1]; exact hr) addr _).bind
        fun ok k2 ⟨h2, σ₂, hk2⟩ => ?_
      have hproc : k2.proc = k.proc := by rw [hk2, hk1]
      cases ok <;> exact .pure ⟨h2, hproc⟩
    · refine (copyout_keeps h hr dst _).bind fun _ k1 ⟨h1, σ₁, hk1⟩ => ?_
      exact .pure ⟨h1, by rw [hk1]⟩
    · refine (copyout_keeps h hr dst _).bind fun _ k1 ⟨h1, σ₁, hk1⟩ => ?_
      have hproc : k1.proc = k.proc := by rw [hk1]
      rw [← hproc]
      exact ih h1 (by rw [hproc]; exact hr) true
    · exact ih h hr havekids

theorem waitOnce_keeps (hf : (k.proc p).frame.pages = []) (addr dst : ℕ) :
    Keeps im (waitOnce p addr dst) k := by
  rw [Keeps, waitOnce, bind_iff, get_iff, bind_iff, deref_iff]
  intro root hr
  refine ((waitScan_spec h hr addr dst _ false).total).bind ?_
  rintro r k1 ⟨h1, hproc⟩
  have hf1 : [] = (k1.proc p).frame.pages := by rw [hproc, hf]
  obtain ⟨r, havekids⟩ := r
  cases r with
  | some r => exact Keeps.bind (setProc_keeps h1 ⟨rfl, rfl, rfl, hf1, id⟩) fun _ _ h2 => .pure h2 _
  | none =>
    simp only
    refine Keeps.of_get ?_
    split_ifs
    · exact Keeps.bind (setProc_keeps h1 ⟨rfl, rfl, rfl, hf1, id⟩) fun _ _ h2 => .pure h2 _
    · exact Keeps.bind (setProc_keeps h1 ⟨rfl, rfl, rfl, hf1, by simp⟩) fun _ _ h2 => .pure h2 _

theorem sysWait_keeps (hf : (k.proc p).frame.pages = []) (addr va : ℕ)
    (junk : Bytes 32) : Keeps im (sysWait p addr va junk) k := by
  rw [Keeps, sysWait]
  exact (argBuff_spec p va junk).bind fun buff k1 he => by
    rw [he]
    exact waitOnce_keeps h hf addr _

theorem rewait_keeps (p : Slot) : Keeps im (rewait p) k := by
  rw [Keeps, rewait, bind_iff, setProc_iff, bind_iff, get_iff]
  have h1 : Inv im { k with proc := update k.proc p { k.proc p with chan := none } } :=
    h.setProc ⟨rfl, rfl, rfl, rfl, id⟩
  split
  · rename_i addr dst hframe
    exact waitOnce_keeps h1 (by rw [hframe]; rfl) addr dst
  · exact .throw trivial

theorem kill_keeps (pid : ℤ) : Keeps im (kill pid) k := by
  rw [kill]
  refine .of_get ?_
  split
  · exact .pure h _
  · rename_i p _
    refine Keeps.bind (setProc_keeps h ⟨rfl, rfl, rfl, rfl, fun hu => ?_⟩) fun _ _ h1 => .pure h1 _
    simp only at hu
    split_ifs at hu
    exact hu

/-! ## `sys_pipe` -/

theorem closeBoth_keeps (rf wf : Fin NFILE) (r : ℤ) :
    Keeps im (do fileclose im rf; fileclose im wf; return r) k :=
  (fileclose_keeps h rf).bind fun _ _ h1 => (fileclose_keeps h1 wf).bind fun _ _ h2 => .pure h2 _

theorem copyoutBoth_keeps (hr : (k.proc p).pagetable = some root)
    (dst dst' : ℕ) (src src' : List Byte) : Keeps im (onPhys do
      if ← copyout root dst src then copyout root dst' src' else return false) k := by
  obtain ⟨tf, -, hu⟩ := (h.procs p).space root hr
  have hsp := h.space hr
  rw [Keeps, onPhys_iff]
  refine ((copyout_spec hsp hu.guarded).total).bind
    fun ok σ hs => ?_
  cases ok with
  | false => exact .pure (h.stored hr hs)
  | true =>
    have hsp' := hsp.of_kept (hs.kept hsp)
    refine (copyout_spec hsp' (hu.guarded.congr (hs.sameTable hsp))).mono (fun _ σ' hs' => ?_)
      fun _ hf => hf.elim
    exact h.stored hr (hs.trans hs' hsp)

theorem sysPipe_keeps (p : Slot) (fdarray : ℕ) : Keeps im (sysPipe im p fdarray) k := by
  rw [sysPipe]
  refine (pipealloc_keeps h).bind fun r k1 h1 => ?_
  split
  · exact .pure h1 _
  rename_i rf wf
  refine (fdalloc_keeps h1 p rf).bind fun r k2 h2 => ?_
  split
  · exact closeBoth_keeps h2 rf wf _
  refine (fdalloc_keeps h2 p wf).bind fun r k3 h3 => ?_
  split
  · exact Keeps.bind (setProc_keeps h3 ⟨rfl, rfl, rfl, rfl, id⟩) fun _ _ h4 =>
      closeBoth_keeps h4 rf wf _
  rw [Keeps, bind_iff, get_iff, bind_iff, deref_iff]
  intro root hr
  refine (copyoutBoth_keeps h3 hr _ _ _ _).bind fun ok k4 h4 => ?_
  split_ifs
  · exact .pure h4 _
  · exact Keeps.bind (setProc_keeps h4 ⟨rfl, rfl, rfl, rfl, id⟩) fun _ _ h5 =>
      closeBoth_keeps h5 rf wf _

/-! ## `sys_read` and `sys_write` -/

theorem fileread_keeps (i : Fin NFILE) : Keeps im (fileread i) k := by
  rw [fileread]
  refine .of_get ?_
  simp only
  split_ifs
  · exact .pure h _
  · exact .throw trivial
  · exact .pure h _

theorem filewrite_keeps (i : Fin NFILE) : Keeps im (filewrite i) k := by
  rw [filewrite]
  refine .of_get ?_
  simp only
  split_ifs
  · exact .pure h _
  · exact .throw trivial
  · exact .pure h _

theorem sysRead_keeps (p : Slot) (fd : ℤ) (addr : ℕ) (bs : List Byte) :
    Keeps im (sysRead p fd addr bs) k := by
  rw [sysRead]
  refine (argfd_keeps h p fd).bind fun r k1 h1 => ?_
  split
  · exact .pure h1 _
  refine (fileread_keeps h1 _).bind fun r k2 h2 => ?_
  split
  · exact .pure h2 _
  rw [Keeps, bind_iff, get_iff, bind_iff, deref_iff]
  intro root hr
  refine Keeps.bind (.of_ensures (copyout_keeps h2 hr addr bs) fun _ _ hr => hr.1) fun ok k3 h3 => ?_
  split_ifs <;> exact .pure h3 _

theorem sysWrite_keeps (p : Slot) (fd n : ℤ) : Keeps im (sysWrite p fd n) k := by
  rw [sysWrite]
  refine (argfd_keeps h p fd).bind fun r k1 h1 => ?_
  split
  · exact .pure h1 _
  refine (filewrite_keeps h1 _).bind fun r k2 h2 => ?_
  split <;> exact .pure h2 _

end

/-! ## `sys_exec` -/

theorem Inv.of_moved (h : Inv im k) (hm : Moved k.phys σ 0 0) : Inv im { k with phys := σ } := by
  refine h.step_files ?_ (fun _ => .refl _) h.files rfl rfl
  have hr := hm.add_rest (pipePages k.file)
  rwa [zero_add] at hr

theorem Inv.trapframe_lt (h : Inv im k) (htf : (k.proc p).trapframe = some tf) : tf < 2 ^ 52 := by
  refine (h.pool tf ?_).lt
  rw [held_eq k p, procPages, htf]
  simp

/-- The registers that `exec` sets in the trapframe `b`. -/
def execRegs (l : Loaded) (b : Page) : Page :=
  ((b.putLE tfA1 8 l.sp).putLE tfEpc 8 l.entry).putLE tfSp 8 l.sp

/-- `exec` has committed to `l`, built in `σ₁`, and has freed the memory `old` of `p`. -/
structure Committed (im : Image) (k : Kernel) (p : Slot) (tf old : ℕ) (l : Loaded) (σ₁ : Phys) (k' : Kernel) :
    Prop where
  eq : ∃ σ₂, k' = k.become σ₂ p { k.proc p with pagetable := some l.pagetable, sz := l.sz } ∧
    Moved σ₁ σ₂ ({tf} + owned k.phys.mem USERTOP old) {tf} ∧ SameTable l.pagetable σ₁.mem σ₂.mem ∧
    (∀ x ∈ owned σ₁.mem USERTOP l.pagetable, σ₂.mem x = σ₁.mem x) ∧
    σ₂.mem tf = execRegs l (k.phys.mem tf)
  inv : Inv im k'

/-- **`exec` exchanges the memory of a process for another, or takes nothing.** -/
theorem exec_some (h : Inv im k) {old : ℕ} (htf : (k.proc p).trapframe = some tf)
    (hold : (k.proc p).pagetable = some old) (f : Reader) (argv : List ℕ) :
    Ensures (exec im p (some f) argv) k
      (fun r k' => ∃ o σ₁, execLoad im f tf argv k.phys = .ok (o, σ₁) ∧
        (o = none → r = -1 ∧ k' = { k with phys := σ₁ } ∧ Moved k.phys σ₁ 0 0) ∧
        ∀ l, o = some l → r = l.argc ∧ Committed im k p tf old l σ₁ k') := by
  have hst := h.stock (zero_add _).symm
  have htf52 := h.trapframe_lt htf
  obtain ⟨o, σ₁, hrun, hnone, hsome⟩ :=
    (execLoad_spec htf52 hst : Ensures (execLoad im f tf argv) k.phys _ _).exists_ok
  rw [exec]
  simp only
  rw [get_bind_iff, bind_iff, deref_some_iff htf, bind_iff, onPhys_iff, ok_iff hrun]
  cases o with
  | none => exact .pure ⟨none, σ₁, hrun, fun _ => ⟨rfl, rfl, (hnone rfl).1⟩, by simp⟩
  | some l =>
    have hbuilt := hsome l rfl
    have hm1 := hbuilt.moved
    simp only
    rw [get_bind_iff, get_bind_iff, bind_iff, deref_some_iff hold]
    rw [← become_proc k σ₁ p, bind_iff, setTrapframe, onPhys_become_iff, modify_iff, bind_iff,
      setProc_become_iff, bind_iff, setTrapframe, onPhys_become_iff, modify_iff, bind_iff,
      setTrapframe, onPhys_become_iff, modify_iff, bind_iff]
    simp only [Phys.put_put, become_proc_self]
    obtain ⟨tf', htf', hu⟩ := (h.procs p).space old hold
    obtain rfl := Option.some.inj (htf.symm.trans htf')
    set fr : Multiset ℕ := ((k.proc p).frame.pages : Multiset ℕ)
    have hpages : procPages k.phys.mem (k.proc p) = {tf} + owned k.phys.mem USERTOP old + fr := by
      rw [procPages, htf, hold, Option.elim_some, Option.elim_some]
    -- the old table, with the new one built
    have hst1 := hst.of_moved hm1
    have hsame : SameTable old k.phys.mem σ₁.mem := by
      refine hm1.sameTable (r := k.held) (by rw [add_assoc]; exact hst.nodup) ?_
      exact (tabs_le_procPages _ hold).trans (by rw [held_eq k p]; exact Multiset.le_add_right _ _)
    have hregs : σ₁.mem tf = k.phys.mem tf := by
      have hx : tf ∈ k.held := by
        rw [held_eq k p, hpages]
        simp
      exact hm1.frame tf (fun hf => Multiset.disjoint_left.1 (Multiset.nodup_add.1 hst.nodup).2.2 hf
        (by simpa using hx)) (Multiset.notMem_zero tf)
    have he : owned σ₁.mem USERTOP l.pagetable + k.held = {tf} + (owned σ₁.mem USERTOP old +
        (owned σ₁.mem USERTOP l.pagetable + (fr + k.others p))) := by
      rw [held_eq k p, hpages, hsame.owned]
      abel
    rw [he] at hst1
    refine onPhys_become (freeOld_spec hst1 (hu.congr hsame)) ?_
    rintro _ σ₂ ⟨hm2, hnew, htf2⟩
    rw [hsame.owned] at hm2
    have hmoved := ((hm1.add_rest ({tf} + owned k.phys.mem USERTOP old + fr)).trans
      ((hm2.add_rest (owned σ₁.mem USERTOP l.pagetable + fr)).congr
        (by abel) rfl)).congr (zero_add _)
        (show _ = {tf} + owned σ₂.mem USERTOP l.pagetable + fr by rw [hnew.owned, add_assoc])
    refine .pure ⟨some l, σ₁, hrun, by simp, fun l' hl' => ?_⟩
    obtain rfl := Option.some.inj hl'
    refine ⟨rfl, ⟨σ₂, rfl, hm2, hnew, fun x hx => ?_, ?_⟩,
      h.become ?_ ⟨fun root hroot => ?_, by simp, fun hun => ?_⟩⟩
    · have hnd := hst1.nodup
      rw [← add_assoc ({tf} : Multiset ℕ), hsame.owned] at hnd
      refine hm2.frame x (fun hf => ?_) fun hi => ?_
      · exact Multiset.disjoint_left.1 (Multiset.nodup_add.1 hnd).2.2 hf (by simp [hx])
      · exact Multiset.disjoint_left.1 (Multiset.nodup_add.1 (Multiset.nodup_add.1 hnd).2.1).2.2 hi
          (by simp [hx])
    · rw [htf2, execRegs]
      simp only [Phys.put, update_self, hregs]
    · rw [hpages, procPages, htf, Option.elim_some, Option.elim_some]
      exact hmoved
    · obtain rfl := Option.some.inj hroot
      exact ⟨tf, htf, hbuilt.space.congr hnew⟩
    · exact absurd (htf.symm.trans ((h.procs p).unused hun).1) (by simp)

variable {old : ℕ}

/-- `exec` fails and has handed back what it took, or exchanges the memory of the process. -/
inductive Outcome (k : Kernel) (p : Slot) (tf old : ℕ) : ℤ → Kernel → Prop
  | fail (σ : Phys) : Moved k.phys σ 0 0 → Outcome k p tf old (-1) { k with phys := σ }
  | done (n : ℤ) (root sz : ℕ) (σ : Phys) : n ≠ -1 →
      Moved k.phys σ ({tf} + owned k.phys.mem USERTOP old) ({tf} + owned σ.mem USERTOP root) →
      owned k.phys.mem USERTOP old ≤ σ.freelist →
      Outcome k p tf old n (k.become σ p { k.proc p with pagetable := some root, sz := sz })

theorem exec_outcome (h : Inv im k) (htf : (k.proc p).trapframe = some tf) (hold : (k.proc p).pagetable = some old)
    (f : Option Reader) (argv : List ℕ) :
    Ensures (exec im p f argv) k (fun r k' => Outcome k p tf old r k' ∧ Inv im k') := by
  cases f with
  | none => exact .pure ⟨.fail k.phys (.refl _ _), h⟩
  | some f =>
    refine (exec_some h htf hold f argv).imp fun r k' ⟨o, σ₁, hrun, hnone, hsome⟩ => ?_
    cases o with
    | none =>
      obtain ⟨rfl, rfl, hm⟩ := hnone rfl
      exact ⟨.fail σ₁ hm, h.of_moved hm⟩
    | some l =>
      obtain ⟨rfl, ⟨σ₂, rfl, hm2, hsame, -⟩, hI⟩ := hsome l rfl
      have hm1 := (((execLoad_spec (h.trapframe_lt htf) (h.stock (zero_add _).symm)).of_ok hrun).2 l rfl).moved
      refine ⟨.done _ l.pagetable l.sz σ₂ (by omega) ?_ ?_, hI⟩
      · rw [hsame.owned]
        refine ((hm1.add_rest ({tf} + owned k.phys.mem USERTOP old)).congr (zero_add _) (add_comm _ _)).trans ?_
        exact hm2.add_rest _
      · have hacc := hm2.account
        rw [add_comm, add_left_comm, add_left_cancel_iff] at hacc
        rw [hacc]
        exact Multiset.le_add_left _ _

theorem execBegin_keeps (h : Inv im k) (hf : (k.proc p).frame.pages = []) (path uargv : ℕ) :
    Keeps im (execBegin p path uargv) k := by
  rw [Keeps, execBegin, bind_iff, get_iff, bind_iff, deref_iff]
  intro root _
  rw [bind_iff]
  refine onPhys_total copyinstr_spec fun r σ hσ => ?_
  rw [hσ]
  split_ifs
  · exact Keeps.bind (setProc_keeps h ⟨rfl, rfl, rfl, hf.symm, id⟩) fun _ _ h1 => .pure h1 _
  · exact Keeps.pure h _

theorem freeArgs_spec {rest : Multiset ℕ} (h : Stock im (argv + rest) k.phys) :
    Ensures (freeArgs im argv) k
      (fun _ k' => ∃ σ, k' = { k with phys := σ } ∧ Moved k.phys σ argv 0) := by
  induction argv generalizing k with
  | nil => exact .pure ⟨k.phys, rfl, .refl _ _⟩
  | cons a argv ih =>
    have hcons : ((a :: argv : List ℕ) : Multiset ℕ) = {a} + argv := rfl
    rw [hcons, add_assoc] at h
    have hfree : a ∉ k.phys.freelist := fun hf =>
      Multiset.disjoint_left.1 (Multiset.nodup_add.1 h.nodup).2.2 hf (by simp)
    rw [freeArgs, bind_iff, onPhys_iff, ok_iff (kfree_run_given (h.pool a (by simp)) k.phys)]
    have hm := moved_given hfree
    have hst := h.of_moved hm
    rw [zero_add] at hst
    refine (ih (k := { k with phys := given k.phys a }) hst).imp ?_
    rintro _ k' ⟨σ, hk', hm'⟩
    refine ⟨σ, hk', ?_⟩
    have hm1 := hm.add_rest (argv : Multiset ℕ)
    rw [zero_add] at hm1
    rw [hcons]
    exact hm1.trans hm'

/-- **`sys_exec` frees the pages of its arguments on the way out**, also one not in its frame
yet. -/
theorem leaveExec_spec {q : Proc} (h : Inv im (k.become σ p { q with frame := .exec uargv argv })) :
    Ensures (leaveExec im p argv) (k.become σ p q)
      (fun _ k' => Inv im k' ∧ ∃ σ', k' = k.become σ' p { q with frame := .user } ∧ Moved σ σ' argv 0 ∧
        ∀ root, q.pagetable = some root → SameTable root σ.mem σ'.mem) := by
  have hpages : ∀ (m : ℕ → Page) (fr : Frame), procPages m { q with frame := fr } =
      (fr.pages : Multiset ℕ) + (q.trapframe.elim 0 (fun tf => {tf}) +
        q.pagetable.elim 0 (owned m USERTOP)) := fun m fr => by
    rw [procPages, add_comm]
  have hst := h.stock (held_eq _ p)
  rw [become_proc_self, hpages, add_assoc] at hst
  rw [leaveExec]
  refine (freeArgs_spec (k := k.become σ p q) hst).bind ?_
  rintro _ _ ⟨σ', rfl, hm⟩
  change Ensures _ (k.become σ' p q) _ _
  rw [setProc_become_iff]
  have hok := h.procOk_of
  have hsame : ∀ root, q.pagetable = some root → SameTable root σ.mem σ'.mem := fun root hr => by
    refine hm.sameTable (by rw [add_assoc]; exact hst.nodup) ?_
    rw [hr, Option.elim_some, owned, add_comm (q.trapframe.elim _ _), add_assoc, add_assoc]
    exact Multiset.le_add_right _ _
  refine ⟨?_, σ', rfl, hm, hsame⟩
  rw [← become_become σ σ' { q with frame := .exec uargv argv }]
  refine h.become ?_ ⟨fun root hr => ?_, fun hn => hok.bare hn, fun hu => ?_⟩
  · rw [become_proc_self, hpages, hpages, become_phys, elim_owned_congr hsame]
    exact hm.add_rest _
  · obtain ⟨tf, htf, hu⟩ := hok.space root hr
    exact ⟨tf, htf, hu.congr (hsame root hr)⟩
  · obtain ⟨htf, hpt, -⟩ := hok.unused hu
    exact ⟨htf, hpt, rfl⟩

theorem Inv.pushArg (h : Inv im k) (hp : (k.proc p).state ≠ .unused) {a : ℕ}
    {fl : List ℕ} (hf : (k.proc p).frame = .exec uargv argv) (hfl : k.phys.freelist = a :: fl) (b : Page) :
    Inv im (k.become (taken k.phys a b fl) p
      { k.proc p with frame := .exec uargv (argv ++ [a]) }) := by
  have hok := h.procs p
  have hm := moved_taken h.nodup_free hfl b
  have hsame : ∀ root, (k.proc p).pagetable = some root →
      SameTable root k.phys.mem (taken k.phys a b fl).mem := fun root hr =>
    ((h.space hr).taken hfl b).1
  refine h.become ?_ ⟨fun root hr => ?_, hok.bare, fun hu => absurd hu hp⟩
  · have hpages : procPages (taken k.phys a b fl).mem
        { k.proc p with frame := .exec uargv (argv ++ [a]) } =
        {a} + procPages k.phys.mem (k.proc p) := by
      rw [← procPages_congr (.refl _) hsame, procPages, procPages, hf, Frame.pages, Frame.pages,
        ← Multiset.coe_add, Multiset.coe_singleton, ← add_assoc, add_comm]
    rw [hpages]
    have hm1 := hm.add_rest (procPages k.phys.mem (k.proc p))
    rwa [zero_add] at hm1
  · obtain ⟨tf, htf, hu⟩ := hok.space root hr
    exact ⟨tf, htf, hu.congr (hsame root hr)⟩

/-- A round of `sys_exec` takes a page for one more argument, or hands all back and fails, or
exchanges the memory of the process and hands back what it had. -/
inductive Round (k : Kernel) (p : Slot) (uargv tf old : ℕ) (argv : List ℕ) : Option ℤ → Kernel → Prop
  | more (a : ℕ) (σ : Phys) : argv.length < MAXARG → Moved k.phys σ 0 {a} →
      Round k p uargv tf old argv none (k.become σ p { k.proc p with frame := .exec uargv (argv ++ [a]) })
  | fail (σ : Phys) : Moved k.phys σ argv 0 →
      Round k p uargv tf old argv (some (-1)) (k.become σ p { k.proc p with frame := .user })
  | done (n : ℤ) (root sz : ℕ) (σ : Phys) : n ≠ -1 →
      Moved k.phys σ (argv + ({tf} + owned k.phys.mem USERTOP old)) ({tf} + owned σ.mem USERTOP root) →
      owned k.phys.mem USERTOP old ≤ σ.freelist →
      Round k p uargv tf old argv (some n)
        (k.become σ p { k.proc p with pagetable := some root, sz := sz, frame := .user })

theorem Round.leave (h : Inv im k) (hframe : (k.proc p).frame = .exec uargv argv) :
    Ensures (do leaveExec im p argv; return some (-1)) k
      (fun r k' => Round k p uargv tf old argv r k' ∧ Inv im k') := by
  have hk : Inv im (k.become k.phys p { k.proc p with frame := .exec uargv argv }) := by
    rwa [← hframe, become_self]
  have hleave := leaveExec_spec hk
  rw [become_self] at hleave
  refine hleave.bind fun _ k' ⟨hI, σ, hk', hm, _⟩ => .pure ⟨?_, hI⟩
  rw [hk']
  exact .fail σ hm

theorem Round.exec (h : Inv im k) (hframe : (k.proc p).frame = .exec uargv argv)
    (htf : (k.proc p).trapframe = some tf) (hold : (k.proc p).pagetable = some old) (f : Option Reader) :
    Ensures (do let ret ← exec im p f argv; leaveExec im p argv; return some ret) k
      (fun r k' => Round k p uargv tf old argv r k' ∧ Inv im k') := by
  refine (exec_outcome h htf hold f argv).bind fun r k' ⟨hout, hI⟩ => ?_
  have hback : { k.proc p with frame := .exec uargv argv } = k.proc p := by rw [← hframe]
  cases hout with
  | fail σ₁ hm =>
    rw [← become_proc k σ₁ p] at hI ⊢
    refine (leaveExec_spec (hback.symm ▸ hI)).bind fun _ k' ⟨hI', σ, hk', hm', _⟩ => .pure ⟨?_, hI'⟩
    rw [hk']
    exact .fail σ (((hm.add_rest argv).congr (zero_add _) (zero_add _)).trans hm')
  | done _ root sz σ₁ hr hm hfree =>
    have hframe' : { k.proc p with pagetable := some root, sz := sz, frame := .exec uargv argv } =
        { k.proc p with pagetable := some root, sz := sz } := by rw [← hframe]
    refine (leaveExec_spec (hframe'.symm ▸ hI)).bind fun _ k' ⟨hI', σ, hk', hm', hsame⟩ => .pure ⟨?_, hI'⟩
    rw [hk']
    refine .done r root sz σ hr ?_ (hfree.trans ?_)
    · rw [(hsame root rfl).owned, add_comm]
      refine (hm.add_rest argv).trans ((hm'.add_rest ({tf} + owned σ₁.mem USERTOP root)).congr (add_comm _ _) ?_)
      rw [zero_add]
    · have hacc := hm'.account
      rw [add_zero] at hacc
      rw [hacc]
      exact Multiset.le_add_right _ _

/-- `fetchaddr` does not change the state. -/
theorem fetchaddr_spec (hold : (k.proc p).pagetable = some old) (addr : ℕ) :
    Ensures (fetchaddr p addr) k (fun _ k' => k' = k) := by
  rw [fetchaddr, get_bind_iff]
  simp only
  split_ifs
  · exact .pure rfl
  · rw [get_bind_iff, bind_iff, deref_some_iff hold, bind_iff]
    refine onPhys_total copyin_spec fun r σ hσ => ?_
    rw [hσ]
    cases r <;> exact .pure rfl

/-- **A round of `sys_exec`.** -/
theorem execStep_spec (h : Inv im k) (hp : (k.proc p).state ≠ .unused)
    (hframe : (k.proc p).frame = .exec uargv argv) (htf : (k.proc p).trapframe = some tf)
    (hold : (k.proc p).pagetable = some old) (f : Option Reader) :
    Ensures (execStep im p f) k (fun r k' => Round k p uargv tf old argv r k' ∧ Inv im k') := by
  rw [execStep, get_bind_iff, hframe]
  simp only
  split_ifs with hlen
  · exact Round.leave h hframe
  · refine (fetchaddr_spec hold _).bind fun r k1 he => ?_
    rw [he]
    split
    · exact Round.leave h hframe
    · exact Round.exec h hframe htf hold f
    · rw [bind_iff, onPhys_iff]
      cases hfl : k.phys.freelist with
      | nil =>
        rw [ok_iff (kalloc_run_nil hfl)]
        exact Round.leave h hframe
      | cons a fl =>
        rw [ok_iff (kalloc_run_taken hfl)]
        simp only
        rw [get_bind_iff, bind_iff, deref_some_iff hold, bind_iff]
        refine onPhys_total copyinstr_spec fun r σ hσ => ?_
        rw [hσ, bind_iff, onPhys_iff, modify_iff]
        simp only [put_taken]
        have hmem : (taken k.phys a (.fill PGSIZE 5) fl).mem a = .fill PGSIZE 5 := update_self _ _ _
        rw [hmem, ← become_proc k _ p]
        have h1 := h.pushArg hp hframe hfl ((Bytes.fill PGSIZE 5).splice 0 r.1)
        have hm := moved_taken h.nodup_free hfl ((Bytes.fill PGSIZE 5).splice 0 r.1)
        split_ifs
        · rw [bind_iff, setProc_become_iff, pure_iff]
          exact ⟨.more a _ (not_le.1 hlen) hm, h1⟩
        · refine (leaveExec_spec h1).bind ?_
          rintro _ k' ⟨hI', σ', hk', hm', -⟩
          refine .pure ⟨?_, hI'⟩
          rw [hk']
          refine .fail σ' (((hm.add_rest argv).congr (zero_add _) ?_).trans hm')
          rw [← Multiset.coe_add, Multiset.coe_singleton, add_comm]

theorem execStep_keeps (h : Inv im k) (hp : (k.proc p).state ≠ .unused) (f : Option Reader) :
    Keeps im (execStep im p f) k := by
  cases hframe : (k.proc p).frame with
  | exec uargv argv =>
    cases hold : (k.proc p).pagetable with
    | some old =>
      obtain ⟨tf, htf, -⟩ := (h.procs p).space old hold
      exact .of_ensures (execStep_spec h hp hframe htf hold f) fun _ _ hr => hr.2
    | none =>
      -- without memory nothing is fetched
      have hleave : Keeps im (do leaveExec im p argv; return some (-1)) k :=
        .of_ensures (Q := fun r k' => Round k p uargv 0 0 argv r k' ∧ Inv im k') (Round.leave h hframe) fun _ _ hr => hr.2
      rw [Keeps, execStep, get_bind_iff, hframe]
      simp only
      split_ifs
      · exact hleave
      · rw [fetchaddr, bind_assoc, get_bind_iff, if_pos (.inl (by rw [(h.procs p).bare hold]; exact zero_le)),
          pure_bind]
        exact hleave
  | _ =>
    rw [Keeps, execStep, get_bind_iff, hframe]
    exact .throw trivial

end Kernel

end Xv6
