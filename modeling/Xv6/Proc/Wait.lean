import Xv6.Proc.Run

/-!
# Proc/Wait — what `wait` does with the child it finds

`wait` returns the pid of the first zombie child and leaves it as it is: `freeproc` is never called,
so the next `wait` finds the same child.
-/

namespace Xv6

open Machinery Function Ensures Option

namespace Kernel

variable {im : Image} {k k' : Kernel} {p : Slot} {pid : ℤ}

/-! ## The scan -/

/-- The first child of `p` among `pps` that is a zombie. -/
def zombieChild (k : Kernel) (p : Slot) (pps : List Slot) : Option Slot :=
  pps.find? fun q => decide ((k.proc q).parent = some p ∧ (k.proc q).state = .zombie)

theorem of_zombieChild {pps : List Slot} {q : Slot} (h : k.zombieChild p pps = some q) :
    (k.proc q).parent = some p ∧ (k.proc q).state = .zombie :=
  of_decide_eq_true (List.find?_some h :)

theorem zombieChild_congr (h : ∀ q, (k'.proc q).parent = (k.proc q).parent ∧
    ((k'.proc q).state = .zombie ↔ (k.proc q).state = .zombie)) (pps : List Slot) :
    k'.zombieChild p pps = k.zombieChild p pps := by
  simp only [zombieChild, (h _).1, (h _).2]

theorem zombieChild_of_zombie {q : Slot} (pps : List Slot) (hp : (k.proc q).parent = some p)
    (hz : (k.proc q).state = .zombie) : k.zombieChild p (q :: pps) = some q :=
  List.find?_cons_of_pos (decide_eq_true ⟨hp, hz⟩)

theorem zombieChild_of_not {q : Slot} (pps : List Slot)
    (h : ¬ ((k.proc q).parent = some p ∧ (k.proc q).state = .zombie)) :
    k.zombieChild p (q :: pps) = k.zombieChild p pps :=
  List.find?_cons_of_neg (decide_eq_true_iff.not.2 h)

/-- What `wait` returns when it has found the zombie `q`. -/
def Returns (k : Kernel) (addr : ℕ) (q : Slot) (r : Option ℤ) : Prop :=
  r = some (k.proc q).pid ∨ addr ≠ 0 ∧ r = some (-1)

theorem waitScan_result (root addr dst : ℕ) (pps : List Slot) (havekids : Bool) :
    Ensures (waitScan p root addr dst pps havekids) k
      (fun r k' => (∃ σ, k' = { k with phys := σ }) ∧ (k.zombieChild p pps = none → r.1 = none) ∧
        ∀ q, k.zombieChild p pps = some q → k.Returns addr q r.1) fun _ => True := by
  induction pps generalizing k havekids with
  | nil => exact .pure ⟨⟨k.phys, rfl⟩, fun _ => rfl, by rintro _ ⟨⟩⟩
  | cons pp pps ih =>
    rw [waitScan, get_bind_iff]
    simp only
    split_ifs with hchild hzombie haddr
    · have hfind := zombieChild_of_zombie pps hchild hzombie
      refine (onPhys_same _ _).bind ?_
      rintro _ k1 ⟨σ1, h1⟩
      refine (onPhys_same _ _).bind ?_
      rintro ok k2 ⟨σ2, h2⟩
      have hk2 : ∃ σ, k2 = { k with phys := σ } := ⟨σ2, by rw [h2, h1]⟩
      cases ok with
      | false =>
        refine .pure ⟨hk2, fun hn => absurd (hfind.symm.trans hn) (by simp), fun q _ => ?_⟩
        exact .inr ⟨haddr, rfl⟩
      | true =>
        refine .pure ⟨hk2, fun hn => absurd (hfind.symm.trans hn) (by simp), fun q hq => ?_⟩
        obtain rfl := some.inj (hfind.symm.trans hq)
        exact .inl rfl
    · have hfind := zombieChild_of_zombie pps hchild hzombie
      refine (onPhys_same _ _).bind fun _ k1 h1 => .pure
        ⟨h1, fun hn => absurd (hfind.symm.trans hn) (by simp), fun q hq => ?_⟩
      obtain rfl := some.inj (hfind.symm.trans hq)
      exact .inl rfl
    · rw [zombieChild_of_not pps fun h => hzombie h.2]
      refine (onPhys_same _ _).bind ?_
      rintro _ k1 ⟨σ1, h1⟩
      subst h1
      refine (ih true).imp ?_
      rintro r k2 ⟨⟨σ2, h2⟩, hr⟩
      exact ⟨⟨σ2, by rw [h2]⟩, hr⟩
    · rw [zombieChild_of_not pps fun h => hchild h.1]
      exact ih havekids

/-- The child that `wait` returns. -/
def foundChild (k : Kernel) (p : Slot) : Option Slot := k.zombieChild p (List.finRange NPROC)

/-- One round of `wait` has returned `r`: the pid of a zombie, whose entry is as it was. -/
structure Waited (k : Kernel) (p : Slot) (addr : ℕ) (r : Option ℤ) (k' : Kernel) : Prop where
  none : k.foundChild p = none → r = none ∨ r = some (-1)
  some : ∀ q, k.foundChild p = some q → k.Returns addr q r ∧
    ∃ σ chan, k' = k.become σ p { k.proc p with frame := .user, chan := chan }

/-- **`wait` returns the pid of a zombie and changes nothing but memory and its own entry.** -/
theorem waitOnce_result (addr dst : ℕ) :
    Ensures (waitOnce p addr dst) k (k.Waited p addr) fun _ => True := by
  rw [waitOnce]
  refine .get_bind (Ensures.bind (deref_true fun root _ => rfl :
    Ensures _ _ (fun _ k' => k' = k) _) fun root k1 h1 => ?_)
  subst h1
  refine (waitScan_result root addr dst _ false).bind ?_
  rintro ⟨r, havekids⟩ k2 ⟨⟨σ, h2⟩, hnone, hsome⟩
  cases r with
  | some r =>
    rw [bind_iff, setProc_iff, pure_iff, h2]
    exact ⟨fun hn => absurd (hnone hn) (by simp), fun q hq => ⟨hsome q hq, σ, _, rfl⟩⟩
  | none =>
    have hq : ∀ q, k1.foundChild p ≠ some q := fun q hq => by
      rcases hsome q hq with h | h
      · exact absurd h (by simp)
      · exact absurd h.2 (by simp)
    rw [get_bind_iff]
    split_ifs
    · rw [bind_iff, setProc_iff, pure_iff]
      exact ⟨fun _ => .inr rfl, fun q h => absurd h (hq q)⟩
    · rw [bind_iff, setProc_iff, pure_iff]
      exact ⟨fun _ => .inl rfl, fun q h => absurd h (hq q)⟩

/-! ## A step of `wait` -/

/-- What the scan reads of the caller's own entry. -/
structure SameKin (q q' : Proc) : Prop where
  parent : q'.parent = q.parent
  state : q'.state = q.state
  pid : q'.pid = q.pid

theorem sameKin_become {σ : Phys} {q : Proc} (h : SameKin (k.proc p) q) (r : Slot) :
    SameKin (k.proc r) ((k.become σ p q).proc r) := by
  by_cases hr : r = p
  · rw [hr, become_proc_self]
    exact h
  · rw [become_proc_of_ne hr]
    exact ⟨rfl, rfl, rfl⟩

theorem foundChild_congr (h : ∀ r, SameKin (k.proc r) (k'.proc r)) :
    k'.foundChild p = k.foundChild p :=
  zombieChild_congr (fun r => ⟨(h r).parent, by rw [(h r).state]⟩) _

variable {addr root tf : ℕ}

theorem Waited.of_chan {r : Option ℤ}
    (h : (k.become k.phys p { k.proc p with chan := .none }).Waited p addr r k') :
    k.Waited p addr r k' := by
  have hkin := sameKin_become (k := k) (p := p) (σ := k.phys)
    (q := { k.proc p with chan := .none }) ⟨rfl, rfl, rfl⟩
  have hfound := foundChild_congr (p := p) hkin
  refine ⟨fun hn => h.none (hfound.trans hn), fun q hq => ?_⟩
  obtain ⟨hret, σ, chan, hk'⟩ := h.some q (hfound.trans hq)
  rw [Returns, (hkin q).pid] at hret
  exact ⟨hret, σ, chan, by rw [hk', become_become, become_proc_self]⟩

theorem Waited.child (h : k.Waited p addr (.some pid) k') (hpid : 0 < pid) :
    ∃ q, k.foundChild p = .some q ∧ (k.proc q).pid = pid ∧
      ∃ σ chan, k' = k.become σ p { k.proc p with frame := .user, chan := chan } := by
  have hneg : Option.some pid ≠ .some (-1) := fun he => by
    have := some.inj he
    omega
  cases hq : k.foundChild p with
  | none => exact absurd (h.none hq) (not_or.2 ⟨nofun, hneg⟩)
  | some q =>
    obtain ⟨hret | ⟨-, hret⟩, hk'⟩ := h.some q hq
    · exact ⟨q, rfl, (some.inj hret).symm, hk'⟩
    · exact absurd hret hneg

theorem sysWait_result (addr va : ℕ) (junk : Bytes 32) :
    Ensures (sysWait p addr va junk) k (k.Waited p addr) fun _ => True := by
  rw [sysWait]
  refine ((argBuff_spec p va junk).mono (fun _ _ h => h) fun _ _ => trivial).bind fun buff k1 he => ?_
  rw [he]
  exact waitOnce_result addr _

theorem rewait_result : Ensures (rewait p) k (fun r k' => ∃ addr, k.Waited p addr r k')
    fun _ => True := by
  rw [rewait, bind_iff, setProc_iff, get_bind_iff]
  split
  · rename_i addr dst _
    exact (waitOnce_result addr dst).imp fun r k' hr => ⟨addr, hr.of_chan⟩
  · exact .throw trivial

/-- A step of `wait`, from its start or after its `sleep`. -/
def IsWait (p : Slot) : Op → Prop
  | .wait q _ _ _ => q = p
  | .rewait q => q = p
  | _ => False

theorem running_of_isWait {op : Op} (hop : IsWait p op) (he : k.Enabled op) :
    (k.proc p).state = .running := by
  cases op with
  | wait q addr va junk => exact hop ▸ he.1
  | rewait q => exact hop ▸ he
  | _ => exact hop.elim

theorem waited_of_step {op : Op} {r : Option ℤ} (hop : IsWait p op)
    (hst : (system im).step k (op, r) k') : ∃ addr, k.Waited p addr r k' := by
  cases op with
  | wait q addr va junk => exact ⟨addr, hop ▸ (sysWait_result addr va junk).of_ok hst.2⟩
  | rewait q => exact hop ▸ rewait_result.of_ok hst.2
  | _ => exact hop.elim

/-- A child of `p` with this pid has been reaped: its entry is unused, and its pages are free. -/
def Reaped (k : Kernel) (p : Slot) (pid : ℤ) (k' : Kernel) : Prop :=
  ∃ q, (k.proc q).parent = some p ∧ (k.proc q).state = .zombie ∧ (k.proc q).pid = pid ∧
    (k'.proc q).state = .unused ∧ ∀ n ∈ procPages k.phys.mem (k.proc q), n ∈ k'.phys.freelist

/-- **`wait` never reaps the child it returns**: the entry stays a zombie as it was, and the next `wait`
without an address returns it again. -/
theorem wait_never_reaps (im : Image) (k k' : Kernel) (p : Slot) (op : Op) (pid : ℤ) (hop : IsWait p op)
    (hst : (system im).step k (op, some pid) k') (hpid : 0 < pid) :
    ¬ Reaped k p pid k' ∧
    (∃ q, (k.proc q).parent = some p ∧ (k.proc q).state = .zombie ∧ (k.proc q).pid = pid ∧
      k'.proc q = k.proc q) ∧
    ∀ va junk r k'', (system im).step k' (.wait p 0 va junk, r) k'' → r = some pid := by
  have hrun := running_of_isWait hop hst.1
  obtain ⟨addr, hw⟩ := waited_of_step hop hst
  obtain ⟨q, hq, hqpid, σ, chan, rfl⟩ := hw.child hpid
  have hstay : ∀ c, (k.proc c).state = .zombie →
      (k.become σ p { k.proc p with frame := .user, chan := chan }).proc c = k.proc c := by
    intro c hc
    refine become_proc_of_ne (fun he => ?_) _ _
    rw [he, hrun] at hc
    exact absurd hc nofun
  obtain ⟨hparent, hzombie⟩ := of_zombieChild hq
  refine ⟨?_, ⟨q, hparent, hzombie, hqpid, hstay q hzombie⟩, fun va junk r k'' hst' => ?_⟩
  · rintro ⟨c, -, hc, -, hun, -⟩
    rw [hstay c hc, hc] at hun
    exact absurd hun nofun
  · have hfound := foundChild_congr (p := p)
      (sameKin_become (σ := σ) (q := { k.proc p with frame := .user, chan := chan }) ⟨rfl, rfl, rfl⟩)
    obtain ⟨hret | hret, -⟩ := ((sysWait_result 0 va junk).of_ok hst'.2).some q (hfound.trans hq)
    · exact hret.trans (by rw [hstay q hzombie, hqpid])
    · exact absurd rfl hret.1

/-! ## A child that exits

The run below starts with the first process alone: it forks, the child exits, and the first process waits
twice. -/

theorem CopyOf.userPage {old new : ℕ} {m : ℕ → Page} (hI : Inv im k') (hr : (k'.proc p).pagetable = some new)
    (va : ℕ) (h : CopyOf old new m k'.phys.mem (va / PGSIZE)) (hva : va / PGSIZE < USERTOP)
    (hm : userPage m old va ≠ none) : userPage k'.phys.mem new va ≠ none := by
  obtain ⟨e, e', he, he', hmod, -⟩ := h
  have hlt : va < MAXVA := by
    rw [USERTOP_eq] at hva
    unfold MAXVA
    unfold PGSIZE at hva
    omega
  rw [Xv6.userPage, if_pos hlt, he, Option.bind_some] at hm
  have hbit : e / 16 % 2 = 1 := by
    by_contra hn
    rw [if_neg fun h => hn h.1] at hm
    exact hm rfl
  have hpool := (hI.space hr).pool (pte2page e') (Multiset.mem_add.2 (.inl (Multiset.mem_add.2 (.inr
    (Multiset.mem_add.2 (.inr (pte2page_mem_mapped hva he')))))))
  have hpos := Finset.mem_Ico.1 hpool.mem_range
  rw [Xv6.userPage, if_pos hlt, he', Option.bind_some, if_pos ⟨by omega, by omega⟩]
  rintro ⟨⟩

/-- **`fork` succeeds where there is an entry and memory for it.** -/
theorem fork_result (h : Inv im k) (hp : (k.proc p).state ≠ .unused) {old : ℕ}
    (hold : (k.proc p).pagetable = some old) (hfd : ∀ fd, (k.proc p).ofile fd = none) {np : Slot}
    (hnp : k.firstUnused = some np) (hroom : 4 + 3 * npages (k.proc p).sz ≤ k.phys.freelist.length) :
    Ensures (fork im p) k (fun r k' => r = k.nextpid ∧ Inv im k' ∧ ∃ σ tf root, k' = k.forked σ p np tf root ∧
      (∀ w < npages (k.proc p).sz, CopyOf old root k.phys.mem σ.mem w) ∧
      k.phys.freelist.length ≤ σ.freelist.length + 4 + 3 * npages (k.proc p).sz) := by
  obtain ⟨ptf, hptf, -⟩ := (h.procs p).space old hold
  have hle := forkPages_le (npages (k.proc p).sz)
  have hne : p ≠ np := fun he => hp (by rw [he, unused_of_firstUnused hnp])
  refine (fork_spec h hp hold hptf).mono (fun r k' ⟨hfits, _, hI⟩ => ?_) fun _ ⟨_, fd, f, hf, _⟩ => ?_
  · obtain ⟨np', hfirst, hr, σ, tf, root, hk', -, hcopy, -, hlen⟩ := hfits ⟨by rw [hnp]; nofun, hle.trans hroom⟩
    obtain rfl := some.inj (hnp.symm.trans hfirst)
    rw [dupped_none fun fd => by rw [forked_proc_of_ne hne, hfd]] at hk'
    exact ⟨hr, hI, σ, tf, root, hk', hcopy, by omega⟩
  · rw [hfd] at hf
    exact nomatch hf

theorem closeFiles_none (h : ∀ fd, (k.proc p).ofile fd = none) (fds : List (Fin NOFILE)) :
    Ensures (closeFiles im p fds) k (fun _ k' => k' = k) := by
  induction fds with
  | nil => exact .pure rfl
  | cons fd fds ih =>
    rw [closeFiles, get_bind_iff, h fd]
    exact ih

theorem reparentLoop_none (h : ∀ q, (k.proc q).parent ≠ some p) (pps : List Slot) :
    Ensures (reparentLoop p pps) k (fun _ k' => k' = k) := by
  induction pps with
  | nil => exact .pure rfl
  | cons pp pps ih =>
    rw [reparentLoop, get_bind_iff, if_neg (h pp)]
    exact ih

theorem wakeup_none (h : ∀ q, (k.proc q).state ≠ .sleeping) (chan : Option Slot) :
    Ensures (wakeup p chan) k (fun _ k' => k' = k) := by
  rw [wakeup, modify_iff]
  have hproc : (fun q => if q = p then k.proc q else woken chan (k.proc q)) = k.proc := by
    ext1 q
    have hw : woken chan (k.proc q) = k.proc q := if_neg fun hs => h q hs.1
    rw [hw, ite_self]
  rw [hproc]

/-- **`exit` makes the caller a zombie**; here it has no files and no children, and nobody sleeps. -/
theorem exit_result (hinit : k.initproc ≠ some p) (hfd : ∀ fd, (k.proc p).ofile fd = none)
    (hkids : ∀ q, (k.proc q).parent ≠ some p) (hsleep : ∀ q, (k.proc q).state ≠ .sleeping) (n : ℤ)
    (buf : Bytes 32) :
    Ensures (exit im p n (some buf)) k (fun _ k' => k' = k.become k.phys p
      { k.proc p with exitMsg := strncpy32 buf, xstate := n, state := .zombie }) := by
  rw [exit, get_bind_iff, if_neg hinit]
  refine (closeFiles_none hfd _).bind fun _ k1 h1 => ?_
  subst h1
  refine (reparentLoop_none hkids _).bind fun _ k2 h2 => .get_bind ?_
  subst h2
  refine (wakeup_none hsleep _).bind fun _ k3 h3 => ?_
  subst h3
  rw [bind_iff, deref_some_iff rfl, setProc_iff]
  rfl

theorem argBuff_result (hr : (k.proc p).pagetable = some root) (va : ℕ) (junk : Bytes 32) :
    Ensures (argBuff p va junk) k (fun _ k' => k' = k) := by
  rw [argBuff, get_bind_iff, bind_iff, deref_some_iff hr, bind_iff]
  refine onPhys_total copyinstr_spec fun _ σ hσ => .pure ?_
  rw [hσ]

theorem sysExit_result (hr : (k.proc p).pagetable = some root) (hinit : k.initproc ≠ some p)
    (hfd : ∀ fd, (k.proc p).ofile fd = none) (hkids : ∀ q, (k.proc q).parent ≠ some p)
    (hsleep : ∀ q, (k.proc q).state ≠ .sleeping) (n : ℤ) (va : ℕ) (junk : Bytes 32) :
    Ensures (sysExit im p n va junk) k (fun _ k' => ∃ msg, k' = k.become k.phys p
      { k.proc p with exitMsg := msg, xstate := n, state := .zombie }) := by
  rw [sysExit]
  refine (argBuff_result hr va junk).bind fun buff k1 he => ?_
  rw [he]
  exact (exit_result hinit hfd hkids hsleep n buff).imp fun _ _ h => ⟨_, h⟩

/-- `wait` of a process with an address space does not panic. -/
theorem sysWait_total (h : Inv im k) (hr : (k.proc p).pagetable = some root) (addr va : ℕ)
    (junk : Bytes 32) : Ensures (sysWait p addr va junk) k (fun _ _ => True) := by
  rw [sysWait]
  refine (argBuff_result hr va junk).bind fun buff k1 he => ?_
  subst he
  rw [waitOnce, get_bind_iff, bind_iff, deref_some_iff hr]
  refine (waitScan_spec h hr addr _ _ false).bind ?_
  rintro ⟨r, havekids⟩ k2 _
  cases r with
  | some r =>
    rw [bind_iff, setProc_iff, pure_iff]
    trivial
  | none =>
    rw [get_bind_iff]
    split_ifs
    · rw [bind_iff, setProc_iff, pure_iff]
      trivial
    · rw [bind_iff, setProc_iff, pure_iff]
      trivial

/-- The child of the first process, in the given state. -/
def child (tf root : ℕ) (s : ProcState) : Proc :=
  { procinit with
    pid := 2, state := s, trapframe := some tf, pagetable := some root, sz := PGSIZE,
    parent := some initSlot }

/-- The table with the first process and the entry `q` behind it. -/
def pair (tf root : ℕ) (q : Proc) : Slot → Proc :=
  update (update (fun _ => procinit) initSlot (initRunning tf root)) secondSlot q

theorem pair_init (tf root : ℕ) (q : Proc) : pair tf root q initSlot = initRunning tf root := by
  rw [pair, update_of_ne (by decide), update_self]

theorem pair_second (tf root : ℕ) (q : Proc) : pair tf root q secondSlot = q := update_self _ _ _

theorem forall_pair {q : Proc} {P : Proc → Prop} (h0 : P (initRunning tf root)) (h1 : P q)
    (h : P procinit) (r : Slot) : P (pair tf root q r) := by
  by_cases hr : r = secondSlot
  · rwa [hr, pair_second]
  · rw [pair, update_of_ne hr]
    by_cases hr' : r = initSlot
    · rwa [hr', update_self]
    · rwa [update_of_ne hr']

/-- A kernel in which the first process and its child run. -/
structure ChildRuns (tf root ctf croot : ℕ) (k : Kernel) : Prop where
  inv : Inv roomyImage k
  proc : k.proc = pair tf root (child ctf croot .running)
  initproc : k.initproc = some initSlot
  room : 847 ≤ k.phys.freelist.length
  file : ∀ i, (k.file i).ref = 0
  code : userPage k.phys.mem croot 0 ≠ none

variable {C : Kernel → Op × Option ℤ → Prop}

theorem exists_childRuns (hC : Permits C) : ∃ k tf root ctf croot,
    ((system roomyImage).restrict C).Reachable k ∧ ChildRuns tf root ctf croot k := by
  obtain ⟨k, tf, root, hk, hi⟩ := exists_initRuns hC.lenient
  have hfirst : k.firstUnused = some secondSlot := by
    rw [firstUnused, hi.proc]
    rfl
  have hfork := fork_result hi.inv (p := initSlot) (by rw [hi.proc_init]; rintro ⟨⟩)
    hi.pagetable (fun fd => by rw [hi.proc_init]; rfl) hfirst (by
      rw [hi.sz, hi.room]
      decide)
  obtain ⟨r, k1, hrun1, -, hI1, σ, ctf, croot, hk1, hcopy, hroom⟩ := hfork.exists_ok
  have hone : npages (k.proc initSlot).sz = 1 := by
    rw [hi.sz]
    decide
  have hR1 := hk.step (l := (Op.fork initSlot, some r))
    ⟨hC _ _ trivial fun _ hq => some.inj hq ▸ hi.hasCode, hi.inUser, Exec.bind_ok hrun1⟩
  have hproc1 : k1.proc = pair tf root (child ctf croot .runnable) := by
    rw [hk1]
    simp only [forked, hi.proc_init, hi.proc, hi.nextpid]
    rfl
  have hstep2 : (system roomyImage).step k1 (.run secondSlot, none) { k1 with
      proc := update k1.proc secondSlot { k1.proc secondSlot with state := .running } } :=
    ⟨by rw [Enabled, hproc1, pair_second]; rfl, rfl⟩
  refine ⟨_, tf, root, ctf, croot, hR1.step (l := (Op.run secondSlot, none))
    ⟨hC _ _ trivial (by rintro _ ⟨⟩), hstep2⟩, ?_, ?_, ?_, ?_, ?_, ?_⟩
  · exact (perform_keeps hI1 hstep2.1 trivial).of_ok hstep2.2
  · simp only [hproc1, pair, update_idem]
    rfl
  · rw [hk1]
    exact hi.initproc
  · rw [hone, hi.room] at hroom
    change 847 ≤ k1.phys.freelist.length
    rw [hk1]
    change 847 ≤ σ.freelist.length
    omega
  · rw [hk1]
    exact hi.file
  · have hroot : (k1.proc secondSlot).pagetable = some croot := by rw [hproc1, pair_second]; rfl
    refine CopyOf.userPage hI1 hroot 0 ?_ (by rw [USERTOP_eq]; decide) hi.code
    rw [hk1]
    exact hcopy 0 (by omega)

theorem exists_exit {ctf croot sz : ℕ} {q : Proc} (hI : Inv roomyImage k)
    (hproc : k.proc = pair tf root q) (hq : q = { child ctf croot .running with sz := sz })
    (hinit : k.initproc = some initSlot) (n : ℤ) (va : ℕ) :
    ∃ k' msg, (system roomyImage).step k (.exit secondSlot n va (.fill 32 0), none) k' ∧
      Inv roomyImage k' ∧ k'.phys = k.phys ∧
      k'.proc = pair tf root { q with exitMsg := msg, xstate := n, state := .zombie } := by
  have hself : k.proc secondSlot = { child ctf croot .running with sz := sz } := by
    rw [hproc, pair_second, hq]
  have hinit' : k.initproc ≠ some secondSlot := by
    rw [hinit]
    decide
  have huser : k.InUser secondSlot := by
    rw [InUser, hself]
    exact ⟨rfl, rfl⟩
  have hkids : ∀ r, (k.proc r).parent ≠ some secondSlot := fun r => by
    have hnone : (none : Option Slot) ≠ some secondSlot := by simp
    have hother : some initSlot ≠ some secondSlot := by decide
    rw [hproc, hq]
    exact forall_pair (P := fun q => q.parent ≠ some secondSlot) hnone hother hnone r
  have hsleep : ∀ r, (k.proc r).state ≠ .sleeping := fun r => by
    have hrun : ProcState.running ≠ .sleeping := by simp
    have hunused : ProcState.unused ≠ .sleeping := by simp
    rw [hproc, hq]
    exact forall_pair (P := fun q => q.state ≠ .sleeping) hrun hrun hunused r
  have hroot : (k.proc secondSlot).pagetable = some croot := by rw [hself]; rfl
  have hexit : Ensures (sysExit roomyImage secondSlot n va (.fill 32 0)) k _ _ :=
    sysExit_result hroot hinit' (fun fd => by rw [hself]; rfl) hkids hsleep n va _
  obtain ⟨u, k', hrun, msg, hk'⟩ := hexit.exists_ok
  have hstep : (system roomyImage).step k (.exit secondSlot n va (.fill 32 0), none) k' :=
    ⟨huser, Exec.bind_ok hrun⟩
  refine ⟨k', msg, hstep, (perform_keeps hI hstep.1 trivial).of_ok hstep.2, by rw [hk']; rfl, ?_⟩
  rw [hk']
  simp only [become, hproc, pair_second]
  simp only [pair, update_idem]

/-- **A kernel in which the first process runs and its child is a zombie.** -/
theorem exists_zombie : ∃ k tf root, (system roomyImage).Reachable k ∧ Inv roomyImage k ∧
    k.InUser initSlot ∧ (k.proc initSlot).pagetable = some root ∧
    k.foundChild initSlot = some secondSlot ∧ (k.proc secondSlot).pid = 2 ∧
    (k.proc secondSlot).trapframe = some tf := by
  obtain ⟨k, tf, root, ctf, croot, hk, hc⟩ := exists_childRuns permits_affords
  obtain ⟨k', msg, hst, hI, -, hproc⟩ := exists_exit hc.inv hc.proc rfl hc.initproc 0 0
  refine ⟨k', ctf, root, hk.of_restrict.step hst, hI, ?_⟩
  rw [InUser, foundChild, zombieChild, hproc, pair_init, pair_second]
  exact ⟨⟨rfl, rfl⟩, rfl, rfl, rfl, rfl⟩

theorem wait_step_of_found (h : Inv im k) (hp : k.InUser p)
    (hr : (k.proc p).pagetable = some root) {q : Slot} (hq : k.foundChild p = some q) (va : ℕ)
    (junk : Bytes 32) : ∃ k', (system im).step k (.wait p 0 va junk, some (k.proc q).pid) k' := by
  obtain ⟨r, k', hrun, -, hw⟩ := ((sysWait_total h hr 0 va junk).and (sysWait_result 0 va junk)).exists_ok
    fun _ he => he.1
  obtain ⟨hret | hret, -⟩ := hw.some q hq
  · exact ⟨k', hp, by rw [← hret]; exact hrun⟩
  · exact absurd rfl hret.1

/-- The first process waits twice and gets the same child twice, which stays a zombie. -/
theorem wait_returns_twice : ∃ k k₁ k₂ : Kernel, (system roomyImage).Reachable k ∧
    (system roomyImage).step k (.wait initSlot 0 0 (.fill 32 0), some 2) k₁ ∧
    (system roomyImage).step k₁ (.wait initSlot 0 0 (.fill 32 0), some 2) k₂ ∧
    (k₂.proc secondSlot).state = .zombie ∧ (k₂.proc secondSlot).pid = 2 ∧
    (k₂.proc secondSlot).trapframe ≠ none := by
  obtain ⟨k, tf, root, hk, hI, huser, hroot, hfound, hpid, htf⟩ := exists_zombie
  obtain ⟨k₁, hst₁⟩ := wait_step_of_found hI huser hroot hfound 0 (.fill 32 0)
  have hI₁ := (perform_keeps hI hst₁.1 trivial).of_ok hst₁.2
  obtain ⟨-, σ, chan, rfl⟩ := ((sysWait_result 0 0 _).of_ok hst₁.2).some secondSlot hfound
  have hfound₁ := (foundChild_congr (p := initSlot) (sameKin_become (k := k) (p := initSlot) (σ := σ)
    (q := { k.proc initSlot with frame := .user, chan := chan }) ⟨rfl, rfl, rfl⟩)).trans hfound
  obtain ⟨k₂, hst₂⟩ := wait_step_of_found hI₁ (p := initSlot)
    (by rw [InUser, become_proc_self]; exact ⟨huser.1, rfl⟩) (by rw [become_proc_self]; exact hroot)
    hfound₁ 0 (.fill 32 0)
  obtain ⟨-, σ', chan', rfl⟩ := ((sysWait_result 0 0 _).of_ok hst₂.2).some secondSlot hfound₁
  have hne : secondSlot ≠ initSlot := by decide
  rw [become_proc_of_ne hne, hpid] at hst₂
  rw [hpid] at hst₁
  refine ⟨k, _, _, hk, hst₁, hst₂, ?_⟩
  rw [become_proc_of_ne hne, become_proc_of_ne hne, hpid, htf]
  exact ⟨(of_zombieChild hfound).2, rfl, by simp⟩

/-- The first `wait` of the first process. -/
theorem wait_never_reaps_init : ∃ k k' : Kernel, (system roomyImage).Reachable k ∧
    (system roomyImage).step k (.wait initSlot 0 0 (.fill 32 0), some 2) k' ∧
    ¬ Reaped k initSlot 2 k' := by
  obtain ⟨k, tf, root, hk, hI, huser, hroot, hfound, hpid, -⟩ := exists_zombie
  obtain ⟨k', hst⟩ := wait_step_of_found hI huser hroot hfound 0 (.fill 32 0)
  rw [hpid] at hst
  exact ⟨k, k', hk, hst, (wait_never_reaps roomyImage k k' initSlot
    (.wait initSlot 0 0 (.fill 32 0)) 2 rfl hst (by norm_num)).1⟩

end Kernel

end Xv6
