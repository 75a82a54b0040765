import Xv6.Proc.Owner

/-!
# Proc/Conserve — every system call keeps the account of pages
-/

namespace Xv6

open Machinery Function Ensures Option

/-- The panics that are not those of page tables or a free list in disorder. -/
def Panic.Expected : Panic → Prop
  | .mem e => e = .kvmmap ∨ e = .kalloc ∨ e = .kerneltrap
  | _ => True

namespace Kernel

variable {im : Image} {k k' : Kernel} {p : Slot}

/-! ## Rules for the kernel's programs

`Keeps` is closed under sequence and choice, so a system call keeps the account if its parts do. -/

section Rules

variable {α : Type} {Q : α → Kernel → Prop} {E : Panic → Prop}

theorem onPhys_iff {x : Exec KPanic Phys α} :
    Ensures (onPhys x) k Q E ↔
      Ensures x k.phys (fun a σ => Q a { k with phys := σ }) (fun e => E (.mem e)) :=
  zoom_iff

theorem setProc_iff {f : Proc → Proc} {Q : Unit → Kernel → Prop} :
    Ensures (setProc p f) k Q E ↔ Q () { k with proc := update k.proc p (f (k.proc p)) } :=
  modify_iff

theorem setFile_iff {i : Fin NFILE} {f : File → File} {Q : Unit → Kernel → Prop} :
    Ensures (setFile i f) k Q E ↔ Q () { k with file := update k.file i (f (k.file i)) } :=
  modify_iff

theorem setPipe_iff {n : ℕ} {f : Pipe → Pipe} {Q : Unit → Kernel → Prop} :
    Ensures (setPipe n f) k Q E ↔ Q () { k with pipe := update k.pipe n (f (k.pipe n)) } :=
  modify_iff

theorem record_iff {e : FileEvent} {Q : Unit → Kernel → Prop} :
    Ensures (record e) k Q E ↔ Q () { k with trace := k.trace ++ [e] } :=
  modify_iff

theorem onPhys_total {x : Exec KPanic Phys α} {R : α → Phys → Prop}
    (hx : Ensures x k.phys R) (hQ : ∀ a σ, R a σ → Q a { k with phys := σ }) :
    Ensures (onPhys x) k Q E :=
  onPhys_iff.2 (hx.mono hQ fun _ h => h.elim)

end Rules

/-- In a run from `k` the kernel keeps its account of pages, or stops with an expected panic. -/
def Keeps (im : Image) {α : Type} (x : KExec α) (k : Kernel) : Prop :=
  Ensures x k (fun _ k' => Inv im k') Panic.Expected

theorem Keeps.bind {α β : Type} {x : KExec α} {f : α → KExec β} (hx : Keeps im x k)
    (hf : ∀ a k', Inv im k' → Keeps im (f a) k') : Keeps im (x >>= f) k :=
  Ensures.bind hx fun a k' h => hf a k' h

theorem Keeps.pure {α : Type} (h : Inv im k) (a : α) : Keeps im (pure a : KExec α) k :=
  Ensures.pure h

theorem Keeps.of_get {α : Type} {f : Kernel → KExec α} (h : Keeps im (f k) k) :
    Keeps im (get >>= f) k :=
  bind_iff.2 (get_iff.2 h)

theorem Keeps.of_ensures {α : Type} {x : KExec α} {Q : α → Kernel → Prop}
    (hx : Ensures x k Q) (hQ : ∀ a k', Q a k' → Inv im k') : Keeps im x k :=
  hx.mono hQ fun _ h => h.elim

/-! ## Steps of one process

A process may take pages off the free list and give pages back; the pages of others stay. -/

/-- The kernel with another memory, in which `p` has become `q`. -/
def become (k : Kernel) (σ : Phys) (p : Slot) (q : Proc) : Kernel :=
  { k with phys := σ, proc := update k.proc p q }

theorem elsewhere_become (k : Kernel) (σ : Phys) (p : Slot) (q : Proc) :
    Elsewhere p k (k.become σ p q) where
  proc r hr := by
    simp only [become, update_of_ne hr]
    exact .refl _
  file := rfl
  pipe := rfl
  kernelPagetable := rfl
  virtio := rfl

theorem Inv.become (h : Inv im k) {σ : Phys} {q : Proc}
    (hm : Moved k.phys σ (procPages k.phys.mem (k.proc p)) (procPages σ.mem q))
    (hok : ProcOk im σ.mem q) : Inv im (k.become σ p q) := by
  refine h.step (elsewhere_become k σ p q) ?_ ?_
  · simpa only [Kernel.become, update_self] using hm
  · simpa only [Kernel.become, update_self] using hok

@[simp] theorem become_phys (σ : Phys) (q : Proc) : (k.become σ p q).phys = σ := rfl

@[simp] theorem become_proc_self (σ : Phys) (q : Proc) : (k.become σ p q).proc p = q :=
  update_self _ _ _

theorem become_proc_of_ne {r : Slot} (hr : r ≠ p) (σ : Phys) (q : Proc) :
    (k.become σ p q).proc r = k.proc r :=
  update_of_ne hr _ _

@[simp] theorem become_become (σ σ' : Phys) (q q' : Proc) :
    (k.become σ p q).become σ' p q' = k.become σ' p q' := by
  simp only [become, update_idem]

theorem become_self (k : Kernel) (p : Slot) : k.become k.phys p (k.proc p) = k := by
  simp only [become, update_eq_self]

section BecomeRules

variable {α : Type} {Q : α → Kernel → Prop} {E : Panic → Prop} {σ : Phys} {q : Proc}

theorem onPhys_become_iff {x : Exec KPanic Phys α} :
    Ensures (onPhys x) (k.become σ p q) Q E ↔
      Ensures x σ (fun a σ' => Q a (k.become σ' p q)) (fun e => E (.mem e)) := onPhys_iff

theorem setProc_become_iff {f : Proc → Proc} {Q : Unit → Kernel → Prop} :
    Ensures (setProc p f) (k.become σ p q) Q E ↔ Q () (k.become σ p (f q)) := by
  rw [setProc_iff]
  simp only [become, update_idem, update_self]

theorem onPhys_become {x : Exec KPanic Phys α} {R : α → Phys → Prop}
    (hx : Ensures x σ R) (hQ : ∀ a σ', R a σ' → Q a (k.become σ' p q)) :
    Ensures (onPhys x) (k.become σ p q) Q E :=
  onPhys_become_iff.2 (hx.mono hQ fun _ h => h.elim)

end BecomeRules

theorem Inv.setProc (h : Inv im k) {q : Proc} (hs : SameMem (k.proc p) q) :
    Inv im { k with proc := update k.proc p q } := by
  refine h.same rfl (fun r => ?_) rfl rfl rfl rfl
  by_cases hr : r = p
  · subst hr
    simpa only [update_self] using hs
  · simp only [update_of_ne hr]
    exact .refl _

theorem setProc_keeps (h : Inv im k) {f : Proc → Proc} (hf : SameMem (k.proc p) (f (k.proc p))) :
    Keeps im (Kernel.setProc p f) k :=
  setProc_iff.2 (h.setProc hf)

theorem record_keeps (h : Inv im k) (e : FileEvent) : Keeps im (record e) k :=
  record_iff.2 (h.same rfl (fun _ => .refl _) rfl rfl rfl rfl)

/-! ## `freeproc` -/

/-- A process without pages. -/
structure Empty (q : Proc) : Prop where
  trapframe : q.trapframe = none
  pagetable : q.pagetable = none
  sz : q.sz = 0
  frame : q.frame.pages = []

theorem Empty.procPages {q : Proc} (h : Empty q) (m : ℕ → Page) : procPages m q = 0 := by
  rw [Kernel.procPages, h.trapframe, h.pagetable, h.frame]
  rfl

theorem Empty.procOk {q : Proc} (h : Empty q) (m : ℕ → Page) : ProcOk im m q where
  space root hr := by simp [h.pagetable] at hr
  bare _ := h.sz
  unused _ := ⟨h.trapframe, h.pagetable, h.frame⟩

/-- What `freeproc` makes of an entry. -/
def freed (q : Proc) : Proc :=
  { q with
    trapframe := none, pagetable := none, sz := 0, pid := 0, parent := none, chan := none
    killed := false, xstate := 0, state := .unused }

theorem freeTrapframe_spec {σ : Phys} {o : Option ℕ} {rest : Multiset ℕ}
    (h : Stock im (o.elim 0 (fun tf => {tf}) + rest) σ) :
    Ensures (freeTrapframe im o) σ (fun _ σ' => Moved σ σ' (o.elim 0 fun tf => {tf}) 0) := by
  cases o with
  | none => exact .pure (.refl σ 0)
  | some tf =>
    rw [elim_some] at h ⊢
    have hfree : tf ∉ σ.freelist := fun hf =>
      Multiset.disjoint_left.1 (Multiset.nodup_add.1 h.nodup).2.2 hf (by simp)
    rw [freeTrapframe, ok_iff (kfree_run_given (h.pool tf (by simp)) σ)]
    exact moved_given hfree

theorem freePagetable_spec {σ : Phys} {o : Option ℕ} {sz : ℕ} {rest : Multiset ℕ}
    (h : Stock im (o.elim 0 (owned σ.mem USERTOP) + rest) σ)
    (hu : ∀ root, o = some root → ∃ tf, UserSpace im σ.mem root tf (npages sz)) :
    Ensures (freePagetable im sz o) σ (fun _ σ' => Moved σ σ' (o.elim 0 (owned σ.mem USERTOP)) 0) := by
  cases o with
  | none => exact .pure (.refl σ 0)
  | some root =>
    rw [elim_some] at h ⊢
    obtain ⟨tf, hu⟩ := hu root rfl
    exact procFreepagetable_spec (h.space hu.proper) hu

theorem elim_owned_congr {o : Option ℕ} {m m' : ℕ → Page} (h : ∀ root, o = some root → SameTable root m m') :
    o.elim 0 (owned m' USERTOP) = o.elim 0 (owned m USERTOP) := by
  cases o with
  | none => rw [elim_none, elim_none]
  | some root => rw [elim_some, elim_some, (h root rfl).owned]

/-- **`freeproc` hands back every page of a process.** -/
theorem freeproc_spec (h : Inv im k) (hf : (k.proc p).frame.pages = []) :
    Ensures (freeproc im p) k
      (fun _ k' => Inv im k' ∧ ∃ σ, k' = k.become σ p (freed (k.proc p)) ∧
        Moved k.phys σ (procPages k.phys.mem (k.proc p)) 0) := by
  have hempty : Empty (freed (k.proc p)) := ⟨rfl, rfl, rfl, hf⟩
  have hok := h.procs p
  set q := k.proc p with hq
  have hpages : procPages k.phys.mem q = q.trapframe.elim 0 (fun tf => {tf}) +
      q.pagetable.elim 0 (owned k.phys.mem USERTOP) := by
    rw [procPages, hf]
    exact add_zero _
  have hst : Stock im (q.trapframe.elim 0 (fun tf => {tf}) +
      (q.pagetable.elim 0 (owned k.phys.mem USERTOP) + k.others p)) k.phys := by
    rw [← add_assoc, ← hpages]
    exact h.stock (held_eq k p)
  rw [freeproc, bind_iff, get_iff]
  simp only [← hq]
  rw [bind_iff]
  refine onPhys_total (freeTrapframe_spec hst) fun _ σ1 hm1 => ?_
  have hst1 := hst.of_moved hm1
  rw [zero_add] at hst1
  -- the table is where it was
  have hsame : ∀ root, q.pagetable = some root → SameTable root k.phys.mem σ1.mem := fun root hr => by
    refine hm1.sameTable (by rw [add_assoc]; exact hst.nodup) ?_
    rw [hr, elim_some, owned, add_assoc]
    exact Multiset.le_add_right _ _
  have hown := elim_owned_congr hsame
  rw [← hown] at hst1
  rw [bind_iff]
  refine onPhys_total (freePagetable_spec hst1 fun root hr => ?_) fun _ σ2 hm2 => ?_
  · obtain ⟨tf, -, hu⟩ := hok.space root hr
    exact ⟨tf, hu.congr (hsame root hr)⟩
  · rw [setProc_iff]
    rw [hown] at hm2
    have hm := (hm1.add_rest (q.pagetable.elim 0 (owned k.phys.mem USERTOP)))
    rw [zero_add, ← hpages] at hm
    have hinv : Inv im (k.become σ2 p (freed q)) :=
      h.become (by rw [hempty.procPages]; exact hm.trans hm2) (hempty.procOk _)
    exact ⟨hinv, σ2, rfl, hm.trans hm2⟩

/-! ## `allocproc` -/

def firstUnused (k : Kernel) : Option Slot :=
  (List.finRange NPROC).find? fun p => decide ((k.proc p).state = .unused)

theorem unused_of_firstUnused (h : k.firstUnused = some p) : (k.proc p).state = .unused :=
  of_decide_eq_true (List.find?_some h :)

/-- The first unused entry `np` is a process without user memory, which cost four pages. -/
structure Allocated (np : Slot) (k k' : Kernel) : Prop where
  first : k.firstUnused = some np
  eq : ∃ tf root σ, k' = { k with
      phys := σ, nextpid := (k.nextpid + 1).bmod (2 ^ 32)
      proc := update k.proc np { k.proc np with
        pid := k.nextpid, state := .used, trapframe := some tf, pagetable := some root } } ∧
    σ.freelist.length + 4 = k.phys.freelist.length ∧
    missing σ.mem 2 root = walked (walked (fun _ => 2) (USERTOP + 1)) USERTOP

/-- `allocproc` or `fork` gave up: a pid was spent, the entry was cleared again, and the same pages
are free. -/
structure Released (k k' : Kernel) : Prop where
  eq : ∃ np σ, k.firstUnused = some np ∧ Moved k.phys σ 0 0 ∧ k' = { k with
    phys := σ, nextpid := (k.nextpid + 1).bmod (2 ^ 32)
    proc := update k.proc np (freed (k.proc np)) }

theorem Inv.empty (h : Inv im k) (hu : (k.proc p).state = .unused) : Empty (k.proc p) := by
  obtain ⟨htf, hpt, hfr⟩ := (h.procs p).unused hu
  exact ⟨htf, hpt, (h.procs p).bare hpt, hfr⟩

theorem Inv.procOk_of {q : Proc} {σ : Phys} (h : Inv im (k.become σ p q)) : ProcOk im σ.mem q := by
  have := h.procs p
  rwa [become_proc_self] at this

/-- **`allocproc` takes a trapframe and an address space, or nothing.** -/
theorem allocproc_spec (h : Inv im k) :
    Ensures (allocproc im) k
      (fun r k' => Inv im k' ∧
        (∀ np, r = some np → Allocated np k k' ∧
          Moved k.phys k'.phys 0 (procPages k'.phys.mem (k'.proc np))) ∧
        (r = none → (k.firstUnused = none ∧ k' = k) ∨ k.phys.freelist.length < 4 ∧ Released k k')) := by
  rw [allocproc, bind_iff, get_iff]
  rw [← firstUnused]
  cases hfind : k.firstUnused with
  | none => exact .pure ⟨h, by simp, fun _ => .inl ⟨rfl, rfl⟩⟩
  | some p =>
    have hun := unused_of_firstUnused hfind
    have hempty := h.empty hun
    have h0 : Inv im { k with nextpid := (k.nextpid + 1).bmod (2 ^ 32) } :=
      h.same rfl (fun _ => .refl _) rfl rfl rfl rfl
    simp only
    rw [allocpid, bind_iff, bind_iff, get_iff, bind_iff, modify_iff, pure_iff]
    generalize hk0 : ({ k with nextpid := (k.nextpid + 1).bmod (2 ^ 32) } : Kernel) = k0 at *
    rw [bind_iff, ← become_self k0 p, setProc_become_iff]
    have hp0 : k0.proc p = k.proc p := by rw [← hk0]
    rw [hp0]
    -- the entry with its new pid, without any page
    set q1 : Proc := { k.proc p with pid := k.nextpid, state := .used } with hq1
    have he1 : Empty q1 := ⟨hempty.trapframe, hempty.pagetable, hempty.sz, hempty.frame⟩
    have hz : procPages k0.phys.mem (k0.proc p) = 0 := by
      rw [hp0]
      exact hempty.procPages _
    -- giving up: the entry holds what `freeproc` frees
    have hfree0 : k0.phys = k.phys := by rw [← hk0]
    have hfail : ∀ {σ : Phys} {q : Proc}, Inv im (k0.become σ p q) → q.frame.pages = [] →
        freed q = freed (k.proc p) → Moved k0.phys σ 0 (procPages σ.mem q) → k.phys.freelist.length < 4 →
        Ensures (do freeproc im p; return (none : Option Slot)) (k0.become σ p q)
          (fun r k' => Inv im k' ∧
            (∀ np, r = some np → Allocated np k k' ∧
              Moved k.phys k'.phys 0 (procPages k'.phys.mem (k'.proc np))) ∧
            (r = none → (some p = none ∧ k' = k) ∨ k.phys.freelist.length < 4 ∧ Released k k')) := by
      intro σ q hI hf hq hm hlen
      refine (freeproc_spec hI (by rwa [become_proc_self])).bind ?_
      rintro _ k' ⟨hI', σ', hk', hm'⟩
      refine .pure ⟨hI', by simp, fun _ => .inr ⟨hlen, p, σ', hfind, ?_, ?_⟩⟩
      · rw [become_proc_self] at hm'
        rw [← hfree0]
        exact hm.trans hm'
      · rw [hk', become_proc_self, hq, become_become, ← hk0]
        rfl
    rw [bind_iff, onPhys_become_iff]
    cases hfl : k0.phys.freelist with
    | nil =>
      rw [ok_iff (kalloc_run_nil hfl)]
      simp only
      rw [bind_iff, setProc_become_iff]
      have he2 : Empty { q1 with trapframe := none } := ⟨rfl, he1.pagetable, he1.sz, he1.frame⟩
      have hm : Moved k0.phys k0.phys 0 (procPages k0.phys.mem { q1 with trapframe := none }) := by
        rw [he2.procPages]
        exact .refl _ 0
      exact hfail (h0.become (by rwa [hz]) (he2.procOk _)) he2.frame rfl hm
        (by rw [← hfree0, hfl]; simp)
    | cons tf fl =>
      rw [ok_iff (kalloc_run_taken hfl)]
      simp only
      rw [bind_iff, setProc_become_iff]
      set σ2 := taken k0.phys tf (.fill PGSIZE 5) fl
      set q2 : Proc := { q1 with trapframe := some tf } with hq2
      have hpages2 : ∀ m, procPages m q2 = {tf} := fun m => by
        rw [procPages, he1.pagetable, he1.frame]
        rfl
      have hm2 : Moved k0.phys σ2 0 (procPages σ2.mem q2) := by
        rw [hpages2]
        exact moved_taken h0.nodup_free hfl _
      have h2 : Inv im (k0.become σ2 p q2) := by
        refine h0.become (by rwa [hz]) ⟨fun root hr => ?_, fun _ => he1.sz, by simp⟩
        simp [he1.pagetable, q2] at hr
      have hst2 := h2.stock (zero_add _).symm
      have htf : tf < 2 ^ 52 := (h0.pool tf (by simp [hfl])).lt
      rw [bind_iff]
      refine onPhys_become (procPagetable_spec htf hst2) fun r σ3 hr => ?_
      cases r with
      | none =>
        simp only
        rw [bind_iff, setProc_become_iff]
        have hpages3 : ∀ m, procPages m { q2 with pagetable := none } = {tf} := fun m => by
          rw [procPages, he1.frame]
          rfl
        have hlen : k.phys.freelist.length < 4 := by
          have hlt : fl.length < 3 := hr.2
          rw [← hfree0, hfl, List.length_cons]
          omega
        have hm3 : Moved σ2 σ3 (procPages σ2.mem q2) (procPages σ3.mem { q2 with pagetable := none }) := by
          rw [hpages2, hpages3]
          have hm := hr.1.add_rest {tf}
          rwa [zero_add] at hm
        refine hfail (q := { q2 with pagetable := none }) ?_ he1.frame rfl (hm2.trans hm3) hlen
        rw [← become_become σ2 σ3 q2]
        exact h2.become (by rwa [become_proc_self]) ⟨by simp, fun _ => he1.sz, by simp⟩
      | some root =>
        obtain ⟨⟨hm, hu⟩, hlen, hmiss⟩ := hr
        simp only
        rw [bind_iff, setProc_become_iff, pure_iff]
        have hm3 : Moved σ2 σ3 (procPages σ2.mem q2)
            (procPages σ3.mem { q2 with pagetable := some root }) := by
          rw [hpages2, procPages, he1.frame, Multiset.coe_nil, add_zero]
          have hm' := hm.add_rest {tf}
          rw [zero_add, add_comm] at hm'
          exact hm'
        refine ⟨?_, fun np hnp => ?_, by simp⟩
        · rw [← become_become σ2 σ3 q2]
          refine h2.become (by rwa [become_proc_self]) ⟨fun root' hr' => ?_, by simp, by simp⟩
          · obtain rfl := some.inj hr'
            refine ⟨tf, rfl, ?_⟩
            have hn : npages q1.sz = 0 := by
              rw [he1.sz]
              unfold npages PGSIZE
              norm_num
            rwa [← hn] at hu
        · obtain rfl := some.inj hnp
          refine ⟨⟨hfind, tf, root, σ3, by rw [← hk0]; rfl, ?_, hmiss⟩, ?_⟩
          swap
          · rw [become_proc_self, ← hfree0]
            exact hm2.trans hm3
          have hlen' : σ3.freelist.length + 3 = fl.length := hlen
          rw [← hfree0, hfl, List.length_cons]
          omega

/-! ## `growproc` -/

theorem deref_iff {α : Type} {o : Option α} {Q : α → Kernel → Prop} :
    Ensures (deref o) k Q Panic.Expected ↔ ∀ a, o = some a → Q a k := by
  cases o with
  | none => exact ⟨fun _ => nofun, fun _ => .throw trivial⟩
  | some a =>
    rw [deref, pure_iff]
    exact ⟨fun h b hb => some.inj hb ▸ h, fun h => h a rfl⟩

theorem deref_some_iff {α : Type} {o : Option α} {a : α} {Q : α → Kernel → Prop} {E : Panic → Prop}
    (h : o = some a) : Ensures (deref o) k Q E ↔ Q a k := by
  rw [h, deref, pure_iff]

theorem Inv.space (h : Inv im k) {root : ℕ} (hr : (k.proc p).pagetable = some root) :
    Space im USERTOP root ((k.proc p).trapframe.elim 0 (fun tf => {tf}) + (k.proc p).frame.pages +
      k.others p) k.phys := by
  obtain ⟨tf, -, hu⟩ := (h.procs p).space root hr
  refine Stock.space ?_ hu.proper
  have he : k.held = owned k.phys.mem USERTOP root + ((k.proc p).trapframe.elim 0 (fun tf => {tf}) +
      (k.proc p).frame.pages + k.others p) := by
    rw [held_eq k p, procPages, hr, elim_some]
    abel
  exact h.stock he

theorem Inv.resize (h : Inv im k) {root lo sz : ℕ} {σ : Phys} (hr : (k.proc p).pagetable = some root)
    (hk : Kept USERTOP root k.phys σ) (hout : SameOutside lo root k.phys.mem σ.mem)
    (hs : Sized σ.mem root (npages sz)) (hle : npages sz ≤ USERTOP) :
    Inv im (k.become σ p { k.proc p with sz := sz }) := by
  refine h.become ?_ ⟨fun root' hr' => ?_, fun hn => ?_, (h.procs p).unused⟩
  · have hm := hk.toMoved.add_rest
      ((k.proc p).trapframe.elim 0 (fun tf => {tf}) + (k.proc p).frame.pages)
    rw [procPages, procPages, hr, elim_some, elim_some]
    rw [add_left_comm, ← add_assoc, add_left_comm, ← add_assoc] at hm
    exact hm
  · obtain rfl := some.inj (hr.symm.trans hr')
    obtain ⟨tf, htf, hu⟩ := (h.procs p).space root hr
    exact ⟨tf, htf, hu.resize hk.proper hout hs hle⟩
  · exact absurd (hr.symm.trans hn) (by simp)

/-- The size after `growproc(n)`, as `uvmalloc` and `uvmdealloc` return it. -/
def grown (sz : ℕ) (n : ℤ) : ℕ :=
  if 0 < n then max sz ((sz + n) % 2 ^ 64).toNat
  else if n < 0 then min sz ((sz + n) % 2 ^ 64).toNat
  else sz

/-- What `growproc` does to the physical memory when it succeeds. -/
structure Grows (im : Image) (root sz sz' : ℕ) (σ σ' : Phys) : Prop extends
    Resized im root sz sz' σ.mem σ'.mem where
  table : Kept USERTOP root σ σ'
  le : npages sz' ≤ USERTOP
  paid : σ'.freelist.length + growPages σ.mem root (npages sz) (npages sz') =
    σ.freelist.length + (npages sz - npages sz')

/-- **`growproc` resizes the address space, or lacks the memory to.** -/
theorem growproc_spec (h : Inv im k) {root : ℕ} (hr : (k.proc p).pagetable = some root) (n : ℤ) :
    Ensures (growproc im p n) k
      (fun ok k' => ∃ σ sz, k' = k.become σ p { k.proc p with sz := sz } ∧ Grows im root (k.proc p).sz sz
          k.phys σ ∧ sz = grown (k.proc p).sz n ∧ ok = true ∨
        k' = { k with phys := σ } ∧ Kept USERTOP root k.phys σ ∧
          SameOutside (npages (k.proc p).sz) root k.phys.mem σ.mem ∧
          Sized σ.mem root (npages (k.proc p).sz) ∧ 0 < n ∧ ok = false ∧ sz = (k.proc p).sz ∧
          (grown (k.proc p).sz n = 0 ∨ k.phys.freelist.length <
            growPages k.phys.mem root (npages (k.proc p).sz) (npages (grown (k.proc p).sz n)))) := by
  obtain ⟨tf, -, hu⟩ := (h.procs p).space root hr
  have hsp := h.space hr
  rw [growproc, get_bind_iff, get_bind_iff, bind_iff, deref_some_iff hr]
  simp only [grown]
  generalize (((k.proc p).sz + n) % 2 ^ 64).toNat = newsz
  split_ifs with hpos hneg
  · rw [bind_iff]
    refine onPhys_total (uvmalloc_spec (by decide) hu.le hsp hu.sized) fun r σ ⟨hk, hout, hr'⟩ => ?_
    have hpages : growPages k.phys.mem root (npages (k.proc p).sz) (npages newsz) =
        growPages k.phys.mem root (npages (k.proc p).sz) (npages (max (k.proc p).sz newsz)) := by
      rcases le_total (k.proc p).sz newsz with hle | hle
      · rw [max_eq_right hle]
      · rw [max_eq_left hle, growPages_of_le (npages_mono hle), growPages_of_le le_rfl]
    rw [hpages] at hr'
    obtain ⟨rfl, hs, hshort⟩ | ⟨rfl, hle, hs, hz, hpaid⟩ := hr'
    · rw [if_pos rfl, pure_iff]
      exact ⟨σ, _, .inr ⟨rfl, hk, hout, hs, hpos, rfl, rfl, .inr hshort⟩⟩
    · split_ifs with h0
      · -- the entry keeps its size, also if the new size is 0
        rw [pure_iff]
        have hle := le_max_left (k.proc p).sz newsz
        rw [h0] at hle hs
        exact ⟨σ, _, .inr ⟨rfl, hk, hout, by rwa [Nat.le_zero.1 hle], hpos, rfl, rfl, .inl h0⟩⟩
      · rw [bind_iff, setProc_iff, pure_iff]
        have hmono := npages_mono (le_max_left (k.proc p).sz newsz)
        exact ⟨σ, _, .inl ⟨rfl, ⟨⟨hs, hout.mono (min_le_left _ _), hz⟩, hk, hle, by omega⟩, rfl, rfl⟩⟩
  · rw [bind_iff]
    refine onPhys_total (uvmdealloc_spec hsp hu.sized hu.le) fun r σ ⟨hmin, hk, hout, hs, hlen⟩ => ?_
    subst hmin
    rw [bind_iff, setProc_iff, pure_iff]
    have hmono := npages_mono (min_le_left (k.proc p).sz newsz)
    refine ⟨σ, _, .inl ⟨rfl, ⟨⟨hs, hout.mono (min_le_right _ _), fun w _ _ => by omega⟩, hk,
      hmono.trans hu.le, ?_⟩, rfl, rfl⟩⟩
    rw [growPages_of_le hmono]
    exact hlen
  · rw [pure_iff]
    refine ⟨k.phys, (k.proc p).sz, .inl ⟨(become_self k p).symm, ⟨⟨hu.sized, .refl _ _ _, fun w _ _ => by omega⟩,
      .refl hu.proper, hu.le, ?_⟩, rfl, rfl⟩⟩
    rw [growPages_of_le le_rfl, Nat.sub_self]

theorem growproc_keeps (h : Inv im k) (p : Slot) (n : ℤ) : Keeps im (growproc im p n) k := by
  cases hr : (k.proc p).pagetable with
  | none =>
    rw [Keeps, growproc, get_bind_iff, get_bind_iff, bind_iff, deref_iff]
    exact fun root hr' => absurd (hr.symm.trans hr') (by simp)
  | some root =>
    obtain ⟨tf, -, hu⟩ := (h.procs p).space root hr
    refine (growproc_spec h hr n).mono ?_ fun _ hf => hf.elim
    rintro ok k' ⟨σ, sz, ⟨rfl, hg, -⟩ | ⟨rfl, hk, hout, hs, -⟩⟩
    · exact h.resize hr hg.table hg.kept hg.pages hg.le
    · have hinv := h.resize hr hk hout hs hu.le
      simpa only [become, update_eq_self] using hinv

end Kernel

end Xv6
