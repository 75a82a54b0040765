import Xv6.Proc.Slots

/-!
# Proc/Tidy — the entries of the process table are in order

`freeproc` clears an entry when it becomes unused, `allocproc` resets only a part of it when it is
used again.  What each kind of program does to the table is enough to keep it in order.
-/

namespace Xv6

open Machinery Function Ensures

namespace Kernel

variable {im : Image} {k k' : Kernel} {p np : Slot}

/-- What `freeproc` leaves, but for `killed`. -/
structure Clean (q : Proc) : Prop where
  pid : q.pid = 0
  chan : q.chan = none
  xstate : q.xstate = 0
  parent : q.parent = none
  pagetable : q.pagetable = none
  trapframe : q.trapframe = none
  sz : q.sz = 0

/-- An unused entry is clean, and a process has its pages; `b` tells whether unused entries are not
killed either. -/
structure EntryOk (b : Prop) (q : Proc) : Prop where
  unused : q.state = .unused → Clean q ∧ (b → q.killed = false)
  live : q.state ≠ .unused → q.state ≠ .used → q.pagetable ≠ none ∧ q.trapframe ≠ none

/-- All entries are in order. -/
def Tidy (b : Prop) (k : Kernel) : Prop := ∀ p, EntryOk b (k.proc p)

/-- The entry `np` that `allocproc` has returned. -/
structure Fresh (b : Prop) (np : Slot) (k : Kernel) : Prop where
  tidy : Tidy b k
  state : (k.proc np).state = .used
  pagetable : (k.proc np).pagetable ≠ none
  trapframe : (k.proc np).trapframe ≠ none
  killed : b → (k.proc np).killed = false

/-- The process `p` runs. -/
structure Runs (b : Prop) (p : Slot) (k : Kernel) : Prop where
  tidy : Tidy b k
  running : (k.proc p).state = .running

variable {b : Prop} {q : Proc} {α : Type}

theorem Tidy.of_fds (h : Tidy b k) (hf : OnlyFds k k') : Tidy b k' := fun q => by
  obtain ⟨o, ho⟩ := hf.proc q
  rw [ho]
  exact ⟨fun hu => ⟨⟨((h q).unused hu).1.pid, ((h q).unused hu).1.chan, ((h q).unused hu).1.xstate,
    ((h q).unused hu).1.parent, ((h q).unused hu).1.pagetable, ((h q).unused hu).1.trapframe,
    ((h q).unused hu).1.sz⟩, ((h q).unused hu).2⟩, (h q).live⟩

theorem Fresh.of_fds (h : Fresh b np k) (hf : OnlyFds k k') : Fresh b np k' := by
  obtain ⟨o, ho⟩ := hf.proc np
  exact ⟨h.tidy.of_fds hf, by rw [ho, h.state], by rw [ho]; exact h.pagetable,
    by rw [ho]; exact h.trapframe, by rw [ho]; exact h.killed⟩

theorem Runs.of_fds (h : Runs b p k) (hf : OnlyFds k k') : Runs b p k' := by
  obtain ⟨o, ho⟩ := hf.proc p
  exact ⟨h.tidy.of_fds hf, by rw [ho, h.running]⟩

theorem Tidy.setProc (h : Tidy b k) (hq : EntryOk b q) :
    Tidy b { k with proc := update k.proc p q } := fun r => by
  by_cases hr : r = p
  · subst hr
    simpa only [update_self] using hq
  · simpa only [update_of_ne hr] using h r

theorem EntryOk.of_live (hs : q.state ≠ .unused) (hp : q.pagetable ≠ none) (ht : q.trapframe ≠ none) :
    EntryOk b q :=
  ⟨fun hu => absurd hu hs, fun _ _ => ⟨hp, ht⟩⟩

theorem Runs.live (h : Runs b p k) : (k.proc p).pagetable ≠ none ∧ (k.proc p).trapframe ≠ none :=
  (h.tidy p).live (by rw [h.running]; nofun) (by rw [h.running]; nofun)

theorem Works.tidy (hw : Works p k k') (h : Runs b p k) : Tidy b k' := fun q => by
  by_cases hq : q = p
  · subst hq
    refine .of_live ?_ (hw.entry.pagetable h.live.1) ?_
    · rcases hw.entry.state with hs | hs <;> rw [hs]
      · rw [h.running]
        simp
      · simp
    · rw [hw.entry.eq]
      exact h.live.2
  · rw [hw.proc_of_ne hq]
    exact h.tidy q

theorem Rouses.runs (hr : Rouses p k k') (h : Runs b p k) : Runs b p k' where
  tidy q := by
    obtain ⟨heq, hpar, hst⟩ := hr.2 q
    have hlive : (k'.proc q).state ≠ (k.proc q).state → (k.proc q).state = .sleeping := fun hne =>
      (hst.resolve_left hne).1
    refine ⟨fun hu => ?_, fun h1 h2 => ?_⟩
    · have ha : (k.proc q).state = .unused := hst.elim (·.symm.trans hu) fun hs => by simp [hs.2] at hu
      have hclean := (h.tidy q).unused ha
      rw [heq, hpar.resolve_right (by rw [hclean.1.parent]; simp), hu, ← ha]
      exact hclean
    · rw [heq]
      by_cases hne : (k'.proc q).state = (k.proc q).state
      · exact (h.tidy q).live (hne ▸ h1) (hne ▸ h2)
      · exact (h.tidy q).live (by rw [hlive hne]; simp) (by rw [hlive hne]; simp)
  running := (hr.2 p).state.elim (·.trans h.running) fun hs => by simp [h.running] at hs

/-- A program that leaves the entries of the process table in order. -/
def Tidies (b : Prop) {α : Type} (x : KExec α) (k : Kernel) : Prop :=
  Ensures x k (fun _ k' => Tidy b k') fun _ => True

theorem Tidies.of_fds {x : KExec α} (hx : Respects OnlyFds x) (h : Tidy b k) : Tidies b x k :=
  hx.ensures fun _ hf => h.of_fds hf

theorem Tidies.of_self {x : KExec α} (hx : OnSelf p x) (h : Runs b p k) : Tidies b x k :=
  (hx k).mono (fun _ _ hw => hw.tidy h) fun _ _ => trivial

/-! ## `allocproc` and `fork` -/

theorem deref_true {o : Option α} {Q : α → Kernel → Prop}
    (h : ∀ a, o = some a → Q a k) : Ensures (deref o) k Q fun _ => True := by
  cases o with
  | none => exact .throw trivial
  | some a => exact .pure (h a rfl)

theorem freeproc_tidies (h : ∀ r, r ≠ p → EntryOk b (k.proc r)) : Tidies b (freeproc im p) k := by
  rw [Tidies, freeproc, bind_iff, get_iff]
  refine (onPhys_same _ _).bind ?_
  rintro _ k1 ⟨σ1, h1⟩
  refine (onPhys_same _ _).bind ?_
  rintro _ k2 ⟨σ2, h2⟩
  rw [setProc_iff, h2, h1]
  intro r
  by_cases hr : r = p
  · subst hr
    simp only [update_self]
    exact ⟨fun _ => ⟨⟨rfl, rfl, rfl, rfl, rfl, rfl, rfl⟩, fun _ => rfl⟩, fun hu => absurd rfl hu⟩
  · simp only [update_of_ne hr]
    exact h r hr

theorem fresh_update (h : ∀ r, r ≠ p → EntryOk b (k.proc r)) (hs : q.state = .used)
    (hp : q.pagetable ≠ none) (ht : q.trapframe ≠ none) (hk : b → q.killed = false) :
    Fresh b p { k with proc := update k.proc p q } where
  tidy r := by
    by_cases hr : r = p
    · subst hr
      simp only [update_self]
      exact ⟨fun hu => by simp [hs] at hu, fun _ hu => absurd hs hu⟩
    · simpa only [update_of_ne hr] using h r hr
  state := by simpa only [update_self] using hs
  pagetable := by simpa only [update_self] using hp
  trapframe := by simpa only [update_self] using ht
  killed := by simpa only [update_self] using hk

/-- **`allocproc` returns an entry that has not been killed.** -/
theorem allocproc_tidies (h : Tidy b k) :
    Ensures (allocproc im) k
      (fun r k' => Tidy b k' ∧ ∀ np, r = some np → k.firstUnused = some np ∧ Fresh b np k')
      fun _ => True := by
  rw [allocproc, bind_iff, get_iff]
  rw [← firstUnused]
  cases hfind : k.firstUnused with
  | none => exact .pure ⟨h, by simp⟩
  | some p =>
    have hun := unused_of_firstUnused hfind
    have hothers : ∀ {σ : Phys} {n : ℤ} {q : Proc} (r : Slot), r ≠ p → EntryOk b
        (({ k with phys := σ, nextpid := n, proc := update k.proc p q } : Kernel).proc r) :=
      fun r hr => by simpa only [update_of_ne hr] using h r
    simp only
    rw [allocpid, bind_iff, bind_iff, get_iff, bind_iff,
      modify_iff, pure_iff, bind_iff, setProc_iff]
    refine (onPhys_same _ _).bind ?_
    rintro r k1 ⟨σ1, h1⟩
    subst h1
    split
    · rw [bind_iff, setProc_iff]
      simp only [update_self, update_idem]
      exact (freeproc_tidies hothers).bind fun _ k2 h2 => .pure ⟨h2, by simp⟩
    rw [bind_iff, setProc_iff]
    simp only [update_self, update_idem]
    refine (onPhys_same _ _).bind ?_
    rintro r k2 ⟨σ2, h2⟩
    subst h2
    split
    · rw [bind_iff, setProc_iff]
      simp only [update_self, update_idem]
      exact (freeproc_tidies hothers).bind fun _ k2 h2 => .pure ⟨h2, by simp⟩
    · rw [bind_iff, setProc_iff, pure_iff]
      simp only [update_self, update_idem]
      suffices hF : Fresh b p _ from ⟨hF.tidy, fun np hnp => Option.some.inj hnp ▸ ⟨rfl, hF⟩⟩
      refine fresh_update (k := { k with phys := σ2, nextpid := _ }) (fun r _ => h r) rfl (by simp) (by simp)
        fun hb => ((h p).unused hun).2 hb

theorem Fresh.setProc (h : Fresh b np k) (hs : q.state ≠ .unused)
    (hp : q.pagetable = (k.proc np).pagetable) (ht : q.trapframe = (k.proc np).trapframe) :
    Tidy b { k with proc := update k.proc np q } :=
  h.tidy.setProc (.of_live hs (by rw [hp]; exact h.pagetable) (by rw [ht]; exact h.trapframe))

theorem Fresh.setSize (h : Fresh b np k) (sz : ℕ) :
    Fresh b np { k with proc := update k.proc np { k.proc np with sz := sz } } :=
  fresh_update (fun r _ => h.tidy r) h.state h.pagetable h.trapframe h.killed

theorem fork_tidies (h : Tidy b k) (p : Slot) : Tidies b (fork im p) k := by
  rw [Tidies, fork]
  refine (allocproc_tidies h).bind fun r k1 ⟨h1, hfresh⟩ => ?_
  cases r with
  | none => exact .pure h1
  | some np =>
    refine .get_bind ((deref_fds _ _).bind fun old k2 h2 => ?_)
    refine .get_bind ((deref_fds _ _).bind fun new k3 h3 => ?_)
    refine .get_bind ((onPhys_fds _ _).bind fun ok k4 h4 => ?_)
    have hF := (((hfresh np rfl).2.of_fds h2).of_fds h3).of_fds h4
    cases ok with
    | false =>
      rw [if_neg Bool.false_ne_true]
      exact (freeproc_tidies fun r _ => hF.tidy r).bind fun _ k5 h5 => .pure h5
    | true =>
      rw [if_pos rfl, bind_iff, setProc_iff]
      have hF5 := hF.setSize (k3.proc p).sz
      refine .get_bind ((deref_fds _ _).bind fun tf k6 h6 => ?_)
      refine .get_bind ((deref_fds _ _).bind fun ntf k7 h7 => ?_)
      refine (onPhys_fds _ _).bind fun _ k8 h8 => (setTrapframe_fds _ _ _ _).bind fun _ k9 h9 =>
        (dupFiles_fds _ _ _ _).bind fun _ k10 h10 => ?_
      have hF10 := ((((hF5.of_fds h6).of_fds h7).of_fds h8).of_fds h9).of_fds h10
      rw [bind_iff, setProc_iff, get_bind_iff, pure_iff]
      exact hF10.setProc nofun rfl rfl

/-! ## `exit` -/

theorem exit_tidies (h : Runs b p k) (status : ℤ) (msg : Option (Bytes 32)) :
    Tidies b (exit im p status msg) k := by
  rw [Tidies, exit, get_bind_iff]
  split_ifs
  · exact .throw_bind trivial
  refine (closeFiles_fds p _ _).bind fun _ k1 h1 => ?_
  refine (reparentLoop_rouses p _ k1).bind fun _ k2 h2 => ?_
  refine .get_bind ((wakeup_rouses p _ k2).bind fun _ k3 h3 => ?_)
  refine (deref_fds _ _).bind fun buf k4 h4 => ?_
  have h := (h3.runs (h2.runs (h.of_fds h1))).of_fds h4
  rw [setProc_iff]
  exact h.tidy.setProc (.of_live nofun h.live.1 h.live.2)

theorem sysExit_tidies (h : Runs b p k) (n : ℤ) (va : ℕ) (junk : Bytes 32) :
    Tidies b (sysExit im p n va junk) k :=
  (fds_of_memory (argBuff_memory p va junk) k).bind fun _ _ h1 => exit_tidies (h.of_fds h1) n _

/-! ## `kill` -/

/-- The entry that `kill(pid)` marks: the first with this pid. -/
def target (k : Kernel) (pid : ℤ) : Option Slot :=
  (List.finRange NPROC).find? fun p => decide ((k.proc p).pid = pid)

/-- What `kill` does to the entry it finds. -/
def marked (q : Proc) : Proc :=
  { q with killed := true, state := if q.state = .sleeping then .runnable else q.state }

theorem kill_run (k : Kernel) (pid : ℤ) :
    kill pid k = .ok (match k.target pid with
      | none => (false, k)
      | some p => (true, { k with proc := update k.proc p (marked (k.proc p)) })) := by
  change (match k.target pid with | none => _ | some p => _ : KExec Bool) k = _
  cases k.target pid <;> rfl

theorem EntryOk.marked (h : EntryOk b q) (hb : b → q.state ≠ .unused) : EntryOk b (marked q) := by
  by_cases hs : q.state = .sleeping
  · have hl := h.live (by rw [hs]; nofun) (by rw [hs]; nofun)
    refine .of_live ?_ hl.1 hl.2
    simp only [Kernel.marked, if_pos hs]
    nofun
  · have hstate : (Kernel.marked q).state = q.state := by simp only [Kernel.marked, if_neg hs]
    refine ⟨fun hu => ?_, fun h1 h2 => h.live (by rwa [hstate] at h1) (by rwa [hstate] at h2)⟩
    rw [hstate] at hu
    obtain ⟨hc, -⟩ := h.unused hu
    exact ⟨⟨hc.pid, hc.chan, hc.xstate, hc.parent, hc.pagetable, hc.trapframe, hc.sz⟩,
      fun hb' => absurd hu (hb hb')⟩

theorem kill_tidies (h : Tidy b k) (pid : ℤ)
    (hb : b → ∀ q, k.target pid = some q → (k.proc q).state ≠ .unused) : Tidies b (kill pid) k := by
  rw [Tidies, ok_iff (kill_run k pid)]
  cases ht : k.target pid with
  | none => exact h
  | some p => exact h.setProc ((h p).marked fun hb' => hb hb' p ht)

/-! ## Every step -/

theorem userinit_tidies (h : Tidy b k) : Tidies b (userinit im) k := by
  rw [Tidies, userinit]
  refine (allocproc_tidies h).bind ?_
  rintro r k1 ⟨h1, hfresh⟩
  rw [bind_iff, modify_iff]
  cases r with
  | none => exact .throw_bind trivial
  | some np =>
    have hF := (hfresh np rfl).2
    have hF2 : Fresh b np { k1 with initproc := some np } :=
      ⟨hF.tidy, hF.state, hF.pagetable, hF.trapframe, hF.killed⟩
    rw [bind_iff, deref, pure_iff]
    refine .get_bind ((deref_fds _ _).bind fun root k3 h3 => ?_)
    refine (onPhys_fds _ _).bind fun _ k4 h4 => ?_
    have hF5 := ((hF2.of_fds h3).of_fds h4).setSize PGSIZE
    rw [bind_iff, setProc_iff]
    refine .get_bind ((deref_fds _ _).bind fun tf k6 h6 => ?_)
    refine (setTrapframe_fds _ _ _ _).bind fun _ k7 h7 => (setTrapframe_fds _ _ _ _).bind
      fun _ k8 h8 => ?_
    have hF8 := ((hF5.of_fds h6).of_fds h7).of_fds h8
    rw [setProc_iff]
    exact hF8.setProc (by simp) rfl rfl

theorem kvminit_tidies (h : Tidy b k) : Tidies b (kvminit im) k :=
  (onPhys_same _ _).bind fun _ _ ⟨_, hk⟩ => modify_iff.2 (by rw [hk]; exact h)

theorem virtioDiskInit_tidies (h : Tidy b k) : Tidies b virtioDiskInit k := by
  refine (onPhys_fds _ _).bind fun desc k1 h1 => (onPhys_fds _ _).bind fun avail k2 h2 =>
    (onPhys_fds _ _).bind fun used k3 h3 => ?_
  have ht := ((h.of_fds h1).of_fds h2).of_fds h3
  split
  · refine (onPhys_fds _ _).bind fun _ k4 h4 => (onPhys_fds _ _).bind fun _ k5 h5 =>
      (onPhys_fds _ _).bind fun _ k6 h6 => modify_iff.2 ?_
    have ht6 := ((ht.of_fds h4).of_fds h5).of_fds h6
    exact ht6
  · exact .throw trivial

theorem Tidies.map {β : Type} {x : KExec α} (h : Tidies b x k) (f : α → β) :
    Tidies b (do return f (← x)) k :=
  h.bind fun _ _ h' => .pure h'

/-- No `kill` marks an unused entry. -/
def SparesUnused (k : Kernel) : Op → Prop
  | .kill _ pid => ∀ q, k.target pid = some q → (k.proc q).state ≠ .unused
  | _ => True

/-- **Every step leaves the entries of the process table in order.** -/
theorem perform_tidies (h : Tidy b k) {op : Op} (he : k.Enabled op)
    (hb : b → k.SparesUnused op) : Tidies b (perform im op) k := by
  have hruns : ∀ {p : Slot}, k.InUser p → Runs b p k := fun hp => ⟨h, hp.1⟩
  have hstate : ∀ {p : Slot} {s : ProcState}, s ≠ .unused → (k.proc p).state ≠ .unused →
      (k.proc p).state ≠ .used → Tidies b (do
        setProc p fun q => { q with state := s }
        return (none : Option ℤ)) k := fun {p s} hs h1 h2 => by
    rw [Tidies, bind_iff, setProc_iff, pure_iff]
    exact h.setProc (.of_live hs ((h p).live h1 h2).1 ((h p).live h1 h2).2)
  cases op with
  | kvminit => exact (kvminit_tidies h).map fun _ => none
  | virtioDiskInit => exact (virtioDiskInit_tidies h).map fun _ => none
  | userinit => exact (userinit_tidies h).map fun _ => none
  | run p =>
    have hs : (k.proc p).state = .runnable := he
    exact hstate nofun (by rw [hs]; nofun) (by rw [hs]; nofun)
  | yield p =>
    have hs : (k.proc p).state = .running := he
    exact hstate nofun (by rw [hs]; nofun) (by rw [hs]; nofun)
  | fork p => exact (fork_tidies h p).map some
  | exit p n va junk => exact (sysExit_tidies (hruns he) n va junk).map fun _ => none
  | exitKilled p => exact (exit_tidies (hruns he.1) (-1) none).map fun _ => none
  | wait p addr va junk => exact .of_self (sysWait_self addr va junk) (hruns he)
  | rewait p => exact .of_self rewait_self ⟨h, he⟩
  | kill p pid => exact (kill_tidies h pid hb).map fun r => some (if r then 0 else -1)
  | sbrk p n => exact .get_bind ((Tidies.of_self (growproc_self n) (hruns he)).map _)
  | pipe p fdarray => exact (Tidies.of_fds (sysPipe_fds p fdarray) h).map some
  | close p fd => exact (Tidies.of_fds (sysClose_fds p fd) h).map some
  | dup p fd => exact (Tidies.of_fds (sysDup_fds p fd) h).map some
  | openFile p ip device r w => exact (Tidies.of_fds (sysOpen_fds p ip _ r w) h).map some
  | read p fd addr bs => exact (Tidies.of_fds (sysRead_fds p fd addr bs) h).map some
  | write p fd n => exact (Tidies.of_fds (sysWrite_fds p fd n) h).map some
  | execBegin p path uargv => exact .of_self (execBegin_self path uargv) (hruns he)
  | execStep p f => exact .of_self (execStep_self f) ⟨h, he⟩

theorem tidy_kinit (b : Prop) (im : Image) (mem : ℕ → Page) : Tidy b (kinit im mem) := fun _ =>
  ⟨fun _ => ⟨⟨rfl, rfl, rfl, rfl, rfl, rfl, rfl⟩, fun _ => rfl⟩, fun hu => absurd rfl hu⟩

end Kernel

end Xv6
