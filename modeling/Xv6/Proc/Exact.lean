import Xv6.Proc.Accounts
import Xv6.Proc.Deliver

/-!
# Proc/Exact — the references to open files are exact, in every run

`fork` takes a reference for each descriptor of the parent and `exit` gives up all of its own; every
other system call is that of `Proc/Accounts`, or leaves the file table alone.
-/

namespace Xv6

open Machinery Function Ensures List

namespace Kernel

variable {im : Image} {k k' : Kernel} {p : Slot} {i : Fin NFILE} {x : Fin NFILE → ℕ} {y : ℕ → ℕ}
  {D : Slot × Fin NOFILE → Option (Fin NFILE)} {a : Slot × Fin NOFILE} {f0 f1 : Fin NFILE} {α : Type}

/-! ## `fork` and `exit` -/

theorem closeFiles_accounts (hI : Inv im k) (h : Accounted k) (p : Slot) (l : List (Fin NOFILE)) :
    Ensures (closeFiles im p l) k (fun _ k' => Inv im k' ∧ Accounted k' ∧ Own p k k' ∧
      ∀ fd, (fd ∈ l ∨ k.fds (p, fd) = none) → k'.fds (p, fd) = none) (· ∉ filePanics) := by
  induction l generalizing k with
  | nil =>
    exact .pure ⟨hI, h, .of_proc rfl, fun fd hfd => hfd.resolve_left not_mem_nil⟩
  | cons fd l ih =>
    rw [closeFiles, get_bind_iff]
    cases ho : (k.proc p).ofile fd with
    | none =>
      rw [closeFile, pure_bind]
      refine (ih hI h).imp ?_
      rintro _ k' ⟨hI', h', hown, hnone⟩
      refine ⟨hI', h', hown, fun gd hgd => hnone gd ?_⟩
      obtain hgd | hgd := hgd
      · obtain rfl | hgd := mem_cons.1 hgd
        · exact .inr ho
        · exact .inl hgd
      · exact .inr hgd
    | some f =>
      have hgood : Good im (plus 0 f) 0 (update k.fds (p, fd) none) k :=
        ⟨hI, h.refs.remove ho, h.events⟩
      rw [closeFile, bind_assoc]
      refine (fileclose_good hgood).bind ?_
      rintro _ k1 ⟨hp1, h1⟩
      rw [bind_iff, setProc_iff]
      have hfds : (k1.setFd p fd none).fds = update k.fds (p, fd) none := by
        rw [fds_setFd, fds_congr hp1]
      have h2 : Accounted (k1.setFd p fd none) := by
        refine ⟨?_, h1.events⟩
        rw [hfds]
        exact h1.refs
      refine (ih (h1.inv.setFd p fd none) h2).imp ?_
      rintro _ k' ⟨hI', h', hown, hnone⟩
      refine ⟨hI', h', ((Own.of_proc hp1).trans (own_setFd _ _ _ _)).trans hown,
        fun gd hgd => hnone gd ?_⟩
      rw [hfds]
      by_cases hne : gd = fd
      · subst hne
        exact .inr (update_self _ _ _)
      · refine hgd.imp (fun hm => (mem_cons.1 hm).resolve_left hne) fun hn => ?_
        rwa [update_of_ne fun he => hne (Prod.mk.inj he).2]

/-- A process that is not started has no descriptors. -/
def Bare (k : Kernel) : Prop := ∀ q, (k.proc q).Young → ∀ fd, k.fds (q, fd) = none

theorem Bare.of_same (h : Bare k) (hs : SameFiles (fun q => (k.proc q).state = .unused) k k') :
    Bare k' := fun q hq fd => by
  rw [hs.fds]
  by_cases hu : (k.proc q).state = .unused
  · exact h q (.inl hu) fd
  · exact h q (hs.young q hu hq) fd

theorem OnlyFds.young (h : OnlyFds k k') {q : Slot} (hq : (k'.proc q).Young) : (k.proc q).Young := by
  obtain ⟨o, ho⟩ := h.proc q
  rwa [ho] at hq

theorem Bare.of_own (h : Bare k) (hf : OnlyFds k k') (ho : Own p k k')
    (hp : (k.proc p).state = .running) : Bare k' := fun q hq fd => by
  have hy := hf.young hq
  have hne : q ≠ p := by
    rintro rfl
    rw [Proc.Young, hp] at hy
    exact hy.elim (by simp) (by simp)
  exact (congrFun (ho q hne) fd).trans (h q hy fd)

/-- Open files are accounted for, and are the processes'. -/
abbrev Settles {α : Type} (x : KExec α) (k : Kernel) : Prop :=
  Ensures x k (fun _ k' => Accounted k' ∧ Bare k') (· ∉ filePanics)

theorem settles_of_accounts {x : KExec α} (hb : Bare k) (hx : Accounts p x k)
    (hf : Respects OnlyFds x) (hp : (k.proc p).state = .running) : Settles x k :=
  (hx.and (hf k)).mono (fun _ _ ⟨⟨h, ho⟩, hf⟩ => ⟨h, hb.of_own hf ho hp⟩) fun _ he => he.1

theorem settles_of_same {x : KExec α} (h : Accounted k) (hb : Bare k)
    (hx : Ensures x k (fun _ k' => SameFiles (fun q => (k.proc q).state = .unused) k k') (· ∉ filePanics)) :
    Settles x k :=
  hx.imp fun _ _ hs => ⟨h.of_same hs, hb.of_same hs⟩

/-- **`exit` gives up every descriptor.** -/
theorem exit_settles (hI : Inv im k) (h : Accounted k) (hb : Bare k) (p : Slot) (n : ℤ)
    (msg : Option (Bytes 32)) : Settles (exit im p n msg) k := by
  rw [Settles, exit, get_bind_iff]
  split_ifs
  · exact bind_iff.2 (.throw (by decide))
  refine (((closeFiles_accounts hI h p _).and (closeFiles_fds p _ k)).mono (fun _ _ h => h)
    fun _ he => he.1).bind ?_
  rintro _ k1 ⟨⟨hI1, h1, hown, hnone⟩, hfds⟩
  have hb1 : Bare k1 := fun q hq fd => by
    by_cases hqp : q = p
    · subst hqp
      exact hnone fd (.inl (mem_finRange fd))
    · exact (congrFun (hown q hqp) fd).trans (hb q (hfds.young hq) fd)
  refine settles_of_same h1 hb1 ?_
  refine ((leaves_of_rouses (reparentLoop_rouses p _)).bind fun _ => .get_bind fun k =>
    (leaves_of_rouses (wakeup_rouses p _)).bind fun _ => (leaves_of_memory (deref_memory _)).bind fun buf => ?_ :
    LeavesFiles _ _) k1
  exact setState_leaves (by intro _; rfl) (.inr fun _ => not_young_of_state (by simp) (by simp))

theorem dupFiles_accounts (h : Accounted k) {np : Slot} {l : List (Fin NOFILE)}
    (hl : l.Nodup) (hnone : ∀ fd ∈ l, k.fds (np, fd) = none) :
    Ensures (dupFiles p np l) k (fun _ k' => Accounted k' ∧ Own np k k') (· ∉ filePanics) := by
  induction l generalizing k with
  | nil => exact .pure ⟨h, .of_proc rfl⟩
  | cons fd l ih =>
    obtain ⟨hfd, hl⟩ := nodup_cons.1 hl
    rw [dupFiles, get_bind_iff]
    cases ho : (k.proc p).ofile fd with
    | none =>
      rw [dupFile, pure_bind]
      exact ih h hl fun gd hgd => hnone gd (mem_cons_of_mem _ hgd)
    | some f =>
      rw [dupFile, bind_assoc]
      refine (filedup_refs h.refs h.events (one_le_ref h (a := (p, fd)) ho)).bind fun _ k1 hr => ?_
      obtain ⟨hrefs, hev, hk1⟩ := hr
      have hp1 : k1.proc = k.proc := by rw [hk1]
      have htype : (k1.file f).type ≠ .none := by
        rw [hk1]
        simp only [update_self]
        exact h.refs.typed (p, fd) f ho
      have hfds : (k1.setFd np fd (some f)).fds = update k.fds (np, fd) (some f) := by
        rw [fds_setFd, fds_congr hp1]
      have h2 : Accounted (k1.setFd np fd (some f)) := by
        refine ⟨?_, hev⟩
        rw [hfds]
        exact hrefs.install (hnone fd mem_cons_self) htype
      rw [bind_iff, setProc_iff]
      refine (ih (k := k1.setFd np fd (some f)) h2 hl fun gd hgd => ?_).imp fun _ k' h' =>
        ⟨h'.1, ((Own.of_proc hp1).trans (own_setFd _ _ _ _)).trans h'.2⟩
      have hne' : (np, gd) ≠ (np, fd) := fun he => by
        obtain rfl := (Prod.mk.inj he).2
        exact hfd hgd
      rw [hfds, update_of_ne hne']
      exact hnone gd (mem_cons_of_mem _ hgd)

/-- **`fork` takes a reference for each descriptor of the parent**, or none. -/
theorem fork_settles (h : Accounted k) (hb : Bare k) (p : Slot) : Settles (fork im p) k := by
  rw [Settles, fork]
  refine allocproc_bind (fun _ => id) (fun k1 h1 => .pure ⟨h.of_same h1.sameFiles, hb.of_same h1.sameFiles⟩)
    fun np k1 hnp h1 => ?_
  have hmem : ∀ {α : Type} {x : KExec α}, OnMemory x → Respects (Nurses True np) x (· ∉ filePanics) :=
    child_of_memory fun _ => id
  refine .get_bind (((hmem (deref_memory _)).after h1).bind fun old k2 h2 => ?_)
  refine .get_bind (((hmem (deref_memory _)).after h2).bind fun new k3 h3 => ?_)
  refine .get_bind (((hmem (onPhys_memory _)).after h3).bind fun ok k4 h4 => ?_)
  split_ifs
  · refine ((setProc_child (by intro _; exact ⟨rfl, rfl, id, fun _ => rfl⟩)).after h4).bind fun _ k5 h5 => ?_
    refine .get_bind (((hmem (deref_memory _)).after h5).bind fun tf k6 h6 => ?_)
    refine .get_bind (((hmem (deref_memory _)).after h6).bind fun ntf k7 h7 => ?_)
    refine ((hmem (onPhys_memory _)).after h7).bind fun _ k8 h8 => ?_
    refine ((hmem (setTrapframe_memory _ _ _)).after h8).bind fun _ k9 h9 => ?_
    replace h9 : SameFiles (fun q => (k.proc q).state = .unused) k k9 := h9.sameFiles hnp
    have hnone : ∀ fd ∈ List.finRange NOFILE, k9.fds (np, fd) = none := fun fd _ => by
      rw [h9.fds]
      exact hb np (.inl hnp) fd
    refine (((dupFiles_accounts (h.of_same h9) (nodup_finRange _) hnone).and
      (dupFiles_fds p np _ k9)).mono (fun _ _ h => h) fun _ he => he.1).bind ?_
    rintro _ k' ⟨⟨h', hown⟩, hfds⟩
    rw [bind_iff, setProc_iff, get_bind_iff, pure_iff]
    refine ⟨h'.of_same (S := fun _ => True) (sameFiles_update rfl fun hn => absurd trivial hn),
      fun q hq fd => ?_⟩
    -- the child is not young, and nobody else has changed
    by_cases hqn : q = np
    · subst hqn
      simp only [update_self] at hq
      exact absurd hq (not_young_of_state (by simp) (by simp))
    · simp only [update_of_ne hqn] at hq
      have hy : (k.proc q).Young := by
        by_cases hu : (k.proc q).state = .unused
        · exact .inl hu
        · exact h9.young q hu (hfds.young hq)
      change (update k'.proc np _ q).ofile fd = none
      rw [update_of_ne hqn, hown q hqn, h9.ofile q]
      exact hb q hy fd
  · refine ((freeproc_child fun _ => id).after h4).bind fun _ k5 h5 => .pure ?_
    have hs := (Born.sameFiles (.inr ⟨np, hnp, h5⟩) : SameFiles _ k k5)
    exact ⟨h.of_same hs, hb.of_same hs⟩

/-! ## Runs -/

/-- **Every step accounts for open files**, and does not panic over them. -/
theorem perform_settles (h : Accounted k) (hb : Bare k) {op : Op} (he : k.Enabled op)
    (hI : op.UsesFiles → Inv im k) : Settles (perform im op) k := by
  have hmap : ∀ {α : Type} {x : KExec α} (f : α → Option ℤ), Settles x k → Settles (do return f (← x)) k :=
    fun f hx => hx.bind fun _ _ h => .pure h
  cases op with
  | fork p => exact hmap _ (fork_settles h hb p)
  | exit p n va junk =>
    have hbuff : Ensures (argBuff p va junk) k (fun _ k' => k' = k) (· ∉ filePanics) :=
      ((argBuff_spec p va junk).and (argBuff_memory p va junk k)).mono
        (fun _ _ h => h.1) fun _ he => he.2
    refine hmap _ (hbuff.bind fun buff k1 hk1 => ?_)
    rw [hk1]
    exact exit_settles (hI trivial) h hb p n _
  | exitKilled p => exact hmap _ (exit_settles (hI trivial) h hb p _ _)
  | pipe p fdarray =>
    exact hmap _ (settles_of_accounts hb (sysPipe_accounts (hI trivial) h p fdarray) (sysPipe_fds _ _) he.1)
  | close p fd =>
    exact hmap _ (settles_of_accounts hb (sysClose_accounts (hI trivial) h p fd) (sysClose_fds _ _) he.1)
  | dup p fd => exact hmap _ (settles_of_accounts hb (sysDup_accounts h p fd) (sysDup_fds _ _) he.1)
  | openFile p ip device r w =>
    refine hmap _ (settles_of_accounts hb (sysOpen_accounts (hI trivial) h p ip ?_ r w)
      (sysOpen_fds _ _ _ _ _) he.1)
    cases device
    · exact .inl rfl
    · exact .inr rfl
  | read p fd addr bs =>
    exact hmap _ (settles_of_accounts hb (sysRead_accounts h p fd addr bs) (sysRead_fds _ _ _ _) he.1)
  | write p fd n =>
    exact hmap _ (settles_of_accounts hb (sysWrite_accounts h p fd n) (sysWrite_fds _ _ _) he.1)
  | _ => exact settles_of_same h hb (perform_leaves nofun)

theorem settled_of_reachable (hk : (live im).Reachable k) : Accounted k ∧ Bare k := by
  refine hk.invariant (I := fun k => Accounted k ∧ Bare k) (fun k hk => ?_) fun k l k' hk hI hst => ?_
  · obtain ⟨mem, rfl⟩ := hk
    have hrefs : ∀ i, tally (refersTo i) (kinit im mem).fds = 0 := fun _ => tally_eq_zero fun _ => rfl
    have hends : ∀ pi w, tally (isEnd pi w) (kinit im mem).file = 0 := fun _ _ =>
      tally_eq_zero fun _ => rfl
    have hinodes : ∀ ip, tally (isInode ip) (kinit im mem).file = 0 := fun _ => tally_eq_zero fun _ => rfl
    refine ⟨⟨⟨fun i => ?_, nofun⟩, ⟨fun pi w => ?_, fun pi => ?_, fun ip => ?_⟩⟩, fun _ _ _ => rfl⟩
    · rw [hrefs]
      rfl
    · rw [hends]
      rfl
    · rw [if_pos (hends pi)]
      rfl
    · rw [hinodes]
      rfl
  · exact (perform_settles hI.1 hI.2 hst.2.1 (inv_of_usesFiles hk hst.2.1 hst.1)).of_ok hst.2.2

theorem unref_of_reachable (hk : (live im).Reachable k) (i : Fin NFILE) :
    (k.file i).ref = 0 → (k.file i).type = .none := by
  refine hk.invariant (I := fun k => (k.file i).ref = 0 → (k.file i).type = .none) (fun k hk => ?_)
    fun k l k' hk hI hst => ?_
  · obtain ⟨mem, rfl⟩ := hk
    exact fun _ => rfl
  by_cases hf : l.1.UsesFiles
  · have ha : k.Affords l.1 := by
      generalize l.1 = op at hf
      cases op with
      | userinit => exact absurd hf nofun
      | _ => trivial
    have hkeep := inv_of_usesFiles hk hst.2.1 hst.1 hf
    exact ((perform_keeps hkeep hst.2.1 ha).of_ok hst.2.2).files.unref i
  · rw [((perform_leaves hf).of_ok hst.2.2).file]
    exact hI

/-- References to open files are exact. -/
structure Exact (k : Kernel) : Prop where
  /-- The references to a file are the descriptors that refer to it. -/
  ref : ∀ i, (k.file i).ref = tally (refersTo i) k.fds
  closed : ∀ i, (k.file i).ref = 0 → (k.file i).type = .none
  opened : ∀ p fd i, (k.proc p).ofile fd = some i → (k.file i).type ≠ .none
  /-- Each end of each pipe was closed once, or is open. -/
  pipeclose : ∀ pi w, k.trace.count (.pipealloc pi) =
    k.trace.count (.pipeclose pi w) + tally (isEnd pi w) k.file
  /-- The page of each pipe was freed once, or one of its ends is open. -/
  pipefree : ∀ pi, k.trace.count (.pipealloc pi) =
    k.trace.count (.pipefree pi) + if ∀ w, tally (isEnd pi w) k.file = 0 then 0 else 1
  /-- Each inode that was opened was put once, or is open. -/
  iput : ∀ ip, k.trace.count (.iref ip) = k.trace.count (.iput ip) + tally (isInode ip) k.file

/-- **References to open files are exact between system calls, in every run, and no step panics over an
open file.** -/
theorem file_references (im : Image) {k : Kernel} (hk : (live im).Reachable k) :
    Exact k ∧ ∀ op e, k.Enabled op → (∀ p, op.caller = some p → k.HasCode p) →
      perform im op k = .error e → e ∉ filePanics := by
  obtain ⟨h, hb⟩ := settled_of_reachable hk
  refine ⟨⟨fun i => ?_, unref_of_reachable hk, fun p fd => h.refs.typed (p, fd), h.events.closes,
    h.events.frees, fun ip => ?_⟩, fun op e he hc hr => ?_⟩
  · rw [h.refs.count i, Pi.zero_apply, add_zero]
  · rw [h.events.inodes ip, Pi.zero_apply, add_zero]
  · exact (perform_settles h hb he (inv_of_usesFiles hk he hc)).of_error hr

theorem permits_live : Permits fun k l => ∀ p, l.1.caller = some p → k.HasCode p := fun _ _ _ h => h

theorem lenient_live : Lenient fun k l => ∀ p, l.1.caller = some p → k.HasCode p := permits_live.lenient

/-- The first process has a device open. -/
theorem file_references_init : ∃ k, (live roomyImage).Reachable k ∧
    (k.proc initSlot).ofile firstFd = some firstFile ∧ Exact k ∧
    ∀ op e, k.Enabled op → (∀ p, op.caller = some p → k.HasCode p) →
      perform roomyImage op k = .error e → e ∉ filePanics := by
  obtain ⟨k, tf, root, hk, hi⟩ := exists_initRuns lenient_live
  have hstep : (live roomyImage).step k (.openFile initSlot 0 true true false, some 0)
      (k.opened initSlot) := by
    refine ⟨fun p hp => ?_, hi.inUser, Exec.bind_ok (sysOpen_first hi.file fun fd => ?_)⟩
    · obtain rfl := Option.some.inj hp
      exact hi.hasCode
    · rw [hi.proc_init]
      rfl
  have hk' : (live roomyImage).Reachable (k.opened initSlot) := hk.step hstep
  refine ⟨_, hk', ?_, file_references roomyImage hk'⟩
  simp only [opened, update_self]

end Kernel

end Xv6
