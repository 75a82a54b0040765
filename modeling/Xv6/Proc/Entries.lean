import Xv6.Proc.Wait

/-!
# Proc/Entries — what the steps do to the entries of the process table

Besides `fork`, `userinit` and `exit`, a step leaves the pid, the status and the message of every
entry alone, and changes the state only of the process that acts and of sleepers (`step_touches`).
-/

namespace Xv6

open Machinery Function Ensures

namespace Kernel

variable {im : Image} {k k' : Kernel} {p : Slot} {S : Slot → Prop}

/-- The entry `a` has become `b`, in no `fork` and no `exit`; `s` tells whether its process may
act. -/
structure Touch (s : Prop) (a b : Proc) : Prop where
  pid : b.pid = a.pid
  msg : b.exitMsg = a.exitMsg
  xstate : b.xstate = a.xstate
  state : b.state = a.state ∨ (s ∨ a.state = .sleeping) ∧
    (b.state = .running ∨ b.state = .runnable ∨ b.state = .sleeping)
  frame : ∀ addr dst, b.frame = .wait addr dst → dst < 256 ∨ a.frame = .wait addr dst

/-- Every entry is as it was, or was touched; the processes of `S` may act. -/
def AllTouch (S : Slot → Prop) (k k' : Kernel) : Prop := ∀ q, Touch (S q) (k.proc q) (k'.proc q)

theorem Touch.refl (s : Prop) (a : Proc) : Touch s a a := ⟨rfl, rfl, rfl, .inl rfl, fun _ _ => .inr⟩

theorem Touch.trans {s : Prop} {a b c : Proc} (h : Touch s a b) (h' : Touch s b c) : Touch s a c where
  pid := h'.pid.trans h.pid
  msg := h'.msg.trans h.msg
  xstate := h'.xstate.trans h.xstate
  state := by
    rcases h.state with hab | ⟨hs, hb⟩
    · rw [← hab]
      exact h'.state
    · rcases h'.state with hbc | ⟨-, hc⟩
      · exact .inr ⟨hs, hbc ▸ hb⟩
      · exact .inr ⟨hs, hc⟩
  frame addr dst hc := (h'.frame addr dst hc).elim .inl (h.frame addr dst)

theorem Touch.other {s : Prop} {a b : Proc} (hp : b.pid = a.pid) (hm : b.exitMsg = a.exitMsg)
    (hx : b.xstate = a.xstate) (hf : b.frame = a.frame)
    (hs : b.state = a.state ∨ a.state = .sleeping ∧ b.state = .runnable) : Touch s a b :=
  ⟨hp, hm, hx, hs.imp_right fun h => ⟨.inr h.1, .inr (.inl h.2)⟩, fun _ _ h => .inr (hf.symm.trans h)⟩

instance : Std.Refl (AllTouch S) := ⟨fun _ _ => .refl _ _⟩

instance : IsTrans Kernel (AllTouch S) := ⟨fun _ _ _ h h' q => (h q).trans (h' q)⟩

theorem touches_of_fds {α : Type} {x : KExec α} (h : Respects OnlyFds x) : Respects (AllTouch S) x :=
  fun k => (h k).imp fun _ _ hk q => by
    obtain ⟨o, ho⟩ := hk.proc q
    rw [ho]
    exact .other rfl rfl rfl rfl (.inl rfl)

theorem allTouch_update {q : Proc} (h : Touch (S p) (k.proc p) q) :
    AllTouch S k { k with proc := update k.proc p q } := fun r => by
  by_cases hr : r = p
  · subst hr
    simpa only [update_self] using h
  · simpa only [update_of_ne hr] using Touch.refl _ _

theorem setProc_touches {f : Proc → Proc} (h : ∀ q, Touch (S p) q (f q)) :
    Respects (AllTouch S) (setProc p f) :=
  .modify fun _ => allTouch_update (h _)

theorem Works.touches (h : Works p k k') (hp : S p) : AllTouch S k k' := fun q => by
  by_cases hq : q = p
  · subst hq
    refine ⟨?_, ?_, ?_, h.entry.state.imp_right fun hs => ⟨.inl hp, .inr (.inr hs)⟩, h.entry.frame⟩
    all_goals rw [h.entry.eq]
  · rw [h.proc_of_ne hq]
    exact .refl _ _

theorem touches_of_self {α : Type} {x : KExec α} (h : OnSelf p x) (hp : S p) :
    Ensures x k (fun _ k' => AllTouch S k k') fun _ => True :=
  (h k).mono (fun _ _ hk => hk.touches hp) fun _ _ => trivial

theorem Rouses.touches (h : Rouses p k k') : AllTouch S k k' := fun q => by
  obtain ⟨heq, -, hs⟩ := h.2 q
  refine .other ?_ ?_ ?_ ?_ hs
  all_goals rw [heq]

/-! ## The system calls -/

theorem kill_touches (pid : ℤ) : Respects (AllTouch S) (kill pid) := fun k => by
  rw [ok_iff (kill_run k pid)]
  cases k.target pid with
  | none => exact refl k
  | some p =>
    refine allTouch_update (.other rfl rfl rfl rfl ?_)
    by_cases hs : (k.proc p).state = .sleeping
    · exact .inr ⟨hs, if_pos hs⟩
    · exact .inl (if_neg hs)

/-- **`exit` leaves its status and its message in the entry of its process.** -/
theorem exit_touches (p : Slot) (n : ℤ) (msg : Option (Bytes 32)) :
    Ensures (exit im p n msg) k (fun _ k' => ∃ k1 buf, msg = some buf ∧ AllTouch S k k1 ∧
      k' = k1.become k1.phys p
        { k1.proc p with exitMsg := strncpy32 buf, xstate := n, state := .zombie }) fun _ => True := by
  rw [exit, get_bind_iff]
  split_ifs
  · exact .throw_bind trivial
  refine (touches_of_fds (S := S) (closeFiles_fds p _) k).bind fun _ k1 h1 => ?_
  refine (reparentLoop_rouses p _ k1).bind fun _ k2 h2 => ?_
  refine .get_bind ((wakeup_rouses p _ k2).bind fun _ k3 h3 => ?_)
  have h : AllTouch S k k3 := fun q => ((h1 q).trans (h2.touches q)).trans (h3.touches q)
  cases msg with
  | none => exact .throw_bind trivial
  | some buf =>
    rw [bind_iff, deref_some_iff rfl, setProc_iff]
    exact ⟨k3, buf, rfl, h, rfl⟩

/-! ## The steps -/

/-- The steps that give an entry to a process, or take a process out of the schedule. -/
def Op.Marks : Op → Prop
  | .userinit | .fork _ | .exit .. => True
  | _ => False

/-- `p` has a process that a scheduler runs. -/
def Acts (k : Kernel) (p : Slot) : Prop := (k.proc p).state = .running ∨ (k.proc p).state = .runnable

/-- **What a step does to an entry**, besides `fork`, `userinit` and `exit`. -/
theorem step_touches {op : Op} {r : Option ℤ} (hst : (system im).step k (op, r) k') (hop : ¬ op.Marks) :
    AllTouch k.Acts k k' := by
  obtain ⟨he, hrun⟩ := hst
  have hmap : ∀ {α : Type} {x : KExec α} {f : α → Option ℤ},
      Ensures x k (fun _ k' => AllTouch k.Acts k k') (fun _ => True) →
      Ensures (do return f (← x)) k (fun _ k' => AllTouch k.Acts k k') fun _ => True :=
    fun h => h.bind fun _ _ h' => .pure h'
  suffices h : Ensures (perform im op) k (fun _ k' => AllTouch k.Acts k k') fun _ => True from h.of_ok hrun
  cases op with
  | userinit => exact absurd trivial hop
  | fork p => exact absurd trivial hop
  | exit p n va junk => exact absurd trivial hop
  | kvminit =>
    exact hmap (f := fun _ => none) ((touches_of_fds (onPhys_fds _) k).bind fun _ k1 h1 =>
      modify_iff.2 h1)
  | virtioDiskInit =>
    refine hmap (f := fun _ => none) ((?_ : Respects (AllTouch k.Acts) virtioDiskInit) k)
    refine (touches_of_fds (onPhys_fds _)).bind fun desc => (touches_of_fds (onPhys_fds _)).bind
      fun avail => (touches_of_fds (onPhys_fds _)).bind fun used => ?_
    split
    · exact (touches_of_fds (onPhys_fds _)).bind fun _ => (touches_of_fds (onPhys_fds _)).bind fun _ =>
        (touches_of_fds (onPhys_fds _)).bind fun _ => .modify fun _ _ => .refl _ _
    · exact .throw trivial
  | run p =>
    refine hmap (f := fun _ => none) (setProc_touches (p := p) (fun q => ?_) k)
    exact ⟨rfl, rfl, rfl, .inr ⟨.inl (.inr he), .inl rfl⟩, fun _ _ => .inr⟩
  | yield p =>
    refine hmap (f := fun _ => none) (setProc_touches (p := p) (fun q => ?_) k)
    exact ⟨rfl, rfl, rfl, .inr ⟨.inl (.inl he), .inr (.inl rfl)⟩, fun _ _ => .inr⟩
  | exitKilled p =>
    refine hmap (f := fun _ => none) ((exit_touches (S := k.Acts) p (-1) none).imp fun _ _ ⟨_, _, h, _⟩ => ?_)
    exact absurd h nofun
  | wait p addr va junk => exact touches_of_self (sysWait_self addr va junk) (.inl he.1)
  | rewait p => exact touches_of_self rewait_self (.inl he)
  | kill p pid => exact hmap (f := fun r => some (if r then 0 else -1)) (kill_touches pid k)
  | sbrk p n => exact .get_bind (hmap (touches_of_self (growproc_self n) (.inl he.1)))
  | pipe p fdarray => exact hmap (f := some) (touches_of_fds (sysPipe_fds p fdarray) k)
  | close p fd => exact hmap (f := some) (touches_of_fds (sysClose_fds p fd) k)
  | dup p fd => exact hmap (f := some) (touches_of_fds (sysDup_fds p fd) k)
  | openFile p ip device r w => exact hmap (f := some) (touches_of_fds (sysOpen_fds p ip _ r w) k)
  | read p fd addr bs => exact hmap (f := some) (touches_of_fds (sysRead_fds p fd addr bs) k)
  | write p fd n => exact hmap (f := some) (touches_of_fds (sysWrite_fds p fd n) k)
  | execBegin p path uargv => exact touches_of_self (execBegin_self path uargv) (.inl he.1)
  | execStep p f => exact touches_of_self (execStep_self f) (.inl he)

theorem exit_step_eq {n : ℤ} {va : ℕ} {junk : Bytes 32} {r : Option ℤ}
    (hst : (system im).step k (.exit p n va junk, r) k') :
    ∃ k1 buf, AllTouch (fun _ => False) k k1 ∧ k' = k1.become k1.phys p
      { k1.proc p with exitMsg := strncpy32 buf, xstate := n, state := .zombie } := by
  have hexit : Ensures (sysExit im p n va junk) k (fun _ k' => ∃ k1 buf, AllTouch (fun _ => False) k k1 ∧
      k' = k1.become k1.phys p
        { k1.proc p with exitMsg := strncpy32 buf, xstate := n, state := .zombie }) fun _ => True := by
    refine ((argBuff_spec p va junk).mono (fun _ _ h => h) fun _ _ => trivial).bind fun buff k0 he => ?_
    rw [he]
    exact (exit_touches p n (some buff)).imp fun _ _ ⟨k1, buf, _, h, hk'⟩ => ⟨k1, buf, h, hk'⟩
  obtain ⟨_, -, h⟩ := (hexit.map fun _ => (none : Option ℤ)).of_ok hst.2
  exact h

end Kernel

end Xv6
