import Xv6.Proc.Entries

/-!
# Proc/Message — the status and the message of a child that has exited

Only `exit` writes `exit_msg`, and nothing makes a zombie a process again, so the entry of a zombie
holds what its process passed to `exit`.  `wait` takes the first byte at `msg` for the address of
the message.
-/

namespace Xv6

open Machinery Function

namespace Kernel

variable {im : Image} {k k' : Kernel} {p : Slot} {S : Slot → Prop}

/-! ## Zombies stay -/

/-- The entry `a` has become `b`, not by `exit`; unless `s`, a zombie stays as it is. -/
structure Lasts (s : Prop) (a b : Proc) : Prop where
  msg : b.exitMsg = a.exitMsg
  born : b.state = .zombie → a.state = .zombie
  frame : ∀ addr dst, b.frame = .wait addr dst → dst < 256 ∨ a.frame = .wait addr dst
  stays : ¬ s → a.state = .zombie → b.state = .zombie ∧ b.xstate = a.xstate

/-- No process has exited, and the zombies outside `S` are as they were. -/
def AllLast (S : Slot → Prop) (k k' : Kernel) : Prop := ∀ q, Lasts (S q) (k.proc q) (k'.proc q)

theorem Lasts.refl (s : Prop) (a : Proc) : Lasts s a a :=
  ⟨rfl, id, fun _ _ => .inr, fun _ h => ⟨h, rfl⟩⟩

theorem Touch.lasts {s : Prop} {a b : Proc} (h : Touch s a b) : Lasts s a b where
  msg := h.msg
  born hz := by
    rcases h.state with he | ⟨-, hb⟩
    · exact he.symm.trans hz
    · rw [hz] at hb
      exact hb.elim nofun (·.elim nofun nofun)
  frame := h.frame
  stays hs hz := by
    refine ⟨?_, h.xstate⟩
    rcases h.state with he | ⟨ha, -⟩
    · exact he.trans hz
    · exact ha.elim (absurd · hs) fun ha => nomatch hz.symm.trans ha

theorem Born.lasts {fs : Prop} (h : Born fs k k') (q : Slot) : Lasts False (k.proc q) (k'.proc q) := by
  obtain rfl | ⟨np, hun, hn⟩ := h
  · exact .refl _ _
  by_cases hq : q = np
  · subst hq
    exact ⟨hn.msg, hn.zombie, fun _ _ h => .inr (hn.frame.symm.trans h), fun _ hz => by simp [hun] at hz⟩
  · rw [hn.others q hq]
    exact .refl _ _

/-- **`exit` leaves its status and its message in the entry of its process, and no other zombie.** -/
theorem exit_lasts (p : Slot) (n : ℤ) (msg : Option (Bytes 32)) :
    Ensures (exit im p n msg) k (fun _ k' => ∃ k1 buf, msg = some buf ∧ AllLast S k k1 ∧
      k' = k1.become k1.phys p
        { k1.proc p with exitMsg := strncpy32 buf, xstate := n, state := .zombie }) fun _ => True := by
  exact (exit_touches p n msg).imp fun _ _ ⟨k1, buf, hbuf, h, hk'⟩ => ⟨k1, buf, hbuf, fun q => (h q).lasts, hk'⟩

/-! ## Runs -/

/-- Entries that are no zombies hold no message; a sleeper in `wait` took a byte for an address. -/
structure Blank (k : Kernel) : Prop where
  msg : ∀ q, (k.proc q).state ≠ .zombie → (k.proc q).exitMsg = .fill 32 0
  frame : ∀ q addr dst, (k.proc q).frame = .wait addr dst → dst < 256

/-- **A step other than `exit` makes no zombie and changes none.** -/
theorem step_lasts {op : Op} {r : Option ℤ} (hst : (system im).step k (op, r) k')
    (hne : ∀ p n va junk, op ≠ .exit p n va junk) (q : Slot) : Lasts False (k.proc q) (k'.proc q) := by
  by_cases hop : op.Marks
  · obtain ⟨-, hrun⟩ := hst
    cases op with
    | userinit =>
      obtain ⟨_, -, h⟩ := ((userinit_born k).map fun _ => (none : Option ℤ)).of_ok hrun
      exact h.lasts q
    | fork p =>
      obtain ⟨_, -, h⟩ := ((fork_born p k).map some).of_ok hrun
      exact h.lasts q
    | exit p n va junk => exact absurd rfl (hne p n va junk)
    | _ => exact absurd hop id
  · have h := (step_touches hst hop q).lasts
    refine ⟨h.msg, h.born, h.frame, fun _ hz => h.stays (fun ha => ?_) hz⟩
    exact ha.elim (fun ha => nomatch hz.symm.trans ha) fun ha => nomatch hz.symm.trans ha

/-- **A step of `exit` makes its process a zombie, and no other.** -/
theorem exit_step {n : ℤ} {va : ℕ} {junk : Bytes 32} {r : Option ℤ}
    (hst : (system im).step k (.exit p n va junk, r) k') :
    (k'.proc p).state = .zombie ∧ (k'.proc p).xstate = n ∧
      (∀ addr dst, (k'.proc p).frame = .wait addr dst → dst < 256 ∨ (k.proc p).frame = .wait addr dst) ∧
      ∀ q ≠ p, Lasts False (k.proc q) (k'.proc q) := by
  obtain ⟨k1, buf, htouch, rfl⟩ := exit_step_eq hst
  refine ⟨by rw [become_proc_self], by rw [become_proc_self], fun addr dst h => ?_, fun q hq => ?_⟩
  · rw [become_proc_self] at h
    exact (htouch p).frame addr dst h
  · rw [become_proc_of_ne hq]
    exact (htouch q).lasts

theorem Blank.step (hb : Blank k) {l : Op × Option ℤ} (hst : (system im).step k l k') : Blank k' := by
  have hkeep : ∀ q, Lasts False (k.proc q) (k'.proc q) → (k'.proc q).state ≠ .zombie →
      (k'.proc q).exitMsg = .fill 32 0 := fun q h hz =>
    h.msg.trans (hb.msg q fun hz' => hz (h.stays id hz').1)
  obtain ⟨op, r⟩ := l
  by_cases hop : ∃ p n va junk, op = .exit p n va junk
  · obtain ⟨p, n, va, junk, rfl⟩ := hop
    obtain ⟨hz, -, hf, hothers⟩ := exit_step hst
    refine ⟨fun q hq => ?_, fun q addr dst h => ?_⟩
    · exact hkeep q (hothers q fun he => hq (he ▸ hz)) hq
    · by_cases hq : q = p
      · subst hq
        exact (hf addr dst h).elim id (hb.frame q addr dst)
      · exact ((hothers q hq).frame addr dst h).elim id (hb.frame q addr dst)
  · have hlast := step_lasts hst fun p n va junk he => hop ⟨p, n, va, junk, he⟩
    exact ⟨fun q hq => hkeep q (hlast q) hq,
      fun q addr dst h => ((hlast q).frame addr dst h).elim id (hb.frame q addr dst)⟩

theorem blank_of_reachable (h : (system im).Reachable k) : Blank k := by
  refine h.invariant (fun k hk => ?_) fun k l k' _ hb hst => hb.step hst
  obtain ⟨mem, rfl⟩ := hk
  exact ⟨fun _ _ => rfl, nofun⟩

/-- **A zombie stays a zombie for good**, with its status and its message. -/
theorem zombie_stays (h : (system im).Reachable k) {ls : List (Op × Option ℤ)}
    (hrun : (system im).Run k ls k') {q : Slot} (hz : (k.proc q).state = .zombie) :
    (k'.proc q).state = .zombie ∧ (k'.proc q).xstate = (k.proc q).xstate ∧
      (k'.proc q).exitMsg = (k.proc q).exitMsg := by
  induction hrun with
  | nil => exact ⟨hz, rfl, rfl⟩
  | @cons s t u l ls hst _ ih =>
    have hlast : Lasts False (s.proc q) (t.proc q) := by
      obtain ⟨op, r⟩ := l
      by_cases hop : ∃ p n va junk, op = .exit p n va junk
      · obtain ⟨p, n, va, junk, rfl⟩ := hop
        refine (exit_step hst).2.2.2 q fun he => ?_
        have hp : (s.proc p).state = .running := hst.1.1
        rw [← he, hz] at hp
        exact absurd hp nofun
      · exact step_lasts hst (fun p n va junk he => hop ⟨p, n, va, junk, he⟩) q
    obtain ⟨hz', hx'⟩ := hlast.stays id hz
    obtain ⟨hz'', hx'', hm''⟩ := ih (h.step hst) hz'
    exact ⟨hz'', hx''.trans hx', hm''.trans hlast.msg⟩

end Kernel

end Xv6
