import Xv6.Proc.Clone

/-!
# Proc/Exit — the message that a process leaves

`sys_exit` fetches the message into a buffer and does not look at the result; `exit` copies 32 bytes
of it, and where a killed process ends there is no buffer.  `EndsWell` is what a parent may expect.
-/

namespace Xv6

open Machinery Function Ensures List Bytes
open Kernel (roomyImage initSlot secondSlot)

/-- The message at `va`: a string, cut off at 31 bytes, empty if it cannot be read. -/
def message (f : ℕ → Option Byte) (va : ℕ) : List Byte :=
  if (strAt f va 32).2 then (strAt f va 32).1.dropLast
  else if (strAt f va 32).1.length = 32 then (strAt f va 32).1.take 31
  else []

theorem message_string {f : ℕ → Option Byte} {va : ℕ} {m : List Byte} (h0 : (0 : Byte) ∉ m) (hlen : m.length ≤ 31)
    (hm : Holds f va (m ++ [0])) : message f va = m := by
  rw [message, strAt_string h0 hm (by omega), if_pos rfl, dropLast_concat]

theorem mem_of_mem_strncpy32 {b : Bytes 32} (h : (0 : Byte) ∈ (Kernel.strncpy32 b).slice 0 32) :
    (0 : Byte) ∈ b.slice 0 32 := by
  by_contra hn
  have hcopy := slice_splice_same (.fill 32 0) 0 (b.slice 0 32) (by rw [length_slice])
  rw [length_slice] at hcopy
  rw [Kernel.strncpy32, untilNul_of_notMem hn, hcopy] at h
  exact hn h

theorem mem_of_mem_splice_ones {l : List Byte} (h : (0 : Byte) ∈ ((fill 32 1).splice 0 l).slice 0 32) :
    (0 : Byte) ∈ l := by
  obtain ⟨i, hi, hb⟩ := mem_map.1 h
  have hi := mem_range.1 hi
  rw [zero_add, byteAt_splice _ _ _ hi] at hb
  split_ifs at hb with hin
  · rw [Nat.sub_zero, getD_eq_getElem _ _ (by omega)] at hb
    exact hb ▸ getElem_mem _
  · rw [byteAt_of_lt _ hi, fill] at hb
    exact absurd hb (by decide)

namespace Kernel

variable {im : Image} {k k' : Kernel} {p : Slot} {root : ℕ}

/-! ## The ways to end -/

/-- The ways in which a process ends. -/
inductive Ending
  | exit (n : ℤ) (va : ℕ)
  | killed

/-- The step, with `junk` on the stack. -/
def Ending.op (p : Slot) (junk : Bytes 32) : Ending → Op
  | .exit n va => .exit p n va junk
  | .killed => .exitKilled p

def Ending.message (f : ℕ → Option Byte) : Ending → List Byte
  | .exit _ va => Xv6.message f va
  | .killed => []

/-- **`p` ends, and its message is a string that its program has chosen**, whatever is on the
stack. -/
def EndsWell (im : Image) (k : Kernel) (p : Slot) (root : ℕ) (w : Ending) : Prop :=
  ∀ junk, ∃ r k', perform im (w.op p junk) k = .ok (r, k') ∧ (k'.proc p).state = .zombie ∧
    (0 : Byte) ∈ (k'.proc p).exitMsg.slice 0 32 ∧
    strBytes (k'.proc p).exitMsg = w.message (userByte k.phys.mem root)

/-! ## `exit` comes to its end

Nothing but a panic in `fileclose` could stop it, and open files are accounted for. -/

/-- The panics of `fileclose`. -/
def Closing (e : Panic) : Prop := e = .fileclose ∨ e = .mem .kfree

theorem kfree_fails (n : ℕ) : Respects (fun _ _ => True) (onPhys (kfree im n)) Closing := fun k => by
  rw [onPhys_iff, kfree]
  split_ifs
  · exact modify_iff.2 trivial
  · exact bind_iff.2 (.throw (.inr rfl))

theorem modify_fails (f : Kernel → Kernel) : Respects (fun _ _ => True) (modify f : KExec PUnit) Closing :=
  .modify fun _ => trivial

theorem pipeclose_fails (pi : ℕ) (w : Bool) : Respects (fun _ _ => True) (pipeclose im pi w) Closing := by
  rw [pipeclose]
  split_ifs <;>
  · refine (modify_fails _).bind fun _ => (modify_fails _).bind fun _ => .get_bind fun k => .ite ?_ (.pure _)
    exact (modify_fails _).bind fun _ => kfree_fails pi

theorem fileclose_fails (i : Fin NFILE) : Respects (fun _ _ => True) (fileclose im i) Closing := by
  refine .get_bind fun k => .ite (.throw_bind (.inl rfl) _) (.ite (modify_fails _) ?_)
  exact (modify_fails _).bind fun _ => .ite (pipeclose_fails _ _) (.ite (modify_fails _) (.pure _))

theorem closeFiles_fails (p : Slot) (fds : List (Fin NOFILE)) :
    Respects (fun _ _ => True) (closeFiles im p fds) Closing := by
  induction fds with
  | nil => exact .pure _
  | cons fd fds ih =>
    refine .get_bind fun k => ?_
    cases (k.proc p).ofile fd with
    | none => exact ih
    | some f => exact ((fileclose_fails f).bind fun _ => modify_fails _).bind fun _ => ih

theorem closeFiles_total (hI : Inv im k) (h : Accounted k) (p : Slot) (fds : List (Fin NOFILE)) :
    Ensures (closeFiles im p fds) k (fun _ _ => True) := by
  refine (((closeFiles_fails p fds k).and (closeFiles_accounts hI h p fds)).and (closeFiles_keeps hI p fds)).mono
    (fun _ _ _ => trivial) fun e ⟨⟨hc, hf⟩, hx⟩ => ?_
  rcases hc with rfl | rfl
  · exact hf (by decide)
  · exact hx.elim nofun fun h => h.elim nofun nofun

theorem reparentLoop_total (p : Slot) (pps : List Slot) :
    Respects (fun _ _ => True) (reparentLoop p pps) fun _ => False := by
  induction pps with
  | nil => exact .pure _
  | cons pp pps ih =>
    refine .get_bind fun k => .ite (.get_bind fun k => ?_) ih
    exact (Respects.modify fun _ => trivial).bind fun _ => (Respects.modify fun _ => trivial).bind fun _ => ih

/-- **A process other than the first can exit**, and leaves what is in the buffer. -/
theorem exit_total (hI : Inv im k) (h : Accounted k) (hp : k.initproc ≠ some p) (n : ℤ) (buf : Bytes 32) :
    Ensures (exit im p n (some buf)) k
      (fun _ k' => (k'.proc p).state = .zombie ∧ (k'.proc p).exitMsg = strncpy32 buf) := by
  have hends : Ensures (exit im p n (some buf)) k (fun _ _ => True) := by
    rw [exit, get_bind_iff, if_neg hp]
    refine (closeFiles_total hI h p _).bind fun _ k1 _ => (reparentLoop_total p _ k1).bind fun _ k2 _ => ?_
    rw [get_bind_iff, bind_iff, wakeup, modify_iff, bind_iff, deref_some_iff rfl, setProc_iff]
    exact trivial
  refine (hends.and (exit_lasts (S := fun _ => False) p n (some buf))).mono
    ?_ fun _ he => he.1
  rintro _ k' ⟨_, k1, b, hb, _, hk'⟩
  obtain rfl := Option.some.inj hb
  rw [hk', become_proc_self]
  exact ⟨rfl, rfl⟩

theorem argBuff_run (hr : (k.proc p).pagetable = some root) (va : ℕ) (junk : Bytes 32) :
    Ensures (argBuff p va junk) k (fun buff k' =>
      buff = junk.splice 0 (strAt (userByte k.phys.mem root) va 32).1 ∧ k' = k) := by
  rw [argBuff, get_bind_iff, bind_iff, deref_some_iff hr, bind_iff]
  refine onPhys_total copyinstr_run ?_
  rintro r σ ⟨hr, hσ⟩
  refine .pure ?_
  rw [hr, hσ]
  exact ⟨rfl, rfl⟩

theorem sysExit_total (hI : Inv im k) (h : Accounted k) (hp : k.initproc ≠ some p)
    (hr : (k.proc p).pagetable = some root) (n : ℤ) (va : ℕ) (junk : Bytes 32) :
    Ensures (perform im (.exit p n va junk)) k (fun _ k' => (k'.proc p).state = .zombie ∧
      (k'.proc p).exitMsg = strncpy32 (junk.splice 0 (strAt (userByte k.phys.mem root) va 32).1)) := by
  rw [perform, sysExit, bind_assoc]
  refine (argBuff_run hr va junk).bind ?_
  rintro buff k1 ⟨hb, hk1⟩
  rw [hk1, hb]
  exact (exit_total hI h hp n _).bind fun _ k' hk' => .pure hk'

/-! ## When a process ends well -/

/-- **A process ends well just when it exits with a string that fits with its NUL**: not if it is killed, if the
message cannot be read or has 32 bytes or more. -/
theorem endsWell_iff (im : Image) (k : Kernel) (hk : (live im).Reachable k) (p : Slot) (hp : k.InUser p)
    (hinit : k.initproc ≠ some p) (root : ℕ) (hr : (k.proc p).pagetable = some root) (hcode : k.HasCode p)
    (w : Ending) (hw : ∀ junk, k.Enabled (w.op p junk)) :
    EndsWell im k p root w ↔ ∃ n va m, w = .exit n va ∧ (0 : Byte) ∉ m ∧ m.length ≤ 31 ∧
      Holds (userByte k.phys.mem root) va (m ++ [0]) := by
  have hI : Inv im k := @inv_of_usesFiles _ _ hk (.exit p 0 0 (.fill 32 0)) hp
    (fun q hq => Option.some.inj hq ▸ hcode) trivial
  obtain ⟨hacc, -⟩ := settled_of_reachable hk
  constructor
  · intro hends
    obtain ⟨r, k', hrun, -, hnul, -⟩ := hends (.fill 32 1)
    cases w with
    | exit n va =>
      obtain ⟨-, hmsg⟩ := (sysExit_total hI hacc hinit hr n va (.fill 32 1)).of_ok hrun
      rw [hmsg] at hnul
      obtain ⟨m, -, h0, hlen, hm⟩ := string_of_mem_strAt (mem_of_mem_splice_ones (mem_of_mem_strncpy32 hnul))
      exact ⟨n, va, m, rfl, h0, by omega, hm⟩
    | killed =>
      have hnone : Ensures (perform im (.exitKilled p)) k (fun _ _ => False) fun _ => True :=
        (exit_lasts (S := fun _ => False) p (-1) none).bind fun _ _ ⟨_, _, hb, _⟩ => nomatch hb
      exact (hnone.of_ok hrun).elim
  · rintro ⟨n, va, m, rfl, h0, hlen, hm⟩ junk
    obtain ⟨r, k', hrun, hz, hmsg⟩ := (sysExit_total hI hacc hinit hr n va junk).exists_ok
    rw [strAt_string h0 hm (by omega)] at hmsg
    refine ⟨r, k', hrun, hz, ?_, ?_⟩
    · obtain ⟨l, hl⟩ := slice_string junk hlen
      obtain ⟨l', hl'⟩ := slice_string (.fill 32 0) hlen
      rw [hmsg, strncpy32, hl, untilNul_append h0, hl']
      exact List.mem_append.2 (.inr List.mem_cons_self)
    · rw [hmsg, strBytes_strncpy32 h0 hlen]
      exact (message_string h0 hlen hm).symm

/-! ## A child that exits -/

/-- The child of the first process has the string `A`. -/
theorem exists_child : ∃ k root, (live roomyImage).Reachable k ∧ k.InUser secondSlot ∧
    k.initproc ≠ some secondSlot ∧ (k.proc secondSlot).pagetable = some root ∧ k.HasCode secondSlot ∧
    Holds (userByte k.phys.mem root) PGSIZE ([65] ++ [0]) := by
  obtain ⟨k, tf, root, ctf, croot, hk, -, hproc, hinit, -, hstring⟩ := exists_message permits_live
  have hself : k.proc secondSlot = { child ctf croot .running with sz := 2 * PGSIZE } := by rw [hproc, pair_second]
  have hroot : (k.proc secondSlot).pagetable = some croot := by rw [hself]; rfl
  refine ⟨k, croot, hk, by rw [InUser, hself]; exact ⟨rfl, rfl⟩, by rw [hinit]; decide, hroot,
    ⟨croot, PGSIZE, hroot, fun hn => ?_⟩, hstring⟩
  have h0 := hstring 0 (by decide)
  rw [add_zero, userByte, hn] at h0
  cases h0

/-- The child exits with the message `A`. -/
theorem endsWell_child : ∃ k root, (live roomyImage).Reachable k ∧ k.InUser secondSlot ∧
    EndsWell roomyImage k secondSlot root (.exit 0 PGSIZE) := by
  obtain ⟨k, root, hk, hp, hinit, hr, hcode, hm⟩ := exists_child
  exact ⟨k, root, hk, hp, (endsWell_iff roomyImage k hk secondSlot hp hinit root hr hcode (.exit 0 PGSIZE)
    fun _ => hp).2 ⟨0, PGSIZE, [65], rfl, by decide, by decide, hm⟩⟩

/-- The child exits with a message that it cannot read: 32 bytes of the stack of the kernel are its message, and
there need not be a NUL among them. -/
theorem exit_leaks_stack : ∃ k k' r root, (live roomyImage).Reachable k ∧ k.InUser secondSlot ∧
    k.HasCode secondSlot ∧ k.initproc ≠ some secondSlot ∧ (k.proc secondSlot).pagetable = some root ∧
    perform roomyImage (.exit secondSlot 0 MAXVA (.fill 32 1)) k = .ok (r, k') ∧
    (k'.proc secondSlot).state = .zombie ∧ (k'.proc secondSlot).exitMsg = .fill 32 1 ∧
    ¬ EndsWell roomyImage k secondSlot root (.exit 0 MAXVA) := by
  obtain ⟨k, root, hk, hp, hinit, hr, hcode, -⟩ := exists_child
  have hI : Inv roomyImage k := @inv_of_usesFiles _ _ hk (.exit secondSlot 0 0 (.fill 32 0)) hp
    (fun q hq => Option.some.inj hq ▸ hcode) trivial
  obtain ⟨r, k', hrun, hz, hmsg⟩ := (sysExit_total hI (settled_of_reachable hk).1 hinit hr 0 MAXVA
    (.fill 32 1)).exists_ok
  have hnone : (strAt (userByte k.phys.mem root) MAXVA 32).1 = [] := by
    rw [strAt, userByte, userPage, if_neg (lt_irrefl _), Option.map_none]
  have hones : (k'.proc secondSlot).exitMsg = .fill 32 1 := by
    rw [hmsg, hnone]
    decide
  refine ⟨k, k', r, root, hk, hp, hcode, hinit, hr, hrun, hz, hones, fun hends => ?_⟩
  obtain ⟨r', k'', hrun', -, hnul, -⟩ := hends (.fill 32 1)
  obtain ⟨-, rfl⟩ := Prod.mk.inj (Except.ok.inj (hrun.symm.trans hrun'))
  rw [hones] at hnul
  exact absurd hnul (by decide)

end Kernel

end Xv6
