import Xv6.Proc.Calls
import Xv6.Vm.Bytewise

/-!
# Proc/Fetch — the arguments of `exec`, as `sys_exec` fetches them

`sys_exec` reads the array of pointers with `fetchaddr` and copies each string into a page of its own,
which is where `exec` finds it.
-/

namespace Xv6

open Machinery Function Ensures List

variable {im : Image} {argv : List ℕ} {root : ℕ}

/-- The page `a` holds the string `s`, which is shorter than the page. -/
structure HoldsStr (m : ℕ → Page) (a : ℕ) (s : List Byte) : Prop where
  noNul : (0 : Byte) ∉ s
  short : s.length < PGSIZE
  held : (m a).slice 0 (s.length + 1) = s ++ [0]

/-- **`copyin` fetches what user memory holds.** -/
theorem copyin_holds {σ : Phys} {va : ℕ} {bs : List Byte} (h : Holds (userByte σ.mem root) va bs) :
    copyin root va bs.length σ = .ok (some bs, σ) := by
  have hreach : reach σ.mem root va bs.length = bs.length := reach_eq_iff.2 fun i hi hn => by
    have hb := h i hi
    rw [userByte, hn] at hb
    cases hb
  have hrun : copyin root va bs.length σ = _ := copyinLoop_run bs.length le_rfl
  rw [hrun, if_pos hreach]
  refine congrArg (fun l => Except.ok (some l, σ)) (List.ext_getElem (by simp) fun i h1 h2 => ?_)
  simp [peek, h i h2, h2]

namespace Kernel

variable {k : Kernel} {p : Slot}

theorem fetchaddr_holds {addr v : ℕ} (hr : (k.proc p).pagetable = some root) (hsz : addr + 8 ≤ (k.proc p).sz)
    (h64 : (k.proc p).sz < 2 ^ 64) (hv : v < 2 ^ 64) (hptr : Holds (userByte k.phys.mem root) addr (leBytes 8 v)) :
    Ensures (fetchaddr p addr) k (fun r k' => r = some v ∧ k' = k) := by
  have hin : ¬ ((k.proc p).sz ≤ addr ∨ (k.proc p).sz < (addr + 8) % 2 ^ 64) := by omega
  have hrun := copyin_holds hptr
  rw [length_leBytes] at hrun
  rw [fetchaddr, get_bind_iff, if_neg hin, get_bind_iff, bind_iff, deref_some_iff hr, bind_iff, onPhys_iff,
    ok_iff hrun]
  refine .pure ⟨?_, rfl⟩
  rw [leNat_leBytes, Nat.mod_eq_of_lt (by omega)]

/-- The page that `kalloc` returns is not mapped. -/
theorem Inv.userByte_taken (h : Inv im k) (hr : (k.proc p).pagetable = some root) {a : ℕ} {fl : List ℕ}
    (hfl : k.phys.freelist = a :: fl) (b : Page) :
    userByte (taken k.phys a b fl).mem root = userByte k.phys.mem root := by
  obtain ⟨tf, -, hu⟩ := (h.procs p).space root hr
  have hsp := h.space hr
  funext x
  rw [userByte, userByte, userPage_congr (hsp.taken hfl b).1]
  cases hx : userPage k.phys.mem root x with
  | none => rfl
  | some n =>
    have hne : n ≠ a := fun he => hsp.notMem_free (Multiset.mem_add.2 (.inl (Multiset.mem_add.2 (.inr
      (mem_mapped_of_userPage hu.guarded hx))))) (by rw [hfl, he]; exact mem_cons_self)
    simp only [Option.map_some, taken, update_of_ne hne]

/-- **A round of `sys_exec` copies an argument into a page.** -/
theorem execStep_fetches (h : Inv im k) {uargv uarg a : ℕ} {fl : List ℕ} {s : List Byte}
    (hframe : (k.proc p).frame = .exec uargv argv) (hlen : argv.length < MAXARG)
    (hr : (k.proc p).pagetable = some root) (hfl : k.phys.freelist = a :: fl)
    (hsz : uargv + 8 * argv.length + 8 ≤ (k.proc p).sz) (h64 : (k.proc p).sz < 2 ^ 64)
    (hptr : Holds (userByte k.phys.mem root) (uargv + 8 * argv.length) (leBytes 8 uarg))
    (hpos : uarg ≠ 0) (hlt : uarg < 2 ^ 64) (hstr : Holds (userByte k.phys.mem root) uarg (s ++ [0]))
    (h0 : (0 : Byte) ∉ s) (hshort : s.length < PGSIZE) (f : Option Reader) :
    ∃ b, execStep im p f k = .ok (none, k.become (taken k.phys a b fl) p
        { k.proc p with frame := .exec uargv (argv ++ [a]) }) ∧ HoldsStr (taken k.phys a b fl).mem a s := by
  have hfetch := fetchaddr_holds hr hsz h64 hlt hptr
  have hmod : (uargv + 8 * argv.length) % 2 ^ 64 = uargv + 8 * argv.length := Nat.mod_eq_of_lt (by omega)
  have hstr' : Holds (userByte (taken k.phys a (.fill PGSIZE 5) fl).mem root) uarg (s ++ [0]) := by
    rwa [h.userByte_taken hr hfl]
  have hstep : Ensures (execStep im p f) k (fun r k' => r = none ∧ k' = k.become (taken k.phys a
      ((Bytes.fill PGSIZE 5).splice 0 (s ++ [0])) fl) p { k.proc p with frame := .exec uargv (argv ++ [a]) }) := by
    rw [execStep, get_bind_iff, hframe]
    simp only
    rw [if_neg (not_le.2 hlen), hmod]
    refine hfetch.bind ?_
    rintro _ _ ⟨rfl, rfl⟩
    cases uarg with
    | zero => exact absurd rfl hpos
    | succ uarg =>
      simp only
      rw [bind_iff, onPhys_iff, ok_iff (kalloc_run_taken hfl)]
      simp only
      rw [get_bind_iff, bind_iff, deref_some_iff hr, bind_iff]
      refine onPhys_total (copyinstr_string h0 hstr' hshort) ?_
      rintro r σ ⟨rfl, hσ⟩
      rw [hσ, bind_iff, onPhys_iff, modify_iff, if_pos rfl]
      simp only [put_taken]
      rw [bind_iff, setProc_iff, pure_iff]
      refine ⟨rfl, ?_⟩
      simp only [taken, update_self, become]
  obtain ⟨r, k', hrun, rfl, rfl⟩ := hstep.exists_ok
  refine ⟨_, hrun, h0, hshort, ?_⟩
  have hmem : (taken k.phys a ((Bytes.fill PGSIZE 5).splice 0 (s ++ [0])) fl).mem a =
      (Bytes.fill PGSIZE 5).splice 0 (s ++ [0]) := update_self _ _ _
  have hlen' : (s ++ [0]).length = s.length + 1 := length_append ..
  rw [hmem, ← hlen', Bytes.slice_splice_same _ _ _ (by omega)]

end Kernel

end Xv6
