import Xv6.Proc.Sys
import Xv6.Proc.Wrap

/-!
# Proc/Clone — `fork` copies the parent exactly, or leaves no trace

The child is a copy in pages of its own and stays apart from its parent.  A `fork` that fails spends
a pid and nothing else.  A counter that has come round to -1 makes a success look like a failure.
-/

namespace Xv6

open Machinery Function Multiset Option Kernel

namespace Kernel

variable {im : Image} {k : Kernel} {p q : Slot}

/-! ## Address spaces apart

Every page has one owner, so two processes have no page in common. -/

/-- What is stored through the page table of `p` does not show in the memory of `q`. -/
def Apart (k : Kernel) (p q : Slot) : Prop :=
  ∀ rp rq σ, (k.proc p).pagetable = some rp → (k.proc q).pagetable = some rq → Stored rp k.phys σ →
    ∀ va, userByte σ.mem rq va = userByte k.phys.mem rq va

/-- **Two processes are apart.** -/
theorem Inv.apart (h : Inv im k) (hne : p ≠ q) : Apart k p q := by
  intro rp rq σ hrp hrq hst va
  obtain ⟨tf, -, hu⟩ := (h.procs q).space rq hrq
  have hsp := h.space hrp
  have hstay : ∀ x ∈ Xv6.owned k.phys.mem USERTOP rq, σ.mem x = k.phys.mem x := fun x hx => by
    have hrest := mem_of_le ((owned_le_procPages k.phys.mem hrq).trans
      (procPages_le_others hne.symm)) hx
    exact hst.frame x fun hm => hsp.notMem_owned (mem_add.2 (.inr hrest))
      (mem_add.2 (.inr hm))
  have hsame : SameTable rq k.phys.mem σ.mem := sameTable_of_eq fun x hx =>
    hstay x (mem_add.2 (.inl hx))
  rw [userByte, userByte, userPage_congr hsame]
  refine map_congr fun n hn => ?_
  rw [hstay n (mem_add.2 (.inr (mem_mapped_of_userPage hu.guarded hn)))]

theorem Inv.run {k' : Kernel} {ls : List (Op × Option ℤ)} (h : Inv im k) (hr : (bootable im).Run k ls k') :
    Inv im k' := by
  induction hr with
  | nil => exact h
  | cons hst _ ih => exact ih ((perform_keeps h hst.2.1 hst.1).of_ok hst.2.2)

end Kernel

namespace Sys

open Kernel (roomyImage initSlot)

variable {im : Image} {s s' : Sys} {p np : Slot}

/-! ## The two outcomes -/

/-- `fork` has made the process `np`, a copy of `p`. -/
structure Copied (im : Image) (p np : Slot) (r : ℤ) (s s' : Sys) : Prop where
  fresh : (s.kernel.proc np).state = .unused ∧ (s'.kernel.proc np).state = .runnable
  pid : r = (s'.kernel.proc np).pid
  sz : (s'.kernel.proc np).sz = (s.kernel.proc p).sz
  /-- The user pages and their flags. -/
  pages : ∀ old new, (s.kernel.proc p).pagetable = some old → (s'.kernel.proc np).pagetable = some new →
    ∀ w < USERTOP, (leaf s.kernel.phys.mem old w = none ∧ leaf s'.kernel.phys.mem new w = none) ∨
      CopyOf old new s.kernel.phys.mem s'.kernel.phys.mem w
  /-- The child has pages that were free, and nobody else has them. -/
  account : (s'.kernel.phys.freelist : Multiset ℕ) + Kernel.procPages s'.kernel.phys.mem (s'.kernel.proc np) =
    s.kernel.phys.freelist
  nodup : (Kernel.procPages s'.kernel.phys.mem (s'.kernel.proc np) + s'.kernel.others np).Nodup
  /-- The registers, with `a0` zero. -/
  regs : ∀ tf tf', (s.kernel.proc p).trapframe = some tf → (s'.kernel.proc np).trapframe = some tf' →
    (s'.kernel.phys.mem tf').slice 0 Kernel.tfSize =
      ((s.kernel.phys.mem tf).putLE Kernel.tfA0 8 0).slice 0 Kernel.tfSize
  ofile : (s'.kernel.proc np).ofile = (s.kernel.proc p).ofile
  file : ∀ i, s'.kernel.file i = { s.kernel.file i with
    ref := (s.kernel.file i).ref + (Finset.univ.filter fun fd => (s.kernel.proc p).ofile fd = some i).card }
  cwd : (s'.rest np).cwd = (s.rest p).cwd
  inode : ∀ i, s'.inode i = { s.inode i with
    ref := (s.inode i).ref + if (s.rest p).cwd = some i then 1 else 0 }
  /-- Nothing else has changed. -/
  others : ∀ q, q ≠ np → s'.kernel.proc q = s.kernel.proc q ∧ s'.rest q = s.rest q
  mem : ∀ x ∉ s.kernel.phys.freelist, s'.kernel.phys.mem x = s.kernel.phys.mem x
  later : ∀ ls k, (Kernel.bootable im).Run s'.kernel ls k → k.Apart p np ∧ k.Apart np p

/-- Nothing has changed but the pid counter, unused entries and free pages. -/
structure Untouched (s s' : Sys) : Prop where
  unused : ∀ q, (s.kernel.proc q).state = .unused → (s'.kernel.proc q).state = .unused
  proc : ∀ q, (s.kernel.proc q).state ≠ .unused →
    s'.kernel.proc q = s.kernel.proc q ∧ s'.rest q = s.rest q
  free : (s'.kernel.phys.freelist : Multiset ℕ) = s.kernel.phys.freelist
  mem : ∀ x ∉ s.kernel.phys.freelist, s'.kernel.phys.mem x = s.kernel.phys.mem x
  file : s'.kernel.file = s.kernel.file
  pipe : s'.kernel.pipe = s.kernel.pipe
  inode : s'.inode = s.inode
  outstanding : s'.outstanding = s.outstanding

/-- `fork` of `p` has made a copy, or returns -1 and nothing has changed. -/
def ForkExact (im : Image) (p : Slot) (s : Sys) : Prop :=
  Ensures (fork im p) s
    (fun r s' => (r = -1 → Untouched s s') ∧ (r ≠ -1 → ∃ np, Copied im p np r s s'))

theorem Untouched.refl (s : Sys) : Untouched s s :=
  ⟨fun _ h => h, fun _ _ => ⟨rfl, rfl⟩, rfl, fun _ _ => rfl, rfl, rfl, rfl, rfl⟩

theorem Cleared.untouched (h : Cleared np s s') (hu : s.kernel.firstUnused = some np)
    (hk : s.kernel.firstUnused = none ∧ s'.kernel = s.kernel ∨ s.kernel.Released s'.kernel) :
    Untouched s s' := by
  have hun := unused_of_firstUnused hu
  have hrest : ∀ q, (s.kernel.proc q).state ≠ .unused → s'.rest q = s.rest q := fun q hq =>
    h.rest q fun he => hq (he ▸ hun)
  rcases hk with ⟨hfull, -⟩ | ⟨np', σ, hu', hm, hk⟩
  · exact nomatch hfull.symm.trans hu
  · obtain rfl := some.inj (hu.symm.trans hu')
    have hne : ∀ q, (s.kernel.proc q).state ≠ .unused → q ≠ np := fun q hq he => hq (he ▸ hun)
    have hmoved := hm.account
    rw [add_zero, add_zero] at hmoved
    refine ⟨fun q hq => ?_, fun q hq => ⟨?_, hrest q hq⟩, ?_, fun x hx => ?_, ?_, ?_, h.inode,
      h.outstanding⟩ <;> rw [hk]
    · by_cases hqn : q = np
      · subst hqn
        simp only [update_self]
        rfl
      · simpa only [update_of_ne hqn] using hq
    · exact update_of_ne (hne q hq) _ _
    · exact hmoved
    · exact hm.frame x hx (notMem_zero x)

theorem countP_finRange {n : ℕ} (P : Fin n → Prop) [DecidablePred P] :
    (List.finRange n).countP (fun i => decide (P i)) = (Finset.univ.filter P).card := by
  rw [List.countP_eq_length_filter, Fin.univ_def, Finset.filter, Finset.card_mk, filter_coe,
    coe_card]

theorem Inherits.copied {old ptf c : ℕ} {r : ℤ} (h : Inherits p np c s s') (hI : Kernel.Inv im s.kernel)
    (hI' : Kernel.Inv im s'.kernel) (hne : p ≠ np) (hbare : ∀ fd, (s.kernel.proc np).ofile fd = none)
    (hold : (s.kernel.proc p).pagetable = some old) (hptf : (s.kernel.proc p).trapframe = some ptf)
    (hc : (s.rest p).cwd = some c) (hchild : s.kernel.Child p np old ptf r s'.kernel) :
    Copied im p np r s s' := by
  obtain ⟨hfirst, rfl, σ, tf, root, hk', hm, hcopy, hregs, -⟩ := hchild
  have hun := unused_of_firstUnused hfirst
  have hempty := hI.empty hun
  have hnp : s'.kernel.proc np = { s.kernel.proc np with
      pid := s.kernel.nextpid, state := .runnable, trapframe := some tf, pagetable := some root
      sz := (s.kernel.proc p).sz, parent := some p
      ofile := Kernel.inherited (s.kernel.proc p).ofile (s.kernel.proc np).ofile (List.finRange NOFILE) } := by
    rw [hk']
    simp only [Kernel.dupped, Kernel.forked, update_self, update_of_ne hne]
  have hphys : s'.kernel.phys = σ := by rw [hk']; rfl
  have htf : (s'.kernel.proc np).trapframe = some tf := by rw [hnp]
  have hroot : (s'.kernel.proc np).pagetable = some root := by rw [hnp]
  have hsz : (s'.kernel.proc np).sz = (s.kernel.proc p).sz := by rw [hnp]
  have hpages : Kernel.procPages σ.mem (s'.kernel.proc np) = {tf} + owned σ.mem USERTOP root :=
    procPages_eq htf hroot (by rw [hnp]; exact hempty.frame)
  refine ⟨⟨hun, h.state⟩, by rw [hnp], hsz, fun old' new' ho hn w hw => ?_, ?_, ?_, fun tf1 tf2 h1 h2 => ?_, ?_,
    fun i => ?_, h.cwd.trans hc.symm, fun i => ?_, fun q hq => ⟨?_, h.rest q hq⟩, fun x hx => ?_, fun ls k hr => ?_⟩
  · obtain rfl := some.inj (hold.symm.trans ho)
    obtain rfl := some.inj (hroot.symm.trans hn)
    obtain ⟨_, -, hu⟩ := (hI.procs p).space old hold
    obtain ⟨_, -, hu'⟩ := (hI'.procs np).space root hroot
    rw [hsz] at hu'
    by_cases hlt : w < npages (s.kernel.proc p).sz
    · rw [hphys]
      exact .inr (hcopy w hlt)
    · exact .inl ⟨Sized.leaf_eq_none hu.sized hw (not_lt.1 hlt), Sized.leaf_eq_none hu'.sized hw (not_lt.1 hlt)⟩
  · rw [hphys, hpages]
    exact hm.account.trans (add_zero _)
  · rw [← held_eq]
    exact (nodup_add.1 hI'.nodup).2.1
  · obtain rfl := some.inj (hptf.symm.trans h1)
    obtain rfl := some.inj (htf.symm.trans h2)
    rw [hphys]
    exact hregs
  · rw [hnp]
    ext1 fd
    simp [Kernel.inherited, hbare]
  · rw [hk']
    simp only [Kernel.dupped, Kernel.raised, Kernel.forked, update_of_ne hne, countP_finRange]
  · rw [h.inode, hc]
    by_cases hi : i = c
    · subst hi
      simp
    · simp [hi, Ne.symm hi]
  · rw [hk']
    simp only [Kernel.dupped, Kernel.forked, update_of_ne hq]
  · rw [hphys]
    exact hm.frame x hx (notMem_zero x)
  · have hI'' := hI'.run hr
    exact ⟨hI''.apart hne, hI''.apart hne.symm⟩

theorem fork_outcome (hk : (Kernel.live im).Reachable s.kernel) (hp : s.kernel.InUser p)
    (hcode : s.kernel.HasCode p) (hcwd : (s.rest p).cwd ≠ none) :
    Ensures (fork im p) s
      (fun r s' => (s.kernel.ForkFits p → r = s.kernel.nextpid ∧ ∃ np, Copied im p np r s s') ∧
        (¬ s.kernel.ForkFits p → r = -1 ∧ Untouched s s')) := by
  have hI : Kernel.Inv im s.kernel := @inv_of_usesFiles _ _ hk (.fork p) hp
    (fun q hq => some.inj hq ▸ hcode) trivial
  obtain ⟨hacc, hbare⟩ := settled_of_reachable hk
  obtain ⟨old, va, hold, -⟩ := hcode
  obtain ⟨ptf, hptf, -⟩ := (hI.procs p).space old hold
  obtain ⟨c, hc⟩ := ne_none_iff_exists'.1 hcwd
  have hrun : (s.kernel.proc p).state ≠ .unused := by
    rw [hp.1]
    nofun
  have hfiles : ∀ fd f, (s.kernel.proc p).ofile fd = some f → ¬ (s.kernel.file f).ref < 1 := fun fd f hf => by
    have := one_le_ref hacc (a := (p, fd)) hf
    omega
  refine ((fork_follows hrun hc).ensures ((fork_spec hI hrun hold hptf).mono (fun _ _ hr => hr)
    fun e ⟨_, fd, f, hf, hlt⟩ => hfiles fd f hf hlt)).imp
    fun r s' ⟨⟨hfits, hnot, hI'⟩, hout⟩ => ⟨fun hf => ?_, fun hf => ?_⟩
  · obtain ⟨np, hchild⟩ := hfits hf
    have hun := unused_of_firstUnused hchild.first
    have hne : p ≠ np := fun he => hrun (he ▸ hun)
    refine ⟨hchild.pid, np, ?_⟩
    rcases hout with ⟨-, rfl | ⟨np', hu, hcl⟩⟩ | ⟨np', hu, hinh⟩
    · exact nomatch hun.symm.trans hchild.state
    · obtain rfl := some.inj (hchild.first.symm.trans hu)
      exact nomatch hcl.state.symm.trans hchild.state
    · obtain rfl := some.inj (hchild.first.symm.trans hu)
      exact hinh.copied hI hI' hne (hbare np (.inl hun)) hold hptf hc hchild
  · obtain ⟨rfl, hkernel⟩ := hnot hf
    refine ⟨rfl, ?_⟩
    rcases hout with ⟨-, rfl | ⟨np, hu, hcl⟩⟩ | ⟨np, hu, hinh⟩
    · exact .refl _
    · exact hcl.untouched hu hkernel
    · rcases hkernel with ⟨hfull, -⟩ | hrel
      · exact nomatch hfull.symm.trans hu
      · exact nomatch (hrel.state hu).symm.trans hinh.state

/-- **`fork` copies its caller exactly or leaves no trace**, unless it makes a child with the pid -1. -/
theorem fork_exact_iff (im : Image) (s : Sys) (p : Slot) (hk : (Kernel.live im).Reachable s.kernel)
    (hp : s.kernel.InUser p) (hcode : s.kernel.HasCode p) (hcwd : (s.rest p).cwd ≠ none) :
    ForkExact im p s ↔ ¬ (s.kernel.nextpid = -1 ∧ s.kernel.ForkFits p) := by
  have hout := fork_outcome hk hp hcode hcwd
  constructor
  · rintro hexact ⟨hpid, hfits⟩
    obtain ⟨r, s', hrun, hr, -⟩ := hout.exists_ok
    obtain ⟨hr, np, hcopied⟩ := hr hfits
    have hunused := ((hexact.of_ok hrun).1 (hr.trans hpid)).unused np hcopied.fresh.1
    exact nomatch hunused.symm.trans hcopied.fresh.2
  · intro hnot
    refine hout.imp fun r s' ⟨hfits, hfail⟩ => ⟨fun hr => ?_, fun hr => ?_⟩
    · by_cases hf : s.kernel.ForkFits p
      · exact absurd ⟨(hfits hf).1.symm.trans hr, hf⟩ hnot
      · exact (hfail hf).2
    · by_cases hf : s.kernel.ForkFits p
      · exact (hfits hf).2
      · exact absurd (hfail hf).1 hr

/-- The system around the kernel `k`, with every process in the directory `c`. -/
def inDir (c : ℕ) (k : Kernel) : Sys where
  kernel := k
  rest _ := ⟨some c, .fill 16 0, 0, 5, 0, 0, 0, 0⟩
  inode _ := ⟨1, false⟩
  outstanding := 0

theorem forkFits_of_alone {k : Kernel} {tf root : ℕ} {pid : ℤ} (h : k.Alone 1 pid tf root) :
    k.ForkFits initSlot := by
  refine ⟨by rw [h.firstUnused]; nofun, ?_⟩
  have hroom := h.room
  rw [h.sz, npages_mul]
  exact (forkPages_le 1).trans (by omega)

/-- The first process forks. -/
theorem fork_exact_init : ∃ s : Sys, (Kernel.live roomyImage).Reachable s.kernel ∧
    s.kernel.InUser initSlot ∧ s.kernel.ForkFits initSlot ∧ ForkExact roomyImage initSlot s := by
  obtain ⟨k, tf, root, hk, hi⟩ := Kernel.exists_initRuns Kernel.lenient_live
  refine ⟨inDir 0 k, hk, hi.inUser, forkFits_of_alone hi.alone,
    (fork_exact_iff roomyImage (inDir 0 k) initSlot hk hi.inUser hi.hasCode nofun).2 fun ⟨hpid, _⟩ => ?_⟩
  exact absurd (hi.nextpid.symm.trans hpid) (by decide)

/-- The first process forks when the next pid is -1: the result is that of a failure, and there is a child. -/
theorem fork_makes_child_minus_one : ∃ (s s' : Sys) (np : Slot), (Kernel.live roomyImage).Reachable s.kernel ∧
    s.kernel.InUser initSlot ∧ fork roomyImage initSlot s = .ok (-1, s') ∧
    (s.kernel.proc np).state = .unused ∧ (s'.kernel.proc np).state = .runnable ∧
    (s'.kernel.proc np).pid = -1 ∧ ¬ ForkExact roomyImage initSlot s := by
  obtain ⟨k, tf, root, hk, ha⟩ := Kernel.exists_alone (2 ^ 32 - 3)
  have hpid : k.nextpid = -1 := ha.nextpid
  obtain ⟨r, s', hrun, hr, -⟩ := (fork_outcome (s := inDir 0 k) hk ha.inUser ha.hasCode nofun).exists_ok
  obtain ⟨rfl, np, hcopied⟩ := hr (forkFits_of_alone ha)
  have hret : fork roomyImage initSlot (inDir 0 k) = .ok (-1, s') := hpid ▸ hrun
  refine ⟨inDir 0 k, s', np, hk, ha.inUser, hret, hcopied.fresh.1, hcopied.fresh.2,
    hcopied.pid.symm.trans hpid, fun hexact => ?_⟩
  have hunused := ((hexact.of_ok hret).1 rfl).unused np hcopied.fresh.1
  exact nomatch hunused.symm.trans hcopied.fresh.2

end Sys

end Xv6
