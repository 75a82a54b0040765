import Xv6.Proc.Calls

/-!
# Proc/Fork — `fork` copies a process, or takes nothing

It succeeds exactly if there is an entry for the child and `forkPages` free pages: a trapframe, the
tables of the empty address space, and a page and the missing tables for every page of the parent.
-/

namespace Xv6

open Machinery Function Ensures Bytes

namespace Kernel

variable {im : Image} {k : Kernel} {p np : Slot}

/-! ## The descriptors of the child -/

/-- The files after every descriptor of `l` that `ofile` has open was duplicated. -/
def raised (file : Fin NFILE → File) (ofile : Fin NOFILE → Option (Fin NFILE)) (l : List (Fin NOFILE)) :
    Fin NFILE → File :=
  fun i => { file i with ref := (file i).ref + l.countP fun fd => ofile fd = some i }

/-- The descriptors of the child, which had `ofile'`. -/
def inherited (ofile ofile' : Fin NOFILE → Option (Fin NFILE)) (l : List (Fin NOFILE)) :
    Fin NOFILE → Option (Fin NFILE) :=
  fun fd => if fd ∈ l then (ofile fd).or (ofile' fd) else ofile' fd

section Dup

variable {file : Fin NFILE → File} {ofile ofile' : Fin NOFILE → Option (Fin NFILE)} {fd : Fin NOFILE}
  {f : Fin NFILE} {l : List (Fin NOFILE)}

theorem raised_nil : raised file ofile [] = file := rfl

theorem raised_cons_none (h : ofile fd = none) : raised file ofile (fd :: l) = raised file ofile l := by
  ext1 i
  simp [raised, h]

theorem raised_cons_some (h : ofile fd = some f) :
    raised (update file f { file f with ref := (file f).ref + 1 }) ofile l = raised file ofile (fd :: l) := by
  ext1 i
  by_cases hi : i = f
  · subst hi
    simp [raised, h, add_assoc, add_comm]
  · have hne : ofile fd ≠ some i := fun he => hi (Option.some.inj (he.symm.trans h))
    simp [raised, hi, hne]

theorem inherited_nil : inherited ofile ofile' [] = ofile' := by
  ext1 fd
  simp [inherited]

theorem inherited_cons_none (h : ofile fd = none) :
    inherited ofile ofile' (fd :: l) = inherited ofile ofile' l := by
  ext1 gd
  by_cases hg : gd = fd
  · simp [inherited, hg, h]
  · simp [inherited, hg]

theorem inherited_cons_some (h : ofile fd = some f) :
    inherited ofile (update ofile' fd (some f)) l = inherited ofile ofile' (fd :: l) := by
  ext1 gd
  by_cases hg : gd = fd
  · simp [inherited, hg, h]
  · simp [inherited, hg]

end Dup

/-- The kernel after the loop of `fork` over the descriptors `l`. -/
def dupped (k : Kernel) (p np : Slot) (l : List (Fin NOFILE)) : Kernel :=
  { k with
    file := raised k.file (k.proc p).ofile l
    proc := update k.proc np { k.proc np with
      ofile := inherited (k.proc p).ofile (k.proc np).ofile l } }

theorem filedup_spec (f : Fin NFILE) :
    Ensures (filedup f) k
      (fun _ k' => k' = { k with file := update k.file f { k.file f with ref := (k.file f).ref + 1 } })
      (fun e => e = .filedup ∧ (k.file f).ref < 1) := by
  rw [filedup, get_bind_iff]
  by_cases hf : (k.file f).ref < 1
  · rw [if_pos hf, bind_iff, throw_iff]
    exact ⟨rfl, hf⟩
  · rw [if_neg hf, setFile_iff]

theorem dupped_none (h : ∀ fd, (k.proc p).ofile fd = none) (np : Slot) (l : List (Fin NOFILE)) :
    k.dupped p np l = k := by
  have hr : raised k.file (k.proc p).ofile l = k.file := by
    ext1 i
    simp [raised, h]
  have hi : inherited (k.proc p).ofile (k.proc np).ofile l = (k.proc np).ofile := by
    ext1 fd
    simp [inherited, h]
  rw [dupped, hr, hi, update_eq_self]

theorem dupFiles_spec (hne : p ≠ np) (l : List (Fin NOFILE)) :
    Ensures (dupFiles p np l) k (fun _ k' => k' = k.dupped p np l)
      (fun e => e = .filedup ∧ ∃ fd f, (k.proc p).ofile fd = some f ∧ (k.file f).ref < 1) := by
  induction l generalizing k with
  | nil =>
    rw [dupFiles, pure_iff, dupped, raised_nil, inherited_nil, update_eq_self]
  | cons fd l ih =>
    rw [dupFiles, get_bind_iff, dupped]
    cases ho : (k.proc p).ofile fd with
    | none =>
      rw [raised_cons_none ho, inherited_cons_none ho, dupFile, pure_bind]
      exact ih
    | some f =>
      rw [dupFile, bind_assoc, ← raised_cons_some ho, ← inherited_cons_some ho]
      refine ((filedup_spec f).mono (fun _ _ hk => hk) fun e he => ⟨he.1, fd, f, ho, he.2⟩).bind
        fun _ k1 hk1 => ?_
      subst hk1
      rw [bind_iff, setProc_iff]
      refine ih.mono (fun _ k' hk' => ?_) ?_
      · rw [hk', dupped]
        simp only [update_self, update_of_ne hne, update_idem]
      rintro e ⟨he, gd, g, hg, hlt⟩
      refine ⟨he, gd, g, ?_, ?_⟩
      · simpa only [update_of_ne hne] using hg
      · by_cases hgf : g = f
        · subst hgf
          simp only [update_self] at hlt
          omega
        · simpa only [update_of_ne hgf] using hlt

/-! ## What `fork` leaves -/

/-- The child of `p` in the entry `np`. -/
def forked (k : Kernel) (σ : Phys) (p np : Slot) (tf root : ℕ) : Kernel :=
  { k with
    phys := σ, nextpid := (k.nextpid + 1).bmod (2 ^ 32)
    proc := update k.proc np { k.proc np with
      pid := k.nextpid, state := .runnable, trapframe := some tf, pagetable := some root,
      sz := (k.proc p).sz, parent := some p } }

theorem forked_proc_of_ne {q : Slot} (hq : q ≠ np) (σ : Phys) (p : Slot) (tf root : ℕ) :
    (k.forked σ p np tf root).proc q = k.proc q :=
  update_of_ne hq _ _

/-- The tables missing in an address space without user memory. -/
def emptyMissing : ℕ → ℕ := walked (walked (fun _ => 2) (USERTOP + 1)) USERTOP

/-- The pages that `fork` takes for a process of `n` pages. -/
def forkPages (n : ℕ) : ℕ := 4 + (n + mapCost emptyMissing 0 n)

theorem emptyMissing_le (w : ℕ) : emptyMissing w ≤ 2 :=
  (min_le_left _ _).trans (min_le_left _ _)

theorem forkPages_le (n : ℕ) : forkPages n ≤ 4 + 3 * n := by
  have := mapCost_le emptyMissing_le n 0
  rw [forkPages]
  omega

/-- There is an entry and there are pages for a child of `p`. -/
def ForkFits (k : Kernel) (p : Slot) : Prop :=
  k.firstUnused ≠ none ∧ forkPages (npages (k.proc p).sz) ≤ k.phys.freelist.length

/-- `fork` has made the child `np` of `p`: its address space is a copy in free pages, its registers
are those of `p` but for `a0`, and it has the descriptors of `p`. -/
structure Child (k : Kernel) (p np : Slot) (old ptf : ℕ) (r : ℤ) (k' : Kernel) : Prop where
  first : k.firstUnused = some np
  pid : r = k.nextpid
  made : ∃ σ tf root, k' = (k.forked σ p np tf root).dupped p np (List.finRange NOFILE) ∧
    Moved k.phys σ 0 ({tf} + owned σ.mem USERTOP root) ∧
    (∀ w < npages (k.proc p).sz, CopyOf old root k.phys.mem σ.mem w) ∧
    (σ.mem tf).slice 0 tfSize = ((k.phys.mem ptf).putLE tfA0 8 0).slice 0 tfSize ∧
    σ.freelist.length + forkPages (npages (k.proc p).sz) = k.phys.freelist.length

variable {old ptf x : ℕ}

theorem Child.state {r : ℤ} {k' : Kernel} (h : Child k p np old ptf r k') :
    (k'.proc np).state = .runnable := by
  obtain ⟨σ, tf, root, hk', -⟩ := h.made
  rw [hk']
  simp only [dupped, forked, update_self]

theorem Released.state {k' : Kernel} (h : Released k k') (hnp : k.firstUnused = some np) :
    (k'.proc np).state = .unused := by
  obtain ⟨np', σ, hfirst, -, hk'⟩ := h.eq
  obtain rfl := Option.some.inj (hnp.symm.trans hfirst)
  rw [hk']
  simp only [update_self]
  rfl

theorem slice_trapframe (b c : Page) :
    ((b.splice 0 (c.slice 0 tfSize)).putLE tfA0 8 0).slice 0 tfSize = (c.putLE tfA0 8 0).slice 0 tfSize := by
  refine slice_congr fun i _ hi => ?_
  have hlt : i < PGSIZE := hi.trans (by decide)
  rw [Bytes.putLE, Bytes.putLE, byteAt_splice _ _ _ hlt, byteAt_splice _ _ _ hlt,
    byteAt_splice _ _ _ hlt, length_slice, if_pos (show 0 ≤ i ∧ i < 0 + tfSize by omega),
    getD_slice _ _ (by omega), zero_add, Nat.sub_zero]

/-- A page that is not free is not touched by an operation that is given none. -/
theorem Inv.untouched {σ : Phys} {out : Multiset ℕ} (h : Inv im k) (hm : Moved k.phys σ 0 out)
    (hx : x ∈ k.held) : σ.mem x = k.phys.mem x := by
  have hst := h.stock (zero_add _).symm
  exact hm.frame x (fun hf => Multiset.disjoint_left.1 (Multiset.nodup_add.1 hst.nodup).2.2 hf
    (by simpa using hx)) (Multiset.notMem_zero x)

theorem mem_held (hx : x ∈ procPages k.phys.mem (k.proc p)) : x ∈ k.held := by
  rw [held_eq k p]
  exact Multiset.mem_add.2 (.inl hx)

theorem procPages_eq {m : ℕ → Page} {q : Proc} {tf root : ℕ} (htf : q.trapframe = some tf)
    (hr : q.pagetable = some root) (hf : q.frame.pages = []) :
    procPages m q = {tf} + owned m USERTOP root := by
  rw [procPages, htf, hr, hf, Option.elim_some, Option.elim_some, Multiset.coe_nil, add_zero]

/-- **`fork` copies its caller, or hands everything back.** -/
theorem fork_spec (h : Inv im k) (hp : (k.proc p).state ≠ .unused)
    (hold : (k.proc p).pagetable = some old) (hptf : (k.proc p).trapframe = some ptf) :
    Ensures (fork im p) k
      (fun r k' => (k.ForkFits p → ∃ np, Child k p np old ptf r k') ∧
        (¬ k.ForkFits p → r = -1 ∧ (k.firstUnused = none ∧ k' = k ∨ Released k k')) ∧ Inv im k')
      (fun e => e = .filedup ∧ ∃ fd f, (k.proc p).ofile fd = some f ∧ (k.file f).ref < 1) := by
  rw [fork]
  refine (allocproc_spec h).total.bind ?_
  rintro r k1 ⟨h1, halloc, hnone⟩
  cases r with
  | none =>
    rw [pure_iff]
    rcases hnone rfl with ⟨hfull, rfl⟩ | ⟨hshort, hrel⟩
    · exact ⟨fun hc => absurd hfull hc.1, fun _ => ⟨rfl, .inl ⟨hfull, rfl⟩⟩, h1⟩
    · have hcost : 4 ≤ forkPages (npages (k.proc p).sz) := le_self_add
      exact ⟨fun hc => absurd (hcost.trans hc.2) (by omega), fun _ => ⟨rfl, .inr hrel⟩, h1⟩
  | some np =>
    obtain ⟨⟨hfirst, ntf, new, σ, hk1, hlen, hmiss⟩, hm1⟩ := halloc np rfl
    have hun := unused_of_firstUnused hfirst
    have hempty := h.empty hun
    have hne : p ≠ np := fun he => hp (by rw [he, hun])
    have hself : k1.proc np = { k.proc np with
        pid := k.nextpid, state := .used, trapframe := some ntf, pagetable := some new } := by
      rw [hk1]
      exact update_self _ _ _
    have hother : k1.proc p = k.proc p := by
      rw [hk1]
      exact update_of_ne hne _ _
    have hphys : k1.phys = σ := by rw [hk1]
    have hnew : (k1.proc np).pagetable = some new := by rw [hself]
    have hntf : (k1.proc np).trapframe = some ntf := by rw [hself]
    have hframe : (k1.proc np).frame.pages = [] := by
      rw [hself]
      exact hempty.frame
    have hold1 : (k1.proc p).pagetable = some old := by rw [hother, hold]
    obtain ⟨_, -, hu⟩ := (h1.procs p).space old hold1
    obtain ⟨_, -, hnu⟩ := (h1.procs np).space new hnew
    have hsp := h1.space hnew
    have hz : npages (k1.proc np).sz = 0 := by
      rw [hself]
      change npages (k.proc np).sz = 0
      rw [hempty.sz]
      decide
    have hothers : procPages k1.phys.mem (k1.proc p) ≤ (k1.proc np).trapframe.elim 0 (fun tf => {tf}) +
        (k1.proc np).frame.pages + k1.others np :=
      (procPages_le_others hne).trans (Multiset.le_add_left _ _)
    have hown := (owned_le_procPages k1.phys.mem hold1).trans hothers
    simp only
    rw [get_bind_iff, bind_iff, deref_some_iff hold1, get_bind_iff,
      bind_iff, deref_some_iff hnew, get_bind_iff, bind_iff]
    refine onPhys_total (uvmcopy_spec hu.le hsp hown (h1.readable hold1) (by rw [← hz]; exact hnu.sized)) ?_
    rintro r σ2 ⟨hk, hout, hs, hok, hcopy⟩
    have hcost : r = true ↔ k.ForkFits p := by
      rw [hok, hother, hphys, hmiss, ForkFits, hfirst, forkPages, emptyMissing]
      exact ⟨fun hle => ⟨by simp, by omega⟩, fun hle => by have := hle.2; omega⟩
    -- the account of the child so far
    have hm2 : Moved k.phys σ2 0 ({ntf} + owned σ2.mem USERTOP new) := by
      rw [procPages_eq hntf hnew hframe] at hm1
      exact hm1.trans ((hk.toMoved.add_rest {ntf}).congr (add_comm _ _) (add_comm _ _))
    cases r with
    | false =>
      have hnot : ¬ k.ForkFits p := fun hc => absurd (hcost.2 hc) (by simp)
      rw [if_neg Bool.false_ne_true, ← hz] at hs
      rw [if_neg Bool.false_ne_true, ← become_proc k1 σ2 np]
      have h2 := h1.resize hnew hk hout hs hnu.le
      refine (freeproc_spec h2 (by rw [become_proc_self]; exact hframe)).total.bind ?_
      rintro _ k3 ⟨h3, σ3, hk3, hm3⟩
      refine .pure ⟨fun hc => absurd hc hnot, fun _ => ⟨rfl, .inr ?_⟩, h3⟩
      rw [become_proc_self, procPages_eq hntf hnew hframe] at hm3
      refine ⟨np, σ3, hfirst, hm2.trans hm3, ?_⟩
      rw [hk3, become_proc_self, become_become, hk1]
      simp only [become, update_self, update_idem]
      rfl
    | true =>
      rw [if_pos rfl] at hs ⊢
      rw [bind_iff, setProc_iff]
      have h2 := h1.resize hnew hk hout hs hu.le
      set k2 : Kernel := { k1 with
        phys := σ2, proc := update k1.proc np { k1.proc np with sz := (k1.proc p).sz } } with hk2
      have hp2 : k2.proc p = k.proc p := (update_of_ne hne _ _).trans hother
      have hnp2 : k2.proc np = { k1.proc np with sz := (k1.proc p).sz } := update_self _ _ _
      have hptf2 : (k2.proc p).trapframe = some ptf := by rw [hp2, hptf]
      have hntf2 : (k2.proc np).trapframe = some ntf := by rw [hnp2, hself]
      rw [get_bind_iff, bind_iff, deref_some_iff hptf2, get_bind_iff,
        bind_iff, deref_some_iff hntf2, bind_iff, onPhys_iff, modify_iff,
        setTrapframe, bind_iff, onPhys_iff, modify_iff]
      -- the trapframe of the child is stored twice
      generalize hb : ((σ2.mem ntf).splice 0 ((σ2.mem ptf).slice 0 tfSize)).putLE tfA0 8 0 = b
      have hput : (σ2.put ntf ((σ2.mem ntf).splice 0 ((σ2.mem ptf).slice 0 tfSize))).put ntf
          (((σ2.put ntf ((σ2.mem ntf).splice 0 ((σ2.mem ptf).slice 0 tfSize))).mem ntf).putLE tfA0 8 0) =
          σ2.put ntf b := by
        rw [← hb]
        simp only [Phys.put, update_self, update_idem]
      change Ensures _ { k2 with phys := _ } _ _
      rw [hput]
      have hfile2 : k2.file = k.file := by rw [hk2, hk1]
      have hdup := (dupFiles_spec (k := { k2 with phys := σ2.put ntf b }) hne (List.finRange NOFILE)).and
        (dupFiles_keeps (h2.put_trapframe hntf2 b) p np (List.finRange NOFILE))
      refine (hdup.mono (fun _ _ hr => hr) fun _ he => by simpa only [hp2, hfile2] using he.1).bind ?_
      rintro _ k4 ⟨hk4, h4⟩
      have hnp4 : k4.proc np = { k2.proc np with
          ofile := inherited (k2.proc p).ofile (k2.proc np).ofile (List.finRange NOFILE) } := by
        rw [hk4]
        exact update_self _ _ _
      rw [bind_iff, setProc_iff, get_bind_iff, pure_iff]
      -- nothing of the parent has changed
      have hsame : SameTable old k.phys.mem k1.phys.mem := sameTable_of_eq fun x hx =>
        h.untouched hm1 (mem_held (p := p) (Multiset.mem_of_le (tabs_le_procPages _ hold) hx))
      have hpages : procPages k1.phys.mem (k1.proc p) = procPages k.phys.mem (k.proc p) := by
        rw [hother]
        exact procPages_congr (.refl _) fun root hr => Option.some.inj (hold.symm.trans hr) ▸ hsame
      have hstay : ∀ x ∈ procPages k.phys.mem (k.proc p), σ2.mem x = k.phys.mem x := fun x hx => by
        rw [hk.mem_rest hsp (Multiset.mem_of_le hothers (hpages ▸ hx)), h.untouched hm1 (mem_held hx)]
      -- the trapframe of the child is none of the pages of its table
      have hnot : ntf ∉ owned σ2.mem USERTOP new := (hsp.of_kept hk).notMem_owned (by rw [hntf]; simp)
      have hstored : ∀ x ∈ owned σ2.mem USERTOP new, (σ2.put ntf b).mem x = σ2.mem x := fun x hx =>
        update_of_ne (fun hxn : x = ntf => hnot (hxn ▸ hx)) _ _
      have hsame' : SameTable new σ2.mem (σ2.put ntf b).mem := sameTable_of_eq fun x hx =>
        hstored x (Multiset.mem_add.2 (.inl hx))
      refine ⟨fun _ => ⟨np, hfirst, ?_, σ2.put ntf b, ntf, new, ?_, ?_, fun w hw => ?_, ?_, ?_⟩,
        fun hn => absurd (hcost.1 rfl) hn, h4.setProc ⟨rfl, rfl, rfl, rfl, by simp⟩⟩
      · simp only [update_self, hnp4, hnp2, hself]
      · simp only [hk4]
        simp only [dupped, forked, update_self, update_of_ne hne, update_idem, hk2, hk1]
      · rw [hsame'.owned]
        exact hm2.trans ((Moved.put σ2 ntf b).add_rest _)
      · rw [← hother] at hw
        have hw' : w < USERTOP := hw.trans_le hu.le
        exact ((hcopy rfl).1 w hw).congr (hsame.leaf w)
          (fun e he => h.untouched hm1 (mem_held (p := p) (Multiset.mem_of_le (owned_le_procPages _ hold)
            (Multiset.mem_add.2 (.inr (pte2page_mem_mapped hw' he))))))
          (hsame'.leaf w) fun e he => hstored _ (Multiset.mem_add.2 (.inr (pte2page_mem_mapped hw' he)))
      · change (update σ2.mem ntf b ntf).slice 0 tfSize = _
        rw [update_self, ← hb, slice_trapframe, hstay ptf (by rw [procPages, hptf]; simp)]
      · have hpaid := (hcopy rfl).2
        rw [hother, hphys, hmiss] at hpaid
        rw [forkPages, emptyMissing]
        change σ2.freelist.length + _ = _
        omega

theorem fork_keeps (h : Inv im k) (hp : (k.proc p).state ≠ .unused) : Keeps im (fork im p) k := by
  cases hold : (k.proc p).pagetable with
  | some old =>
    obtain ⟨ptf, hptf, -⟩ := (h.procs p).space old hold
    exact (fork_spec h hp hold hptf).mono (fun _ _ hr => hr.2.2) fun e he => he.1 ▸ trivial
  | none =>
    rw [Keeps, fork]
    refine (allocproc_spec h).total.bind ?_
    rintro r k1 ⟨h1, halloc, -⟩
    cases r with
    | none => exact .pure h1
    | some np =>
      obtain ⟨⟨hfirst, tf, root, σ, hk1, -⟩, -⟩ := halloc np rfl
      have hne : p ≠ np := fun he => hp (by rw [he, unused_of_firstUnused hfirst])
      simp only
      rw [get_bind_iff, bind_iff, deref_iff]
      intro old hold'
      simp only [hk1, update_of_ne hne, hold] at hold'
      cases hold'

end Kernel

end Xv6
