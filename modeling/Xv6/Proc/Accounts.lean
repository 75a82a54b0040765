import Xv6.Proc.Refs
import Xv6.Proc.Live

/-!
# Proc/Accounts — system calls account for open files

`Good` lets a function hold references and inodes that no descriptor shows; a system call begins and
ends with none in hand (`Accounted`).  It gives up what it took on every way out, and `fileclose` is
never called for a file without a reference.
-/

namespace Xv6

open Machinery Function Ensures List

namespace Kernel

variable {im : Image} {k k' : Kernel} {p : Slot} {i : Fin NFILE} {x : Fin NFILE → ℕ} {y : ℕ → ℕ}
  {D : Slot × Fin NOFILE → Option (Fin NFILE)} {a : Slot × Fin NOFILE} {f0 f1 : Fin NFILE} {α : Type}

/-! ## Files -/

/-- The kernel keeps its account of pages, and of files with `x` and `y` in hand. -/
structure Good (im : Image) (x : Fin NFILE → ℕ) (y : ℕ → ℕ)
    (D : Slot × Fin NOFILE → Option (Fin NFILE)) (k : Kernel) : Prop where
  inv : Inv im k
  refs : Refs x k.file D
  events : Events y k.file k.trace

theorem filealloc_good (h : Good im x y D k) :
    Ensures filealloc k (fun r k' => r = none ∧ k' = k ∨ ∃ i, r = some i ∧
      (k.file i).type = .none ∧ (k.file i).ref = 0 ∧ Good im (plus x i) y D k' ∧
        k' = { k with file := update k.file i { k.file i with ref := 1 } }) (· ∉ filePanics) := by
  refine (filealloc_spec h.inv).mono (fun r k' hr => ?_) fun _ hf => hf.elim
  obtain ⟨hI, ⟨rfl, rfl⟩ | ⟨i, rfl, href, rfl⟩⟩ := hr
  · exact .inl ⟨rfl, rfl⟩
  refine .inr ⟨i, rfl, h.inv.files.unref i href, href, ⟨hI, ?_, ?_⟩, rfl⟩
  · refine h.refs.setRef (fun j => plus_of_ne x) ?_
    rw [plus_self]
    omega
  · exact h.events.update (fun _ _ => rfl) fun _ => rfl

theorem filedup_refs (hr : Refs x k.file D) (he : Events y k.file k.trace) (hi : 1 ≤ (k.file i).ref) :
    Ensures (filedup i) k (fun _ k' => Refs (plus x i) k'.file D ∧ Events y k'.file k'.trace ∧
      k' = { k with file := update k.file i { k.file i with ref := (k.file i).ref + 1 } })
      (· ∉ filePanics) := by
  rw [filedup, get_bind_iff, if_neg (by omega), setFile_iff]
  refine ⟨hr.setRef (fun j => plus_of_ne x) ?_, he.update (fun _ _ => rfl) fun _ => rfl, rfl⟩
  rw [plus_self]
  omega

/-- **`fileclose` gives up a reference in hand**, and with the last one what the file stands for. -/
theorem fileclose_good (h : Good im (plus x i) y D k) :
    Ensures (fileclose im i) k (fun _ k' => k'.proc = k.proc ∧ Good im x y D k') (· ∉ filePanics) := by
  suffices hfile : Ensures (fileclose im i) k (fun _ k' => k'.proc = k.proc ∧ Refs x k'.file D ∧
      Events y k'.file k'.trace) (· ∉ filePanics) by
    refine (hfile.and (fileclose_keeps h.inv i)).mono (fun _ k' hk' => ?_) fun _ he => he.1
    exact ⟨hk'.1.1, hk'.2, hk'.1.2.1, hk'.1.2.2⟩
  have hcount := h.refs.count i
  rw [plus_self] at hcount
  have hother : ∀ j, j ≠ i → x j = plus x i j := fun j hj => (plus_of_ne x hj).symm
  rw [fileclose, get_bind_iff]
  simp only
  rw [if_neg (by omega)]
  by_cases hmany : 1 < (k.file i).ref
  · rw [if_pos hmany, setFile_iff]
    refine ⟨rfl, h.refs.setRef hother ?_, h.events.update (fun _ _ => rfl) fun _ => rfl⟩
    rw [plus_self]
    omega
  rw [if_neg hmany, bind_iff, setFile_iff]
  -- the last reference: no descriptor refers to the file
  have hrefs : Refs x (update k.file i { k.file i with ref := 0, type := .none }) D := by
    refine h.refs.update hother ?_ fun _ => ?_
    · change 0 = _
      omega
    · omega
  split_ifs with hpipe hinode
  · have hclose := h.events.close h.inv.files (mem_pipeEnds.2 hpipe)
      (f := { k.file i with ref := 0, type := .none }) rfl
    rw [closeEvents] at hclose
    rw [pipeclose_iff, Pipe.isOpen_shut_of_ne _ (Bool.not_ne_self _)]
    dsimp only
    split_ifs with hopen
    · rw [if_pos hopen] at hclose
      exact ⟨rfl, hrefs, hclose⟩
    · rw [if_neg hopen] at hclose
      refine (onPhys_frame _ _).imp ?_
      rintro _ k' ⟨σ, hk'⟩
      rw [hk']
      refine ⟨rfl, hrefs, ?_⟩
      simpa only [append_assoc, singleton_append] using hclose
  · rw [record_iff]
    refine ⟨rfl, hrefs, h.events.step_inode ?_ ?_ fun ip => ?_⟩
    · exact fun e he => ⟨_, .inr (mem_singleton.1 he)⟩
    · exact fun pi w => by simp [isEnd, hpipe]
    · simp only [isInode, hinode, count_singleton]
      simp
  · rw [pure_iff]
    have hnone : (k.file i).type = .none := by
      cases ht : (k.file i).type <;> simp_all
    refine ⟨rfl, hrefs, h.events.update (fun pi w => ?_) fun ip => ?_⟩
    · simp [isEnd, hpipe]
    · simp [isInode, hnone]

theorem plus_comm (x : Fin NFILE → ℕ) (i j : Fin NFILE) : plus (plus x i) j = plus (plus x j) i :=
  add_right_comm _ _ _

theorem closeBoth_good (h : Good im (plus (plus x f0) f1) y D k) (a : α) : Ensures (do
      fileclose im f0
      fileclose im f1
      return a) k (fun r k' => r = a ∧ k'.proc = k.proc ∧ Good im x y D k') (· ∉ filePanics) := by
  rw [plus_comm] at h
  refine (fileclose_good h).bind fun _ k1 ⟨hp1, h1⟩ => ?_
  refine (fileclose_good h1).bind fun _ k2 ⟨hp2, h2⟩ => .pure ?_
  exact ⟨rfl, hp2.trans hp1, h2⟩

theorem pipealloc_good (h : Good im x y D k) :
    Ensures (pipealloc im) k (fun r k' => k'.proc = k.proc ∧ (r = none ∧ Good im x y D k' ∨
      ∃ f0 f1, r = some (f0, f1) ∧ (k'.file f0).type = .pipe ∧ (k'.file f1).type = .pipe ∧
        Good im (plus (plus x f0) f1) y D k')) (· ∉ filePanics) := by
  suffices hfile : Ensures (pipealloc im) k (fun r k' => k'.proc = k.proc ∧ (r = none ∧ Good im x y D k' ∨
      ∃ f0 f1, r = some (f0, f1) ∧ (k'.file f0).type = .pipe ∧ (k'.file f1).type = .pipe ∧
        Refs (plus (plus x f0) f1) k'.file D ∧ Events y k'.file k'.trace)) (· ∉ filePanics) by
    refine (hfile.and (pipealloc_keeps h.inv)).mono ?_ fun _ he => he.1
    rintro r k' ⟨⟨hp, hr⟩, hI⟩
    refine ⟨hp, hr.imp_right ?_⟩
    rintro ⟨f0, f1, hr, h0, h1, hrefs, hev⟩
    exact ⟨f0, f1, hr, h0, h1, hI, hrefs, hev⟩
  rw [pipealloc]
  refine (filealloc_good h).bind fun r k1 hr => ?_
  obtain ⟨rfl, rfl⟩ | ⟨f0, rfl, ht0, href0, h₁, hk1⟩ := hr
  · exact .pure ⟨rfl, .inl ⟨rfl, h⟩⟩
  have hp1 : k1.proc = k.proc := by rw [hk1]
  refine (filealloc_good h₁).bind fun r k2 hr => ?_
  obtain ⟨rfl, rfl⟩ | ⟨f1, rfl, ht1, href1, h2, hk2⟩ := hr
  · refine (fileclose_good h₁).bind ?_
    rintro _ k2 ⟨hp2, h2⟩
    refine .pure ?_
    exact ⟨hp2.trans hp1, .inl ⟨rfl, h2⟩⟩
  have hp2 : k2.proc = k.proc := by rw [hk2, hp1]
  have hne : f0 ≠ f1 := fun he => by
    have hcount := h₁.refs.count f0
    rw [plus_self, he, href1] at hcount
    omega
  have hclosed : (k2.file f0).type = .none ∧ (k2.file f1).type = .none := by
    rw [hk2]
    simp only [update_self, update_of_ne hne, ht1, and_true]
    rw [hk1]
    simp only [update_self, ht0]
  have href : (k2.file f0).ref ≠ 0 ∧ (k2.file f1).ref ≠ 0 := by
    have hcount0 := h2.refs.count f0
    have hcount1 := h2.refs.count f1
    rw [plus_comm, plus_self] at hcount0
    rw [plus_self] at hcount1
    omega
  rw [bind_iff, onPhys_iff]
  cases hfl : k2.phys.freelist with
  | nil =>
    rw [ok_iff (kalloc_run_nil hfl)]
    refine (closeBoth_good h2 none).imp ?_
    rintro r k' ⟨hr, hp, hg⟩
    exact ⟨hp.trans hp2, .inl ⟨hr, hg⟩⟩
  | cons pi fl =>
    rw [ok_iff (kalloc_run_taken hfl)]
    simp only
    rw [bind_iff, record_iff, bind_iff, setPipe_iff, bind_iff, setFile_iff,
      bind_iff, setFile_iff, pure_iff]
    refine ⟨hp2, .inr ⟨f0, f1, rfl, ?_, ?_, ?_, ?_⟩⟩
    · simp only [update_of_ne hne, update_self]
    · simp only [update_self]
    · have hpipe : FileType.pipe ≠ .none := by simp
      exact (h2.refs.retype (by rfl) hpipe).retype (by rfl) hpipe
    · refine h2.events.join ⟨hne, ?_, ?_, ?_, fun j h0 h1 => ?_, hclosed, h2.inv.fresh_page hfl⟩
      · simp only [update_of_ne hne, update_self, and_self]
      · simp only [update_self, and_self]
      · simpa only [update_of_ne hne, update_of_ne hne.symm, update_self] using href
      · simp only [update_of_ne h1, update_of_ne h0]

/-! ## Descriptors -/

/-- A descriptor of `p` is set. -/
def setFd (k : Kernel) (p : Slot) (fd : Fin NOFILE) (v : Option (Fin NFILE)) : Kernel :=
  { k with proc := update k.proc p { k.proc p with ofile := update (k.proc p).ofile fd v } }

/-- Only `p` has other descriptors than before. -/
def Own (p : Slot) (k k' : Kernel) : Prop := ∀ q, q ≠ p → (k'.proc q).ofile = (k.proc q).ofile

theorem Own.of_proc (h : k'.proc = k.proc) : Own p k k' := fun q _ => by rw [h]

theorem Own.trans {k1 : Kernel} (h : Own p k k1) (h' : Own p k1 k') : Own p k k' := fun q hq =>
  (h' q hq).trans (h q hq)

theorem own_setFd (k : Kernel) (p : Slot) (fd : Fin NOFILE) (v : Option (Fin NFILE)) :
    Own p k (k.setFd p fd v) := fun q hq => by
  rw [setFd]
  simp only [update_of_ne hq]

theorem fds_setFd (k : Kernel) (p : Slot) (fd : Fin NOFILE) (v : Option (Fin NFILE)) :
    (k.setFd p fd v).fds = update k.fds (p, fd) v := by
  ext1 ⟨q, gd⟩
  rw [fds, setFd]
  by_cases hq : q = p
  · subst hq
    by_cases hgd : gd = fd
    · subst hgd
      simp only [update_self]
    · have hne : (q, gd) ≠ (q, fd) := fun he => hgd (Prod.mk.inj he).2
      simp only [update_self, update_of_ne hgd, update_of_ne hne]
      rfl
  · have hne : (q, gd) ≠ (p, fd) := fun he => hq (Prod.mk.inj he).1
    simp only [update_of_ne hq, update_of_ne hne]
    rfl

theorem setFd_setFd (k : Kernel) (p : Slot) (fd gd : Fin NOFILE) (u v : Option (Fin NFILE)) :
    (k.setFd p fd u).setFd p gd v = { k with
      proc := update k.proc p
        { k.proc p with ofile := update (update (k.proc p).ofile fd u) gd v } } := by
  simp only [setFd, update_self, update_idem]

theorem fds_congr (h : k'.proc = k.proc) : k'.fds = k.fds := by
  unfold fds
  rw [h]

theorem Inv.setFd (h : Inv im k) (p : Slot) (fd : Fin NOFILE) (v : Option (Fin NFILE)) :
    Inv im (k.setFd p fd v) := h.setProc ⟨rfl, rfl, rfl, rfl, id⟩

theorem fdalloc_result (p : Slot) (f : Fin NFILE) :
    Ensures (fdalloc p f) k (fun r k' => r = none ∧ k' = k ∨
      ∃ fd, r = some fd ∧ k.fds (p, fd) = none ∧ k' = k.setFd p fd (some f)) (· ∉ filePanics) := by
  rw [fdalloc, get_bind_iff]
  simp only
  cases hfind : (List.finRange NOFILE).find? fun fd => ((k.proc p).ofile fd).isNone with
  | none => exact .pure (.inl ⟨rfl, rfl⟩)
  | some fd =>
    have hnone : ((k.proc p).ofile fd).isNone := (List.find?_some hfind :)
    simp only
    rw [bind_iff, setProc_iff, pure_iff]
    exact .inr ⟨fd, rfl, Option.isNone_iff_eq_none.1 hnone, rfl⟩

theorem argfd_result (p : Slot) (fd : ℤ) :
    Ensures (argfd p fd) k (fun r k' => k' = k ∧ ∀ fd f, r = some (fd, f) → k.fds (p, fd) = some f)
      (· ∉ filePanics) := by
  rw [argfd, get_bind_iff]
  simp only
  split_ifs with h0 hlt
  · cases ho : (k.proc p).ofile ⟨fd.toNat, hlt⟩ with
    | none => exact .pure ⟨rfl, by simp⟩
    | some f =>
      refine .pure ⟨rfl, fun fd' f' he => ?_⟩
      obtain ⟨rfl, rfl⟩ := Prod.mk.inj (Option.some.inj he)
      exact ho
  · exact .pure ⟨rfl, by simp⟩
  · exact .pure ⟨rfl, by simp⟩

/-! ## System calls -/

/-- What holds of open files between system calls. -/
structure Accounted (k : Kernel) : Prop where
  refs : Refs 0 k.file k.fds
  events : Events 0 k.file k.trace

/-- A system call of `p` that accounts for open files, and changes descriptors of `p` only. -/
abbrev Accounts (p : Slot) {α : Type} (x : KExec α) (k : Kernel) : Prop :=
  Ensures x k (fun _ k' => Accounted k' ∧ Own p k k') (· ∉ filePanics)

theorem Good.accounted (h : Good im 0 0 D k) (hD : k.fds = D) : Accounted k := by
  subst hD
  exact ⟨h.refs, h.events⟩

theorem one_le_ref (h : Accounted k) (ha : k.fds a = some i) : 1 ≤ (k.file i).ref := by
  have hcount := h.refs.count i
  have hone := one_le_tally ha
  omega

theorem argfd_bind {m : Option (Fin NOFILE × Fin NFILE) → KExec α} {fd : ℤ}
    (hnone : Accounts p (m none) k)
    (hsome : ∀ fd f, k.fds (p, fd) = some f → Accounts p (m (some (fd, f))) k) :
    Accounts p (argfd p fd >>= m) k := by
  refine (argfd_result p fd).bind ?_
  rintro r k1 ⟨rfl, hfd⟩
  cases r with
  | none => exact hnone
  | some r => exact hsome r.1 r.2 (hfd _ _ rfl)

theorem sysDup_accounts (h : Accounted k) (p : Slot) (fd : ℤ) : Accounts p (sysDup p fd) k := by
  rw [sysDup]
  refine argfd_bind (.pure ⟨h, .of_proc rfl⟩) fun fd0 f hf => ?_
  refine (fdalloc_result p f).bind fun r k2 hr => ?_
  obtain ⟨rfl, rfl⟩ | ⟨fd1, rfl, hnone, rfl⟩ := hr
  · exact .pure ⟨h, .of_proc rfl⟩
  have href : 1 ≤ (k.file f).ref := one_le_ref h hf
  refine (filedup_refs (k := k.setFd p fd1 (some f)) h.refs h.events href).bind fun _ k3 hr => ?_
  obtain ⟨hrefs, hev, hk3⟩ := hr
  have htype : (k3.file f).type ≠ .none := by
    rw [hk3]
    simp only [update_self]
    exact h.refs.typed _ f hf
  have hproc : k3.proc = (k.setFd p fd1 (some f)).proc := by rw [hk3]
  refine .pure ⟨⟨?_, hev⟩, (own_setFd k p fd1 (some f)).trans (.of_proc hproc)⟩
  rw [fds_congr hproc, fds_setFd]
  exact hrefs.install hnone htype

theorem sysClose_accounts (hI : Inv im k) (h : Accounted k) (p : Slot) (fd : ℤ) :
    Accounts p (sysClose im p fd) k := by
  rw [sysClose]
  refine argfd_bind (.pure ⟨h, .of_proc rfl⟩) fun fd f hf => ?_
  rw [Accounts, bind_iff, setProc_iff]
  have hgood : Good im (plus 0 f) 0 (update k.fds (p, fd) none) (k.setFd p fd none) :=
    ⟨hI.setFd p fd none, h.refs.remove hf, h.events⟩
  refine (fileclose_good hgood).bind ?_
  rintro _ k2 ⟨hp, hg⟩
  refine .pure ?_
  exact ⟨hg.accounted (by rw [fds_congr hp, fds_setFd]), (own_setFd k p fd none).trans (.of_proc hp)⟩

theorem sysOpen_accounts (hI : Inv im k) (h : Accounted k) (p : Slot) (ip : ℕ) {ty : FileType}
    (hty : ty = .inode ∨ ty = .device) (r w : Bool) : Accounts p (sysOpen im p ip ty r w) k := by
  rw [Accounts, sysOpen, bind_iff, record_iff]
  set k0 : Kernel := { k with trace := k.trace ++ [.iref ip] }
  have h0 : Good im 0 (0 + Pi.single ip 1) k.fds k0 :=
    ⟨record_iff.1 (record_keeps hI (.iref ip)), h.refs, h.events.iref ip⟩
  refine (filealloc_good h0).bind fun o k1 hr => ?_
  obtain ⟨rfl, rfl⟩ | ⟨f, rfl, ht, -, h1, hk1⟩ := hr
  · simp only
    rw [bind_iff, record_iff, pure_iff]
    exact ⟨⟨h0.refs, h0.events.iput⟩, .of_proc rfl⟩
  have hp1 : k1.proc = k.proc := by rw [hk1]
  refine (fdalloc_result p f).bind fun o k2 hr => ?_
  obtain ⟨rfl, rfl⟩ | ⟨fd, rfl, hnone, rfl⟩ := hr
  · refine (fileclose_good h1).bind ?_
    rintro _ k2 ⟨hp2, h2⟩
    rw [bind_iff, record_iff, pure_iff]
    refine ⟨⟨?_, h2.events.iput⟩, .of_proc (hp2.trans hp1)⟩
    change Refs 0 k2.file k2.fds
    rw [fds_congr (hp2.trans hp1)]
    exact h2.refs
  have htype : (k1.file f).type = .none := by
    rw [hk1]
    simpa only [update_self] using ht
  have htyne : ty ≠ .none := by
    rintro rfl
    exact hty.elim (by simp) (by simp)
  have hown : Own p k (k1.setFd p fd (some f)) := (Own.of_proc hp1).trans (own_setFd k1 p fd _)
  simp only
  rw [bind_iff, setFile_iff, pure_iff]
  refine ⟨⟨?_, ?_⟩, hown⟩
  · change Refs 0 _ (k1.setFd p fd (some f)).fds
    rw [fds_setFd, fds_congr hp1]
    rw [fds_congr hp1] at hnone
    refine (h1.refs.retype (by rfl) htyne).install hnone ?_
    simpa only [update_self] using htyne
  · exact h1.events.openInode htype hty rfl

theorem sysPipe_accounts (hI : Inv im k) (h : Accounted k) (p : Slot) (fdarray : ℕ) :
    Accounts p (sysPipe im p fdarray) k := by
  rw [sysPipe]
  refine (pipealloc_good ⟨hI, h.refs, h.events⟩).bind ?_
  rintro r k1 ⟨hp1, hr⟩
  obtain ⟨rfl, h1⟩ | ⟨rf, wf, rfl, hrf, hwf, h1⟩ := hr
  · exact .pure ⟨h1.accounted (fds_congr hp1), .of_proc hp1⟩
  have hown1 : Own p k k1 := .of_proc hp1
  rw [← fds_congr hp1] at h1
  -- both references are given up, by the descriptors or by hand
  have hfail : ∀ {k' : Kernel}, Own p k k' → Good im (plus (plus 0 rf) wf) 0 k'.fds k' → Ensures (do
      fileclose im rf
      fileclose im wf
      return (-1 : ℤ)) k' (fun _ k'' => Accounted k'' ∧ Own p k k'') (· ∉ filePanics) :=
    fun hown hg => (closeBoth_good hg _).imp fun _ _ h =>
      ⟨h.2.2.accounted (fds_congr h.2.1), hown.trans (.of_proc h.2.1)⟩
  refine (fdalloc_result p rf).bind fun r k2 hr => ?_
  obtain ⟨rfl, rfl⟩ | ⟨fd0, rfl, hnone0, rfl⟩ := hr
  · exact hfail hown1 h1
  have hown2 : Own p k (k1.setFd p fd0 (some rf)) := hown1.trans (own_setFd _ _ _ _)
  have h2 : Good im (plus 0 wf) 0 (k1.setFd p fd0 (some rf)).fds (k1.setFd p fd0 (some rf)) := by
    refine ⟨h1.inv.setFd _ _ _, ?_, h1.events⟩
    rw [fds_setFd]
    have hrefs := h1.refs
    rw [plus_comm] at hrefs
    exact hrefs.install hnone0 (by rw [hrf]; rintro ⟨⟩)
  have hself : (k1.setFd p fd0 (some rf)).fds (p, fd0) = some rf := by
    rw [fds_setFd, update_self]
  refine (fdalloc_result p wf).bind fun r k3 hr => ?_
  obtain ⟨rfl, rfl⟩ | ⟨fd1, rfl, hnone1, rfl⟩ := hr
  · simp only
    rw [bind_iff, setProc_iff]
    refine hfail (hown2.trans (own_setFd _ p fd0 none)) ⟨h2.inv.setFd _ _ _, ?_, h2.events⟩
    change Refs _ _ (setFd _ p fd0 none).fds
    rw [fds_setFd, plus_comm]
    exact h2.refs.remove hself
  set k2 := k1.setFd p fd0 (some rf) with hk2
  have hne : (p, fd0) ≠ (p, fd1) := fun he => by
    rw [← he, hself] at hnone1
    exact Option.some_ne_none _ hnone1
  have h3 : Good im 0 0 (k2.setFd p fd1 (some wf)).fds (k2.setFd p fd1 (some wf)) := by
    refine ⟨h2.inv.setFd _ _ _, ?_, h2.events⟩
    rw [fds_setFd]
    exact h2.refs.install hnone1 (by rw [hk2]; change (k1.file wf).type ≠ _; rw [hwf]; rintro ⟨⟩)
  have hown3 : Own p k (k2.setFd p fd1 (some wf)) := hown2.trans (own_setFd _ _ _ _)
  have hfd0 : (k2.setFd p fd1 (some wf)).fds (p, fd0) = some rf := by
    rw [fds_setFd, update_of_ne hne, hself]
  have hfd1 : (k2.setFd p fd1 (some wf)).fds (p, fd1) = some wf := by
    rw [fds_setFd, update_self]
  set k3 := k2.setFd p fd1 (some wf)
  simp only
  rw [get_bind_iff, bind_iff]
  cases hroot : (k3.proc p).pagetable with
  | none => exact .throw (by decide)
  | some root =>
    rw [deref_some_iff rfl]
    refine (((onPhys_frame _ k3).and (copyoutBoth_keeps h3.inv hroot _ _ _ _)).mono
      (fun _ _ h => h) fun _ h => h.1).bind ?_
    rintro ok k4 ⟨⟨σ, hk4⟩, hI4⟩
    have hp4 : k4.proc = k3.proc := by rw [hk4]
    have h4 : Good im 0 0 k4.fds k4 := by
      refine ⟨hI4, ?_, ?_⟩
      · rw [fds_congr hp4, hk4]
        exact h3.refs
      · rw [hk4]
        exact h3.events
    rw [← fds_congr hp4] at hfd0 hfd1
    have hown4 : Own p k k4 := hown3.trans (.of_proc hp4)
    split_ifs
    · exact .pure ⟨h4.accounted rfl, hown4⟩
    rw [bind_iff, setProc_iff, ← setFd_setFd]
    refine hfail ((hown4.trans (own_setFd _ _ _ _)).trans (own_setFd _ _ _ _))
      ⟨(h4.inv.setFd _ _ _).setFd _ _ _, ?_, h4.events⟩
    rw [fds_setFd, fds_setFd]
    exact (h4.refs.remove hfd0).remove (by rw [update_of_ne hne.symm, hfd1])

theorem SameFiles.fds {S : Slot → Prop} (h : SameFiles S k k') : k'.fds = k.fds := by
  ext1 ⟨q, fd⟩
  exact congrFun (h.ofile q) fd

theorem Accounted.of_same {S : Slot → Prop} (h : Accounted k) (hs : SameFiles S k k') : Accounted k' := by
  refine ⟨?_, ?_⟩
  · rw [hs.file, hs.fds]
    exact h.refs
  · rw [hs.file, hs.trace]
    exact h.events

theorem accounts_of_leaves {x : KExec α} {S : Slot → Prop} (h : Accounted k)
    (hx : LeavesFiles S x) (p : Slot) : Accounts p x k :=
  hx.ensures fun _ hs => ⟨h.of_same hs, fun q _ => hs.ofile q⟩

/-- A descriptor refers to an open file, so `fileread` does not panic. -/
theorem sysRead_accounts (h : Accounted k) (p : Slot) (fd : ℤ) (addr : ℕ) (bs : List Byte) :
    Accounts p (sysRead p fd addr bs) k := by
  rw [sysRead]
  refine argfd_bind (.pure ⟨h, .of_proc rfl⟩) fun fd f hf => ?_
  simp only
  rw [Accounts, fileread, bind_iff, get_bind_iff]
  simp only
  rw [if_neg (h.refs.typed _ f hf)]
  split_ifs
  · exact .pure (.pure ⟨h, .of_proc rfl⟩)
  rw [pure_iff]
  refine accounts_of_leaves (S := fun _ => True) h (.get_bind fun k => ?_) p
  exact leaves_of_memory ((deref_memory _).bind fun root => (onPhys_memory _).bind fun ok =>
    .ite (.pure _) (.pure _))

theorem sysWrite_accounts (h : Accounted k) (p : Slot) (fd n : ℤ) : Accounts p (sysWrite p fd n) k := by
  rw [sysWrite]
  refine argfd_bind (.pure ⟨h, .of_proc rfl⟩) fun fd f hf => ?_
  simp only
  rw [Accounts, filewrite, bind_iff, get_bind_iff]
  simp only
  rw [if_neg (h.refs.typed _ f hf)]
  split_ifs
  · exact .pure (.pure ⟨h, .of_proc rfl⟩)
  · exact .pure (.pure ⟨h, .of_proc rfl⟩)

end Kernel

end Xv6
