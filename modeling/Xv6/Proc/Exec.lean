import Xv6.Proc.Clone

/-!
# Proc/Exec — `exec` and `sys_exec` with everything they touch (`kernel/exec.c`, `kernel/sysfile.c`)

`exec` once more, with the calls into the file system and the name of the process; on the kernel it
does what `Kernel.exec` does (`exec_follows`).  What `namei` finds and what reading it returns are
parameters.
-/

namespace Xv6

open Machinery Function Ensures Exec Kernel
open Kernel (roomyImage initSlot)

namespace Kernel

variable (im : Image)

/-- `exec` from its commit on. -/
def execCommit (p : Slot) (tf : ℕ) (l : Loaded) : KExec ℤ := do
  let oldsz := ((← get).proc p).sz
  let old ← deref ((← get).proc p).pagetable
  setTrapframe tf tfA1 l.sp
  setProc p fun q => { q with pagetable := some l.pagetable, sz := l.sz }
  setTrapframe tf tfEpc l.entry
  setTrapframe tf tfSp l.sp
  onPhys (procFreepagetable im old oldsz)
  return l.argc

theorem execCommit_run {k : Kernel} {p : Slot} {tf old : ℕ} {l : Loaded} (hpt : (k.proc p).pagetable = some old) :
    execCommit im p tf l k = (do onPhys (procFreepagetable im old (k.proc p).sz); return (l.argc : ℤ) : KExec ℤ)
      (k.become (k.phys.put tf (execRegs l (k.phys.mem tf))) p
        { k.proc p with pagetable := some l.pagetable, sz := l.sz }) := by
  rw [execCommit]
  refine (bind_ok rfl).trans ((bind_ok rfl).trans ((bind_ok (a := old) (by rw [hpt]; rfl)).trans ?_))
  refine (bind_ok rfl).trans ((bind_ok rfl).trans ((bind_ok rfl).trans ((bind_ok rfl).trans ?_)))
  simp only [Phys.put, update_self, execRegs, become, update_idem]

theorem onPhys_bind {α β : Type} (x : Exec KPanic Phys α) (f : α → Exec KPanic Phys β) :
    onPhys (x >>= f) = onPhys x >>= fun a => onPhys (f a) := by
  unfold onPhys
  exact zoom_bind (by exact fun _ _ => rfl) (by exact fun _ _ _ => rfl) x f

theorem onPhys_pure {α : Type} (a : α) : onPhys (pure a) = pure a := rfl

theorem exec_eq (p : Slot) (f : Reader) (argv : List ℕ) : exec im p (some f) argv = (do
    let tf ← deref ((← get).proc p).trapframe
    if (f.read 0 ElfHdr.size).length ≠ ElfHdr.size then return -1
    else if (ElfHdr.parse (f.read 0 ElfHdr.size)).magic ≠ ELF_MAGIC then return -1
    else
      match ← onPhys (procPagetable im tf) with
      | none => return -1
      | some root =>
        let r ← onPhys (loadLoop im f root (ElfHdr.parse (f.read 0 ElfHdr.size)).phnum
          ((ElfHdr.parse (f.read 0 ElfHdr.size)).phoff % 2 ^ 32) 0)
        if r.2 = false then
          onPhys (procFreepagetable im root r.1)
          return -1
        else
          let sz1 ← onPhys (uvmalloc im root (pgRoundUp r.1) (pgRoundUp r.1 + 2 * PGSIZE) PTE_W)
          if sz1 = 0 then
            onPhys (procFreepagetable im root (pgRoundUp r.1))
            return -1
          else
            onPhys (uvmclear root (sz1 - 2 * PGSIZE))
            match ← onPhys (pushStack root sz1 argv) with
            | none =>
              onPhys (procFreepagetable im root sz1)
              return -1
            | some (sp, argc) =>
              execCommit im p tf ⟨root, sz1, (ElfHdr.parse (f.read 0 ElfHdr.size)).entry, sp, argc⟩) := by
  rw [exec]
  refine bind_congr fun k => bind_congr fun tf => ?_
  rw [execLoad, execImage]
  simp only
  split
  · rw [pure_bind, execArgs, onPhys_pure, pure_bind]
  split
  · rw [pure_bind, execArgs, onPhys_pure, pure_bind]
  rw [bind_assoc, onPhys_bind, bind_assoc]
  refine bind_congr fun r => ?_
  cases r with
  | none => simp only [execArgs, onPhys_pure, pure_bind]
  | some root =>
    simp only [onPhys_bind, bind_assoc]
    refine bind_congr fun r => ?_
    split
    · simp only [execArgs, onPhys_bind, onPhys_pure, bind_assoc, pure_bind]
    simp only [onPhys_bind, bind_assoc]
    refine bind_congr fun sz1 => ?_
    split
    · simp only [execArgs, onPhys_bind, onPhys_pure, bind_assoc, pure_bind]
    simp only [execArgs, onPhys_bind, onPhys_pure, bind_assoc, pure_bind]
    refine bind_congr fun _ => bind_congr fun r => ?_
    cases r with
    | none => simp only [onPhys_bind, onPhys_pure, bind_assoc, pure_bind]
    | some r => simp only [onPhys_pure, pure_bind, execCommit]

end Kernel

namespace Sys

variable (im : Image)

/-! ## `exec` -/

/-- `begin_op`, once the log has room. -/
def beginOp : SExec Unit := modify fun s => { s with outstanding := s.outstanding + 1 }

def endOp : SExec Unit := modify fun s => { s with outstanding := s.outstanding - 1 }

/-- `namei`, which finds `found` and takes a reference to it. -/
def namei (found : Option (ℕ × Reader)) : SExec (Option (ℕ × Reader)) := do
  match found with
  | none => return none
  | some (ip, f) =>
    setInode ip fun i => { i with ref := i.ref + 1 }
    return some (ip, f)

/-- `ilock`, once the lock is free. -/
def ilock (ip : ℕ) : SExec Unit := setInode ip fun i => { i with locked := true }

def iunlockput (ip : ℕ) : SExec Unit := do
  setInode ip fun i => { i with locked := false }
  setInode ip fun i => { i with ref := i.ref - 1 }

/-- The loop of `exec` over the path: what follows its last slash. -/
def lastElem (last : List Byte) : List Byte → List Byte
  | [] => last
  | b :: s => if b = 0 then last else if b = 0x2f then lastElem s s else lastElem last s

/-- `bad` of `exec`: what there is to undo. -/
def execBad (pagetable : Option (ℕ × ℕ)) (ip : Option ℕ) : SExec ℤ := do
  match pagetable with
  | none => pure ()
  | some (root, sz) => onKernel (Kernel.onPhys (procFreepagetable im root sz))
  match ip with
  | none => pure ()
  | some ip =>
    iunlockput ip
    endOp
  return -1

/-- `exec` of a path at which `namei` finds `found`. -/
def exec (p : Slot) (path : List Byte) (found : Option (ℕ × Reader)) (argv : List ℕ) : SExec ℤ := do
  beginOp
  match ← namei found with
  | none =>
    endOp
    return -1
  | some (ip, f) =>
    ilock ip
    let tf ← onKernel (Kernel.deref ((← get).kernel.proc p).trapframe)
    let hdr := f.read 0 ElfHdr.size
    if hdr.length ≠ ElfHdr.size then execBad im none (some ip)
    else if (ElfHdr.parse hdr).magic ≠ ELF_MAGIC then execBad im none (some ip)
    else
      match ← onKernel (Kernel.onPhys (procPagetable im tf)) with
      | none => execBad im none (some ip)
      | some root =>
        let elf := ElfHdr.parse hdr
        let (sz, ok) ← onKernel (Kernel.onPhys (loadLoop im f root elf.phnum (elf.phoff % 2 ^ 32) 0))
        if ok = false then execBad im (some (root, sz)) (some ip)
        else
          iunlockput ip
          endOp
          let oldsz := ((← get).kernel.proc p).sz
          let sz := pgRoundUp sz
          let sz1 ← onKernel (Kernel.onPhys (uvmalloc im root sz (sz + 2 * PGSIZE) PTE_W))
          if sz1 = 0 then execBad im (some (root, sz)) none
          else
            onKernel (Kernel.onPhys (uvmclear root (sz1 - 2 * PGSIZE)))
            match ← onKernel (Kernel.onPhys (pushStack root sz1 argv)) with
            | none => execBad im (some (root, sz1)) none
            | some (sp, argc) =>
              onKernel (Kernel.setTrapframe tf Kernel.tfA1 sp)
              setRest p fun r => { r with name := safestrcpy r.name (lastElem path path) }
              let old ← onKernel (Kernel.deref ((← get).kernel.proc p).pagetable)
              onKernel (Kernel.setProc p fun q => { q with pagetable := some root, sz := sz1 })
              onKernel (Kernel.setTrapframe tf Kernel.tfEpc elf.entry)
              onKernel (Kernel.setTrapframe tf Kernel.tfSp sp)
              onKernel (Kernel.onPhys (procFreepagetable im old oldsz))
              return argc

/-! ## `sys_exec` -/

/-- One round of the loop of `sys_exec`, and `exec` after the last: `none` goes on. -/
def execStep (p : Slot) (path : List Byte) (found : Option (ℕ × Reader)) : SExec (Option ℤ) := do
  match ((← get).kernel.proc p).frame with
  | .exec uargv argv =>
    if MAXARG ≤ argv.length then
      onKernel (Kernel.leaveExec im p argv)
      return some (-1)
    match ← onKernel (Kernel.fetchaddr p ((uargv + 8 * argv.length) % 2 ^ 64)) with
    | none =>
      onKernel (Kernel.leaveExec im p argv)
      return some (-1)
    | some 0 =>
      let ret ← exec im p path found argv
      onKernel (Kernel.leaveExec im p argv)
      return some ret
    | some uarg =>
      match ← onKernel (Kernel.onPhys kalloc) with
      | none =>
        onKernel (Kernel.leaveExec im p argv)
        return some (-1)
      | some a =>
        let root ← onKernel (Kernel.deref ((← get).kernel.proc p).pagetable)
        let r ← onKernel (Kernel.onPhys (copyinstr root uarg PGSIZE))
        onKernel (Kernel.onPhys (modify fun σ => σ.put a ((σ.mem a).splice 0 r.1)))
        if r.2 then
          onKernel (Kernel.setProc p fun q => { q with frame := .exec uargv (argv ++ [a]) })
          return none
        else
          onKernel (Kernel.leaveExec im p (argv ++ [a]))
          return some (-1)
  | _ => throw .kerneltrap

/-- The loop of `sys_exec`. -/
def execRounds (p : Slot) (path : List Byte) (found : Option (ℕ × Reader)) : ℕ → SExec (Option ℤ)
  | 0 => return none
  | k + 1 => do
    match ← execStep im p path found with
    | none => execRounds p path found k
    | some r => return some r

/-- `sys_exec`, where `find` is `namei`.  The loop has at most `MAXARG + 1` rounds. -/
def sysExec (p : Slot) (path uargv : ℕ) (find : List Byte → Option (ℕ × Reader)) : SExec (Option ℤ) := do
  let root ← onKernel (Kernel.deref ((← get).kernel.proc p).pagetable)
  let r ← onKernel (Kernel.onPhys (copyinstr root path MAXPATH))
  if r.2 then
    onKernel (Kernel.setProc p fun q => { q with frame := .exec uargv [] })
    execRounds im p r.1 (find r.1) (MAXARG + 1)
  else return some (-1)

/-! ## What follows the kernel -/

variable {im} {s t t' : Sys} {p : Slot} {ip : ℕ}

/-- `t` is `s` but for its kernel, in the middle of an operation on the locked inode `ip`. -/
def Busy (ip : ℕ) (s t : Sys) : Prop :=
  t = { s with kernel := t.kernel, outstanding := s.outstanding + 1
               inode := update s.inode ip ⟨(s.inode ip).ref + 1, true⟩ }

theorem Busy.trans (h : Busy ip s t) (h' : SameRest t t') : Busy ip s t' := by
  rw [Busy, h', h]

theorem Busy.leave (h : Busy ip s t) (hfree : (s.inode ip).locked = false) :
    Ensures (do iunlockput ip; endOp : SExec Unit) t (fun _ t' => t'.kernel = t.kernel ∧ SameRest s t') := by
  have hsame : (⟨(s.inode ip).ref, false⟩ : InodeUse) = s.inode ip := by rw [← hfree]
  rw [iunlockput, endOp, setInode, setInode, h]
  simp only [bind_iff, modify_iff, SameRest, update_self, update_idem, Nat.add_sub_cancel, hsame,
    update_eq_self, and_self]

theorem onPhys_follows {α : Type} (x : Exec KPanic Phys α) (s : Sys) :
    Follows Sys.kernel (onKernel (Kernel.onPhys x)) (Kernel.onPhys x) s
      (fun _ s' => SameRest s s' ∧ s'.kernel.proc = s.kernel.proc) := by
  rw [Follows, onKernel_iff, onPhys_iff]
  cases hx : x s.kernel.phys with
  | ok r =>
    rw [ok_iff hx]
    refine ⟨?_, rfl, rfl⟩
    rw [Kernel.onPhys, Exec.zoom, hx]
  | error e =>
    rw [error_iff hx, Kernel.onPhys, Exec.zoom, hx]

theorem execBad_none_follows (h : Busy ip s t) (hfree : (s.inode ip).locked = false) :
    Follows Sys.kernel (execBad im none (some ip)) (return -1) t (fun r t' => r = -1 ∧ SameRest s t') := by
  simp only [execBad]
  rw [← bind_assoc]
  exact Follows.skip (h.leave hfree) fun _ t' ht' => .pure ⟨rfl, ht'⟩

variable {root sz tf : ℕ} {path : List Byte}

theorem execBad_some_follows {o : Option ℕ}
    (h : o.elim (SameRest s t) fun ip => Busy ip s t ∧ (s.inode ip).locked = false) :
    Follows Sys.kernel (execBad im (some (root, sz)) o)
      (do Kernel.onPhys (procFreepagetable im root sz); return -1) t (fun r t' => r = -1 ∧ SameRest s t') := by
  simp only [execBad]
  refine (onKernel_follows _ t).bind fun _ t1 h1 => ?_
  cases o with
  | none => exact .pure ⟨rfl, SameRest.trans h h1⟩
  | some ip =>
    have hbad : Follows Sys.kernel (execBad im none (some ip)) (return -1) t1 _ :=
      execBad_none_follows (h.1.trans h1) h.2
    simpa only [execBad, pure_bind] using hbad

/-- What `exec` leaves of what is not in the kernel. -/
def Renamed (p : Slot) (path : List Byte) (s s' : Sys) : Prop :=
  s' = { s with
    kernel := s'.kernel
    rest := update s.rest p { s.rest p with name := safestrcpy (s.rest p).name (lastElem path path) } }

theorem Renamed.of_sameRest {s0 s' : Sys} (h : Renamed p path s s') (h0 : SameRest s0 s) :
    Renamed p path s0 s' := by
  rw [Renamed, h, h0]

theorem commit_follows {sz1 sp entry argc : ℕ} {k : Kernel} (hproc : s.kernel.proc = k.proc) :
    Follows Sys.kernel (do
        onKernel (Kernel.setTrapframe tf Kernel.tfA1 sp)
        setRest p fun r => { r with name := safestrcpy r.name (lastElem path path) }
        let old ← onKernel (Kernel.deref ((← get).kernel.proc p).pagetable)
        onKernel (Kernel.setProc p fun q => { q with pagetable := some root, sz := sz1 })
        onKernel (Kernel.setTrapframe tf Kernel.tfEpc entry)
        onKernel (Kernel.setTrapframe tf Kernel.tfSp sp)
        onKernel (Kernel.onPhys (procFreepagetable im old (k.proc p).sz))
        return (argc : ℤ))
      (Kernel.execCommit im p tf ⟨root, sz1, entry, sp, argc⟩) s (fun r s' => r ≠ -1 ∧ Renamed p path s s') := by
  rw [← hproc, Kernel.execCommit]
  cases hpt : (s.kernel.proc p).pagetable with
  | none =>
    rw [Follows]
    simp only [bind_iff, onKernel_iff, Kernel.setTrapframe, onPhys_iff, modify_iff,
      setRest_iff, get_iff, hpt, Kernel.deref, throw_iff]
    refine (bind_ok rfl).trans ((bind_ok rfl).trans (bind_error ?_))
    rw [hpt]
    rfl
  | some old =>
    have hrun : Kernel.execCommit im p tf ⟨root, sz1, entry, sp, argc⟩ s.kernel = _ := execCommit_run im hpt
    rw [Kernel.execCommit] at hrun
    rw [Follows, hrun]
    simp only [bind_iff, onKernel_iff, Kernel.setTrapframe, onPhys_iff, modify_iff,
      setRest_iff, get_iff, hpt, Kernel.deref, pure_iff, setProc_iff]
    simp only [Phys.put, update_self, update_idem, Kernel.become, Kernel.execRegs]
    generalize hσ : Phys.mk _ _ _ = σ
    cases hx : procFreepagetable im old (s.kernel.proc p).sz σ with
    | error e =>
      rw [error_iff hx]
      exact bind_error (by rw [Kernel.onPhys, Exec.zoom, hx])
    | ok r =>
      rw [ok_iff hx]
      refine ⟨(bind_ok (by rw [Kernel.onPhys, Exec.zoom, hx])).trans rfl, by omega, rfl⟩

/-- **On the kernel, `exec` is `Kernel.exec`**; if it fails, nothing else changes. -/
theorem exec_follows {found : Option (ℕ × Reader)} (hfree : ∀ r, found = some r → (s.inode r.1).locked = false)
    (path : List Byte) (argv : List ℕ) :
    Follows Sys.kernel (exec im p path found argv) (Kernel.exec im p (found.map Prod.snd) argv) s
      (fun r s' => r = -1 ∧ SameRest s s' ∨ r ≠ -1 ∧ Renamed p path s s') := by
  rw [exec]
  cases found with
  | none =>
    simp only [beginOp, namei, endOp, Option.map_none, Kernel.exec]
    rw [Follows]
    rw [bind_iff, modify_iff, bind_iff, pure_iff, bind_iff, modify_iff, pure_iff]
    exact ⟨rfl, .inl ⟨rfl, rfl⟩⟩
  | some r =>
    obtain ⟨ip, f⟩ := r
    have hfree := hfree _ rfl
    rw [Option.map_some, exec_eq]
    refine Follows.skip (Q := fun _ t => t = { s with outstanding := s.outstanding + 1 }) ?_ fun _ t ht => ?_
    · rw [beginOp, modify_iff]
      exact ⟨rfl, rfl⟩
    refine Follows.skip (Q := fun r t' => r = some (ip, f) ∧
      t' = { t with inode := update t.inode ip ⟨(t.inode ip).ref + 1, (t.inode ip).locked⟩ }) ?_ ?_
    · rw [namei, bind_iff, setInode, modify_iff, pure_iff]
      exact ⟨rfl, rfl, rfl⟩
    rintro r t1 ⟨hr, ht1⟩
    subst hr
    simp only
    refine Follows.skip (Q := fun _ t' => Busy ip s t') ?_ fun _ t2 h2 => ?_
    · rw [ilock, setInode, modify_iff]
      refine ⟨rfl, ?_⟩
      rw [ht1, ht, Busy]
      simp only [update_self, update_idem]
    refine .get_bind ((onKernel_follows _ t2).bind fun tf t3 h3 => ?_)
    have h3 := h2.trans h3
    refine .ite (fun _ => (execBad_none_follows h3 hfree).imp fun _ _ h => .inl h) fun _ => ?_
    refine .ite (fun _ => (execBad_none_follows h3 hfree).imp fun _ _ h => .inl h) fun _ => ?_
    refine (onPhys_follows _ t3).bind ?_
    rintro r t4 ⟨h4, _⟩
    have h4 := h3.trans h4
    cases r with
    | none => exact (execBad_none_follows h4 hfree).imp fun _ _ h => .inl h
    | some root =>
      refine (onPhys_follows _ t4).bind ?_
      rintro r t5 ⟨h5, _⟩
      have h5 := h4.trans h5
      refine .ite (fun _ => (execBad_some_follows (o := some ip) ⟨h5, hfree⟩).imp fun _ _ h => .inl h) fun _ => ?_
      rw [← bind_assoc]
      refine Follows.skip (h5.leave hfree) fun _ t6 h6 => ?_
      refine Follows.skip (Q := fun u t' => u = t6 ∧ t' = t6) (get_iff.2 ⟨rfl, rfl, rfl⟩) ?_
      rintro u t' ⟨hu, ht'⟩
      rw [hu, ht']
      refine (onPhys_follows _ _).bind ?_
      rintro sz1 t7 ⟨h7, hp7⟩
      have h7 := h6.trans h7
      refine .ite (fun _ => (execBad_some_follows (o := none) h7).imp fun _ _ h => .inl h) fun _ => ?_
      refine (onPhys_follows _ t7).bind ?_
      rintro _ t8 ⟨h8, hp8⟩
      refine (onPhys_follows _ t8).bind ?_
      rintro r t9 ⟨h9, hp9⟩
      have h9 := (h7.trans h8).trans h9
      have hproc : t9.kernel.proc = t6.kernel.proc := hp9.trans (hp8.trans hp7)
      cases r with
      | none => exact (execBad_some_follows (o := none) h9).imp fun _ _ h => .inl h
      | some r =>
        obtain ⟨sp, argc⟩ := r
        refine (commit_follows hproc).imp ?_
        rintro r s' ⟨hr, h'⟩
        exact .inr ⟨hr, h'.of_sameRest h9⟩

theorem execStep_follows {found : Option (ℕ × Reader)} (hfree : ∀ r, found = some r → (s.inode r.1).locked = false)
    (path : List Byte) :
    Follows Sys.kernel (execStep im p path found) (Kernel.execStep im p (found.map Prod.snd)) s
      (fun r s' => (r = none ∨ r = some (-1)) ∧ SameRest s s' ∨
        (∃ n, r = some n ∧ n ≠ -1) ∧ Renamed p path s s') := by
  have hleave : ∀ {t : Sys} (argv : List ℕ), SameRest s t →
      Follows Sys.kernel (do onKernel (Kernel.leaveExec im p argv); return some (-1))
        (do Kernel.leaveExec im p argv; return some (-1)) t
        (fun r s' => (r = none ∨ r = some (-1 : ℤ)) ∧ SameRest s s' ∨
          (∃ n, r = some n ∧ n ≠ -1) ∧ Renamed p path s s') := fun argv h =>
    (onKernel_follows _ _).bind fun _ t' h' => .pure (.inl ⟨.inr rfl, h.trans h'⟩)
  rw [execStep, Kernel.execStep]
  refine .get_bind ?_
  cases (s.kernel.proc p).frame with
  | exec uargv argv =>
    refine .ite (fun _ => hleave argv (.refl s)) fun _ => ?_
    refine (onKernel_follows _ s).bind fun r t h => ?_
    cases r with
    | none => exact hleave argv h
    | some uarg =>
      cases uarg with
      | zero =>
        refine (exec_follows (fun r hr => ?_) path argv).bind fun ret t' h' => ?_
        · rw [h]
          exact hfree r hr
        · refine (onKernel_follows _ t').bind fun _ t'' h'' => .pure ?_
          rcases h' with ⟨hret, h'⟩ | ⟨hret, h'⟩
          · exact .inl ⟨.inr (congrArg some hret), (h.trans h').trans h''⟩
          · refine .inr ⟨⟨ret, rfl, hret⟩, ?_⟩
            have := h'.of_sameRest h
            rw [Renamed, h'', this]
      | succ uarg =>
        refine (onKernel_follows _ t).bind fun r t1 h1 => ?_
        have h1 := h.trans h1
        cases r with
        | none => exact hleave argv h1
        | some a =>
          refine .get_bind ((onKernel_follows _ t1).bind fun root t2 h2 => ?_)
          refine (onKernel_follows _ t2).bind fun r t3 h3 => ?_
          refine (onKernel_follows _ t3).bind fun _ t4 h4 => ?_
          have h4 := ((h1.trans h2).trans h3).trans h4
          refine .ite (fun _ => ?_) fun _ => hleave _ h4
          exact (onKernel_follows _ t4).bind fun _ t5 h5 => .pure (.inl ⟨.inl rfl, h4.trans h5⟩)
  | _ => exact .throw rfl

/-! ## All or nothing -/

/-- Nothing has changed but the order and the contents of the free pages. -/
structure Undone (s t : Sys) : Prop where
  eq : t = { s with kernel := { s.kernel with phys := t.kernel.phys } }
  free : t.kernel.phys.freelist.Perm s.kernel.phys.freelist
  mem : ∀ x ∉ s.kernel.phys.freelist, t.kernel.phys.mem x = s.kernel.phys.mem x

/-- `p` has another memory and another name, and what it had, with every page taken on the way, is
free. -/
structure Exchanged (p : Slot) (path : List Byte) (tf old : ℕ) (s t : Sys) : Prop where
  eq : ∃ root sz, t = { s with
      kernel := s.kernel.become t.kernel.phys p { s.kernel.proc p with pagetable := some root, sz := sz }
      rest := update s.rest p { s.rest p with name := safestrcpy (s.rest p).name (lastElem path path) } } ∧
    (t.kernel.phys.freelist : Multiset ℕ) + owned t.kernel.phys.mem USERTOP root =
      s.kernel.phys.freelist + owned s.kernel.phys.mem USERTOP old
  freed : ∀ x ∈ owned s.kernel.phys.mem USERTOP old, x ∈ t.kernel.phys.freelist
  mem : ∀ x ∉ s.kernel.phys.freelist, x ∉ owned s.kernel.phys.mem USERTOP old → x ≠ tf →
    t.kernel.phys.mem x = s.kernel.phys.mem x

/-- The process `p` is in the loop of the call that it has made in `s`. -/
structure Fetching (im : Image) (s : Sys) (p : Slot) (uargv : ℕ) (argv : List ℕ) (t : Sys) : Prop where
  inv : Kernel.Inv im t.kernel
  eq : ∃ σ, t = { s with kernel := s.kernel.become σ p { s.kernel.proc p with frame := .exec uargv argv } } ∧
    Moved s.kernel.phys σ 0 argv

theorem Undone.of_moved {σ : Phys} (h : SameRest s t) (hk : t.kernel = { s.kernel with phys := σ })
    (hm : Moved s.kernel.phys σ 0 0) : Undone s t where
  eq := by rw [h, hk]
  free := by
    rw [hk]
    exact Multiset.coe_eq_coe.1 (by simpa using hm.account)
  mem x hx := by
    rw [hk]
    exact hm.frame x hx (Multiset.notMem_zero x)

theorem Exchanged.of_moved {old : ℕ} {σ : Phys} (h : Renamed p path s t)
    (hk : t.kernel = s.kernel.become σ p { s.kernel.proc p with pagetable := some root, sz := sz })
    (hm : Moved s.kernel.phys σ ({tf} + owned s.kernel.phys.mem USERTOP old) ({tf} + owned σ.mem USERTOP root))
    (hle : owned s.kernel.phys.mem USERTOP old ≤ σ.freelist) : Exchanged p path tf old s t := by
  have hphys : t.kernel.phys = σ := by rw [hk, become_phys]
  refine ⟨⟨root, sz, ?_, ?_⟩, fun x hx => ?_, fun x hx hold htf => ?_⟩
  · rw [hphys, ← hk]
    exact h
  · have hacc := hm.account
    rw [add_left_comm, add_left_comm (s.kernel.phys.freelist : Multiset ℕ), add_left_cancel_iff] at hacc
    rw [hphys, hacc]
  · rw [hphys]
    exact Multiset.mem_coe.1 (Multiset.mem_of_le hle hx)
  · rw [hphys]
    exact hm.frame x hx (by simp [hold, htf])

section Calls

variable {tf old uargv : ℕ} {path : List Byte} {found : Option (ℕ × Reader)}

/-- **`exec` is all or nothing.** -/
theorem exec_undo (h : Kernel.Inv im s.kernel) (htf : (s.kernel.proc p).trapframe = some tf)
    (hold : (s.kernel.proc p).pagetable = some old) (hfree : ∀ r, found = some r → (s.inode r.1).locked = false)
    (path : List Byte) (argv : List ℕ) :
    Ensures (exec im p path found argv) s
      (fun r t => r = -1 ∧ Undone s t ∨ r ≠ -1 ∧ Exchanged p path tf old s t) := by
  refine ((exec_follows hfree path argv).ensures (exec_outcome h htf hold _ argv)).imp
    fun r t ⟨⟨hout, _⟩, hrest⟩ => ?_
  generalize hk : t.kernel = k at hout
  cases hout with
  | fail σ hm =>
    rcases hrest with ⟨hr, hs⟩ | ⟨hr, -⟩
    · exact .inl ⟨rfl, .of_moved hs hk hm⟩
    · exact absurd rfl hr
  | done _ root sz σ hr hm hle =>
    rcases hrest with ⟨hr', -⟩ | ⟨-, hs⟩
    · exact absurd hr' hr
    · exact .inr ⟨hr, .of_moved hs hk hm hle⟩

theorem Fetching.step {argv : List ℕ} (h : Fetching im s p uargv argv t) (hinv : Kernel.Inv im s.kernel)
    (huser : s.kernel.InUser p) (htf : (s.kernel.proc p).trapframe = some tf) (hold : (s.kernel.proc p).pagetable = some old)
    (hfree : ∀ r, found = some r → (s.inode r.1).locked = false) :
    Ensures (execStep im p path found) t
      (fun r t' => (r = none ∧ argv.length < MAXARG ∧ ∃ a, Fetching im s p uargv (argv ++ [a]) t') ∨
        (r = some (-1) ∧ Undone s t') ∨ ∃ n, r = some n ∧ n ≠ -1 ∧ Exchanged p path tf old s t') := by
  obtain ⟨hI, σ0, rfl, hm0⟩ := h
  obtain ⟨hstate, hframe⟩ := huser
  set q := s.kernel.proc p with hq
  set k0 := s.kernel.become σ0 p { q with frame := .exec uargv argv } with hk0
  have hproc : k0.proc p = { q with frame := .exec uargv argv } := by rw [hk0, become_proc_self]
  have hback : { q with frame := .user } = q := by rw [← hframe]
  have hused : (k0.proc p).state ≠ .unused := by
    rw [hproc]
    change q.state ≠ .unused
    rw [hstate]
    rintro ⟨⟩
  -- the old page table is among the pages that the call does not touch before its end
  have hst := hinv.stock (zero_add _).symm
  have hsame : SameTable old s.kernel.phys.mem σ0.mem := by
    refine hm0.sameTable (r := s.kernel.held) (by rw [add_assoc]; exact hst.nodup) ?_
    refine (tabs_le_procPages _ hold).trans ?_
    rw [held_eq s.kernel p]
    exact Multiset.le_add_right _ _
  have hspec : Ensures (Kernel.execStep im p (found.map Prod.snd)) k0
      (fun r k' => Kernel.Round k0 p uargv tf old argv r k' ∧ Kernel.Inv im k') _ :=
    execStep_spec hI hused (by rw [hproc]) (by rw [hproc]; exact htf) (by rw [hproc]; exact hold) _
  refine ((execStep_follows (s := { s with kernel := k0 }) hfree path).ensures hspec).imp ?_
  rintro r t' ⟨⟨hround, hI'⟩, hrest⟩
  generalize hk : t'.kernel = k' at hround
  cases hround with
  | more a σ hlen hm =>
    rcases hrest with ⟨-, hs⟩ | ⟨⟨n, hn, -⟩, -⟩
    · refine .inl ⟨rfl, hlen, a, hI', σ, ?_, hm0.trans ((hm.add_rest argv).congr (zero_add _) ?_)⟩
      · rw [hs, hk, hk0, become_become, become_proc_self]
      · rw [← Multiset.coe_add, Multiset.coe_singleton, add_comm]
    · cases hn
  | fail σ hm =>
    rcases hrest with ⟨-, hs⟩ | ⟨⟨n, hn, hne⟩, -⟩
    · refine .inr (.inl ⟨rfl, .of_moved (σ := σ) (by rw [SameRest, hs]) ?_ (hm0.trans hm)⟩)
      rw [hk, hproc, hk0, become_become]
      change s.kernel.become σ p { q with frame := .user } = _
      rw [hback, hq, become_proc]
    · exact absurd (Option.some.inj hn).symm hne
  | done n root sz σ hr hm hle =>
    rcases hrest with ⟨hn | hn, -⟩ | ⟨-, hs⟩
    · cases hn
    · exact absurd (Option.some.inj hn) hr
    · have hk' : t'.kernel = s.kernel.become σ p { q with pagetable := some root, sz := sz } := by
        rw [hk, hproc, hk0, become_become, ← hframe]
      refine .inr (.inr ⟨n, rfl, hr, .of_moved (by rw [Renamed, hs]) hk' ?_ ?_⟩)
      · rw [hk0, become_phys, hsame.owned] at hm
        have hm1 := hm0.add_rest (({tf} : Multiset ℕ) + owned s.kernel.phys.mem USERTOP old)
        rw [zero_add] at hm1
        exact hm1.trans hm
      · rwa [hk0, become_phys, hsame.owned] at hle

/-- **The loop of `sys_exec` is all or nothing.** -/
theorem execRounds_undo (hinv : Kernel.Inv im s.kernel) (huser : s.kernel.InUser p)
    (htf : (s.kernel.proc p).trapframe = some tf)
    (hold : (s.kernel.proc p).pagetable = some old) (hfree : ∀ r, found = some r → (s.inode r.1).locked = false)
    (k : ℕ) {argv : List ℕ} (h : Fetching im s p uargv argv t) (hk : argv.length + k = MAXARG + 1)
    (hle : argv.length ≤ MAXARG) :
    Ensures (execRounds im p path found k) t
      (fun r t' => r = some (-1) ∧ Undone s t' ∨ ∃ n, r = some n ∧ n ≠ -1 ∧ Exchanged p path tf old s t') := by
  induction k generalizing argv t with
  | zero => omega
  | succ k ih =>
    rw [execRounds]
    refine (h.step hinv huser htf hold hfree).bind fun r t' hr => ?_
    rcases hr with ⟨rfl, hlen, a, hnext⟩ | ⟨rfl, hundo⟩ | ⟨n, rfl, hn, hex⟩
    · exact ih hnext (by rw [List.length_append, List.length_singleton]; omega)
        (by rw [List.length_append, List.length_singleton]; omega)
    · exact .pure (.inl ⟨rfl, hundo⟩)
    · exact .pure (.inr ⟨n, rfl, hn, hex⟩)

theorem sysExec_undo (h : Kernel.Inv im s.kernel) (huser : s.kernel.InUser p)
    (htf : (s.kernel.proc p).trapframe = some tf) (hold : (s.kernel.proc p).pagetable = some old)
    {find : List Byte → Option (ℕ × Reader)} (hfree : ∀ path r, find path = some r → (s.inode r.1).locked = false)
    (va uargv : ℕ) :
    Ensures (sysExec im p va uargv find) s
      (fun r t => r = some (-1) ∧ Undone s t ∨
        ∃ n path, r = some n ∧ n ≠ -1 ∧ Exchanged p path tf old s t) := by
  rw [sysExec, get_bind_iff, bind_iff, onKernel_iff, deref_some_iff hold, bind_iff,
    onKernel_iff]
  refine onPhys_total copyinstr_spec fun r σ hσ => ?_
  rw [hσ]
  split_ifs
  · have hI := h.setProc (p := p) (q := { s.kernel.proc p with frame := .exec uargv [] })
      ⟨rfl, rfl, rfl, by rw [huser.2]; rfl, id⟩
    rw [bind_iff, onKernel_iff, setProc_iff]
    refine (execRounds_undo h huser htf hold (hfree r.1) (MAXARG + 1)
      (⟨hI, s.kernel.phys, rfl, .refl _ _⟩ : Fetching im s p uargv [] _) (zero_add _) zero_le).imp fun r' t ht => ?_
    exact ht.imp id fun ⟨n, hr, hn, hex⟩ => ⟨n, r.1, hr, hn, hex⟩
  · exact .pure (.inl ⟨rfl, rfl, .refl _, fun _ _ => rfl⟩)

/-- **`exec` and `sys_exec` are all or nothing**, whatever the file holds and whatever fails on the way. -/
theorem exec_all_or_nothing (im : Image) (s : Sys) (h : Kernel.Inv im s.kernel) (p : Slot) (tf old : ℕ)
    (htf : (s.kernel.proc p).trapframe = some tf) (hold : (s.kernel.proc p).pagetable = some old) :
    (∀ found, (∀ r, found = some r → (s.inode r.1).locked = false) → ∀ path argv,
      Ensures (exec im p path found argv) s
        (fun r t => r = -1 ∧ Undone s t ∨ r ≠ -1 ∧ Exchanged p path tf old s t)) ∧
    (s.kernel.InUser p → ∀ find, (∀ path r, find path = some r → (s.inode r.1).locked = false) → ∀ va uargv,
      Ensures (sysExec im p va uargv find) s
        (fun r t => r = some (-1) ∧ Undone s t ∨
          ∃ n path, r = some n ∧ n ≠ -1 ∧ Exchanged p path tf old s t)) :=
  ⟨fun _ hfree path argv => exec_undo h htf hold hfree path argv,
    fun huser _ hfree va uargv => sysExec_undo h huser htf hold hfree va uargv⟩

end Calls

/-- The first process calls `sys_exec`. -/
theorem exec_all_or_nothing_init : ∃ (s : Sys) (tf old : ℕ), (Kernel.live roomyImage).Reachable s.kernel ∧
    ∀ find va uargv, Ensures (sysExec roomyImage initSlot va uargv find) s
      (fun r t => r = some (-1) ∧ Undone s t ∨
        ∃ n path, r = some n ∧ n ≠ -1 ∧ Exchanged initSlot path tf old s t) := by
  obtain ⟨k, tf, root, hk, hi⟩ := Kernel.exists_initRuns Kernel.lenient_live
  have htf : (k.proc initSlot).trapframe = some tf := by rw [hi.proc_init]; rfl
  refine ⟨inDir 0 k, tf, root, hk, fun find va uargv => ?_⟩
  exact (exec_all_or_nothing roomyImage (inDir 0 k) hi.inv initSlot tf root htf hi.pagetable).2
    hi.inUser find (fun _ _ _ => rfl) va uargv

end Sys

end Xv6
