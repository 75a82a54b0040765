import Xv6.Fs.Fileread
import Xv6.Proc.Run
import Xv6.Vm.Protect

/-!
# Proc/Protect — system calls that store through `copyout`

What `read`, `fstat`, `pipe` and `wait` store into the memory of the caller is a list of copies
(`copyouts`).  None looks at `PTE_W`, so that a program can have its own text overwritten.
-/

namespace Xv6

open Machinery Function Exec

/-! ## `fstat` -/

def ROOTDEV : ℕ := 1

/-- `struct stat` as `stati` fills it; the four bytes between `nlink` and `size` are what was on the stack. -/
def statBytes (ino : ℕ) (ip : Dinode) (pad : Fin 4 → Byte) : List Byte :=
  leBytes 4 ROOTDEV ++ leBytes 4 ino ++ leBytes 2 ip.type.toNat ++ leBytes 2 ip.nlink.toNat ++ List.ofFn pad ++
    leBytes 8 ip.size.toNat

namespace Io

variable (sb : Superblock) (root : ℕ)

def filestat (pad : Fin 4 → Byte) (addr : ℕ) : IoM ℤ := do
  let f := (← get).file
  if f.type = .inode ∨ f.type = .device then
    onFs (ilock sb f.ip)
    let ip ← onFs (inode f.ip)
    onFs (iunlock f.ip)
    if ← onPhys (copyout root addr (statBytes f.ip ip pad)) then return 0 else return -1
  else return -1

/-- The copies of `fstat`. -/
def statRequests (io : Io) (pad : Fin 4 → Byte) (addr : ℕ) : List Request :=
  if io.file.type = .inode ∨ io.file.type = .device then
    [⟨addr, statBytes io.file.ip (io.fs.cur sb io.file.ip) pad, true⟩]
  else []

variable {sb root} {io : Io} {addr : ℕ}

theorem filestat_copies (h : io.Ok sb root) (pad : Fin 4 → Byte) (addr : ℕ) : ∃ r io' ok,
    filestat sb root pad addr io = .ok (r, io') ∧
      copyouts root (io.statRequests sb pad addr) io.phys = .ok (ok, io'.phys) := by
  rw [filestat, bind_ok (get_run io), statRequests]
  by_cases htype : io.file.type = .inode ∨ io.file.type = .device
  · obtain ⟨href, hlive, -⟩ := h.inode htype
    obtain ⟨t, hlock, hv, href', hdisk, hcur⟩ := ilock_live href hlive
    have hinode : inode io.file.ip t = .ok (io.fs.cur sb io.file.ip, t) := by
      rw [← hcur, Fs.cur_of_valid hv]
      rfl
    have hunlock : iunlock io.file.ip t = .ok ((), t) := by
      rw [iunlock, bind_ok (get_run _), if_neg (by omega)]
      rfl
    have hcopy : ∀ l, onPhys (copyout root addr l) { io with fs := t } = .ok (_, { io with fs := t, phys := _ }) :=
      fun l => onPhys_ok (h.apart.copyout_eq addr l)
    rw [if_pos htype, if_pos htype, bind_ok (onFs_ok hlock), bind_ok (onFs_ok hinode),
      bind_ok (onFs_ok hunlock)]
    dsimp only
    rw [bind_ok (hcopy _), copyouts_must h.apart]
    split_ifs with hdec hreach
    · exact ⟨0, _, true, rfl, rfl⟩
    · exact absurd (of_decide_eq_true hdec) hreach
    · exact absurd (decide_eq_true ‹_›) hdec
    · exact ⟨-1, _, false, rfl, rfl⟩
  · rw [if_neg htype, if_neg htype]
    exact ⟨-1, io, true, rfl, rfl⟩

theorem fileread_copies (h : io.Ok sb root) (haddr : addr < 2 ^ 64) (inp : Inputs) (n : ℤ) : ∃ r io' ok,
    fileread sb root inp addr n io = .ok (r, io') ∧
      copyouts root [⟨addr, io.wants sb inp n, true⟩] io.phys = .ok (ok, io'.phys) := by
  obtain ⟨r, io', hrun, hdid, -⟩ := fileread_run h haddr inp n rfl
  rw [copyouts_must h.apart]
  split_ifs
  · exact ⟨r, io', true, hrun, hdid.phys ▸ rfl⟩
  · exact ⟨r, io', false, hrun, hdid.phys ▸ rfl⟩

end Io

namespace Kernel

variable {root : ℕ} {σ : Phys} {k : Kernel} {p : Slot}

/-! ## `pipe` -/

/-- What `sys_pipe` stores. -/
def pipeCopies (root fdarray : ℕ) (fd0 fd1 : Fin NOFILE) : Exec KPanic Phys Bool := do
  if ← copyout root fdarray (intBytes fd0) then copyout root ((fdarray + 4) % 2 ^ 64) (intBytes fd1)
  else return false

def pipeRequests (fdarray : ℕ) (fd0 fd1 : Fin NOFILE) : List Request :=
  [⟨fdarray, intBytes fd0, true⟩, ⟨(fdarray + 4) % 2 ^ 64, intBytes fd1, true⟩]

theorem pipeCopies_copies (h : Xv6.Apart σ.mem root) (fdarray : ℕ) (fd0 fd1 : Fin NOFILE) :
    pipeCopies root fdarray fd0 fd1 σ = copyouts root (pipeRequests fdarray fd0 fd1) σ := by
  have h' := h.copied fdarray (intBytes fd0)
  rw [pipeCopies, bind_ok (h.copyout_eq fdarray _), pipeRequests, copyouts_must h]
  by_cases hreach : reach σ.mem root fdarray (intBytes fd0).length = (intBytes fd0).length
  · rw [if_pos hreach, if_pos (decide_eq_true hreach), copyouts_must h', h'.copyout_eq]
    split_ifs with hreach'
    · rw [decide_eq_true hreach']
      rfl
    · rw [decide_eq_false hreach']
  · rw [if_neg hreach, if_neg (by rwa [decide_eq_true_iff])]
    rfl

/-! ## `wait` -/

/-- The copies of a scan of `wait`: a message for every child, and the status of the first zombie. -/
def waitRequests (k : Kernel) (p : Slot) (addr dst : ℕ) : List Slot → List Request
  | [] => []
  | pp :: pps =>
    if (k.proc pp).parent = some p then
      ⟨dst, strBytes (k.proc pp).exitMsg, false⟩ ::
        if (k.proc pp).state = .zombie then
          if addr ≠ 0 then [⟨addr, intBytes (k.proc pp).xstate, true⟩] else []
        else waitRequests k p addr dst pps
    else waitRequests k p addr dst pps

theorem waitRequests_phys (σ : Phys) (addr dst : ℕ) (pps : List Slot) :
    waitRequests { k with phys := σ } p addr dst pps = waitRequests k p addr dst pps := by
  induction pps with
  | nil => rfl
  | cons pp pps ih => rw [waitRequests, waitRequests, ih]

theorem onPhys_ok {α : Type} {x : Exec KPanic Phys α} {a : α} (h : x k.phys = .ok (a, σ)) :
    onPhys x k = .ok (a, { k with phys := σ }) :=
  zoom_ok h

/-- **The scan of `wait` is the copies of messages and of one status.** -/
theorem waitScan_copies (h : Xv6.Apart k.phys.mem root) (addr dst : ℕ) (pps : List Slot) (havekids : Bool) :
    ∃ r ok σ, waitScan p root addr dst pps havekids k = .ok (r, { k with phys := σ }) ∧
      copyouts root (waitRequests k p addr dst pps) k.phys = .ok (ok, σ) := by
  induction pps generalizing k havekids with
  | nil => exact ⟨_, true, k.phys, rfl, rfl⟩
  | cons pp pps ih =>
    rw [waitScan, bind_ok (get_run k), waitRequests]
    by_cases hparent : (k.proc pp).parent = some p
    · have h' := h.copied dst (strBytes (k.proc pp).exitMsg)
      rw [if_pos hparent, if_pos hparent, bind_ok (onPhys_ok (h.copyout_eq dst _)), copyouts_may h]
      split_ifs with hz haddr
      · rw [bind_ok (onPhys_ok (h'.copyout_eq addr _)), copyouts_must h']
        split_ifs with hdec hreach
        · exact ⟨_, true, _, rfl, rfl⟩
        · exact absurd (of_decide_eq_true hdec) hreach
        · exact absurd (decide_eq_true ‹_›) hdec
        · exact ⟨_, false, _, rfl, rfl⟩
      · exact ⟨_, true, _, rfl, rfl⟩
      · obtain ⟨r, ok, σ, hrun, hcopies⟩ := ih (k := { k with phys := _ }) h' true
        rw [waitRequests_phys] at hcopies
        exact ⟨r, ok, σ, hrun, hcopies⟩
    · rw [if_neg hparent, if_neg hparent]
      exact ih h havekids

end Kernel

/-- **When the calls that store results respect `PTE_W`**: if every byte that they store, and that is not there
already, goes to a page that the user can write to, and only then. -/
theorem stores_obey {sb : Superblock} {root : ℕ} {io : Io} (h : io.Ok sb root) :
    (∀ (inp : Inputs) (addr : ℕ) (n : ℤ), addr < 2 ^ 64 → ∃ r io' ok,
      Io.fileread sb root inp addr n io = .ok (r, io') ∧
      copyouts root [⟨addr, io.wants sb inp n, true⟩] io.phys = .ok (ok, io'.phys) ∧
      (Obeys root [⟨addr, io.wants sb inp n, true⟩] io.phys io'.phys ok ↔
        Spares root [⟨addr, io.wants sb inp n, true⟩] io.phys)) ∧
    (∀ (pad : Fin 4 → Byte) (addr : ℕ), addr < 2 ^ 64 → ∃ r io' ok,
      Io.filestat sb root pad addr io = .ok (r, io') ∧
      copyouts root (io.statRequests sb pad addr) io.phys = .ok (ok, io'.phys) ∧
      (Obeys root (io.statRequests sb pad addr) io.phys io'.phys ok ↔
        Spares root (io.statRequests sb pad addr) io.phys)) ∧
    (∀ (fdarray : ℕ) (fd0 fd1 : Fin NOFILE), fdarray < 2 ^ 64 → ∃ ok σ',
      Kernel.pipeCopies root fdarray fd0 fd1 io.phys = .ok (ok, σ') ∧
      (Obeys root (Kernel.pipeRequests fdarray fd0 fd1) io.phys σ' ok ↔
        Spares root (Kernel.pipeRequests fdarray fd0 fd1) io.phys)) ∧
    ∀ (k : Kernel) (p : Slot) (addr dst : ℕ) (pps : List Slot), Xv6.Apart k.phys.mem root → addr < 2 ^ 64 →
      dst < 2 ^ 64 → ∃ r k' ok, Kernel.waitScan p root addr dst pps false k = .ok (r, k') ∧
        copyouts root (k.waitRequests p addr dst pps) k.phys = .ok (ok, k'.phys) ∧
        (Obeys root (k.waitRequests p addr dst pps) k.phys k'.phys ok ↔
          Spares root (k.waitRequests p addr dst pps) k.phys) := by
  refine ⟨fun inp addr n haddr => ?_, fun pad addr _ => ?_, fun fdarray fd0 fd1 _ => ?_,
    fun k p addr dst pps hapart _ _ => ?_⟩
  · obtain ⟨r, io', ok, hrun, hcopies⟩ := Io.fileread_copies h haddr inp n
    exact ⟨r, io', ok, hrun, hcopies, obeys_iff_spares h.apart hcopies⟩
  · obtain ⟨r, io', ok, hrun, hcopies⟩ := Io.filestat_copies h pad addr
    exact ⟨r, io', ok, hrun, hcopies, obeys_iff_spares h.apart hcopies⟩
  · have hrun := Kernel.pipeCopies_copies h.apart fdarray fd0 fd1
    have hcopies := copyouts_run h.apart (Kernel.pipeRequests fdarray fd0 fd1)
    exact ⟨_, _, hrun.trans hcopies, obeys_iff_spares h.apart hcopies⟩
  · obtain ⟨r, ok, σ, hrun, hcopies⟩ := Kernel.waitScan_copies (p := p) hapart addr dst pps false
    exact ⟨r, _, ok, hrun, hcopies, obeys_iff_spares hapart hcopies⟩

/-- The descriptors of a pipe, where all pages are writable. -/
theorem stores_obey_pipe : ∃ ok σ', Kernel.pipeCopies 1 (510 * PGSIZE) ⟨3, by decide⟩ ⟨4, by decide⟩
      (lastTwo (mkPte 4 22) 0) = .ok (ok, σ') ∧
    Obeys 1 (Kernel.pipeRequests (510 * PGSIZE) ⟨3, by decide⟩ ⟨4, by decide⟩) (lastTwo (mkPte 4 22) 0) σ' ok := by
  have hapart : Apart (lastTwo (mkPte 4 22) 0).mem 1 := lastTwo_apart _ _ (by decide) (by decide)
  obtain ⟨ok, σ', hrun, hiff⟩ := (stores_obey (Io.reading_ok hapart)).2.2.1 (510 * PGSIZE)
    ⟨3, by decide⟩ ⟨4, by decide⟩ (by decide)
  refine ⟨ok, σ', hrun, hiff.2 (.of_writable (fun x e _ he hu => ?_) _)⟩
  obtain rfl | rfl | rfl := leaf_lastTwo _ _ he
  · decide
  · exact absurd hu (by decide)
  · exact absurd hu (by decide)

/-- A program reads one byte into its text. -/
theorem stores_overwrite_text : ∃ io io', io.Ok .tiny 1 ∧
    Io.fileread .tiny 1 ⟨false, fun _ => none⟩ (510 * PGSIZE) 1 io = .ok (1, io') ∧
    ReadOnly io.phys.mem 1 (510 * PGSIZE) ∧ userPage io.phys.mem 1 (510 * PGSIZE) = some 4 ∧
    (io'.phys.mem 4).byteAt 0 ≠ (io.phys.mem 4).byteAt 0 ∧ ¬WritablePage io.phys.mem 1 4 := by
  have hone : (Io.fileread .tiny 1 ⟨false, fun _ => none⟩ (510 * PGSIZE) 1
      (Io.reading (lastTwo (mkPte 4 26) 0))).toOption.map (fun p => (p.1, (p.2.phys.mem 4).byteAt 0)) =
    some (1, 7) := by decide +kernel
  obtain ⟨⟨r, io'⟩, hrun, heq⟩ := Exec.exists_ok_of_map hone
  obtain ⟨rfl, hseven⟩ := Prod.mk.inj heq
  refine ⟨_, io', Io.reading_ok (lastTwo_apart _ _ (by decide) (by decide)), hrun,
    ⟨show 510 * PGSIZE < MAXVA by decide, mkPte 4 26, ?_, by decide, by decide⟩, ?_, ?_, ?_⟩
  · show leaf (lastTwo (mkPte 4 26) 0).mem 1 (510 * PGSIZE / PGSIZE) = _
    decide +kernel
  · show userPage (lastTwo (mkPte 4 26) 0).mem 1 (510 * PGSIZE) = some 4
    decide +kernel
  · rw [hseven]
    show 7 ≠ ((lastTwo (mkPte 4 26) 0).mem 4).byteAt 0
    decide +kernel
  · rintro ⟨x, ⟨-, e, he, hu, hw⟩, hp⟩
    obtain rfl | rfl | rfl := leaf_lastTwo _ _ he
    · exact absurd hw (by decide)
    · exact absurd hu (by decide)
    · exact absurd hu (by decide)

/-! ## What the copies assume -/

namespace Kernel

/-- **In every run, no user address of a process leads into its page table.** -/
theorem apart_reachable {im : Image} {k : Kernel} {p : Slot} {root : ℕ} (hk : (bootable im).Reachable k)
    (hr : (k.proc p).pagetable = some root) : Xv6.Apart k.phys.mem root := by
  have hI := Inv.of_reachable hk
  obtain ⟨tf, -, hu⟩ := (hI.procs p).space root hr
  exact (hI.space hr).apart hu.guarded

/-- The first process. -/
theorem apart_reachable_init : ∃ k root, (bootable roomyImage).Reachable k ∧
    (k.proc initSlot).pagetable = some root ∧ Xv6.Apart k.phys.mem root := by
  obtain ⟨k, tf, root, hk, hi⟩ := exists_initRuns lenient_affords
  exact ⟨k, root, hk, hi.pagetable, apart_reachable hk hi.pagetable⟩

end Kernel

end Xv6
