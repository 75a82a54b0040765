import Xv6.Proc.Files
import Xv6.Machinery.Tally

/-!
# Proc/Refs — references to open files, counted

`ref` of a file counts the descriptors that refer to it, and the references a system call has in its
hands (`x`).  The trace has an event for each pipe and inode that is opened or given back; `Events`
says that what is missing on one side is in the file table.
-/

namespace Xv6

open Machinery Function Ensures List

/-- 1 if a descriptor refers to the file `i`. -/
def refersTo (i : Fin NFILE) (o : Option (Fin NFILE)) : ℕ := if o = some i then 1 else 0

/-- 1 if a file is the end `w` of the pipe at page `pi`. -/
def isEnd (pi : ℕ) (w : Bool) (f : File) : ℕ :=
  if f.type = .pipe ∧ f.pipe = pi ∧ f.writable = w then 1 else 0

/-- 1 if a file is an open inode `ip`. -/
def isInode (ip : ℕ) (f : File) : ℕ :=
  if (f.type = .inode ∨ f.type = .device) ∧ f.ip = ip then 1 else 0

namespace Kernel

variable {im : Image} {k k' : Kernel} {p : Slot} {i : Fin NFILE} {file : Fin NFILE → File}
  {D : Slot × Fin NOFILE → Option (Fin NFILE)} {x x' : Fin NFILE → ℕ} {y : ℕ → ℕ}
  {trace : List FileEvent}

def fds (k : Kernel) : Slot × Fin NOFILE → Option (Fin NFILE) := fun a => (k.proc a.1).ofile a.2

/-! ## References

A reference goes from the hands of a system call to a descriptor, and back. -/

/-- Each file has the references of `D`, and `x` more; descriptors refer to open files. -/
structure Refs (x : Fin NFILE → ℕ) (file : Fin NFILE → File)
    (D : Slot × Fin NOFILE → Option (Fin NFILE)) : Prop where
  count : ∀ i, (file i).ref = tally (refersTo i) D + x i
  typed : ∀ a i, D a = some i → (file i).type ≠ .none

theorem refersTo_self (i : Fin NFILE) : refersTo i (some i) = 1 := if_pos rfl

variable {a : Slot × Fin NOFILE} {f : File} {f0 f1 : Fin NFILE} {α : Type}

theorem one_le_tally (h : D a = some i) : 1 ≤ tally (refersTo i) D := by
  have hle := le_tally (refersTo i) D a
  rwa [h, refersTo_self] at hle

theorem Refs.update (h : Refs x file D) (hx : ∀ j, j ≠ i → x' j = x j)
    (href : f.ref = tally (refersTo i) D + x' i) (ht : f.type = .none → tally (refersTo i) D = 0) :
    Refs x' (update file i f) D where
  count j := by
    by_cases hj : j = i
    · subst hj
      rwa [update_self]
    · rw [update_of_ne hj, h.count, hx j hj]
  typed a j ha := by
    by_cases hj : j = i
    · subst hj
      have hone := one_le_tally ha
      rw [update_self]
      exact fun hn => absurd (ht hn) (by omega)
    · rw [update_of_ne hj]
      exact h.typed a j ha

theorem Refs.tally_of_none (h : Refs x file D) (ht : (file i).type = .none) :
    tally (refersTo i) D = 0 := by
  by_contra hne
  obtain ⟨a, ha⟩ := exists_of_tally_pos (Nat.pos_of_ne_zero hne)
  have hself : refersTo i (D a) ≠ 0 := ha.ne'
  rw [refersTo, ite_ne_right_iff] at hself
  exact h.typed a i hself.1 ht

theorem Refs.setRef (h : Refs x file D) {n : ℕ} (hx : ∀ j, j ≠ i → x' j = x j)
    (hn : n + x i = (file i).ref + x' i) : Refs x' (Function.update file i { file i with ref := n }) D := by
  have hcount := h.count i
  refine h.update hx ?_ h.tally_of_none
  change n = _
  omega

theorem Refs.retype (h : Refs x file D) (hr : f.ref = (file i).ref) (ht : f.type ≠ .none) :
    Refs x (Function.update file i f) D :=
  h.update (fun _ _ => rfl) (hr.trans (h.count i)) fun hn => absurd hn ht

theorem Refs.setFd (h : Refs x file D) {v : Option (Fin NFILE)}
    (hx : ∀ j, x' j + refersTo j v = x j + refersTo j (D a))
    (hv : ∀ j, v = some j → (file j).type ≠ .none) : Refs x' file (Function.update D a v) where
  count j := by
    have hcount := h.count j
    have htally := tally_update (refersTo j) D a v
    have hxj := hx j
    omega
  typed b j hb := by
    by_cases hba : b = a
    · subst hba
      rw [update_self] at hb
      exact hv j hb
    · rw [update_of_ne hba] at hb
      exact h.typed b j hb

/-- One more reference to `i` in hand. -/
abbrev plus (x : Fin NFILE → ℕ) (i : Fin NFILE) : Fin NFILE → ℕ := x + Pi.single i 1

theorem plus_self (x : Fin NFILE → ℕ) (i : Fin NFILE) : plus x i i = x i + 1 := by
  simp [plus]

theorem plus_of_ne (x : Fin NFILE → ℕ) {i j : Fin NFILE} (h : j ≠ i) : plus x i j = x j := by
  simp [plus, h]

theorem plus_apply (x : Fin NFILE → ℕ) (i j : Fin NFILE) :
    plus x i j = x j + refersTo j (some i) := by
  by_cases h : j = i
  · subst h
    rw [plus_self, refersTo_self]
  · rw [plus_of_ne x h, refersTo, if_neg fun he => h (Option.some.inj he).symm, add_zero]

theorem Refs.install (h : Refs (plus x i) file D) (ha : D a = none)
    (ht : (file i).type ≠ .none) : Refs x file (Function.update D a (some i)) := by
  refine h.setFd (fun j => ?_) fun j hj => Option.some.inj hj ▸ ht
  rw [plus_apply, ha]
  simp [refersTo]

/-- …and back. -/
theorem Refs.remove (h : Refs x file D) (ha : D a = some i) :
    Refs (plus x i) file (Function.update D a none) := by
  refine h.setFd (fun j => ?_) nofun
  rw [plus_apply, ha]
  simp [refersTo]

/-! ## Events

Each end of a pipe is closed once, and the page of a pipe is freed once, with its last end. -/

/-- What was opened was given back once, or is open; `y` are inodes in hand. -/
structure Events (y : ℕ → ℕ) (file : Fin NFILE → File) (trace : List FileEvent) : Prop where
  closes : ∀ pi w, trace.count (.pipealloc pi) =
    trace.count (.pipeclose pi w) + tally (isEnd pi w) file
  frees : ∀ pi, trace.count (.pipealloc pi) = trace.count (.pipefree pi) +
    if ∀ w, tally (isEnd pi w) file = 0 then 0 else 1
  inodes : ∀ ip, trace.count (.iref ip) = trace.count (.iput ip) + tally (isInode ip) file + y ip

theorem Events.step (h : Events y file trace) {file' : Fin NFILE → File} {es : List FileEvent}
    {y' : ℕ → ℕ}
    (hc : ∀ pi w, es.count (.pipealloc pi) + tally (isEnd pi w) file =
      es.count (.pipeclose pi w) + tally (isEnd pi w) file')
    (hf : ∀ pi, es.count (.pipealloc pi) + (if ∀ w, tally (isEnd pi w) file = 0 then 0 else 1) =
      es.count (.pipefree pi) + if ∀ w, tally (isEnd pi w) file' = 0 then 0 else 1)
    (hi : ∀ ip, es.count (.iref ip) + tally (isInode ip) file + y ip =
      es.count (.iput ip) + tally (isInode ip) file' + y' ip) : Events y' file' (trace ++ es) where
  closes pi w := by
    have := h.closes pi w
    have := hc pi w
    rw [count_append, count_append]
    omega
  frees pi := by
    have := h.frees pi
    have := hf pi
    rw [count_append, count_append]
    omega
  inodes ip := by
    have := h.inodes ip
    have := hi ip
    rw [count_append, count_append]
    omega

theorem Events.step_inode (h : Events y file trace) {es : List FileEvent} {y' : ℕ → ℕ}
    (hes : ∀ e ∈ es, ∃ ip, e = .iref ip ∨ e = .iput ip)
    (he : ∀ pi w, isEnd pi w f = isEnd pi w (file i))
    (hi : ∀ ip, es.count (.iref ip) + isInode ip (file i) + y ip =
      es.count (.iput ip) + isInode ip f + y' ip) : Events y' (update file i f) (trace ++ es) := by
  have hend : ∀ pi w, tally (isEnd pi w) (Function.update file i f) = tally (isEnd pi w) file :=
    fun pi w => by
      have := tally_update (isEnd pi w) file i f
      have := he pi w
      omega
  have hnone : ∀ e : FileEvent, (∀ ip, e ≠ .iref ip ∧ e ≠ .iput ip) → es.count e = 0 := fun e hne =>
    count_eq_zero.2 fun hmem => by
      obtain ⟨ip, hip⟩ := hes e hmem
      exact hip.elim (hne ip).1 (hne ip).2
  refine h.step (fun pi w => ?_) (fun pi => ?_) fun ip => ?_
  · rw [hend, hnone (.pipealloc pi) fun _ => ⟨nofun, nofun⟩,
      hnone (.pipeclose pi w) fun _ => ⟨nofun, nofun⟩]
  · simp only [hend]
    rw [hnone (.pipealloc pi) fun _ => ⟨nofun, nofun⟩, hnone (.pipefree pi) fun _ => ⟨nofun, nofun⟩]
  · have := tally_update (isInode ip) file i f
    have := hi ip
    omega

theorem Events.update (h : Events y file trace) (he : ∀ pi w, isEnd pi w f = isEnd pi w (file i))
    (hi : ∀ ip, isInode ip f = isInode ip (file i)) : Events y (update file i f) trace := by
  have hstep : Events y (Function.update file i f) (trace ++ []) := h.step_inode nofun he fun ip => by
    have := hi ip
    simp only [count_nil]
    omega
  rwa [append_nil] at hstep

theorem ends_ne_zero {pi : ℕ} {w : Bool} : tally (isEnd pi w) file ≠ 0 ↔
    ∃ j ∈ pipeEnds file, (file j).pipe = pi ∧ (file j).writable = w := by
  constructor
  · intro h
    obtain ⟨j, hj⟩ := exists_of_tally_pos (Nat.pos_of_ne_zero h)
    have hj : isEnd pi w (file j) ≠ 0 := hj.ne'
    rw [isEnd, ite_ne_right_iff] at hj
    exact ⟨j, mem_pipeEnds.2 hj.1.1, hj.1.2⟩
  · rintro ⟨j, hj, hp, hw⟩
    have hle := le_tally (isEnd pi w) file j
    rw [isEnd, if_pos ⟨mem_pipeEnds.1 hj, hp, hw⟩] at hle
    omega

/-- What `pipeclose` does with the end `w` of the pipe `q` at page `pi`. -/
def closeEvents (q : Pipe) (pi : ℕ) (w : Bool) : List FileEvent :=
  .pipeclose pi w :: if q.isOpen (!w) = true then [] else [.pipefree pi]

theorem count_closeEvents_close (q : Pipe) (pi : ℕ) (w : Bool) (pi' : ℕ) (w' : Bool) :
    (closeEvents q pi w).count (.pipeclose pi' w') = if pi = pi' ∧ w = w' then 1 else 0 := by
  unfold closeEvents
  split_ifs <;> simp_all

theorem count_closeEvents_free (q : Pipe) (pi : ℕ) (w : Bool) (pi' : ℕ) :
    (closeEvents q pi w).count (.pipefree pi') = if q.isOpen (!w) = false ∧ pi = pi' then 1 else 0 := by
  unfold closeEvents
  split_ifs <;> simp_all

theorem count_closeEvents_of_ne (e : FileEvent) (q : Pipe) (pi : ℕ) (w : Bool)
    (hc : ∀ pi w, e ≠ .pipeclose pi w) (hf : ∀ pi, e ≠ .pipefree pi) :
    (closeEvents q pi w).count e = 0 := by
  refine count_eq_zero.2 fun hmem => ?_
  rw [closeEvents, mem_cons] at hmem
  refine hmem.elim (hc pi w) fun hmem => ?_
  split_ifs at hmem
  · exact absurd hmem not_mem_nil
  · exact hf pi (mem_singleton.1 hmem)

section Close

variable (h : Events y file trace) {pipe : ℕ → Pipe} (hok : FilesOk file pipe) (hi : i ∈ pipeEnds file)
  {f : File} (hf : f.type = .none)

include hi hf in
theorem tally_ends_close (pi : ℕ) (w : Bool) :
    tally (isEnd pi w) (Function.update file i f) +
      (if (file i).pipe = pi ∧ (file i).writable = w then 1 else 0) = tally (isEnd pi w) file := by
  have htally := tally_update (isEnd pi w) file i f
  have hnot : isEnd pi w f = 0 := by simp [isEnd, hf]
  have hself : isEnd pi w (file i) = if (file i).pipe = pi ∧ (file i).writable = w then 1 else 0 := by
    simp [isEnd, mem_pipeEnds.1 hi]
  rwa [hnot, add_zero, hself] at htally

include hok hi hf in
theorem no_ends_close :
    (∀ w, tally (isEnd (file i).pipe w) (Function.update file i f) = 0) ↔
      (pipe (file i).pipe).isOpen (!(file i).writable) = false := by
  have hother := tally_ends_close hi hf (file i).pipe (!(file i).writable)
  rw [if_neg fun h => Bool.not_ne_self _ h.2.symm, add_zero] at hother
  constructor
  · intro hno
    by_contra hopen
    obtain ⟨j, hj, hp, hw⟩ := hok.ends i hi _ (by simpa using hopen)
    exact ends_ne_zero.2 ⟨j, hj, hp, hw⟩ (by rw [← hother, hno])
  · intro hclosed w
    by_contra hne
    obtain ⟨j, hj, hp, hw⟩ := ends_ne_zero.1 hne
    rw [pipeEnds_close (by simp [hf]), Finset.mem_erase] at hj
    rw [update_of_ne hj.1] at hp hw
    -- the end is not the one that is closed, so it is the other one
    by_cases hsame : w = (file i).writable
    · exact hj.1 (hok.unique j hj.2 i hi hp (hw.trans hsame))
    · have hopen := hok.opened j hj.2
      rw [hp, hw, Bool.eq_not_of_ne hsame, hclosed] at hopen
      exact Bool.false_ne_true hopen

include h hok hi hf

/-- **Closing an end of a pipe**, and freeing its page if the other end is closed. -/
theorem Events.close : Events y (Function.update file i f)
    (trace ++ closeEvents (pipe (file i).pipe) (file i).pipe (file i).writable) := by
  refine h.step (fun pi w => ?_) (fun pi => ?_) fun ip => ?_
  · rw [count_closeEvents_of_ne (.pipealloc pi) _ _ _ nofun nofun, count_closeEvents_close, zero_add, add_comm,
      tally_ends_close hi hf]
  · rw [count_closeEvents_of_ne (.pipealloc pi) _ _ _ nofun nofun, count_closeEvents_free, zero_add]
    by_cases hpi : (file i).pipe = pi
    · subst hpi
      have hopen : ¬ ∀ w, tally (isEnd (file i).pipe w) file = 0 := fun hz =>
        ends_ne_zero.2 ⟨i, hi, rfl, rfl⟩ (hz (file i).writable)
      rw [if_neg hopen]
      simp only [no_ends_close hok hi hf, and_true]
      split_ifs <;> rfl
    · have hsame : ∀ w, tally (isEnd pi w) (Function.update file i f) = tally (isEnd pi w) file :=
        fun w => by
          have := tally_ends_close hi hf pi w
          rwa [if_neg fun h => hpi h.1, add_zero] at this
      simp only [hsame, hpi, and_false, if_false, zero_add]
  · have htally := tally_update (isInode ip) file i f
    have hnot : isInode ip f = 0 := by simp [isInode, hf]
    have hself : isInode ip (file i) = 0 := by simp [isInode, mem_pipeEnds.1 hi]
    rw [count_closeEvents_of_ne (.iref ip) _ _ _ nofun nofun,
      count_closeEvents_of_ne (.iput ip) _ _ _ nofun nofun]
    omega

end Close

/-- **Opening a pipe** at a page that no pipe has. -/
theorem Events.join (h : Events y file trace) {file' : Fin NFILE → File} {pi : ℕ}
    (hj : Joined file file' f0 f1 pi) : Events y file' (trace ++ [.pipealloc pi]) := by
  have hfile : file' = Function.update (Function.update file f0 (file' f0)) f1 (file' f1) := by
    ext1 j
    by_cases h1 : j = f1
    · rw [h1, update_self]
    by_cases h0 : j = f0
    · rw [update_of_ne h1, h0, update_self]
    · rw [update_of_ne h1, update_of_ne h0, hj.other j h0 h1]
  have htally : ∀ g : File → ℕ, g (file f0) = 0 → g (file f1) = 0 →
      tally g file' = tally g file + g (file' f0) + g (file' f1) := fun g h0 h1 => by
    have hu0 := tally_update g file f0 (file' f0)
    have hu1 := tally_update g (Function.update file f0 (file' f0)) f1 (file' f1)
    rw [← hfile, update_of_ne hj.ne.symm, h1] at hu1
    omega
  have hend : ∀ pi' w, tally (isEnd pi' w) file' =
      tally (isEnd pi' w) file + if pi = pi' then 1 else 0 := fun pi' w => by
    rw [htally _ (by simp [isEnd, hj.closed.1]) (by simp [isEnd, hj.closed.2]), isEnd, isEnd,
      hj.reader.1, hj.reader.2.1, hj.reader.2.2, hj.writer.1, hj.writer.2.1, hj.writer.2.2]
    cases w <;> simp
  refine h.step (fun pi' w => ?_) (fun pi' => ?_) fun ip => ?_
  · rw [hend]
    simp [count_singleton, add_comm]
  · simp only [hend]
    by_cases hpi : pi = pi'
    · subst hpi
      have hzero : ∀ w, tally (isEnd pi w) file = 0 := fun w => by
        by_contra hne
        obtain ⟨j, hjm, hp, -⟩ := ends_ne_zero.1 hne
        exact (hj.old hjm).2 hp
      simp [hzero]
    · simp [hpi]
  · rw [htally (isInode ip) (by simp [isInode, hj.closed.1]) (by simp [isInode, hj.closed.2])]
    simp [isInode, hj.reader.1, hj.writer.1]

theorem Events.iref (h : Events y file trace) (ip : ℕ) :
    Events (y + Pi.single ip 1) file (trace ++ [.iref ip]) := by
  refine h.step (by simp) (by simp) fun ip' => ?_
  obtain rfl | hip := eq_or_ne ip' ip
  · simp
    omega
  · simp [hip, hip.symm]

theorem Events.iput {ip : ℕ} (h : Events (y + Pi.single ip 1) file trace) :
    Events y file (trace ++ [.iput ip]) := by
  refine h.step (by simp) (by simp) fun ip' => ?_
  obtain rfl | hip := eq_or_ne ip' ip
  · simp
    omega
  · simp [hip, hip.symm]

theorem Events.openInode {ip : ℕ} (h : Events (y + Pi.single ip 1) file trace)
    (ht : (file i).type = .none) (hf : f.type = .inode ∨ f.type = .device) (hip : f.ip = ip) :
    Events y (Function.update file i f) trace := by
  have hstep : Events y (Function.update file i f) (trace ++ []) := by
    refine h.step_inode nofun (fun pi w => ?_) fun ip' => ?_
    · obtain hf | hf := hf <;> simp [isEnd, ht, hf]
    · by_cases hne : ip' = ip
      · subst hne
        simp [isInode, ht, hf, hip, add_comm]
      · simp [isInode, ht, hip, Ne.symm hne, hne]
  rwa [append_nil] at hstep

end Kernel

end Xv6
