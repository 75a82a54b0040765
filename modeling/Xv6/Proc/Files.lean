import Xv6.Proc.Conserve

/-!
# Proc/Files — open files and pipes keep the account of pages

A pipe's page is freed with the last of its ends: the flags in the page say which are open, and
`FilesOk` that they say the truth.
-/

namespace Xv6

open Machinery Function Ensures Finset

namespace Kernel

variable {im : Image} {k : Kernel} {p : Slot} {file file' : Fin NFILE → File} {pipe : ℕ → Pipe}
  {i : Fin NFILE}

/-! ## Files that are no end of a pipe -/

theorem mem_pipeEnds : i ∈ pipeEnds file ↔ (file i).type = .pipe := by
  simp [pipeEnds]

/-- The two tables have the same ends of pipes. -/
structure SameEnds (file file' : Fin NFILE → File) : Prop where
  type : ∀ i, (file' i).type = .pipe ↔ (file i).type = .pipe
  pipe : ∀ i, (file i).type = .pipe → (file' i).pipe = (file i).pipe
  writable : ∀ i, (file i).type = .pipe → (file' i).writable = (file i).writable

namespace SameEnds

theorem update {f : File} (ht : f.type = .pipe ↔ (file i).type = .pipe)
    (hf : (file i).type = .pipe → f.pipe = (file i).pipe ∧ f.writable = (file i).writable) :
    SameEnds file (update file i f) where
  type j := by
    by_cases hj : j = i
    · subst hj
      rwa [update_self]
    · rw [update_of_ne hj]
  pipe j hj := by
    by_cases hji : j = i
    · subst hji
      rw [update_self, (hf hj).1]
    · rw [update_of_ne hji]
  writable j hj := by
    by_cases hji : j = i
    · subst hji
      rw [update_self, (hf hj).2]
    · rw [update_of_ne hji]

theorem pipeEnds (h : SameEnds file file') : pipeEnds file' = pipeEnds file := by
  ext i
  rw [mem_pipeEnds, mem_pipeEnds, h.type]

theorem pipePages (h : SameEnds file file') : pipePages file' = pipePages file := by
  rw [Kernel.pipePages, Kernel.pipePages, h.pipeEnds]
  exact congrArg _ (image_congr fun i hi => h.pipe i (mem_pipeEnds.1 hi))

theorem filesOk (h : SameEnds file file') (hf : FilesOk file pipe)
    (hu : ∀ i, (file' i).ref = 0 → (file' i).type = .none) : FilesOk file' pipe where
  unref := hu
  unique i hi j hj := by
    rw [h.pipeEnds] at hi hj
    rw [h.pipe i (mem_pipeEnds.1 hi), h.pipe j (mem_pipeEnds.1 hj),
      h.writable i (mem_pipeEnds.1 hi), h.writable j (mem_pipeEnds.1 hj)]
    exact hf.unique i hi j hj
  opened i hi := by
    rw [h.pipeEnds] at hi
    rw [h.pipe i (mem_pipeEnds.1 hi), h.writable i (mem_pipeEnds.1 hi)]
    exact hf.opened i hi
  ends i hi w hw := by
    rw [h.pipeEnds] at hi ⊢
    rw [h.pipe i (mem_pipeEnds.1 hi)] at hw ⊢
    obtain ⟨j, hj, hpipe, hwr⟩ := hf.ends i hi w hw
    exact ⟨j, hj, by rw [h.pipe j (mem_pipeEnds.1 hj), hpipe],
      by rw [h.writable j (mem_pipeEnds.1 hj), hwr]⟩

end SameEnds

theorem Inv.setFile (h : Inv im k) {f : File} (hs : SameEnds k.file (update k.file i f))
    (hu : f.ref = 0 → f.type = .none) : Inv im { k with file := update k.file i f } := by
  refine h.step_files ?_ (fun _ => .refl _) (hs.filesOk h.files fun j => ?_) rfl rfl
  · rw [hs.pipePages]
    exact .refl _ _
  · by_cases hj : j = i
    · subst hj
      rwa [update_self]
    · rw [update_of_ne hj]
      exact h.files.unref j

theorem filealloc_spec (h : Inv im k) :
    Ensures filealloc k (fun r k' => Inv im k' ∧ (r = none ∧ k' = k ∨ ∃ i, r = some i ∧
      (k.file i).ref = 0 ∧ k' = { k with file := update k.file i { k.file i with ref := 1 } })) := by
  rw [filealloc, bind_iff, get_iff]
  cases hfind : (List.finRange NFILE).find? fun i => decide ((k.file i).ref = 0) with
  | none => exact .pure ⟨h, .inl ⟨rfl, rfl⟩⟩
  | some i =>
    have href : (k.file i).ref = 0 := of_decide_eq_true (List.find?_some hfind :)
    simp only
    rw [bind_iff, setFile_iff, pure_iff]
    exact ⟨h.setFile (.update Iff.rfl fun _ => ⟨rfl, rfl⟩) nofun, .inr ⟨i, rfl, href, rfl⟩⟩

theorem filedup_keeps (h : Inv im k) (i : Fin NFILE) : Keeps im (filedup i) k := by
  rw [Keeps, filedup, bind_iff, get_iff]
  split_ifs with href
  · exact .throw trivial
  · rw [setFile_iff]
    exact h.setFile (.update Iff.rfl fun _ => ⟨rfl, rfl⟩) (by simp)

/-! ## Closing an end of a pipe

As long as the other end is open, the page of the pipe stays. -/

theorem pipeEnds_close {f : File} (hf : f.type ≠ .pipe) :
    pipeEnds (update file i f) = (pipeEnds file).erase i := by
  ext j
  rw [mem_erase, mem_pipeEnds, mem_pipeEnds]
  by_cases hj : j = i
  · subst hj
    simp [hf]
  · simp [hj]

theorem isOpen_update_shut {j : Fin NFILE} {w : Bool}
    (hw : (file j).pipe = (file i).pipe → w ≠ (file i).writable) :
    (update pipe (file i).pipe ((pipe (file i).pipe).shut (file i).writable)
      (file j).pipe).isOpen w = (pipe (file j).pipe).isOpen w := by
  by_cases hp : (file j).pipe = (file i).pipe
  · rw [hp, update_self, Pipe.isOpen_shut_of_ne _ (hw hp)]
  · rw [update_of_ne hp]

section Close

variable {f : File} (h : FilesOk file pipe) (hi : i ∈ pipeEnds file)
include h hi

theorem FilesOk.close (hf : f.type = .none) :
    FilesOk (update file i f)
      (update pipe (file i).pipe ((pipe (file i).pipe).shut (file i).writable)) := by
  have hends : pipeEnds (update file i f) = (pipeEnds file).erase i :=
    pipeEnds_close (by simp [hf])
  have hfile : ∀ j ∈ (pipeEnds file).erase i, update file i f j = file j := fun j hj =>
    update_of_ne (ne_of_mem_erase hj) _ _
  refine ⟨fun j => ?_, fun j hj l hl => ?_, fun j hj => ?_, fun j hj w hw => ?_⟩
  · by_cases hj : j = i
    · subst hj
      rw [update_self]
      exact fun _ => hf
    · rw [update_of_ne hj]
      exact h.unref j
  · rw [hends] at hj hl
    rw [hfile j hj, hfile l hl]
    exact h.unique j (mem_of_mem_erase hj) l (mem_of_mem_erase hl)
  · rw [hends] at hj
    rw [hfile j hj, isOpen_update_shut fun hp hw => ?_]
    · exact h.opened j (mem_of_mem_erase hj)
    · exact ne_of_mem_erase hj (h.unique j (mem_of_mem_erase hj) i hi hp hw)
  · rw [hends] at hj ⊢
    rw [hfile j hj] at hw ⊢
    have hne : (file j).pipe = (file i).pipe → w ≠ (file i).writable := fun hp he => by
      rw [hp, update_self, he, Pipe.isOpen_shut_self] at hw
      exact Bool.false_ne_true hw
    rw [isOpen_update_shut hne] at hw
    obtain ⟨l, hl, hp, hwr⟩ := h.ends j (mem_of_mem_erase hj) w hw
    have hli : l ≠ i := fun hl => by
      subst hl
      exact hne hp.symm hwr.symm
    have hl' : l ∈ (pipeEnds file).erase i := mem_erase.2 ⟨hli, hl⟩
    exact ⟨l, hl', by rw [hfile l hl', hp], by rw [hfile l hl', hwr]⟩

/-- The pages of the pipes, after an end is closed. -/
theorem FilesOk.pipePages_close (hf : f.type = .none) :
    pipePages file = pipePages (update file i f) +
      if ((pipe (file i).pipe).shut (file i).writable).isOpen (!(file i).writable) = true then 0
      else {(file i).pipe} := by
  have hends : pipeEnds (update file i f) = (pipeEnds file).erase i :=
    pipeEnds_close (by simp [hf])
  have himage : (pipeEnds (update file i f)).image (fun j => (update file i f j).pipe) =
      ((pipeEnds file).erase i).image fun j => (file j).pipe := by
    rw [hends]
    exact image_congr fun j hj => by
      simp only [update_of_ne (ne_of_mem_erase (mem_coe.1 hj))]
  have hins : (pipeEnds file).image (fun j => (file j).pipe) =
      insert (file i).pipe (((pipeEnds file).erase i).image fun j => (file j).pipe) := by
    conv_lhs => rw [← insert_erase hi, image_insert]
  rw [pipePages, pipePages, himage, hins,
    Pipe.isOpen_shut_of_ne _ (Bool.not_ne_self (file i).writable)]
  split_ifs with ho
  · obtain ⟨j, hj, hp, hw⟩ := h.ends i hi _ ho
    have hji : j ≠ i := fun hji => by
      rw [hji] at hw
      exact Bool.not_ne_self (file i).writable hw.symm
    rw [add_zero, insert_eq_of_mem]
    exact mem_image.2 ⟨j, mem_erase.2 ⟨hji, hj⟩, hp⟩
  · rw [insert_val_of_notMem, ← Multiset.singleton_add, add_comm]
    intro hm
    obtain ⟨j, hj, hp⟩ := mem_image.1 hm
    have hj' := mem_of_mem_erase hj
    have hopen := h.opened j hj'
    rw [hp] at hopen
    -- it is not the same end, and the other end is closed
    by_cases hw : (file j).writable = (file i).writable
    · exact ne_of_mem_erase hj (h.unique j hj' i hi hp hw)
    · rw [Bool.eq_not_of_ne hw] at hopen
      exact ho hopen

end Close

theorem pipeclose_iff {pi : ℕ} {w : Bool} {Q : Unit → Kernel → Prop} {E : Panic → Prop} :
    Ensures (pipeclose im pi w) k Q E ↔
      if ((k.pipe pi).shut w).isOpen (!w) = true then
        Q () { k with
          pipe := update k.pipe pi ((k.pipe pi).shut w), trace := k.trace ++ [.pipeclose pi w] }
      else Ensures (onPhys (kfree im pi))
        { k with
          pipe := update k.pipe pi ((k.pipe pi).shut w)
          trace := k.trace ++ [.pipeclose pi w] ++ [.pipefree pi] } Q E := by
  unfold pipeclose
  cases w <;> simp only [Bool.false_eq_true, if_false, if_true]
  all_goals
    rw [bind_iff, setPipe_iff, bind_iff, record_iff, bind_iff, get_iff]
    simp only [update_self, Pipe.shut, Pipe.isOpen]
    split_ifs <;> simp_all [bind_iff, record_iff]

/-- **`fileclose` frees the page of a pipe with its last end.** -/
theorem fileclose_keeps (h : Inv im k) (i : Fin NFILE) : Keeps im (fileclose im i) k := by
  rw [Keeps, fileclose, bind_iff, get_iff]
  simp only
  by_cases href : (k.file i).ref < 1
  · rw [if_pos href, bind_iff]
    exact .throw trivial
  rw [if_neg href]
  split_ifs with hmany hpipe hinode
  · rw [setFile_iff]
    refine h.setFile (.update Iff.rfl fun _ => ⟨rfl, rfl⟩) fun h0 => ?_
    simp only at h0
    omega
  · rw [bind_iff, setFile_iff, pipeclose_iff]
    set f : File := { k.file i with ref := 0, type := .none }
    have hi : i ∈ pipeEnds k.file := mem_pipeEnds.2 hpipe
    have hok := h.files.close hi (f := f) rfl
    have hpages := h.files.pipePages_close hi (f := f) rfl
    simp only at hpages ⊢
    split_ifs with hopen
    · rw [if_pos hopen, add_zero] at hpages
      exact h.step_files (by rw [hpages]; exact .refl _ _) (fun _ => .refl _) hok rfl rfl
    · rw [if_neg hopen] at hpages
      have hmem : (k.file i).pipe ∈ k.held := by
        rw [held, hpages]
        simp
      have hfree : (k.file i).pipe ∉ k.phys.freelist := fun hf =>
        Multiset.disjoint_left.1 (Multiset.nodup_add.1 h.nodup).2.2 hf hmem
      have hpool : InPool im (k.file i).pipe := h.pool _ (Multiset.mem_add.2 (.inr hmem))
      rw [onPhys_iff, ok_iff (kfree_run_given hpool k.phys)]
      refine h.step_files ?_ (fun _ => .refl _) hok rfl rfl
      rw [hpages]
      have hm := (moved_given hfree).add_rest (pipePages (update k.file i f))
      rwa [zero_add, add_comm] at hm
  · rw [bind_iff, setFile_iff]
    exact record_keeps (h.setFile (.update (by simp [hpipe]) fun ht => absurd ht hpipe) fun _ => rfl) _
  · rw [bind_iff, setFile_iff, pure_iff]
    exact h.setFile (.update (by simp [hpipe]) fun ht => absurd ht hpipe) fun _ => rfl

/-! ## Opening a pipe -/

/-- The files `f0` and `f1` have become the ends of a pipe at page `pi`. -/
structure Joined (file file' : Fin NFILE → File) (f0 f1 : Fin NFILE) (pi : ℕ) : Prop where
  ne : f0 ≠ f1
  reader : (file' f0).type = .pipe ∧ (file' f0).writable = false ∧ (file' f0).pipe = pi
  writer : (file' f1).type = .pipe ∧ (file' f1).writable = true ∧ (file' f1).pipe = pi
  ref : (file' f0).ref ≠ 0 ∧ (file' f1).ref ≠ 0
  other : ∀ j, j ≠ f0 → j ≠ f1 → file' j = file j
  closed : (file f0).type = .none ∧ (file f1).type = .none
  fresh : pi ∉ pipePages file

namespace Joined

variable {f0 f1 j : Fin NFILE} {pi : ℕ} (h : Joined file file' f0 f1 pi)
include h

theorem old (hj : j ∈ pipeEnds file) : file' j = file j ∧ (file j).pipe ≠ pi := by
  refine ⟨h.other j (fun hj0 => ?_) fun hj1 => ?_, fun hp => h.fresh ?_⟩
  · rw [mem_pipeEnds, hj0, h.closed.1] at hj
    exact absurd hj (by decide)
  · rw [mem_pipeEnds, hj1, h.closed.2] at hj
    exact absurd hj (by decide)
  · exact mem_image.2 ⟨j, hj, hp⟩

theorem pipeEnds_eq : pipeEnds file' = insert f0 (insert f1 (pipeEnds file)) := by
  ext j
  rw [mem_insert, mem_insert, mem_pipeEnds]
  by_cases h0 : j = f0
  · simp [h0, h.reader.1]
  · by_cases h1 : j = f1
    · simp [h1, h.writer.1]
    · simp [h0, h1, h.other j h0 h1, mem_pipeEnds]

theorem mem_ends (hj : j ∈ pipeEnds file') : (j = f0 ∨ j = f1) ∨ j ∈ pipeEnds file := by
  rw [h.pipeEnds_eq, mem_insert, mem_insert] at hj
  tauto

theorem pipe_eq (hj : j = f0 ∨ j = f1) : (file' j).pipe = pi := by
  obtain rfl | rfl := hj
  · exact h.reader.2.2
  · exact h.writer.2.2

theorem pipePages_eq : pipePages file' = pipePages file + {pi} := by
  have himage : (pipeEnds file').image (fun j => (file' j).pipe) =
      insert pi ((pipeEnds file).image fun j => (file j).pipe) := by
    rw [h.pipeEnds_eq, image_insert, image_insert, h.reader.2.2, h.writer.2.2, insert_idem]
    exact congrArg _ (image_congr fun j hj => by simp only [(h.old hj).1])
  rw [pipePages, himage, insert_val_of_notMem h.fresh, ← Multiset.singleton_add, add_comm]
  rfl

theorem filesOk (hf : FilesOk file pipe) : FilesOk file' (update pipe pi ⟨true, true⟩) where
  unref j hj := by
    by_cases h0 : j = f0
    · exact absurd (h0 ▸ hj) h.ref.1
    · by_cases h1 : j = f1
      · exact absurd (h1 ▸ hj) h.ref.2
      · rw [h.other j h0 h1] at hj ⊢
        exact hf.unref j hj
  unique j hj l hl hp hw := by
    obtain hj | hj := h.mem_ends hj <;> obtain hl | hl := h.mem_ends hl
    · obtain rfl | rfl := hj <;> obtain rfl | rfl := hl
      · rfl
      · rw [h.reader.2.1, h.writer.2.1] at hw
        exact absurd hw (by decide)
      · rw [h.reader.2.1, h.writer.2.1] at hw
        exact absurd hw (by decide)
      · rfl
    · rw [h.pipe_eq hj, (h.old hl).1] at hp
      exact absurd hp.symm (h.old hl).2
    · rw [h.pipe_eq hl, (h.old hj).1] at hp
      exact absurd hp (h.old hj).2
    · rw [(h.old hj).1, (h.old hl).1] at hp hw
      exact hf.unique j hj l hl hp hw
  opened j hj := by
    obtain hj | hj := h.mem_ends hj
    · rw [h.pipe_eq hj, update_self]
      cases (file' j).writable <;> rfl
    · rw [(h.old hj).1, update_of_ne (h.old hj).2]
      exact hf.opened j hj
  ends j hj w hw := by
    obtain hj | hj := h.mem_ends hj
    · rw [h.pipe_eq hj, h.pipeEnds_eq]
      cases w with
      | false => exact ⟨f0, by simp, h.reader.2.2, h.reader.2.1⟩
      | true => exact ⟨f1, by simp, h.writer.2.2, h.writer.2.1⟩
    · rw [(h.old hj).1, update_of_ne (h.old hj).2] at hw
      obtain ⟨l, hl, hlp, hlw⟩ := hf.ends j hj w hw
      refine ⟨l, by simp [h.pipeEnds_eq, hl], ?_, ?_⟩
      · rw [(h.old hl).1, (h.old hj).1, hlp]
      · rw [(h.old hl).1, hlw]

end Joined

theorem Inv.fresh_page (h : Inv im k) {pi : ℕ} {fl : List ℕ} (hfl : k.phys.freelist = pi :: fl) :
    pi ∉ pipePages k.file := fun hpi =>
  Multiset.disjoint_left.1 (Multiset.nodup_add.1 h.nodup).2.2
    (show pi ∈ (k.phys.freelist : Multiset ℕ) by simp [hfl]) (by rw [held]; simp [hpi])

/-- **`pipealloc` takes a page for the two ends of a pipe, or nothing.** -/
theorem pipealloc_keeps (h : Inv im k) : Keeps im (pipealloc im) k := by
  rw [Keeps, pipealloc]
  refine ((filealloc_spec h).total).bind fun r k1 hr => ?_
  obtain ⟨h₁, ⟨rfl, rfl⟩ | ⟨f0, rfl, href0, hk1⟩⟩ := hr
  · exact .pure h
  simp only
  refine ((filealloc_spec h₁).total).bind fun r k2 hr => ?_
  obtain ⟨h2, ⟨rfl, rfl⟩ | ⟨f1, rfl, href1, hk2⟩⟩ := hr
  · exact (fileclose_keeps h₁ f0).bind fun _ _ h' => .pure h' _
  simp only
  have hfile0 : k1.file f0 = { k.file f0 with ref := 1 } := by
    rw [hk1]
    exact update_self _ _ _
  have hne : f0 ≠ f1 := fun he => by
    rw [← he, hfile0] at href1
    exact one_ne_zero href1
  have hclosed : (k2.file f0).type = .none ∧ (k2.file f1).type = .none := by
    rw [hk2]
    simp only [update_self, update_of_ne hne, hfile0]
    exact ⟨h.files.unref f0 href0, h₁.files.unref f1 href1⟩
  have href : (k2.file f0).ref = 1 ∧ (k2.file f1).ref = 1 := by
    rw [hk2]
    simp only [update_self, update_of_ne hne, hfile0, and_self]
  rw [bind_iff, onPhys_iff]
  cases hfl : k2.phys.freelist with
  | nil =>
    rw [ok_iff (kalloc_run_nil hfl)]
    exact (fileclose_keeps h2 f0).bind fun _ _ h' => (fileclose_keeps h' f1).bind fun _ _ h'' =>
      .pure h'' _
  | cons pi fl =>
    rw [ok_iff (kalloc_run_taken hfl)]
    simp only
    rw [bind_iff, record_iff, bind_iff, setPipe_iff, bind_iff, setFile_iff,
      bind_iff, setFile_iff, pure_iff]
    have hfresh : pi ∉ pipePages k2.file := h2.fresh_page hfl
    have hj : Joined k2.file
        (update (update k2.file f0 ⟨1, .pipe, true, false, pi, (k2.file f0).ip⟩) f1
          ⟨1, .pipe, false, true, pi, (k2.file f1).ip⟩)
        f0 f1 pi :=
      ⟨hne, by simp [update_of_ne hne], by simp, by simp [update_of_ne hne],
        fun j h0 h1 => by rw [update_of_ne h1, update_of_ne h0], hclosed, hfresh⟩
    simp only [update_of_ne hne.symm, href.1, href.2]
    refine h2.step_files ?_ (fun _ => .refl _) (hj.filesOk h2.files) rfl rfl
    rw [hj.pipePages_eq]
    have hm := (moved_taken h2.nodup_free hfl (.fill PGSIZE 5)).add_rest (pipePages k2.file)
    rwa [zero_add, add_comm] at hm

/-! ## Descriptors -/

theorem fdalloc_spec (h : Inv im k) (p : Slot) (f : Fin NFILE) :
    Ensures (fdalloc p f) k (fun _ k' => Inv im k' ∧ k'.file = k.file) := by
  rw [fdalloc, bind_iff, get_iff]
  simp only
  split
  · exact .pure ⟨h, rfl⟩
  · rw [bind_iff, setProc_iff, pure_iff]
    exact ⟨h.setProc ⟨rfl, rfl, rfl, rfl, id⟩, rfl⟩

theorem fdalloc_keeps (h : Inv im k) (p : Slot) (f : Fin NFILE) : Keeps im (fdalloc p f) k :=
  .of_ensures (fdalloc_spec h p f) fun _ _ hr => hr.1

theorem argfd_spec (p : Slot) (fd : ℤ) :
    Ensures (argfd p fd) k (fun _ k' => k' = k) := by
  rw [argfd, bind_iff, get_iff]
  simp only
  split_ifs
  · split <;> exact .pure rfl
  · exact .pure rfl
  · exact .pure rfl

theorem argfd_keeps (h : Inv im k) (p : Slot) (fd : ℤ) : Keeps im (argfd p fd) k :=
  .of_ensures (argfd_spec p fd) fun _ _ he => he ▸ h

theorem sysDup_keeps (h : Inv im k) (p : Slot) (fd : ℤ) : Keeps im (sysDup p fd) k := by
  rw [sysDup]
  refine (argfd_keeps h p fd).bind fun r k1 h1 => ?_
  split
  · exact .pure h1 _
  · refine (fdalloc_keeps h1 p _).bind fun r k2 h2 => ?_
    split
    · exact .pure h2 _
    · exact (filedup_keeps h2 _).bind fun _ _ h3 => .pure h3 _

theorem sysClose_keeps (h : Inv im k) (p : Slot) (fd : ℤ) : Keeps im (sysClose im p fd) k := by
  rw [sysClose]
  refine (argfd_keeps h p fd).bind fun r k1 h1 => ?_
  split
  · exact .pure h1 _
  · refine Keeps.bind (setProc_keeps h1 ⟨rfl, rfl, rfl, rfl, id⟩) fun _ k2 h2 => ?_
    exact (fileclose_keeps h2 _).bind fun _ _ h3 => .pure h3 _

theorem sysOpen_keeps (h : Inv im k) (p : Slot) (ip : ℕ) {ty : FileType} (hty : ty ≠ .pipe)
    (r w : Bool) : Keeps im (sysOpen im p ip ty r w) k := by
  rw [sysOpen]
  refine (record_keeps h _).bind fun _ k0 h₀ => ?_
  refine ((filealloc_spec h₀).total).bind fun o k1 hr => ?_
  obtain ⟨h1, ⟨rfl, rfl⟩ | ⟨f, rfl, href, hk1⟩⟩ := hr
  · exact (record_keeps h1 _).bind fun _ _ h2 => .pure h2 _
  have hnone : (k1.file f).type = .none := by
    rw [hk1]
    simp only [update_self]
    exact h₀.files.unref f href
  simp only
  refine ((fdalloc_spec h1 p f).total).bind fun o k2 hr => ?_
  obtain ⟨h2, hfile⟩ := hr
  cases o with
  | none =>
    exact (fileclose_keeps h2 f).bind fun _ _ h3 => (record_keeps h3 _).bind fun _ _ h4 => .pure h4 _
  | some fd =>
    simp only
    rw [bind_iff, setFile_iff, pure_iff]
    have href' : (k2.file f).ref = 1 := by
      rw [hfile, hk1]
      simp only [update_self]
    refine h2.setFile (.update ?_ fun ht => ?_) fun h0 => ?_
    · simp [hty, hfile, hnone]
    · rw [hfile, hnone] at ht
      exact absurd ht (by decide)
    · rw [href'] at h0
      exact absurd h0 one_ne_zero

end Kernel

end Xv6
