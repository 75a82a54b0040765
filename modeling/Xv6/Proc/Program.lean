import Xv6.Fs.Shared
import Xv6.Proc.Fetch
import Xv6.Proc.Wrap

/-!
# Proc/Program — the program that `exec` starts

What `Proc/Image` and `Proc/Args` say holds of the process that has committed to the new address
space: the arguments are where `main` looks for them, and the image is the file's, unless an offset
does not fit a `uint`.
-/

namespace Xv6

open Machinery Function Ensures List Fs

variable {im : Image} {f : Reader} {argv : List ℕ} {tf root old n c sp : ℕ} {m : ℕ → Page}

/-! ## The stack of a program -/

theorem HoldsStr.cstr {a : ℕ} {s : List Byte} (h : HoldsStr m a s) : cstr (m a) = s ++ [0] := by
  have hshort := h.short
  obtain ⟨j, hj⟩ : ∃ j, PGSIZE = s.length + 1 + j := ⟨PGSIZE - (s.length + 1), by omega⟩
  have hslice : (m a).slice 0 PGSIZE = s ++ 0 :: (m a).slice (0 + (s.length + 1)) j := by
    conv_lhs => rw [show (m a).slice 0 PGSIZE = (m a).slice 0 (s.length + 1 + j) from congrArg _ hj]
    rw [Bytes.slice_add, h.held, append_assoc, singleton_append]
  rw [Xv6.cstr, hslice, untilNul_append h.noNul]

theorem strings_eq {args : List (List Byte)} (h : List.Forall₂ (HoldsStr m) argv args) :
    strings m argv = args.map (· ++ [0]) := by
  induction h with
  | nil => rfl
  | cons hs _ ih => rw [strings, map_cons, map_cons, hs.cstr, ← strings, ih]

/-- `sp` points to the arguments `args` in the stack page above `n + 1` pages. -/
structure ArgStack (m : ℕ → Page) (root n sp : ℕ) (args : List (List Byte)) : Prop where
  aligned : sp % 16 = 0
  /-- In the page of the stack, above the page that the user cannot reach. -/
  page : (n + 1) * PGSIZE ≤ sp ∧ sp + (args.length + 1) * 8 ≤ (n + 2) * PGSIZE
  guard : ∀ y, y / PGSIZE = n → userPage m root y = none
  /-- At `sp` the pointers to copies of the arguments and a null pointer, all apart. -/
  pointers : ∃ ptrs : List ℕ, ptrs.length = args.length ∧
    Holds (userByte m root) sp (leWords 8 (ptrs ++ [0])) ∧
    (∀ q ∈ ptrs.zip args, (n + 1) * PGSIZE ≤ q.1 ∧ q.1 + (q.2.length + 1) ≤ (n + 2) * PGSIZE ∧
      Holds (userByte m root) q.1 (q.2 ++ [0])) ∧
    (ptrs.zip (args.map fun s => List.length s + 1) ++ [(sp, (args.length + 1) * 8)]).Pairwise
      fun (a b : ℕ × ℕ) => b.1 + b.2 ≤ a.1

theorem argSize_mod (ss : List (List Byte)) : argSize ss % 16 = 0 := by
  induction ss with
  | nil => rfl
  | cons s ss ih =>
    rw [argSize]
    unfold align16
    omega

theorem StackAt.holds (h : StackAt m root n c) {va len : ℕ} (hlo : (n + 1) * PGSIZE ≤ va)
    (hhi : va + len ≤ (n + 2) * PGSIZE) (hlen : 0 < len) :
    Holds (userByte m root) va ((m c).slice (va - (n + 1) * PGSIZE) len) := by
  have hpage : va / PGSIZE = n + 1 := by
    unfold PGSIZE at *
    omega
  have hmod : va % PGSIZE = va - (n + 1) * PGSIZE := by
    unfold PGSIZE at *
    omega
  rw [← hmod]
  refine holds_slice (h.page va hpage) ?_
  unfold PGSIZE at *
  omega

theorem HoldsArgs.argStack {args : List (List Byte)} (hst : StackAt m root n c)
    (hguard : ∀ y, y / PGSIZE = n → userPage m root y = none)
    (h : HoldsArgs ((n + 1) * PGSIZE) sp (args.map (· ++ [0])) (m c)) : ArgStack m root n sp args := by
  have htop : (n + 1) * PGSIZE + PGSIZE = (n + 2) * PGSIZE := by ring
  obtain ⟨hsize, hlo, hstrs, harray⟩ := h
  have hal := argSize_mod (args.map (· ++ [0]))
  have hle := le_align16 ((args.length + 1) * 8)
  rw [stackNeed, length_map, htop] at hsize
  rw [htop] at hstrs harray
  rw [length_map] at harray
  have hlens : (args.map (· ++ [0])).map List.length = args.map fun s => s.length + 1 := by
    rw [map_map]
    exact map_congr_left fun s _ => by simp
  refine ⟨?_, ⟨hlo, by omega⟩, hguard, argPtrs ((n + 2) * PGSIZE) (args.map (· ++ [0])), ?_, ?_, fun q hq => ?_, ?_⟩
  · unfold align16 at hsize
    unfold PGSIZE at hsize
    omega
  · rw [length_argPtrs, length_map]
  · rw [← harray]
    exact hst.holds hlo (by omega) (by omega)
  · have hq' : (q.1, q.2 ++ [0]) ∈ (argPtrs ((n + 2) * PGSIZE) (args.map (· ++ [0]))).zip
        (args.map (· ++ [0])) := by
      rw [zip_map_right]
      exact mem_map.2 ⟨q, hq, rfl⟩
    have hsub : (n + 2) * PGSIZE - argSize (args.map (· ++ [0])) + argSize (args.map (· ++ [0])) =
        (n + 2) * PGSIZE := by omega
    obtain ⟨h1, h2⟩ := mem_zip_argPtrs hsub hq'
    have hs := hstrs _ hq'
    simp only [length_append, length_singleton] at h1 h2 hs
    refine ⟨by omega, by omega, ?_⟩
    have hlo' : (n + 1) * PGSIZE ≤ q.1 := by omega
    have hhi' : q.1 + (q.2.length + 1) ≤ (n + 2) * PGSIZE := by omega
    have hh := hst.holds hlo' hhi' (by omega)
    rwa [hs] at hh
  · rw [← hlens]
    exact pairwise_argPtrs _ (by omega)

/-! ## Files -/

def Reader.file (c : List Byte) : Reader where
  read off n := if c.length < off ∨ 2 ^ 32 ≤ off + n then [] else (c.drop off).take n
  length_le off n := by
    split
    · exact Nat.zero_le n
    · rw [length_take]
      exact min_le_left _ _

theorem Reader.read_file (c : List Byte) (off n : ℕ) : (Reader.file c).read off n =
    if c.length < off ∨ 2 ^ 32 ≤ off + n then [] else (c.drop off).take n := rfl

/-- **`exec` sees of a file what `readi` returns.** -/
theorem readi_file {sb : Superblock} {s : Fs} {i off len : ℕ} (h : s.Locked sb i) (hoff : off < 2 ^ 32)
    (hlen : len < 2 ^ 32) : ∃ r, readi sb i (fun _ _ => false) off len s = .ok (r, s) ∧
      r.2 = (Reader.file (s.dataOf sb i)).read off len ∧ r.1 = r.2.length := by
  obtain ⟨r, hrun, hr⟩ := readi_pure h (fun _ _ => false) hoff hlen
  have hsize : (s.dataOf sb i).length = s.sizeOf sb i := length_dataOf
  refine ⟨r, hrun, ?_⟩
  rw [hr fun _ _ => rfl, Reader.read_file, hsize]
  split_ifs
  · exact ⟨rfl, rfl⟩
  · refine ⟨rfl, ?_⟩
    simp [hsize]

/-- A file of one byte. -/
theorem readi_file_tiny : readi .tiny 1 (fun _ _ => false) 0 4 oneByte = .ok ((1, [7]), oneByte) := by
  obtain ⟨r, hrun, hread, hlen⟩ := readi_file oneByte_locked (show 0 < 2 ^ 32 by decide) (show 4 < 2 ^ 32 by decide)
  rw [dataOf_oneByte] at hread
  rw [hrun, show r = (1, [7]) from Prod.ext (by rw [hlen, hread]; rfl) hread]

/-- A file with one program header, of a segment of 4 bytes at `off` that goes to address 0. -/
def elfFile (off : ℕ) : List Byte :=
  leBytes 4 ELF_MAGIC ++ List.replicate 28 0 ++ leBytes 8 ElfHdr.size ++ List.replicate 16 0 ++ leBytes 2 1 ++
    List.replicate 6 0 ++ leBytes 4 ELF_PROG_LOAD ++ leBytes 4 5 ++ leBytes 8 off ++ leBytes 8 0 ++ leBytes 8 0 ++
    leBytes 8 4 ++ leBytes 8 4 ++ leBytes 8 PGSIZE

def elfSegment (off : ℕ) : ProgHdr := ⟨ELF_PROG_LOAD, 5, off, 0, 4, 4⟩

namespace Kernel

variable {k k' : Kernel} {p : Slot}

/-! ## What `exec` leaves -/

/-- What a successful `exec` leaves. -/
structure Started (im : Image) (f : Reader) (argv : List ℕ) (p : Slot) (tf root n : ℕ) (k k' : Kernel)
    (r : ℤ) : Prop where
  inv : Inv im k'
  pagetable : (k'.proc p).pagetable = some root
  sz : (k'.proc p).sz = (n + 2) * PGSIZE
  imaged : Imaged im f k'.phys.mem root tf n (loads (fileHeaders f))
  headers : ReadsHeaders f ((elfHdr f).phoff % 2 ^ 32) (elfHdr f).phnum
  stack : ∃ c l, StackAt k'.phys.mem root n c ∧ k'.phys.mem tf = execRegs l (k.phys.mem tf) ∧
    ((∀ a ∈ argv, a ∈ k.held) → argv.length < MAXARG → r = argv.length ∧
      HoldsArgs ((n + 1) * PGSIZE) l.sp (strings k.phys.mem argv) (k'.phys.mem c))

/-- **`exec` starts the program, or lacks something.** -/
theorem exec_started (h : Inv im k) (htf : (k.proc p).trapframe = some tf)
    (hold : (k.proc p).pagetable = some old) (f : Reader) (argv : List ℕ) :
    Ensures (exec im p (some f) argv) k
      (fun r k' => (r = -1 → (∀ a ∈ argv, a ∈ k.held) → argv.length < MAXARG →
          (∃ q σ1, execImage im f tf k.phys = .ok (some q, σ1)) ∨
            Loadable f ∧ loadPages f ≤ k.phys.freelist.length →
          ¬ stackNeed (strings k.phys.mem argv) ≤ PGSIZE) ∧
        (r ≠ -1 → ∃ root n, Started im f argv p tf root n k k' r)) := by
  have hst := h.stock (zero_add k.held).symm
  rw [zero_add] at hst
  refine (exec_some h htf hold f argv).imp fun r k' ⟨o, σ1, hrun, hnone, hsome⟩ => ?_
  obtain ⟨hfail, hbuilt⟩ := (execLoad_spec (h.trapframe_lt htf) hst).of_ok hrun
  cases o with
  | none => exact ⟨fun _ => (hfail rfl).2, fun hr => absurd (hnone rfl).1 hr⟩
  | some l =>
    obtain ⟨hr, ⟨σ2, rfl, -, hsame, hcont, hregs⟩, hI⟩ := hsome l rfl
    obtain ⟨-, -, hreads, n, c, hsz, hi, hstack, hc, hargs⟩ := hbuilt l rfl
    refine ⟨fun hr' => ?_, fun _ => ⟨l.pagetable, n, hI, ?_, ?_, ?_, hreads, c, l, ?_, hregs, fun hin hlen => ?_⟩⟩
    · rw [hr] at hr'
      exact nomatch hr'
    · rw [become_proc_self]
    · rw [become_proc_self]
      exact hsz
    · have hle := hi.space.le
      exact hi.congr hsame fun w hw e he => hcont _ (Multiset.mem_add.2 (.inr
        (pte2page_mem_mapped (by omega) he)))
    · exact ⟨fun y hy => by rw [become_phys, userPage_congr hsame, hstack.page y hy],
        by rw [become_phys, hsame.tabs]; exact hstack.own⟩
    · obtain ⟨hargc, -, hholds⟩ := hargs hin hlen
      rw [become_phys, hcont c (Multiset.mem_add.2 (.inr hc))]
      exact ⟨by rw [hr, hargc], hholds⟩

/-! ## The arguments, as the program finds them -/

/-- **`exec` hands the arguments to the program, or they do not fit into the page of the stack**; the stack
pointer does not wrap, and no other page is written. -/
theorem exec_args (im : Image) (k : Kernel) (h : Inv im k) (p : Slot) (uargv : ℕ) (argv : List ℕ)
    (hframe : (k.proc p).frame = .exec uargv argv) (hlen : argv.length < MAXARG) (args : List (List Byte))
    (hargs : List.Forall₂ (HoldsStr k.phys.mem) argv args) (tf old : ℕ)
    (htf : (k.proc p).trapframe = some tf) (hold : (k.proc p).pagetable = some old) (f : Reader) :
    Ensures (exec im p (some f) argv) k
      (fun r k' =>
        (r ≠ -1 → r = args.length ∧ ∃ root n sp, (k'.proc p).pagetable = some root ∧
          (k'.proc p).sz = (n + 2) * PGSIZE ∧ (k'.phys.mem tf).getLE tfA1 8 = sp ∧
          (k'.phys.mem tf).getLE tfSp 8 = sp ∧ ArgStack k'.phys.mem root n sp args) ∧
        ∀ root sz entry σ₁, execImage im f tf k.phys = .ok (some (root, sz, entry), σ₁) →
          (r = -1 ↔ ¬ stackNeed (args.map (· ++ [0])) ≤ PGSIZE) ∧
          (∀ sub : ℕ → ℕ → ℕ, (∀ a b, b ≤ a → sub a b = a - b) →
            pushStackBy sub root sz argv σ₁ = pushStack root sz argv σ₁) ∧
          ∃ c, (∀ y, y / PGSIZE + 1 = sz / PGSIZE → userPage σ₁.mem root y = some c) ∧
            Ensures (pushStack root sz argv) σ₁ (fun _ σ₂ => ∀ x ≠ c, σ₂.mem x = σ₁.mem x)) := by
  have hin : ∀ a ∈ argv, a ∈ k.held := fun a ha => mem_held (p := p) (by
    rw [procPages, hframe]
    exact Multiset.mem_add.2 (.inr ha))
  have hstr := strings_eq hargs
  have hargc : argv.length = args.length := hargs.length_eq
  have hst := h.stock (zero_add k.held).symm
  rw [zero_add] at hst
  refine (exec_started h htf hold f argv).imp ?_
  rintro r k' ⟨hfail, hok⟩
  refine ⟨fun hr => ?_, fun root sz entry σ₁ himg => ?_⟩
  · obtain ⟨root, n, hs⟩ := hok hr
    obtain ⟨c, l, hstack, hregs, hheld⟩ := hs.stack
    obtain ⟨hr', hheld⟩ := hheld hin hlen
    rw [hstr] at hheld
    have hlt : l.sp < 256 ^ 8 := by
      have hle := hs.imaged.space.le
      have hsize := hheld.size
      rw [USERTOP_eq] at hle
      unfold PGSIZE at hsize
      omega
    refine ⟨hr'.trans (by rw [hargc]), root, n, l.sp, hs.pagetable, hs.sz, ?_, ?_,
      hheld.argStack hstack hs.imaged.guard⟩
    · rw [hregs, execRegs, Bytes.getLE_putLE_disjoint _ _ (by decide), Bytes.getLE_putLE_disjoint _ _ (by decide),
        Bytes.getLE_putLE_same _ _ (by decide), Nat.mod_eq_of_lt hlt]
    · rw [hregs, execRegs, Bytes.getLE_putLE_same _ _ (by decide), Nat.mod_eq_of_lt hlt]
  · obtain ⟨-, hsome⟩ := (execImage_spec (h.trapframe_lt htf) hst).of_ok himg
    obtain ⟨n, rfl, hm, hprep, -⟩ := hsome root sz entry rfl
    have hle := hprep.space.le
    have hU := USERTOP_eq
    have hsp : Space im USERTOP root k.held σ₁ := by
      rw [← zero_add k.held] at hst
      exact (hst.of_moved hm).space hprep.space.proper
    obtain ⟨c, e, hstack, -⟩ := hprep.stackAt hsp
    refine ⟨⟨fun hr => ?_, fun hnot => ?_⟩, fun sub hsub => pushStackBy_exact hsub hstack hle argv, c,
      fun y hy => hstack.page y ?_, ?_⟩
    · rw [← hstr]
      exact hfail hr hin hlen (.inl ⟨_, _, himg⟩)
    · by_contra hr
      obtain ⟨root', n', hs⟩ := hok hr
      obtain ⟨c', l, -, -, hheld⟩ := hs.stack
      have hsize := ((hheld hin hlen).2).size
      have hlo := ((hheld hin hlen).2).le
      rw [hstr] at hsize
      omega
    · rw [Nat.mul_div_cancel _ (by decide)] at hy
      omega
    · refine (pushStack_spec hstack hle).imp ?_
      rintro _ σ₂ ⟨b, hσ₂, _⟩ x hx
      rw [hσ₂]
      exact update_of_ne hx _ _

/-- `sys_exec` of the empty path comes to its loop. -/
theorem reachable_execBegin (hk : (bootable im).Reachable k) (hI : Inv im k) (hp : k.InUser p)
    (hr : (k.proc p).pagetable = some root) {path : ℕ} (hnul : userByte k.phys.mem root path = some 0) (uargv : ℕ) :
    (bootable im).Reachable { k with proc := update k.proc p { k.proc p with frame := .exec uargv [] } } ∧
      Inv im { k with proc := update k.proc p { k.proc p with frame := .exec uargv [] } } := by
  have hstr : Holds (userByte k.phys.mem root) path ([] ++ [0]) := fun i hi' => by
    obtain rfl : i = 0 := by simpa using hi'
    exact hnul
  have hbegin : Ensures (execBegin p path uargv) k
      (fun r k' => r = none ∧ k' = { k with
        proc := update k.proc p { k.proc p with frame := .exec uargv [] } }) := by
    rw [execBegin, get_bind_iff, bind_iff, deref_some_iff hr, bind_iff]
    refine onPhys_total (copyinstr_string not_mem_nil hstr (by decide)) ?_
    rintro r σ ⟨hr, hσ⟩
    rw [hr, if_pos rfl, bind_iff, setProc_iff, pure_iff, hσ]
    exact ⟨rfl, rfl⟩
  obtain ⟨r', k2, hrun, -, rfl⟩ := hbegin.exists_ok
  exact reachable_perform (.execBegin p path uargv) trivial hk hI hp trivial hrun

/-- The first process has a second page, with the pointers to the string `a` and 0, and the string, and
is in the loop of `sys_exec`. -/
theorem exists_execing : ∃ k tf root, (bootable roomyImage).Reachable k ∧ Inv roomyImage k ∧
    k.proc initSlot = { initRunning tf root with sz := 2 * PGSIZE, frame := .exec (PGSIZE + 8) [] } ∧
    800 ≤ k.phys.freelist.length ∧ Holds (userByte k.phys.mem root) (PGSIZE + 8)
      (leBytes 8 (PGSIZE + 24) ++ List.replicate 8 0 ++ ([97] ++ [0])) := by
  obtain ⟨k0, tf, root, hk, hi⟩ := exists_initRuns lenient_affords
  have hroom := hi.room
  obtain ⟨r, σ, -, hk, hI, hlen, hzero⟩ := sbrk_page (fun _ => trivial) hk hi.inv hi.inUser hi.pagetable
    hi.sz (by omega)
  set k := k0.become σ initSlot { k0.proc initSlot with sz := 2 * PGSIZE }
  have hproc : k.proc initSlot = { initRunning tf root with sz := 2 * PGSIZE } := by
    rw [become_proc_self, hi.proc_init]
  have hr : (k.proc initSlot).pagetable = some root := by rw [hproc]; rfl
  have huser : k.InUser initSlot := by
    rw [InUser, hproc]
    exact ⟨rfl, rfl⟩
  have hmap : ∀ i < (leBytes 8 (PGSIZE + 24) ++ List.replicate 8 0 ++ ([97] ++ [0])).length,
      userPage k.phys.mem root (PGSIZE + 8 + i) ≠ none := fun i hi hn => by
    have hlt : i < 18 := hi
    have hb := hzero (PGSIZE + 8 + i) (by unfold PGSIZE; omega)
    change userByte k.phys.mem root (PGSIZE + 8 + i) = some 0 at hb
    rw [userByte, hn] at hb
    cases hb
  obtain ⟨k1, hk1, hI1, hproc1, -, hfree1, hbyte1⟩ := exists_filled permits_affords hk hI huser hr
    hi.file (fun fd => by rw [hproc]; rfl) (by decide) hmap
  have hnul : userByte k1.phys.mem root PGSIZE = some 0 := by
    rw [hbyte1, overlay, if_neg (by omega)]
    exact hzero PGSIZE (by decide)
  rw [← hproc1] at hr hproc
  obtain ⟨hk2, hI2⟩ := reachable_execBegin hk1 hI1 (by rw [InUser, hproc1]; exact huser) hr hnul (PGSIZE + 8)
  refine ⟨_, tf, root, hk2, hI2, ?_, ?_, fun i hi => ?_⟩
  · simp only [update_self, hproc]
  · change 800 ≤ k1.phys.freelist.length
    rw [hfree1]
    change 800 ≤ σ.freelist.length
    omega
  · change userByte k1.phys.mem root _ = _
    rw [hbyte1, overlay, if_pos (by omega), Nat.add_sub_cancel_left]

/-- The argument is fetched. -/
theorem exists_fetched : ∃ k tf root uargv a, (bootable roomyImage).Reachable k ∧ Inv roomyImage k ∧
    (k.proc initSlot).frame = .exec uargv [a] ∧ (k.proc initSlot).trapframe = some tf ∧
    (k.proc initSlot).pagetable = some root ∧ 12 ≤ k.phys.freelist.length ∧ HoldsStr k.phys.mem a [97] := by
  obtain ⟨k, tf, root, hk, hI, hproc, hroom, hheld⟩ := exists_execing
  obtain ⟨hptrs, hstr⟩ := Holds.append.1 hheld
  obtain ⟨a, fl, hfl⟩ := exists_cons_of_length_pos (hroom.trans_lt' (by norm_num))
  have hframe : (k.proc initSlot).frame = .exec (PGSIZE + 8) [] := by rw [hproc]
  have hr : (k.proc initSlot).pagetable = some root := by rw [hproc]; rfl
  have hsz : (k.proc initSlot).sz = 2 * PGSIZE := by rw [hproc]
  obtain ⟨b, hrun, hstr⟩ := execStep_fetches hI hframe (by decide) hr hfl (by rw [hsz]; decide)
    (by rw [hsz]; decide) (Holds.append.1 hptrs).1 (by decide) (by decide) hstr (by decide) (by decide) none
  obtain ⟨hk', hI'⟩ := reachable_perform (.execStep initSlot none) trivial hk hI
    (show (k.proc initSlot).state = .running by rw [hproc]; rfl) trivial hrun
  refine ⟨_, tf, root, PGSIZE + 8, a, hk', hI', ?_, ?_, ?_, ?_, hstr⟩
  · rw [become_proc_self]
    rfl
  · rw [become_proc_self, hproc]
    rfl
  · rw [become_proc_self]
    exact hr
  · rw [hfl, length_cons] at hroom
    change 12 ≤ fl.length
    omega

/-! A program with one segment. -/

variable {off : ℕ}

section

variable (hoff : off = 0 ∨ off = 2 ^ 32)
include hoff

theorem headersAt_elfFile : headersAt (.file (elfFile off)) ElfHdr.size 1 = [elfSegment off] := by
  rcases hoff with rfl | rfl <;> decide +kernel

theorem elfHdr_elfFile :
    (elfHdr (.file (elfFile off))).phoff = ElfHdr.size ∧ (elfHdr (.file (elfFile off))).phnum = 1 ∧
      (elfHdr (.file (elfFile off))).magic = ELF_MAGIC := by
  rcases hoff with rfl | rfl <;> decide +kernel

theorem loadable_elfFile : Loadable (.file (elfFile off)) := by
  obtain ⟨hphoff, hphnum, hmagic⟩ := elfHdr_elfFile hoff
  refine ⟨by rcases hoff with rfl | rfl <;> decide +kernel, hmagic, ?_⟩
  rw [hphoff, hphnum]
  change LoadsWell _ ElfHdr.size 1
  rw [LoadsWell, headersAt_elfFile hoff]
  refine ⟨fun i hi => ?_, fun g hg => ?_⟩
  · obtain rfl : i = 0 := by omega
    rcases hoff with rfl | rfl <;> decide +kernel
  · obtain rfl : g = elfSegment off := by simpa [loads, elfSegment] using hg
    have htop : (elfSegment off).top = 4 := rfl
    refine ⟨⟨le_rfl, by rw [htop]; norm_num, Nat.zero_mod _, fun j hj => ?_⟩, by rw [htop]; norm_num⟩
    obtain rfl : j = 0 := by
      change j * PGSIZE < 4 at hj
      unfold PGSIZE at hj
      omega
    rcases hoff with rfl | rfl <;> decide +kernel

theorem loadPages_elfFile : loadPages (.file (elfFile off)) = 12 := by
  obtain ⟨hphoff, hphnum, -⟩ := elfHdr_elfFile hoff
  have hh : fileHeaders (.file (elfFile off)) = [elfSegment off] := by
    rw [← headersAt_elfFile hoff, fileHeaders, ← elfHdr, hphoff, hphnum]
    rfl
  rw [loadPages, hh]
  rcases hoff with rfl | rfl <;> rfl

theorem exec_elfFile (hI : Inv roomyImage k) {uargv : ℕ} {args : List (List Byte)}
    (hframe : (k.proc p).frame = .exec uargv argv) (htf : (k.proc p).trapframe = some tf)
    (hr : (k.proc p).pagetable = some root) (hlen : argv.length < MAXARG)
    (hargs : List.Forall₂ (HoldsStr k.phys.mem) argv args) (hfit : stackNeed (args.map (· ++ [0])) ≤ PGSIZE)
    (hroom : 12 ≤ k.phys.freelist.length) :
    ∃ k', exec roomyImage p (some (.file (elfFile off))) argv k = .ok ((argv.length : ℤ), k') := by
  have hin : ∀ a ∈ argv, a ∈ k.held := fun a ha => mem_held (p := p) (by
    rw [procPages, hframe]
    exact Multiset.mem_add.2 (.inr ha))
  obtain ⟨r, k', hrun, hfail, hok⟩ :=
    (exec_started hI htf hr (.file (elfFile off)) argv).exists_ok
  have hne : r ≠ -1 := fun hr' => hfail hr' hin hlen
    (.inr ⟨loadable_elfFile hoff, by rwa [loadPages_elfFile hoff]⟩) (by rwa [strings_eq hargs])
  obtain ⟨root', n, hs⟩ := hok hne
  obtain ⟨c, l, -, -, hheld⟩ := hs.stack
  obtain rfl := (hheld hin hlen).1
  exact ⟨k', hrun⟩

/-- **The first process starts it.** -/
theorem exists_starts : ∃ k k' tf root uargv,
    (bootable roomyImage).Reachable k ∧ Inv roomyImage k ∧ (k.proc initSlot).frame = .exec uargv [] ∧
    (k.proc initSlot).trapframe = some tf ∧ (k.proc initSlot).pagetable = some root ∧
    exec roomyImage initSlot (some (.file (elfFile off))) [] k = .ok (0, k') := by
  obtain ⟨k, tf, root, hk, hI, hproc, hroom, -⟩ := exists_execing
  have hframe : (k.proc initSlot).frame = .exec (PGSIZE + 8) [] := by rw [hproc]
  have htf : (k.proc initSlot).trapframe = some tf := by rw [hproc]; rfl
  have hr : (k.proc initSlot).pagetable = some root := by rw [hproc]; rfl
  obtain ⟨k', hrun⟩ := exec_elfFile hoff hI hframe htf hr (by decide) .nil (by decide) (by omega)
  exact ⟨k, k', tf, root, _, hk, hI, hframe, htf, hr, hrun⟩

end

/-- It has the argument that `sys_exec` has fetched, and finds it. -/
theorem exec_args_one : ∃ k k' uargv a root n sp, (bootable roomyImage).Reachable k ∧
    (k.proc initSlot).frame = .exec uargv [a] ∧ HoldsStr k.phys.mem a [97] ∧
    exec roomyImage initSlot (some (.file (elfFile 0))) [a] k = .ok (1, k') ∧
    (k'.proc initSlot).pagetable = some root ∧ ArgStack k'.phys.mem root n sp [[97]] := by
  obtain ⟨k, tf, old, uargv, a, hk, hI, hframe, htf, hold, hroom, hstr⟩ := exists_fetched
  have hargs : List.Forall₂ (HoldsStr k.phys.mem) [a] [[97]] := .cons hstr .nil
  have hlen : [a].length < MAXARG := show 1 < 32 by decide
  obtain ⟨k', hrun⟩ := exec_elfFile (.inl rfl) hI hframe htf hold hlen hargs (by decide) hroom
  obtain ⟨hok, -⟩ := (exec_args roomyImage k hI initSlot uargv [a] hframe hlen [[97]] hargs tf old htf hold
    (.file (elfFile 0))).of_ok hrun
  obtain ⟨-, root, n, sp, hr, -, -, -, hst⟩ := hok (show (1 : ℤ) ≠ -1 by decide)
  exact ⟨k, k', uargv, a, root, n, sp, hk, hframe, hstr, hrun, hr, hst⟩

end Kernel

end Xv6
