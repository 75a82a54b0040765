import Xv6.Proc.Image

/-!
# Proc/Args — `exec` pushes the arguments

The strings are pushed from the top of the stack page down, each rounded to 16 bytes, and below them
the array of pointers: `stackNeed` bytes, which fit into the page or make `exec` fail.
-/

namespace Xv6

open Machinery Function Ensures List Bytes

/-! ## Where things go -/

/-- `n`, rounded up to the alignment of the stack pointer. -/
def align16 (n : ℕ) : ℕ := (n + 15) / 16 * 16

def argSize : List (List Byte) → ℕ
  | [] => 0
  | s :: ss => align16 s.length + argSize ss

/-- The addresses of strings pushed from `sp` down. -/
def argPtrs : ℕ → List (List Byte) → List ℕ
  | _, [] => []
  | sp, s :: ss => (sp - align16 s.length) :: argPtrs (sp - align16 s.length) ss

/-- The stack that strings and the array of pointers to them take. -/
def stackNeed (ss : List (List Byte)) : ℕ := argSize ss + align16 ((ss.length + 1) * 8)

@[simp] theorem length_argPtrs (sp : ℕ) (ss : List (List Byte)) : (argPtrs sp ss).length = ss.length := by
  induction ss generalizing sp with
  | nil => rfl
  | cons s ss ih => rw [argPtrs, length_cons, length_cons, ih]

variable {sp sp' base : ℕ} {argv : List ℕ}

/-- `sp -= n; sp -= sp % 16`, without a wrap. -/
theorem align_sub {n : ℕ} (hal : sp % 16 = 0) (hn : n ≤ sp) (hsp : sp < 2 ^ 64) :
    sub64 sp n - sub64 sp n % 16 + align16 n = sp := by
  unfold align16 sub64
  omega

theorem le_align16 (n : ℕ) : n ≤ align16 n := by
  unfold align16
  omega

theorem mem_zip_argPtrs {ss : List (List Byte)} (h : sp' + argSize ss = sp)
    {q : ℕ × List Byte} (hq : q ∈ (argPtrs sp ss).zip ss) : sp' ≤ q.1 ∧ q.1 + q.2.length ≤ sp := by
  induction ss generalizing sp with
  | nil => exact absurd hq not_mem_nil
  | cons s ss ih =>
    rw [argSize] at h
    have hle := le_align16 s.length
    rw [argPtrs, zip_cons_cons, mem_cons] at hq
    rcases hq with rfl | hq
    · simp only
      omega
    · have := ih (by omega) hq
      omega

theorem pairwise_argPtrs {len : ℕ} (ss : List (List Byte)) (h : sp' + len + argSize ss ≤ sp) :
    (((argPtrs sp ss).zip (ss.map List.length)) ++ [(sp', len)]).Pairwise fun a b => b.1 + b.2 ≤ a.1 := by
  -- all of it lies below `sp`
  have hbelow : ∀ {sp : ℕ} (ss : List (List Byte)), sp' + len + argSize ss ≤ sp →
      ∀ b ∈ (argPtrs sp ss).zip (ss.map List.length) ++ [(sp', len)], b.1 + b.2 ≤ sp := by
    intro sp ss
    induction ss generalizing sp with
    | nil =>
      intro h b hb
      obtain rfl := mem_singleton.1 hb
      exact h
    | cons s ss ih =>
      intro h b hb
      rw [argSize] at h
      have hle := le_align16 s.length
      rw [argPtrs, map_cons, zip_cons_cons, cons_append, mem_cons] at hb
      rcases hb with rfl | hb
      · simp only
        omega
      · exact (ih (by omega) b hb).trans (Nat.sub_le _ _)
  induction ss generalizing sp with
  | nil => exact pairwise_singleton _ _
  | cons s ss ih =>
    rw [argSize] at h
    rw [argPtrs, map_cons, zip_cons_cons, cons_append, pairwise_cons]
    exact ⟨fun b hb => hbelow ss (by omega) b hb, ih (by omega)⟩

/-! ## The stack page -/

variable {im : Image} {f : Reader} {root tf n c : ℕ} {σ σ' : Phys} {rest : Multiset ℕ}

/-- The page `c` is the stack page, above `n + 1` pages, and none of the tables. -/
structure StackAt (m : ℕ → Page) (root n c : ℕ) : Prop where
  page : ∀ y, y / PGSIZE = n + 1 → userPage m root y = some c
  own : c ∉ tabs m root

theorem StackAt.sameTable (h : StackAt σ.mem root n c) (b : Page) :
    SameTable root σ.mem (σ.put c b).mem :=
  sameTable_of_eq fun x hx => update_of_ne (fun hxc : x = c => h.own (hxc ▸ hx)) _ _

theorem StackAt.put (h : StackAt σ.mem root n c) (b : Page) : StackAt (σ.put c b).mem root n c where
  page y hy := by rw [userPage_congr (h.sameTable b), h.page y hy]
  own := by
    rw [(h.sameTable b).tabs]
    exact h.own

theorem copyout_page {dst : ℕ} {src : List Byte} (hc : userPage σ.mem root dst = some c)
    (hpos : src ≠ []) (hfit : dst % PGSIZE + src.length ≤ PGSIZE) :
    copyout root dst src σ = .ok (true, σ.put c ((σ.mem c).splice (dst % PGSIZE) src)) := by
  have hoff : dst - pgRoundDown dst = dst % PGSIZE := by
    unfold pgRoundDown PGSIZE
    omega
  cases src with
  | nil => exact absurd rfl hpos
  | cons b bs =>
    have hlen : min (PGSIZE - dst % PGSIZE) (b :: bs).length = (b :: bs).length := by omega
    rw [copyout]
    generalize hsrc : b :: bs = src at *
    obtain ⟨k, hk⟩ : ∃ k, src.length = k + 1 := ⟨bs.length, by rw [← hsrc, length_cons]⟩
    rw [hk, ← hsrc]
    unfold copyoutLoop
    rw [Exec.bind_ok (walkaddr_run _ _ _), userPage_pgRoundDown, hc]
    simp only
    rw [hsrc, hoff, hlen, take_length, drop_length, copyoutLoop_nil]
    rfl

theorem untilNul_ne_nil {l : List Byte} (h : l ≠ []) : (untilNul l).1 ≠ [] := by
  cases l with
  | nil => exact absurd rfl h
  | cons b l =>
    rw [untilNul]
    split_ifs <;> exact cons_ne_nil _ _

theorem cstr_ne_nil (b : Page) : cstr b ≠ [] := by
  refine untilNul_ne_nil (ne_nil_of_length_pos ?_)
  rw [length_slice]
  decide

theorem length_untilNul_le (l : List Byte) : (untilNul l).1.length ≤ l.length := by
  induction l with
  | nil => exact le_rfl
  | cons b l ih =>
    rw [untilNul]
    split_ifs
    · simp
    · simpa using ih

theorem length_cstr_le (b : Page) : (cstr b).length ≤ PGSIZE :=
  (length_untilNul_le _).trans (length_slice _ _ _).le

/-- The strings that the pages `argv` hold. -/
def strings (m : ℕ → Page) (argv : List ℕ) : List (List Byte) := argv.map fun a => cstr (m a)

theorem strings_put (hc : c ∉ argv) (b : Page) : strings (σ.put c b).mem argv = strings σ.mem argv :=
  map_congr_left fun a ha => by
    simp only [Phys.put, update_of_ne fun hac : a = c => hc (hac ▸ ha)]

/-- The strings `ss` have been pushed from `sp` down to `sp'` into a page at `base` that held `b`. -/
structure Pushed (base sp sp' : ℕ) (ss : List (List Byte)) (b b' : Page) : Prop where
  size : sp' + argSize ss = sp
  le : base ≤ sp'
  held : ∀ q ∈ (argPtrs sp ss).zip ss, b'.slice (q.1 - base) q.2.length = q.2
  other : ∀ j, j < sp' - base ∨ sp - base ≤ j → b'.byteAt j = b.byteAt j

theorem Pushed.cons {sp1 : ℕ} {s : List Byte} {ss : List (List Byte)} {b b' : Page}
    (hsp : sp1 + align16 s.length = sp) (hhi : sp ≤ base + PGSIZE) (hlo : base ≤ sp1)
    (h : Pushed base sp1 sp' ss (b.splice (sp1 - base) s) b') : Pushed base sp sp' (s :: ss) b b' := by
  have hle := le_align16 s.length
  have hptr : sp - align16 s.length = sp1 := by omega
  refine ⟨?_, h.le, fun q hq => ?_, fun j hj => ?_⟩
  · rw [argSize, ← hsp, ← h.size]
    omega
  · rw [argPtrs, zip_cons_cons, hptr] at hq
    rcases mem_cons.1 hq with rfl | hq
    · -- what is pushed later lies below
      have hkeep : b'.slice (sp1 - base) s.length = (b.splice (sp1 - base) s).slice (sp1 - base) s.length :=
        slice_congr fun i hi _ => h.other i (.inr hi)
      simp only
      rw [hkeep, slice_splice_same _ _ _ (by omega)]
    · exact h.held q hq
  · have hsize := h.size
    rw [h.other j (by omega), byteAt_splice_of_notMem _ _ _ (by omega)]

/-- **The loop of `exec` pushes all strings, or they do not fit.** -/
theorem pushArgs_spec (argv : List ℕ) {ustack : List ℕ} (h : StackAt σ.mem root n c)
    (htop : n + 2 ≤ USERTOP) (hal : sp % 16 = 0) (hlo : (n + 1) * PGSIZE ≤ sp) (hhi : sp ≤ (n + 2) * PGSIZE)
    (hus : ustack.length ≤ MAXARG) : Ensures (pushArgs sub64 root ((n + 1) * PGSIZE) argv sp ustack) σ
      (fun r σ' => ∃ b, σ' = σ.put c b ∧
        (∀ sp' us, r = some (sp', us) → sp' % 16 = 0 ∧ (n + 1) * PGSIZE ≤ sp' ∧ sp' ≤ sp ∧ us.length ≤ MAXARG) ∧
        (c ∉ argv → ustack.length + argv.length ≤ MAXARG →
          (r = none → sp < (n + 1) * PGSIZE + argSize (strings σ.mem argv)) ∧
          ∀ sp' us, r = some (sp', us) → us = ustack ++ argPtrs sp (strings σ.mem argv) ∧
            Pushed ((n + 1) * PGSIZE) sp sp' (strings σ.mem argv) (σ.mem c) b)) := by
  have hU := USERTOP_eq
  induction argv generalizing sp ustack σ with
  | nil =>
    rw [pushArgs, pure_iff]
    refine ⟨σ.mem c, by rw [Phys.put, update_eq_self], ?_, fun _ _ => ⟨by simp, ?_⟩⟩
    · rintro sp' us heq
      obtain ⟨rfl, rfl⟩ := by simpa using heq
      exact ⟨hal, hlo, le_rfl, hus⟩
    · rintro sp' us heq
      obtain ⟨rfl, rfl⟩ := by simpa using heq
      exact ⟨(append_nil _).symm, ⟨rfl, hlo, by simp [strings, argPtrs], fun _ _ => rfl⟩⟩
  | cons a argv ih =>
    have hbelow : sp < 2 ^ 64 := by
      unfold PGSIZE at hhi
      omega
    have hstr : strings σ.mem (a :: argv) = cstr (σ.mem a) :: strings σ.mem argv := rfl
    have hself : σ = σ.put c (σ.mem c) := by rw [Phys.put, update_eq_self]
    rw [pushArgs]
    split
    · rename_i hfull
      refine .pure ⟨_, hself, by simp, fun _ hle => ?_⟩
      rw [length_cons] at hle
      omega
    rw [get_bind_iff, hstr, argSize]
    generalize hs : cstr (σ.mem a) = s
    have hslen : s.length ≤ PGSIZE := hs ▸ length_cstr_le _
    have hsub := align_sub hal (show s.length ≤ sp by rw [add_mul] at hlo; omega) hbelow
    simp only
    generalize sub64 sp s.length - sub64 sp s.length % 16 = sp1 at hsub ⊢
    have hle := le_align16 s.length
    split
    · refine .pure ⟨_, hself, by simp, fun _ _ => ⟨fun _ => ?_, by simp⟩⟩
      omega
    · rename_i hfit
      have hpos : 0 < s.length := length_pos_iff.2 (hs ▸ cstr_ne_nil _)
      have hmod : sp1 % PGSIZE = sp1 - (n + 1) * PGSIZE := by
        unfold PGSIZE at *
        omega
      have hpage : sp1 / PGSIZE = n + 1 := by
        unfold PGSIZE at *
        omega
      have hroom : sp1 - (n + 1) * PGSIZE + s.length ≤ PGSIZE := by
        unfold PGSIZE at *
        omega
      rw [bind_iff, ok_iff (copyout_page (h.page sp1 hpage) (hs ▸ cstr_ne_nil _)
        (by rw [hmod]; exact hroom)), if_pos rfl, hmod]
      refine (ih (h.put _) (by unfold align16 at hsub; omega) (not_lt.1 hfit) (by omega)
        (by rw [length_append, length_singleton]; omega)).imp ?_
      rintro r σ' ⟨b, hσ', hsome, hrest⟩
      refine ⟨b, by rw [hσ', Phys.put_put], fun sp' us hr => ?_,
          fun hc hlen => ?_⟩
      · obtain ⟨h16, hle', hge, hlen⟩ := hsome sp' us hr
        exact ⟨h16, hle', by omega, hlen⟩
      · obtain ⟨-, hc'⟩ := not_or.1 (mt mem_cons.2 hc)
        have hself' : ∀ b', (σ.put c b').mem c = b' := fun b' => update_self _ _ _
        obtain ⟨hnone, hpushed⟩ := hrest hc' (by
          rw [length_append, length_singleton]
          rw [length_cons] at hlen
          omega)
        rw [strings_put hc'] at hnone hpushed
        refine ⟨fun hr => ?_, fun sp' us hr => ?_⟩
        · have := hnone hr
          omega
        · obtain ⟨hptrs, hp⟩ := hpushed sp' us hr
          rw [hself'] at hp
          refine ⟨?_, Pushed.cons hsub (hhi.trans (by ring_nf; rfl)) (not_lt.1 hfit) hp⟩
          rw [hptrs, argPtrs, append_assoc, singleton_append, show sp - align16 s.length = sp1 by omega]

/-! ## No wrap -/

section Exact

variable {sub : ℕ → ℕ → ℕ} (hsub : ∀ a b, b ≤ a → sub a b = a - b)
include hsub

theorem sub_eq_sub64 {a b : ℕ} (hle : b ≤ a) (ha : a < 2 ^ 64) : sub a b = sub64 a b := by
  rw [hsub a b hle, sub64]
  omega

/-- A string is no longer than a page, and `sp` is a page above 0 at least. -/
theorem pushArgs_exact (argv ustack : List ℕ) (hbase : PGSIZE ≤ base) (hlo : base ≤ sp) (hhi : sp < 2 ^ 64) :
    pushArgs sub root base argv sp ustack = pushArgs sub64 root base argv sp ustack := by
  induction argv generalizing sp ustack with
  | nil => rw [pushArgs, pushArgs]
  | cons a argv ih =>
    rw [pushArgs, pushArgs]
    refine ite_congr rfl (fun _ => rfl) fun _ => bind_congr fun σ => ?_
    have hle := length_cstr_le (σ.mem a)
    simp only
    rw [sub_eq_sub64 hsub (hle.trans (hbase.trans hlo)) hhi]
    have hlt : sub64 sp (cstr (σ.mem a)).length < 2 ^ 64 := by
      unfold sub64
      omega
    refine ite_congr rfl (fun _ => rfl) fun hfit => bind_congr fun ok => ?_
    rw [ih _ (not_lt.1 hfit) ((Nat.sub_le _ _).trans_lt hlt)]

/-- **The stack pointer does not wrap**: any subtraction that is exact where it can be does the same. -/
theorem pushStackBy_exact (h : StackAt σ.mem root n c) (htop : n + 2 ≤ USERTOP) (argv : List ℕ) :
    pushStackBy sub root ((n + 2) * PGSIZE) argv σ = pushStack root ((n + 2) * PGSIZE) argv σ := by
  have hU := USERTOP_eq
  have hbase : (n + 2) * PGSIZE - PGSIZE = (n + 1) * PGSIZE := by
    rw [add_mul, add_mul]
    omega
  have hhi : (n + 2) * PGSIZE < 2 ^ 64 := by
    unfold PGSIZE
    omega
  have hpage : PGSIZE ≤ (n + 1) * PGSIZE := Nat.le_mul_of_pos_left _ n.succ_pos
  have hlo : (n + 1) * PGSIZE ≤ (n + 2) * PGSIZE := Nat.mul_le_mul_right _ (Nat.le_succ _)
  obtain ⟨r, σ1, hrun, -, -, hsome, -⟩ := (pushArgs_spec argv h htop (by unfold PGSIZE; omega)
    hlo le_rfl (show ([] : List ℕ).length ≤ MAXARG from Nat.zero_le _)).exists_ok
  rw [pushStack, pushStackBy, pushStackBy]
  simp only
  rw [hbase, pushArgs_exact hsub _ _ hpage hlo hhi,
    Exec.bind_ok hrun, Exec.bind_ok hrun]
  cases r with
  | none => rfl
  | some q =>
    obtain ⟨-, hlo, hle, hus⟩ := hsome q.1 q.2 rfl
    have hfit : (q.2.length + 1) * 8 ≤ q.1 := by
      unfold MAXARG at hus
      unfold PGSIZE at hlo
      omega
    simp only [sub_eq_sub64 hsub hfit (hle.trans_lt hhi)]

end Exact

/-- The page `b` of the stack at `base` holds the strings `ss` and, at `sp`, the pointers to them. -/
structure HoldsArgs (base sp : ℕ) (ss : List (List Byte)) (b : Page) : Prop where
  size : sp + stackNeed ss = base + PGSIZE
  le : base ≤ sp
  strings : ∀ q ∈ (argPtrs (base + PGSIZE) ss).zip ss, b.slice (q.1 - base) q.2.length = q.2
  array : b.slice (sp - base) ((ss.length + 1) * 8) = leWords 8 (argPtrs (base + PGSIZE) ss ++ [0])

/-- **The arguments are pushed exactly if they fit**, and only the page of the stack is written. -/
theorem pushStack_spec (h : StackAt σ.mem root n c) (htop : n + 2 ≤ USERTOP) :
    Ensures (pushStack root ((n + 2) * PGSIZE) argv) σ
      (fun r σ' => ∃ b, σ' = σ.put c b ∧ (c ∉ argv → argv.length < MAXARG →
        (r = none ↔ ¬ stackNeed (strings σ.mem argv) ≤ PGSIZE) ∧
        ∀ sp argc, r = some (sp, argc) → argc = argv.length ∧
          HoldsArgs ((n + 1) * PGSIZE) sp (strings σ.mem argv) b)) := by
  have hU := USERTOP_eq
  have hbase : (n + 2) * PGSIZE - PGSIZE = (n + 1) * PGSIZE := by
    rw [add_mul, add_mul]
    omega
  have htop' : (n + 2) * PGSIZE = (n + 1) * PGSIZE + PGSIZE := by ring
  rw [pushStack, pushStackBy]
  simp only
  rw [hbase]
  refine (pushArgs_spec argv h htop (by unfold PGSIZE; omega) (by omega) le_rfl zero_le).bind
    fun r σ1 ⟨b, hσ1, hsome, hargs⟩ => ?_
  cases r with
  | none =>
    refine .pure ⟨b, hσ1, fun hc hlen => ⟨⟨fun _ => ?_, fun _ => rfl⟩, nofun⟩⟩
    have := (hargs hc (by rw [length_nil]; omega)).1 rfl
    rw [stackNeed]
    omega
  | some q =>
    obtain ⟨sp, us⟩ := q
    obtain ⟨hal, hlo, hhi, hus⟩ := hsome sp us rfl
    -- the array of pointers
    have hsub := align_sub hal (show (us.length + 1) * 8 ≤ sp by
      unfold MAXARG at hus
      unfold PGSIZE at hlo
      omega) (show sp < 2 ^ 64 by unfold PGSIZE at hhi; omega)
    simp only
    generalize sub64 sp ((us.length + 1) * 8) - sub64 sp ((us.length + 1) * 8) % 16 = sp1 at hsub ⊢
    have hle := le_align16 ((us.length + 1) * 8)
    -- what the caller sees of the strings
    have hstr : c ∉ argv → argv.length < MAXARG → us = argPtrs ((n + 2) * PGSIZE) (strings σ.mem argv) ∧
        us.length = argv.length ∧
        Pushed ((n + 1) * PGSIZE) ((n + 2) * PGSIZE) sp (strings σ.mem argv) (σ.mem c) b := fun hc hlen => by
      obtain ⟨hptrs, hp⟩ := (hargs hc (by rw [length_nil]; omega)).2 sp us rfl
      rw [nil_append] at hptrs
      exact ⟨hptrs, by rw [hptrs, length_argPtrs, strings, length_map], hp⟩
    have hneed : c ∉ argv → argv.length < MAXARG →
        sp1 + stackNeed (strings σ.mem argv) = (n + 2) * PGSIZE := fun hc hlen => by
      obtain ⟨-, hlen', hp⟩ := hstr hc hlen
      have := hp.size
      rw [stackNeed, strings, length_map, ← hlen', ← strings]
      omega
    split
    · rename_i hshort
      refine .pure ⟨b, hσ1, fun hc hlen => ⟨⟨fun _ => ?_, fun _ => rfl⟩, nofun⟩⟩
      have := hneed hc hlen
      omega
    · rename_i hfit
      have hwords : (leWords 8 (us ++ [0])).length = (us.length + 1) * 8 := by
        rw [length_leWords, length_append, length_singleton, mul_comm]
      have hmod : sp1 % PGSIZE = sp1 - (n + 1) * PGSIZE := by
        unfold PGSIZE at *
        omega
      have hpage : sp1 / PGSIZE = n + 1 := by
        unfold PGSIZE at *
        omega
      have hroom : sp1 - (n + 1) * PGSIZE + (us.length + 1) * 8 ≤ PGSIZE := by omega
      change Ensures (copyout root sp1 (leWords 8 (us ++ [0])) >>= _) _ _ _
      rw [hσ1, bind_iff, ok_iff (copyout_page ((h.put b).page sp1 hpage)
        (ne_nil_of_length_pos (by rw [hwords]; omega)) (by rw [hmod, hwords]; exact hroom)), if_pos rfl,
        hmod, Phys.put_put]
      refine .pure ⟨_, rfl, fun hc hlen => ⟨⟨nofun, fun hn => ?_⟩, ?_⟩⟩
      · have := hneed hc hlen
        omega
      · rintro sp' argc heq
        obtain ⟨rfl, rfl⟩ := by simpa using heq
        obtain ⟨hptrs, hlen', hp⟩ := hstr hc hlen
        have hself : (σ.put c b).mem c = b := update_self _ _ _
        refine ⟨hlen', ?_, not_lt.1 hfit, fun q hq => ?_, ?_⟩
        · rw [hneed hc hlen, htop']
        · rw [← htop'] at hq
          rw [hself, slice_splice_disjoint _ _ (.inr ?_), hp.held q hq]
          -- the array ends where the strings begin
          have := (mem_zip_argPtrs hp.size hq).1
          rw [hwords]
          omega
        · rw [hself, ← htop', ← hptrs]
          have hss : (strings σ.mem argv).length = us.length := by rw [strings, length_map, hlen']
          have := slice_splice_same b (sp1 - (n + 1) * PGSIZE) (leWords 8 (us ++ [0])) (by rw [hwords]; exact hroom)
          rwa [hwords, ← hss] at this

/-! ## `exec` up to its commit -/

/-- `exec` has built `l` in `σ'`, for the arguments `argv` and a trapframe at page `tf`. -/
structure Built (im : Image) (f : Reader) (tf : ℕ) (argv : List ℕ) (rest : Multiset ℕ) (σ : Phys) (l : Loaded)
    (σ' : Phys) : Prop where
  moved : Moved σ σ' 0 (owned σ'.mem USERTOP l.pagetable)
  entry : l.entry = (elfHdr f).entry
  headers : ReadsHeaders f ((elfHdr f).phoff % 2 ^ 32) (elfHdr f).phnum
  made : ∃ n c, l.sz = (n + 2) * PGSIZE ∧ Imaged im f σ'.mem l.pagetable tf n (loads (fileHeaders f)) ∧
    StackAt σ'.mem l.pagetable n c ∧ c ∈ mapped σ'.mem USERTOP l.pagetable ∧
    ((∀ a ∈ argv, a ∈ rest) → argv.length < MAXARG → l.argc = argv.length ∧
      stackNeed (strings σ.mem argv) ≤ PGSIZE ∧
      HoldsArgs ((n + 1) * PGSIZE) l.sp (strings σ.mem argv) (σ'.mem c))

theorem Built.space {l : Loaded} (h : Built im f tf argv rest σ l σ') :
    UserSpace im σ'.mem l.pagetable tf (npages l.sz) := by
  obtain ⟨n, c, hsz, hi, -⟩ := h.made
  rw [hsz, npages_mul]
  exact hi.space

theorem Prepared.stackAt {hs : List ProgHdr} (h : Prepared im f σ.mem root tf n hs)
    (hsp : Space im USERTOP root rest σ) :
    ∃ c e, StackAt σ.mem root n c ∧ leaf σ.mem root (n + 1) = some e ∧ pte2page e = c := by
  have hle := h.space.le
  obtain ⟨c, hpool, hl, -⟩ := h.stack
  have hc := pte2page_mkPte (userPerm_lt (x := PTE_W) (by decide)) hpool.lt
  refine ⟨c, _, ⟨fun y hy => userPage_mkPte (by decide) hpool (by omega) hl hy, hsp.notMem_tabs ?_⟩, hl, hc⟩
  have hm := pte2page_mem_mapped (show n + 1 < USERTOP by omega) hl
  rwa [hc] at hm

/-- **A failed `exec` has handed back every page it took; a successful one leaves an address space.** -/
theorem execLoad_spec (htf : tf < 2 ^ 52) (h : Stock im rest σ) : Ensures (execLoad im f tf argv) σ
      (fun r σ' => (r = none → Moved σ σ' 0 0 ∧ ((∀ a ∈ argv, a ∈ rest) → argv.length < MAXARG →
          (∃ q σ1, execImage im f tf σ = .ok (some q, σ1)) ∨ Loadable f ∧ loadPages f ≤ σ.freelist.length →
          ¬ stackNeed (strings σ.mem argv) ≤ PGSIZE)) ∧
        ∀ l, r = some l → Built im f tf argv rest σ l σ') := by
  rw [execLoad]
  obtain ⟨r, σ1, hrun, hnone, hsome⟩ := (execImage_spec (f := f) htf h).exists_ok
  rw [bind_iff, ok_iff hrun]
  cases r with
  | none =>
    obtain ⟨hm, hfew⟩ := hnone rfl
    refine .pure ⟨fun _ => ⟨hm, fun _ _ hcan => ?_⟩, nofun⟩
    rcases hcan with ⟨q, σ2, hq⟩ | ⟨hl, hle⟩
    · rw [hrun] at hq
      exact nomatch hq
    · exact absurd (hfew hl) (not_lt.2 hle)
  | some q =>
    obtain ⟨root, sz, entry⟩ := q
    obtain ⟨n, rfl, hm, hprep, hentry, hreads⟩ := hsome root sz entry rfl
    have hle := hprep.space.le
    have hsp : Space im USERTOP root rest σ1 := by
      rw [← zero_add rest] at h
      exact (h.of_moved hm).space hprep.space.proper
    obtain ⟨c, e, hst, hleaf, rfl⟩ := hprep.stackAt hsp
    have hcm := pte2page_mem_mapped (show n + 1 < USERTOP by omega) hleaf
    -- the argument pages are none of those that have been built
    have hstr : (∀ a ∈ argv, a ∈ rest) →
        pte2page e ∉ argv ∧ strings σ1.mem argv = strings σ.mem argv := fun hargs => by
      refine ⟨fun hc => hsp.notMem_owned (hargs _ hc) (Multiset.mem_add.2 (.inr hcm)),
        map_congr_left fun a ha => ?_⟩
      have hfree : a ∉ σ.freelist := fun hf =>
        Multiset.disjoint_left.1 (Multiset.nodup_add.1 h.nodup).2.2 hf (hargs a ha)
      simp only [hm.frame a hfree (Multiset.notMem_zero a)]
    rw [execArgs]
    refine (pushStack_spec hst hle).bind fun r σ2 ⟨b, hσ2, hargs⟩ => ?_
    subst hσ2
    have hsame := hst.sameTable b
    have hi : Imaged im f (σ1.put (pte2page e) b).mem root tf n (loads (fileHeaders f)) :=
      hprep.toImaged.congr hsame fun w hw e' he' => update_of_ne
        (ne_of_mapped_nodup hsp.nodup_mapped (by omega) (by omega) (by omega) he' hleaf) _ _
    have hk := (Stored.put hcm b).kept hsp
    cases r with
    | none =>
      refine (procFreepagetable_spec (hsp.of_kept hk) (by rw [npages_mul]; exact hi.space)).bind
        fun _ σ' hf => .pure ⟨fun _ => ⟨(hm.trans hk.toMoved).trans hf, fun hin hlen _ => ?_⟩, nofun⟩
      obtain ⟨hc, hs⟩ := hstr hin
      rw [← hs]
      exact ((hargs hc hlen).1.1 rfl)
    | some q =>
      obtain ⟨sp, argc⟩ := q
      refine .pure ⟨nofun, fun l hl => ?_⟩
      obtain rfl := Option.some.inj hl
      refine ⟨hm.trans hk.toMoved, hentry, hreads, n, pte2page e, rfl, hi, hst.put b, ?_, fun hin hlen => ?_⟩
      · have hmapped : mapped (σ1.put (pte2page e) b).mem USERTOP root = mapped σ1.mem USERTOP root :=
          mapped_congr fun w _ => hsame.leaf w
        rwa [hmapped]
      · obtain ⟨hc, hs⟩ := hstr hin
        obtain ⟨hiff, hheld⟩ := hargs hc hlen
        rw [hs] at hiff hheld
        obtain ⟨hargc, hheld⟩ := hheld sp argc rfl
        have hfits : stackNeed (strings σ.mem argv) ≤ PGSIZE := by
          by_contra hn
          exact nomatch hiff.2 hn
        have hself : (σ1.put (pte2page e) b).mem (pte2page e) = b := update_self _ _ _
        rw [hself]
        exact ⟨hargc, hfits, hheld⟩

end Xv6
