import Mathlib.Algebra.Order.BigOperators.Group.List
import Xv6.Machinery.Runs
import Xv6.User.UmallocCalls

/-!
# User/UmallocRun — programs that call `malloc` and `free`

`Kept` is the invariant: the list and the allocated blocks are apart, in the memory of the process,
and together all the units that `morecore` has obtained, whatever the program itself asks of `sbrk`.
-/

namespace Xv6.Umalloc

open Machinery Function List Option Heap

variable {base start nunits nbytes nu brk : ℕ} {memory : List Bool} {h h' : Heap} {c c' live live' : List ℕ}
  {a b p bp x : ℕ}

/-! ## The invariant -/

/-- **What every call keeps**, of the list and the allocated blocks. -/
structure Kept (base start : ℕ) (h : Heap) (c live : List ℕ) : Prop
    extends Resident base start h c, Shape base h c live where
  live_within : ∀ b ∈ live, start ≤ b ∧ h.fin b ≤ h.brk
  conserved : h.total c + h.total live = h.obtained
  obtained_lt : h.obtained < 2 ^ 32

theorem Heap.total_perm (hp : live.Perm live') : h.total live = h.total live' := (hp.map h.size).sum_eq

theorem Heap.size_le_total (ha : a ∈ c) : h.size a ≤ h.total c :=
  le_sum_of_mem (mem_map_of_mem ha)

theorem Heap.Apart.symm (hab : h.Apart a b) : h.Apart b a := Or.symm hab

theorem Kept.perm (hk : Kept base start h c live) (hp : live.Perm live') : Kept base start h c live' where
  toResident := hk.toResident
  live_pos := fun b hb => hk.live_pos b (hp.mem_iff.mpr hb)
  apart := fun a ha b hb => hk.apart a ha b (hp.mem_iff.mpr hb)
  live_apart := (hp.pairwise_iff fun hab => hab.symm).mp hk.live_apart
  live_within := fun b hb => hk.live_within b (hp.mem_iff.mpr hb)
  conserved := by
    rw [← total_perm hp]
    exact hk.conserved
  obtained_lt := hk.obtained_lt

theorem FreeList.size_add_size_le (hf : FreeList base h c) (hp : p ∈ c) (hn : a ∈ c) (hne : p ≠ a ∨ a = base) :
    h.size p + h.size a ≤ h.total c := by
  by_cases hpa : p = a
  · obtain rfl := hne.resolve_left (not_not.mpr hpa)
    rw [hf.base_size]
    exact size_le_total hp
  · obtain ⟨u, v, rfl⟩ := append_of_mem hp
    have ha : a ∈ u ++ v := by
      simp only [mem_append, mem_cons] at hn ⊢
      tauto
    have hle := size_le_total (h := h) ha
    simp only [total_append, total_cons] at hle ⊢
    omega

namespace Kept

/-- **`free` of an allocated block returns.** -/
theorem free_freed (hk : Kept base start h c (bp :: live)) :
    ∃ h' c', Freed h c bp h' c' ∧ Returns (fun fuel => free fuel h bp) (some h') := by
  obtain ⟨hbp, hpos⟩ := hk.live_pos bp mem_cons_self
  have hbrk : bp + HEADER ≤ h.brk := by
    have := (hk.live_within bp mem_cons_self).2
    simp only [fin, HEADER] at this ⊢
    omega
  obtain ⟨h', c', hF, hfree⟩ := hk.toFreeList.free_freed hbp hpos (fun a ha => hk.apart a ha bp mem_cons_self)
    (fun p hp n hn hpbp hnbp => by
      have hle := hk.toFreeList.size_add_size_le hp hn (by omega)
      have hunits := hk.conserved
      have hlt := hk.obtained_lt
      rw [total_cons] at hunits
      omega)
    (forall_mem_cons.mpr ⟨mapped_of_le hbrk, fun a ha => hk.mapped ha⟩)
  exact ⟨h', c', hF, c.length, hfree⟩

theorem freed (hk : Kept base start h c (bp :: live)) (hF : Freed h c bp h' c') : Kept base start h' c' live := by
  have hs := hk.toShape.freed hF
  have hbp := hk.live_within bp mem_cons_self
  have hsize : ∀ b ∈ live, h'.size b = h.size b := fun b hb => hk.toShape.freed_size hF hb
  refine
    { hs with
      base_pos := hk.base_pos
      base_le_start := hk.base_le_start
      start_le := hk.start_le.trans_eq hF.brk.symm
      lt := hF.lt hk.lt
      within := fun a ha hab => ?_
      live_within := fun b hb => ?_
      conserved := ?_
      obtained_lt := hF.obtained.trans_lt hk.obtained_lt }
  · have hin := hF.closed (fun lo hi => (lo = base ∨ start ≤ lo) ∧ hi ≤ h.brk) (fun x y z hxy hyz => ⟨hxy.1, hyz.2⟩)
      (forall_mem_cons.mpr ⟨⟨.inr hbp.1, hbp.2⟩, fun a ha =>
        ⟨or_iff_not_imp_left.mpr fun hab => (hk.within a ha hab).1, hk.fin_le ha⟩⟩) a ha
    exact ⟨hin.1.resolve_left hab, hin.2.trans_eq hF.brk.symm⟩
  · rw [fin_congr (hsize b hb), hF.brk]
    exact hk.live_within b (mem_cons_of_mem bp hb)
  · have hunits := hk.conserved
    rw [total_cons] at hunits
    rw [hF.total, total_congr hsize, hF.obtained]
    omega

theorem taken (hk : Kept base start h c live) (hT : Taken base h c nunits x h' c') (hxc : x ∈ c) (hpos : 0 < nunits)
    (hx : nunits ≤ h.size x) : Kept base start h' c' (h.tail nunits x :: live) := by
  have hs := hk.toShape.taken hT hxc hpos hx
  have hsize : ∀ b ∈ live, h'.size b = h.size b := fun b hb => hk.toShape.taken_size hT hxc hpos hx hb
  have hin := hk.within x hxc (hk.ne_base hpos hx)
  exact
    { hs with
      base_pos := hk.base_pos
      base_le_start := hk.base_le_start
      start_le := hk.start_le.trans_eq hT.brk.symm
      lt := hT.lt hk.lt
      within := fun a ha hab => by
        obtain ⟨hac, hle⟩ := hT.shrinks a ha
        exact ⟨(hk.within a hac hab).1, hle.trans ((hk.within a hac hab).2.trans_eq hT.brk.symm)⟩
      live_within := forall_mem_cons.mpr
        ⟨⟨hin.1.trans (Nat.le_add_right x _), by rw [fin_tail hT.size hx, hT.brk]; exact hin.2⟩, fun b hb => by
          rw [fin_congr (hsize b hb), hT.brk]
          exact hk.live_within b hb⟩
      conserved := by
        rw [total_cons, hT.size, total_congr hsize, hT.obtained, ← hk.conserved, ← hT.total]
        omega
      obtained_lt := hT.obtained.trans_lt hk.obtained_lt }

theorem grown (hk : Kept base start h c live) (hnu : 0 < nu) (hlt : h.obtained + nu < 2 ^ 32) :
    Kept base start (h.grown (h.brk + HEADER * nu) nu) c (h.brk :: live) := by
  have hnew : (h.grown (h.brk + HEADER * nu) nu).size h.brk = nu := grown_size_new (by omega)
  have hsize : ∀ a ∈ c, (h.grown (h.brk + HEADER * nu) nu).size a = h.size a := fun a ha =>
    grown_size (hk.lt_brk ha).ne
  have hlive : ∀ b ∈ live, (h.grown (h.brk + HEADER * nu) nu).size b = h.size b := fun b hb =>
    grown_size ((lt_fin (hk.live_pos b hb).2).trans_le (hk.live_within b hb).2).ne
  have hle : h.brk ≤ h.brk + HEADER * nu := Nat.le_add_right ..
  have hf : FreeList base (h.grown (h.brk + HEADER * nu) nu) c := hk.grown_freeList
  exact
    { hf with
      base_pos := hk.base_pos
      base_le_start := hk.base_le_start
      start_le := hk.start_le.trans hle
      lt := setSize_lt hk.lt
      within := fun a ha hab => by
        rw [fin_congr (hsize a ha)]
        exact ⟨(hk.within a ha hab).1, (hk.within a ha hab).2.trans hle⟩
      live_pos := forall_mem_cons.mpr ⟨⟨hk.lt_brk hk.base_mem, hnu.trans_eq hnew.symm⟩, fun b hb =>
        ⟨(hk.live_pos b hb).1, hlive b hb ▸ (hk.live_pos b hb).2⟩⟩
      apart := fun a ha => forall_mem_cons.mpr
        ⟨.inl ((fin_congr (hsize a ha)).trans_le (hk.fin_le ha)), fun b hb =>
          (hk.apart a ha b hb).congr (hsize a ha) (hlive b hb)⟩
      live_apart := pairwise_cons.mpr
        ⟨fun b hb => .inr ((fin_congr (hlive b hb)).trans_le (hk.live_within b hb).2),
          hk.live_apart.imp_of_mem fun {x y} hx hy hxy => hxy.congr (hlive x hx) (hlive y hy)⟩
      live_within := forall_mem_cons.mpr
        ⟨⟨hk.start_le, by rw [fin, hnew]; exact le_rfl⟩, fun b hb => by
          rw [fin_congr (hlive b hb)]
          exact ⟨(hk.live_within b hb).1, (hk.live_within b hb).2.trans hle⟩⟩
      conserved := by
        rw [total_cons, hnew, total_congr hsize, total_congr hlive]
        have := hk.conserved
        change _ = h.obtained + nu
        omega
      obtained_lt := hlt }

/-- **`malloc` returns 0 or a new block.** -/
theorem loop (hk : Kept base start h c live)
    (hfits : (∃ a ∈ c, nunits ≤ h.size a) ∨
      nunits < 2 ^ 27 ∧ (memory.headD false = true → h.obtained + coreUnits nunits < 2 ^ 32) ∨
      nunits = 2 ^ 28 + 1 ∧ memory.headD false = false) (hpos : 0 < nunits) :
    ∃ r h' c', Returns (fun fuel => mallocLoop nunits fuel memory h h.freep (h.ptr h.freep)) (r, h') ∧
      (r = .null ∧ Kept base start h' c' live ∨
        ∃ p, r = .block p ∧ h'.size p = nunits ∧ Kept base start h' c' (p :: live)) := by
  by_cases hbig : ∃ a ∈ c, nunits ≤ h.size a
  · obtain ⟨x, hx, hsize, h', c', hT, hloop⟩ := hk.toFreeList.loop_taken memory hpos (fun a ha => hk.mapped ha) hk.lt
      (fun x hx hsize => hk.tail_mapped hpos hx hsize) hbig
    exact ⟨_, h', c', ⟨c.length, hloop⟩, .inr ⟨_, rfl, hT.size, hk.taken hT hx hpos hsize⟩⟩
  have hsmall : ∀ a ∈ c, h.size a < nunits := fun a ha => lt_of_not_ge fun hle => hbig ⟨a, ha, hle⟩
  have hfits := hfits.resolve_left hbig
  cases hmem : memory.headD false with
  | false => exact ⟨_, h, c, hk.loop_refused hsmall (hfits.imp And.left And.left) hmem, .inl ⟨rfl, hk⟩⟩
  | true =>
    obtain ⟨hk27, hroom⟩ : nunits < 2 ^ 27 ∧ h.obtained + coreUnits nunits < 2 ^ 32 := by
      rcases hfits with hfits | hfits
      · exact ⟨hfits.1, hfits.2 hmem⟩
      · exact Bool.noConfusion (hmem.symm.trans hfits.2)
    obtain ⟨h2, c2, hF, -, x, hx, hsize, h', c', hT, hret⟩ := hk.loop_grow hpos hsmall hk27 hmem
    have hk2 := (hk.grown (hpos.trans_le (le_coreUnits nunits)) hroom).freed hF
    exact ⟨_, h', c', hret, .inr ⟨_, rfl, hT.size, hk2.taken hT hx hpos hsize⟩⟩

end Kept

/-! ## Programs -/

/-- A program: its heap, and the blocks that it has from `malloc`. -/
structure Prog where
  heap : Heap
  live : List ℕ

/-- The calls of a program. -/
inductive Call where
  | malloc (nbytes : ℕ) (memory : List Bool)
  | free (bp : ℕ)
  | sbrk (n : ℕ)

/-- What a program has after `malloc`. -/
def Outcome.keep : Outcome → List ℕ → List ℕ
  | .block p, live => p :: live
  | _, live => live

/-- **A program that uses the heap**: `free` gets an allocated block, and `sbrk` grows. -/
def program (base start : ℕ) : System Prog Call where
  init s := 0 < base ∧ base + HEADER ≤ start ∧ s.live = [] ∧
    s.heap.freep = 0 ∧ s.heap.brk = start ∧ s.heap.obtained = 0 ∧ ∀ a, s.heap.size a < 2 ^ 32
  step s
    | .malloc nbytes memory, t => nbytes < 2 ^ 32 ∧ ∃ r h', r ≠ .killed ∧
      Returns (fun fuel => malloc base fuel nbytes memory s.heap) (r, h') ∧ t = ⟨h', r.keep s.live⟩
    | .free bp, t => bp ∈ s.live ∧ ∃ h', Returns (fun fuel => free fuel s.heap bp) (some h') ∧ t = ⟨h', s.live.erase bp⟩
    | .sbrk n, t => t = ⟨{ s.heap with brk := s.heap.brk + n }, s.live⟩

/-- The request is for a block of the list, or for less than 2 GiB with less than `2 ^ 32` units in all, or
`sbrk` fails. -/
def Heap.Fits (h : Heap) (nunits : ℕ) (memory : Bool) : Prop :=
  h.Has nunits ∨ nunits < 2 ^ 27 ∧ (memory = true → h.obtained + coreUnits nunits < 2 ^ 32) ∨
    nunits = 2 ^ 28 + 1 ∧ memory = false

def Prog.Fits (s : Prog) : Call → Prop
  | .malloc nbytes memory => s.heap.Fits (units nbytes) (memory.headD false)
  | _ => True

/-- **What a program can rely on.** -/
structure Orderly (base : ℕ) (s : Prog) : Prop where
  list : s.heap.freep = 0 ∧ s.live = [] ∨ ∃ c, Shape base s.heap c s.live ∧
    s.heap.total c + s.heap.total s.live = s.heap.obtained
  malloc_returns : ∀ nbytes memory, s.heap.Fits (units nbytes) (memory.headD false) →
    ∃ r h', Returns (fun fuel => malloc base fuel nbytes memory s.heap) (r, h') ∧
      (r = .null ∨ ∃ p, r = .block p ∧ nbytes ≤ HEADER * (h'.size p - 1))
  free_returns : ∀ bp ∈ s.live, ∃ h', Returns (fun fuel => free fuel s.heap bp) (some h')

/-- The invariant of a program, before and after its first `malloc`. -/
def Prog.Inv (base start : ℕ) (s : Prog) : Prop :=
  Usable base start s.heap ∧ s.heap.freep = 0 ∧ s.live = [] ∧ s.heap.obtained = 0 ∨
    ∃ c, Kept base start s.heap c s.live

theorem Kept.freep_ne (hk : Kept base start h c live) : h.freep ≠ 0 := by
  have hle := hk.base_le hk.freep
  have hpos := hk.base_pos
  omega

namespace Prog.Inv

variable {s : Prog} (hinv : s.Inv base start)

include hinv

theorem setup : ∃ c, Kept base start (setup base s.heap) c s.live ∧
    ∀ k, 0 < k → s.heap.Has k → ∃ a ∈ c, k ≤ (Umalloc.setup base s.heap).size a := by
  rcases hinv with ⟨hu, hfreep, hlive, hobt⟩ | ⟨c, hk⟩
  · have hr := hu.setup_new hfreep
    have hobt' : (Umalloc.setup base s.heap).obtained = 0 := by
      rw [Umalloc.setup, if_pos hfreep]
      exact hobt
    refine ⟨[base], ?_, fun k _ hhas => absurd hfreep hhas.1⟩
    rw [hlive]
    exact
      { hr with
        live_pos := by simp
        apart := by simp
        live_apart := .nil
        live_within := by simp
        conserved := by
          rw [total_cons, hr.base_size, hobt']
          rfl
        obtained_lt := hobt'.trans_lt (by decide) }
  · rw [setup_eq hk.freep_ne]
    exact ⟨c, hk, fun k _ => (hk.has_iff hk.freep_ne).mp⟩

theorem malloc (hfits : s.heap.Fits (units nbytes) (memory.headD false)) :
    ∃ r h', Returns (fun fuel => malloc base fuel nbytes memory s.heap) (r, h') ∧
      (r = .null ∨ ∃ p, r = .block p ∧ h'.size p = units nbytes) ∧ Prog.Inv base start ⟨h', r.keep s.live⟩ := by
  obtain ⟨c, hk, hhas⟩ := hinv.setup
  have hobt : (Umalloc.setup base s.heap).obtained = s.heap.obtained := by
    rw [Umalloc.setup]
    split <;> rfl
  have hfits' : (∃ a ∈ c, units nbytes ≤ (Umalloc.setup base s.heap).size a) ∨
      units nbytes < 2 ^ 27 ∧ (memory.headD false = true →
        (Umalloc.setup base s.heap).obtained + coreUnits (units nbytes) < 2 ^ 32) ∨
      units nbytes = 2 ^ 28 + 1 ∧ memory.headD false = false := by
    rw [hobt]
    exact Or.imp_left (hhas _ units_pos) hfits
  simp only [hk.malloc_eq]
  obtain ⟨r, h', c', hret, ⟨rfl, hk'⟩ | ⟨p, rfl, hsize, hk'⟩⟩ := hk.loop hfits' units_pos
  · exact ⟨_, h', hret, .inl rfl, .inr ⟨c', hk'⟩⟩
  · exact ⟨_, h', hret, .inr ⟨p, rfl, hsize⟩, .inr ⟨c', hk'⟩⟩

theorem free (hbp : bp ∈ s.live) :
    ∃ h', Returns (fun fuel => free fuel s.heap bp) (some h') ∧ Prog.Inv base start ⟨h', s.live.erase bp⟩ := by
  rcases hinv with ⟨-, -, hlive, -⟩ | ⟨c, hk⟩
  · rw [hlive] at hbp
    exact absurd hbp not_mem_nil
  · have hk' := hk.perm (perm_cons_erase hbp)
    obtain ⟨h', c', hF, hret⟩ := hk'.free_freed
    exact ⟨h', hret, .inr ⟨c', hk'.freed hF⟩⟩

theorem sbrk (n : ℕ) : Prog.Inv base start ⟨{ s.heap with brk := s.heap.brk + n }, s.live⟩ := by
  have hle : s.heap.brk ≤ s.heap.brk + n := Nat.le_add_right ..
  rcases hinv with ⟨hu, hfreep, hlive, hobt⟩ | ⟨c, hk⟩
  · exact .inl ⟨{ hu with start_le := hu.start_le.trans hle, list := .inl hfreep }, hfreep, hlive, hobt⟩
  · have hk' : Kept base start { s.heap with brk := s.heap.brk + n } c s.live :=
      { hk with
        start_le := hk.start_le.trans hle
        within := fun a ha hab => (hk.within a ha hab).imp_right (·.trans hle)
        live_within := fun b hb => (hk.live_within b hb).imp_right (·.trans hle) }
    exact .inr ⟨c, hk'⟩

theorem orderly : Orderly base s where
  list := hinv.imp (fun hnew => ⟨hnew.2.1, hnew.2.2.1⟩) fun hk => by
    obtain ⟨c, hk⟩ := hk
    exact ⟨c, hk.toShape, hk.conserved⟩
  malloc_returns := fun nbytes memory hfits => by
    obtain ⟨r, h', hret, hr, -⟩ := hinv.malloc hfits
    refine ⟨r, h', hret, hr.imp_right ?_⟩
    rintro ⟨p, rfl, hsize⟩
    refine ⟨p, rfl, ?_⟩
    have hle : nbytes + HEADER ≤ HEADER * units nbytes := le_units
    rw [hsize]
    simp only [HEADER] at hle ⊢
    omega
  free_returns := fun bp hbp => by
    obtain ⟨h', hret, -⟩ := hinv.free hbp
    exact ⟨h', hret⟩

end Prog.Inv

theorem Prog.Inv.step {s t : Prog} {l : Call} (hinv : s.Inv base start) (hfits : s.Fits l)
    (hstep : (program base start).step s l t) : t.Inv base start := by
  cases l with
  | malloc nbytes memory =>
    obtain ⟨-, r, h', -, hret, rfl⟩ := hstep
    obtain ⟨r', h'', hret', -, hinv'⟩ := hinv.malloc hfits
    obtain ⟨rfl, rfl⟩ := Prod.mk.inj (hret.unique hret')
    exact hinv'
  | free bp =>
    obtain ⟨hbp, h', hret, rfl⟩ := hstep
    obtain ⟨h'', hret', hinv'⟩ := hinv.free hbp
    obtain rfl := some.inj (hret.unique hret')
    exact hinv'
  | sbrk n =>
    obtain rfl := hstep
    exact hinv.sbrk n

/-- **A program whose requests fit finds its heap in order**, however its calls go. -/
theorem heap_orderly {s : Prog} (hs : ((program base start).restrict Prog.Fits).Reachable s) : Orderly base s := by
  have hinv : s.Inv base start := by
    refine hs.invariant (fun s hinit => ?_) fun s l t _ hinv hstep => hinv.step hstep.1 hstep.2
    obtain ⟨hbase, hstart, hlive, hfreep, hbrk, hobt, hlt⟩ := hinit
    exact .inl ⟨⟨hbase, hstart, hbrk.ge, hlt, .inl hfreep⟩, hfreep, hlive, hobt⟩
  exact hinv.orderly

theorem program_init_new : (program 0x2000 0x4000).init ⟨new 0x4000, []⟩ :=
  ⟨by decide, by decide, rfl, rfl, rfl, rfl, fun _ => Nat.two_pow_pos 32⟩

/-- A program has called `malloc(100)`. -/
theorem heap_orderly_one : ∃ s : Prog, s.live = [0x13f80] ∧ Orderly 0x2000 s := by
  have hrun : (malloc 0x2000 3 100 [true] (Heap.new 0x4000)).map Prod.fst = some (.block 0x13f80) := by decide +kernel
  obtain ⟨⟨r, h'⟩, heq, hr⟩ := Option.map_eq_some_iff.mp hrun
  obtain rfl : r = .block 0x13f80 := hr
  have hinit : ((program 0x2000 0x4000).restrict Prog.Fits).Reachable ⟨Heap.new 0x4000, []⟩ := .init program_init_new
  refine ⟨⟨h', [0x13f80]⟩, rfl, heap_orderly (hinit.step (l := .malloc 100 [true]) ⟨?_, ?_⟩)⟩
  · exact .inr (.inl (by decide))
  · exact ⟨by decide, _, h', by simp, malloc_returns heq, rfl⟩

/-- `malloc(0xffffffff)` and then `malloc(1)`: the second block is inside the first. -/
theorem blocks_overlap : ∃ s₀ s, (program 0x2000 0x4000).init s₀ ∧
    (program 0x2000 0x4000).Run s₀ [.malloc 0xffffffff [true], .malloc 1 [true]] s ∧
      s.live = [0x13ff0, 0x4000] ∧ ¬s.heap.Apart 0x13ff0 0x4000 := by
  have hrun : ((malloc 0x2000 3 0xffffffff [true] (Heap.new 0x4000)).bind fun r₁ =>
      (malloc 0x2000 4 1 [true] r₁.2).map fun r₂ => (r₁.1, r₂.1, r₂.2.size 0x4000, r₂.2.size 0x13ff0)) =
      some (.block 0x4000, .block 0x13ff0, 2 ^ 28 + 1, 2) := by decide +kernel
  obtain ⟨⟨r₁, h₁⟩, heq₁, hrun⟩ := Option.bind_eq_some_iff.mp hrun
  obtain ⟨⟨r₂, h₂⟩, heq₂, hr⟩ := Option.map_eq_some_iff.mp hrun
  obtain ⟨rfl, rfl, hsize₁, hsize₂⟩ : r₁ = .block 0x4000 ∧ r₂ = .block 0x13ff0 ∧ h₂.size 0x4000 = 2 ^ 28 + 1 ∧
      h₂.size 0x13ff0 = 2 := by simpa using hr
  refine ⟨⟨Heap.new 0x4000, []⟩, ⟨h₂, [0x13ff0, 0x4000]⟩, program_init_new, ?_, rfl, ?_⟩
  · exact .cons (t := ⟨h₁, [0x4000]⟩) ⟨by decide, _, h₁, by simp, malloc_returns heq₁, rfl⟩
      (.cons ⟨by decide, _, h₂, by simp, malloc_returns heq₂, rfl⟩ (.nil _))
  · rw [Heap.Apart, Heap.fin, Heap.fin, hsize₁, hsize₂]
    decide

end Xv6.Umalloc
