import Xv6.Proc.Message

/-!
# Proc/Deliver — what a parent finds in its memory after `wait`

`wait(addr, msg)` reads the byte at `msg` and stores the message at that address, in page 0:
`Delivered` is what the caller expects, `Lucky` when it gets it.
-/

namespace Xv6

open Machinery Function Ensures List Option Exec

/-! ## The message in the entry of a zombie -/

theorem slice_string (b : Bytes 32) {m : List Byte} (hlen : m.length ≤ 31) :
    ∃ l, (b.splice 0 (m ++ [0])).slice 0 32 = m ++ 0 :: l := by
  have hl : (m ++ [(0 : Byte)]).length = m.length + 1 := by
    rw [length_append, length_singleton]
  have h32 : 32 = (m ++ [(0 : Byte)]).length + (31 - m.length) := by omega
  refine ⟨(b.splice 0 (m ++ [0])).slice (0 + (m ++ [(0 : Byte)]).length) (31 - m.length), ?_⟩
  have h := Bytes.slice_add (b.splice 0 (m ++ [0])) 0 (m ++ [(0 : Byte)]).length (31 - m.length)
  rw [← h32, Bytes.slice_splice_same _ _ _ (by omega), append_assoc, singleton_append] at h
  exact h

namespace Kernel

variable {im : Image} {k k' : Kernel} {p q : Slot} {root : ℕ} {m : List Byte}

theorem strBytes_strncpy32 (h0 : (0 : Byte) ∉ m) (hlen : m.length ≤ 31) (junk : Bytes 32) :
    strBytes (strncpy32 (junk.splice 0 (m ++ [0]))) = m := by
  obtain ⟨l, hl⟩ := slice_string junk hlen
  obtain ⟨l', hl'⟩ := slice_string (.fill 32 0) hlen
  rw [strncpy32, hl, untilNul_append h0, strBytes, hl', takeWhile_append_of_pos]
  · rw [takeWhile_cons_of_neg (by simp), append_nil]
  · intro b hb
    exact decide_eq_true fun he => h0 (he ▸ hb)

theorem strBytes_fill : strBytes (.fill 32 0) = [] := by decide

theorem length_strBytes (s : Bytes 32) : (strBytes s).length ≤ 32 :=
  ( takeWhile_prefix _).length_le.trans (by rw [Bytes.length_slice])

/-- **`exit` keeps the string it was passed.** -/
theorem exit_message {n : ℤ} {va : ℕ} {junk : Bytes 32} {r : Option ℤ}
    (hr : (k.proc p).pagetable = some root) (h0 : (0 : Byte) ∉ m) (hlen : m.length ≤ 31)
    (hm : Holds (userByte k.phys.mem root) va (m ++ [0]))
    (hst : (system im).step k (.exit p n va junk, r) k') :
    (k'.proc p).state = .zombie ∧ (k'.proc p).xstate = n ∧ strBytes (k'.proc p).exitMsg = m := by
  have hbuff : Ensures (argBuff p va junk) k
      (fun buff k' => buff = junk.splice 0 (m ++ [0]) ∧ k' = k) fun _ => True := by
    rw [argBuff, get_bind_iff, bind_iff, deref_some_iff hr, bind_iff]
    refine onPhys_total (copyinstr_string h0 hm (by omega)) ?_
    rintro r σ ⟨hr, hσ⟩
    refine .pure ?_
    rw [hr, hσ]
    exact ⟨rfl, rfl⟩
  have hexit : Ensures (perform im (.exit p n va junk)) k (fun _ k' => (k'.proc p).state = .zombie ∧
      (k'.proc p).xstate = n ∧ strBytes (k'.proc p).exitMsg = m) fun _ => True := by
    refine (hbuff.bind ?_ : Ensures (sysExit im p n va junk) k (fun _ k' =>
      (k'.proc p).state = .zombie ∧ (k'.proc p).xstate = n ∧ strBytes (k'.proc p).exitMsg = m)
      fun _ => True).bind fun _ _ h => .pure h
    rintro buff k₀ ⟨hb, hk0⟩
    refine (exit_lasts (S := fun _ => False) p n (some buff)).imp ?_
    rintro _ _ ⟨k₁, buf, hbuf, -, hk'⟩
    obtain rfl := some.inj hbuf
    rw [hk', become_proc_self, hb]
    exact ⟨rfl, rfl, strBytes_strncpy32 h0 hlen junk⟩
  exact hexit.of_ok hst.2

/-! ## What `wait` stores -/

/-- The message `m` laid over `f` at `dst`, if the user has a page 0. -/
def laidMessage (f : ℕ → Option Byte) (dst : ℕ) (m : List Byte) : ℕ → Option Byte :=
  if f 0 = none then f else overlay dst m f

/-- The status `n` laid over `f` at `addr`, unless that is null. -/
def laidStatus (f : ℕ → Option Byte) (addr : ℕ) (n : ℤ) : ℕ → Option Byte :=
  if addr = 0 then f else overlay addr (intBytes n) f

theorem laidMessage_nil (f : ℕ → Option Byte) (dst : ℕ) : laidMessage f dst [] = f := by
  rw [laidMessage, overlay_nil, ite_self]

theorem length_intBytes (n : ℤ) : (intBytes n).length = 4 := length_leBytes _ _

variable {dst addr x : ℕ} {f : ℕ → Option Byte}

theorem copyout_message (h : Inv im k) (hr : (k.proc p).pagetable = some root)
    (hd : dst < 256) (hm : m.length ≤ 32) :
    Ensures (onPhys (copyout root dst m)) k (fun _ k' => Inv im k' ∧ ∃ σ, k' = { k with phys := σ } ∧
      userByte σ.mem root = laidMessage (userByte k.phys.mem root) dst m ∧
      ∀ x, userPage σ.mem root x = userPage k.phys.mem root x) := by
  obtain ⟨tf, -, hu⟩ := (h.procs p).space root hr
  have hpage : ∀ i < 4096, userPage k.phys.mem root i = userPage k.phys.mem root 0 := fun i hi =>
    userPage_eq_of_div (by unfold PGSIZE; omega)
  cases h0 : userPage k.phys.mem root 0 with
  | none =>
    refine onPhys_total (copyout_unmapped ((hpage dst (by omega)).trans h0)) fun _ σ hσ => ?_
    subst hσ
    refine ⟨h, k.phys, rfl, ?_, fun _ => rfl⟩
    rw [laidMessage, if_pos (by rw [userByte, h0]; rfl)]
  | some n =>
    refine onPhys_total (copyout_bytes (h.space hr) hu.guarded fun i hi => ?_) ?_
    · rw [hpage _ (by omega), h0]
      rintro ⟨⟩
    · rintro _ σ ⟨-, hs, hb⟩
      refine ⟨h.stored hr hs, σ, rfl, ?_, userPage_congr (hs.sameTable (h.space hr))⟩
      rw [hb, laidMessage, if_neg (by rw [userByte, h0]; rintro ⟨⟩)]

theorem copyout_status (h : Inv im k) (hr : (k.proc p).pagetable = some root)
    (ha : ∀ i < 4, userPage k.phys.mem root (addr + i) ≠ none) (n : ℤ) :
    Ensures (onPhys (copyout root addr (intBytes n))) k (fun ok k' => ok = true ∧
      ∃ σ, k' = { k with phys := σ } ∧
        userByte σ.mem root = overlay addr (intBytes n) (userByte k.phys.mem root)) := by
  obtain ⟨tf, -, hu⟩ := (h.procs p).space root hr
  refine onPhys_total (copyout_bytes (h.space hr) hu.guarded fun i hi => ?_)
    fun _ σ ⟨hok, _, hb⟩ => ⟨hok, σ, rfl, hb⟩
  rw [length_intBytes] at hi
  exact ha i hi

/-- The memory of the caller after a scan of `wait`. -/
def scanBytes (k : Kernel) (f : ℕ → Option Byte) (addr dst : ℕ) : Option Slot → ℕ → Option Byte
  | none => f
  | some q => laidStatus (laidMessage f dst (strBytes (k.proc q).exitMsg)) addr (k.proc q).xstate

/-- **The scan of `wait` stores for the child it finds, and for no other.** -/
theorem waitScan_bytes (h : Inv im k) (hb : Blank k) (hr : (k.proc p).pagetable = some root)
    (hd : dst < 256)
    (ha : addr ≠ 0 → ∀ i < 4, userPage k.phys.mem root (addr + i) ≠ none) (pps : List Slot)
    (havekids : Bool) :
    Ensures (waitScan p root addr dst pps havekids) k (fun r k' =>
      r.1 = (k.zombieChild p pps).map (fun q => (k.proc q).pid) ∧
      userByte k'.phys.mem root =
        k.scanBytes (userByte k.phys.mem root) addr dst (k.zombieChild p pps)) := by
  induction pps generalizing k havekids with
  | nil => exact .pure ⟨rfl, rfl⟩
  | cons pp pps ih =>
    rw [waitScan, get_bind_iff]
    simp only
    split_ifs with hchild hzombie haddr
    · have hfind := zombieChild_of_zombie pps hchild hzombie
      refine (copyout_message h hr hd (length_strBytes _)).bind ?_
      rintro _ k₁ ⟨h1, σ1, hk1, hb1, hp1⟩
      subst hk1
      refine (copyout_status h1 hr (fun i hi => ?_) _).bind ?_
      · rw [hp1]
        exact ha haddr i hi
      · rintro ok k2 ⟨hok, σ2, hk2, hb2⟩
        rw [hok, if_pos rfl, pure_iff, hfind, hk2, hb2, hb1, scanBytes, laidStatus, if_neg haddr]
        exact ⟨rfl, rfl⟩
    · have hfind := zombieChild_of_zombie pps hchild hzombie
      refine (copyout_message h hr hd (length_strBytes _)).bind ?_
      rintro _ k₁ ⟨h1, σ1, hk1, hb1, hp1⟩
      rw [pure_iff, hfind, hk1, hb1, scanBytes, laidStatus, if_pos (not_not.1 haddr)]
      exact ⟨rfl, rfl⟩
    · -- a child that has not exited has no message
      rw [zombieChild_of_not pps fun h => hzombie h.2]
      refine (copyout_message h hr hd (length_strBytes _)).bind ?_
      rintro _ k₁ ⟨h1, σ1, hk1, hb1, hp1⟩
      rw [hb.msg pp hzombie, strBytes_fill, laidMessage_nil] at hb1
      subst hk1
      have hih := ih (k := { k with phys := σ1 }) h1 ⟨hb.msg, hb.frame⟩ hr
        (fun hne i hi => by rw [hp1]; exact ha hne i hi) true
      rw [hb1] at hih
      exact hih
    · rw [zombieChild_of_not pps fun h => hchild h.1]
      exact ih h hb hr ha havekids

theorem waitOnce_bytes (h : Inv im k) (hb : Blank k) (hr : (k.proc p).pagetable = some root)
    (hd : dst < 256)
    (ha : addr ≠ 0 → ∀ i < 4, userPage k.phys.mem root (addr + i) ≠ none) :
    Ensures (waitOnce p addr dst) k (fun r k' =>
      (∀ q, k.foundChild p = some q → r = some (k.proc q).pid) ∧ userByte k'.phys.mem root =
        k.scanBytes (userByte k.phys.mem root) addr dst (k.foundChild p)) := by
  rw [waitOnce, get_bind_iff, bind_iff, deref_some_iff hr]
  refine (waitScan_bytes h hb hr hd ha _ false).bind ?_
  rintro ⟨r, havekids⟩ k₁ ⟨hret, hbytes⟩
  cases r with
  | some r =>
    rw [bind_iff, setProc_iff, pure_iff]
    refine ⟨fun q hq => ?_, hbytes⟩
    rw [foundChild] at hq
    rw [hq] at hret
    exact hret
  | none =>
    have hnone : ∀ q, k.foundChild p ≠ some q := fun q hq => by
      rw [foundChild] at hq
      rw [hq] at hret
      exact absurd hret (by simp)
    rw [get_bind_iff]
    split_ifs
    · rw [bind_iff, setProc_iff, pure_iff]
      exact ⟨fun q hq => absurd hq (hnone q), hbytes⟩
    · rw [bind_iff, setProc_iff, pure_iff]
      exact ⟨fun q hq => absurd hq (hnone q), hbytes⟩

/-- `*msg` in `wait`: the byte at the user's address, or what the buffer of `sys_wait` held. -/
def fetched (k : Kernel) (root va : ℕ) (junk : Bytes 32) : ℕ :=
  ((userByte k.phys.mem root va).getD (junk.byteAt 0)).toNat

theorem argBuff_first (hr : (k.proc p).pagetable = some root) (va : ℕ) (junk : Bytes 32) :
    Ensures (argBuff p va junk) k
      (fun buff k' => (buff.byteAt 0).toNat = k.fetched root va junk ∧ k' = k) := by
  rw [argBuff, get_bind_iff, bind_iff, deref_some_iff hr, bind_iff]
  cases hb : userByte k.phys.mem root va with
  | none =>
    have hn : userPage k.phys.mem root va = none := map_eq_none_iff.1 hb
    refine onPhys_total (copyinstr_unmapped hn) ?_
    rintro r σ ⟨hr, hσ⟩
    refine .pure ?_
    rw [hr, hσ, fetched, hb, Bytes.byteAt_splice_of_notMem _ _ _ (.inr zero_le)]
    exact ⟨rfl, rfl⟩
  | some b =>
    refine onPhys_total (copyinstr_head hb) ?_
    rintro r σ ⟨⟨l, hl⟩, hσ⟩
    refine .pure ?_
    rw [hl, hσ, fetched, hb, Bytes.byteAt_splice _ _ _ (by norm_num), if_pos (by simp)]
    exact ⟨rfl, rfl⟩

/-- The step `op` is a round of `wait(addr, msg)` of `p`, and `dst` is what `wait` takes for `*msg`. -/
def Awaits (k : Kernel) (p : Slot) (root addr dst : ℕ) : Op → Prop
  | .wait q a va junk => q = p ∧ a = addr ∧ dst = k.fetched root va junk
  | .rewait q => q = p ∧ (k.proc p).frame = .wait addr dst
  | _ => False

/-- **What a step of `wait` leaves in the memory of its caller.** -/
theorem wait_bytes (h : Inv im k) (hb : Blank k) (hr : (k.proc p).pagetable = some root)
    {op : Op} (hop : k.Awaits p root addr dst op)
    (ha : addr ≠ 0 → ∀ i < 4, userPage k.phys.mem root (addr + i) ≠ none) {r : Option ℤ}
    (hst : (system im).step k (op, r) k') :
    (∀ q, k.foundChild p = some q → r = some (k.proc q).pid) ∧ userByte k'.phys.mem root =
      k.scanBytes (userByte k.phys.mem root) addr dst (k.foundChild p) := by
  obtain ⟨he, hrun⟩ := hst
  cases op with
  | wait q a va junk =>
    obtain ⟨rfl, rfl, rfl⟩ := hop
    have hspec : Ensures (sysWait q a va junk) k (fun r k' =>
        (∀ c, k.foundChild q = some c → r = some (k.proc c).pid) ∧ userByte k'.phys.mem root =
          k.scanBytes (userByte k.phys.mem root) a (k.fetched root va junk) (k.foundChild q)) := by
      refine (argBuff_first hr va junk).bind fun buff k₁ ⟨hfirst, hk1⟩ => ?_
      rw [hk1, ← hfirst]
      exact waitOnce_bytes h hb hr (buff.byteAt 0).isLt ha
    exact hspec.of_ok hrun
  | rewait q =>
    obtain ⟨rfl, hframe⟩ := hop
    set k₁ := k.become k.phys q { k.proc q with chan := none } with hk1
    have hkin : ∀ c, (k₁.proc c).exitMsg = (k.proc c).exitMsg ∧ (k₁.proc c).xstate = (k.proc c).xstate ∧
        (k₁.proc c).frame = (k.proc c).frame ∧ SameKin (k.proc c) (k₁.proc c) := fun c => by
      by_cases hc : c = q
      · rw [hc, hk1, become_proc_self]
        exact ⟨rfl, rfl, rfl, rfl, rfl, rfl⟩
      · rw [hk1, become_proc_of_ne hc]
        exact ⟨rfl, rfl, rfl, rfl, rfl, rfl⟩
    have hfound : k₁.foundChild q = k.foundChild q := foundChild_congr fun c => (hkin c).2.2.2
    have hI1 : Inv im k₁ := h.setProc ⟨rfl, rfl, rfl, rfl, id⟩
    have hb1 : Blank k₁ := by
      refine ⟨fun c hc => ?_, fun c a d hf => hb.frame c a d ?_⟩
      · rw [(hkin c).2.2.2.state] at hc
        rw [(hkin c).1, hb.msg c hc]
      · rw [← hf, (hkin c).2.2.1]
    have hr1 : (k₁.proc q).pagetable = some root := by rw [hk1, become_proc_self]; exact hr
    have hspec : Ensures (rewait q) k (fun r k' =>
        (∀ c, k₁.foundChild q = some c → r = some (k₁.proc c).pid) ∧ userByte k'.phys.mem root =
          k₁.scanBytes (userByte k.phys.mem root) addr dst (k₁.foundChild q)) := by
      rw [rewait, bind_iff, setProc_iff, get_bind_iff]
      have hf1 : (({ k with proc := update k.proc q { k.proc q with chan := none } } : Kernel).proc
          q).frame = .wait addr dst := by simpa only [update_self] using hframe
      rw [hf1]
      exact waitOnce_bytes hI1 hb1 hr1 (hb.frame q addr dst hframe) ha
    obtain ⟨hret, hbytes⟩ := hspec.of_ok hrun
    rw [hfound] at hret hbytes
    refine ⟨fun c hc => ?_, ?_⟩
    · exact (hret c hc).trans (by rw [(hkin c).2.2.2.pid])
    · rw [hbytes]
      cases k.foundChild q with
      | none => rfl
      | some c => rw [scanBytes, scanBytes, (hkin c).1, (hkin c).2.1]
  | _ => exact hop.elim

/-! ## What the caller expects -/

/-- `x` lies in the four bytes at `addr`, unless that is null. -/
def InStatus (addr x : ℕ) : Prop := addr ≠ 0 ∧ addr ≤ x ∧ x < addr + 4

/-- `x` lies in the buffer for the message `m` and its NUL at `va`, unless that is null. -/
def InMessage (va : ℕ) (m : List Byte) (x : ℕ) : Prop := va ≠ 0 ∧ va ≤ x ∧ x ≤ va + m.length

/-- The memory `f` has become `f'`: the status is at `addr`, the message with its NUL at `va`, all
else is as it was. -/
structure Delivered (f f' : ℕ → Option Byte) (addr va : ℕ) (n : ℤ) (m : List Byte) : Prop where
  status : addr ≠ 0 → Holds f' addr (intBytes n)
  message : va ≠ 0 → Holds f' va (m ++ [0])
  frame : ∀ x, ¬ InStatus addr x → ¬ InMessage va m x → f' x = f x

/-- `x` is one of the bytes that `wait` overwrites by the message. -/
def Hit (f : ℕ → Option Byte) (dst : ℕ) (m : List Byte) (x : ℕ) : Prop :=
  f 0 ≠ none ∧ dst ≤ x ∧ x < dst + m.length

/-- The memory `f`, before `wait`, hides where the message goes: every byte of the buffer is right
already or becomes right, every byte overwritten outside of the buffers stays the same, and the
buffers agree where they overlap. -/
structure Lucky (f : ℕ → Option Byte) (addr va dst : ℕ) (n : ℤ) (m : List Byte) : Prop where
  overlap : ∀ x, InStatus addr x → InMessage va m x →
    (intBytes n).getD (x - addr) 0 = (m ++ [0]).getD (x - va) 0
  there : ∀ x, InMessage va m x → ¬ InStatus addr x → ¬ Hit f dst m x →
    f x = some ((m ++ [0]).getD (x - va) 0)
  becomes : ∀ x, InMessage va m x → ¬ InStatus addr x → Hit f dst m x →
    m.getD (x - dst) 0 = (m ++ [0]).getD (x - va) 0
  same : ∀ x, ¬ InMessage va m x → ¬ InStatus addr x → Hit f dst m x →
    f x = some (m.getD (x - dst) 0)

theorem laidMessage_hit (h : Hit f dst m x) : laidMessage f dst m x = some (m.getD (x - dst) 0) := by
  rw [laidMessage, if_neg h.1, overlay, if_pos h.2]

theorem laidMessage_miss (h : ¬ Hit f dst m x) : laidMessage f dst m x = f x := by
  by_cases h0 : f 0 = none
  · rw [laidMessage, if_pos h0]
  · rw [laidMessage, if_neg h0, overlay, if_neg fun hx => h ⟨h0, hx⟩]

theorem laidStatus_in {n : ℤ} (h : InStatus addr x) :
    laidStatus f addr n x = some ((intBytes n).getD (x - addr) 0) := by
  rw [laidStatus, if_neg h.1, overlay, if_pos (by rw [length_intBytes]; exact h.2)]

theorem laidStatus_out {n : ℤ} (h : ¬ InStatus addr x) : laidStatus f addr n x = f x := by
  by_cases h0 : addr = 0
  · rw [laidStatus, if_pos h0]
  · rw [laidStatus, if_neg h0, overlay, if_neg]
    rw [length_intBytes]
    exact fun hx => h ⟨h0, hx⟩

/-- **What `wait` stores is what the caller expects exactly when memory is lucky.** -/
theorem delivered_iff (f : ℕ → Option Byte) (addr va dst : ℕ) (n : ℤ) (m : List Byte) :
    Delivered f (laidStatus (laidMessage f dst m) addr n) addr va n m ↔ Lucky f addr va dst n m := by
  have hmsg : va ≠ 0 → (Holds (laidStatus (laidMessage f dst m) addr n) va (m ++ [0]) ↔
      ∀ x, InMessage va m x → laidStatus (laidMessage f dst m) addr n x =
        some ((m ++ [0]).getD (x - va) 0)) := fun hva => by
    rw [Holds, length_append, length_singleton]
    constructor
    · rintro h x ⟨-, h1, h2⟩
      have := h (x - va) (by omega)
      rwa [Nat.add_sub_cancel' h1] at this
    · intro h i hi
      have := h (va + i) ⟨hva, by omega, by omega⟩
      rwa [Nat.add_sub_cancel_left] at this
  constructor
  · intro h
    have hm : ∀ x, InMessage va m x → laidStatus (laidMessage f dst m) addr n x =
        some ((m ++ [0]).getD (x - va) 0) := fun x hx => (hmsg hx.1).1 (h.message hx.1) x hx
    refine ⟨fun x hs hx => ?_, fun x hx hs hh => ?_, fun x hx hs hh => ?_, fun x hx hs hh => ?_⟩
    · have := hm x hx
      rw [laidStatus_in hs] at this
      exact some.inj this
    · rw [← hm x hx, laidStatus_out hs, laidMessage_miss hh]
    · have := hm x hx
      rw [laidStatus_out hs, laidMessage_hit hh] at this
      exact some.inj this
    · rw [← h.frame x hs hx, laidStatus_out hs, laidMessage_hit hh]
  · intro h
    refine ⟨fun ha i hi => ?_, fun hva => (hmsg hva).2 fun x hx => ?_, fun x hs hx => ?_⟩
    · rw [length_intBytes] at hi
      rw [laidStatus_in ⟨ha, by omega, by omega⟩, Nat.add_sub_cancel_left]
    · by_cases hs : InStatus addr x
      · rw [laidStatus_in hs, h.overlap x hs hx]
      · rw [laidStatus_out hs]
        by_cases hh : Hit f dst m x
        · rw [laidMessage_hit hh, h.becomes x hx hs hh]
        · rw [laidMessage_miss hh, h.there x hx hs hh]
    · rw [laidStatus_out hs]
      by_cases hh : Hit f dst m x
      · rw [laidMessage_hit hh, h.same x hx hs hh]
      · exact laidMessage_miss hh

/-- `q` exits with the status `n` and the message `m`, and later a round of `wait(addr, msg)` by `p`
finds `q`. -/
structure Collects (im : Image) (k k' : Kernel) (p q : Slot) (root addr dst : ℕ) (n : ℤ)
    (m : List Byte) (r : Option ℤ) : Prop where
  exited : ∃ k₀ k₁ root₀ va junk r₀ ls, (bootable im).Reachable k₀ ∧
    (k₀.proc q).pagetable = some root₀ ∧ Holds (userByte k₀.phys.mem root₀) va (m ++ [0]) ∧
    (bootable im).step k₀ (.exit q n va junk, r₀) k₁ ∧ (bootable im).Run k₁ ls k
  notMem : (0 : Byte) ∉ m
  length : m.length ≤ 31
  table : (k.proc p).pagetable = some root
  mapped : addr ≠ 0 → ∀ i < 4, userPage k.phys.mem root (addr + i) ≠ none
  found : k.foundChild p = some q
  step : ∃ op, k.Awaits p root addr dst op ∧ (system im).step k (op, r) k'

/-- **The parent gets the pid of its child; it gets the status and the message of the child, and keeps its
memory, exactly when its memory is lucky.**  A round of `wait` that finds no zombie stores nothing. -/
theorem message_delivered (im : Image) :
    (∀ k k' p q root addr dst n m r, Collects im k k' p q root addr dst n m r →
      r = some (k.proc q).pid ∧ ∀ va,
        (Delivered (userByte k.phys.mem root) (userByte k'.phys.mem root) addr va n m ↔
          Lucky (userByte k.phys.mem root) addr va dst n m)) ∧
    ∀ k k' p root addr dst op r, (bootable im).Reachable k → (k.proc p).pagetable = some root →
      (addr ≠ 0 → ∀ i < 4, userPage k.phys.mem root (addr + i) ≠ none) →
      k.Awaits p root addr dst op → k.foundChild p = none → (system im).step k (op, r) k' →
      userByte k'.phys.mem root = userByte k.phys.mem root := by
  refine ⟨fun k k' p q root addr dst n m r h => ?_, fun k k' p root addr dst op r hk hr ha hop hf hst => ?_⟩
  · obtain ⟨k₀, k₁, root₀, va, junk, r₀, ls, hk₀, hroot₀, hm, hexit, hrun⟩ := h.exited
    obtain ⟨op, hop, hst⟩ := h.step
    obtain ⟨hz, hx, hmsg⟩ := exit_message hroot₀ h.notMem h.length hm hexit.2
    have hk₁ := hk₀.step hexit
    have hk := hk₁.run hrun
    obtain ⟨-, hx', hmsg'⟩ := zombie_stays hk₁.of_restrict hrun.of_restrict hz
    obtain ⟨hret, hbytes⟩ := wait_bytes (Inv.of_reachable hk) (blank_of_reachable hk.of_restrict)
      h.table hop h.mapped hst
    refine ⟨hret q h.found, fun va => ?_⟩
    rw [hbytes, h.found, scanBytes, hmsg', hmsg, hx', hx]
    exact delivered_iff _ addr va dst n m
  · have hbytes := (wait_bytes (Inv.of_reachable hk) (blank_of_reachable hk.of_restrict) hr hop ha hst).2
    rw [hbytes, hf]
    rfl

/-! ## A message that is lost

The child of the first process reads `A` and a NUL from a device and exits with them; the first process
waits with `msg` at a new page, which is zero. -/

theorem growproc_page (h : Inv im k) (hr : (k.proc p).pagetable = some root)
    (hsz : (k.proc p).sz = PGSIZE) (hroom : 3 ≤ k.phys.freelist.length) :
    Ensures (growproc im p PGSIZE) k (fun ok k' => ok = true ∧ ∃ σ,
      k' = k.become σ p { k.proc p with sz := 2 * PGSIZE } ∧
      k.phys.freelist.length ≤ σ.freelist.length + 3 ∧
      ∀ y, y / PGSIZE = 1 → userByte σ.mem root y = some 0) := by
  have hone : npages PGSIZE = 1 := by decide
  have htwo : npages (2 * PGSIZE) = 2 := by decide
  have hcost := growPages_le k.phys.mem root 1 2
  refine (growproc_spec h hr PGSIZE).imp ?_
  rw [hsz, show grown PGSIZE (PGSIZE : ℤ) = 2 * PGSIZE by decide]
  rintro ok k' ⟨σ, sz, ⟨rfl, hg, rfl, rfl⟩ | ⟨-, -, -, -, -, -, -, h0 | hshort⟩⟩
  · have hpaid := hg.paid
    have hz := hg.zero
    have hle := hg.le
    rw [hone, htwo] at hpaid hz
    rw [htwo] at hle
    exact ⟨rfl, σ, rfl, by omega, fun y hy => userByte_zeroed (by decide) hz le_rfl (by omega) hle hy⟩
  · exact absurd h0 (by decide)
  · rw [hone, htwo] at hshort
    omega

def deviceFile (f : File) : File :=
  { f with ref := 1, type := .device, ip := 0, readable := true, writable := false }

/-- The first file and the first descriptor of `p`. -/
def firstFile : Fin NFILE := ⟨0, NFILE_pos⟩
def firstFd : Fin NOFILE := ⟨0, by decide⟩

/-- The kernel after `open` of a device for reading. -/
def opened (k : Kernel) (p : Slot) : Kernel :=
  { k with
    trace := k.trace ++ [.iref 0], file := update k.file firstFile (deviceFile (k.file firstFile))
    proc := update k.proc p { k.proc p with
      ofile := update (k.proc p).ofile firstFd (some firstFile) } }

theorem sysOpen_first (hfile : ∀ i, (k.file i).ref = 0) (hfd : ∀ fd, (k.proc p).ofile fd = none) :
    sysOpen im p 0 .device true false k = .ok (0, k.opened p) := by
  have halloc : (List.finRange NFILE).find? (fun i => decide ((k.file i).ref = 0)) = some firstFile := by
    change (firstFile :: _).find? _ = _
    rw [List.find?_cons_of_pos (by simp [hfile])]
  have hfind : (List.finRange NOFILE).find? (fun fd => ((k.proc p).ofile fd).isNone) = some firstFd := by
    change (firstFd :: _).find? _ = _
    rw [List.find?_cons_of_pos (by simp [hfd])]
  have hrun1 : filealloc { k with trace := k.trace ++ [.iref 0] } = .ok (some firstFile, { k with
      trace := k.trace ++ [.iref 0]
      file := update k.file firstFile { k.file firstFile with ref := 1 } }) := by
    rw [filealloc, bind_ok (get_run _)]
    simp only [halloc]
    rfl
  have hrun2 : ∀ {g : Fin NFILE → File} {t : List FileEvent},
      fdalloc p firstFile { k with file := g, trace := t } = .ok (some firstFd, { k with
        file := g, trace := t
        proc := update k.proc p { k.proc p with
          ofile := update (k.proc p).ofile firstFd (some firstFile) } }) := by
    intro g t
    rw [fdalloc, bind_ok (get_run _)]
    simp only [hfind]
    rfl
  have hrun0 : record (.iref 0) k = .ok ((), { k with trace := k.trace ++ [.iref 0] }) := rfl
  rw [sysOpen, bind_ok hrun0, bind_ok hrun1]
  simp only
  rw [bind_ok hrun2]
  simp only
  rw [bind_ok (a := ()) rfl]
  simp only [opened, deviceFile, update_idem, update_self]
  rfl

theorem argfd_opened (k : Kernel) (p : Slot) {σ : Phys} :
    argfd p 0 { k.opened p with phys := σ } =
      .ok (some (firstFd, firstFile), { k.opened p with phys := σ }) := by
  rw [argfd, bind_ok (get_run _)]
  have hof : ((k.opened p).proc p).ofile ⟨(0 : ℤ).toNat, by decide⟩ = some firstFile := by
    simp only [opened, update_self]
    exact update_self _ _ _
  have hlt : (0 : ℤ).toNat < NOFILE := by decide
  simp only [le_refl, if_true, dif_pos hlt, hof]
  rfl

theorem sysRead_opened (h : Inv im (k.opened p)) (hr : (k.proc p).pagetable = some root)
    {bs : List Byte} (hm : ∀ i < bs.length, userPage k.phys.mem root (addr + i) ≠ none) :
    Ensures (sysRead p 0 addr bs) (k.opened p) (fun _ k' => ∃ σ, k' = { k.opened p with phys := σ } ∧
      σ.freelist = k.phys.freelist ∧ userByte σ.mem root = overlay addr bs (userByte k.phys.mem root)) := by
  have hr' : ((k.opened p).proc p).pagetable = some root := by
    simp only [opened, update_self]
    exact hr
  obtain ⟨tf, -, hu⟩ := (h.procs p).space root hr'
  have hfile : (k.opened p).file firstFile = deviceFile (k.file firstFile) := by
    simp only [opened, update_self]
  have hargfd : argfd p 0 (k.opened p) = .ok (some (firstFd, firstFile), k.opened p) :=
    argfd_opened k p (σ := k.phys)
  have hread : fileread firstFile (k.opened p) = .ok (some .device, k.opened p) := by
    rw [fileread, bind_ok (get_run _)]
    simp only [hfile]
    rfl
  rw [sysRead, bind_iff, ok_iff hargfd]
  simp only
  rw [bind_iff, ok_iff hread]
  simp only
  rw [get_bind_iff, bind_iff, deref_some_iff hr', bind_iff]
  refine onPhys_total (copyout_bytes (h.space hr') hu.guarded hm) ?_
  rintro ok σ ⟨hok, hs, hb⟩
  rw [hok, if_pos rfl, pure_iff]
  exact ⟨σ, rfl, hs.freelist, hb⟩

theorem sysClose_opened (hfd : ∀ fd, (k.proc p).ofile fd = none) (σ : Phys) :
    ∃ k', sysClose im p 0 { k.opened p with phys := σ } = .ok (0, k') ∧ k'.phys = σ ∧
      k'.proc = k.proc ∧ k'.initproc = k.initproc := by
  set k₁ : Kernel := { k.opened p with phys := σ } with hk1
  set k2 : Kernel := { k₁ with
    proc := update k₁.proc p { k₁.proc p with ofile := update (k₁.proc p).ofile firstFd none } } with hk2
  have hproc : k2.proc = k.proc := by
    have hof : update (update (k.proc p).ofile firstFd (some firstFile)) firstFd none =
        (k.proc p).ofile := by
      rw [update_idem, ← hfd firstFd, update_eq_self]
    simp only [hk2, hk1, opened, update_idem, update_self, hof, update_eq_self]
  have hfile : k2.file firstFile = deviceFile (k.file firstFile) := by
    simp only [hk2, hk1, opened, update_self]
  have hclose : ∃ k', fileclose im firstFile k2 = .ok ((), k') ∧ k'.phys = σ ∧ k'.proc = k2.proc ∧
      k'.initproc = k.initproc := by
    refine ⟨{ k2 with
      file := update k2.file firstFile { k2.file firstFile with ref := 0, type := .none }
      trace := k2.trace ++ [.iput 0] }, ?_, rfl, rfl, rfl⟩
    rw [fileclose, bind_ok (get_run _)]
    simp only [hfile]
    rfl
  obtain ⟨k', hrun, hphys, hproc', hinit⟩ := hclose
  refine ⟨k', ?_, hphys, hproc'.trans hproc, hinit⟩
  rw [sysClose, bind_ok (argfd_opened k p)]
  simp only
  have hset : setProc p (fun q => { q with ofile := update q.ofile firstFd none }) k₁ = .ok ((), k2) := rfl
  rw [bind_ok hset, bind_ok hrun]
  rfl

variable {C : Kernel → Op × Option ℤ → Prop}

theorem sbrk_page (hC : ∀ r, C k (.sbrk p PGSIZE, r)) (hk : ((system im).restrict C).Reachable k)
    (hI : Inv im k) (hp : k.InUser p) (hr : (k.proc p).pagetable = some root) (hsz : (k.proc p).sz = PGSIZE)
    (hroom : 3 ≤ k.phys.freelist.length) :
    ∃ r σ, (system im).step k (.sbrk p PGSIZE, r) (k.become σ p { k.proc p with sz := 2 * PGSIZE }) ∧
      ((system im).restrict C).Reachable (k.become σ p { k.proc p with sz := 2 * PGSIZE }) ∧
      Inv im (k.become σ p { k.proc p with sz := 2 * PGSIZE }) ∧
      k.phys.freelist.length ≤ σ.freelist.length + 3 ∧
      ∀ y, y / PGSIZE = 1 → userByte σ.mem root y = some 0 := by
  obtain ⟨ok, k', hrun, -, σ, rfl, hlen, hzero⟩ := (growproc_page hI hr hsz hroom).exists_ok
  have hperform : perform im (.sbrk p PGSIZE) k =
      .ok (some (if ok then ((k.proc p).sz : ℤ) else -1),
        k.become σ p { k.proc p with sz := 2 * PGSIZE }) := by
    rw [perform, bind_ok (get_run _)]
    simp only
    rw [bind_ok hrun]
    rfl
  obtain ⟨hR, hI'⟩ := reachable_perform (.sbrk p PGSIZE) (hC _) hk hI hp trivial hperform
  exact ⟨_, σ, ⟨hp, hperform⟩, hR, hI', hlen, hzero⟩

/-- A process reads some bytes from a device. -/
theorem exists_filled (hC : Permits C) (hk : ((system im).restrict C).Reachable k) (hI : Inv im k)
    (hp : k.InUser p) (hr : (k.proc p).pagetable = some root) (hfile : ∀ i, (k.file i).ref = 0)
    (hfd : ∀ fd, (k.proc p).ofile fd = none) {bs : List Byte} (hpos : 0 < bs.length)
    (hm : ∀ i < bs.length, userPage k.phys.mem root (addr + i) ≠ none) :
    ∃ k', ((system im).restrict C).Reachable k' ∧ Inv im k' ∧ k'.proc = k.proc ∧
      k'.initproc = k.initproc ∧ k'.phys.freelist = k.phys.freelist ∧
      userByte k'.phys.mem root = overlay addr bs (userByte k.phys.mem root) := by
  have hself : ∀ σ, ({ k.opened p with phys := σ } : Kernel).InUser p ∧
      (({ k.opened p with phys := σ } : Kernel).proc p).pagetable = some root := fun σ => by
    simp only [InUser, opened, update_self]
    exact ⟨hp, hr⟩
  obtain ⟨hR1, hI1⟩ := reachable_perform (.openFile p 0 true true false)
    (hC _ _ trivial fun _ hq => some.inj hq ▸ ⟨root, _, hr, hm 0 hpos⟩) hk hI hp trivial
    (bind_ok (sysOpen_first hfile hfd))
  obtain ⟨r, k2, hrun, σ, rfl, hfree, hb⟩ := (sysRead_opened hI1 hr hm).exists_ok
  obtain ⟨hR2, hI2⟩ := reachable_perform (.read p 0 addr bs)
    (hC _ _ trivial fun _ hq => some.inj hq ▸ ⟨root, _, (hself k.phys).2, hm 0 hpos⟩) hR1 hI1
    (hself k.phys).1 trivial (bind_ok hrun)
  obtain ⟨k3, hclose, hphys, hproc, hinit⟩ := sysClose_opened hfd σ
  have hcode : userPage σ.mem root addr ≠ none := fun hn => by
    have h0 := congrFun hb addr
    rw [userByte, hn, overlay, if_pos ⟨le_rfl, by omega⟩] at h0
    cases h0
  obtain ⟨hR3, hI3⟩ := reachable_perform (.close p 0)
    (hC _ _ trivial fun _ hq => some.inj hq ▸ ⟨root, addr, (hself σ).2, hcode⟩) hR2 hI2 (hself σ).1
    trivial (bind_ok hclose)
  exact ⟨k3, hR3, hI3, hproc, hinit, by rw [hphys, hfree], by rw [hphys, hb]⟩

/-- The child of the first process has the string `A`, in a second page. -/
theorem exists_message (hC : Permits C) : ∃ k tf root ctf croot,
    ((system roomyImage).restrict C).Reachable k ∧ Inv roomyImage k ∧
    k.proc = pair tf root { child ctf croot .running with sz := 2 * PGSIZE } ∧
    k.initproc = some initSlot ∧ 3 ≤ k.phys.freelist.length ∧
    Holds (userByte k.phys.mem croot) PGSIZE ([65] ++ [0]) := by
  obtain ⟨k, tf, root, ctf, croot, hk, hc⟩ := exists_childRuns hC
  have hself : k.proc secondSlot = child ctf croot .running := by rw [hc.proc, pair_second]
  have hroot : (k.proc secondSlot).pagetable = some croot := by rw [hself]; rfl
  have hroom := hc.room
  obtain ⟨r1, σ1, -, hR1, hI1, hlen1, hzero1⟩ := sbrk_page
    (fun _ => hC _ _ trivial fun _ hq => some.inj hq ▸ ⟨croot, 0, hroot, hc.code⟩) hk hc.inv
    (by rw [InUser, hself]; exact ⟨rfl, rfl⟩) hroot (by rw [hself]; rfl) (by omega)
  set k₁ := k.become σ1 secondSlot { k.proc secondSlot with sz := 2 * PGSIZE } with hk1
  have hself1 : k₁.proc secondSlot = { child ctf croot .running with sz := 2 * PGSIZE } := by
    rw [hk1, become_proc_self, hself]
  have hmapped : ∀ i < [(65 : Byte), 0].length, userPage k₁.phys.mem croot (PGSIZE + i) ≠ none :=
    fun i hi hn => by
      have h := hzero1 (PGSIZE + i) (by
        rw [length_cons, length_singleton] at hi
        unfold PGSIZE
        omega)
      have hn' : userPage σ1.mem croot (PGSIZE + i) = none := hn
      rw [userByte, hn'] at h
      exact absurd h (by simp)
  obtain ⟨k2, hR2, hI2, hproc2, hinit2, hfree2, hb2⟩ := exists_filled hC hR1 hI1 (p := secondSlot)
    (by rw [InUser, hself1]; exact ⟨rfl, rfl⟩) (by rw [hself1]; rfl) hc.file
    (fun fd => by rw [hself1]; rfl) (by decide) hmapped
  refine ⟨k2, tf, root, ctf, croot, hR2, hI2, ?_, hinit2.trans hc.initproc, ?_, fun i hi => ?_⟩
  · rw [hproc2, hk1]
    simp only [become, hself, hc.proc, pair, update_idem]
  · rw [hfree2]
    change 3 ≤ σ1.freelist.length
    omega
  · rw [hb2, overlay, if_pos ⟨by omega, by simpa using hi⟩, Nat.add_sub_cancel_left]
    rfl

theorem exists_collects : ∃ k k' root,
    Collects roomyImage k k' initSlot secondSlot root 0 0 0 [65] (some 2) ∧
    (bootable roomyImage).Reachable k ∧
    (system roomyImage).step k (.wait initSlot 0 PGSIZE (.fill 32 0), some 2) k' ∧
    userByte k.phys.mem root PGSIZE = some 0 := by
  obtain ⟨k2, tf, root, ctf, croot, hR2, hI2, hpair2, hinit2, hroom2, hstring⟩ :=
    exists_message permits_affords
  -- the child exits
  obtain ⟨k3, msg, hexit, hI3, hphys3, hproc3⟩ := exists_exit hI2 hpair2 rfl hinit2 0 PGSIZE
  have hexit' : (bootable roomyImage).step k2 (.exit secondSlot 0 PGSIZE (.fill 32 0), none) k3 :=
    ⟨trivial, hexit⟩
  have hR3 := hR2.step hexit'
  have hinit3 : k3.proc initSlot = initRunning tf root := by rw [hproc3, pair_init]
  have hfound3 : k3.foundChild initSlot = some secondSlot := by
    rw [foundChild, zombieChild, hproc3]
    rfl
  -- the first process gets a page
  obtain ⟨r4, σ4, hst4, hR4, hI4, -, hzero4⟩ := sbrk_page (p := initSlot) (fun _ => trivial) hR3 hI3
    (by rw [InUser, hinit3]; exact ⟨rfl, rfl⟩) (by rw [hinit3]; rfl) (by rw [hinit3]; rfl) (by rwa [hphys3])
  set k4 := k3.become σ4 initSlot { k3.proc initSlot with sz := 2 * PGSIZE } with hk4
  have hkin4 : ∀ r, SameKin (k3.proc r) (k4.proc r) := fun r =>
    sameKin_become (q := { k3.proc initSlot with sz := 2 * PGSIZE }) ⟨rfl, rfl, rfl⟩ r
  have hfound4 : k4.foundChild initSlot = some secondSlot := (foundChild_congr hkin4).trans hfound3
  have hself4 : k4.proc initSlot = { initRunning tf root with sz := 2 * PGSIZE } := by
    rw [hk4, become_proc_self, hinit3]
  have hpid4 : (k4.proc secondSlot).pid = 2 := by
    rw [hk4, become_proc_of_ne (by decide), hproc3, pair_second]
    rfl
  have hroot4 : (k4.proc initSlot).pagetable = some root := by rw [hself4]; rfl
  have hbyte4 : userByte k4.phys.mem root PGSIZE = some 0 := hzero4 PGSIZE (by decide)
  -- and waits
  obtain ⟨k5, hst5⟩ := wait_step_of_found hI4 (p := initSlot)
    (by rw [InUser, hself4]; exact ⟨rfl, rfl⟩) hroot4 hfound4 PGSIZE (.fill 32 0)
  rw [hpid4] at hst5
  refine ⟨k4, k5, root, ⟨?_, by decide, by decide, hroot4, fun h => absurd rfl h, hfound4, ?_⟩, hR4, hst5,
    hbyte4⟩
  · refine ⟨k2, k3, croot, PGSIZE, .fill 32 0, none, [(.sbrk initSlot PGSIZE, r4)], hR2, ?_, hstring, hexit',
      .cons ⟨trivial, hst4⟩ (.nil _)⟩
    rw [hpair2, pair_second]
    rfl
  · exact ⟨.wait initSlot 0 PGSIZE (.fill 32 0), ⟨rfl, rfl, by rw [fetched, hbyte4]; rfl⟩, hst5⟩

/-- The message `A` does not reach the buffer. -/
theorem message_lost : ∃ k k' root,
    Collects roomyImage k k' initSlot secondSlot root 0 0 0 [65] (some 2) ∧
    (system roomyImage).step k (.wait initSlot 0 PGSIZE (.fill 32 0), some 2) k' ∧
    userByte k'.phys.mem root PGSIZE = some 0 ∧
    ¬ Delivered (userByte k.phys.mem root) (userByte k'.phys.mem root) 0 PGSIZE 0 [65] := by
  obtain ⟨k, k', root, hcol, hk, hst, hbyte⟩ := exists_collects
  have hafter : userByte k'.phys.mem root PGSIZE = some 0 := by
    obtain ⟨op, hop, hst'⟩ := hcol.step
    obtain ⟨k₀, k₁, root₀, va, junk, r₀, ls, hk₀, hroot₀, hm, hexit, hrun⟩ := hcol.exited
    obtain ⟨hz, -, hmsg⟩ := exit_message hroot₀ hcol.notMem hcol.length hm hexit.2
    obtain ⟨-, -, hmsg'⟩ := zombie_stays (hk₀.step hexit).of_restrict hrun.of_restrict hz
    rw [(wait_bytes (Inv.of_reachable hk) (blank_of_reachable hk.of_restrict) hcol.table hop hcol.mapped
      hst').2, hcol.found, scanBytes, hmsg', hmsg, laidStatus, if_pos rfl, laidMessage_miss, hbyte]
    rintro ⟨-, -, h⟩
    exact absurd h (by decide)
  refine ⟨k, k', root, hcol, hst, hafter, fun hd => ?_⟩
  have h := hd.message (by decide) 0 (by decide)
  rw [add_zero, hafter] at h
  exact absurd h (by decide)

/-- The first process collects its child. -/
theorem message_delivered_init : ∃ k k' root,
    Collects roomyImage k k' initSlot secondSlot root 0 0 0 [65] (some 2) ∧
    ∀ va, (Delivered (userByte k.phys.mem root) (userByte k'.phys.mem root) 0 va 0 [65] ↔
      Lucky (userByte k.phys.mem root) 0 va 0 0 [65]) := by
  obtain ⟨k, k', root, hcol, -⟩ := exists_collects
  exact ⟨k, k', root, hcol, ((message_delivered roomyImage).1 k k' _ _ root 0 0 0 [65] _ hcol).2⟩

end Kernel

end Xv6
