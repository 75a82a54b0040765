import Xv6.Ipc.Pipe
import Xv6.Vm.Bytewise

/-!
# Ipc/Piperead — what `piperead` takes out of a pipe, and what it delivers

The second loop of `piperead` advances `nread` and then copies the byte out: when the copy fails,
the byte is lost.  `pipereadLoop` is the loop with the reader's memory; `delivering` adds to the
system of `Ipc/Pipe` the bytes that were copied out.
-/

namespace Xv6

open Machinery Function List Option Exec

/-- The ring of a pipe. -/
structure PipeBuf where
  data : ℕ → Byte
  nread : ℕ
  nwrite : ℕ

namespace PipeBuf

def bytes (pi : PipeBuf) : List Byte := Ring.contents (2 ^ 32) PIPESIZE pi.data pi.nread pi.nwrite

/-- `pi->data[pi->nread % PIPESIZE]`. -/
def head (pi : PipeBuf) : Byte := pi.data (pi.nread % PIPESIZE)

/-- `pi->nread++`. -/
def pop (pi : PipeBuf) : PipeBuf := { pi with nread := (pi.nread + 1) % 2 ^ 32 }

/-- The counters are `uint`s. -/
structure Ok (pi : PipeBuf) : Prop where
  nread_lt : pi.nread < 2 ^ 32
  nwrite_lt : pi.nwrite < 2 ^ 32

variable {pi : PipeBuf}

theorem Ok.pop (h : pi.Ok) : pi.pop.Ok := ⟨Nat.mod_lt _ (by norm_num), h.nwrite_lt⟩

theorem Ok.bytes_eq_nil (h : pi.Ok) : pi.bytes = [] ↔ pi.nread = pi.nwrite := by
  rw [← length_eq_zero_iff, bytes, Ring.length_contents, Ring.count_eq_zero h.nread_lt h.nwrite_lt]

theorem Ok.bytes_pop (h : pi.Ok) (hne : pi.nread ≠ pi.nwrite) : pi.bytes = pi.head :: pi.pop.bytes :=
  Ring.contents_pop pi.data (by norm_num [PIPESIZE]) h.nread_lt h.nwrite_lt hne

end PipeBuf

/-- A pipe and the memory of its reader. -/
structure PipeIo where
  pipe : PipeBuf
  phys : Phys

/-- `copyout` by the reader. -/
def PipeIo.copyout (root va : ℕ) (src : List Byte) : Exec KPanic PipeIo Bool :=
  (Xv6.copyout root va src).zoom id PipeIo.phys fun s σ => { s with phys := σ }

/-- The second loop of `piperead`: its `i` at the end. -/
def pipereadLoop (root addr : ℕ) (n : ℤ) : (fuel i : ℕ) → Exec KPanic PipeIo ℕ
  | 0, i => return i
  | fuel + 1, i => do
    let s ← get
    if i < n ∧ s.pipe.nread ≠ s.pipe.nwrite then
      set { s with pipe := s.pipe.pop }
      if ← PipeIo.copyout root (uaddr addr i) [s.pipe.head] then pipereadLoop root addr n fuel (i + 1)
      else return i
    else return i

/-- `piperead` after its first loop: the process was killed, or the pipe is as it finds it. -/
def piperead (root addr : ℕ) (n : ℤ) (killed : Bool) : Exec KPanic PipeIo ℤ := do
  if killed then return -1
  else return (← pipereadLoop root addr n n.toNat 0)

section Loop

variable {root addr : ℕ} {n : ℤ} {pi : PipeBuf} {σ : Phys}

theorem copyout_byte (h : Apart σ.mem root) (x : ℕ) (b : Byte) :
    PipeIo.copyout root x [b] ⟨pi, σ⟩ =
      if userPage σ.mem root x = none then .ok (false, ⟨pi, σ⟩)
      else .ok (true, ⟨pi, pokes σ.mem root x [b] σ⟩) := by
  rw [PipeIo.copyout, Exec.zoom, h.copyout_run, length_singleton, reach]
  split_ifs
  · rfl
  · rfl

/-- **The loop stores bytes while their addresses are mapped, and takes one more.** -/
theorem pipereadLoop_run (haddr : addr < 2 ^ 64) (h : Apart σ.mem root) (hpi : pi.Ok) (fuel i : ℕ)
    (hfuel : n.toNat ≤ i + fuel) (hsofar : ∀ l < i, userPage σ.mem root (addr + l) ≠ none) :
    ∃ j pi', pipereadLoop root addr n fuel i ⟨pi, σ⟩ =
        .ok (i + j, ⟨pi', pokes σ.mem root (addr + i) (pi.bytes.take j) σ⟩) ∧
      j = reach σ.mem root (addr + i) (min (n.toNat - i) pi.bytes.length) ∧ pi'.Ok ∧
      pi'.bytes = pi.bytes.drop (if j < min (n.toNat - i) pi.bytes.length then j + 1 else j) := by
  induction fuel generalizing i pi σ with
  | zero =>
    refine ⟨0, pi, rfl, ?_, hpi, ?_⟩
    · rw [show n.toNat - i = 0 by omega, Nat.zero_min, reach]
    · rw [show n.toNat - i = 0 by omega, Nat.zero_min, if_neg (lt_irrefl 0), drop_zero]
  | succ fuel ih =>
    rw [pipereadLoop, bind_ok (get_run _)]
    by_cases hgo : (i : ℤ) < n ∧ pi.nread ≠ pi.nwrite
    · have hcons := hpi.bytes_pop hgo.2
      have hmin : min (n.toNat - i) pi.bytes.length = min (n.toNat - (i + 1)) pi.pop.bytes.length + 1 := by
        rw [hcons, length_cons]
        omega
      have hx : uaddr addr i = addr + i := uaddr_eq haddr i hsofar
      rw [if_pos hgo, bind_ok (show (set _ : Exec KPanic PipeIo PUnit) _ = .ok ((), _) from rfl), hx]
      by_cases hmap : userPage σ.mem root (addr + i) = none
      · rw [bind_ok ((copyout_byte h _ _).trans (if_pos hmap))]
        refine ⟨0, pi.pop, rfl, ?_, hpi.pop, ?_⟩
        · rw [hmin, reach, if_pos hmap]
        · rw [hmin, if_pos (Nat.succ_pos _), hcons, drop_succ_cons, drop_zero]
      · rw [bind_ok ((copyout_byte h _ _).trans (if_neg hmap))]
        have hpage := userPage_congr (h.sameTable (addr + i) [pi.head])
        obtain ⟨j, pi', hrun, hj, hok, hbytes⟩ := ih (h.pokes (addr + i) [pi.head]) hpi.pop (i + 1)
          (by omega) fun l hl => by
            rw [hpage]
            rcases Nat.lt_succ_iff_lt_or_eq.1 hl with hl | rfl
            · exact hsofar l hl
            · exact hmap
        rw [reach_congr hpage] at hj
        rw [pokes_congr hpage, ← add_assoc] at hrun
        refine ⟨j + 1, pi', ?_, ?_, hok, ?_⟩
        · rw [if_pos rfl, hrun, hcons, take_succ_cons, pokes, pokes, pokes]
          congr 2
          omega
        · rw [hmin, reach, if_neg hmap, hj, add_assoc]
        · rw [hbytes, hmin, hcons]
          split_ifs with h1 h2 h2
          · rw [drop_succ_cons]
          · omega
          · omega
          · rw [drop_succ_cons]
    · rw [if_neg hgo]
      have hzero : min (n.toNat - i) pi.bytes.length = 0 := by
        rw [not_and_or, not_not, ← hpi.bytes_eq_nil] at hgo
        rcases hgo with hn | hnil
        · rw [show n.toNat - i = 0 by omega, Nat.zero_min]
        · rw [hnil, length_nil, Nat.min_zero]
      refine ⟨0, pi, rfl, ?_, hpi, ?_⟩
      · rw [hzero, reach]
      · rw [hzero, if_neg (lt_irrefl 0), drop_zero]

/-- **`piperead` delivers the bytes up to the first unmapped address, and loses the next one.** -/
theorem piperead_run (haddr : addr < 2 ^ 64) (h : Apart σ.mem root) (hpi : pi.Ok) :
    ∃ (j : ℕ) (pi' : PipeBuf), piperead root addr n false ⟨pi, σ⟩ =
        .ok ((j : ℤ), ⟨pi', pokes σ.mem root addr (pi.bytes.take j) σ⟩) ∧
      j = reach σ.mem root addr (min n.toNat pi.bytes.length) ∧ pi'.Ok ∧
      pi'.bytes = pi.bytes.drop (if j < min n.toNat pi.bytes.length then j + 1 else j) := by
  obtain ⟨j, pi', hrun, hj, hok, hbytes⟩ := pipereadLoop_run (n := n) haddr h hpi n.toNat 0 (by omega)
    fun l hl => absurd hl (Nat.not_lt_zero l)
  rw [zero_add, add_zero] at hrun
  refine ⟨j, pi', ?_, hj, hok, hbytes⟩
  rw [piperead, if_neg Bool.false_ne_true, bind_ok hrun]
  rfl

end Loop

/-! ## What many readers are given -/

namespace PipeSys

variable {n : ℕ} {rel : Bool} {s t : PipeSys n} {d : List Byte} {op : PipeOp n}

def takes (s : PipeSys n) : PipeOp n → List Byte
  | .go p _ =>
    match s.pc p with
    | .copy i len => if i < len ∧ s.nread ≠ s.nwrite then [s.data (s.nread % PIPESIZE)] else []
    | _ => []
  | _ => []

/-- The byte that a step stores into the memory of a reader. -/
def delivers (s : PipeSys n) : PipeOp n → List Byte
  | .go p (some ch) => s.takes (.go p (some ch))
  | _ => []

/-- A byte has been taken, and `copyout` fails. -/
def Loses (s : PipeSys n) (op : PipeOp n) : Prop := s.takes op ≠ s.delivers op

def nextDelivering (rel : Bool) (c : PipeSys n × List Byte) (op : PipeOp n) : Option (PipeSys n × List Byte) :=
  (c.1.next rel op).map fun t => (t, c.2 ++ c.1.delivers op)

def delivering (n : ℕ) (rel : Bool) : System (PipeSys n × List Byte) (PipeOp n) :=
  .ofNext (fun c => (∃ data, c.1 = start data) ∧ c.2 = []) (nextDelivering rel)

theorem taken_go {p : Fin n} {user : Option Byte} (hst : s.go p user = some t) :
    t.taken = s.taken ++ s.takes (.go p user) := by
  rw [takes]
  unfold go at hst
  cases hpc : s.pc p with
  | copy i len =>
    rw [hpc] at hst
    obtain rfl := some.inj hst
    dsimp only
    unfold copyBody
    split_ifs
    · cases user with
      | none => rfl
      | some ch => rfl
    · exact (append_nil _).symm
  | wakeup c scan next =>
    rw [hpc] at hst
    dsimp only
    rw [append_nil]
    cases scan with
    | nil => cases next <;> exact some.inj hst ▸ rfl
    | cons q scan =>
      dsimp only at hst
      split_ifs at hst
      · exact some.inj hst ▸ rfl
      · obtain rfl := some.inj hst
        change (s.wakeupBody c q).taken = _
        rw [wakeupBody]
        split_ifs <;> rfl
  | writeTest i len fresh =>
    rw [hpc] at hst
    obtain rfl := some.inj hst
    dsimp only
    rw [append_nil]
    unfold writeBody
    split_ifs
    · rfl
    · cases user with
      | none => rfl
      | some ch => rfl
  | _ =>
    rw [hpc] at hst
    dsimp only at hst ⊢
    rw [append_nil]
    try split_ifs at hst
    all_goals cases hst <;> rfl

theorem taken_next (hst : s.next rel op = some t) : t.taken = s.taken ++ s.takes op := by
  cases op with
  | go p user => exact taken_go hst
  | close p writable =>
    obtain ⟨-, rfl⟩ := of_guard hst
    change _ = s.taken ++ []
    rw [append_nil, closeBody]
    split_ifs <;> rfl
  | dispatch p =>
    rw [next] at hst
    split at hst
    · obtain ⟨-, rfl⟩ := of_guard hst
      exact (append_nil _).symm
    · cases hst
  | kill p =>
    obtain ⟨-, rfl⟩ := of_guard hst
    change _ = s.taken ++ []
    rw [append_nil]
    split_ifs <;> rfl
  | write p len | read p len | handOver p =>
    obtain ⟨-, rfl⟩ := of_guard hst
    exact (append_nil _).symm

/-- **As long as no copy of a byte to a reader fails, what has been delivered is what was taken.** -/
theorem delivered_eq (h : ((delivering n rel).restrict fun c op => ¬ c.1.Loses op).Reachable (s, d)) :
    RingInv s ∧ d = s.taken := by
  refine h.invariant (I := fun c => RingInv c.1 ∧ c.2 = c.1.taken) (fun c hc => ?_) fun c op c' _ ih hst => ?_
  · obtain ⟨⟨data, hdata⟩, hnil⟩ := hc
    rw [hnil, hdata]
    exact ⟨.start data, rfl⟩
  · obtain ⟨hkeep, hst⟩ := hst
    obtain ⟨t, ht, rfl⟩ := map_eq_some_iff.1 hst
    refine ⟨ih.1.next ht, ?_⟩
    rw [taken_next ht, not_not.1 hkeep, ih.2]

def ring (s : PipeSys n) : PipeBuf := ⟨s.data, s.nread, s.nwrite⟩

/-- **The second loop of `piperead` is a run of the system**, whichever copy fails. -/
theorem copy_run (j : ℕ) {p : Fin n} {i : ℕ} {len : ℤ} (hpc : s.pc p = .copy i len) (hok : s.ring.Ok)
    (hj : j ≤ min (len.toNat - i) s.bytes.length) :
    ∃ t, (delivering n rel).Run (s, d) (List.replicate j (.go p (some 0)) ++ [.go p none])
        (t, d ++ s.bytes.take j) ∧ t.pc p = .wakeup .nwrite (List.finRange n) .leave ∧
      t.bytes = s.bytes.drop (if j < min (len.toNat - i) s.bytes.length then j + 1 else j) := by
  induction j generalizing s d i with
  | zero =>
    have hgo : s.next rel (.go p none) = some (s.copyBody p i len none) := by
      rw [next, go, hpc]
    refine ⟨s.copyBody p i len none, .cons (map_eq_some_iff.2 ⟨_, hgo, ?_⟩) (.nil _), ?_, ?_⟩
    · rfl
    · rw [copyBody]
      split_ifs
      · exact update_self ..
      · exact update_self ..
    · rw [copyBody]
      split_ifs with h1 h2 h2
      · rw [show s.bytes = s.ring.bytes from rfl, hok.bytes_pop h1.2]
        rfl
      · refine absurd (Nat.pos_of_ne_zero fun hzero => ?_) h2
        rcases Nat.min_eq_zero_iff.1 hzero with hz | hz
        · omega
        · exact h1.2 (hok.bytes_eq_nil.1 (length_eq_zero_iff.1 hz))
      · refine absurd ⟨by omega, fun heq => ?_⟩ h1
        rw [show s.bytes = s.ring.bytes from rfl, hok.bytes_eq_nil.2 heq] at h2
        exact absurd h2 (by rw [length_nil, Nat.min_zero]; exact lt_irrefl 0)
      · rfl
  | succ j ih =>
    have hne : s.nread ≠ s.nwrite := fun heq => by
      rw [show s.bytes = s.ring.bytes from rfl, hok.bytes_eq_nil.2 heq, length_nil, Nat.min_zero] at hj
      exact absurd hj (Nat.not_succ_le_zero j)
    have hmore : (i : ℤ) < len ∧ s.nread ≠ s.nwrite := ⟨by omega, hne⟩
    have hcons : s.bytes = s.ring.head :: s.take.bytes := hok.bytes_pop hne
    have hgo : s.next rel (.go p (some 0)) = some (s.take.goto p (.copy (i + 1) len)) := by
      rw [next, go, hpc]
      exact congrArg some (if_pos hmore)
    have hdel : s.delivers (.go p (some 0)) = [s.ring.head] := by
      rw [delivers, takes, hpc]
      exact if_pos hmore
    obtain ⟨t, hrun, htpc, hbytes⟩ := ih (s := s.take.goto p (.copy (i + 1) len)) (d := d ++ [s.ring.head])
      (update_self ..) hok.pop (by
        rw [hcons, length_cons] at hj
        change j ≤ min (len.toNat - (i + 1)) s.take.bytes.length
        omega)
    refine ⟨t, .cons (map_eq_some_iff.2 ⟨_, hgo, rfl⟩) ?_, htpc, ?_⟩
    · rw [append_assoc, singleton_append] at hrun
      rw [hdel, hcons, take_succ_cons]
      exact hrun
    · rw [hbytes, hcons]
      change List.drop (if j < min (len.toNat - (i + 1)) s.take.bytes.length then j + 1 else j) s.take.bytes = _
      rw [length_cons]
      split_ifs with h1 h2 h2
      · rw [drop_succ_cons]
      · omega
      · omega
      · rw [drop_succ_cons]

/-- The pipe has one byte. -/
theorem copy_run_one : ∃ s t : PipeSys 1, s.bytes = [7] ∧
    (delivering 1 true).Run (s, []) [.go 0 (some 0), .go 0 none] (t, [7]) := by
  obtain ⟨t, hrun, -⟩ := @copy_run 1 true { start fun _ => 7 with nwrite := 1, pc := fun _ => .copy 0 2 } []
    1 0 0 2 rfl ⟨by decide, by decide⟩ (by decide)
  exact ⟨_, t, by decide, hrun⟩

end PipeSys

/-- **`piperead` stores as many bytes as it reports, and takes as many if and only if all the addresses that
it comes to are mapped.**  As long as no reader meets an address that is not, all that was delivered is the
beginning of all that was accepted. -/
theorem piperead_delivers {root addr : ℕ} {pi : PipeBuf} {σ : Phys} (haddr : addr < 2 ^ 64)
    (h : Apart σ.mem root) (hpi : pi.Ok) (len : ℤ) (killed : Bool) :
    (∃ r pi', piperead root addr len killed ⟨pi, σ⟩ =
        .ok (r, ⟨pi', pokes σ.mem root addr (pi.bytes.take r.toNat) σ⟩) ∧
      (pi'.bytes = pi.bytes.drop r.toNat ↔
        killed = true ∨ ∀ i < min len.toNat pi.bytes.length, userPage σ.mem root (addr + i) ≠ none)) ∧
    ∀ n rel, ∀ s : PipeSys n, ∀ d,
      ((PipeSys.delivering n rel).restrict fun c op => ¬ c.1.Loses op).Reachable (s, d) → d <+: s.accepted := by
  refine ⟨?_, fun n rel s d hs => ?_⟩
  · cases killed with
    | true => exact ⟨-1, pi, rfl, iff_of_true rfl (.inl rfl)⟩
    | false =>
      obtain ⟨j, pi', hrun, hj, -, hbytes⟩ := piperead_run (n := len) haddr h hpi
      refine ⟨j, pi', hrun, ?_⟩
      have hle : j ≤ min len.toNat pi.bytes.length := hj.trans_le (reach_le _ _)
      rw [hbytes, Int.toNat_natCast, ← reach_eq_iff, ← hj]
      split_ifs with hlt
      · refine iff_of_false (fun heq => ?_) (not_or.2 ⟨nofun, hlt.ne⟩)
        have hlen := congrArg List.length heq
        rw [List.length_drop, List.length_drop] at hlen
        omega
      · exact iff_of_true rfl (.inr (le_antisymm hle (not_lt.1 hlt)))
  · obtain ⟨hring, rfl⟩ := PipeSys.delivered_eq hs
    exact ⟨s.bytes, hring.fifo.symm⟩

/-- Two bytes are written; a read of one byte to an address that is not mapped returns 0, and the next read
gets the second byte: the first is lost. -/
theorem piperead_loses :
    (∃ io', piperead 1 0 1 false ⟨⟨fun k => if k = 0 then 7 else 8, 0, 2⟩, lastTwo 0 0⟩ = .ok (0, io') ∧
      io'.pipe.bytes = [8]) ∧
    ∃ s d, (PipeSys.delivering 2 false).Reachable (s, d) ∧ s.accepted = [7, 8] ∧ d = [8] ∧
      ¬ d <+: s.accepted := by
  constructor
  · obtain ⟨j, pi', hrun, hj, -, hbytes⟩ := piperead_run (n := 1) (show 0 < 2 ^ 64 by decide)
      (lastTwo_apart 0 0 (by decide) (by decide))
      (show PipeBuf.Ok ⟨fun k => if k = 0 then 7 else 8, 0, 2⟩ from ⟨by decide, by decide⟩)
    have hj0 : j = 0 := hj.trans (by decide +kernel)
    subst hj0
    exact ⟨_, hrun, hbytes.trans (by decide +kernel)⟩
  · let ls : List (PipeOp 2) := [.write 0 2, .go 0 none, .go 0 (some 7), .go 0 none, .go 0 (some 8),
      .go 0 none, .go 0 none, .go 0 none, .go 0 none, .go 0 none,
      .read 1 1, .go 1 none, .go 1 none, .go 1 none, .go 1 none, .go 1 none, .go 1 none,
      .read 1 1, .go 1 none, .go 1 (some 0)]
    obtain ⟨c, hc⟩ : ∃ c, System.execute (PipeSys.nextDelivering false) (PipeSys.start fun _ => 0, []) ls =
      some c := ⟨_, rfl⟩
    have hr : (PipeSys.delivering 2 false).Reachable c := .run (.of_execute hc) (.init ⟨⟨_, rfl⟩, rfl⟩)
    cases hc
    exact ⟨_, _, hr, rfl, rfl, by decide⟩

/-- Two bytes are read into two pages. -/
theorem piperead_delivers_two : 510 * PGSIZE + 4095 < 2 ^ 64 ∧
    ∃ r pi', piperead 1 (510 * PGSIZE + 4095) 2 false
        ⟨⟨fun k => if k = 0 then 7 else 8, 0, 2⟩, lastTwo (mkPte 4 22) (mkPte 5 22)⟩ =
      .ok (r, ⟨pi', pokes (lastTwo (mkPte 4 22) (mkPte 5 22)).mem 1 (510 * PGSIZE + 4095)
        (PipeBuf.bytes ⟨fun k => if k = 0 then 7 else 8, 0, 2⟩ |>.take r.toNat)
        (lastTwo (mkPte 4 22) (mkPte 5 22))⟩) ∧
      pi'.bytes = (PipeBuf.bytes ⟨fun k => if k = 0 then 7 else 8, 0, 2⟩).drop r.toNat := by
  obtain ⟨⟨r, pi', hrun, hiff⟩, -⟩ := piperead_delivers
    (show 510 * PGSIZE + 4095 < 2 ^ 64 by decide)
    (lastTwo_apart (mkPte 4 22) (mkPte 5 22) (by decide) (by decide))
    (show PipeBuf.Ok ⟨fun k => if k = 0 then 7 else 8, 0, 2⟩ from ⟨by decide, by decide⟩) 2 false
  exact ⟨by decide, r, pi', hrun, hiff.2 (.inr (by decide +kernel))⟩

end Xv6
