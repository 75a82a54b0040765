import Xv6.Machinery.Bytes
import Xv6.Machinery.Ring
import Xv6.Machinery.Runs

/-!
# Ipc/Console — the line discipline of `kernel/console.c`

`consoleintr` edits the uncommitted end of a ring buffer, and processes in `consoleread` consume its
committed part.  A step is `consoleintr` or one round of the loop in `consoleread`; a sleeping
reader may wake up at any time.  `[r, w)` is committed and `[w, e)` is being edited; `Line` is the
same without a ring.
-/

namespace Xv6

open Machinery Function List Option

def INPUT_BUF_SIZE : ℕ := 128

/-- `C(x)`, the control character of a key. -/
def ctrl (x : Byte) : Byte := x - 64

def CTRL_D : Byte := ctrl 68
def CTRL_H : Byte := ctrl 72
def CTRL_P : Byte := ctrl 80
def CTRL_U : Byte := ctrl 85
/-- `'\x7f'`. -/
def DEL : Byte := 127
/-- `'\n'` and `'\r'`. -/
def NL : Byte := 10
def CR : Byte := 13

/-- `cons`: the buffer and its `uint` indices. -/
structure Cons where
  buf : ℕ → Byte
  r : ℕ
  w : ℕ
  e : ℕ

namespace Cons

/-- `x - 1` on `uint`. -/
def pred (x : ℕ) : ℕ := (2 ^ 32 - 1 + x) % 2 ^ 32

/-- `cons.e--`. -/
def back (s : Cons) : Cons := { s with e := pred s.e }

/-- The loop of `case C('U')`. -/
def killLoop : ℕ → Cons → Cons
  | 0, s => s
  | k + 1, s =>
    if s.e ≠ s.w ∧ s.buf (pred s.e % INPUT_BUF_SIZE) ≠ NL then killLoop k s.back else s

/-- A character is stored, and the line committed if it is at its end. -/
def store (s : Cons) (c : Byte) : Cons :=
  let e := (s.e + 1) % 2 ^ 32
  { buf := update s.buf (s.e % INPUT_BUF_SIZE) c
    r := s.r
    w := if c = NL ∨ c = CTRL_D ∨ Ring.count (2 ^ 32) s.r e = INPUT_BUF_SIZE then e else s.w
    e := e }

/-- `consoleintr`; the echo is left out. -/
def intr (s : Cons) (c : Byte) : Cons :=
  if c = CTRL_P then s
  else if c = CTRL_U then killLoop (Ring.count (2 ^ 32) s.w s.e) s
  else if c = CTRL_H ∨ c = DEL then if s.e ≠ s.w then s.back else s
  else if c ≠ 0 ∧ Ring.count (2 ^ 32) s.r s.e < INPUT_BUF_SIZE then s.store (if c = CR then NL else c)
  else s

end Cons

/-! ## The line editor without a ring -/

/-- All that was ever committed, and the line being edited. -/
structure Line where
  committed : List Byte
  edit : List Byte
  deriving DecidableEq, Repr

namespace Line

/-- The keys that edit or are not for the line: control-P, control-U, control-H and delete. -/
def IsKey (c : Byte) : Prop := c = CTRL_P ∨ c = CTRL_U ∨ c = CTRL_H ∨ c = DEL

/-- A character is added to a line of which `unread` committed bytes are still to be read. -/
def add (unread : ℕ) (l : Line) (c : Byte) : Line :=
  if c = NL ∨ c = CTRL_D ∨ unread + (l.edit.length + 1) = INPUT_BUF_SIZE then
    ⟨l.committed ++ (l.edit ++ [c]), []⟩
  else { l with edit := l.edit ++ [c] }

def type (unread : ℕ) (l : Line) (c : Byte) : Line :=
  if c = CTRL_P then l
  else if c = CTRL_U then { l with edit := [] }
  else if c = CTRL_H ∨ c = DEL then { l with edit := l.edit.dropLast }
  else if c ≠ 0 ∧ unread + l.edit.length < INPUT_BUF_SIZE then l.add unread (if c = CR then NL else c)
  else l

end Line

/-! ## The readers -/

/-- A call of `consoleread`: its `target`, its `n`, and what it has delivered. -/
structure Reading where
  target : ℤ
  n : ℤ
  got : List Byte
  deriving DecidableEq, Repr

/-- Why a read returns. -/
inductive ReadEnd
  | count
  | newline
  | fault
  | killed
  | eof
  deriving DecidableEq, Repr

/-- A read that has returned: what it delivered and what it consumed. -/
structure ReadRecord where
  target : ℤ
  delivered : List Byte
  eaten : List Byte
  how : ReadEnd
  ret : ℤ
  deriving DecidableEq, Repr

/-- Where a process is. -/
inductive ConsPc
  | outside
  /-- At `while(n > 0)`, with `cons.lock`. -/
  | loop (rd : Reading)
  /-- In `sleep(&cons.r, &cons.lock)`. -/
  | asleep (rd : Reading)
  deriving DecidableEq, Repr

def ConsPc.got : ConsPc → List Byte
  | .outside => []
  | .loop rd => rd.got
  | .asleep rd => rd.got

/-- The console and its readers.  Ghosts: the line without a ring, the bytes consumed and by whom,
and the reads that have returned. -/
structure ConsSys (n : ℕ) where
  cons : Cons
  lk : Option (Fin n)
  pc : Fin n → ConsPc
  line : Line
  consumed : List (Fin n × Byte)
  reads : List (Fin n × ReadRecord)

/-- What is `p`'s in a list. -/
def ofProc {n : ℕ} {α : Type} (p : Fin n) (l : List (Fin n × α)) : List α :=
  (l.filter fun x => x.1 = p).map Prod.snd

/-- What can happen next. -/
inductive ConsOp (n : ℕ)
  /-- `consoleintr(c)`. -/
  | intr (c : Byte)
  /-- `consoleread` of `len` bytes. -/
  | read (p : Fin n) (len : ℤ)
  /-- A round of the loop; what `either_copyout` and `killed` would say. -/
  | go (p : Fin n) (copied killed : Bool)
  /-- `sleep` returns, with the lock. -/
  | wake (p : Fin n)
  deriving DecidableEq, Repr

namespace ConsSys

variable {n : ℕ}

def start (buf : ℕ → Byte) : ConsSys n where
  cons := ⟨buf, 0, 0, 0⟩
  lk := none
  pc _ := .outside
  line := ⟨[], []⟩
  consumed := []
  reads := []

def unread (s : ConsSys n) : ℕ := s.line.committed.length - s.consumed.length

def intr (s : ConsSys n) (c : Byte) : ConsSys n :=
  { s with cons := s.cons.intr c, line := s.line.type s.unread c }

/-- `cons.buf[cons.r % INPUT_BUF_SIZE]`. -/
def head (s : ConsSys n) : Byte := s.cons.buf (s.cons.r % INPUT_BUF_SIZE)

/-- `cons.r++`. -/
def take (s : ConsSys n) (p : Fin n) : ConsSys n :=
  { s with
    cons := { s.cons with r := (s.cons.r + 1) % 2 ^ 32 }
    consumed := s.consumed ++ [(p, s.head)] }

/-- `cons.r--`. -/
def untake (s : ConsSys n) : ConsSys n :=
  { s with
    cons := { s.cons with r := Cons.pred s.cons.r }
    consumed := s.consumed.dropLast }

/-- `release(&cons.lock); return ret`, when `extra` was consumed and not delivered. -/
def finish (s : ConsSys n) (p : Fin n) (rd : Reading) (extra : List Byte) (how : ReadEnd) (ret : ℤ) :
    ConsSys n :=
  { s with
    lk := none
    pc := update s.pc p .outside
    reads := s.reads ++ [(p, ⟨rd.target, rd.got, rd.got ++ extra, how, ret⟩)] }

def goChar (s : ConsSys n) (p : Fin n) (rd : Reading) (copied : Bool) : ConsSys n :=
  let c := s.head
  if c = CTRL_D then
    if rd.n < rd.target then (s.take p).untake.finish p rd [] .eof (rd.target - rd.n)
    else (s.take p).finish p rd [c] .eof (rd.target - rd.n)
  else if copied = false then (s.take p).finish p rd [c] .fault (rd.target - rd.n)
  else
    let rd' : Reading := { rd with n := rd.n - 1, got := rd.got ++ [c] }
    if c = NL then (s.take p).finish p rd' [] .newline (rd'.target - rd'.n)
    else { s.take p with pc := update s.pc p (.loop rd') }

/-- A round of the loop in `consoleread`. -/
def go (s : ConsSys n) (p : Fin n) (rd : Reading) (copied killed : Bool) : ConsSys n :=
  if rd.n ≤ 0 then s.finish p rd [] .count (rd.target - rd.n)
  else if s.cons.r = s.cons.w then
    if killed then s.finish p rd [] .killed (-1)
    else { s with lk := none, pc := update s.pc p (.asleep rd) }
  else s.goChar p rd copied

def next (s : ConsSys n) : ConsOp n → Option (ConsSys n)
  | .intr c => if s.lk = none then some (s.intr c) else none
  | .read p len =>
    if s.pc p = .outside ∧ s.lk = none then
      some { s with lk := some p, pc := update s.pc p (.loop ⟨len, len, []⟩) }
    else none
  | .go p copied killed =>
    match s.pc p with
    | .loop rd => some (s.go p rd copied killed)
    | _ => none
  | .wake p =>
    match s.pc p with
    | .asleep rd => if s.lk = none then some { s with lk := some p, pc := update s.pc p (.loop rd) } else none
    | _ => none

def console (n : ℕ) : System (ConsSys n) (ConsOp n) := .ofNext (fun s => ∃ buf, s = start buf) next

end ConsSys

/-! ## The ring is the line

The two stretches of the ring are what is left to read and the line being edited. -/

namespace Cons

/-- The stretches of the ring: `ready` is committed, `edit` is not. -/
structure Holds (ready edit : List Byte) (s : Cons) : Prop where
  r_lt : s.r < 2 ^ 32
  w_lt : s.w < 2 ^ 32
  e_lt : s.e < 2 ^ 32
  le : ready.length + edit.length ≤ INPUT_BUF_SIZE
  ready : Ring.contents (2 ^ 32) INPUT_BUF_SIZE s.buf s.r s.w = ready
  edit : Ring.contents (2 ^ 32) INPUT_BUF_SIZE s.buf s.w s.e = edit

theorem size_dvd : INPUT_BUF_SIZE ∣ 2 ^ 32 := by norm_num [INPUT_BUF_SIZE]

theorem size_lt : INPUT_BUF_SIZE < 2 ^ 32 := by norm_num [INPUT_BUF_SIZE]

theorem killLoop_frame (k : ℕ) (s : Cons) :
    (killLoop k s).buf = s.buf ∧ (killLoop k s).r = s.r ∧ (killLoop k s).w = s.w := by
  induction k generalizing s with
  | zero => exact ⟨rfl, rfl, rfl⟩
  | succ k ih =>
    rw [killLoop]
    split_ifs
    · exact ih s.back
    · exact ⟨rfl, rfl, rfl⟩

theorem pred_eq (x : ℕ) : pred x = (x + 2 ^ 32 - 1) % 2 ^ 32 := by
  rw [pred, add_comm, Nat.add_sub_assoc (by norm_num)]

theorem pred_lt (x : ℕ) : pred x < 2 ^ 32 := Nat.mod_lt _ (by norm_num)

theorem holds_start (buf : ℕ → Byte) : (⟨buf, 0, 0, 0⟩ : Cons).Holds [] [] := by
  have hlt : 0 < 2 ^ 32 := by norm_num
  have hnil : Ring.contents (2 ^ 32) INPUT_BUF_SIZE buf 0 0 = [] :=
    length_eq_zero_iff.1 (Ring.length_contents.trans ((Ring.count_eq_zero hlt hlt).2 rfl))
  exact ⟨hlt, hlt, hlt, zero_le, hnil, hnil⟩

namespace Holds

variable {ready edit : List Byte} {s : Cons} (h : s.Holds ready edit)
include h

theorem count_ready : Ring.count (2 ^ 32) s.r s.w = ready.length := by
  rw [← h.ready, Ring.length_contents]

theorem count_edit : Ring.count (2 ^ 32) s.w s.e = edit.length := by
  rw [← h.edit, Ring.length_contents]

theorem count_lt : Ring.count (2 ^ 32) s.r s.w + Ring.count (2 ^ 32) s.w s.e < 2 ^ 32 := by
  rw [h.count_ready, h.count_edit]
  exact h.le.trans_lt size_lt

theorem count_all : Ring.count (2 ^ 32) s.r s.e = ready.length + edit.length := by
  rw [Ring.count_add h.r_lt h.w_lt h.e_lt h.count_lt, h.count_ready, h.count_edit]

theorem all : Ring.contents (2 ^ 32) INPUT_BUF_SIZE s.buf s.r s.e = ready ++ edit := by
  rw [Ring.contents_trans s.buf size_dvd h.r_lt h.w_lt h.e_lt h.count_lt, h.ready, h.edit]

theorem e_eq_w : s.e = s.w ↔ edit = [] := by
  rw [eq_comm, ← Ring.count_eq_zero h.w_lt h.e_lt, h.count_edit, length_eq_zero_iff]

theorem edit_eq (hne : edit ≠ []) :
    edit = Ring.contents (2 ^ 32) INPUT_BUF_SIZE s.buf s.w (pred s.e) ++ [s.buf (pred s.e % INPUT_BUF_SIZE)] := by
  rw [← h.edit, pred_eq]
  exact Ring.contents_back s.buf size_dvd h.w_lt h.e_lt fun heq => hne (h.e_eq_w.1 heq.symm)

theorem back (hne : edit ≠ []) : s.back.Holds ready edit.dropLast := by
  refine ⟨h.r_lt, h.w_lt, pred_lt s.e, ?_, h.ready, ?_⟩
  · have hle := h.le
    rw [length_dropLast]
    omega
  · rw [h.edit_eq hne, dropLast_concat, Cons.back]

theorem killLoop {k : ℕ} (hk : edit.length ≤ k) (hnl : NL ∉ edit) : (killLoop k s).Holds ready [] := by
  induction k generalizing s edit with
  | zero => exact length_eq_zero_iff.1 (Nat.le_zero.1 hk) ▸ h
  | succ k ih =>
    rw [Cons.killLoop]
    by_cases hne : edit = []
    · rw [if_neg fun hc => hc.1 (h.e_eq_w.2 hne)]
      exact hne ▸ h
    · have hlast : s.buf (pred s.e % INPUT_BUF_SIZE) ∈ edit := by
        rw [h.edit_eq hne]
        exact mem_append_right _ (mem_singleton_self _)
      rw [if_pos ⟨mt h.e_eq_w.1 hne, fun heq => hnl (heq ▸ hlast)⟩]
      refine ih (h.back hne) ?_ fun hmem => hnl (dropLast_subset _ hmem)
      rw [length_dropLast]
      omega

theorem store (hlt : ready.length + edit.length < INPUT_BUF_SIZE) (c : Byte) :
    (s.store c).Holds
      (if c = NL ∨ c = CTRL_D ∨ ready.length + (edit.length + 1) = INPUT_BUF_SIZE then ready ++ (edit ++ [c])
        else ready)
      (if c = NL ∨ c = CTRL_D ∨ ready.length + (edit.length + 1) = INPUT_BUF_SIZE then [] else edit ++ [c]) := by
  have hsize := size_lt
  have hcount := h.count_all
  have hsame := Ring.contents_write s.buf size_dvd h.r_lt h.e_lt (hcount.trans_lt hlt) c
  have hnext : (s.e + 1) % 2 ^ 32 < 2 ^ 32 := Nat.mod_lt _ (by norm_num)
  -- the cell is outside of both stretches
  obtain ⟨hready, hedit⟩ : Ring.contents (2 ^ 32) INPUT_BUF_SIZE (update s.buf (s.e % INPUT_BUF_SIZE) c) s.r s.w = ready ∧
      Ring.contents (2 ^ 32) INPUT_BUF_SIZE (update s.buf (s.e % INPUT_BUF_SIZE) c) s.w s.e = edit := by
    rw [h.all, Ring.contents_trans _ size_dvd h.r_lt h.w_lt h.e_lt h.count_lt] at hsame
    exact append_inj hsame (by rw [Ring.length_contents, h.count_ready])
  have hedit' : Ring.contents (2 ^ 32) INPUT_BUF_SIZE (update s.buf (s.e % INPUT_BUF_SIZE) c) s.w
      ((s.e + 1) % 2 ^ 32) = edit ++ [c] := by
    rw [Ring.contents_advance _ size_dvd h.w_lt h.e_lt (by rw [h.count_edit]; omega), hedit, update_self]
  have hall : Ring.contents (2 ^ 32) INPUT_BUF_SIZE (update s.buf (s.e % INPUT_BUF_SIZE) c) s.r
      ((s.e + 1) % 2 ^ 32) = ready ++ (edit ++ [c]) := by
    rw [Ring.contents_push _ size_dvd h.r_lt h.e_lt (hcount.trans_lt hlt) hsize, h.all, append_assoc]
  have hfull : Ring.count (2 ^ 32) s.r ((s.e + 1) % 2 ^ 32) = ready.length + (edit.length + 1) := by
    have hlen := congrArg List.length hall
    rwa [Ring.length_contents, length_append, length_append, length_singleton] at hlen
  unfold Cons.store
  simp only [hfull]
  split_ifs with hend
  · refine ⟨h.r_lt, hnext, hnext, ?_, hall, ?_⟩
    · simp only [length_append, length_singleton, length_nil]
      omega
    · rw [Ring.contents, (Ring.count_eq_zero hnext hnext).2 rfl]
      rfl
  · refine ⟨h.r_lt, h.w_lt, hnext, ?_, hready, hedit'⟩
    rw [length_append, length_singleton]
    omega

/-- **`consoleintr` does to the ring what the key does to the line.** -/
theorem intr {l : Line} (hl : l.edit = edit) (hnl : NL ∉ edit) (c : Byte) :
    ∃ new, (l.type ready.length c).committed = l.committed ++ new ∧
      (s.intr c).Holds (ready ++ new) (l.type ready.length c).edit ∧ NL ∉ (l.type ready.length c).edit := by
  subst hl
  unfold Cons.intr Line.type
  by_cases hp : c = CTRL_P
  · rw [if_pos hp, if_pos hp]
    exact ⟨[], (append_nil _).symm, by rwa [append_nil], hnl⟩
  rw [if_neg hp, if_neg hp]
  by_cases hu : c = CTRL_U
  · rw [if_pos hu, if_pos hu]
    exact ⟨[], (append_nil _).symm, by
      rw [append_nil]
      exact h.killLoop h.count_edit.ge hnl, not_mem_nil⟩
  rw [if_neg hu, if_neg hu]
  by_cases hh : c = CTRL_H ∨ c = DEL
  · rw [if_pos hh, if_pos hh]
    refine ⟨[], (append_nil _).symm, ?_, fun hmem => hnl (dropLast_subset _ hmem)⟩
    rw [append_nil]
    by_cases hne : l.edit = []
    · rw [if_neg (not_not.2 (h.e_eq_w.2 hne)), hne, dropLast_nil]
      exact hne ▸ h
    · rw [if_pos (mt h.e_eq_w.1 hne)]
      exact h.back hne
  rw [if_neg hh, if_neg hh, h.count_all]
  by_cases hadd : c ≠ 0 ∧ ready.length + l.edit.length < INPUT_BUF_SIZE
  · rw [if_pos hadd, if_pos hadd]
    generalize (if c = CR then NL else c) = c'
    have hst := h.store hadd.2 c'
    unfold Line.add
    split_ifs at hst ⊢ with hend
    · exact ⟨_, rfl, hst, not_mem_nil⟩
    · refine ⟨[], (append_nil _).symm, by rwa [append_nil], fun hmem => ?_⟩
      rcases mem_append.1 hmem with hmem | hmem
      · exact hnl hmem
      · exact hend (.inl (mem_singleton.1 hmem).symm)
  · rw [if_neg hadd, if_neg hadd]
    exact ⟨[], (append_nil _).symm, by rwa [append_nil], hnl⟩

theorem take (hne : s.r ≠ s.w) :
    ready = s.buf (s.r % INPUT_BUF_SIZE) :: ready.tail ∧
      ({ s with r := (s.r + 1) % 2 ^ 32 } : Cons).Holds ready.tail edit := by
  have hpop := Ring.contents_pop s.buf size_dvd h.r_lt h.w_lt hne
  rw [h.ready] at hpop
  refine ⟨by rw [hpop, tail_cons], Nat.mod_lt _ (by norm_num), h.w_lt, h.e_lt, ?_, ?_, h.edit⟩
  · have hle := h.le
    rw [length_tail]
    omega
  · rw [hpop, tail_cons]

end Holds

end Cons

/-! ## Every run -/

/-- A read in progress has delivered as much as `n` went down, no newline or control-D. -/
structure Reading.Ok (rd : Reading) : Prop where
  delivered : rd.target - rd.n = rd.got.length
  pos : rd.got = [] ∨ 0 ≤ rd.n
  plain : ∀ b ∈ rd.got, b ≠ NL ∧ b ≠ CTRL_D

namespace ReadRecord

/-- How a read may end: at its count, after a newline, at a failed copy, when killed, or at a control-D,
which it consumes if it has delivered nothing. -/
def Ends (x : ReadRecord) : Prop :=
  match x.how with
  | .count => x.eaten = x.delivered ∧ (x.delivered.length : ℤ) = max x.target 0 ∧ x.ret = x.delivered.length
  | .newline => x.eaten = x.delivered ∧ (∃ l, x.delivered = l ++ [NL]) ∧ x.ret = x.delivered.length
  | .fault => (∃ b, b ≠ CTRL_D ∧ x.eaten = x.delivered ++ [b]) ∧ x.ret = x.delivered.length
  | .killed => x.eaten = x.delivered ∧ x.ret = -1
  | .eof => x.eaten = (if x.delivered = [] then [CTRL_D] else x.delivered) ∧ x.ret = x.delivered.length

/-- A read that has returned delivered no more than was asked, and stopped where it had to. -/
structure Ok (x : ReadRecord) : Prop where
  le : (x.delivered.length : ℤ) ≤ max x.target 0
  ends : x.Ends
  plain : ∀ b ∈ x.delivered.dropLast, b ≠ NL ∧ b ≠ CTRL_D

end ReadRecord

theorem Reading.Ok.le {rd : Reading} (h : rd.Ok) : (rd.got.length : ℤ) ≤ max rd.target 0 := by
  have hdel := h.delivered
  rcases h.pos with hnil | hpos
  · rw [hnil, length_nil]
    omega
  · omega

theorem Reading.Ok.plain_dropLast {rd : Reading} (h : rd.Ok) : ∀ b ∈ rd.got.dropLast, b ≠ NL ∧ b ≠ CTRL_D :=
  fun b hb => h.plain b (dropLast_subset _ hb)

section OfProc

variable {n : ℕ} {α : Type} {p q : Fin n}

@[simp] theorem ofProc_concat_self (l : List (Fin n × α)) (a : α) :
    ofProc p (l ++ [(p, a)]) = ofProc p l ++ [a] := by
  simp [ofProc]

theorem ofProc_concat_of_ne (h : q ≠ p) (l : List (Fin n × α)) (a : α) :
    ofProc p (l ++ [(q, a)]) = ofProc p l := by
  simp [ofProc, h]

end OfProc

namespace ConsSys

variable {n : ℕ}

def bytes (s : ConsSys n) : List Byte := s.consumed.map Prod.snd

/-- What `p`'s reads have consumed, one after the other. -/
def eaten (s : ConsSys n) (p : Fin n) : List Byte :=
  ((ofProc p s.reads).map ReadRecord.eaten).flatten ++ (s.pc p).got

theorem unread_eq {s : ConsSys n} {ready : List Byte} (h : s.line.committed = s.bytes ++ ready) :
    s.unread = ready.length := by
  rw [unread, h, length_append, bytes, length_map, Nat.add_sub_cancel_left]

/-- **The invariant of the console.** -/
structure Inv (s : ConsSys n) : Prop where
  ring : ∃ ready, s.line.committed = s.bytes ++ ready ∧ s.cons.Holds ready s.line.edit
  line : NL ∉ s.line.edit
  pcs : ∀ p rd, s.pc p = .loop rd ∨ s.pc p = .asleep rd → rd.Ok
  reads : ∀ p, ∀ x ∈ ofProc p s.reads, x.Ok
  eaten : ∀ p, ofProc p s.consumed = s.eaten p

namespace Inv

variable {s t : ConsSys n} {p : Fin n} {rd : Reading}

theorem start (buf : ℕ → Byte) : (ConsSys.start buf : ConsSys n).Inv where
  ring := ⟨[], rfl, Cons.holds_start buf⟩
  line := not_mem_nil
  pcs p rd h := by rcases h with h | h <;> cases h
  reads p x hx := absurd hx not_mem_nil
  eaten p := rfl

variable (h : s.Inv)
include h

theorem pcs_update {pc : ConsPc} (hpc : ∀ rd, pc = .loop rd ∨ pc = .asleep rd → rd.Ok) :
    ∀ q rd, update s.pc p pc q = .loop rd ∨ update s.pc p pc q = .asleep rd → rd.Ok := by
  intro q rd hq
  rcases eq_or_ne q p with rfl | hqp
  · rw [update_self] at hq
    exact hpc rd hq
  · rw [update_of_ne hqp] at hq
    exact h.pcs q rd hq

theorem goto {pc : ConsPc} {lk : Option (Fin n)} (hgot : pc.got = (s.pc p).got)
    (hpc : ∀ rd, pc = .loop rd ∨ pc = .asleep rd → rd.Ok) :
    ({ s with lk := lk, pc := update s.pc p pc } : ConsSys n).Inv where
  ring := h.ring
  line := h.line
  pcs := h.pcs_update hpc
  reads := h.reads
  eaten q := by
    rw [h.eaten q]
    rcases eq_or_ne q p with rfl | hqp
    · simp only [ConsSys.eaten, update_self, hgot]
    · simp only [ConsSys.eaten, update_of_ne hqp]

theorem intr (c : Byte) : (s.intr c).Inv := by
  obtain ⟨ready, hcom, hr⟩ := h.ring
  obtain ⟨new, hnew, hr', hnl⟩ := hr.intr rfl h.line c
  rw [← unread_eq hcom] at hnew hr' hnl
  refine ⟨⟨ready ++ new, ?_, hr'⟩, hnl, h.pcs, h.reads, h.eaten⟩
  rw [ConsSys.intr, hnew, hcom, append_assoc]
  rfl

/-- `p` has taken the bytes `more`, which are not yet in any read. -/
structure Took (p : Fin n) (more : List Byte) (s t : ConsSys n) : Prop where
  ring : ∃ ready, t.line.committed = t.bytes ++ ready ∧ t.cons.Holds ready t.line.edit
  line : t.line = s.line
  pc : t.pc = s.pc
  reads : t.reads = s.reads
  mine : ofProc p t.consumed = ofProc p s.consumed ++ more
  others : ∀ q, q ≠ p → ofProc q t.consumed = ofProc q s.consumed

theorem nothing (p : Fin n) : Took p [] s s :=
  ⟨h.ring, rfl, rfl, rfl, (append_nil _).symm, fun _ _ => rfl⟩

theorem take (hne : s.cons.r ≠ s.cons.w) (p : Fin n) : Took p [s.head] s (s.take p) := by
  obtain ⟨ready, hcom, hr⟩ := h.ring
  obtain ⟨hcons, hr'⟩ := hr.take hne
  refine ⟨⟨ready.tail, ?_, hr'⟩, rfl, rfl, rfl, ofProc_concat_self _ _, fun q hq =>
    ofProc_concat_of_ne hq.symm _ _⟩
  have hbytes : (s.take p).bytes = s.bytes ++ [s.head] := map_append
  rw [hbytes, append_assoc, singleton_append, head, ← hcons]
  exact hcom

/-- A read returns, and what it has consumed is what its process took since. -/
theorem finish {more extra : List Byte} (ht : Took p more s t) {how : ReadEnd} {ret : ℤ}
    (hgot : rd.got ++ extra = (s.pc p).got ++ more)
    (hx : ReadRecord.Ok ⟨rd.target, rd.got, rd.got ++ extra, how, ret⟩) :
    (t.finish p rd extra how ret).Inv where
  ring := ht.ring
  line := by
    simp only [ConsSys.finish, ht.line]
    exact h.line
  pcs := by
    simp only [ConsSys.finish, ht.pc]
    exact h.pcs_update fun rd hrd => by rcases hrd with hrd | hrd <;> cases hrd
  reads q x hx' := by
    simp only [ConsSys.finish, ht.reads] at hx'
    rcases eq_or_ne q p with rfl | hqp
    · rw [ofProc_concat_self] at hx'
      rcases mem_append.1 hx' with hmem | hmem
      · exact h.reads q x hmem
      · exact mem_singleton.1 hmem ▸ hx
    · rw [ofProc_concat_of_ne hqp.symm] at hx'
      exact h.reads q x hx'
  eaten q := by
    have hq := h.eaten q
    simp only [ConsSys.eaten, ConsSys.finish, ht.reads, ht.pc] at hq ⊢
    rcases eq_or_ne q p with rfl | hqp
    · rw [ht.mine, hq, ofProc_concat_self, update_self, map_append, flatten_append, append_assoc,
        ← hgot]
      simp [ConsPc.got]
    · rw [ht.others q hqp, hq, ofProc_concat_of_ne hqp.symm, update_of_ne hqp]

theorem goOn {b : Byte} (ht : Took p [b] s t) (hrd : rd.Ok) (hgot : rd.got = (s.pc p).got ++ [b]) :
    ({ t with pc := update s.pc p (.loop rd) } : ConsSys n).Inv where
  ring := ht.ring
  line := by
    rw [ht.line]
    exact h.line
  pcs := h.pcs_update fun rd' hrd' => by
    rcases hrd' with hrd' | hrd'
    · exact ConsPc.loop.inj hrd' ▸ hrd
    · cases hrd'
  reads := by
    rw [ht.reads]
    exact h.reads
  eaten q := by
    have hq := h.eaten q
    simp only [ConsSys.eaten, ht.reads] at hq ⊢
    rcases eq_or_ne q p with rfl | hqp
    · rw [ht.mine, hq, update_self, append_assoc, ← hgot]
      rfl
    · rw [ht.others q hqp, hq, update_of_ne hqp]

/-- A control-D that is pushed back was not consumed. -/
theorem untake_take (p : Fin n) : (s.take p).untake = s := by
  obtain ⟨ready, -, hr⟩ := h.ring
  have hpred : Cons.pred ((s.cons.r + 1) % 2 ^ 32) = s.cons.r := by
    rw [Cons.pred_eq]
    exact Ring.pred_succ_mod hr.r_lt
  simp only [untake, ConsSys.take, dropLast_concat, hpred]

theorem goChar (hpc : s.pc p = .loop rd) (hn : 0 < rd.n) (hne : s.cons.r ≠ s.cons.w)
    (copied : Bool) : (s.goChar p rd copied).Inv := by
  have hrd := h.pcs p rd (.inl hpc)
  have hdel := hrd.delivered
  have hgot : (s.pc p).got = rd.got := by
    rw [hpc]
    rfl
  unfold ConsSys.goChar
  simp only
  split_ifs with hd hlt hcopy hnl
  · rw [h.untake_take]
    refine h.finish (h.nothing p) (by rw [hgot]) ⟨hrd.le, ⟨?_, hdel⟩, hrd.plain_dropLast⟩
    have hsome : rd.got ≠ [] := fun hnil => by
      rw [hnil, length_nil] at hdel
      omega
    rw [if_neg hsome, append_nil]
  · refine h.finish (h.take hne p) (by rw [hgot]) ⟨hrd.le, ⟨?_, hdel⟩, hrd.plain_dropLast⟩
    have hnil : rd.got = [] := length_eq_zero_iff.1 (by omega)
    simp only [hnil, if_true, nil_append, hd]
  · exact h.finish (h.take hne p) (by rw [hgot]) ⟨hrd.le, ⟨⟨_, hd, rfl⟩, hdel⟩, hrd.plain_dropLast⟩
  · refine h.finish (h.take hne p) (by rw [hgot, append_nil])
      ⟨?_, ⟨append_nil _, ⟨rd.got, by rw [hnl]⟩, ?_⟩, ?_⟩
    · simp only [length_append, length_singleton]
      omega
    · simp only [length_append, length_singleton]
      omega
    · rw [dropLast_concat]
      exact hrd.plain
  · refine h.goOn (h.take hne p) ⟨?_, .inr (by simp only; omega), fun b hb => ?_⟩ (by rw [hgot])
    · simp only [length_append, length_singleton]
      omega
    · rcases mem_append.1 hb with hb | hb
      · exact hrd.plain b hb
      · exact mem_singleton.1 hb ▸ ⟨hnl, hd⟩

theorem go (hpc : s.pc p = .loop rd) (copied killed : Bool) : (s.go p rd copied killed).Inv := by
  have hrd := h.pcs p rd (.inl hpc)
  have hdel := hrd.delivered
  have hgot : (s.pc p).got = rd.got := by
    rw [hpc]
    rfl
  unfold ConsSys.go
  split_ifs with hn hempty hkill
  · refine h.finish (h.nothing p) (by rw [hgot]) ⟨hrd.le, ⟨append_nil _, ?_, hdel⟩, hrd.plain_dropLast⟩
    rcases hrd.pos with hnil | hpos
    · simp only [hnil, length_nil] at hdel ⊢
      omega
    · simp only
      omega
  · exact h.finish (h.nothing p) (by rw [hgot]) ⟨hrd.le, ⟨append_nil _, rfl⟩, hrd.plain_dropLast⟩
  · refine h.goto hgot.symm fun rd' hrd' => ?_
    rcases hrd' with hrd' | hrd'
    · cases hrd'
    · exact ConsPc.asleep.inj hrd' ▸ hrd
  · exact h.goChar hpc (not_le.1 hn) hempty copied

theorem next {op : ConsOp n} (hst : s.next op = some t) : t.Inv := by
  cases op with
  | intr c =>
    obtain ⟨-, rfl⟩ := of_guard hst
    exact h.intr c
  | read p len =>
    obtain ⟨⟨hout, -⟩, rfl⟩ := of_guard hst
    refine h.goto (by rw [hout]; rfl) fun rd hrd => ?_
    rcases hrd with hrd | hrd
    · obtain rfl := ConsPc.loop.inj hrd
      exact ⟨by simp, .inl rfl, fun b hb => absurd hb not_mem_nil⟩
    · cases hrd
  | go p copied killed =>
    unfold ConsSys.next at hst
    dsimp only at hst
    split at hst
    · next rd hpc => exact some.inj hst ▸ h.go hpc copied killed
    · cases hst
  | wake p =>
    unfold ConsSys.next at hst
    dsimp only at hst
    split at hst
    · next rd hpc =>
      obtain ⟨-, rfl⟩ := of_guard hst
      refine h.goto (by rw [hpc]; rfl) fun rd' hrd' => ?_
      rcases hrd' with hrd' | hrd'
      · exact ConsPc.loop.inj hrd' ▸ h.pcs p rd (.inr hpc)
      · cases hrd'
    · cases hst

end Inv

theorem inv_of_reachable {s : ConsSys n} (hs : (console n).Reachable s) : s.Inv :=
  hs.invariant (fun _ ⟨buf, hb⟩ => hb ▸ .start buf) fun _ _ _ _ h hst => h.next hst

/-! ## What single steps do -/

theorem erase_intr (s : ConsSys n) {c : Byte} (hc : c = CTRL_U ∨ c = CTRL_H ∨ c = DEL) :
    ((s.intr c).cons.buf = s.cons.buf ∧ (s.intr c).cons.r = s.cons.r ∧ (s.intr c).cons.w = s.cons.w) ∧
      (s.intr c).line.committed = s.line.committed ∧ (s.intr c).line.edit <+: s.line.edit := by
  have hp : c ≠ CTRL_P := by
    rintro rfl
    revert hc
    decide
  unfold ConsSys.intr Cons.intr Line.type
  simp only [if_neg hp]
  by_cases hu : c = CTRL_U
  · simp only [if_pos hu]
    exact ⟨Cons.killLoop_frame _ _, trivial, nil_prefix⟩
  · simp only [if_neg hu, if_pos (hc.resolve_left hu)]
    refine ⟨?_, trivial, dropLast_prefix _⟩
    split_ifs <;> exact ⟨rfl, rfl, rfl⟩

/-- A character that is no key of the editor is kept unless the buffer is full. -/
theorem Inv.keep_intr {s : ConsSys n} (h : s.Inv) {c : Byte} (hkey : ¬Line.IsKey c) (h0 : c ≠ 0)
    (hfull : Ring.count (2 ^ 32) s.cons.r s.cons.e ≠ INPUT_BUF_SIZE) :
    (s.intr c).line.committed ++ (s.intr c).line.edit =
      s.line.committed ++ s.line.edit ++ [if c = CR then NL else c] := by
  obtain ⟨ready, hcom, hr⟩ := h.ring
  rw [hr.count_all] at hfull
  have hle := hr.le
  simp only [Line.IsKey, not_or] at hkey
  obtain ⟨hp, hu, hh, hd⟩ := hkey
  unfold ConsSys.intr Line.type
  simp only [if_neg hp, if_neg hu, if_neg (not_or.2 ⟨hh, hd⟩), unread_eq hcom]
  generalize (if c = CR then NL else c) = c'
  rw [if_pos ⟨h0, by omega⟩, Line.add]
  split_ifs
  · rw [append_nil, append_assoc]
  · rw [append_assoc]

theorem go_line (s : ConsSys n) (p : Fin n) (rd : Reading) (copied killed : Bool) :
    (s.go p rd copied killed).line = s.line := by
  unfold go goChar
  dsimp only
  split_ifs <;> rfl

/-- **The line discipline of the console.**  In every state of every run the indices are in order, however
often they have wrapped; the bytes that reads have consumed are the committed bytes, in order, with
those of `[r, w)` still to come, and `[w, e)` is the line being edited.  What a process has consumed is
what its reads have, one after the other, and each of them ended as it may.  A key does to the ring what it
does to the line: erasing changes the uncommitted part alone, and a character that is not NUL and no key of
the editor is dropped only if the buffer is full.  Reads leave the line alone. -/
theorem console_lines {s : ConsSys n} (hs : (console n).Reachable s) :
    ((s.cons.w + 2 ^ 32 - s.cons.r) % 2 ^ 32 ≤ (s.cons.e + 2 ^ 32 - s.cons.r) % 2 ^ 32 ∧
      (s.cons.e + 2 ^ 32 - s.cons.r) % 2 ^ 32 ≤ INPUT_BUF_SIZE) ∧
    s.line.committed = s.bytes ++ Ring.contents (2 ^ 32) INPUT_BUF_SIZE s.cons.buf s.cons.r s.cons.w ∧
    s.line.edit = Ring.contents (2 ^ 32) INPUT_BUF_SIZE s.cons.buf s.cons.w s.cons.e ∧
    (∀ p, ofProc p s.consumed = s.eaten p ∧ ∀ x ∈ ofProc p s.reads, x.Ok) ∧
    (∀ c t, (console n).step s (.intr c) t → t.line = s.line.type s.unread c ∧
      (c = CTRL_U ∨ c = CTRL_H ∨ c = DEL →
        (t.cons.buf = s.cons.buf ∧ t.cons.r = s.cons.r ∧ t.cons.w = s.cons.w) ∧
          t.line.committed = s.line.committed ∧ t.line.edit <+: s.line.edit) ∧
      (¬Line.IsKey c → c ≠ 0 → (s.cons.e + 2 ^ 32 - s.cons.r) % 2 ^ 32 ≠ INPUT_BUF_SIZE →
        t.line.committed ++ t.line.edit = s.line.committed ++ s.line.edit ++ [if c = CR then NL else c])) ∧
    ∀ p copied killed t, (console n).step s (.go p copied killed) t → t.line = s.line := by
  have h := inv_of_reachable hs
  obtain ⟨ready, hcom, hr⟩ := h.ring
  refine ⟨⟨?_, ?_⟩, by rw [hr.ready, hcom], hr.edit.symm, fun p => ⟨h.eaten p, h.reads p⟩,
    fun c t hst => ?_, fun p copied killed t hst => ?_⟩
  · rw [← Ring.count, ← Ring.count, hr.count_ready, hr.count_all]
    exact Nat.le_add_right _ _
  · rw [← Ring.count, hr.count_all]
    exact hr.le
  · obtain ⟨-, rfl⟩ := of_guard hst
    exact ⟨rfl, s.erase_intr, h.keep_intr⟩
  · change s.next _ = some t at hst
    unfold next at hst
    dsimp only at hst
    split at hst
    · next rd _ => exact Option.some.inj hst ▸ s.go_line p rd copied killed
    · cases hst

/-- `a`, `b`, backspace, `c` and return are typed; one process reads a byte, another one the rest. -/
theorem console_lines_two : ∃ s : ConsSys 2, (console 2).Reachable s ∧ s.bytes = [97, 99, NL] ∧
    s.line.committed = s.bytes ++ Ring.contents (2 ^ 32) INPUT_BUF_SIZE s.cons.buf s.cons.r s.cons.w := by
  let ls : List (ConsOp 2) := [.intr 97, .intr 98, .intr CTRL_H, .intr 99, .intr CR, .read 0 1,
    .go 0 true false, .go 0 true false, .read 1 10, .go 1 true false, .go 1 true false]
  have hsome : (System.execute next (start fun _ => 0) ls).isSome := by decide +kernel
  obtain ⟨s, hs⟩ := Option.isSome_iff_exists.1 hsome
  have hbytes : (System.execute next (start fun _ => 0) ls).map bytes = some [97, 99, NL] := by decide +kernel
  rw [hs, Option.map_some, Option.some_inj] at hbytes
  have hr : (console 2).Reachable s := .run (.of_execute hs) (.init ⟨_, rfl⟩)
  exact ⟨s, hr, hbytes, (console_lines hr).2.1⟩

end ConsSys

end Xv6
