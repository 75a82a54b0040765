import Xv6.Fs.File
import Xv6.Ipc.Console
import Xv6.Ipc.Piperead

/-!
# Fs/Fileread — `fileread` with the memory of its caller (`kernel/file.c`)

`readi`, `piperead` and `consoleread` store, from the address on, a list of bytes known before the
first copy (`Io.wants`), up to the first address that is not mapped.  `readi` takes a negative count
as a `uint` and reads the whole rest of the file.
-/

namespace Xv6

open Machinery Function List Exec Fs Nat

/-- What `fileread` works on. -/
structure Io where
  file : OpenFile
  fs : Fs
  pipe : PipeBuf
  phys : Phys

/-- The panics of a read. -/
inductive IoPanic
  | fs (e : FsPanic)
  | vm (e : KPanic)
  | fileread

/-- What a read cannot know: whether it is killed at the pipe, and the characters that `consoleread`
finds, `none` if it is killed while it waits. -/
structure Inputs where
  killed : Bool
  chars : ℕ → Option Byte

def CONSOLE : ℕ := 1

/-- `devsw[major].read` is set. -/
def devswRead (major : ℕ) : Bool := decide (major = CONSOLE)

/-- The loop of `consoleread`, at its character `k`: its `n` at the end, `none` if killed. -/
def consolereadLoop (root : ℕ) (chars : ℕ → Option Byte) : (fuel k dst : ℕ) → ℤ → Exec KPanic Phys (Option ℤ)
  | 0, _, _, n => return some n
  | fuel + 1, k, dst, n =>
    if 0 < n then
      match chars k with
      | none => return none
      | some c =>
        -- whether the `^D` is left in the buffer makes no difference to this call
        if c = CTRL_D then return some n
        else do
          if ← copyout root dst [c] then
            if c = NL then return some (n - 1)
            else consolereadLoop root chars fuel (k + 1) ((dst + 1) % 2 ^ 64) (n - 1)
          else return some n
    else return some n

def consoleread (root : ℕ) (chars : ℕ → Option Byte) (dst : ℕ) (n : ℤ) : Exec KPanic Phys ℤ := do
  match ← consolereadLoop root chars n.toNat 0 dst n with
  | none => return -1
  | some m => return n - m

namespace Io

abbrev IoM (α : Type) := Exec IoPanic Io α

def onFs {α : Type} (x : FsM α) : IoM α := x.zoom .fs Io.fs fun k s => { k with fs := s }

def onPhys {α : Type} (x : Exec KPanic Phys α) : IoM α := x.zoom .vm Io.phys fun k σ => { k with phys := σ }

def onPipe {α : Type} (x : Exec KPanic PipeIo α) : IoM α :=
  x.zoom .vm (fun k => ⟨k.pipe, k.phys⟩) fun k s => { k with pipe := s.pipe, phys := s.phys }

variable (sb : Superblock) (root : ℕ)

/-- The loop of `readi` with a user address. -/
def readiLoop (i : ℕ) : (fuel off n tot dst : ℕ) → IoM ℤ
  | 0, _, _, tot, _ => return tot
  | fuel + 1, off, n, tot, dst =>
    if tot < n then do
      let addr ← onFs (bmap sb i (off / BSIZE))
      if addr = 0 then return tot
      else
        let k ← get
        let m := piece off n tot
        if ← onPhys (copyout root dst ((k.fs.disk addr).slice (off % BSIZE) m)) then
          readiLoop i fuel (off + m) n (tot + m) ((dst + m) % 2 ^ 64)
        else return -1
    else return tot

/-- `readi` with a user address. -/
def readi (i dst off n : ℕ) : IoM ℤ := do
  let ip ← onFs (inode i)
  if ip.size.toNat < off ∨ (off + n) % 2 ^ 32 < off then return 0
  else
    let n := if ip.size.toNat < (off + n) % 2 ^ 32 then ip.size.toNat - off else n
    readiLoop sb root i n off n 0 dst

def fileread (inp : Inputs) (addr : ℕ) (n : ℤ) : IoM ℤ := do
  let f := (← get).file
  if f.readable = false then return -1
  else match f.type with
  | .pipe => onPipe (piperead root addr n inp.killed)
  | .device =>
    if f.major.toInt < 0 ∨ NDEV ≤ f.major.toInt ∨ devswRead f.major.toNat = false then return -1
    else onPhys (consoleread root inp.chars addr n)
  | .inode =>
    onFs (ilock sb f.ip)
    -- the `int` becomes a `uint`
    let r ← readi sb root f.ip addr f.off.toNat (n % 2 ^ 32).toNat
    if 0 < r then modify fun k => { k with file := { k.file with off := k.file.off + BitVec.ofInt 32 r } }
    onFs (iunlock f.ip)
    return r
  | .none => throw .fileread

/-! ## What a read wants to store -/

/-- The characters of a line, from the `k`-th on and at most `n`. -/
def line (chars : ℕ → Option Byte) : (n k : ℕ) → List Byte
  | 0, _ => []
  | n + 1, k =>
    match chars k with
    | none => []
    | some c => if c = CTRL_D then [] else if c = NL then [c] else c :: line chars n (k + 1)

/-- The bytes that a read stores if all addresses are mapped. -/
def wants (io : Io) (inp : Inputs) (n : ℤ) : List Byte :=
  if io.file.readable = false then []
  else match io.file.type with
  | .pipe => if inp.killed then [] else io.pipe.bytes.take n.toNat
  | .device =>
    if io.file.major.toInt < 0 ∨ NDEV ≤ io.file.major.toInt ∨ devswRead io.file.major.toNat = false then []
    else line inp.chars n.toNat 0
  | .inode =>
    if 2 ^ 32 ≤ io.file.off.toNat + (n % 2 ^ 32).toNat then []
    else ((io.fs.dataOf sb io.file.ip).drop io.file.off.toNat).take (n % 2 ^ 32).toNat
  | .none => []

variable {sb root} {io : Io} {i off n tot dst : ℕ}

/-- **The loop of `readi` over mapped blocks stores the bytes of the file.** -/
theorem readiLoop_run (hv : (io.fs.itable i).valid = true) (h : Apart io.phys.mem root) (hdst : dst < 2 ^ 64)
    (fuel : ℕ) (hfuel : n - tot ≤ fuel) (htot : tot ≤ n) (hsize : off + (n - tot) ≤ io.fs.sizeOf sb i)
    (hmapped : ∀ x, off ≤ x → x < off + (n - tot) → x / BSIZE < MAXFILE ∧ io.fs.block sb i (x / BSIZE) ≠ 0) :
    readiLoop sb root i fuel off n tot dst io =
      .ok (if reach io.phys.mem root dst (n - tot) = n - tot then (n : ℤ) else -1,
        { io with phys := copied root dst (((io.fs.dataOf sb i).drop off).take (n - tot)) io.phys }) := by
  induction fuel generalizing off tot dst io with
  | zero =>
    obtain rfl : tot = n := by omega
    rw [Nat.sub_self, take_zero, copied_nil, reach, if_pos rfl]
    rfl
  | succ fuel ih =>
    rw [readiLoop]
    by_cases hlt : tot < n
    · obtain ⟨hmax, hne⟩ := hmapped off le_rfl (by omega)
      have hmod : off % BSIZE < BSIZE := mod_lt _ (by decide)
      have hm : piece off n tot = min (n - tot) (BSIZE - off % BSIZE) := rfl
      rw [if_pos hlt, onFs, bind_ok (zoom_ok (bmap_mapped hv hmax hne)), if_neg hne,
        bind_ok (get_run _)]
      simp only
      generalize piece off n tot = m at *
      rw [slice_block (by omega) (by omega), onPhys, bind_ok (zoom_ok (h.copyout_eq dst _))]
      -- this piece, and what is left
      have hlen : (((io.fs.dataOf sb i).drop off).take m).length = m := by
        rw [length_take, length_drop, length_dataOf]
        omega
      have hsplit : ((io.fs.dataOf sb i).drop off).take (n - tot) = ((io.fs.dataOf sb i).drop off).take m ++
          ((io.fs.dataOf sb i).drop (off + m)).take (n - (tot + m)) := by
        rw [show n - tot = m + (n - (tot + m)) by omega, take_add, drop_drop]
      have hrest : (((io.fs.dataOf sb i).drop (off + m)).take (n - (tot + m))).length = n - (tot + m) := by
        rw [length_take, length_drop, length_dataOf]
        omega
      rw [hsplit]
      by_cases hreach : reach io.phys.mem root dst m = m
      · obtain ⟨hcopied, hadd⟩ := h.copied_append (hlen.symm ▸ hreach)
          (((io.fs.dataOf sb i).drop (off + m)).take (n - (tot + m)))
        rw [length_append, hlen, hrest, show m + (n - (tot + m)) = n - tot by omega] at hadd
        rw [hlen] at hcopied
        have hdst' : dst + m < 2 ^ 64 := mod_of_reach hdst hreach ▸ mod_lt _ (by norm_num)
        have hgo : readiLoop sb root i fuel (off + m) n (tot + m) (dst + m)
            { io with phys := copied root dst (((io.fs.dataOf sb i).drop off).take m) io.phys } = _ :=
          ih hv (h.copied dst _) hdst' (by omega) (by omega) (by simp only; omega) fun x h1 h2 =>
            hmapped x (by omega) (by omega)
        rw [if_pos (by rw [hlen, hreach, decide_eq_true rfl]), mod_of_reach hdst hreach, hgo, h.reach_copied,
          hcopied, hadd]
        congr 3
        exact propext ⟨fun _ => by omega, fun _ => by omega⟩
      · have hlt' : reach io.phys.mem root dst m < m := lt_of_le_of_ne (reach_le dst m) hreach
        rw [if_neg (by rw [hlen, decide_eq_false hreach]; exact Bool.false_ne_true),
          copied_append_of_lt (hlen.symm ▸ hlt'), reach_of_lt hlt' (by omega), if_neg (by omega)]
        rfl
    · obtain rfl : tot = n := by omega
      rw [if_neg hlt, Nat.sub_self, take_zero, copied_nil, reach, if_pos rfl]
      rfl

/-- **`readi` stores the bytes of the range, up to the end of the file.** -/
theorem readi_run (hv : (io.fs.itable i).valid = true) (hs : io.fs.HoleFree sb i) (h : Apart io.phys.mem root)
    (hdst : dst < 2 ^ 64) (hoff : off < 2 ^ 32) (hn : n < 2 ^ 32) {w : List Byte}
    (hw : w = if 2 ^ 32 ≤ off + n then [] else ((io.fs.dataOf sb i).drop off).take n) :
    readi sb root i dst off n io =
      .ok (if reach io.phys.mem root dst w.length = w.length then (w.length : ℤ) else -1,
        { io with phys := copied root dst w io.phys }) := by
  have hinode : inode i io.fs = .ok ((io.fs.itable i).din, io.fs) := rfl
  have hsize : io.fs.sizeOf sb i = (io.fs.itable i).din.size.toNat := by rw [Fs.sizeOf, cur_of_valid hv]
  have hover : (off + n) % 2 ^ 32 < off ↔ 2 ^ 32 ≤ off + n := by omega
  rw [readi, onFs, bind_ok (zoom_ok hinode), ← hsize]
  by_cases hout : io.fs.sizeOf sb i < off ∨ 2 ^ 32 ≤ off + n
  · have hnil : w = [] := by
      rw [hw]
      split_ifs with h1
      · rfl
      · rw [drop_of_length_le (by rw [length_dataOf]; omega), take_nil]
    rw [if_pos (hout.imp_right hover.2), hnil, copied_nil, length_nil, reach, if_pos rfl]
    rfl
  · rw [if_neg (mt (Or.imp_right hover.1) hout)]
    have hlen : w.length = if io.fs.sizeOf sb i < (off + n) % 2 ^ 32 then io.fs.sizeOf sb i - off else n := by
      rw [hw, if_neg (fun h => hout (.inr h)), length_take, length_drop, length_dataOf]
      split_ifs <;> omega
    have hwl : w = ((io.fs.dataOf sb i).drop off).take w.length := by
      rw [hw, if_neg (fun h => hout (.inr h)), length_take, ← take_take, take_length]
    have hle : off + w.length ≤ io.fs.sizeOf sb i := by
      rw [hlen]
      split_ifs <;> omega
    rw [← hlen, readiLoop_run hv h hdst w.length (by omega) zero_le (by omega) fun x _ h2 =>
      hs.mapped_div (by omega), Nat.sub_zero, ← hwl]

/-- **The loop of `consoleread` stores the characters of the line.** -/
theorem consolereadLoop_run {σ : Phys} (chars : ℕ → Option Byte) (h : Apart σ.mem root) (hdst : dst < 2 ^ 64)
    (fuel k : ℕ) {n : ℤ} (hfuel : n.toNat ≤ fuel) :
    ∃ res, consolereadLoop root chars fuel k dst n σ = .ok (res, copied root dst (line chars n.toNat k) σ) ∧
      (res = none ∨ res = some (n - reach σ.mem root dst (line chars n.toNat k).length)) := by
  induction fuel generalizing k dst σ n with
  | zero =>
    refine ⟨some n, ?_, .inr ?_⟩
    · rw [show n.toNat = 0 by omega]
      rfl
    · rw [show n.toNat = 0 by omega, line, length_nil, reach, cast_zero, sub_zero]
  | succ fuel ih =>
    rw [consolereadLoop]
    by_cases hpos : 0 < n
    · rw [if_pos hpos, show n.toNat = (n - 1).toNat + 1 by omega, line]
      cases hc : chars k with
      | none => exact ⟨none, rfl, .inl rfl⟩
      | some c =>
        simp only
        by_cases hd : c = CTRL_D
        · rw [if_pos hd, if_pos hd]
          exact ⟨some n, rfl, .inr (by rw [length_nil, reach, cast_zero, sub_zero])⟩
        rw [if_neg hd, if_neg hd, bind_ok (h.copyout_eq dst [c])]
        by_cases hreach : reach σ.mem root dst 1 = 1
        · rw [if_pos (by rwa [length_singleton, decide_eq_true_iff])]
          by_cases hnl : c = NL
          · rw [if_pos hnl, if_pos hnl]
            exact ⟨some (n - 1), rfl, .inr (by rw [length_singleton, hreach, cast_one])⟩
          rw [if_neg hnl, if_neg hnl, mod_of_reach hdst hreach]
          have hdst' : dst + 1 < 2 ^ 64 := mod_of_reach hdst hreach ▸ mod_lt _ (by norm_num)
          obtain ⟨res, hrun, hres⟩ := ih (h.copied dst [c]) hdst' (k + 1) (n := n - 1) (by omega)
          obtain ⟨hcopied, hadd⟩ := h.copied_append (l := [c]) hreach (line chars (n - 1).toNat (k + 1))
          rw [h.reach_copied] at hres
          rw [singleton_append] at hcopied hadd
          refine ⟨res, hrun.trans ?_, hres.imp_right fun hres => ?_⟩
          · rw [hcopied]
            rfl
          · rw [hres, hadd, length_singleton]
            congr 1
            push_cast
            ring
        · have hlt : reach σ.mem root dst 1 < 1 := lt_of_le_of_ne (reach_le dst 1) hreach
          rw [if_neg (by rwa [length_singleton, decide_eq_true_iff])]
          refine ⟨some n, ?_, .inr ?_⟩
          · split_ifs
            · rfl
            · exact congrArg (fun τ => Except.ok (some n, τ)) (copied_append_of_lt (l := [c]) hlt _).symm
          · split_ifs
            · rw [length_singleton, show reach σ.mem root dst 1 = 0 by omega, cast_zero, sub_zero]
            · rw [reach_of_lt hlt (by rw [length_cons]; omega), show reach σ.mem root dst 1 = 0 by omega,
                cast_zero, sub_zero]
    · refine ⟨some n, ?_, .inr ?_⟩
      · rw [if_neg hpos, show n.toNat = 0 by omega]
        rfl
      · rw [show n.toNat = 0 by omega, line, length_nil, reach, cast_zero, sub_zero]

theorem ilock_live {s : Fs} (href : 0 < (s.itable i).ref) (hlive : s.Live sb i) :
    ∃ t, ilock sb i s = .ok ((), t) ∧ (t.itable i).valid = true ∧ 0 < (t.itable i).ref ∧ t.disk = s.disk ∧
      t.cur sb i = s.cur sb i := by
  rw [ilock, bind_ok (get_run s), if_neg (by omega)]
  by_cases hv : (s.itable i).valid = true
  · rw [if_pos hv]
    exact ⟨s, rfl, hv, href, rfl, rfl⟩
  · have hcur : s.cur sb i = sb.inodeAt s.disk i := if_neg hv
    have htype : (sb.inodeAt s.disk i).type ≠ 0 := hcur ▸ hlive.2
    rw [if_neg hv, if_neg htype]
    refine ⟨_, rfl, ?_, ?_, rfl, ?_⟩
    · rw [itable_setEntry, update_self]
    · rw [itable_setEntry, update_self]
      exact href
    · rw [Fs.cur, itable_setEntry, update_self, if_pos rfl, hcur]

/-- An open file: its inode is referenced, allocated and without holes, the counters of the pipe are
`uint`s, and the caller's page table is apart from its memory. -/
structure Ok (sb : Superblock) (root : ℕ) (io : Io) : Prop where
  apart : Apart io.phys.mem root
  pipe : io.pipe.Ok
  type : io.file.type ≠ .none
  inode : io.file.type = .inode ∨ io.file.type = .device → 0 < (io.fs.itable io.file.ip).ref ∧
    io.fs.Live sb io.file.ip ∧ io.fs.HoleFree sb io.file.ip

/-- What a read of `w` that returns `r` has done. -/
structure Did (root addr : ℕ) (w : List Byte) (io io' : Io) (r : ℤ) : Prop where
  phys : io'.phys = copied root addr w io.phys
  le : r ≤ reach io.phys.mem root addr w.length
  off : io.file.type = .inode → io'.file.off.toNat = io.file.off.toNat + r.toNat

variable {addr : ℕ} {n : ℤ} {w : List Byte} {α : Type} {a : α}

theorem Did.failed (root addr : ℕ) (io : Io) : Did root addr [] io io (-1) :=
  ⟨rfl, (show (-1 : ℤ) ≤ 0 by decide).trans (Int.natCast_nonneg _), fun _ => rfl⟩

theorem onFs_ok {x : FsM α} {s : Fs} (h : x io.fs = .ok (a, s)) : onFs x io = .ok (a, { io with fs := s }) :=
  zoom_ok h

theorem onPhys_ok {x : Exec KPanic Phys α} {σ : Phys} (h : x io.phys = .ok (a, σ)) :
    onPhys x io = .ok (a, { io with phys := σ }) :=
  zoom_ok h

theorem onPipe_ok {x : Exec KPanic PipeIo α} {p : PipeIo} (h : x ⟨io.pipe, io.phys⟩ = .ok (a, p)) :
    onPipe x io = .ok (a, { io with pipe := p.pipe, phys := p.phys }) := by
  unfold onPipe
  exact zoom_ok h

theorem piperead_did (h : io.Ok sb root) (haddr : addr < 2 ^ 64) (htype : io.file.type = .pipe) (killed : Bool)
    (hw : w = if killed then [] else io.pipe.bytes.take n.toNat) :
    ∃ r io', onPipe (piperead root addr n killed) io = .ok (r, io') ∧ Did root addr w io io' r := by
  have hno : io.file.type ≠ .inode := htype ▸ nofun
  cases killed with
  | true =>
    subst hw
    exact ⟨-1, io, onPipe_ok (p := ⟨io.pipe, io.phys⟩) rfl, .failed root addr io⟩
  | false =>
    obtain ⟨j, pi', hrun, hj, -, -⟩ := piperead_run (n := n) haddr h.apart h.pipe
    have hlen : w.length = min n.toNat io.pipe.bytes.length := by
      rw [hw, if_neg Bool.false_ne_true, length_take]
    refine ⟨j, _, onPipe_ok hrun, ?_, by rw [hlen, hj], fun h => absurd h hno⟩
    have hle : j ≤ min n.toNat io.pipe.bytes.length := hj ▸ reach_le _ _
    rw [copied, hlen, ← hj, hw, if_neg Bool.false_ne_true, take_take,
      Nat.min_eq_left (hle.trans (min_le_left _ _))]

theorem consoleread_did (h : io.Ok sb root) (haddr : addr < 2 ^ 64) (htype : io.file.type = .device)
    (chars : ℕ → Option Byte) (hw : w = line chars n.toNat 0) :
    ∃ r io', onPhys (consoleread root chars addr n) io = .ok (r, io') ∧ Did root addr w io io' r := by
  have hno : io.file.type ≠ .inode := htype ▸ nofun
  obtain ⟨res, hrun, hres⟩ := consolereadLoop_run chars h.apart haddr n.toNat 0 le_rfl
  rw [← hw] at hrun hres
  have hcons : consoleread root chars addr n io.phys =
      .ok (res.elim (-1) fun m => n - m, copied root addr w io.phys) := by
    rw [consoleread, bind_ok hrun]
    cases res <;> rfl
  refine ⟨_, _, onPhys_ok hcons, rfl, ?_, fun h => absurd h hno⟩
  rcases hres with rfl | rfl
  · exact (show (-1 : ℤ) ≤ 0 by decide).trans (Int.natCast_nonneg _)
  · rw [Option.elim_some]
    omega

theorem readi_did (h : io.Ok sb root) (haddr : addr < 2 ^ 64) (htype : io.file.type = .inode)
    (hw : w = if 2 ^ 32 ≤ io.file.off.toNat + (n % 2 ^ 32).toNat then []
      else ((io.fs.dataOf sb io.file.ip).drop io.file.off.toNat).take (n % 2 ^ 32).toNat) :
    ∃ r io', (do
        onFs (ilock sb io.file.ip)
        let r ← readi sb root io.file.ip addr io.file.off.toNat (n % 2 ^ 32).toNat
        if 0 < r then modify fun k => { k with file := { k.file with off := k.file.off + BitVec.ofInt 32 r } }
        onFs (iunlock io.file.ip)
        return r : IoM ℤ) io = .ok (r, io') ∧ Did root addr w io io' r ∧
      r = if reach io.phys.mem root addr w.length = w.length then (w.length : ℤ) else -1 := by
  obtain ⟨href, hlive, hfree⟩ := h.inode (.inl htype)
  obtain ⟨t, hlock, hv, href', hdisk, hcur⟩ := ilock_live href hlive
  have hsize : t.sizeOf sb io.file.ip = io.fs.sizeOf sb io.file.ip := by rw [Fs.sizeOf, hcur, Fs.sizeOf]
  have hfree' : t.HoleFree sb io.file.ip := ⟨hsize ▸ hfree.size_le, fun bn hbn => by
    rw [Fs.block, Fs.slot, hcur, hdisk]
    exact hfree.mapped bn (hsize ▸ hbn)⟩
  have hdata : t.dataOf sb io.file.ip = io.fs.dataOf sb io.file.ip := dataOf_congr hdisk hcur
  have hn : (n % 2 ^ 32).toNat < 2 ^ 32 := by omega
  rw [← hdata] at hw
  have hrun := readi_run (show (({ io with fs := t } : Io).fs.itable io.file.ip).valid = true from hv) hfree'
    h.apart haddr (BitVec.isLt _) hn hw
  have hunlock : ∀ k : Io, k.fs = t → onFs (iunlock io.file.ip) k = .ok ((), k) := fun k hk => by
    have hun : iunlock io.file.ip k.fs = .ok ((), k.fs) := by
      rw [iunlock, bind_ok (get_run _), if_neg (by rw [hk]; omega)]
      rfl
    exact onFs_ok hun
  rw [bind_ok (onFs_ok hlock), bind_ok hrun]
  split_ifs with hreach hpos hneg
  · -- the offset stays within the file
    have hbound : io.file.off.toNat + w.length < 2 ^ 32 := by
      have hmax : MAXFILE * BSIZE < 2 ^ 32 := by decide
      have hle := hfree.size_le
      rw [hw] at hpos ⊢
      split_ifs at hpos ⊢
      · exact absurd hpos (by simp)
      · simp only [length_take, length_drop, length_dataOf, hsize] at hpos ⊢
        omega
    refine ⟨w.length, _, (bind_ok rfl).trans (bind_ok (hunlock _ rfl)), ⟨rfl, by rw [hreach], fun _ => ?_⟩,
      rfl⟩
    change (io.file.off + BitVec.ofInt 32 w.length).toNat = _
    rw [BitVec.toNat_add, BitVec.toNat_ofInt]
    omega
  · refine ⟨w.length, _, bind_ok (hunlock _ rfl), ⟨rfl, by rw [hreach], fun _ => ?_⟩, rfl⟩
    change io.file.off.toNat = _
    omega
  · exact absurd hneg (by decide)
  · exact ⟨-1, _, bind_ok (hunlock _ rfl), ⟨rfl, (show (-1 : ℤ) ≤ 0 by decide).trans (Int.natCast_nonneg _),
      fun _ => rfl⟩, rfl⟩

/-- **What `fileread` does**: it stores the bytes it wants, up to the first unmapped address.  From
an inode all or nothing is returned. -/
theorem fileread_run (h : io.Ok sb root) (haddr : addr < 2 ^ 64) (inp : Inputs) (n : ℤ)
    (hw : w = io.wants sb inp n) :
    ∃ r io', fileread sb root inp addr n io = .ok (r, io') ∧ Did root addr w io io' r ∧
      (io.file.readable = true → io.file.type = .inode →
        r = if reach io.phys.mem root addr w.length = w.length then (w.length : ℤ) else -1) := by
  rw [fileread, bind_ok (get_run io)]
  simp only
  rw [wants] at hw
  cases hread : io.file.readable with
  | false =>
    rw [if_pos hread] at hw
    subst hw
    exact ⟨-1, io, rfl, .failed root addr io, nofun⟩
  | true =>
    rw [hread, if_neg Bool.true_eq_false.mp] at hw
    rw [if_neg Bool.true_eq_false.mp]
    cases htype : io.file.type with
    | none => exact absurd htype h.type
    | pipe =>
      rw [htype] at hw
      obtain ⟨r, io', hrun, hdid⟩ := piperead_did (n := n) h haddr htype inp.killed hw
      exact ⟨r, io', hrun, hdid, nofun⟩
    | device =>
      rw [htype] at hw
      simp only at hw ⊢
      by_cases hdev : io.file.major.toInt < 0 ∨ NDEV ≤ io.file.major.toInt ∨ devswRead io.file.major.toNat = false
      · rw [if_pos hdev] at hw ⊢
        subst hw
        exact ⟨-1, io, rfl, .failed root addr io, nofun⟩
      · rw [if_neg hdev] at hw ⊢
        obtain ⟨r, io', hrun, hdid⟩ := consoleread_did (n := n) h haddr htype inp.chars hw
        exact ⟨r, io', hrun, hdid, nofun⟩
    | inode =>
      rw [htype] at hw
      obtain ⟨r, io', hrun, hdid, hr⟩ := readi_did (n := n) h haddr htype hw
      exact ⟨r, io', hrun, hdid, fun _ _ => hr⟩

/-! ## Reads that return or store more than was asked -/

/-- A read has returned and stored no more than was asked. -/
structure AsAsked (root addr : ℕ) (n : ℤ) (io io' : Io) (r : ℤ) : Prop where
  ret : r ≤ max n 0
  mem : ∀ p o, (io'.phys.mem p).byteAt o ≠ (io.phys.mem p).byteAt o → ∃ k : ℕ, (k : ℤ) < max n 0 ∧
    userPage io.phys.mem root (uaddr addr k) = some p ∧ uaddr addr k % PGSIZE = o
  off : io.file.type = .inode → io'.file.off.toNat = io.file.off.toNat + r.toNat

/-- A negative count and an offset inside the file, whose sum as `uint`s does not wrap; storing the
rest of the file is seen by the result or in the memory. -/
structure Overruns (sb : Superblock) (root addr : ℕ) (n : ℤ) (io : Io) : Prop where
  readable : io.file.readable = true
  type : io.file.type = .inode
  neg : n < 0
  inside : io.file.off.toNat < io.fs.sizeOf sb io.file.ip
  nowrap : io.file.off.toNat < -n
  seen : reach io.phys.mem root addr (io.fs.sizeOf sb io.file.ip - io.file.off.toNat) =
      io.fs.sizeOf sb io.file.ip - io.file.off.toNat ∨
    (copied root addr ((io.fs.dataOf sb io.file.ip).drop io.file.off.toNat) io.phys).mem ≠ io.phys.mem

theorem length_line_le (chars : ℕ → Option Byte) (n k : ℕ) : (line chars n k).length ≤ n := by
  induction n generalizing k with
  | zero => exact le_rfl
  | succ n ih =>
    rw [line]
    cases chars k with
    | none => exact zero_le
    | some c =>
      simp only
      split_ifs
      · exact zero_le
      · exact succ_le_succ (Nat.zero_le n)
      · exact succ_le_succ (ih (k + 1))

/-- A read wants no more than was asked, apart from a negative count on an inode. -/
theorem length_wants_le (inp : Inputs) (hlt : n < 2 ^ 31)
    (h : ¬(io.file.readable = true ∧ io.file.type = .inode ∧ n < 0)) :
    (io.wants sb inp n).length ≤ n.toNat := by
  rw [wants]
  by_cases hread : io.file.readable = false
  · rw [if_pos hread]
    exact zero_le
  rw [if_neg hread]
  cases htype : io.file.type with
  | none => exact zero_le
  | pipe =>
    simp only
    split_ifs
    · exact zero_le
    · exact length_take_le _ _
  | device =>
    simp only
    split_ifs
    · exact zero_le
    · exact length_line_le _ _ _
  | inode =>
    have hn : 0 ≤ n := Int.not_lt.1 fun hneg => h ⟨Bool.eq_true_of_not_eq_false hread, htype, hneg⟩
    simp only
    rw [show n % 2 ^ 32 = n by omega]
    split_ifs
    · exact zero_le
    · exact length_take_le _ _

/-- A negative count on an inode wants the rest of the file, unless the sum wraps. -/
theorem wants_neg (inp : Inputs) (hread : io.file.readable = true) (htype : io.file.type = .inode)
    (hfree : io.fs.HoleFree sb io.file.ip) (hlo : -2 ^ 31 ≤ n) (hneg : n < 0) :
    io.wants sb inp n = if io.file.off.toNat < -n then
      (io.fs.dataOf sb io.file.ip).drop io.file.off.toNat else [] := by
  have hmax : MAXFILE * BSIZE < 2 ^ 31 := by decide
  have hle := hfree.size_le
  have hmod : ((n % 2 ^ 32).toNat : ℤ) = 2 ^ 32 + n := by omega
  rw [wants, hread, if_neg Bool.true_eq_false.mp, htype]
  simp only
  by_cases hwrap : io.file.off.toNat < -n
  · rw [if_pos hwrap, if_neg (by omega)]
    exact take_of_length_le (by rw [length_drop, length_dataOf]; omega)
  · rw [if_neg hwrap, if_pos (by omega)]

/-- **A read returns and stores no more than was asked, unless the count is negative and the file is an inode.** -/
theorem read_as_asked (h : io.Ok sb root) (haddr : addr < 2 ^ 64) (inp : Inputs) (hlo : -2 ^ 31 ≤ n)
    (hhi : n < 2 ^ 31) :
    ∃ r io', fileread sb root inp addr n io = .ok (r, io') ∧
      (AsAsked root addr n io io' r ↔ ¬Overruns sb root addr n io) := by
  obtain ⟨r, io', hrun, hdid, hinode⟩ := fileread_run h haddr inp n rfl
  refine ⟨r, io', hrun, ?_⟩
  have hchanged : ∀ p o, (io'.phys.mem p).byteAt o ≠ (io.phys.mem p).byteAt o →
      ∃ i < reach io.phys.mem root addr (io.wants sb inp n).length,
        userPage io.phys.mem root (uaddr addr i) = some p ∧ uaddr addr i % PGSIZE = o := fun p o hne =>
    exists_of_copied_ne haddr (hdid.phys ▸ hne)
  have hreach : reach io.phys.mem root addr (io.wants sb inp n).length ≤ _ := reach_le _ _
  have hret := hdid.le
  by_cases hbad : io.file.readable = true ∧ io.file.type = .inode ∧ n < 0
  · obtain ⟨hread, htype, hneg⟩ := hbad
    have hwants := wants_neg inp hread htype (h.inode (.inl htype)).2.2 hlo hneg
    have hr := hinode hread htype
    by_cases hin : io.file.off.toNat < io.fs.sizeOf sb io.file.ip ∧ io.file.off.toNat < -n
    · rw [if_pos hin.2] at hwants
      have hlen : (io.wants sb inp n).length = io.fs.sizeOf sb io.file.ip - io.file.off.toNat := by
        rw [hwants, List.length_drop, Fs.length_dataOf]
      have hphys := hdid.phys
      rw [hlen] at hr
      rw [hwants] at hphys
      constructor
      · intro hasked hover
        rcases hover.seen with hall | hmem
        · have hret' := hasked.ret
          rw [hr, if_pos hall] at hret'
          omega
        · obtain ⟨p, hp⟩ := Function.ne_iff.1 hmem
          obtain ⟨o, ho⟩ := not_forall.1 fun hall => hp (Bytes.ext_byteAt fun o _ => hall o)
          obtain ⟨k, hk, -⟩ := hasked.mem p o (hphys ▸ ho)
          omega
      · intro hno
        obtain ⟨hshort, hmem⟩ := not_or.1 fun hseen => hno ⟨hread, htype, hneg, hin.1, hin.2, hseen⟩
        refine ⟨by rw [hr, if_neg hshort]; omega, fun p o hne => absurd ?_ hne, hdid.off⟩
        rw [hphys, not_not.1 hmem]
    · -- the offset is at the end of the file or behind it, or the sum wraps
      have hnil : (io.wants sb inp n).length = 0 := by
        rw [hwants]
        split_ifs with hwrap
        · rw [List.length_drop, Fs.length_dataOf]
          omega
        · rfl
      refine iff_of_true ⟨by omega, fun p o hne => ?_, hdid.off⟩ fun hover => hin ⟨hover.inside, hover.nowrap⟩
      obtain ⟨i, hi, -⟩ := hchanged p o hne
      omega
  · -- as many bytes as were asked at most
    have hle : (io.wants sb inp n).length ≤ n.toNat := length_wants_le inp hhi hbad
    refine iff_of_true ⟨by omega, fun p o hne => ?_, hdid.off⟩ fun hover => hbad ⟨hover.readable, hover.type, hover.neg⟩
    obtain ⟨i, hi, hplace⟩ := hchanged p o hne
    exact ⟨i, by omega, hplace⟩

/-- The file of one byte is open. -/
def reading (σ : Phys) : Io := ⟨⟨1, .inode, true, false, 1, 0, 0⟩, oneByte, ⟨fun _ => 0, 0, 0⟩, σ⟩

theorem reading_ok {σ : Phys} (hσ : Apart σ.mem 1) : (reading σ).Ok .tiny 1 where
  apart := hσ
  pipe := ⟨show 0 < 2 ^ 32 by decide, show 0 < 2 ^ 32 by decide⟩
  type := nofun
  inode _ := ⟨show 0 < (oneByte.itable 1).ref by decide +kernel, oneByte_locked.live,
    oneByte_wf.noHoles.holeFree oneByte_locked.live⟩

/-- One byte. -/
theorem read_as_asked_one : ∃ io', fileread .tiny 1 ⟨false, fun _ => none⟩ (510 * PGSIZE) 1
      (reading (lastTwo (mkPte 4 22) 0)) = .ok (1, io') ∧
    AsAsked 1 (510 * PGSIZE) 1 (reading (lastTwo (mkPte 4 22) 0)) io' 1 := by
  have hone : (fileread .tiny 1 ⟨false, fun _ => none⟩ (510 * PGSIZE) 1
    (reading (lastTwo (mkPte 4 22) 0))).toOption.map Prod.fst = some 1 := by decide +kernel
  have hapart : Apart (lastTwo (mkPte 4 22) 0).mem 1 := lastTwo_apart _ _ (by decide) (by decide)
  obtain ⟨r, io', hrun, hiff⟩ := read_as_asked (n := 1) (reading_ok hapart)
    (show 510 * PGSIZE < 2 ^ 64 by decide) ⟨false, fun _ => none⟩ (by decide) (by decide)
  obtain rfl : r = 1 := by
    rw [hrun] at hone
    exact Option.some.inj hone
  exact ⟨io', hrun, hiff.2 fun hover => absurd hover.neg (by decide)⟩

/-- A read of -2 bytes from a file of one byte returns 1. -/
theorem read_overruns : ∃ io io', io.Ok .tiny 1 ∧
    fileread .tiny 1 ⟨false, fun _ => none⟩ (510 * PGSIZE) (-2) io = .ok (1, io') ∧
    ¬AsAsked 1 (510 * PGSIZE) (-2) io io' 1 := by
  have hone : (fileread .tiny 1 ⟨false, fun _ => none⟩ (510 * PGSIZE) (-2)
    (reading (lastTwo (mkPte 4 22) 0))).toOption.map Prod.fst = some 1 := by decide +kernel
  obtain ⟨⟨r, io'⟩, hrun, rfl⟩ := Exec.exists_ok_of_map hone
  exact ⟨_, io', reading_ok (lastTwo_apart _ _ (by decide) (by decide)), hrun, fun hasked =>
    absurd hasked.ret (by decide)⟩

end Io

end Xv6
