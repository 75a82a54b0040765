import Xv6.Fs.DirMap
import Xv6.Machinery.Runs

/-!
# Fs/Shared — writers that share one `struct file`

Any number of processes are in the loop of `filewrite` on one file.  The inode lock is held around
one `writei` and the update of `f->off`, so a step is one round (`writeChunk`); between rounds
anything may happen that leaves the file and its inode alone.  The ghost `log` has what each
`writei` returned and reported written.
-/

namespace Xv6

open Machinery Function Ensures List UserSrc Fs

/-! ## `filewrite`

Of pipes and devices only the entries in the file table are here; what writing them returns is an
argument. -/

/-- The `type` of `struct file`. -/
inductive FdType
  | none
  | pipe
  | inode
  | device
  deriving DecidableEq, Repr

/-- `struct file`. -/
structure OpenFile where
  ref : ℕ
  type : FdType
  readable : Bool
  writable : Bool
  ip : ℕ
  off : BitVec 32
  major : BitVec 16

/-- The descriptors and the current directory of a process. -/
structure FsProc where
  ofile : Fin NOFILE → Option (Fin NFILE)
  cwd : ℕ

/-- The file system with its users, the processes `P`. -/
structure FsSys (P : Type) where
  fs : Fs
  file : Fin NFILE → OpenFile
  proc : P → FsProc

/-- The panics of the calls. -/
inductive CallPanic
  | fs (e : FsPanic)
  | fileclose
  | filedup
  | fileread
  | filewrite
  deriving DecidableEq, Repr

/-- The bytes from `i` on. -/
def UserSrc.shift (src : UserSrc) (i : ℕ) : UserSrc :=
  ⟨fun k => src.byte (i + k), fun tot m => src.fault (i + tot) m⟩

namespace FsSys

variable {P : Type} [DecidableEq P]

abbrev SysM (P α : Type) := Exec CallPanic (FsSys P) α

def onFs {α : Type} (x : FsM α) : SysM P α := x.zoom .fs FsSys.fs fun k s => { k with fs := s }

def setFile (f : Fin NFILE) (e : OpenFile) : SysM P Unit :=
  modify fun k => { k with file := update k.file f e }

variable (sb : Superblock)

/-- What reading or writing something else than an inode does. -/
def device (k : OpenFile) (e : CallPanic) (other : ℤ) : SysM P ℤ :=
  if k.type = .none then throw e
  else if k.type = .device ∧ (k.major.toInt < 0 ∨ NDEV ≤ k.major.toInt) then return -1
  else return other

/-- The loop of `filewrite`; every round writes at least one byte, or it is the last. -/
def writeRounds (f : Fin NFILE) (src : UserSrc) (n : ℕ) : (fuel i : ℕ) → SysM P ℤ
  | 0, i => return if i = n then n else -1
  | fuel + 1, i => do
    if i < n then
      let k ← get
      let n1 := min (n - i) ((MAXOPBLOCKS - 1 - 1 - 2) / 2 * BSIZE)
      onFs (ilock sb (k.file f).ip)
      let r ← onFs (writei sb (k.file f).ip (src.shift i) (k.file f).off.toNat n1)
      if 0 < r then setFile f { k.file f with off := (k.file f).off + BitVec.ofInt 32 r }
      onFs (iunlock (k.file f).ip)
      if r ≠ n1 then return if i = n then n else -1
      else writeRounds f src n fuel (i + n1)
    else return if i = n then n else -1

def filewrite (f : Fin NFILE) (src : UserSrc) (n : BitVec 32) (other : ℤ) : SysM P ℤ := do
  let k ← get
  if (k.file f).writable = false then return -1
  else if (k.file f).type = .inode then
    if n.toInt < 0 then return -1
    else writeRounds sb f src n.toNat n.toNat 0
  else device (k.file f) .filewrite other

end FsSys

/-! ## What `writei` leaves up to its end -/

variable {d w : List Byte}

theorem Fs.length_written {off len : ℕ} (hoff : off ≤ d.length) (hlen : len ≤ w.length) :
    (Fs.written d off len w).length = max d.length (off + len) := by
  simp only [Fs.written, length_take, length_append, length_drop]
  omega

/-- A part of what was stored beyond the end is not seen. -/
theorem Fs.take_written {off len : ℕ} (hoff : off ≤ d.length) (hlen : len ≤ w.length) :
    (Fs.written d off len w).take (off + len) = d.take off ++ w.take len := by
  have hd : (d.take off).length = off := length_take_of_le hoff
  rw [Fs.written, take_take, min_eq_left (le_max_right _ _), take_append, hd,
    take_of_length_le (by omega), Nat.add_sub_cancel_left, take_append_of_le_length hlen]

theorem UserSrc.length_bytes (src : UserSrc) (tot m : ℕ) : (src.bytes tot m).length = m := by
  simp [UserSrc.bytes]

theorem UserSrc.take_bytes (src : UserSrc) (tot : ℕ) {m n : ℕ} (h : m ≤ n) :
    (src.bytes tot n).take m = src.bytes tot m := by
  rw [UserSrc.bytes, UserSrc.bytes, ← map_take, take_range, min_eq_left h]

namespace FsSys

variable {P : Type} (sb : Superblock)

/-- `n1`: how much a round of `filewrite` tries to write. -/
def chunkLen (n i : ℕ) : ℕ := min (n - i) ((MAXOPBLOCKS - 1 - 1 - 2) / 2 * BSIZE)

/-- What a round of `filewrite` does under the inode lock. -/
def writeChunk (f : Fin NFILE) (src : UserSrc) (n i : ℕ) : SysM P ℤ := do
  let k ← get
  onFs (ilock sb (k.file f).ip)
  let r ← onFs (writei sb (k.file f).ip (src.shift i) (k.file f).off.toNat (chunkLen n i))
  if 0 < r then setFile f { k.file f with off := (k.file f).off + BitVec.ofInt 32 r }
  onFs (iunlock (k.file f).ip)
  return r

theorem writeRounds_succ (f : Fin NFILE) (src : UserSrc) (n fuel i : ℕ) :
    writeRounds sb f src n (fuel + 1) i = (if i < n then do
      let r ← writeChunk sb f src n i
      if r ≠ chunkLen n i then return if i = n then n else -1
      else writeRounds sb f src n fuel (i + chunkLen n i)
    else return if i = n then n else -1 : SysM P ℤ) := by
  rw [writeRounds]
  simp only [writeChunk, chunkLen, bind_assoc]
  refine if_congr Iff.rfl (congrArg _ (funext fun k => congrArg _ (funext fun _ => congrArg _
    (funext fun r => ?_)))) rfl
  by_cases hr : 0 < r
  · simp only [if_pos hr, bind_assoc, pure_bind]
    rfl
  · simp only [if_neg hr, bind_assoc, pure_bind]
    rfl

/-- The file `f` when a round has reported `r`. -/
def advanced (k : FsSys P) (f : Fin NFILE) (r : ℤ) : Fin NFILE → OpenFile :=
  update k.file f { k.file f with off := BitVec.ofNat 32 ((k.file f).off.toNat + r.toNat) }

theorem advanced_of_le (k : FsSys P) (f : Fin NFILE) {r : ℤ} (h : r ≤ 0) : advanced k f r = k.file := by
  rw [advanced, Int.toNat_of_nonpos h, add_zero, BitVec.ofNat_toNat, BitVec.setWidth_eq]
  exact update_eq_self f _

theorem advanced_of_lt (k : FsSys P) (f : Fin NFILE) {r : ℤ} (h : 0 < r) :
    advanced k f r = update k.file f { k.file f with off := (k.file f).off + BitVec.ofInt 32 r } := by
  obtain ⟨n, rfl⟩ := Int.eq_ofNat_of_zero_le h.le
  rw [advanced, Int.toNat_natCast, BitVec.ofInt_natCast, BitVec.ofNat_add, BitVec.ofNat_toNat,
    BitVec.setWidth_eq]

/-- The inode of file `f` can be locked, and holds `nd`. -/
structure Ready (f : Fin NFILE) (k : FsSys P) (nd : Node) : Prop where
  wf : k.fs.Wf sb
  ref : 0 < (k.fs.itable (k.file f).ip).ref
  node : k.fs.node sb (k.file f).ip = some nd

variable {sb}

theorem ip_advanced (k : FsSys P) (f : Fin NFILE) (r : ℤ) : (advanced k f r f).ip = (k.file f).ip := by
  rw [advanced, update_self]

/-- The end of a round: `f->off` is moved and the inode is unlocked. -/
theorem endChunk {f : Fin NFILE} {k : FsSys P} {s : Fs} (r : ℤ) (href : 0 < (s.itable (k.file f).ip).ref) :
    Ensures (do
        if 0 < r then setFile f { k.file f with off := (k.file f).off + BitVec.ofInt 32 r }
        onFs (iunlock (k.file f).ip)
        return r : SysM P ℤ) { k with fs := s }
      (fun r' k' => r' = r ∧ k' = { k with fs := s, file := advanced k f r }) := by
  by_cases hr : 0 < r
  · rw [if_pos hr, bind_iff, setFile, modify_iff, bind_iff, onFs, zoom_iff]
    refine (iunlock_spec href).mono (fun _ t ht => ?_) fun _ h => h
    subst ht
    exact .pure ⟨rfl, by rw [advanced_of_lt k f hr]⟩
  · rw [if_neg hr, bind_iff, onFs, zoom_iff]
    refine (iunlock_spec href).mono (fun _ t ht => ?_) fun _ h => h
    subst ht
    exact .pure ⟨rfl, by rw [advanced_of_le k f (not_lt.1 hr)]⟩

/-- **One round stores a part of its bytes at `f->off` and moves it by what it reports.** -/
theorem writeChunk_spec (hsb : sb.Ok) {f : Fin NFILE} {k : FsSys P} {nd : Node} (h : Ready sb f k nd)
    (src : UserSrc) (n i : ℕ) :
    Ensures (writeChunk sb f src n i) k
      (fun r k' => k'.file = advanced k f r ∧
        ((r = -1 ∧ Ready sb f k' nd) ∨ (k.file f).off.toNat ≤ nd.data.length ∧
          ∃ len all : ℕ, r = len ∧ len ≤ all ∧ all ≤ chunkLen n i ∧ Ready sb f k'
            { nd with data := Fs.written nd.data (k.file f).off.toNat len ((src.shift i).bytes 0 all) })) := by
  have hlive := node_ne_none.1 (h.node ▸ Option.some_ne_none nd)
  have hlen : chunkLen n i < 2 ^ 32 := by
    have : (MAXOPBLOCKS - 1 - 1 - 2) / 2 * BSIZE < 2 ^ 32 := by decide
    exact (min_le_right _ _).trans_lt this
  unfold writeChunk
  rw [get_bind_iff, bind_iff, onFs, zoom_iff]
  refine (ilock_spec h.wf hlive.1 h.ref).mono (fun _ s1 ⟨hwf, hview, hvalid, _⟩ => ?_)
    fun e ⟨_, hnone⟩ => nomatch hnone.symm.trans h.node
  have hnode1 : s1.node sb (k.file f).ip = some nd := by
    rw [← view_node, hview, View.lock_node, view_node, h.node]
  have href1 : 0 < (s1.itable (k.file f).ip).ref := by
    have href : (s1.itable (k.file f).ip).ref = (k.fs.itable (k.file f).ip).ref :=
      congrArg (fun v => v.ref (k.file f).ip) hview
    exact href ▸ h.ref
  rw [bind_iff, onFs, zoom_iff]
  refine (writei_spec hwf hsb hvalid (src.shift i) (BitVec.isLt _) hlen).mono
    (fun r s2 hr => ?_) fun _ h => h
  rcases hr with ⟨rfl, rfl, -⟩ | ⟨hoff, len, all, rfl, hle, hall, hw, -⟩
  · refine (endChunk (-1) href1).mono (fun r k' ⟨hr, hk⟩ => ?_) fun _ h => h
    subst hr hk
    refine ⟨rfl, .inl ⟨rfl, hwf, ?_, ?_⟩⟩
    · rwa [ip_advanced]
    · rwa [ip_advanced]
  · rw [size_of_node hnode1] at hoff
    have href2 : 0 < (s2.itable (k.file f).ip).ref := by rwa [hw.ref]
    refine (endChunk len href2).mono (fun r k' ⟨hr, hk⟩ => ?_) fun _ h => h
    subst hr hk
    refine ⟨rfl, .inr ⟨hoff, len, all, rfl, hle, hall, hw.wf, ?_, ?_⟩⟩
    · rwa [ip_advanced]
    · rw [ip_advanced, hw.node nd hnode1, update_self]

end FsSys

/-! ## The writers -/

/-- A process in the loop of `filewrite`: its buffer, `n` and `i`, and what it has returned. -/
structure Writer where
  src : UserSrc
  n : BitVec 32
  i : ℕ
  ret : Option ℤ

namespace Writer

variable (w : Writer)

/-- The bytes to write: none if `n` is negative. -/
def size : ℕ := w.n.toInt.toNat

/-- `i == n ? n : -1`. -/
def result : ℤ := if (w.i : ℤ) = w.n.toInt then w.n.toInt else -1

/-- The writer when a round has reported `r`. -/
def after (r : ℤ) : Writer :=
  if r ≠ FsSys.chunkLen w.size w.i then { w with ret := some w.result }
  else { w with i := w.i + FsSys.chunkLen w.size w.i }

end Writer

/-- What one `writei` returned, and the bytes it reported written. -/
structure Chunk where
  r : ℤ
  bytes : List Byte

/-- The system, with the writers on one of its files. -/
structure Shared (P : Type) where
  sys : FsSys P
  writer : P → Writer
  log : List Chunk

namespace Shared

variable {P : Type} (sb : Superblock) (f : Fin NFILE)

/-- Others leave the file and its inode as they are. -/
structure Elsewhere (k k' : FsSys P) : Prop where
  file : k'.file f = k.file f
  wf : k'.fs.Wf sb
  ref : 0 < (k'.fs.itable (k.file f).ip).ref
  node : k'.fs.node sb (k.file f).ip = k.fs.node sb (k.file f).ip

/-- `f->off`. -/
def off (s : Shared P) : ℕ := (s.sys.file f).off.toNat

/-- What the rounds have reported written, in their order. -/
def reported (s : Shared P) : List Byte := (s.log.map Chunk.bytes).flatten

/-- Where the writers stand: `nd` is the inode now, `d₀` were its bytes at first. -/
structure Sofar (s₀ : Shared P) (d₀ : List Byte) (s : Shared P) (nd : Node) : Prop where
  ready : FsSys.Ready sb f s.sys nd
  ip : (s.sys.file f).ip = (s₀.sys.file f).ip
  off : s.off f = s₀.off f + s.reported.length
  each : ∀ c ∈ s.log, c.bytes.length = c.r.toNat
  data : (s₀.off f ≤ d₀.length ∧ s.off f ≤ nd.data.length ∧
      nd.data.take (s.off f) = d₀.take (s₀.off f) ++ s.reported) ∨
    d₀.length < s₀.off f ∧ nd.data = d₀ ∧ s.reported = []

variable {sb f} {s₀ s t : Shared P} {d₀ : List Byte} {nd : Node}

theorem Sofar.start (h : FsSys.Ready sb f s₀.sys nd) (hlog : s₀.log = []) : Sofar sb f s₀ nd.data s₀ nd where
  ready := h
  ip := rfl
  off := by simp [reported, hlog]
  each := by simp [hlog]
  data := by
    rcases le_or_gt (s₀.off f) nd.data.length with hle | hlt
    · exact .inl ⟨hle, hle, by simp [reported, hlog]⟩
    · exact .inr ⟨hlt, rfl, by simp [reported, hlog]⟩

theorem reported_append (k : FsSys P) (w : P → Writer) (c : Chunk) :
    reported ⟨k, w, s.log ++ [c]⟩ = s.reported ++ c.bytes := by
  simp [reported]

theorem Sofar.chunk (hsb : sb.Ok) (h : Sofar sb f s₀ d₀ s nd) {src : UserSrc} {n i : ℕ} {r : ℤ}
    {k : FsSys P} (w : P → Writer) (hrun : FsSys.writeChunk sb f src n i s.sys = .ok (r, k)) :
    ∃ nd', Sofar sb f s₀ d₀ ⟨k, w, s.log ++ [⟨r, (src.shift i).bytes 0 r.toNat⟩]⟩ nd' := by
  obtain ⟨hfile, hr⟩ := (FsSys.writeChunk_spec hsb h.ready src n i).of_ok hrun
  have hip : (k.file f).ip = (s₀.sys.file f).ip := by rw [hfile, FsSys.ip_advanced, h.ip]
  have heach : ∀ c ∈ s.log ++ [(⟨r, (src.shift i).bytes 0 r.toNat⟩ : Chunk)],
      c.bytes.length = c.r.toNat := fun c hc => by
    rcases mem_append.1 hc with hc | hc
    · exact h.each c hc
    · rw [mem_singleton.1 hc, length_bytes]
  have hrep : reported ⟨k, w, s.log ++ [⟨r, (src.shift i).bytes 0 r.toNat⟩]⟩ =
      s.reported ++ (src.shift i).bytes 0 r.toNat := reported_append ..
  rcases hr with ⟨rfl, hready⟩ | ⟨hoff, len, all, rfl, hle, -, hready⟩
  · have hsame : Shared.off f ⟨k, w, s.log ++ [⟨-1, (src.shift i).bytes 0 (-1 : ℤ).toNat⟩]⟩ = s.off f := by
      rw [Shared.off, Shared.off, hfile, FsSys.advanced_of_le _ _ (by norm_num)]
    have hrep' := hrep.trans (append_nil _)
    refine ⟨nd, hready, hip, ?_, heach, ?_⟩
    · rw [hsame, hrep', h.off]
    · rw [hsame, hrep']
      exact h.data
  · have hall : len ≤ ((src.shift i).bytes 0 all).length := by rwa [length_bytes]
    have hlen := length_written (w := (src.shift i).bytes 0 all) hoff hall
    have htake := take_written (w := (src.shift i).bytes 0 all) hoff hall
    rw [take_bytes _ _ hle] at htake
    have hmax := hready.wf.noHoles.size_le _ (node_ne_none.1 (hready.node ▸ Option.some_ne_none _))
    rw [size_of_node hready.node, hlen] at hmax
    have hnew : Shared.off f ⟨k, w, s.log ++ [⟨len, (src.shift i).bytes 0 (len : ℤ).toNat⟩]⟩ =
        s.off f + len := by
      have h32 : MAXFILE * BSIZE < 2 ^ 32 := by decide
      rw [Shared.off, Shared.off, hfile, FsSys.advanced, update_self, Int.toNat_natCast,
        BitVec.toNat_ofNat, Nat.mod_eq_of_lt (by omega)]
    rw [Int.toNat_natCast] at hrep hnew heach ⊢
    refine ⟨_, hready, hip, ?_, heach, ?_⟩
    · rw [hnew, hrep, length_append, length_bytes, h.off, add_assoc]
    · rcases h.data with ⟨h0, -, hd⟩ | ⟨hlt, hd, hnil⟩
      · refine .inl ⟨h0, ?_, ?_⟩
        · rw [hnew, hlen]
          exact le_max_right _ _
        · rw [hnew, hrep]
          exact htake.trans (by rw [← append_assoc, ← hd]; rfl)
      · have := h.off
        rw [hnil, length_nil] at this
        have hle : s.off f ≤ d₀.length := hd ▸ hoff
        omega

theorem Sofar.elsewhere (h : Sofar sb f s₀ d₀ s nd) {k : FsSys P} (he : Elsewhere sb f s.sys k) :
    Sofar sb f s₀ d₀ { s with sys := k } nd where
  ready := ⟨he.wf, by rw [he.file]; exact he.ref, by rw [he.file, he.node]; exact h.ready.node⟩
  ip := by rw [he.file, h.ip]
  off := by
    rw [← show s.off f = Shared.off f { s with sys := k } by rw [Shared.off, Shared.off, he.file]]
    exact h.off
  each := h.each
  data := by
    rw [← show s.off f = Shared.off f { s with sys := k } by rw [Shared.off, Shared.off, he.file]]
    exact h.data

theorem Sofar.slice (h : Sofar sb f s₀ d₀ s nd) :
    (nd.data.drop (s₀.off f)).take (s.off f - s₀.off f) = s.reported := by
  rcases h.data with ⟨h0, hle, hd⟩ | ⟨-, -, hnil⟩
  · have hlen : (d₀.take (s₀.off f)).length = s₀.off f := length_take_of_le h0
    rw [← drop_take, hd, drop_append_of_le_length (by omega), drop_of_length_le (by omega),
      nil_append]
  · have := h.off
    rw [hnil, length_nil] at this
    rw [hnil, this, add_zero, Nat.sub_self, take_zero]

/-! ## One writer -/

theorem bytes_append (src : UserSrc) (i m : ℕ) :
    src.bytes 0 i ++ (src.shift i).bytes 0 m = src.bytes 0 (i + m) := by
  simp only [UserSrc.bytes, UserSrc.shift, zero_add, range_add, map_append, map_map, comp_def]

/-- **What the rounds of one writer leave**: they end, with a beginning of its bytes in the file. -/
theorem Sofar.rounds (hsb : sb.Ok) {src : UserSrc} {n fuel i : ℕ} (h : Sofar sb f s₀ d₀ s nd)
    (hrep : s.reported = src.bytes 0 i) (hi : i ≤ n) (hfuel : n ≤ i + fuel) :
    Ensures (FsSys.writeRounds sb f src n fuel i) s.sys
      (fun r k => ∃ log nd' len, Sofar sb f s₀ d₀ ⟨k, s.writer, log⟩ nd' ∧
        reported ⟨k, s.writer, log⟩ = src.bytes 0 len ∧ len ≤ n ∧ r = if len = n then (n : ℤ) else -1) := by
  induction fuel generalizing i s nd with
  | zero => exact .pure ⟨s.log, nd, i, h, hrep, hi, rfl⟩
  | succ fuel ih =>
    rw [FsSys.writeRounds_succ]
    by_cases hlt : i < n
    · have hpos : 0 < FsSys.chunkLen n i := lt_min (by omega) (by decide)
      have hle : FsSys.chunkLen n i ≤ n - i := min_le_left _ _
      obtain ⟨r, k, hrun, -, hr⟩ := (FsSys.writeChunk_spec hsb h.ready src n i).exists_ok
      obtain ⟨nd', h'⟩ := h.chunk hsb s.writer hrun
      have hrep' := (reported_append (s := s) k s.writer ⟨r, (src.shift i).bytes 0 r.toNat⟩).trans
        (hrep ▸ bytes_append src i r.toNat)
      have hbound : r = -1 ∨ r = r.toNat ∧ r.toNat ≤ FsSys.chunkLen n i := by
        rcases hr with ⟨hr, -⟩ | ⟨-, len, all, hr, hlen, hall, -⟩ <;> omega
      rw [if_pos hlt, bind_iff, ok_iff hrun]
      by_cases hfull : r = FsSys.chunkLen n i
      · rw [if_neg (not_not.2 hfull)]
        rw [hfull, Int.toNat_natCast] at hrep' h'
        exact ih h' hrep' (by omega) (by omega)
      · rw [if_pos hfull, if_neg hlt.ne]
        refine .pure ⟨_, nd', i + r.toNat, h', hrep', by omega, ?_⟩
        rw [if_neg (by omega)]
    · rw [if_neg hlt]
      exact .pure ⟨s.log, nd, i, h, hrep, hi, rfl⟩

theorem Sofar.take_eq (h : Sofar sb f s₀ d₀ s nd) : nd.data.take (s₀.off f) = d₀.take (s₀.off f) := by
  rcases h.data with ⟨h0, -, hd⟩ | ⟨-, hd, -⟩
  · have hle : s₀.off f ≤ s.off f := h.off ▸ le_self_add
    have htake := congrArg (take (s₀.off f)) hd
    rwa [take_take, min_eq_left hle, take_left' (length_take_of_le h0)] at htake
  · rw [hd]

/-- **`filewrite` reports `n` if and only if all its bytes are in the file at `f->off`**; when it fails,
`f->off` says how many are. -/
theorem filewrite_reports (hsb : sb.Ok) {k : FsSys P} (h : FsSys.Ready sb f k nd)
    (hw : (k.file f).writable = true) (htype : (k.file f).type = .inode) (src : UserSrc) {n : BitVec 32}
    (hn : 0 ≤ n.toInt) (other : ℤ) :
    Ensures (FsSys.filewrite sb f src n other) k
      (fun r k' => ∃ len nd', len ≤ n.toNat ∧ (r = if len = n.toNat then n.toInt else -1) ∧
        FsSys.Ready sb f k' nd' ∧ (k'.file f).ip = (k.file f).ip ∧
        (k'.file f).off.toNat = (k.file f).off.toNat + len ∧
        nd'.data.take (k.file f).off.toNat = nd.data.take (k.file f).off.toNat ∧
        (nd'.data.drop (k.file f).off.toNat).take len = src.bytes 0 len) := by
  have hnat : n.toInt = n.toNat := by
    rw [BitVec.toInt_eq_toNat_cond] at hn ⊢
    split_ifs at hn ⊢ <;> omega
  have hstart : Sofar sb f ⟨k, fun _ => ⟨src, n, 0, none⟩, []⟩ nd.data ⟨k, fun _ => ⟨src, n, 0, none⟩, []⟩ nd :=
    .start h rfl
  rw [FsSys.filewrite, get_bind_iff, if_neg (by simp [hw]), if_pos htype, if_neg (not_lt.2 hn)]
  refine (hstart.rounds hsb (show _ = src.bytes 0 0 from rfl) zero_le (by omega)).imp ?_
  rintro r k' ⟨log, nd', len, hs, hrep, hle, hr⟩
  have hoff : (k'.file f).off.toNat = (k.file f).off.toNat + len := by
    have hoff := hs.off
    rwa [hrep, length_bytes] at hoff
  refine ⟨len, nd', hle, hnat ▸ hr, hs.ready, hs.ip, hoff, hs.take_eq, ?_⟩
  have hslice := hs.slice
  rwa [hrep, show Shared.off f ⟨k', _, log⟩ = (k.file f).off.toNat + len from hoff,
    show Shared.off f ⟨k, _, []⟩ = (k.file f).off.toNat from rfl, Nat.add_sub_cancel_left] at hslice

/-! ## Interleavings

Whatever the order of the rounds, the log lists them as they follow each other in the file. -/

variable [DecidableEq P] (sb f)

/-- Process `p` does a round or leaves the loop, or something else happens. -/
inductive Step : Shared P → Option P → Shared P → Prop
  | chunk {s : Shared P} {p : P} {r : ℤ} {k : FsSys P} (hret : (s.writer p).ret = none)
      (hi : (s.writer p).i < (s.writer p).size)
      (hrun : FsSys.writeChunk sb f (s.writer p).src (s.writer p).size (s.writer p).i s.sys = .ok (r, k)) :
      Step s (some p) ⟨k, update s.writer p ((s.writer p).after r),
        s.log ++ [⟨r, ((s.writer p).src.shift (s.writer p).i).bytes 0 r.toNat⟩]⟩
  | leave {s : Shared P} {p : P} (hret : (s.writer p).ret = none)
      (hi : (s.writer p).size ≤ (s.writer p).i) :
      Step s (some p)
        { s with writer := update s.writer p { s.writer p with ret := some (s.writer p).result } }
  | other {s : Shared P} {k : FsSys P} (h : Elsewhere sb f s.sys k) : Step s none { s with sys := k }

/-- The writers at work, from `s₀` on. -/
def sharing (s₀ : Shared P) : System (Shared P) (Option P) := ⟨(· = s₀), Step sb f⟩

variable {sb f}

/-- **The invariant of every run.** -/
theorem Sofar.run (hsb : sb.Ok) (h0 : FsSys.Ready sb f s₀.sys nd) (hlog : s₀.log = [])
    (hs : (sharing sb f s₀).Reachable s) : ∃ nd', Sofar sb f s₀ nd.data s nd' := by
  refine hs.invariant (I := fun s => ∃ nd', Sofar sb f s₀ nd.data s nd') ?_ ?_
  · rintro s rfl
    exact ⟨nd, .start h0 hlog⟩
  · rintro s l t - ⟨nd', h⟩ hst
    cases hst with
    | chunk _ _ hrun => exact h.chunk hsb _ hrun
    | leave => exact ⟨nd', h.ready, h.ip, h.off, h.each, h.data⟩
    | other he => exact ⟨nd', h.elsewhere he⟩

/-- A writer that has not returned can go on: no round panics. -/
theorem Sofar.exists_step (hsb : sb.Ok) (h : Sofar sb f s₀ d₀ s nd) {p : P}
    (hp : (s.writer p).ret = none) : ∃ t, Step sb f s (some p) t := by
  by_cases hi : (s.writer p).i < (s.writer p).size
  · obtain ⟨r, k, hrun, -⟩ := (FsSys.writeChunk_spec hsb h.ready (s.writer p).src (s.writer p).size
      (s.writer p).i).exists_ok
    exact ⟨_, .chunk hp hi hrun⟩
  · exact ⟨_, .leave hp (not_lt.1 hi)⟩

/-- Writers through one `struct file` lose no update. -/
theorem shared_writes (hsb : sb.Ok) (h₀ : FsSys.Ready sb f s₀.sys nd) (hlog : s₀.log = [])
    (hs : (sharing sb f s₀).Reachable s) :
    (∃ nd', s.sys.fs.node sb (s₀.sys.file f).ip = some nd' ∧
      s.off f = s₀.off f + (s.log.map fun c => c.r.toNat).sum ∧
      (nd'.data.drop (s₀.off f)).take (s.off f - s₀.off f) = (s.log.map Chunk.bytes).flatten) ∧
    ∀ p, (s.writer p).ret = none → ∃ t, (sharing sb f s₀).step s (some p) t := by
  obtain ⟨nd', h⟩ := Sofar.run hsb h₀ hlog hs
  have hsum : s.reported.length = (s.log.map fun c => c.r.toNat).sum := by
    rw [reported, List.length_flatten, List.map_map]
    exact congrArg _ (List.map_congr_left h.each)
  exact ⟨⟨nd', h.ip ▸ h.ready.node, hsum ▸ h.off, h.slice⟩, fun p hp => h.exists_step hsb hp⟩

end Shared

def Dinode.emptyFile : Dinode := { Dinode.zero with type := T_FILE, nlink := 1 }

def firstFile : Fin NFILE := ⟨0, NFILE_pos⟩

/-- Two processes about to write 4000 and 10 bytes to an empty file. -/
def twoWriters : Shared Bool where
  sys :=
    { fs := Fs.tiny.store .tiny 1 .emptyFile
      file := fun _ => ⟨2, .inode, false, true, 1, 0, 0⟩
      proc := fun _ => ⟨fun _ => some firstFile, 1⟩ }
  writer p := ⟨⟨fun _ => if p then 1 else 2, fun _ _ => none⟩, if p then 4000 else 10, 0, none⟩
  log := []

theorem twoWriters_ready : FsSys.Ready .tiny firstFile twoWriters.sys ⟨T_FILE, 0, 0, 1, []⟩ := by
  have h := tiny_dirLocked.wf
  have hlive := (h.locked (i := 1) rfl).live
  have haddrs : Dinode.emptyFile.addrs = (Fs.tiny.cur .tiny 1).addrs := rfl
  have hmapped : ∀ bn, bn * BSIZE < Dinode.emptyFile.size.toNat → Fs.tiny.block .tiny 1 bn ≠ 0 :=
    fun bn hbn => absurd hbn (Nat.not_lt_zero _)
  refine ⟨⟨h.owned.store Superblock.tiny_ok hlive haddrs (by decide),
    Fs.NoHoles.store Superblock.tiny_ok h.owned hlive haddrs (by decide) (by decide) hmapped h.noHoles,
    Fs.Synced.store (fun j _ hvj => h.synced j hvj) hlive (by decide)⟩, ?_, ?_⟩
  · exact Nat.one_pos
  · exact node_store_self Superblock.tiny_ok h.owned hlive haddrs (by decide) (by decide) hmapped

/-- The file with one byte in it. -/
def oneByte : Fs := ((writei .tiny 1 (.kernel [7]) 0 1 twoWriters.sys.fs).toOption.map Prod.snd).getD .tiny

theorem oneByte_wf : oneByte.Wf .tiny := by
  obtain ⟨r, s, hrun, hspec⟩ := (writei_spec (i := 1) (n := 1) twoWriters_ready.wf Superblock.tiny_ok rfl
    (.kernel [7]) (show 0 < 2 ^ 32 by decide) (by decide)).exists_ok
  rw [oneByte, hrun]
  obtain ⟨-, rfl, -⟩ | ⟨-, _, _, -, -, -, hw, -⟩ := hspec
  · exact twoWriters_ready.wf
  · exact hw.wf

theorem oneByte_locked : oneByte.Locked .tiny 1 := oneByte_wf.locked (by decide +kernel)

theorem dataOf_oneByte : oneByte.dataOf .tiny 1 = [7] := by decide +kernel

/-- One of them, alone. -/
theorem filewrite_reports_ten : ∃ k' nd', FsSys.filewrite .tiny firstFile (twoWriters.writer false).src 10 0
      twoWriters.sys = .ok (10, k') ∧ k'.fs.node .tiny 1 = some nd' ∧ (k'.file firstFile).off.toNat = 10 ∧
    nd'.data.take 10 = replicate 10 2 := by
  have hten : (FsSys.filewrite .tiny firstFile (twoWriters.writer false).src 10 0
    twoWriters.sys).toOption.map Prod.fst = some 10 := by decide +kernel
  obtain ⟨⟨r, k'⟩, hrun, rfl⟩ := Exec.exists_ok_of_map hten
  obtain ⟨len, nd', -, hlen, hready, hip, hoff, -, hdata⟩ := (Shared.filewrite_reports Superblock.tiny_ok
    twoWriters_ready rfl rfl (twoWriters.writer false).src (n := 10) (by decide) 0).of_ok hrun
  obtain rfl : len = 10 := by
    by_contra hne
    exact absurd (hlen.trans (if_neg hne)) (by decide)
  have hip : (k'.file firstFile).ip = 1 := hip
  exact ⟨k', nd', hrun, hip ▸ hready.node, hoff, hdata⟩

/-- A round of each. -/
theorem shared_writes_two : ∃ t nd, (Shared.sharing .tiny firstFile twoWriters).Reachable t ∧ t.log.length = 2 ∧
    t.sys.fs.node .tiny 1 = some nd ∧ nd.data.take (t.off firstFile) = (t.log.map Chunk.bytes).flatten := by
  have hwrites := fun s => Shared.shared_writes Superblock.tiny_ok twoWriters_ready rfl (s := s)
  obtain ⟨s, hs⟩ := (hwrites _ (.init rfl)).2 true rfl
  have hone : s.log.length = 1 ∧ s.writer false = twoWriters.writer false := by
    cases hs with
    | chunk => exact ⟨rfl, rfl⟩
    | leave _ hi => exact absurd hi (by decide)
  obtain ⟨t, ht⟩ := (hwrites s (.step (.init rfl) hs)).2 false (by rw [hone.2]; rfl)
  have hreach := (System.Reachable.init rfl).step hs |>.step ht
  obtain ⟨nd, hnode, -, hslice⟩ := (hwrites t hreach).1
  refine ⟨t, nd, hreach, ?_, hnode, hslice⟩
  cases ht with
  | chunk => rw [length_append, hone.1]; rfl
  | leave _ hi =>
    rw [hone.2] at hi
    exact absurd hi (by decide)

end Xv6
