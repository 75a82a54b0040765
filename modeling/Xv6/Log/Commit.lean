import Xv6.Block.Cache
import Xv6.Machinery.Exec

/-!
# Log/Commit — the redo log of `kernel/log.c`

The on-disk log is a header block and copies of the logged blocks.  Its functions run on the buffer
cache of `Block/Cache`, with one thread inside `commit`.
-/

namespace Xv6

open Machinery Function

/-- Where the log lives, inside a disk whose block numbers are `int`s. -/
structure LogArea where
  start : ℕ
  size : ℕ
  nonempty : 0 < size
  fits : start + size ≤ 2 ^ 31

namespace LogArea

/-- The blocks of the log: the header and the `size - 1` blocks behind it. -/
def Mem (la : LogArea) (b : ℕ) : Prop := la.start ≤ b ∧ b < la.start + la.size

instance (la : LogArea) (b : ℕ) : Decidable (la.Mem b) := inferInstanceAs (Decidable (_ ∧ _))

end LogArea

/-! ## The header block: `struct logheader { int n; int block[LOGSIZE]; }` -/

/-- The value of a 32-bit `int`. -/
def toInt32 (v : ℕ) : ℤ := if v < 2 ^ 31 then v else (v : ℤ) - 2 ^ 32

/-- `lh->block[0..n)` of a header block, read entry by entry up to `lh->n`. -/
def headBlocks (hb : Block) : List ℕ :=
  (List.range (toInt32 (hb.getLE 0 4)).toNat).map fun i => hb.getLE (4 + 4 * i) 4

/-- Store block numbers from offset `off` on. -/
def putBlocks (hb : Block) (off : ℕ) : List ℕ → Block
  | [] => hb
  | b :: bs => putBlocks (hb.putLE off 4 b) (off + 4) bs

/-- The header block `write_head` writes over `hb`: entries from `n` on stay as they were. -/
def headWith (hb : Block) (lh : List ℕ) : Block := putBlocks (hb.putLE 0 4 lh.length) 4 lh

/-! ## The log in memory -/

/-- Why the log panics. -/
inductive LogPanic
  | tooBig
  | outsideOfTrans
  | committing
  deriving DecidableEq, Repr

/-- The block layer with the in-memory log header `log.lh` (its first `n` entries) and
`log.outstanding`. -/
structure LogState extends Blocks where
  lh : List ℕ
  outstanding : ℕ

namespace LogState

variable (la : LogArea) (lru : Cache → Option ℕ)

/-- The loop of `write_log` from `tail` on: copy modified blocks from cache to log. -/
def writeLogFrom (s : Blocks) (tail : ℕ) : List ℕ → Blocks
  | [] => s
  | b :: bs =>
    let s := s.bread lru (la.start + tail + 1)
    let s := s.bread lru b
    let s := s.memmove (la.start + tail + 1) (s.contents b)
    let s := s.bwrite (la.start + tail + 1)
    let s := s.brelse b
    let s := s.brelse (la.start + tail + 1)
    writeLogFrom s (tail + 1) bs

def writeLog (s : LogState) : LogState :=
  { s with toBlocks := writeLogFrom la lru s.toBlocks 0 s.lh }

/-- `write_head`: write in-memory log header to disk. -/
def writeHead (s : LogState) : LogState :=
  let t := s.toBlocks.bread lru la.start
  let t := t.memmove la.start (headWith (t.contents la.start) s.lh)
  let t := t.bwrite la.start
  { s with toBlocks := t.brelse la.start }

/-- The loop of `install_trans` from `tail` on: copy committed blocks from log to their home. -/
def installFrom (recovering : Bool) (s : Blocks) (tail : ℕ) : List ℕ → Blocks
  | [] => s
  | b :: bs =>
    let s := s.bread lru (la.start + tail + 1)
    let s := s.bread lru b
    let s := s.memmove b (s.contents (la.start + tail + 1))
    let s := s.bwrite b
    let s := if recovering then s else s.bunpin b
    let s := s.brelse (la.start + tail + 1)
    let s := s.brelse b
    installFrom recovering s (tail + 1) bs

def installTrans (recovering : Bool) (s : LogState) : LogState :=
  { s with toBlocks := installFrom la lru recovering s.toBlocks 0 s.lh }

def commit (s : LogState) : LogState :=
  if 0 < s.lh.length then
    let s := writeLog la lru s
    let s := writeHead la lru s
    let s := installTrans la lru false s
    writeHead la lru { s with lh := [] }
  else s

/-- `read_head`: read the log header from disk into the in-memory log header. -/
def readHead (s : LogState) : LogState :=
  let t := s.toBlocks.bread lru la.start
  { s with toBlocks := t.brelse la.start, lh := headBlocks (t.contents la.start) }

def recoverFromLog (s : LogState) : LogState :=
  let s := readHead la lru s
  let s := installTrans la lru true s
  writeHead la lru { s with lh := [] }

/-- Memory after a reboot with disk `d`: nothing is cached. -/
def boot (d : Disk) : LogState := ⟨⟨d, fun _ => none, []⟩, [], 0⟩

/-- `log_write`: record block `b`'s number and pin it in the cache. -/
def logWrite (b : ℕ) : Exec LogPanic LogState Unit := do
  let s ← get
  if LOGSIZE ≤ s.lh.length ∨ la.size - 1 ≤ s.lh.length then throw .tooBig
  if s.outstanding < 1 then throw .outsideOfTrans
  if b ∈ s.lh then return
  set { s with toBlocks := s.toBlocks.bpin b, lh := s.lh ++ [b] }

/-- The typical use of `log_write`: `bp = bread(b); modify bp->data; log_write(bp); brelse(bp)`. -/
def logUpdate (op : ℕ × Block) : Exec LogPanic LogState Unit := do
  modify fun s => { s with toBlocks := (s.toBlocks.bread lru op.1).memmove op.1 op.2 }
  logWrite la op.1
  modify fun s => { s with toBlocks := s.toBlocks.brelse op.1 }

def logUpdates : List (ℕ × Block) → Exec LogPanic LogState Unit
  | [] => pure ()
  | op :: ops => do
    logUpdate la lru op
    logUpdates ops

end LogState

end Xv6
