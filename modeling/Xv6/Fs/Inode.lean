import Xv6.Machinery.Exec
import Xv6.Fs.Layout

/-!
# Fs/Inode — blocks, inodes and their contents (`kernel/fs.c`)

The functions of `fs.c` up to `writei`, over the blocks as `bread` returns them and the in-memory
inodes by inode number; `iupdate` copies one to the disk.  Calls run one after the other.  The bytes
a caller writes and where copies fault are parameters.
-/

namespace Xv6

open Machinery Function

/-- The panics of `fs.c` and `sysfile.c`. -/
inductive FsPanic
  /-- `"freeing free block"`. -/
  | freeingFreeBlock
  /-- `"iget: no inodes"`. -/
  | igetNoInodes
  /-- `"ilock"`. -/
  | ilock
  /-- `"ilock: no type"`. -/
  | ilockNoType
  /-- `"iunlock"`. -/
  | iunlock
  /-- `"bmap: out of range"`. -/
  | bmapRange
  /-- `"dirlookup not DIR"`. -/
  | dirlookupNotDir
  /-- `"dirlookup read"`. -/
  | dirlookupRead
  /-- `"dirlink read"`. -/
  | dirlinkRead
  /-- `"unlink: writei"`. -/
  | unlinkWritei
  deriving DecidableEq, Repr

/-- An entry of `itable`: `ref`, `valid` and the copy of the on-disk inode. -/
structure InodeEntry where
  ref : ℕ
  valid : Bool
  din : Dinode

/-- The blocks, and the in-memory inodes by number. -/
structure Fs where
  disk : Disk
  itable : ℕ → InodeEntry

/-- Assign an entry of `itable`. -/
def Fs.setEntry (s : Fs) (i : ℕ) (e : InodeEntry) : Fs := { s with itable := update s.itable i e }

def Fs.setBlock (s : Fs) (b : ℕ) (x : Block) : Fs := { s with disk := update s.disk b x }

@[simp] theorem Fs.disk_setEntry (s : Fs) (i : ℕ) (e : InodeEntry) : (s.setEntry i e).disk = s.disk := rfl

@[simp] theorem Fs.itable_setEntry (s : Fs) (i : ℕ) (e : InodeEntry) :
    (s.setEntry i e).itable = update s.itable i e := rfl

@[simp] theorem Fs.disk_setBlock (s : Fs) (b : ℕ) (x : Block) :
    (s.setBlock b x).disk = update s.disk b x := rfl

/-- A function of `fs.c`. -/
abbrev FsM (α : Type) := Exec FsPanic Fs α

/-- The source of a `writei`: its bytes, and after how many bytes copying a piece faults. -/
structure UserSrc where
  byte : ℕ → Byte
  fault : (tot m : ℕ) → Option ℕ

/-- The `m` bytes from `tot` on. -/
def UserSrc.bytes (src : UserSrc) (tot m : ℕ) : List Byte := (List.range m).map fun k => src.byte (tot + k)

/-- Byte `k` is copied with a piece that does not fault. -/
def UserSrc.Reads (src : UserSrc) (k : ℕ) : Prop := ∃ tot m, tot ≤ k ∧ k < tot + m ∧ src.fault tot m = none

def UserSrc.kernel (l : List Byte) : UserSrc := ⟨fun k => l.getD k 0, fun _ _ => none⟩

variable (sb : Superblock)

/-! ## Blocks -/

/-- `balloc`: the first block whose bit is clear, zeroed; 0 if there is none. -/
def balloc : FsM ℕ := do
  let s ← get
  match (List.range sb.size).find? fun b => !sb.bitAt s.disk b with
  | none => return 0
  | some b =>
    set ({ s with disk := sb.markUsed s.disk b }.setBlock b (Bytes.fill BSIZE 0))
    return b

def bfree (b : ℕ) : FsM Unit := do
  let s ← get
  if sb.bitAt s.disk b then set { s with disk := sb.markFree s.disk b }
  else throw .freeingFreeBlock

/-! ## Inodes -/

/-- The fields of `*ip`. -/
def inode (i : ℕ) : FsM Dinode := do return ((← get).itable i).din

theorem inode_run (i : ℕ) (s : Fs) : inode i s = .ok ((s.itable i).din, s) := rfl

/-- Assign the fields of `*ip`. -/
def setInode (i : ℕ) (din : Dinode) : FsM Unit :=
  modify fun s => s.setEntry i { s.itable i with din := din }

def iupdate (i : ℕ) : FsM Unit :=
  modify fun s => { s with disk := sb.putInode s.disk i (s.itable i).din }

/-- How many of the `NINODE` entries of `itable` are in use: `iget` never gives an inode two, and inode
numbers are `ushort`s on the disk. -/
def Fs.active (s : Fs) : ℕ := (List.range (2 ^ 16)).countP fun i => 0 < (s.itable i).ref

/-- `iget`: an entry more is in use if the inode had none. -/
def iget (i : ℕ) : FsM Unit := do
  let s ← get
  if 0 < (s.itable i).ref then set (s.setEntry i { s.itable i with ref := (s.itable i).ref + 1 })
  else if s.active < NINODE then set (s.setEntry i { s.itable i with ref := 1, valid := false })
  else throw .igetNoInodes

/-- `ialloc`: the first inode of type 0; none if there is none. -/
def ialloc (type : BitVec 16) : FsM (Option ℕ) := do
  let s ← get
  match (List.range' 1 (sb.ninodes - 1)).find? fun i => (sb.inodeAt s.disk i).type = 0 with
  | none => return none
  | some i =>
    set { s with disk := sb.putInode s.disk i { Dinode.zero with type := type } }
    iget i
    return some i

def ilock (i : ℕ) : FsM Unit := do
  let s ← get
  if (s.itable i).ref < 1 then throw .ilock
  else if (s.itable i).valid then return
  else
    set (s.setEntry i { s.itable i with valid := true, din := sb.inodeAt s.disk i })
    if (sb.inodeAt s.disk i).type = 0 then throw .ilockNoType

def iunlock (i : ℕ) : FsM Unit := do
  let s ← get
  if (s.itable i).ref < 1 then throw .iunlock

/-! ## Inode content -/

/-- `ip->addrs[k]`, allocated if it is 0. -/
def addrBlock (i k : ℕ) : FsM ℕ := do
  let ip ← inode i
  if ip.addr k ≠ 0 then return ip.addr k
  else
    let addr ← balloc sb
    if addr = 0 then return 0
    else
      setInode i (ip.setAddr k addr)
      return addr

/-- The entry `bn` of an indirect block. -/
def indirect (b : Block) (bn : ℕ) : ℕ := b.getLE (4 * bn) 4

def bmap (i bn : ℕ) : FsM ℕ := do
  if bn < NDIRECT then addrBlock sb i bn
  else if bn - NDIRECT < NINDIRECT then
    let a ← addrBlock sb i NDIRECT
    if a = 0 then return 0
    else
      let s ← get
      if indirect (s.disk a) (bn - NDIRECT) ≠ 0 then return indirect (s.disk a) (bn - NDIRECT)
      else
        let addr ← balloc sb
        if addr = 0 then return 0
        else
          modify fun s => s.setBlock a ((s.disk a).putLE (4 * (bn - NDIRECT)) 4 addr)
          return addr
  else throw .bmapRange

/-- The first loop of `itrunc`, over the direct blocks `ks`. -/
def truncDirect (i : ℕ) : List ℕ → FsM Unit
  | [] => return
  | k :: ks => do
    let ip ← inode i
    if ip.addr k ≠ 0 then
      bfree sb (ip.addr k)
      setInode i (ip.setAddr k 0)
    truncDirect i ks

/-- The second loop of `itrunc`, over the entries `js` of the indirect block `a`. -/
def truncIndirect (a : ℕ) : List ℕ → FsM Unit
  | [] => return
  | j :: js => do
    let s ← get
    if indirect (s.disk a) j ≠ 0 then bfree sb (indirect (s.disk a) j)
    truncIndirect a js

def itrunc (i : ℕ) : FsM Unit := do
  truncDirect sb i (List.range NDIRECT)
  let ip ← inode i
  if ip.addr NDIRECT ≠ 0 then
    truncIndirect sb (ip.addr NDIRECT) (List.range NINDIRECT)
    bfree sb (ip.addr NDIRECT)
    setInode i (ip.setAddr NDIRECT 0)
  let ip ← inode i
  setInode i { ip with size := 0 }
  iupdate sb i

def iput (i : ℕ) : FsM Unit := do
  let s ← get
  if (s.itable i).ref = 1 ∧ (s.itable i).valid = true ∧ (s.itable i).din.nlink = 0 then
    itrunc sb i
    let ip ← inode i
    setInode i { ip with type := 0 }
    iupdate sb i
    modify fun s => s.setEntry i { s.itable i with valid := false }
  modify fun s => s.setEntry i { s.itable i with ref := (s.itable i).ref - 1 }

/-- `m = min(n - tot, BSIZE - off%BSIZE)`. -/
def piece (off n tot : ℕ) : ℕ := min (n - tot) (BSIZE - off % BSIZE)

/-- The loop of `readi`; every round copies a byte at least, so `n` are enough. -/
def readLoop (i : ℕ) (fault : ℕ → ℕ → Bool) : (fuel off n tot : ℕ) → List Byte → FsM (ℤ × List Byte)
  | 0, _, _, tot, got => return (tot, got)
  | fuel + 1, off, n, tot, got =>
    if tot < n then do
      let addr ← bmap sb i (off / BSIZE)
      if addr = 0 then return (tot, got)
      else
        let s ← get
        if fault tot (piece off n tot) then return (-1, got)
        else
          readLoop i fault fuel (off + piece off n tot) n (tot + piece off n tot)
            (got ++ (s.disk addr).slice (off % BSIZE) (piece off n tot))
    else return (tot, got)

/-- `readi`: its result, and the bytes copied. -/
def readi (i : ℕ) (fault : ℕ → ℕ → Bool) (off n : ℕ) : FsM (ℤ × List Byte) := do
  let ip ← inode i
  if ip.size.toNat < off ∨ (off + n) % 2 ^ 32 < off then return (0, [])
  else
    let n := if ip.size.toNat < (off + n) % 2 ^ 32 then ip.size.toNat - off else n
    readLoop sb i fault n off n 0 []

/-- The loop of `writei`, and its `off` and `tot` at the end.  A fault leaves a part of the piece in the
buffer. -/
def writeLoop (i : ℕ) (src : UserSrc) : (fuel off n tot : ℕ) → FsM (ℕ × ℕ)
  | 0, off, _, tot => return (off, tot)
  | fuel + 1, off, n, tot =>
    if tot < n then do
      let addr ← bmap sb i (off / BSIZE)
      if addr = 0 then return (off, tot)
      else
        match src.fault tot (piece off n tot) with
        | some j =>
          modify fun s => s.setBlock addr
            ((s.disk addr).splice (off % BSIZE) (src.bytes tot (min j (piece off n tot))))
          return (off, tot)
        | none =>
          modify fun s => s.setBlock addr
            ((s.disk addr).splice (off % BSIZE) (src.bytes tot (piece off n tot)))
          writeLoop i src fuel (off + piece off n tot) n (tot + piece off n tot)
    else return (off, tot)

def writei (i : ℕ) (src : UserSrc) (off n : ℕ) : FsM ℤ := do
  let ip ← inode i
  if ip.size.toNat < off ∨ (off + n) % 2 ^ 32 < off then return -1
  else if MAXFILE * BSIZE < (off + n) % 2 ^ 32 then return -1
  else
    let (off, tot) ← writeLoop sb i src n off n 0
    let ip ← inode i
    if ip.size.toNat < off then setInode i { ip with size := BitVec.ofNat 32 off }
    iupdate sb i
    return tot

end Xv6
