import Xv6.Machinery.Bytes

/-!
# Param — the constants of `kernel/param.h`, `kernel/fs.h`, `kernel/riscv.h`, `kernel/memlayout.h`
-/

namespace Xv6

open Machinery

/-! ## `param.h` -/

/-- Maximum number of processes. -/
def NPROC : ℕ := 64

theorem NPROC_pos : 0 < NPROC := by decide

theorem one_lt_NPROC : 1 < NPROC := by decide

/-- Open files per process. -/
def NOFILE : ℕ := 16

/-- Open files per system. -/
def NFILE : ℕ := 100

theorem NFILE_pos : 0 < NFILE := by decide

/-- Maximum number of active i-nodes. -/
def NINODE : ℕ := 50

/-- Maximum major device number. -/
def NDEV : ℕ := 10

/-- Max exec arguments. -/
def MAXARG : ℕ := 32

/-- Maximum file path name. -/
def MAXPATH : ℕ := 128

/-- Max # of blocks any FS op writes. -/
def MAXOPBLOCKS : ℕ := 10

/-- Max data blocks in on-disk log. -/
def LOGSIZE : ℕ := MAXOPBLOCKS * 3

/-- Size of disk block cache. -/
def NBUF : ℕ := MAXOPBLOCKS * 3

/-! ## `fs.h` -/

/-- Block size. -/
def BSIZE : ℕ := 1024

/-- The contents of a disk block: `uchar data[BSIZE]`. -/
abbrev Block := Bytes BSIZE

/-- The disk, by block number. -/
abbrev Disk := ℕ → Block

/-! ## `riscv.h`, `memlayout.h` -/

/-- Bytes per page. -/
def PGSIZE : ℕ := 4096

theorem PGSIZE_pos : 0 < PGSIZE := by decide

/-- The contents of a page. -/
abbrev Page := Bytes PGSIZE

/-- One beyond the highest possible virtual address. -/
def MAXVA : ℕ := 2 ^ (9 + 9 + 9 + 12 - 1)

def KERNBASE : ℕ := 0x80000000

def PHYSTOP : ℕ := KERNBASE + 128 * 1024 * 1024

def TRAMPOLINE : ℕ := MAXVA - PGSIZE

def TRAPFRAME : ℕ := TRAMPOLINE - PGSIZE

def KSTACK (p : ℕ) : ℕ := TRAMPOLINE - (p + 1) * 2 * PGSIZE

def UART0 : ℕ := 0x10000000

def VIRTIO0 : ℕ := 0x10001000

def PLIC : ℕ := 0x0c000000

def PTE_V : ℕ := 1
def PTE_R : ℕ := 2
def PTE_W : ℕ := 4
def PTE_X : ℕ := 8
def PTE_U : ℕ := 16

/-- `PGROUNDUP` on `uint64`. -/
def pgRoundUp (sz : ℕ) : ℕ := (sz + PGSIZE - 1) % 2 ^ 64 / PGSIZE * PGSIZE

def pgRoundDown (a : ℕ) : ℕ := a / PGSIZE * PGSIZE

end Xv6
