import Xv6.Machinery.Runs
import Xv6.Block.Descriptors

/-!
# Block/Virtio — requests to the disk and their completions

`virtio_disk_rw` and `virtio_disk_intr` for any number of processes, with a device that serves the
announced chains in any order and returns each once, with status 0.  A step of the driver ends where
the device can see a difference or `vdisk_lock` changes hands.  A sleeper may be woken at any time
(`kill` wakes it, too), so that `wakeup` itself does nothing here.  The ghost `trace` has what
happened to the descriptors.
-/

namespace Xv6

open Machinery Function List Option Bool

/-- Where a process is in `virtio_disk_rw`. -/
inductive RwPc (Buf : Type)
  | outside
  /-- At `alloc3_desc`. -/
  | alloc (b : Buf) (write : Bool)
  /-- In `sleep(&disk.free[0], &disk.vdisk_lock)`. -/
  | noDesc (b : Buf) (write : Bool)
  /-- Has three descriptors, about to format them. -/
  | format (r : DiskReq Buf)
  /-- About to increment `disk.avail->idx`. -/
  | publish (r : DiskReq Buf)
  /-- At the test `b->disk == 1`. -/
  | wait (r : DiskReq Buf)
  /-- In `sleep(b, &disk.vdisk_lock)`. -/
  | asleep (r : DiskReq Buf)
  /-- Past the loop, about to clear `info[idx[0]].b` and to call `free_chain`. -/
  | finish (r : DiskReq Buf)
  /-- About to release `vdisk_lock`. -/
  | leave
  deriving DecidableEq, Repr

/-- Who holds `vdisk_lock`. -/
inductive VdiskLock (n : ℕ)
  | free
  | proc (p : Fin n)
  /-- `virtio_disk_intr`, at the test of its loop or in the body. -/
  | intr (body : Bool)
  deriving DecidableEq, Repr

/-- What happens to descriptors. -/
inductive DiskEvent (Buf : Type)
  /-- Three descriptors are allocated for a request. -/
  | submit (r : DiskReq Buf)
  /-- The handler has processed a completion and cleared `b->disk`. -/
  | complete (head : ℕ) (b : Buf)
  /-- `free_chain` frees a descriptor. -/
  | free (i : ℕ)
  deriving DecidableEq, Repr

/-- What a descriptor is used for. -/
inductive DescStage (Buf : Type)
  | unused
  | queued (r : DiskReq Buf)
  | completed (r : DiskReq Buf)
  deriving DecidableEq, Repr

/-- **What may happen to descriptor `i`**: an unused one is given to a request; a completion is for
the buffer of a queued request with this head; a descriptor of a completed request is freed. -/
def DescStage.act {Buf : Type} [DecidableEq Buf] (i : ℕ) :
    DescStage Buf → DiskEvent Buf → Option (DescStage Buf)
  | .unused, .submit r => some (if i ∈ r.idx then .queued r else .unused)
  | .unused, .complete head _ => if head = i then none else some .unused
  | .unused, .free j => if j = i then none else some .unused
  | .queued r, .submit r' => if i ∈ r'.idx then none else some (.queued r)
  | .queued r, .complete head b =>
    if head = r.head then (if b = r.b then some (.completed r) else none) else some (.queued r)
  | .queued r, .free j => if j = i then none else some (.queued r)
  | .completed r, .submit r' => if i ∈ r'.idx then none else some (.completed r)
  | .completed r, .complete head _ => if head = r.head then none else some (.completed r)
  | .completed r, .free j => some (if j = i then .unused else .completed r)

/-- The stage of descriptor `i` after what happened, if all of it may happen. -/
def replay {Buf : Type} [DecidableEq Buf] (i : ℕ) (trace : List (DiskEvent Buf)) :
    Option (DescStage Buf) :=
  trace.foldlM (DescStage.act i) .unused

/-- The driver, its processes and the device. -/
structure VirtioSys (n : ℕ) (Buf : Type) where
  disk : VirtioDisk Buf
  /-- `b->disk`. -/
  busy : Buf → Bool
  lock : VdiskLock n
  pc : Fin n → RwPc Buf
  /-- How far the device has looked in the avail ring. -/
  seen : ℕ
  /-- Heads of the chains that the device works on. -/
  fetched : List ℕ
  /-- Heads of the chains whose status byte has been written. -/
  served : List ℕ
  /-- The head written to the used ring before `used->idx` is incremented. -/
  posted : Option ℕ
  panic : Option String
  trace : List (DiskEvent Buf)

/-- What can happen next. -/
inductive VirtioOp (n : ℕ) (Buf : Type)
  /-- `virtio_disk_rw(b, write)`, up to `acquire(&disk.vdisk_lock)`. -/
  | call (p : Fin n) (b : Buf) (write : Bool)
  /-- The next statements of `p`. -/
  | go (p : Fin n)
  /-- `virtio_disk_intr()`, up to `acquire(&disk.vdisk_lock)`. -/
  | intr
  /-- The next statements of `virtio_disk_intr`. -/
  | intrGo
  /-- The device takes the next entry of the avail ring. -/
  | fetch
  /-- The device has transferred the data of a chain and writes its status byte. -/
  | serve (head : ℕ)
  /-- The device writes the head of a served chain to the used ring. -/
  | post (head : ℕ)
  /-- The device increments `used->idx`. -/
  | bump
  deriving DecidableEq, Repr

namespace RwPc

variable {Buf : Type}

/-- The request that `p` has descriptors for. -/
def req : RwPc Buf → Option (DiskReq Buf)
  | .format r | .publish r | .wait r | .asleep r | .finish r => some r
  | .outside | .alloc _ _ | .noDesc _ _ | .leave => none

def ready : RwPc Buf → Option (DiskReq Buf)
  | .publish r | .wait r | .asleep r | .finish r => some r
  | .outside | .alloc _ _ | .noDesc _ _ | .format _ | .leave => none

/-- The request that has been announced to the device. -/
def sent : RwPc Buf → Option (DiskReq Buf)
  | .wait r | .asleep r | .finish r => some r
  | .outside | .alloc _ _ | .noDesc _ _ | .format _ | .publish _ | .leave => none

/-- The argument `b`. -/
def buf : RwPc Buf → Option Buf
  | .alloc b _ | .noDesc b _ => some b
  | .format r | .publish r | .wait r | .asleep r | .finish r => some r.b
  | .outside | .leave => none

def view (pc : RwPc Buf) : Option (DiskReq Buf) × Option (DiskReq Buf) × Option (DiskReq Buf) × Option Buf :=
  (pc.req, pc.ready, pc.sent, pc.buf)

/-- `p` holds `vdisk_lock`. -/
def locked : RwPc Buf → Bool
  | .outside | .noDesc _ _ | .asleep _ => false
  | .alloc _ _ | .format _ | .publish _ | .wait _ | .finish _ | .leave => true

/-- What is known of `b->disk` here. -/
def flag : RwPc Buf → Option Bool
  | .alloc _ _ | .noDesc _ _ | .format _ | .finish _ => some false
  | .publish _ => some true
  | .outside | .wait _ | .asleep _ | .leave => none

variable {pc : RwPc Buf} {r : DiskReq Buf}

theorem req_of_ready (h : pc.ready = some r) : pc.req = some r := by
  cases pc <;> first | exact h | cases h

theorem ready_of_sent (h : pc.sent = some r) : pc.ready = some r := by
  cases pc <;> first | exact h | cases h

theorem req_of_sent (h : pc.sent = some r) : pc.req = some r :=
  req_of_ready (ready_of_sent h)

theorem buf_of_req (h : pc.req = some r) : pc.buf = some r.b := by
  cases pc <;> cases h <;> rfl

end RwPc

namespace VirtioSys

variable {n : ℕ} {Buf : Type} [DecidableEq Buf]

/-- After `virtio_disk_init`. -/
def start : VirtioSys n Buf where
  disk := .start
  busy _ := false
  lock := .free
  pc _ := .outside
  seen := 0
  fetched := []
  served := []
  posted := none
  panic := none
  trace := []

/-- `p` goes to `pc`. -/
def goto (s : VirtioSys n Buf) (p : Fin n) (pc : RwPc Buf) (lock : VdiskLock n) : VirtioSys n Buf :=
  { s with pc := update s.pc p pc, lock := lock }

/-- The statements of `virtio_disk_rw`. -/
def go (blockno : Buf → ℕ) (s : VirtioSys n Buf) (p : Fin n) : Option (VirtioSys n Buf) :=
  match s.pc p with
  | .outside => none
  | .alloc b write =>
    match s.disk.alloc3Desc with
    | .error e => some { s with panic := some e }
    | .ok (d, some [i, j, k]) =>
      let r : DiskReq Buf := ⟨b, write, i, j, k⟩
      some { s.goto p (.format r) s.lock with disk := d, trace := s.trace ++ [.submit r] }
    | .ok (d, _) => some { s.goto p (.noDesc b write) .free with disk := d }
  | .noDesc b write => if s.lock = .free then some (s.goto p (.alloc b write) (.proc p)) else none
  | .format r =>
    some { s.goto p (.publish r) s.lock with
      disk := s.disk.format blockno r
      busy := update s.busy r.b true }
  | .publish r =>
    some { s.goto p (.wait r) s.lock with
      disk := { s.disk with avail := s.disk.avail.advance } }
  | .wait r =>
    if s.busy r.b then some (s.goto p (.asleep r) .free) else some (s.goto p (.finish r) s.lock)
  | .asleep r => if s.lock = .free then some (s.goto p (.wait r) (.proc p)) else none
  | .finish r =>
    let d := { s.disk with info := update s.disk.info r.head ⟨none, (s.disk.info r.head).status⟩ }
    match d.freeChain r.head with
    | .error e => some { s with panic := some e }
    | .ok (d, freed) => some { s.goto p .leave s.lock with disk := d, trace := s.trace ++ freed.map .free }
  | .leave => some (s.goto p .outside .free)

/-- The statements of `virtio_disk_intr`.  Without a buffer, `b->disk = 0` is a kernel page fault. -/
def intrGo (s : VirtioSys n Buf) : Option (VirtioSys n Buf) :=
  match s.lock with
  | .intr false =>
    some { s with lock := if s.disk.usedIdx ≠ s.disk.used.idx then .intr true else .free }
  | .intr true =>
    let id := s.disk.used.ring (s.disk.usedIdx % NUM)
    if (s.disk.info id).status ≠ 0 then some { s with panic := some "virtio_disk_intr status" }
    else
      match (s.disk.info id).b with
      | none => some { s with panic := some "kerneltrap" }
      | some b =>
        some { s with
          busy := update s.busy b false
          disk := { s.disk with usedIdx := incr16 s.disk.usedIdx }
          lock := .intr false
          trace := s.trace ++ [.complete id b] }
  | _ => none

/-- The device follows a chain and writes 0 to its status byte. -/
def writeStatus (d : VirtioDisk Buf) (head : ℕ) : VirtioDisk Buf :=
  match (d.desc (d.desc (d.desc head).next).next).addr with
  | .status i => { d with info := update d.info i ⟨(d.info i).b, 0⟩ }
  | _ => d

def next (blockno : Buf → ℕ) (s : VirtioSys n Buf) : VirtioOp n Buf → Option (VirtioSys n Buf)
  | .call p b write =>
    -- `b` is locked by its caller
    if s.pc p = .outside ∧ s.lock = .free ∧ ∀ q, (s.pc q).buf ≠ some b then
      some (s.goto p (.alloc b write) (.proc p))
    else none
  | .go p => if s.panic = none then s.go blockno p else none
  | .intr => if s.lock = .free then some { s with lock := .intr false } else none
  | .intrGo => if s.panic = none then s.intrGo else none
  | .fetch =>
    if s.seen ≠ s.disk.avail.idx then
      some { s with
        fetched := s.disk.avail.ring (s.seen % NUM) :: s.fetched
        seen := incr16 s.seen }
    else none
  | .serve head =>
    if head ∈ s.fetched then
      some { s with
        disk := writeStatus s.disk head
        fetched := s.fetched.erase head
        served := head :: s.served }
    else none
  | .post head =>
    if head ∈ s.served ∧ s.posted = none then
      some { s with
        disk := { s.disk with used := s.disk.used.put head }
        served := s.served.erase head
        posted := some head }
    else none
  | .bump =>
    if s.posted.isSome then
      some { s with
        disk := { s.disk with used := s.disk.used.advance }
        posted := none }
    else none

/-- The driver and its device from `virtio_disk_init` on. -/
def system (n : ℕ) (blockno : Buf → ℕ) : System (VirtioSys n Buf) (VirtioOp n Buf) :=
  .ofNext (· = start) (next blockno)

end VirtioSys

end Xv6
