import Xv6.Param
import Xv6.Lib.Machine
import Xv6.Lib.Ring
import Mathlib.Data.List.FinRange

/-! The virtio disk driver of `virtio_disk.c`, with the device, the interrupt handler and the
processes that call `virtio_disk_rw`.
What runs under `vdisk_lock` between two calls of `sleep` is one step; the handler is split at
its loop, so that the device may add completions while it runs.  The device takes chains from
the avail ring and finishes them in any order and at any time. -/
namespace Xv6
namespace Virtio

open Function

abbrev NUM : ℕ := 8

/-- Ring indices are `uint16`. -/
abbrev IDX : ℕ := 2^16

inductive Panic
  | freeDesc1
  | freeDesc2
  | intrStatus
  deriving DecidableEq

/-- What a descriptor's `addr` can point to. -/
inductive Addr
  | null
  | op (i : Fin NUM)
  | data (b : ℕ)
  | status (i : Fin NUM)
  deriving DecidableEq

/-- `struct virtq_desc`; the two flag bits are `VRING_DESC_F_NEXT` and `VRING_DESC_F_WRITE`. -/
structure Desc where
  addr : Addr
  len : ℕ
  hasNext : Bool
  write : Bool
  next : ℕ
  deriving DecidableEq

def Desc.zero : Desc := ⟨.null,0,false,false,0⟩

/-- `struct virtio_blk_req`; `out` is `VIRTIO_BLK_T_OUT`. -/
structure BlkReq where
  out : Bool
  sector : ℕ
  deriving DecidableEq

/-- `disk.info[i]`. -/
structure Info where
  b : Option ℕ
  status : ℕ
  deriving DecidableEq

/-- The fields of `struct buf` the driver and its callers use. -/
structure Buf where
  blockno : ℕ
  disk : Bool
  valid : Bool
  data : Block

/-- A request: its buffer, its direction and the three descriptors of its chain. -/
structure Request where
  b : ℕ
  write : Bool
  i0 : Fin NUM
  i1 : Fin NUM
  i2 : Fin NUM
  deriving DecidableEq

/-- What a process does in `virtio_disk_rw(b, write)`.  A process in one of the two wait loops
is asleep or has been made runnable; `timeout` counts as the source does. -/
inductive Pc
  | idle
  | calling (b : ℕ) (write : Bool)
  | alloc (b : ℕ) (write : Bool) (timeout : ℕ) (asleep : Bool)
  | wait (r : Request) (timeout : ℕ) (asleep : Bool)
  | returned (b : ℕ) (write : Bool)
  deriving DecidableEq

/-- The buffer a process is using the driver for. -/
def Pc.buf : Pc → Option ℕ
  | .idle => none
  | .calling b _ | .alloc b _ _ _ | .returned b _ => some b
  | .wait r _ _ => some r.b

/-- `served b` records that the device has finished the request of the last call for `b`; no
step reads it. -/
structure State where
  free : Fin NUM → Bool
  desc : Fin NUM → Desc
  ops : Fin NUM → BlkReq
  info : Fin NUM → Info
  avail : Ring NUM (Fin NUM)
  used : Ring NUM ℕ
  inflight : List (Fin NUM)
  disk : ℕ → Block
  buf : ℕ → Buf
  pc : ℕ → Pc
  intr : Option ℕ
  panicked : Option Panic
  served : ℕ → Bool

namespace State

/-- The driver after `virtio_disk_init` and the buffers after `binit`. -/
def init (disk : ℕ → Block) : State where
  free _ := true
  desc _ := .zero
  ops _ := ⟨false,0⟩
  info _ := ⟨none,0⟩
  avail := ⟨fun _ => 0,0,0⟩
  used := ⟨fun _ => 0,0,0⟩
  inflight := []
  disk := disk
  buf _ := ⟨0,false,false,Bytes.zero BSIZE⟩
  pc _ := .idle
  intr := none
  panicked := none
  served _ := false

def setPc (s : State) (p : ℕ) (c : Pc) : State := { s with pc := update s.pc p c }

/-- `wakeup(&disk.free[0])`. -/
def wakeupFree (s : State) : State :=
  { s with pc := fun q => match s.pc q with
    | .alloc b w k true => .alloc b w k false
    | c => c }

/-- `wakeup(b)`. -/
def wakeupBuf (s : State) (b : ℕ) : State :=
  { s with pc := fun q => match s.pc q with
    | .wait r k true => .wait r k (r.b != b)
    | c => c }

def allocDesc (s : State) : Option (Fin NUM × State) :=
  ((List.finRange NUM).find? s.free).map fun i =>
    (i,{ s with free := update s.free i false })

/-- `disk.desc[i]`; there is nothing behind the table. -/
def descAt (s : State) (i : ℕ) : Desc := if h : i < NUM then s.desc ⟨i,h⟩ else .zero

def freeDesc (s : State) (i : ℕ) : State :=
  if h : i < NUM then
    let i : Fin NUM := ⟨i,h⟩
    if s.free i then { s with panicked := some .freeDesc2 }
    else
      let s := { s with
        desc := update s.desc i .zero
        free := update s.free i true }
      s.wakeupFree
  else { s with panicked := some .freeDesc1 }

/-- `alloc3_desc`: on failure the descriptors taken so far are given back. -/
def alloc3Desc (s : State) : State × Option (Fin NUM × Fin NUM × Fin NUM) :=
  match s.allocDesc with
  | none => (s,none)
  | some (i0,s) =>
    match s.allocDesc with
    | none => (s.freeDesc i0,none)
    | some (i1,s) =>
      match s.allocDesc with
      | none => ((s.freeDesc i0).freeDesc i1,none)
      | some (i2,s) => (s,some (i0,i1,i2))

/-- `free_chain`; the loop gives up after `NUM+1` descriptors. -/
def freeChain (s : State) (i : ℕ) : ℕ → State
  | 0 => s
  | n+1 =>
    let d := s.descAt i
    let s := s.freeDesc i
    if d.hasNext then s.freeChain d.next n else s

/-- Format the chain, hand it to the device, and sleep for the first time. -/
def submit (s : State) (p b : ℕ) (write : Bool) (i0 i1 i2 : Fin NUM) : State :=
  let desc := update s.desc i0 ⟨.op i0,16,true,false,i1⟩
  let desc := update desc i1 ⟨.data b,BSIZE,true,!write,i2⟩
  let desc := update desc i2 ⟨.status i0,1,false,true,0⟩
  { s.setPc p (.wait ⟨b,write,i0,i1,i2⟩ 0 true) with
    ops := update s.ops i0 ⟨write,(s.buf b).blockno*(BSIZE/512) % 2^32⟩
    desc := desc
    info := update s.info i0 ⟨some b,0xff⟩
    buf := update s.buf b { s.buf b with disk := true }
    avail := s.avail.push IDX i0 }

/-- One round of the descriptor loop with `timeout` failures so far. -/
def allocRound (s : State) (p b : ℕ) (write : Bool) (timeout : ℕ) : State :=
  match s.alloc3Desc with
  | (s,some (i0,i1,i2)) => s.submit p b write i0 i1 i2
  | (s,none) =>
    if timeout+1 > 1000 then s.setPc p (.returned b write)
    else s.setPc p (.alloc b write (timeout+1) true)

/-- After the completion loop. -/
def finish (s : State) (p : ℕ) (r : Request) : State :=
  let s := { s with info := update s.info r.i0 { s.info r.i0 with b := none } }
  (s.freeChain r.i0 (NUM+1)).setPc p (.returned r.b r.write)

/-- The device carries out the chain at `i`: header, data, status. -/
def transfer (s : State) (i : Fin NUM) : State :=
  let d0 := s.desc i
  let d1 := s.descAt d0.next
  let d2 := s.descAt d1.next
  match d0.addr,d1.addr,d2.addr with
  | .op j,.data b,.status k =>
    let r := s.ops j
    let s := { s with
      info := update s.info k { s.info k with status := 0 }
      served := update s.served b true }
    if r.out then { s with disk := update s.disk (r.sector/2) (s.buf b).data }
    else { s with buf := update s.buf b { s.buf b with data := s.disk (r.sector/2) } }
  | _,_,_ => s

end State

inductive Event
  | recycle (b blockno : ℕ)
  | store (b : ℕ) (data : Block)
  | call (p b : ℕ) (write : Bool)
  | enter (p : ℕ)
  | retry (p : ℕ)
  | check (p : ℕ)
  | leave (p : ℕ)
  | kill (p : ℕ)
  | fetch
  | complete (k : ℕ)
  | intrBegin
  | intrIter
  | intrEnd

namespace State

/-- Nobody is in the driver with buffer `b`. -/
def Unused (s : State) (b : ℕ) : Prop := ∀ p, (s.pc p).buf ≠ some b

/-- `bget` gives a buffer to another block. -/
def recycle (s : State) (b blockno : ℕ) : State :=
  { s with buf := update s.buf b { s.buf b with blockno, valid := false } }

/-- The holder of a buffer changes its contents. -/
def store (s : State) (b : ℕ) (data : Block) : State :=
  { s with buf := update s.buf b { s.buf b with data } }

def call (s : State) (p b : ℕ) (write : Bool) : Option State :=
  match s.pc p with
  | .idle => some { s.setPc p (.calling b write) with served := update s.served b false }
  | _ => none

/-- `acquire(&disk.vdisk_lock)` and the first round of the descriptor loop. -/
def enter (s : State) (p : ℕ) : Option State :=
  match s.pc p with
  | .calling b write => some (s.allocRound p b write 0)
  | _ => none

def retry (s : State) (p : ℕ) : Option State :=
  match s.pc p with
  | .alloc b write timeout false => some (s.allocRound p b write timeout)
  | _ => none

/-- Back from `sleep(b, &disk.vdisk_lock)`. -/
def check (s : State) (p : ℕ) : Option State :=
  match s.pc p with
  | .wait r timeout false =>
    if timeout+1 > 10000 then some (s.finish p r)
    else if (s.buf r.b).disk then some (s.setPc p (.wait r (timeout+1) true))
    else some (s.finish p r)
  | _ => none

/-- Return to `bread`, which sets `b->valid = 1`, or to `bwrite`. -/
def leave (s : State) (p : ℕ) : Option State :=
  match s.pc p with
  | .returned b write => some { s.setPc p .idle with
      buf := update s.buf b { s.buf b with valid := !write || (s.buf b).valid } }
  | _ => none

/-- `kkill` makes a sleeping process runnable. -/
def kill (s : State) (p : ℕ) : State :=
  match s.pc p with
  | .alloc b w k _ => s.setPc p (.alloc b w k false)
  | .wait r k _ => s.setPc p (.wait r k false)
  | _ => s

def fetch (s : State) : Option State :=
  (s.avail.pop IDX).map fun (i,avail) => { s with avail, inflight := s.inflight++[i] }

def complete (s : State) (k : ℕ) : Option State :=
  (s.inflight[k]?).map fun i =>
    let s := s.transfer i
    { s with inflight := s.inflight.eraseIdx k, used := s.used.push IDX i }

/-- One round of the loop of `virtio_disk_intr`; an invalid descriptor ends the loop. -/
def intrIter (s : State) (processed : ℕ) : Option State :=
  if processed > NUM then none
  else
    match s.used.pop IDX with
    | none => none
    | some (id,used) =>
      if h : id < NUM then
        let info := s.info ⟨id,h⟩
        if info.status ≠ 0 then some { s with panicked := some .intrStatus }
        else
          match info.b with
          | none => some { s with used, intr := some (processed+1) }
          | some b => some { (s.wakeupBuf b) with
              buf := update s.buf b { s.buf b with disk := false }
              used
              intr := some (processed+1) }
      else some { s with intr := none }

/-- Events that need `vdisk_lock` wait until the handler has released it. -/
def act (s : State) : Event → Option State
  | .recycle b blockno => some (s.recycle b blockno)
  | .store b data => some (s.store b data)
  | .call p b write => s.call p b write
  | .enter p => if s.intr.isSome then none else s.enter p
  | .retry p => if s.intr.isSome then none else s.retry p
  | .check p => if s.intr.isSome then none else s.check p
  | .leave p => s.leave p
  | .kill p => some (s.kill p)
  | .fetch => s.fetch
  | .complete k => s.complete k
  | .intrBegin => if s.intr.isSome then none else some { s with intr := some 0 }
  | .intrIter => s.intr.bind s.intrIter
  | .intrEnd =>
    match s.intr with
    | some n => if n > NUM ∨ s.used.cons = s.used.prod then some { s with intr := none } else none
    | none => none

def step (s : State) (e : Event) : Option State :=
  match s.panicked with
  | some _ => none
  | none => s.act e

/-- What the callers guarantee: `virtio_disk_rw` is called by the holder of the buffer's sleep
lock, only the holder changes a buffer, and a block is in one buffer only. -/
def Held (s : State) : Event → Prop
  | .recycle b _ | .store b _ => s.Unused b
  | .call _ b _ => s.Unused b ∧
      ∀ q b', (s.pc q).buf = some b' → (s.buf b').blockno ≠ (s.buf b).blockno
  | _ => True

/-- No wait loop gives up: the descriptor loop has failed fewer than 1000 times when it fails
again, and a process that finds its request unfinished has been woken fewer than 10000 times.
Block numbers are small enough for the 32-bit product `blockno*2`. -/
def Patient (s : State) : Event → Prop
  | .call _ b _ => (s.buf b).blockno < 2^31
  | .retry p => ∀ b w k a, s.pc p = .alloc b w k a → s.alloc3Desc.2 = none → k < 1000
  | .check p => ∀ r k a, s.pc p = .wait r k a → (s.buf r.b).disk = true → k < 10000
  | _ => True

end State

end Virtio
end Xv6
