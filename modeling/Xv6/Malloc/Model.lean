import Mathlib.Logic.Function.Basic
import Xv6.Lib.Tiles

/-! The allocator of user programs and the system call it gets its memory from.
Addresses are in bytes; a header has 16 bytes and sizes are counted in headers.  The pointer and
the size in the header at each address are what the program sees of its memory. -/
namespace Xv6.Malloc

/-- What happens around a call of `sbrk`: by how much the process has grown since the last one, and
whether `growproc` finds the pages. -/
structure Grow where
  others : ℕ
  ok : Bool
  deriving DecidableEq

structure Heap where
  ptr : ℕ → ℕ
  size : ℕ → ℕ
  freep : ℕ
  /-- `p->sz` of the process, the end of its memory. -/
  brk : ℕ
  /-- History: the memory that `sbrk` has added for the allocator. -/
  arena : List Span
  /-- History: the counts of bytes that `morecore` got, with the sizes it then recorded. -/
  counts : List (ℤ × ℕ)

namespace Heap

def setPtr (h : Heap) (a v : ℕ) : Heap := {h with ptr := Function.update h.ptr a v}

def setSize (h : Heap) (a n : ℕ) : Heap := {h with size := Function.update h.size a n}

def setFreep (h : Heap) (p : ℕ) : Heap := {h with freep := p}

/-- The loop of `free`; `none` if the fuel does not last. -/
def spot (h : Heap) (bp : ℕ) : ℕ → ℕ → Option ℕ
  | 0, _ => none
  | fuel+1, p =>
    if p < bp ∧ bp < h.ptr p then some p
    else if h.ptr p ≤ p ∧ (p < bp ∨ bp < h.ptr p) then some p
    else spot h bp fuel (h.ptr p)

/-- `Coalesce with next block if possible`. -/
def joinNext (h : Heap) (bp p : ℕ) : Heap :=
  if bp + 16*h.size bp = h.ptr p then
    (h.setSize bp ((h.size bp + h.size (h.ptr p)) % 2^32)).setPtr bp (h.ptr (h.ptr p))
  else h.setPtr bp (h.ptr p)

/-- `Coalesce with previous block if possible`. -/
def joinPrev (h : Heap) (bp p : ℕ) : Heap :=
  if p + 16*h.size p = bp then
    (h.setSize p ((h.size p + h.size bp) % 2^32)).setPtr p (h.ptr bp)
  else h.setPtr p bp

def free (fuel ap : ℕ) (h : Heap) : Option Heap :=
  if ap = 0 then some h
  else
    let bp := ap-16
    (h.spot bp fuel h.freep).map fun p => ((h.joinNext bp p).joinPrev bp p).setFreep p

/-- `sbrk(n)` and `sys_sbrk`, whose sum `addr + n` has 64 bits. -/
def sbrk (g : Grow) (n : ℤ) (h : Heap) : Option ℕ × Heap :=
  let addr := h.brk + g.others
  let h := {h with brk := addr}
  let sum : ℤ := ((addr : ℤ) + n) % 2^64
  if 100*1024*1024 < n then (none,h)
  else if 512*1024*1024 < sum then (none,h)
  else if 0 < n ∧ sum < addr then (none,h)
  else if 0 < n then
    -- `growproc`
    if g.ok then (some addr,{h with brk := sum.toNat, arena := (addr,n.toNat)::h.arena})
    else (none,h)
  else (some addr,{h with brk := sum.toNat})

/-- `nu * sizeof(Header)`, passed as an `int`. -/
def bytes (nu : ℕ) : ℤ := Int.bmod (16*nu) (2^32)

/-- `hp->s.size = nu`. -/
def record (h : Heap) (hp nu : ℕ) : Heap :=
  {h.setSize hp nu with counts := (bytes nu,nu)::h.counts}

/-- `morecore` after `sbrk`. -/
def addCore (fuel nu : ℕ) (grows : List Grow) : Option ℕ × Heap → Option (ℕ × List Grow × Heap)
  | (none,h) => some (0,grows,h)
  | (some hp,h) => ((h.record hp nu).free fuel (hp+16)).map fun h => (h.freep,grows,h)

/-- `morecore`: the free list or 0, and what will happen at later calls of `sbrk`. -/
def morecore (fuel nu : ℕ) (grows : List Grow) (h : Heap) : Option (ℕ × List Grow × Heap) :=
  let nu := if nu < 4096 then 4096 else nu
  match grows with
  | [] => some (0,[],h)
  | g::grows => addCore fuel nu grows (h.sbrk g (bytes nu))

/-- A block that is large enough has been found at `p`. -/
def take (h : Heap) (nunits prevp p : ℕ) : ℕ × Heap :=
  if h.size p = nunits then (p+16,(h.setPtr prevp (h.ptr p)).setFreep prevp)
  else
    let h := h.setSize p (h.size p - nunits)
    let q := p + 16*h.size p
    (q+16,(h.setSize q nunits).setFreep prevp)

/-- The loop of `malloc`. -/
def search (nunits : ℕ) : ℕ → ℕ → ℕ → List Grow → Heap → Option (ℕ × Heap)
  | 0, _, _, _, _ => none
  | fuel+1, prevp, p, grows, h =>
    if nunits ≤ h.size p then some (h.take nunits prevp p)
    else if p = h.freep then
      (h.morecore fuel nunits grows).bind fun (p,grows,h) =>
        if p = 0 then some (0,h) else search nunits fuel p (h.ptr p) grows h
    else search nunits fuel p (h.ptr p) grows h

/-- `nunits` for `nbytes`; the sum has 64 bits. -/
def units (nbytes : ℕ) : ℕ := (nbytes+16-1)/16 + 1

/-- `base` is the address of the static header. -/
def malloc (base fuel nbytes : ℕ) (grows : List Grow) (h : Heap) : Option (ℕ × Heap) :=
  if nbytes = 0 then some (0,h)
  else
    let h := if h.freep = 0 then ((h.setPtr base base).setSize base 0).setFreep base else h
    search (units nbytes) fuel h.freep (h.ptr h.freep) grows h

end Heap

/-- The heap and the pointers that `malloc` has returned and that were not freed, each with the
number of bytes that was asked for. -/
structure State where
  heap : Heap
  live : List (ℕ × ℕ)

inductive Event
  | malloc (fuel nbytes : ℕ) (grows : List Grow)
  | free (fuel ap : ℕ)
  /-- The program writes into its memory. -/
  | write (a ptr size : ℕ)

/-- A call returns, or the program writes. -/
def step (base : ℕ) (s : State) : Event → Option State
  | .malloc fuel nbytes grows => (s.heap.malloc base fuel nbytes grows).map fun (p,h) =>
      ⟨h,if p = 0 then s.live else (p,nbytes)::s.live⟩
  | .free fuel ap => (s.heap.free fuel ap).map fun h => ⟨h,s.live.eraseP (·.1 = ap)⟩
  | .write a ptr size => some ⟨(s.heap.setPtr a ptr).setSize a size,s.live⟩

end Xv6.Malloc
