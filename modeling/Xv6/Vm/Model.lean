import Xv6.Lib.Prog
import Xv6.Vm.Pte

/-! The page allocator of `kalloc.c` and the page tables of `vm.c`.
Physical memory maps the address of a page to its bytes, and the free list holds page
addresses.  `luck` decides which calls of `kalloc` find no page although there is one, so
that every pattern of allocation failures is a run.  A function that returns `0` or `-1` in
the source returns `true` or `false` here, and a null pointer is `none`. -/
namespace Xv6.Vm

inductive Panic
  | kfree | doubleFree
  | walk
  | mapVa | mapSize | mapEmpty | remap
  | unmapVa
  | freewalkLeaf | freewalkDeep
  | uvmclear
  | nullPte
  deriving DecidableEq

structure Ram where
  mem : ℕ → Page
  free : List ℕ
  luck : List Bool
  /-- The first address after the kernel, which the linker calls `end`. -/
  kend : ℕ
  /-- The page of `trampoline.S`. -/
  trampoline : ℕ
  /-- The switch `DEBUG_KALLOC`. -/
  debug : Bool

abbrev Op := Prog Panic Ram

def fill (c : UInt8) : Page := fun _ => c

namespace Ram

variable (s : Ram)

/-- The `j`-th entry of the page-table page at `a`. -/
def word (a j : ℕ) : ℕ := (s.mem a).getLE (8*j) 8

def setPage (a : ℕ) (x : Page) : Ram := { s with mem := Function.update s.mem a x }

def setWord (a j v : ℕ) : Ram := s.setPage a ((s.mem a).setLE (8*j) 8 v)

/-- Push a page on the free list: it is filled with junk and links to the next one. -/
def push (a : ℕ) : Ram :=
  { s.setPage a ((fill 1).setLE 0 8 (s.free.headD 0)) with free := a::s.free }

/-- Take a page off the free list. -/
def pop (a : ℕ) (rest : List ℕ) : Ram := { s.setPage a (fill 5) with free := rest }

/-- What no operation changes. -/
def consts : ℕ × ℕ × Bool := (s.kend,s.trampoline,s.debug)

def spend : Ram := { s with luck := s.luck.tail }

end Ram

def load (a j : ℕ) : Op ℕ := do return (← get).word a j

def store (a j v : ℕ) : Op Unit := modify fun s => s.setWord a j v

def memset (a : ℕ) (c : UInt8) : Op Unit := modify fun s => s.setPage a (fill c)

/-- Copy a whole page. -/
def memmovePage (dst src : ℕ) : Op Unit := modify fun s => s.setPage dst (s.mem src)

/-- Copy bytes into a page from offset `off` on. -/
def memmoveTo (a off : ℕ) (xs : List UInt8) : Op Unit :=
  modify fun s => s.setPage a ((s.mem a).splice off xs)

def kalloc : Op (Option ℕ) := do
  let s ← get
  set s.spend
  if s.luck.headD false then pure none else
  match s.free with
  | [] => pure none
  | a::rest => do
    set (s.spend.pop a rest)
    pure (some a)

def kfree (pa : ℕ) : Op Unit := do
  if pa = 0 then pure () else
  let s ← get
  if pa % PGSIZE ≠ 0 ∨ pa < s.kend ∨ PHYSTOP ≤ pa then throw .kfree else
  if s.debug ∧ pa ∈ s.free then throw .doubleFree else
  set (s.push pa)

/-- The loop of `walk` from `level` on, with the page table of that level. -/
def walkFrom (va : ℕ) (alloc : Bool) : ℕ → ℕ → Op (Option (ℕ × ℕ))
  | 0, pagetable => pure (some (pagetable,PX 0 va))
  | level+1, pagetable => do
    let pte ← load pagetable (PX (level+1) va)
    if pte &&& PTE_V ≠ 0 then walkFrom va alloc level (PTE2PA pte)
    else if !alloc then pure none else
    match ← kalloc with
    | none => pure none
    | some next => do
      memset next 0
      store pagetable (PX (level+1) va) (PA2PTE next ||| PTE_V)
      walkFrom va alloc level next

/-- The page and the index of the entry for `va`. -/
def walk (pagetable va : ℕ) (alloc : Bool) : Op (Option (ℕ × ℕ)) :=
  if MAXVA ≤ va then throw .walk else walkFrom va alloc 2 pagetable

def walkaddr (pagetable va : ℕ) : Op ℕ := do
  if MAXVA ≤ va then pure 0 else
  match ← walk pagetable va false with
  | none => pure 0
  | some (a,j) => do
    let pte ← load a j
    if pte &&& PTE_V = 0 then pure 0
    else if pte &&& PTE_U = 0 then pure 0
    else pure (PTE2PA pte)

/-- The loop of `mappages` with `n` pages to go. -/
def mapFrom (pagetable perm : ℕ) : ℕ → ℕ → ℕ → Op Bool
  | 0, _, _ => pure true
  | n+1, a, pa => do
    match ← walk pagetable a true with
    | none => pure false
    | some (b,j) => do
      let pte ← load b j
      if pte &&& PTE_V ≠ 0 then throw .remap else
      store b j (PA2PTE pa ||| perm ||| PTE_V)
      mapFrom pagetable perm n (a + PGSIZE) (pa + PGSIZE)

def mappages (pagetable va size pa perm : ℕ) : Op Bool :=
  if va % PGSIZE ≠ 0 then throw .mapVa
  else if size % PGSIZE ≠ 0 then throw .mapSize
  else if size = 0 then throw .mapEmpty
  else mapFrom pagetable perm (size/PGSIZE) va pa

def uvmcreate : Op (Option ℕ) := do
  match ← kalloc with
  | none => pure none
  | some pagetable => do
    memset pagetable 0
    pure (some pagetable)

def kfreeIf (doFree : Bool) (pa : ℕ) : Op Unit := if doFree then kfree pa else pure ()

def unmapPage (pagetable : ℕ) (doFree : Bool) (a : ℕ) : Op Unit := do
  match ← walk pagetable a false with
  | none => pure ()
  | some (b,j) => do
    let pte ← load b j
    if pte &&& PTE_V = 0 then pure () else
    kfreeIf doFree (PTE2PA pte)
    store b j 0

/-- How often the loop of `uvmunmap` runs; its bound is a 64-bit sum. -/
def unmapRounds (va npages : ℕ) : ℕ := ((va + npages*PGSIZE) % 2^64 - va)/PGSIZE

def uvmunmap (pagetable va npages : ℕ) (doFree : Bool) : Op Unit :=
  if va % PGSIZE ≠ 0 then throw .unmapVa
  else (List.range (unmapRounds va npages)).forM fun i =>
    unmapPage pagetable doFree (va + i*PGSIZE)

def uvmdealloc (pagetable oldsz newsz : ℕ) : Op ℕ := do
  if oldsz ≤ newsz then pure oldsz else
  if PGROUNDUP newsz < PGROUNDUP oldsz then
    uvmunmap pagetable (PGROUNDUP newsz) ((PGROUNDUP oldsz - PGROUNDUP newsz)/PGSIZE) true
  pure newsz

/-- The loop of `uvmalloc` with `n` pages to go. -/
def allocFrom (pagetable xperm oldsz : ℕ) : ℕ → ℕ → Op Bool
  | 0, _ => pure true
  | n+1, a => do
    match ← kalloc with
    | none => do
      let _ ← uvmdealloc pagetable a oldsz
      pure false
    | some mem => do
      memset mem 0
      if ← mappages pagetable a PGSIZE mem (PTE_R ||| PTE_U ||| xperm) then
        allocFrom pagetable xperm oldsz n (a + PGSIZE)
      else do
        kfree mem
        let _ ← uvmdealloc pagetable a oldsz
        pure false

def uvmalloc (pagetable oldsz newsz xperm : ℕ) : Op ℕ := do
  if newsz < oldsz then pure oldsz else
  if ← allocFrom pagetable xperm (PGROUNDUP oldsz)
      ((newsz - PGROUNDUP oldsz + PGSIZE - 1)/PGSIZE) (PGROUNDUP oldsz) then
    pure newsz
  else pure 0

/-- The recursion of `freewalk`, at most `depth` tables deep. -/
def freewalkFrom : ℕ → ℕ → Op Unit
  | 0, _ => throw .freewalkDeep
  | depth+1, pagetable => do
    (List.range 512).forM fun i => do
      let pte ← load pagetable i
      if pte &&& PTE_V ≠ 0 ∧ pte &&& (PTE_R ||| PTE_W ||| PTE_X) = 0 then do
        freewalkFrom depth (PTE2PA pte)
        store pagetable i 0
      else if pte &&& PTE_V ≠ 0 then throw .freewalkLeaf
      else pure ()
    kfree pagetable

def freewalk (pagetable : ℕ) : Op Unit := freewalkFrom 3 pagetable

def uvmfree (pagetable sz : ℕ) : Op Unit := do
  if 0 < sz then uvmunmap pagetable 0 (PGROUNDUP sz/PGSIZE) true
  freewalk pagetable

/-- The loop of `uvmcopy` with `n` pages to go. -/
def copyFrom (old new : ℕ) : ℕ → ℕ → Op Bool
  | 0, _ => pure true
  | n+1, i => do
    match ← walk old i false with
    | none => copyFrom old new n (i + PGSIZE)
    | some (b,j) => do
      let pte ← load b j
      if pte &&& PTE_V = 0 then copyFrom old new n (i + PGSIZE) else
      match ← kalloc with
      | none => do
        uvmunmap new 0 (i/PGSIZE) true
        pure false
      | some mem => do
        memmovePage mem (PTE2PA pte)
        if ← mappages new i PGSIZE mem (PTE_FLAGS pte) then
          copyFrom old new n (i + PGSIZE)
        else do
          kfree mem
          uvmunmap new 0 (i/PGSIZE) true
          pure false

def uvmcopy (old new sz : ℕ) : Op Bool := copyFrom old new ((sz + PGSIZE - 1)/PGSIZE) 0

def uvmclear (pagetable va : ℕ) : Op Unit := do
  match ← walk pagetable va false with
  | none => throw .uvmclear
  | some (b,j) => do
    let pte ← load b j
    store b j (pte &&& (2^64 - 1 - PTE_U))

def ismapped (pagetable va : ℕ) : Op Bool := do
  match ← walk pagetable va false with
  | none => pure false
  | some (b,j) => do
    let pte ← load b j
    pure (pte &&& PTE_V ≠ 0)

/-- What `vmfault` reads of the current process. -/
structure User where
  sz : ℕ
  pagetable : ℕ

def vmfault (p : User) (pagetable va : ℕ) : Op ℕ := do
  if p.sz ≤ va then pure 0 else
  let va := PGROUNDDOWN va
  if ← ismapped pagetable va then pure 0 else
  match ← kalloc with
  | none => pure 0
  | some mem => do
    memset mem 0
    if ← mappages p.pagetable va PGSIZE mem (PTE_W ||| PTE_U ||| PTE_R) then pure mem
    else do
      kfree mem
      pure 0

/-- The physical page of a user page, after a page fault if there is none. -/
def userPage (p : User) (pagetable va0 : ℕ) : Op ℕ := do
  let pa0 ← walkaddr pagetable va0
  if pa0 = 0 then vmfault p pagetable va0 else pure pa0

/-- The loop of `copyout` with the bytes still to copy. -/
def copyoutFrom (p : User) (pagetable : ℕ) : ℕ → ℕ → List UInt8 → Op Bool
  | 0, _, _ => pure true
  | rounds+1, dstva, src =>
    if src = [] then pure true else do
    let va0 := PGROUNDDOWN dstva
    if MAXVA ≤ va0 then pure false else
    let pa0 ← userPage p pagetable va0
    if pa0 = 0 then pure false else
    match ← walk pagetable va0 false with
    | none => throw .nullPte
    | some (b,j) => do
      let pte ← load b j
      if pte &&& PTE_W = 0 then pure false else
      let n := min (PGSIZE - (dstva - va0)) src.length
      memmoveTo pa0 (dstva - va0) (src.take n)
      copyoutFrom p pagetable rounds (va0 + PGSIZE) (src.drop n)

def copyout (p : User) (pagetable dstva : ℕ) (src : List UInt8) : Op Bool :=
  copyoutFrom p pagetable src.length dstva src

/-- The loop of `copyin` with the bytes already delivered. -/
def copyinFrom (p : User) (pagetable : ℕ) : ℕ → ℕ → ℕ → List UInt8 → Op (Bool × List UInt8)
  | 0, _, _, dst => pure (true,dst)
  | rounds+1, srcva, len, dst =>
    if len = 0 then pure (true,dst) else do
    let va0 := PGROUNDDOWN srcva
    let pa0 ← userPage p pagetable va0
    if pa0 = 0 then pure (false,dst) else
    let n := min (PGSIZE - (srcva - va0)) len
    let s ← get
    copyinFrom p pagetable rounds (va0 + PGSIZE) (len - n)
      (dst ++ (s.mem pa0).slice (srcva - va0) n)

/-- The status, and the bytes written to the kernel's buffer. -/
def copyin (p : User) (pagetable srcva len : ℕ) : Op (Bool × List UInt8) :=
  copyinFrom p pagetable len srcva len []

/-- The bytes up to the first null byte, that byte included, or all of them. -/
def scanNull : List UInt8 → Bool × List UInt8
  | [] => (false,[])
  | x::xs => if x = 0 then (true,[0]) else ((scanNull xs).1,x::(scanNull xs).2)

def copyinstrFrom (pagetable : ℕ) : ℕ → ℕ → ℕ → List UInt8 → Op (Bool × List UInt8)
  | 0, _, _, dst => pure (false,dst)
  | rounds+1, srcva, max, dst =>
    if max = 0 then pure (false,dst) else do
    let va0 := PGROUNDDOWN srcva
    let pa0 ← walkaddr pagetable va0
    if pa0 = 0 then pure (false,dst) else
    let n := min (PGSIZE - (srcva - va0)) max
    let s ← get
    let r := scanNull ((s.mem pa0).slice (srcva - va0) n)
    if r.1 then pure (true,dst ++ r.2)
    else copyinstrFrom pagetable rounds (va0 + PGSIZE) (max - n) (dst ++ r.2)

def copyinstr (pagetable srcva max : ℕ) : Op (Bool × List UInt8) :=
  copyinstrFrom pagetable max srcva max []

end Xv6.Vm
