import Xv6.Vm.Model

/-! Processes and the pages they own: `proc.c` and `sys_sbrk`.
A call runs to its end before the next one starts.  Left out are locks, pids, statistics and debug
output, and of `struct proc` the fields about files and scheduling; USED, SLEEPING, RUNNABLE and
RUNNING are all `live`. -/
namespace Xv6.Process

open Vm

abbrev SBRK_EAGER : ℤ := 1
abbrev SBRK_LAZY : ℤ := 2

/-- The characters of a string before its NUL. -/
abbrev Str := List UInt8

/-- The value of a 64-bit sum. -/
def wrap (x : ℤ) : ℕ := (x % 2^64).toNat

/-! Page tables of processes. -/

/-- `proc_pagetable`, given the trapframe of the process. -/
def procPagetable (trapframe : ℕ) : Op (Option ℕ) := do
  match ← uvmcreate with
  | none => pure none
  | some pagetable => do
    let s ← get
    if ← mappages pagetable TRAMPOLINE PGSIZE s.trampoline (PTE_R ||| PTE_X) then
      if ← mappages pagetable TRAPFRAME PGSIZE trapframe (PTE_R ||| PTE_W) then
        pure (some pagetable)
      else do
        uvmunmap pagetable TRAMPOLINE 1 false
        uvmfree pagetable 0
        pure none
    else do
      uvmfree pagetable 0
      pure none

def procFreepagetable (pagetable sz : ℕ) : Op Unit := do
  uvmunmap pagetable TRAMPOLINE 1 false
  uvmunmap pagetable TRAPFRAME 1 false
  uvmfree pagetable sz

/-- The process afterwards, or none for `-1`. -/
def growproc (p : User) (n : ℤ) : Op (Option User) := do
  if 0 < n then
    let sz ← uvmalloc p.pagetable p.sz (wrap (p.sz + n)) PTE_W
    if sz = 0 then pure none else pure (some { p with sz := sz })
  else if n < 0 then
    let sz ← uvmdealloc p.pagetable p.sz (wrap (p.sz + n))
    pure (some { p with sz := sz })
  else pure (some p)

/-- The old size, or none for `-1`, and the process afterwards. -/
def sysSbrk (p : User) (n t : ℤ) : Op (Option ℕ × User) := do
  if 100*1024*1024 < n then pure (none,p)
  else if 512*1024*1024 < wrap (p.sz + n) then pure (none,p)
  else if 0 < n ∧ wrap (p.sz + n) < p.sz then pure (none,p)
  else if t = SBRK_EAGER ∨ n < 0 then
    match ← growproc p n with
    | none => pure (none,p)
    | some q => pure (some p.sz,q)
  else if wrap (p.sz + n) < p.sz then pure (none,p)
  else pure (some p.sz,{ p with sz := wrap (p.sz + n) })

/-- Write a register of a trapframe, given by its offset. -/
def setReg (trapframe off v : ℕ) : Op Unit :=
  modify fun s => s.setPage trapframe ((s.mem trapframe).setLE off 8 v)

/-- The offset of `a0` in `struct trapframe`, and its size. -/
abbrev A0 : ℕ := 112
abbrev TFSIZE : ℕ := 288

inductive ProcState
  | unused | live | zombie
deriving DecidableEq, Repr

/-- `sys_exec` under way: the path, and the pages with the arguments. -/
structure Exec where
  path : Str
  argv : List ℕ
deriving DecidableEq, Repr

/-- The part of `struct proc` about memory and other processes; null pointers are zero. -/
structure Proc where
  state : ProcState
  parent : Option (Fin NPROC)
  sz : ℕ
  pagetable : ℕ
  trapframe : ℕ
  name : Str
  xstate : ℤ
  exec : Option Exec
deriving DecidableEq, Repr

/-- What `freeproc` leaves behind. -/
def Proc.empty : Proc := ⟨.unused,none,0,0,0,[],0,none⟩

end Xv6.Process
