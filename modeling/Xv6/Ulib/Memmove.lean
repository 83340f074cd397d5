import Mathlib.Data.Int.Basic
import Mathlib.Logic.Function.Basic

/-! `memmove` of `string.c` and of `ulib.c`.
Memory is a function of the address.  The ranges do not wrap, so pointers are natural numbers. -/
namespace Xv6.Ulib

open Function

abbrev Mem := ℕ → UInt8

/-- `while(n-- > 0) *d++ = *s++`. -/
def copyForward (m : Mem) : ℕ → ℕ → ℕ → Mem
  | 0, _, _ => m
  | n+1, d, s => copyForward (update m d (m s)) n (d+1) (s+1)

/-- `while(n-- > 0) *--d = *--s`. -/
def copyBackward (m : Mem) : ℕ → ℕ → ℕ → Mem
  | 0, _, _ => m
  | n+1, d, s => copyBackward (update m (d-1) (m (s-1))) n (d-1) (s-1)

/-- `memmove` of the kernel, which refuses null pointers and more than 1 MB. -/
def kernelMemmove (m : Mem) (dst src n : ℕ) : Mem :=
  if dst = 0 ∨ src = 0 then m
  else if 1024*1024 < n then m
  else if n = 0 then m
  else if src < dst ∧ dst < src+n then copyBackward m n (dst+n) (src+n)
  else copyForward m n dst src

/-- `memmove` of user programs, with an `int`. -/
def memmove (m : Mem) (dst src : ℕ) (n : ℤ) : Mem :=
  if dst < src then copyForward m n.toNat dst src
  else copyBackward m n.toNat (dst+n.toNat) (src+n.toNat)

/-- The `n` bytes at `src` are copied to `dst` all at once. -/
def moved (m : Mem) (dst src n : ℕ) : Mem := fun a =>
  if dst ≤ a ∧ a < dst+n then m (src + (a-dst)) else m a

/-- Going forward no source byte is overwritten before it is read, unless the destination lies
inside the source. -/
theorem copyForward_eq (m : Mem) {n dst src : ℕ} (h : dst ≤ src ∨ src+n ≤ dst) :
    copyForward m n dst src = moved m dst src n := by
  induction n generalizing m dst src with
  | zero =>
    funext a
    exact (if_neg (by omega)).symm
  | succ n ih =>
    rw [copyForward,ih _ (by omega)]
    funext a
    unfold moved
    by_cases hin : dst+1 ≤ a ∧ a < dst+1+n
    · rw [if_pos hin,if_pos (by omega),update_of_ne (by omega)]
      congr 1
      omega
    · rw [if_neg hin]
      by_cases ha : a = dst
      · rw [ha,update_self,if_pos (by omega),Nat.sub_self,Nat.add_zero]
      · rw [update_of_ne ha,if_neg (by omega)]

/-- Going backward the same holds unless the source lies inside the destination. -/
theorem copyBackward_eq (m : Mem) {n dst src : ℕ} (h : src ≤ dst ∨ dst+n ≤ src) :
    copyBackward m n (dst+n) (src+n) = moved m dst src n := by
  induction n generalizing m with
  | zero =>
    funext a
    exact (if_neg (by omega)).symm
  | succ n ih =>
    rw [copyBackward,← Nat.add_assoc,← Nat.add_assoc,Nat.add_sub_cancel,Nat.add_sub_cancel,
      ih _ (by omega)]
    funext a
    unfold moved
    by_cases hin : dst ≤ a ∧ a < dst+n
    · rw [if_pos hin,if_pos (by omega),update_of_ne (by omega)]
    · rw [if_neg hin]
      by_cases ha : a = dst+n
      · rw [ha,update_self,if_pos (by omega),Nat.add_sub_cancel_left]
      · rw [update_of_ne ha,if_neg (by omega)]

/-- Both versions of `memmove` copy as if all at once, however the ranges overlap. -/
theorem memmove_simultaneous (m : Mem) (dst src : ℕ) :
    (∀ n, dst ≠ 0 → src ≠ 0 → n ≤ 1024*1024 → kernelMemmove m dst src n = moved m dst src n) ∧
    ∀ n : ℤ, memmove m dst src n = moved m dst src n.toNat := by
  refine ⟨fun n hdst hsrc hn => ?_,fun n => ?_⟩
  · rw [kernelMemmove,if_neg (by omega),if_neg (by omega)]
    split
    · rename_i hz
      rw [hz]
      funext a
      exact (if_neg (by omega)).symm
    · split
      · exact copyBackward_eq m (by omega)
      · exact copyForward_eq m (by omega)
  · rw [memmove]
    split
    · exact copyForward_eq m (by omega)
    · exact copyBackward_eq m (by omega)

/-- A destination inside the source. -/
theorem memmove_simultaneous_overlapping :
    kernelMemmove (fun a => UInt8.ofNat a) 12 10 3 14 = 12 ∧
      memmove (fun a => UInt8.ofNat a) 12 10 3 14 = 12 := by
  obtain ⟨hkernel,hulib⟩ := memmove_simultaneous (fun a => UInt8.ofNat a) 12 10
  rw [hkernel 3 (by decide) (by decide) (by decide),hulib 3]
  decide

end Xv6.Ulib
