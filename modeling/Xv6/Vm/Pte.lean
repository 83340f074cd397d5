import Xv6.Lib.Bytes
import Xv6.Lib.Radix

/-! Sizes and page-table entries of `riscv.h` and `memlayout.h`.
Addresses and entries are 64-bit words, kept as natural numbers. -/
namespace Xv6.Vm

abbrev PGSIZE : ℕ := 4096
abbrev MAXVA : ℕ := 2^38
abbrev TRAMPOLINE : ℕ := MAXVA - PGSIZE
abbrev TRAPFRAME : ℕ := TRAMPOLINE - PGSIZE
abbrev KERNBASE : ℕ := 0x80000000
abbrev PHYSTOP : ℕ := KERNBASE + 128*1024*1024
abbrev NPROC : ℕ := 64

scoped instance : NeZero NPROC := ⟨by decide⟩

theorem PGSIZE_eq : PGSIZE = 4096 := rfl
theorem MAXVA_eq : MAXVA = 274877906944 := rfl
theorem KERNBASE_eq : KERNBASE = 2147483648 := rfl
theorem PHYSTOP_eq : PHYSTOP = 2281701376 := rfl

abbrev PTE_V : ℕ := 1
abbrev PTE_R : ℕ := 2
abbrev PTE_W : ℕ := 4
abbrev PTE_X : ℕ := 8
abbrev PTE_U : ℕ := 16

/-- One page of physical memory. -/
abbrev Page := Bytes PGSIZE

def PGROUNDUP (a : ℕ) : ℕ := (a + PGSIZE - 1)/PGSIZE*PGSIZE
def PGROUNDDOWN (a : ℕ) : ℕ := a/PGSIZE*PGSIZE

def PA2PTE (pa : ℕ) : ℕ := pa/2^12*2^10
def PTE2PA (pte : ℕ) : ℕ := pte/2^10*2^12 % 2^64
def PTE_FLAGS (pte : ℕ) : ℕ := pte % 2^10

/-- The nine bits of `va` that index the page table of `level`. -/
def PX (level va : ℕ) : ℕ := va/2^(12+9*level) % 512

/-- The virtual page number of `va`. -/
def vpn (va : ℕ) : ℕ := va/PGSIZE

/-- Page-aligned, not null, and small enough for an entry to hold it. -/
def IsPage (a : ℕ) : Prop := a % PGSIZE = 0 ∧ 0 < a ∧ a < 2^56

instance (a : ℕ) : Decidable (IsPage a) := inferInstanceAs (Decidable (_ ∧ _))

theorem PX_eq (level va : ℕ) : PX level va = vpn va/512^level % 512 := by
  rw [PX,vpn,Nat.div_div_eq_div_mul,show PGSIZE*512^level = 2^(12+9*level) by
    rw [pow_add,pow_mul]; norm_num]

theorem PX_lt (level va : ℕ) : PX level va < 512 := Nat.mod_lt _ (by norm_num)

section Flags

variable {pte flags f pa : ℕ}

theorem and_flag (hf : f < 2^10) : pte &&& f = PTE_FLAGS pte &&& f := by
  have hle : pte &&& f < 2^10 := Nat.lt_of_le_of_lt Nat.and_le_right hf
  rw [← Nat.mod_eq_of_lt hle,Nat.and_mod_two_pow,Nat.mod_eq_of_lt hf,PTE_FLAGS]

theorem valid_iff : pte &&& PTE_V ≠ 0 ↔ pte % 2 = 1 := by
  rw [show pte &&& PTE_V = pte % 2 from Nat.and_one_is_mod pte]
  omega

/-- The word that `mappages` stores. -/
theorem pte_eq (hf : flags < 2^10) :
    PA2PTE pa ||| flags ||| PTE_V = pa/2^12*2^10+(flags ||| PTE_V) := by
  have hlt : flags ||| PTE_V < 2^10 := Nat.or_lt_two_pow hf (by norm_num)
  rw [Nat.or_assoc,PA2PTE,Nat.mul_comm,Nat.two_pow_add_eq_or_of_lt hlt]

theorem PTE_FLAGS_pte (hf : flags < 2^10) :
    PTE_FLAGS (PA2PTE pa ||| flags ||| PTE_V) = flags ||| PTE_V := by
  have hlt : flags ||| PTE_V < 2^10 := Nat.or_lt_two_pow hf (by norm_num)
  rw [pte_eq hf,PTE_FLAGS,Nat.mul_add_mod_self_right,Nat.mod_eq_of_lt hlt]

theorem PTE2PA_pte (hf : flags < 2^10) (ha : pa % PGSIZE = 0) (hlt : pa < 2^56) :
    PTE2PA (PA2PTE pa ||| flags ||| PTE_V) = pa := by
  have hflt : flags ||| PTE_V < 2^10 := Nat.or_lt_two_pow hf (by norm_num)
  have hdiv : (pa/2^12*2^10+(flags ||| PTE_V))/2^10 = pa/2^12 := by
    rw [Nat.add_comm,Nat.add_mul_div_right _ _ (by norm_num),Nat.div_eq_of_lt hflt,Nat.zero_add]
  have hpa : pa/2^12*2^12 = pa := Nat.div_mul_cancel (Nat.dvd_of_mod_eq_zero ha)
  rw [pte_eq hf,PTE2PA,hdiv,hpa,Nat.mod_eq_of_lt (by omega)]

theorem PTE2PA_aligned (pte : ℕ) : PTE2PA pte % PGSIZE = 0 := by
  change pte/2^10*2^12 % 2^64 % 4096 = 0
  omega

/-- Clearing `PTE_U` leaves the address and the other flags. -/
theorem clear_user (h : pte < 2^64) :
    PTE2PA (pte &&& (2^64-1-PTE_U)) = PTE2PA pte ∧
    PTE_FLAGS (pte &&& (2^64-1-PTE_U)) = PTE_FLAGS pte &&& (2^10-1-PTE_U) := by
  have hdiv : (pte &&& (2^64-1-PTE_U))/2^10 = pte/2^10 := by
    have hlt : pte/2^10 < 2^54 := Nat.div_lt_of_lt_mul (by rw [← pow_add]; exact h)
    rw [← Nat.shiftRight_eq_div_pow,Nat.shiftRight_and_distrib,Nat.shiftRight_eq_div_pow,
      Nat.shiftRight_eq_div_pow,show (2^64-1-PTE_U)/2^10 = 2^54-1 by norm_num,
      Nat.and_two_pow_sub_one_eq_mod,Nat.mod_eq_of_lt hlt]
  constructor
  · rw [PTE2PA,hdiv,PTE2PA]
  · rw [PTE_FLAGS,Nat.and_mod_two_pow]
    rfl

end Flags
end Xv6.Vm
