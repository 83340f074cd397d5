import Xv6.Lib.Bytes

/-! A byte block read as an array of bits, least significant bit of each byte first. -/
namespace Xv6
namespace Bytes

variable {n : ℕ}

/-- The mask of bit `i` inside its byte. -/
def mask (i : ℕ) : UInt8 := 1 <<< UInt8.ofNat (i % 8)

def testBit (b : Bytes n) (i : ℕ) : Bool := b.byte (i/8) &&& mask i != 0

def setBit (b : Bytes n) (i : ℕ) : Bytes n := b.splice (i/8) [b.byte (i/8) ||| mask i]

def clearBit (b : Bytes n) (i : ℕ) : Bytes n := b.splice (i/8) [b.byte (i/8) &&& ~~~ mask i]

theorem mask_and : ∀ i j : Fin 8, mask i &&& mask j = if j = i then mask j else 0 := by decide

theorem not_mask_and : ∀ i j : Fin 8, ~~~ mask i &&& mask j = if j = i then 0 else mask j := by
  decide

theorem mask_ne_zero : ∀ i : Fin 8, mask i ≠ 0 := by decide

theorem mask_mod (i : ℕ) : mask (i % 8) = mask i := by
  simp [mask]

theorem or_and (x y z : UInt8) : (x ||| y) &&& z = (x &&& z) ||| (y &&& z) := by
  apply UInt8.toBitVec_inj.mp
  ext k hk
  simp [Bool.and_or_distrib_right]

theorem or_mask (x : UInt8) (i j : ℕ) : ((x ||| mask i) &&& mask j != 0) =
    if j % 8 = i % 8 then true else x &&& mask j != 0 := by
  have h := mask_and ⟨i % 8,by omega⟩ ⟨j % 8,by omega⟩
  have hne := mask_ne_zero ⟨j % 8,by omega⟩
  simp only [mask_mod,Fin.mk.injEq] at h hne
  rw [or_and,h]
  split
  · simp [hne]
  · simp

theorem and_not_mask (x : UInt8) (i j : ℕ) : ((x &&& ~~~ mask i) &&& mask j != 0) =
    if j % 8 = i % 8 then false else x &&& mask j != 0 := by
  have h := not_mask_and ⟨i % 8,by omega⟩ ⟨j % 8,by omega⟩
  simp only [mask_mod,Fin.mk.injEq] at h
  rw [UInt8.and_assoc,h]
  split <;> simp

theorem byte_splice_one (b : Bytes n) {k : ℕ} (hk : k < n) (x : UInt8) (i : ℕ) :
    (b.splice k [x]).byte i = if i = k then x else b.byte i := by
  split
  · subst i
    rw [byte_splice_of_mem b hk (by simp)]
    simp
  · exact byte_splice_of_not_mem b (by simp only [List.length_singleton]; omega)

theorem testBit_setBit (b : Bytes n) {i : ℕ} (hi : i < 8*n) (j : ℕ) :
    (b.setBit i).testBit j = if j = i then true else b.testBit j := by
  rw [testBit,setBit,byte_splice_one b (by omega)]
  by_cases hq : j/8 = i/8
  · rw [if_pos hq,or_mask,testBit,hq]
    exact if_congr (by omega) rfl rfl
  · rw [if_neg hq,if_neg (by grind),testBit]

theorem testBit_clearBit (b : Bytes n) {i : ℕ} (hi : i < 8*n) (j : ℕ) :
    (b.clearBit i).testBit j = if j = i then false else b.testBit j := by
  rw [testBit,clearBit,byte_splice_one b (by omega)]
  by_cases hq : j/8 = i/8
  · rw [if_pos hq,and_not_mask,testBit,hq]
    exact if_congr (by omega) rfl rfl
  · rw [if_neg hq,if_neg (by grind),testBit]

end Bytes
end Xv6
