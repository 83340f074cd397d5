import Mathlib.Data.Nat.Basic
import Mathlib.Tactic.Ring
import Mathlib.Tactic.Linarith

/-! Fixed-size byte blocks with little-endian fields.
A field is a run of consecutive bytes.  A write to one field is seen by a read of
that field and by no read of a disjoint one, so a record kept inside a block needs
only the offsets of its fields. -/
namespace Xv6

open List

/-- A block of exactly `n` bytes. -/
def Bytes (n : ℕ) := Fin n → UInt8

namespace Bytes

variable {n : ℕ}

/-- The byte at offset `i`; offsets past the end read as zero. -/
def byte (b : Bytes n) (i : ℕ) : UInt8 := if h : i < n then b ⟨i,h⟩ else 0

def zero (n : ℕ) : Bytes n := fun _ => 0

/-- Overwrite the bytes from `off` on by `xs`. -/
def splice (b : Bytes n) (off : ℕ) (xs : List UInt8) : Bytes n := fun i =>
  if off ≤ i.val ∧ i.val < off + xs.length then xs.getD (i.val - off) 0 else b i

/-- The `k` bytes from `off` on. -/
def slice (b : Bytes n) (off k : ℕ) : List UInt8 := (List.range k).map fun j => b.byte (off + j)

theorem byte_of_le (b : Bytes n) {i : ℕ} (h : n ≤ i) : b.byte i = 0 := by
  simp [byte,Nat.not_lt.mpr h]

@[simp] theorem byte_zero (i : ℕ) : (zero n).byte i = 0 := by
  simp [byte,zero]

theorem byte_splice (b : Bytes n) (off : ℕ) (xs : List UInt8) {i : ℕ} (hi : i < n) :
    (b.splice off xs).byte i =
      if off ≤ i ∧ i < off+xs.length then xs.getD (i-off) 0 else b.byte i := by
  simp [byte,splice,hi]

theorem byte_splice_of_mem (b : Bytes n) {off : ℕ} {xs : List UInt8} {i : ℕ} (hi : i < n)
    (h : off ≤ i ∧ i < off+xs.length) : (b.splice off xs).byte i = xs.getD (i-off) 0 := by
  rw [byte_splice b off xs hi,if_pos h]

theorem byte_splice_of_not_mem (b : Bytes n) {off : ℕ} {xs : List UInt8} {i : ℕ}
    (h : i < off ∨ off+xs.length ≤ i) : (b.splice off xs).byte i = b.byte i := by
  by_cases hi : i < n
  · rw [byte_splice b off xs hi,if_neg (by omega)]
  · rw [byte_of_le _ (by omega),byte_of_le _ (by omega)]

@[simp] theorem slice_length (b : Bytes n) (off k : ℕ) : (b.slice off k).length = k := by
  simp [slice]

theorem slice_eq_iff (a b : Bytes n) (off k : ℕ) :
    a.slice off k = b.slice off k ↔ ∀ j < k, a.byte (off+j) = b.byte (off+j) := by
  simp [slice]

theorem slice_splice_self (b : Bytes n) (off : ℕ) (xs : List UInt8) (h : off+xs.length ≤ n) :
    (b.splice off xs).slice off xs.length = xs := by
  apply ext_getElem
  · simp
  · intro j hj hx
    simp only [slice,getElem_map,getElem_range]
    rw [byte_splice_of_mem b (by omega) (by omega)]
    simp [getD_eq_getElem?_getD,hx]

theorem slice_splice_disjoint (b : Bytes n) (off k off' : ℕ) (xs : List UInt8)
    (h : off+k ≤ off' ∨ off'+xs.length ≤ off) :
    (b.splice off' xs).slice off k = b.slice off k := by
  rw [slice_eq_iff]
  intro j hj
  exact byte_splice_of_not_mem b (by omega)

/-- The `k` low-order bytes of `v`, least significant first. -/
def toLE : ℕ → ℕ → List UInt8
  | 0, _ => []
  | k+1, v => UInt8.ofNat v :: toLE k (v / 256)

def ofLE : List UInt8 → ℕ
  | [] => 0
  | x::xs => x.toNat + 256 * ofLE xs

@[simp] theorem toLE_length (k v : ℕ) : (toLE k v).length = k := by
  induction k generalizing v with
  | zero => rfl
  | succ k ih => simp [toLE,ih]

theorem ofLE_toLE (k v : ℕ) : ofLE (toLE k v) = v % 256^k := by
  induction k generalizing v with
  | zero => simp [toLE,ofLE,Nat.mod_one]
  | succ k ih =>
    have hs : v % 256^(k+1) = v % 256+256 * (v / 256 % 256^k) := by
      rw [pow_succ',Nat.mod_mul]
    simp only [toLE,ofLE,ih,hs]
    simp

theorem ofLE_lt (xs : List UInt8) : ofLE xs < 256^xs.length := by
  induction xs with
  | nil => simp [ofLE]
  | cons x xs ih =>
    have hx := x.toNat_lt
    simp only [ofLE,length_cons,pow_succ']
    omega

/-- The `k`-byte little-endian number at `off`. -/
def getLE (b : Bytes n) (off k : ℕ) : ℕ := ofLE (b.slice off k)

def setLE (b : Bytes n) (off k v : ℕ) : Bytes n := b.splice off (toLE k v)

theorem getLE_lt (b : Bytes n) (off k : ℕ) : b.getLE off k < 256^k := by
  simpa [getLE] using ofLE_lt (b.slice off k)

theorem getLE_setLE_self (b : Bytes n) (off k v : ℕ) (h : off+k ≤ n) :
    (b.setLE off k v).getLE off k = v % 256^k := by
  have hs := slice_splice_self b off (toLE k v) (by simpa using h)
  rw [toLE_length] at hs
  rw [getLE,setLE,hs,ofLE_toLE]

theorem getLE_setLE_disjoint (b : Bytes n) (off k off' k' v : ℕ)
    (h : off+k ≤ off' ∨ off'+k' ≤ off) :
    (b.setLE off' k' v).getLE off k = b.getLE off k := by
  rw [getLE,setLE,slice_splice_disjoint b off k off' _ (by simpa using h),getLE]

@[simp] theorem getLE_zero (off k : ℕ) : (zero n).getLE off k = 0 := by
  have hs : (zero n).slice off k = replicate k 0 := by
    apply ext_getElem
    · simp
    · intro j hj hx
      simp [slice]
  have hz (j : ℕ) : ofLE (replicate j 0) = 0 := by
    induction j with
    | zero => rfl
    | succ j ih => simp [replicate_succ,ofLE,ih]
  rw [getLE,hs,hz]

/-- Store the 32-bit words `vs` one after the other from `off` on. -/
def setWords (b : Bytes n) (off : ℕ) : List ℕ → Bytes n
  | [] => b
  | v::vs => (b.setLE off 4 v).setWords (off + 4) vs

theorem getLE_setWords_disjoint (b : Bytes n) (off k off' : ℕ) (vs : List ℕ)
    (h : off+k ≤ off' ∨ off'+4*vs.length ≤ off) :
    (b.setWords off' vs).getLE off k = b.getLE off k := by
  induction vs generalizing b off' with
  | nil => rfl
  | cons v vs ih =>
    simp only [length_cons] at h
    rw [setWords,ih _ _ (by omega),getLE_setLE_disjoint _ _ _ _ _ _ (by omega)]

theorem getLE_setWords (b : Bytes n) (off : ℕ) (vs : List ℕ) (hn : off+4*vs.length ≤ n) {j : ℕ}
    (hj : j < vs.length) : (b.setWords off vs).getLE (off+4*j) 4 = vs[j] % 2^32 := by
  induction vs generalizing b off j with
  | nil => simp at hj
  | cons v vs ih =>
    simp only [length_cons] at hj hn
    rw [setWords]
    cases j with
    | zero =>
      rw [getLE_setWords_disjoint _ _ _ _ _ (by omega),Nat.mul_zero,Nat.add_zero,
        getLE_setLE_self _ _ _ _ (by omega)]
      rfl
    | succ j =>
      have hr := ih (b.setLE off 4 v) (off+4) (by omega) (j := j) (by omega)
      rw [show off+4*(j+1) = off+4+4*j by ring,hr]
      rfl

end Bytes
end Xv6
