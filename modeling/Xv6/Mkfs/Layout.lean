import Mathlib.Algebra.BigOperators.Intervals
import Mathlib.Algebra.Order.BigOperators.Group.Finset
import Mathlib.Data.List.GetD
import Mathlib.Order.Interval.Finset.Nat
import Xv6.Fs.Transfer
import Xv6.Mkfs.Model

/-! What the image holds while `mkfs` fills it.
The blocks below `freeblock` and behind the metadata are those in the block maps, each in one
place; file blocks are mapped from the first on without gaps; everything from `freeblock` on is
still zero. -/
namespace Xv6
namespace Mkfs

open Prog Function Finset
open Fs (Superblock Dinode NDIRECT NINDIRECT MAXFILE IPB BPB IBLOCK dinodeOff dinode slot place addrAt)
open Names (ROOTINO T_DIR T_FILE)

/-- The number of blocks that hold `len` bytes. -/
def blocks (len : ℕ) : ℕ := (len + BSIZE - 1)/BSIZE

/-- The blocks a file of `b` blocks takes, with its indirect block. -/
def span (b : ℕ) : ℕ := b + if NDIRECT < b then 1 else 0

/-- What the image is for: the number of the next inode and the bytes of those before it. -/
structure Content where
  n : ℕ
  data : ℕ → List UInt8

/-- The first block not taken if inode `i` has `B i` blocks. -/
def need (n : ℕ) (B : ℕ → ℕ) : ℕ := nmeta + ∑ i ∈ Finset.Ico 1 n, span (B i)

namespace Content

/-- The number of blocks of each inode. -/
def blocks (c : Content) (i : ℕ) : ℕ := Mkfs.blocks (c.data i).length

def append (c : Content) (i : ℕ) (p : List UInt8) : Content :=
  { c with data := update c.data i (c.data i ++ p) }

/-- A new inode without bytes. -/
def add (c : Content) : Content := ⟨c.n + 1,update c.data c.n []⟩

/-- Every file is of a size that inodes can map, and the image has room for all of them. -/
structure Fits (c : Content) : Prop where
  file : ∀ i, 1 ≤ i → i < c.n → (c.data i).length ≤ MAXFILE*BSIZE
  image : need c.n c.blocks ≤ FSSIZE

/-- `c'` has all files of `c`, none of them shorter. -/
def Le (c c' : Content) : Prop :=
  c.n ≤ c'.n ∧ ∀ i < c.n, (c.data i).length ≤ (c'.data i).length

end Content

theorem blocks_mono {l m : ℕ} (h : l ≤ m) : blocks l ≤ blocks m :=
  Nat.div_le_div_right (by omega)

theorem span_mono {a b : ℕ} (h : a ≤ b) : span a ≤ span b := by
  unfold span
  split <;> split <;> omega

theorem need_mono {n m : ℕ} {B B' : ℕ → ℕ} (hn : n ≤ m) (hB : ∀ i < n, B i ≤ B' i) :
    need n B ≤ need m B' := by
  refine Nat.add_le_add_left ?_ _
  calc ∑ i ∈ Ico 1 n, span (B i)
      ≤ ∑ i ∈ Ico 1 n, span (B' i) :=
        sum_le_sum fun i hi => span_mono (hB i (mem_Ico.mp hi).2)
    _ ≤ ∑ i ∈ Ico 1 m, span (B' i) :=
        sum_le_sum_of_subset (Ico_subset_Ico_right hn)

theorem need_update {n i : ℕ} (B : ℕ → ℕ) (v : ℕ) (hi : 1 ≤ i) (hn : i < n) :
    need n (update B i v)+span (B i) = need n B+span v := by
  have hmem : i ∈ Ico 1 n := mem_Ico.mpr ⟨hi,hn⟩
  have hrest : ∑ j ∈ (Ico 1 n).erase i, span (update B i v j) =
      ∑ j ∈ (Ico 1 n).erase i, span (B j) :=
    sum_congr rfl fun j hj => by
      rw [update_of_ne (ne_of_mem_erase hj)]
  unfold need
  rw [← add_sum_erase _ _ hmem,← add_sum_erase _ (fun j => span (B j)) hmem,hrest,
    update_self]
  omega

namespace Content

variable {c c' c'' : Content}

theorem Le.refl (c : Content) : c.Le c := ⟨le_rfl,fun _ _ => le_rfl⟩

theorem Le.trans (h : c.Le c') (h' : c'.Le c'') : c.Le c'' :=
  ⟨h.1.trans h'.1,fun i hi => (h.2 i hi).trans (h'.2 i (hi.trans_le h.1))⟩

theorem le_append (c : Content) (i : ℕ) (p : List UInt8) : c.Le (c.append i p) := by
  refine ⟨le_rfl,fun j _ => ?_⟩
  by_cases hj : j = i
  · subst hj
    simp [append]
  · simp [append,hj]

theorem le_add (c : Content) : c.Le c.add := by
  refine ⟨Nat.le_succ _,fun j hj => ?_⟩
  simp only [add,update_of_ne hj.ne,le_refl]

theorem Fits.mono (h : c'.Fits) (hle : c.Le c') : c.Fits where
  file i hi hn := (hle.2 i hn).trans (h.file i hi (hn.trans_le hle.1))
  image := (need_mono hle.1 fun i hi => blocks_mono (hle.2 i hi)).trans h.image

end Content

/-! The block maps as slots. -/

section Mapping

variable {f : ℕ × ℕ → ℕ} {img img' : ℕ → Block} {n i k a : ℕ} {B : ℕ → ℕ} {C : ℕ → List UInt8}

/-- Slot `(i,place k)` holds the block with bytes `k*BSIZE` to `(k+1)*BSIZE` of `C i`, for the
first `B i` blocks of each inode. -/
structure Mapping (f : ℕ × ℕ → ℕ) (img : ℕ → Block) (n : ℕ) (B : ℕ → ℕ) (C : ℕ → List UInt8) :
    Prop where
  mapped : ∀ i, 1 ≤ i → i < n → ∀ k < MAXFILE, f (i,place k) ≠ 0 ↔ k < B i
  byte : ∀ i, 1 ≤ i → i < n → ∀ k < B i*BSIZE,
    (img (f (i,place (k/BSIZE)))).byte (k % BSIZE) = (C i).getD k 0
  le : ∀ i, 1 ≤ i → i < n → B i ≤ MAXFILE

theorem Mapping.ne_zero (h : Mapping f img n B C) (hi : 1 ≤ i) (hn : i < n) (hk : k < B i) :
    f (i,place k) ≠ 0 := (h.mapped i hi hn k (hk.trans_le (h.le i hi hn))).mpr hk

theorem div_lt_of_lt_mul {j b : ℕ} (h : j < b*BSIZE) : j/BSIZE < b :=
  (Nat.div_lt_iff_lt_mul (by decide)).mpr h

/-- The bytes of the mapped blocks are all that matters of the image. -/
theorem Mapping.congr (h : Mapping f img n B C)
    (himg : ∀ i k, f (i,place k) ≠ 0 → img' (f (i,place k)) = img (f (i,place k))) :
    Mapping f img' n B C where
  mapped := h.mapped
  le := h.le
  byte i hi hn k hk := by
    rw [himg _ _ (h.ne_zero hi hn (div_lt_of_lt_mul hk)),h.byte i hi hn k hk]

/-- One more inode, which maps nothing. -/
theorem Mapping.add {B' : ℕ → ℕ} {C' : ℕ → List UInt8} (h : Mapping f img n B C)
    (hf : ∀ p, f (n,p) = 0) (hB : B' n = 0) (hsame : ∀ i < n, B' i = B i ∧ C' i = C i) :
    Mapping f img (n+1) B' C' := by
  refine ⟨fun i hi hn k hk => ?_,fun i hi hn k hk => ?_,fun i hi hn => ?_⟩ <;>
    obtain hlt | rfl := Nat.lt_succ_iff_lt_or_eq.mp hn
  · rw [(hsame i hlt).1]
    exact h.mapped i hi hlt k hk
  · simp [hf,hB]
  · rw [(hsame i hlt).1] at hk
    rw [(hsame i hlt).2]
    exact h.byte i hi hlt k hk
  · simp [hB] at hk
  · rw [(hsame i hlt).1]
    exact h.le i hi hlt
  · simp [hB]

/-- The slot of an indirect block maps no file block. -/
theorem Mapping.indirect (h : Mapping f img n B C) (i a : ℕ) :
    Mapping (update f (i,NDIRECT) a) img n B C := by
  have hf (j k : ℕ) : update f (i,NDIRECT) a (j,place k) = f (j,place k) :=
    update_of_ne (fun he => Fs.place_ne_ndirect k (Prod.ext_iff.mp he).2) _ _
  constructor
  · simpa only [hf] using h.mapped
  · simpa only [hf] using h.byte
  · exact h.le

/-- A zeroed block becomes the next block of file `i`. -/
theorem Mapping.extend (h : Mapping f img n B C) (hi : 1 ≤ i) (hn : i < n) (hk : B i = k)
    (hmax : k < MAXFILE) (ha : a ≠ 0) (hz : img a = Bytes.zero BSIZE)
    (hlen : (C i).length ≤ k*BSIZE) :
    Mapping (update f (i,place k) a) img n (update B i (k+1)) C := by
  have hsame {j l : ℕ} (hne : (j,l) ≠ (i,k)) :
      update f (i,place k) a (j,place l) = f (j,place l) := by
    refine update_of_ne (fun he => hne ?_) _ _
    obtain ⟨h1,h2⟩ := Prod.ext_iff.mp he
    exact Prod.ext h1 (Fs.place_inj h2)
  refine ⟨fun j hj hjn l hl => ?_,fun j hj hjn l hl => ?_,fun j hj hjn => ?_⟩
  · by_cases hne : (j,l) = (i,k)
    · obtain ⟨rfl,rfl⟩ := Prod.mk.inj hne
      simp [ha]
    · rw [hsame hne,h.mapped j hj hjn l hl]
      by_cases hji : j = i
      · subst hji
        have hlk : l ≠ k := fun he => hne (by rw [he])
        rw [update_self]
        omega
      · rw [update_of_ne hji]
  · by_cases hji : j = i
    · subst hji
      rw [update_self] at hl
      by_cases hlk : l/BSIZE = k
      · -- the new block is zero, and so is the list behind its end
        have hend : (C j).length ≤ l := by
          have := Nat.div_mul_le_self l BSIZE
          rw [hlk] at this
          omega
        rw [hlk,update_self,hz,Bytes.byte_zero,List.getD_eq_default _ _ hend]
      · rw [hsame fun he => hlk (Prod.ext_iff.mp he).2,h.byte j hj hjn l]
        have := div_lt_of_lt_mul hl
        refine (Nat.div_lt_iff_lt_mul (by decide)).mp ?_
        omega
    · rw [update_of_ne hji] at hl
      rw [hsame fun he => hji (Prod.ext_iff.mp he).1,h.byte j hj hjn l hl]
  · by_cases hji : j = i
    · subst hji
      rw [update_self]
      exact hmax
    · rw [update_of_ne hji]
      exact h.le j hj hjn

/-- Bytes are written behind the end of file `i`, inside its last block. -/
theorem Mapping.write {xs : List UInt8} {used : ℕ → Prop} (h : Mapping f img n B C)
    (hacc : Accounts f used) (hi : 1 ≤ i)
    (hn : i < n) (hk : (C i).length/BSIZE < B i)
    (hfit : (C i).length % BSIZE+xs.length ≤ BSIZE)
    (himg : img' = update img (f (i,place ((C i).length/BSIZE)))
      ((img (f (i,place ((C i).length/BSIZE)))).splice ((C i).length % BSIZE) xs)) :
    Mapping f img' n B (update C i (C i++xs)) := by
  refine ⟨h.mapped,fun j hj hjn l hl => ?_,h.le⟩
  have hnz := h.ne_zero hj hjn (div_lt_of_lt_mul hl)
  have hold := h.byte j hj hjn l hl
  by_cases hsame : (j,l/BSIZE) = (i,(C i).length/BSIZE)
  · obtain ⟨rfl,hq⟩ := Prod.mk.inj hsame
    have hr := Nat.mod_lt l (show 0 < BSIZE by decide)
    have hl' := Nat.div_add_mod l BSIZE
    have hc' := Nat.div_add_mod (C j).length BSIZE
    rw [hq] at hl' hold ⊢
    rw [himg,update_self,update_self,Bytes.byte_splice _ _ _ hr]
    split
    · rw [List.getD_append_right _ _ _ _ (by omega)]
      congr 1
      omega
    · rename_i hout
      rw [hold]
      by_cases hlt : l < (C j).length
      · rw [List.getD_append _ _ _ _ hlt]
      · rw [List.getD_eq_default _ _ (by omega),List.getD_eq_default _ _ (by simp; omega)]
  · have hne : f (j,place (l/BSIZE)) ≠ f (i,place ((C i).length/BSIZE)) := fun he => by
      obtain ⟨h1,h2⟩ := Prod.ext_iff.mp (hacc.inj he hnz)
      exact hsame (Prod.ext h1 (Fs.place_inj h2))
    rw [himg,update_of_ne hne,hold]
    by_cases hji : j = i
    · subst hji
      -- another block of the same file: the bytes added are all in the last block
      have hd := Nat.div_add_mod l BSIZE
      have hc := Nat.div_add_mod (C j).length BSIZE
      have hm := Nat.mod_lt l (show 0 < BSIZE by decide)
      have hq : l/BSIZE ≠ (C j).length/BSIZE := fun he => hsame (by rw [he])
      rw [update_self]
      by_cases hlt : l < (C j).length
      · rw [List.getD_append _ _ _ _ hlt]
      · rw [List.getD_eq_default _ _ (by omega),List.getD_eq_default _ _ ?_]
        simp only [List.length_append,BSIZE] at *
        omega
    · rw [update_of_ne hji]

end Mapping

end Mkfs
end Xv6
