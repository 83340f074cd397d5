import Mathlib.Data.Fintype.Defs
import Mathlib.Data.Fintype.Basic
import Xv6.Lib.Bitmap
import Xv6.Param

/-! The disk format of `fs.h`: regions of the disk, bitmap and on-disk inodes.
`[ boot block | super block | log | inode blocks | free bit map | data blocks ]` -/
namespace Xv6
namespace Fs

open Function

abbrev NDIRECT : ℕ := 12
abbrev NINDIRECT : ℕ := BSIZE/4
abbrev MAXFILE : ℕ := NDIRECT + NINDIRECT

/-- Inodes per block; an on-disk inode takes 64 bytes. -/
abbrev IPB : ℕ := BSIZE/64

/-- Bitmap bits per block. -/
abbrev BPB : ℕ := BSIZE*8

/-- The fields of `struct superblock` the kernel uses after boot. -/
structure Superblock where
  size : ℕ
  ninodes : ℕ
  nlog : ℕ
  logstart : ℕ
  inodestart : ℕ
  bmapstart : ℕ

def IBLOCK (sb : Superblock) (i : ℕ) : ℕ := i/IPB + sb.inodestart

def BBLOCK (sb : Superblock) (b : ℕ) : ℕ := b/BPB + sb.bmapstart

namespace Superblock

/-- The first block behind the metadata. -/
def datastart (sb : Superblock) : ℕ := sb.bmapstart + sb.size/BPB + 1

/-- The regions follow each other as `mkfs` lays them out, and block numbers fit an `int`. -/
structure Layout (sb : Superblock) : Prop where
  log : sb.logstart = 2
  inodes : sb.inodestart = sb.logstart + sb.nlog
  bitmap : sb.bmapstart = sb.inodestart + sb.ninodes/IPB + 1
  data : sb.datastart ≤ sb.size
  small : sb.size < 2^31

instance (sb : Superblock) : Decidable sb.Layout :=
  decidable_of_iff (sb.logstart = 2 ∧ sb.inodestart = sb.logstart + sb.nlog ∧
      sb.bmapstart = sb.inodestart + sb.ninodes/IPB + 1 ∧ sb.datastart ≤ sb.size ∧ sb.size < 2^31)
    ⟨fun ⟨a,b,c,d,e⟩ => ⟨a,b,c,d,e⟩,fun h => ⟨h.log,h.inodes,h.bitmap,h.data,h.small⟩⟩

/-- Boot block, superblock, log, inode blocks and bitmap. -/
def IsMeta (sb : Superblock) (b : ℕ) : Prop := b < sb.datastart

def IsData (sb : Superblock) (b : ℕ) : Prop := sb.datastart ≤ b ∧ b < sb.size

/-- The numbers of inodes that can be allocated. -/
def IsInum (sb : Superblock) (i : ℕ) : Prop := 1 ≤ i ∧ i < sb.ninodes

instance (sb : Superblock) (b : ℕ) : Decidable (sb.IsMeta b) := inferInstanceAs (Decidable (_ < _))
instance (sb : Superblock) (b : ℕ) : Decidable (sb.IsData b) := inferInstanceAs (Decidable (_ ∧ _))
instance (sb : Superblock) (i : ℕ) : Decidable (sb.IsInum i) := inferInstanceAs (Decidable (_ ∧ _))

variable {sb : Superblock}

theorem Layout.iblock_lt (h : sb.Layout) {i : ℕ} (hi : sb.IsInum i) :
    IBLOCK sb i < sb.bmapstart := by
  have hb := h.bitmap
  have hd : i/IPB ≤ sb.ninodes/IPB := Nat.div_le_div_right hi.2.le
  unfold IBLOCK
  omega

theorem Layout.le_bblock (sb : Superblock) (b : ℕ) : sb.bmapstart ≤ BBLOCK sb b :=
  Nat.le_add_left ..

theorem Layout.bblock_lt (_ : sb.Layout) {b : ℕ} (hb : b < sb.size) :
    BBLOCK sb b < sb.datastart := by
  have hd : b/BPB ≤ sb.size/BPB := Nat.div_le_div_right hb.le
  unfold BBLOCK datastart
  omega

theorem Layout.bmapstart_le (sb : Superblock) : sb.bmapstart ≤ sb.datastart :=
  (Nat.le_add_right ..).trans (Nat.le_succ _)

theorem Layout.datastart_pos (sb : Superblock) : 0 < sb.datastart := Nat.succ_pos _

theorem IsData.ne_zero {b : ℕ} (hb : sb.IsData b) : b ≠ 0 := by
  have := Layout.datastart_pos sb
  have := hb.1
  omega

end Superblock

/-- `struct dinode`. -/
@[ext] structure Dinode where
  type : ℕ
  major : ℕ
  minor : ℕ
  nlink : ℕ
  size : ℕ
  addrs : Fin (NDIRECT+1) → ℕ
deriving DecidableEq

namespace Dinode

/-- An inode as `memset` leaves it. -/
def blank : Dinode := ⟨0,0,0,0,0,fun _ => 0⟩

/-- `addrs[k]`. -/
def addr (d : Dinode) (k : ℕ) : ℕ := if h : k < NDIRECT+1 then d.addrs ⟨k,h⟩ else 0

def setAddr (d : Dinode) (k v : ℕ) : Dinode :=
  { d with addrs := fun i => if i.val = k then v else d.addrs i }

theorem addr_setAddr (d : Dinode) {k : ℕ} (hk : k < NDIRECT+1) (v j : ℕ) :
    (d.setAddr k v).addr j = if j = k then v else d.addr j := by
  unfold addr setAddr
  by_cases hj : j = k
  · simp [hj,hk]
  · simp [hj]

/-- The fields have the widths of `short` and `uint`. -/
structure Fits (d : Dinode) : Prop where
  type : d.type < 2^16
  major : d.major < 2^16
  minor : d.minor < 2^16
  nlink : d.nlink < 2^16
  size : d.size < 2^32
  addrs : ∀ k, d.addrs k < 2^32

/-- The on-disk inode at byte offset `o` of a block. -/
def read (x : Block) (o : ℕ) : Dinode where
  type := x.getLE o 2
  major := x.getLE (o+2) 2
  minor := x.getLE (o+4) 2
  nlink := x.getLE (o+6) 2
  size := x.getLE (o+8) 4
  addrs := fun k => x.getLE (o+12+4*k) 4

def write (d : Dinode) (x : Block) (o : ℕ) : Block :=
  (((((x.setLE o 2 d.type).setLE (o+2) 2 d.major).setLE (o+4) 2 d.minor).setLE (o+6) 2
    d.nlink).setLE (o+8) 4 d.size).setWords (o+12) (List.ofFn d.addrs)

theorem fits_read (x : Block) (o : ℕ) : (read x o).Fits where
  type := Bytes.getLE_lt ..
  major := Bytes.getLE_lt ..
  minor := Bytes.getLE_lt ..
  nlink := Bytes.getLE_lt ..
  size := Bytes.getLE_lt ..
  addrs _ := Bytes.getLE_lt ..

theorem read_write_self {d : Dinode} (h : d.Fits) (x : Block) {o : ℕ} (ho : o+64 ≤ BSIZE) :
    read (d.write x o) o = d := by
  have hlen : (List.ofFn d.addrs).length = 13 := by simp
  simp only [BSIZE] at ho
  have hw (b : Block) (p k : ℕ) (hp : p+k ≤ o+12) :
      (b.setWords (o+12) (List.ofFn d.addrs)).getLE p k = b.getLE p k :=
    Bytes.getLE_setWords_disjoint _ _ _ _ _ (.inl hp)
  have hs (b : Block) (p k v : ℕ) (hp : p+k ≤ o+64) : (b.setLE p k v).getLE p k = v % 256^k :=
    Bytes.getLE_setLE_self _ _ _ _ (by simp only [BSIZE]; omega)
  have hd (b : Block) (p k q j v : ℕ) (hpq : p+k ≤ q ∨ q+j ≤ p) :
      (b.setLE q j v).getLE p k = b.getLE p k := Bytes.getLE_setLE_disjoint _ _ _ _ _ _ hpq
  ext k
  · simp only [read,write]
    rw [hw _ _ _ (by omega),hd _ _ _ _ _ _ (by omega),hd _ _ _ _ _ _ (by omega),
      hd _ _ _ _ _ _ (by omega),hd _ _ _ _ _ _ (by omega),hs _ _ _ _ (by omega)]
    exact Nat.mod_eq_of_lt h.type
  · simp only [read,write]
    rw [hw _ _ _ (by omega),hd _ _ _ _ _ _ (by omega),hd _ _ _ _ _ _ (by omega),
      hd _ _ _ _ _ _ (by omega),hs _ _ _ _ (by omega)]
    exact Nat.mod_eq_of_lt h.major
  · simp only [read,write]
    rw [hw _ _ _ (by omega),hd _ _ _ _ _ _ (by omega),hd _ _ _ _ _ _ (by omega),
      hs _ _ _ _ (by omega)]
    exact Nat.mod_eq_of_lt h.minor
  · simp only [read,write]
    rw [hw _ _ _ (by omega),hd _ _ _ _ _ _ (by omega),hs _ _ _ _ (by omega)]
    exact Nat.mod_eq_of_lt h.nlink
  · simp only [read,write]
    rw [hw _ _ _ (by omega),hs _ _ _ _ (by omega)]
    exact Nat.mod_eq_of_lt h.size
  · simp only [read,write]
    rw [Bytes.getLE_setWords _ _ _ (by simp only [BSIZE,hlen]; omega) (by simp),List.getElem_ofFn]
    exact Nat.mod_eq_of_lt (h.addrs k)

theorem read_write_other (d : Dinode) (x : Block) {o p : ℕ} (hp : p+64 ≤ o ∨ o+64 ≤ p) :
    read (d.write x o) p = read x p := by
  have hw (b : Block) (q k : ℕ) (hq : p ≤ q) (hk : q+k ≤ p+64) :
      (b.setWords (o+12) (List.ofFn d.addrs)).getLE q k = b.getLE q k :=
    Bytes.getLE_setWords_disjoint _ _ _ _ _ (by simp only [List.length_ofFn,NDIRECT]; omega)
  have hd (b : Block) (q k r j v : ℕ) (hq : p ≤ q) (hk : q+k ≤ p+64) (hr : o ≤ r)
      (hj : r+j ≤ o+64) : (b.setLE r j v).getLE q k = b.getLE q k :=
    Bytes.getLE_setLE_disjoint _ _ _ _ _ _ (by omega)
  have hall (q k : ℕ) (hq : p ≤ q) (hk : q+k ≤ p+64) : (d.write x o).getLE q k = x.getLE q k := by
    rw [write,hw _ _ _ hq hk,hd _ _ _ _ _ _ hq hk (by omega) (by omega),
      hd _ _ _ _ _ _ hq hk (by omega) (by omega),hd _ _ _ _ _ _ hq hk (by omega) (by omega),
      hd _ _ _ _ _ _ hq hk (by omega) (by omega),hd _ _ _ _ _ _ hq hk (by omega) (by omega)]
  ext k
  · exact hall _ _ (by omega) (by omega)
  · exact hall _ _ (by omega) (by omega)
  · exact hall _ _ (by omega) (by omega)
  · exact hall _ _ (by omega) (by omega)
  · exact hall _ _ (by omega) (by omega)
  · exact hall _ _ (by omega) (by have := k.isLt; simp only [NDIRECT] at this; omega)

end Dinode

/-- Byte offset of inode `i` in its block. -/
def dinodeOff (i : ℕ) : ℕ := i % IPB * 64

/-- Inode `i` as the disk has it. -/
def dinode (sb : Superblock) (view : ℕ → Block) (i : ℕ) : Dinode :=
  Dinode.read (view (IBLOCK sb i)) (dinodeOff i)

/-- The bitmap bit of block `b`. -/
def inUse (sb : Superblock) (view : ℕ → Block) (b : ℕ) : Bool :=
  (view (BBLOCK sb b)).testBit (b % BPB)

theorem dinodeOff_le (i : ℕ) : dinodeOff i+64 ≤ BSIZE := by
  simp only [dinodeOff,IPB,BSIZE]
  omega

theorem dinodeOff_apart {i j : ℕ} (hq : i/IPB = j/IPB) (hne : i ≠ j) :
    dinodeOff i+64 ≤ dinodeOff j ∨ dinodeOff j+64 ≤ dinodeOff i := by
  simp only [dinodeOff,IPB,BSIZE] at *
  omega

section Stores

variable {sb : Superblock} {view : ℕ → Block}

theorem dinode_store_self {d : Dinode} (hd : d.Fits) (i : ℕ) :
    dinode sb (update view (IBLOCK sb i) (d.write (view (IBLOCK sb i)) (dinodeOff i))) i
      = d := by
  rw [dinode,update_self]
  exact Dinode.read_write_self hd _ (dinodeOff_le i)

theorem dinode_store_other (d : Dinode) {i j : ℕ} (hne : j ≠ i) :
    dinode sb (update view (IBLOCK sb i) (d.write (view (IBLOCK sb i)) (dinodeOff i))) j
      = dinode sb view j := by
  unfold dinode
  by_cases hb : IBLOCK sb j = IBLOCK sb i
  · have hq : j/IPB = i/IPB := by
      unfold IBLOCK at hb
      omega
    rw [hb,update_self]
    exact Dinode.read_write_other d _ (dinodeOff_apart hq hne)
  · rw [update_of_ne hb]

theorem dinode_update_of_ne {c : ℕ} (x : Block) {i : ℕ} (h : IBLOCK sb i ≠ c) :
    dinode sb (update view c x) i = dinode sb view i := by
  rw [dinode,update_of_ne h,dinode]

theorem inUse_update_of_ne {c : ℕ} (x : Block) {b : ℕ} (h : BBLOCK sb b ≠ c) :
    inUse sb (update view c x) b = inUse sb view b := by
  rw [inUse,update_of_ne h,inUse]

theorem eq_of_bblock {b c : ℕ} (hq : BBLOCK sb c = BBLOCK sb b) (hm : c % BPB = b % BPB) : c = b := by
  unfold BBLOCK at hq
  have hd : c/BPB = b/BPB := by omega
  rw [← Nat.div_add_mod c BPB,← Nat.div_add_mod b BPB,hd,hm]

/-- Setting the bit of `b` in its bitmap block marks `b` and no other block. -/
theorem inUse_set (b c : ℕ) :
    inUse sb (update view (BBLOCK sb b) ((view (BBLOCK sb b)).setBit (b % BPB))) c =
      if c = b then true else inUse sb view c := by
  unfold inUse
  have hlt : b % BPB < 8*BSIZE := by
    simp only [BPB,BSIZE]
    omega
  by_cases hq : BBLOCK sb c = BBLOCK sb b
  · rw [hq,update_self,Bytes.testBit_setBit _ hlt]
    by_cases hc : c = b
    · simp [hc]
    · rw [if_neg hc,if_neg fun hm => hc (eq_of_bblock hq hm)]
  · rw [update_of_ne hq,if_neg (by rintro rfl; exact hq rfl)]

theorem inUse_clear (b c : ℕ) :
    inUse sb (update view (BBLOCK sb b) ((view (BBLOCK sb b)).clearBit (b % BPB))) c =
      if c = b then false else inUse sb view c := by
  unfold inUse
  have hlt : b % BPB < 8*BSIZE := by
    simp only [BPB,BSIZE]
    omega
  by_cases hq : BBLOCK sb c = BBLOCK sb b
  · rw [hq,update_self,Bytes.testBit_clearBit _ hlt]
    by_cases hc : c = b
    · simp [hc]
    · rw [if_neg hc,if_neg fun hm => hc (eq_of_bblock hq hm)]
  · rw [update_of_ne hq,if_neg (by rintro rfl; exact hq rfl)]

end Stores

end Fs
end Xv6
