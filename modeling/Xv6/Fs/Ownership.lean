import Xv6.Lib.Slots
import Xv6.Fs.Model

/-! Who owns which block.
Every block number an inode holds sits at one place of its block map: `0..11` for the direct
addresses, `12` for the indirect block, `13..268` for the entries of the indirect block. -/
namespace Xv6
namespace Fs

open Function

/-- The block number at place `p` of the block map of `d`, zero if there is none. -/
def addrAt (view : ℕ → Block) (d : Dinode) (p : ℕ) : ℕ :=
  if p ≤ NDIRECT then d.addr p
  else if p - (NDIRECT+1) < NINDIRECT ∧ d.addr NDIRECT ≠ 0 then
    (view (d.addr NDIRECT)).getLE (4*(p - (NDIRECT+1))) 4
  else 0

/-- The place that holds the address of file block `bn`. -/
def place (bn : ℕ) : ℕ := if bn < NDIRECT then bn else bn + 1

/-- Place `σ.2` of inode `σ.1`; inodes that are not allocated hold nothing. -/
def slot (sb : Superblock) (view : ℕ → Block) (D : ℕ → Dinode) (σ : ℕ × ℕ) : ℕ :=
  if sb.IsInum σ.1 ∧ (D σ.1).type ≠ 0 then addrAt view (D σ.1) σ.2 else 0

/-- The bitmap covers the metadata, and of the data blocks exactly those in the slots `f`. -/
structure Held (sb : Superblock) (view : ℕ → Block) (f : ℕ × ℕ → ℕ) : Prop where
  bitmap : ∀ b, sb.IsMeta b → inUse sb view b = true
  accounts : Accounts f fun b => sb.IsData b ∧ inUse sb view b = true

/-- The size is in bounds and every block below it has an address. -/
structure Sized (view : ℕ → Block) (d : Dinode) : Prop where
  le : d.size ≤ MAXFILE*BSIZE
  mapped : ∀ k < (d.size + BSIZE - 1)/BSIZE, addrAt view d (place k) ≠ 0

/-- The inodes `D` own the blocks in use, each block once. -/
structure Owned (sb : Superblock) (view : ℕ → Block) (D : ℕ → Dinode) : Prop where
  held : Held sb view (slot sb view D)
  sized : ∀ i, sb.IsInum i → (D i).type ≠ 0 → Sized view (D i)

section Views

variable {sb : Superblock} {view view' : ℕ → Block} {D : ℕ → Dinode} {f : ℕ × ℕ → ℕ}

theorem slot_of_alloc {i : ℕ} (hi : sb.IsInum i) (ht : (D i).type ≠ 0) (p : ℕ) :
    slot sb view D (i,p) = addrAt view (D i) p := if_pos ⟨hi,ht⟩

theorem slot_ne_zero {i p : ℕ} (h : slot sb view D (i,p) ≠ 0) :
    sb.IsInum i ∧ (D i).type ≠ 0 ∧ addrAt view (D i) p ≠ 0 := by
  by_cases hc : sb.IsInum i ∧ (D i).type ≠ 0
  · rw [slot_of_alloc hc.1 hc.2] at h
    exact ⟨hc.1,hc.2,h⟩
  · exact absurd (if_neg hc) h

theorem addrAt_direct {d : Dinode} {p : ℕ} (hp : p ≤ NDIRECT) : addrAt view d p = d.addr p :=
  if_pos hp

theorem addrAt_ndirect (view : ℕ → Block) (d : Dinode) :
    addrAt view d NDIRECT = d.addr NDIRECT := addrAt_direct le_rfl

theorem addrAt_entry {d : Dinode} {j : ℕ} (hj : j < NINDIRECT) (h : d.addr NDIRECT ≠ 0) :
    addrAt view d (NDIRECT+1+j) = (view (d.addr NDIRECT)).getLE (4*j) 4 := by
  rw [addrAt,if_neg (by omega),Nat.add_sub_cancel_left,if_pos ⟨hj,h⟩]

theorem addrAt_congr {d : Dinode} (p : ℕ)
    (h : d.addr NDIRECT ≠ 0 → view' (d.addr NDIRECT) = view (d.addr NDIRECT)) :
    addrAt view' d p = addrAt view d p := by
  unfold addrAt
  split
  · rfl
  · split
    · rename_i hc
      rw [h hc.2]
    · rfl

/-- The slots depend on the indirect blocks in use only. -/
theorem slot_congr (h : ∀ i, slot sb view D (i,NDIRECT) ≠ 0 →
      view' (slot sb view D (i,NDIRECT)) = view (slot sb view D (i,NDIRECT))) :
    slot sb view' D = slot sb view D := by
  ext ⟨i,p⟩
  unfold slot
  split
  · rename_i hc
    refine addrAt_congr p fun hne => ?_
    have hi := h i
    rw [slot_of_alloc hc.1 hc.2,addrAt_ndirect] at hi
    exact hi hne
  · rfl

/-- Only the inodes that can be allocated matter. -/
theorem slot_congr_inodes {D' : ℕ → Dinode} (h : ∀ i, sb.IsInum i → D' i = D i) :
    slot sb view D' = slot sb view D := by
  ext ⟨i,p⟩
  unfold slot
  by_cases hi : sb.IsInum i
  · simp only [h i hi]
  · simp [hi]

theorem addrAt_setAddr {d : Dinode} {k a : ℕ} (hk : k ≤ NDIRECT)
    (hz : k = NDIRECT → d.addr NDIRECT = 0 ∧ view a = Bytes.zero BSIZE) (p : ℕ) :
    addrAt view (d.setAddr k a) p = if p = k then a else addrAt view d p := by
  have hset := d.addr_setAddr (Nat.lt_succ_of_le hk) a
  by_cases hp : p ≤ NDIRECT
  · rw [addrAt_direct hp,addrAt_direct hp,hset]
  · rw [if_neg (by omega),addrAt,addrAt,if_neg hp,if_neg hp,hset]
    by_cases hkn : NDIRECT = k
    · obtain ⟨h0,ha⟩ := hz hkn.symm
      rw [if_pos hkn,h0,ha,Bytes.getLE_zero]
      simp
    · rw [if_neg hkn]

/-- Storing a direct address, or a zeroed indirect block, fills one slot. -/
theorem slot_setAddr {i k a : ℕ} (hi : sb.IsInum i) (ht : (D i).type ≠ 0) (hk : k ≤ NDIRECT)
    (hz : k = NDIRECT → (D i).addr NDIRECT = 0 ∧ view a = Bytes.zero BSIZE) :
    slot sb view (update D i ((D i).setAddr k a)) =
      update (slot sb view D) (i,k) a := by
  ext ⟨j,p⟩
  by_cases hj : j = i
  · subst j
    have ht' : (update D i ((D i).setAddr k a) i).type ≠ 0 := by
      rw [update_self]
      exact ht
    rw [slot_of_alloc hi ht',update_self,addrAt_setAddr hk hz,update_apply]
    simp [slot_of_alloc hi ht]
  · rw [update_of_ne (by simp [hj])]
    unfold slot
    simp only [update_of_ne hj]

/-- Storing an entry of the indirect block of `i` fills one slot. -/
theorem slot_setEntry {i j a : ℕ} (hi : sb.IsInum i) (ht : (D i).type ≠ 0) (hj : j < NINDIRECT)
    (hind : (D i).addr NDIRECT ≠ 0) (ha : a < 2^32)
    (hinj : ∀ l, slot sb view D (l,NDIRECT) = (D i).addr NDIRECT → l = i) :
    slot sb (update view ((D i).addr NDIRECT)
        ((view ((D i).addr NDIRECT)).setLE (4*j) 4 a)) D =
      update (slot sb view D) (i,NDIRECT+1+j) a := by
  ext ⟨l,p⟩
  by_cases hl : l = i
  · subst l
    rw [slot_of_alloc hi ht,update_apply,slot_of_alloc hi ht]
    by_cases hp : p ≤ NDIRECT
    · rw [if_neg (by simp only [Prod.mk.injEq]; omega),addrAt_direct hp,addrAt_direct hp]
    · obtain ⟨q,rfl⟩ := Nat.exists_eq_add_of_le (Nat.succ_le_of_lt (Nat.not_le.mp hp))
      by_cases hq : q < NINDIRECT
      · rw [addrAt_entry hq hind,addrAt_entry hq hind,update_self]
        by_cases hqj : q = j
        · subst q
          rw [if_pos rfl,Bytes.getLE_setLE_self _ _ _ _ (by simp only [NINDIRECT,BSIZE] at *; omega)]
          exact Nat.mod_eq_of_lt ha
        · rw [if_neg (by simp [hqj]),Bytes.getLE_setLE_disjoint _ _ _ _ _ _ (by omega)]
      · have hqj : q ≠ j := by omega
        simp [addrAt,hq,hqj]
  · rw [update_of_ne (by simp [hl])]
    by_cases hc : sb.IsInum l ∧ (D l).type ≠ 0
    · rw [slot_of_alloc hc.1 hc.2,slot_of_alloc hc.1 hc.2]
      refine addrAt_congr p fun _ => update_of_ne (fun heq => hl (hinj l ?_)) ..
      rw [slot_of_alloc hc.1 hc.2,addrAt_ndirect,heq]
    · rw [slot,slot,if_neg hc,if_neg hc]

theorem Held.isData (h : Held sb view f) {σ : ℕ × ℕ} (hσ : f σ ≠ 0) : sb.IsData (f σ) :=
  (h.accounts.used_of_ne hσ).1

theorem Held.congr (h : Held sb view f)
    (hbits : ∀ b < sb.size, inUse sb view' b = inUse sb view b) (hd : sb.datastart ≤ sb.size) :
    Held sb view' f where
  bitmap b hb := (hbits b (lt_of_lt_of_le hb hd)).trans (h.bitmap b hb)
  accounts := h.accounts.congr fun b _ => by
    constructor
    · rintro ⟨hb,hu⟩
      exact ⟨hb,hbits b hb.2 ▸ hu⟩
    · rintro ⟨hb,hu⟩
      exact ⟨hb,(hbits b hb.2).trans hu⟩

/-- A block outside the bitmap. -/
def OffBitmap (sb : Superblock) (c : ℕ) : Prop := c < sb.bmapstart ∨ sb.datastart ≤ c

theorem OffBitmap.ne_bblock {c : ℕ} (hc : OffBitmap sb c) (hl : sb.Layout) {b : ℕ}
    (hb : b < sb.size) : BBLOCK sb b ≠ c := by
  have h1 := Superblock.Layout.le_bblock sb b
  have h2 := hl.bblock_lt hb
  unfold OffBitmap at hc
  omega

/-- A store outside the bitmap and the indirect blocks changes no ownership. -/
theorem Owned.store (h : Owned sb view D) (hl : sb.Layout) {c : ℕ} (hc : OffBitmap sb c)
    (hind : ∀ i, slot sb view D (i,NDIRECT) ≠ 0 → slot sb view D (i,NDIRECT) ≠ c) (x : Block) :
    Owned sb (update view c x) D := by
  have hslot : slot sb (update view c x) D = slot sb view D :=
    slot_congr fun i hi => update_of_ne (hind i hi) ..
  constructor
  · rw [hslot]
    exact h.held.congr (fun b hb => inUse_update_of_ne x (hc.ne_bblock hl hb)) hl.data
  · intro i hi ht
    obtain ⟨hle,hmap⟩ := h.sized i hi ht
    refine ⟨hle,fun k hk => ?_⟩
    rw [← slot_of_alloc hi ht,hslot,slot_of_alloc hi ht]
    exact hmap k hk

end Views

/-- The disk with the bit of `b` set. -/
def marked (sb : Superblock) (view : ℕ → Block) (b : ℕ) : ℕ → Block :=
  update view (BBLOCK sb b) ((view (BBLOCK sb b)).setBit (b % BPB))

/-- The disk with `b` marked and zeroed, as `balloc` leaves it. -/
def granted (sb : Superblock) (view : ℕ → Block) (b : ℕ) : ℕ → Block :=
  update (marked sb view b) b (Bytes.zero BSIZE)

/-- The disk with the bit of `b` clear. -/
def cleared (sb : Superblock) (view : ℕ → Block) (b : ℕ) : ℕ → Block :=
  update view (BBLOCK sb b) ((view (BBLOCK sb b)).clearBit (b % BPB))

section Bits

variable {sb : Superblock} {view : ℕ → Block} {a b c : ℕ} {f : ℕ × ℕ → ℕ} {σ : ℕ × ℕ}

theorem cleared_of_off (hl : sb.Layout) (hb : b < sb.size) (hc : OffBitmap sb c) :
    cleared sb view b c = view c :=
  update_of_ne (hc.ne_bblock hl hb).symm ..

theorem granted_of_off (hl : sb.Layout) (hb : b < sb.size) (hc : OffBitmap sb c) (hne : c ≠ b) :
    granted sb view b c = view c := by
  rw [granted,update_of_ne hne,marked,update_of_ne (hc.ne_bblock hl hb).symm]

theorem granted_self (sb : Superblock) (view : ℕ → Block) (b : ℕ) :
    granted sb view b b = Bytes.zero BSIZE := update_self ..

theorem inUse_cleared (c : ℕ) :
    inUse sb (cleared sb view b) c = if c = b then false else inUse sb view c := inUse_clear b c

theorem inUse_granted (hl : sb.Layout) (hb : sb.IsData b) (hc : c < sb.size) :
    inUse sb (granted sb view b) c = if c = b then true else inUse sb view c := by
  rw [granted,inUse_update_of_ne _ (OffBitmap.ne_bblock (.inr hb.1) hl hc)]
  exact inUse_set b c

theorem iblock_off (hl : sb.Layout) {i : ℕ} (hi : sb.IsInum i) : OffBitmap sb (IBLOCK sb i) :=
  .inl (hl.iblock_lt hi)

theorem iblock_ne_data (hl : sb.Layout) {i : ℕ} (hi : sb.IsInum i) (hb : sb.IsData b) :
    IBLOCK sb i ≠ b := by
  have h1 := hl.iblock_lt hi
  have h2 := Superblock.Layout.bmapstart_le sb
  have h3 := hb.1
  omega

theorem dinode_cleared (hl : sb.Layout) (hb : b < sb.size) {i : ℕ} (hi : sb.IsInum i) :
    dinode sb (cleared sb view b) i = dinode sb view i := by
  rw [dinode,cleared_of_off hl hb (iblock_off hl hi),dinode]

theorem dinode_granted (hl : sb.Layout) (hb : sb.IsData b) {i : ℕ} (hi : sb.IsInum i) :
    dinode sb (granted sb view b) i = dinode sb view i := by
  rw [dinode,granted_of_off hl hb.2 (iblock_off hl hi) (iblock_ne_data hl hi hb),dinode]

theorem not_isMeta (hb : sb.IsData b) : ¬ sb.IsMeta b := Nat.not_lt.mpr hb.1

theorem Held.free (h : Held sb view f) (hσ : f σ = b) (hb : b ≠ 0) :
    Held sb (cleared sb view b) (update f σ 0) := by
  have hd : sb.IsData b := hσ ▸ h.isData (hσ ▸ hb)
  constructor
  · intro c hc
    rw [inUse_cleared,if_neg (by rintro rfl; exact not_isMeta hd hc)]
    exact h.bitmap c hc
  · refine h.accounts.release hσ hb fun c => ?_
    rw [inUse_cleared]
    by_cases hcb : c = b <;> simp [hcb]

/-- Block `a` is taken into the empty slot `σ` by a disk whose bits say so. -/
theorem Held.take {view' : ℕ → Block} (h : Held sb view f) (hl : sb.Layout) (hσ : f σ = 0)
    (ha : sb.IsData a) (hfree : inUse sb view a = false)
    (hbits : ∀ c < sb.size, inUse sb view' c = if c = a then true else inUse sb view c) :
    Held sb view' (update f σ a) := by
  constructor
  · intro c hc
    rw [hbits c (lt_of_lt_of_le hc hl.data),if_neg (by rintro rfl; exact not_isMeta ha hc)]
    exact h.bitmap c hc
  · refine h.accounts.assign hσ ha.ne_zero (by simp [hfree]) fun c => ?_
    by_cases hca : c = a
    · subst hca
      simp [ha,hbits c ha.2]
    · constructor
      · rintro ⟨hc,hu⟩
        rw [hbits c hc.2,if_neg hca] at hu
        exact .inr ⟨hc,hu⟩
      · rintro (rfl | ⟨hc,hu⟩)
        · exact absurd rfl hca
        · exact ⟨hc,by rw [hbits c hc.2,if_neg hca,hu]⟩

end Bits

end Fs
end Xv6
