import Mathlib.Order.Interval.Finset.Nat
import Xv6.Fs.Ownership

/-! What `balloc` and `bfree` do to the disk. -/
namespace Xv6
namespace Fs

open Prog

variable {sb : Superblock} {s t : State} {a b : ℕ} {f : ℕ × ℕ → ℕ}

/-- The state after `balloc` has handed out block `a`. -/
def State.grant (sb : Superblock) (s : State) (a : ℕ) : State :=
  { s with view := granted sb s.view a, logged := s.logged ++ [BBLOCK sb a] ++ [a] }

@[simp] theorem State.grant_itable (sb : Superblock) (s : State) (a : ℕ) :
    (s.grant sb a).itable = s.itable := rfl

/-- The state after `bfree` has taken block `b` back. -/
def State.release (sb : Superblock) (s : State) (b : ℕ) : State :=
  { s with view := cleared sb s.view b, logged := s.logged ++ [BBLOCK sb b] }

@[simp] theorem State.release_itable (sb : Superblock) (s : State) (b : ℕ) :
    (s.release sb b).itable = s.itable := rfl

/-- The outcomes of `balloc`: no block is free, or a free one has been taken. -/
def Balloc (sb : Superblock) (s : State) (a : ℕ) (t : State) : Prop :=
  (a = 0 ∧ t = s ∧ ∀ b < sb.size, inUse sb s.view b = true) ∨
    (a < sb.size ∧ inUse sb s.view a = false ∧ t = s.grant sb a)

theorem clearBitFrom_some {x : Block} {bi : ℕ} (h : clearBitFrom sb x b = some bi) :
    bi < BPB ∧ b+bi < sb.size ∧ x.testBit bi = false := by
  have hmem := List.mem_of_find?_eq_some h
  have hbit := List.find?_some h
  rw [List.mem_range] at hmem
  refine ⟨by omega,by omega,by simpa using hbit⟩

theorem clearBitFrom_none {x : Block} (h : clearBitFrom sb x b = none) {bi : ℕ} (hlt : bi < BPB)
    (hs : b+bi < sb.size) : x.testBit bi = true := by
  have hall := List.find?_eq_none.mp h bi (List.mem_range.mpr (by omega))
  simpa using hall

theorem bblock_group {g bi : ℕ} (h : bi < BPB) : BBLOCK sb (g*BPB) = BBLOCK sb (g*BPB+bi) := by
  have h1 : (g*BPB+bi)/BPB = g := by
    rw [Nat.mul_comm,Nat.mul_add_div (by decide),Nat.div_eq_of_lt h,Nat.add_zero]
  have h2 : g*BPB/BPB = g := Nat.mul_div_cancel _ (by decide)
  rw [BBLOCK,BBLOCK,h1,h2]

theorem mod_group {g bi : ℕ} (h : bi < BPB) : (g*BPB+bi) % BPB = bi := by
  rw [Nat.mul_comm,Nat.mul_add_mod,Nat.mod_eq_of_lt h]

theorem ballocFrom_spec (fuel g : ℕ) (hset : ∀ b < g*BPB, b < sb.size → inUse sb s.view b = true)
    (hfuel : sb.size ≤ (g+fuel)*BPB) : Ends (ballocFrom sb fuel g) s (Balloc sb s) := by
  induction fuel generalizing g with
  | zero => exact ends_pure (.inl ⟨rfl,rfl,fun b hb => hset b (lt_of_lt_of_le hb hfuel) hb⟩)
  | succ fuel ih =>
    unfold ballocFrom
    split
    · refine ends_bind_of_run rfl ?_
      split
      · rename_i bi hbi
        obtain ⟨hlt,hsz,hbit⟩ := clearBitFrom_some hbi
        refine ⟨_,_,rfl,.inr ⟨hsz,?_,?_⟩⟩
        · rw [inUse,← bblock_group hlt,mod_group hlt,hbit]
        · simp only [State.grant,granted,marked,← bblock_group hlt,mod_group hlt]
      · rename_i hnone
        refine ih (g+1) (fun b hb hs => ?_) (by rwa [show g+1+fuel = g+(fuel+1) by omega])
        by_cases hg : b < g*BPB
        · exact hset b hg hs
        · obtain ⟨bi,rfl⟩ := Nat.exists_eq_add_of_le (Nat.not_lt.mp hg)
          have hlt : bi < BPB := by
            rw [Nat.add_mul,Nat.one_mul] at hb
            omega
          rw [inUse,← bblock_group hlt,mod_group hlt]
          exact clearBitFrom_none hnone hlt hs
    · rename_i hend
      exact ends_pure (.inl ⟨rfl,rfl,fun b hb => hset b (by omega) hb⟩)

theorem balloc_spec (sb : Superblock) (s : State) : Ends (balloc sb) s (Balloc sb s) := by
  refine ballocFrom_spec _ 0 (fun b hb => absurd hb (by omega)) ?_
  have h := Nat.lt_div_mul_add (a := sb.size) (b := BPB) (by decide)
  rw [Nat.zero_add,Nat.add_mul,Nat.one_mul]
  exact h.le

theorem bfree_run (h : inUse sb s.view b = true) :
    (bfree sb b).run s = .ok ((),s.release sb b) := by
  have hbit : (s.view (BBLOCK sb b)).testBit (b % BPB) = true := h
  change StateT.run (if (s.view (BBLOCK sb b)).testBit (b % BPB) then _ else _) s = _
  rw [if_pos hbit]
  rfl

/-- A block that the bitmap shows free and that lies on the disk is a data block. -/
theorem Held.isData_of_free (h : Held sb s.view f) (ha : a < sb.size)
    (hfree : inUse sb s.view a = false) : sb.IsData a := by
  refine ⟨Nat.not_lt.mp fun hm => ?_,ha⟩
  rw [h.bitmap a hm] at hfree
  cases hfree

/-- The data blocks the bitmap shows free. -/
def freeBlocks (sb : Superblock) (view : ℕ → Block) : Finset ℕ :=
  (Finset.Ico sb.datastart sb.size).filter fun b => inUse sb view b = false

theorem mem_freeBlocks {view : ℕ → Block} :
    b ∈ freeBlocks sb view ↔ sb.IsData b ∧ inUse sb view b = false := by
  simp [freeBlocks,Superblock.IsData,and_assoc]

theorem freeBlocks_take {view view' : ℕ → Block} (ha : sb.IsData a)
    (hfree : inUse sb view a = false)
    (hbits : ∀ c < sb.size, inUse sb view' c = if c = a then true else inUse sb view c) :
    (freeBlocks sb view').card+1 = (freeBlocks sb view).card := by
  have herase : freeBlocks sb view' = (freeBlocks sb view).erase a := by
    ext c
    rw [Finset.mem_erase,mem_freeBlocks,mem_freeBlocks]
    constructor
    · rintro ⟨hc,hu⟩
      rw [hbits c hc.2] at hu
      split at hu
      · cases hu
      · exact ⟨‹_›,hc,hu⟩
    · rintro ⟨hne,hc,hu⟩
      exact ⟨hc,by rw [hbits c hc.2,if_neg hne,hu]⟩
  rw [herase]
  exact Finset.card_erase_add_one (mem_freeBlocks.mpr ⟨ha,hfree⟩)

end Fs
end Xv6
