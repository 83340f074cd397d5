import Mathlib.Algebra.BigOperators.Group.Finset.Basic
import Mathlib.Algebra.BigOperators.Group.Finset.Piecewise
import Mathlib.Algebra.GroupWithZero.Nat
import Mathlib.Algebra.Order.BigOperators.Group.Finset
import Mathlib.Algebra.Order.BigOperators.Group.Multiset

/-! Counts over an indexed family, and how they change when one member does. -/
namespace Xv6

open Function Finset

/-- Two sums that differ in one term. -/
theorem sum_range_except {n i : ℕ} {f g : ℕ → ℕ} (hi : i < n) (h : ∀ j, j ≠ i → f j = g j) :
    ∑ j ∈ range n, f j+g i = ∑ j ∈ range n, g j+f i := by
  have hmem := mem_range.mpr hi
  rw [← add_sum_erase _ f hmem,← add_sum_erase _ g hmem]
  have hrest : ∑ j ∈ (range n).erase i, f j = ∑ j ∈ (range n).erase i, g j :=
    sum_congr rfl fun j hj => h j (ne_of_mem_erase hj)
  omega

section Tally

variable {β : Type} {n i : ℕ} {c : ℕ → β → ℕ} {f : ℕ → β}

/-- The sum of the shares `c i (f i)` of the indices below `n`. -/
def tally (n : ℕ) (c : ℕ → β → ℕ) (f : ℕ → β) : ℕ := ∑ i ∈ Finset.range n, c i (f i)

theorem tally_update (hi : i < n) (b : β) :
    tally n c (update f i b)+c i (f i) = tally n c f+c i b := by
  have h := sum_range_except (f := fun j => c j (update f i b j)) (g := fun j => c j (f j))
    hi fun j hj => by simp only [update_of_ne hj]
  simp only [update_self] at h
  exact h

theorem share_le_tally (hi : i < n) : c i (f i) ≤ tally n c f :=
  single_le_sum (f := fun i => c i (f i)) (fun _ _ => Nat.zero_le _)
    (mem_range.mpr hi)

theorem exists_share_of_tally_pos (h : 0 < tally n c f) : ∃ i < n, 0 < c i (f i) := by
  obtain ⟨i,hi,hpos⟩ := exists_ne_zero_of_sum_ne_zero h.ne'
  exact ⟨i,mem_range.mp hi,Nat.pos_of_ne_zero hpos⟩

end Tally

section Bag

variable {ι β : Type} [Fintype ι] {f : ι → Option β} {i : ι} {b : β}

def single : Option β → Multiset β
  | some b => {b}
  | none => 0

@[simp] theorem single_none_add (m : Multiset β) : single none+m = m := zero_add m

@[simp] theorem single_some_add (m : Multiset β) : single (some b)+m = b ::ₘ m :=
  Multiset.singleton_add ..

/-- The values a family of options holds, with multiplicity.  It is irreducible so that no
unifier starts to add up the family. -/
@[irreducible] def bag (f : ι → Option β) : Multiset β := ∑ i, single (f i)

theorem mem_bag : b ∈ bag f ↔ ∃ i, f i = some b := by
  simp only [bag,Multiset.mem_sum,mem_univ,true_and]
  refine exists_congr fun i => ?_
  cases h : f i <;> simp [single,eq_comm]

theorem count_bag [DecidableEq β] :
    (bag f).count b = (univ.filter fun i => f i = some b).card := by
  rw [bag,Multiset.count_sum',card_filter]
  refine sum_congr rfl fun i _ => ?_
  cases h : f i with
  | none => simp [single]
  | some c => simp [single,Multiset.count_singleton,eq_comm]

theorem bag_eq_zero (h : ∀ i, f i = none) : bag f = 0 := by
  rw [bag]
  exact sum_eq_zero fun i _ => by rw [h i,single]

variable [DecidableEq ι]

theorem bag_update_none (h : f i = some b) : bag f = b ::ₘ bag (update f i none) := by
  have hi := mem_univ i
  have hrest : ∑ j ∈ univ.erase i, single (update f i none j) =
      ∑ j ∈ univ.erase i, single (f j) :=
    sum_congr rfl fun j hj => by rw [update_of_ne (ne_of_mem_erase hj)]
  rw [bag,bag,← add_sum_erase _ _ hi,← add_sum_erase _ _ hi,hrest,h,
    update_self]
  exact (Multiset.singleton_add ..).trans (congrArg _ (zero_add _).symm)

theorem bag_update_some (h : f i = none) (b : β) :
    bag (update f i (some b)) = b ::ₘ bag f := by
  rw [bag_update_none (i := i) (b := b) (update_self ..),update_idem,← h,
    update_eq_self]

end Bag

section Gather

variable {ι β : Type} {S : Finset ι} {f : ι → Option β} {i : ι} {b : β}

/-- The values that a family of options holds on the finite set `S`, with multiplicity. -/
@[irreducible] def gather (S : Finset ι) (f : ι → Option β) : Multiset β := ∑ i ∈ S, single (f i)

theorem mem_gather : b ∈ gather S f ↔ ∃ i ∈ S, f i = some b := by
  simp only [gather,Multiset.mem_sum]
  refine exists_congr fun i => and_congr_right fun _ => ?_
  cases h : f i <;> simp [single,eq_comm]

theorem gather_congr {g : ι → Option β} (h : ∀ i ∈ S, f i = g i) : gather S f = gather S g := by
  simp only [gather]
  exact sum_congr rfl fun i hi => by rw [h i hi]

theorem gather_eq_zero (h : ∀ i ∈ S, f i = none) : gather S f = 0 := by
  rw [gather]
  exact sum_eq_zero fun i hi => by rw [h i hi,single]

variable [DecidableEq ι]

/-- What one index adds to what all the others hold. -/
theorem gather_erase (hi : i ∈ S) : gather S f = single (f i)+gather (S.erase i) f := by
  simp only [gather]
  exact (add_sum_erase S (fun i => single (f i)) hi).symm

theorem gather_update_none (hi : i ∈ S) (h : f i = some b) :
    gather S f = b ::ₘ gather S (update f i none) := by
  have hrest : gather (S.erase i) (update f i none) = gather (S.erase i) f :=
    gather_congr fun j hj => update_of_ne (ne_of_mem_erase hj) ..
  rw [gather_erase hi,gather_erase (f := update f i none) hi,hrest,h,update_self,
    single_none_add,single_some_add]

theorem gather_update_some (hi : i ∈ S) (h : f i = none) (b : β) :
    gather S (update f i (some b)) = b ::ₘ gather S f := by
  rw [gather_update_none (b := b) hi (update_self ..),update_idem,← h,
    update_eq_self]

/-- Where no value is held twice, a value names its index. -/
theorem gather_inj (hn : (gather S f).Nodup) {j : ι} (hi : i ∈ S) (hj : j ∈ S) (hfi : f i = some b)
    (hfj : f j = some b) : i = j := by
  by_contra hne
  rw [gather_erase hi,hfi,single_some_add,Multiset.nodup_cons] at hn
  exact hn.1 (mem_gather.mpr ⟨j,mem_erase.mpr ⟨Ne.symm hne,hj⟩,hfj⟩)

end Gather
end Xv6
