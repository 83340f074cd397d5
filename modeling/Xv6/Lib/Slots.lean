import Mathlib.Logic.Function.Basic
import Mathlib.Data.Nat.Basic

/-! Ownership of numbered resources by slots.
A slot holds a resource number, or zero when it is empty.  The books are in order
when no resource is held twice and exactly the resources held are in use. -/
namespace Xv6

open Function

/-- `used` holds of exactly the nonzero numbers in the slots, each of which is in one slot. -/
structure Accounts {ι : Type} (f : ι → ℕ) (used : ℕ → Prop) : Prop where
  inj : ∀ {i j}, f i = f j → f i ≠ 0 → i = j
  used_iff : ∀ b, b ≠ 0 → (used b ↔ ∃ i, f i = b)

namespace Accounts

variable {ι : Type} {f : ι → ℕ} {used used' : ℕ → Prop} {i : ι} {b : ℕ}

theorem used_of_ne (h : Accounts f used) (hi : f i ≠ 0) : used (f i) :=
  (h.used_iff _ hi).mpr ⟨i,rfl⟩

theorem congr (h : Accounts f used) (hu : ∀ c, c ≠ 0 → (used' c ↔ used c)) :
    Accounts f used' := by
  refine ⟨h.inj,fun c hc => ?_⟩
  rw [hu c hc,h.used_iff c hc]

variable [DecidableEq ι]

/-- An unused resource goes into an empty slot. -/
theorem assign (h : Accounts f used) (hi : f i = 0) (hb : b ≠ 0) (hfree : ¬ used b)
    (hu : ∀ c, used' c ↔ c = b ∨ used c) : Accounts (update f i b) used' := by
  have hnot (j : ι) : f j ≠ b := fun hj => hfree ((h.used_iff b hb).mpr ⟨j,hj⟩)
  constructor
  · intro j k hjk hne
    by_cases hj : j = i <;> by_cases hk : k = i
    · rw [hj,hk]
    · rw [hj,update_self,update_of_ne hk] at hjk
      exact absurd hjk.symm (hnot k)
    · rw [hk,update_self,update_of_ne hj] at hjk
      exact absurd hjk (hnot j)
    · rw [update_of_ne hj] at hjk hne
      rw [update_of_ne hk] at hjk
      exact h.inj hjk hne
  · intro c hc
    rw [hu,h.used_iff c hc]
    constructor
    · rintro (rfl | ⟨j,hj⟩)
      · exact ⟨i,update_self ..⟩
      · refine ⟨j,?_⟩
        rw [update_of_ne (by rintro rfl; omega),hj]
    · rintro ⟨j,hj⟩
      by_cases hji : j = i
      · rw [hji,update_self] at hj
        exact .inl hj.symm
      · rw [update_of_ne hji] at hj
        exact .inr ⟨j,hj⟩

/-- A slot gives its resource back. -/
theorem release (h : Accounts f used) (hi : f i = b) (hb : b ≠ 0)
    (hu : ∀ c, used' c ↔ c ≠ b ∧ used c) : Accounts (update f i 0) used' := by
  constructor
  · intro j k hjk hne
    by_cases hj : j = i
    · rw [hj,update_self] at hne
      exact absurd rfl hne
    · rw [update_of_ne hj] at hjk hne
      by_cases hk : k = i
      · rw [hk,update_self] at hjk
        exact absurd hjk hne
      · rw [update_of_ne hk] at hjk
        exact h.inj hjk hne
  · intro c hc
    rw [hu,h.used_iff c hc]
    constructor
    · rintro ⟨hcb,j,hj⟩
      refine ⟨j,?_⟩
      rw [update_of_ne (by rintro rfl; omega),hj]
    · rintro ⟨j,hj⟩
      by_cases hji : j = i
      · rw [hji,update_self] at hj
        exact absurd hj.symm hc
      · rw [update_of_ne hji] at hj
        refine ⟨?_,j,hj⟩
        rintro rfl
        exact hji (h.inj (hj.trans hi.symm) (hj ▸ hb))

end Accounts
end Xv6
