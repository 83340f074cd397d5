import Mathlib.Data.List.Basic
import Mathlib.Logic.Function.Basic

/-! Lists of writes to a store.
`applyWrites` replays the writes in order.  A crash keeps the writes of some
`List.take k`, so the rules below speak about every initial segment of a list. -/
namespace Xv6

open Function

variable {ι β : Type} [DecidableEq ι]

/-- Replay the writes from left to right. -/
def applyWrites : List (ι × β) → (ι → β) → ι → β
  | [], d => d
  | w::ws, d => applyWrites ws (update d w.1 w.2)

@[simp] theorem applyWrites_nil (d : ι → β) : applyWrites [] d = d := rfl

@[simp] theorem applyWrites_cons (w : ι × β) (ws : List (ι × β)) (d : ι → β) :
    applyWrites (w::ws) d = applyWrites ws (update d w.1 w.2) := rfl

theorem applyWrites_append (ws vs : List (ι × β)) (d : ι → β) :
    applyWrites (ws++vs) d = applyWrites vs (applyWrites ws d) := by
  induction ws generalizing d with
  | nil => rfl
  | cons w ws ih => simp [ih]

/-- An address that no write names keeps its value. -/
theorem applyWrites_of_not_mem (ws : List (ι × β)) (d : ι → β) {a : ι}
    (h : ∀ w ∈ ws, w.1 ≠ a) : applyWrites ws d a = d a := by
  induction ws generalizing d with
  | nil => rfl
  | cons w ws ih =>
    have hw : w.1 ≠ a := h w (by simp)
    rw [applyWrites_cons,ih _ (fun v hv => h v (by simp [hv])),update_of_ne hw.symm]

/-- When all writes to `a` carry the same value, a list that writes `a` leaves that value. -/
theorem applyWrites_of_mem (ws : List (ι × β)) (d : ι → β) {a : ι} {v : β}
    (hmem : ∃ w ∈ ws, w.1 = a) (hval : ∀ w ∈ ws, w.1 = a → w.2 = v) :
    applyWrites ws d a = v := by
  induction ws generalizing d with
  | nil => simp at hmem
  | cons w ws ih =>
    rw [applyWrites_cons]
    by_cases hr : ∃ u ∈ ws, u.1 = a
    · exact ih _ hr (fun u hu => hval u (by simp [hu]))
    · push Not at hr
      rw [applyWrites_of_not_mem ws _ hr]
      obtain ⟨u,hu,hua⟩ := hmem
      rcases List.mem_cons.mp hu with rfl | hu
      · rw [← hua,update_self,hval u (by simp) hua]
      · exact absurd hua (hr u hu)

/-- A property kept by each write of a list holds after every initial segment of it. -/
theorem applyWrites_take_induction (P : (ι → β) → Prop) (ws : List (ι × β))
    (hstep : ∀ w ∈ ws, ∀ d, P d → P (update d w.1 w.2)) (k : ℕ) (d : ι → β)
    (hd : P d) : P (applyWrites (ws.take k) d) := by
  induction ws generalizing d k with
  | nil => simpa using hd
  | cons w ws ih =>
    cases k with
    | zero => simpa using hd
    | succ k =>
      rw [List.take_succ_cons,applyWrites_cons]
      exact ih (fun v hv => hstep v (by simp [hv])) k _ (hstep w (by simp) d hd)

end Xv6
