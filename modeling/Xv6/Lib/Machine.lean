import Mathlib.Logic.Basic
import Mathlib.Data.List.Basic

/-! Runs of a machine whose events are enabled or not.
`Reaches step ok` follows only events that meet `ok`, the obligations of the
environment; the unrestricted runs are those with `ok` always true. -/
namespace Xv6

variable {σ ε : Type}

/-- States reached by finitely many enabled events that meet `ok`. -/
inductive Reaches (step : σ → ε → Option σ) (ok : σ → ε → Prop) : σ → σ → Prop
  | refl (s) : Reaches step ok s s
  | tail {s t u e} : Reaches step ok s t → ok t e → step t e = some u → Reaches step ok s u

namespace Reaches

variable {step : σ → ε → Option σ} {ok ok' : σ → ε → Prop} {s t u : σ}

theorem trans (hst : Reaches step ok s t) (htu : Reaches step ok t u) : Reaches step ok s u := by
  induction htu with
  | refl => exact hst
  | tail _ hok hstep ih => exact ih.tail hok hstep

theorem mono (h : Reaches step ok s t) (himp : ∀ s e, ok s e → ok' s e) :
    Reaches step ok' s t := by
  induction h with
  | refl => exact .refl _
  | tail _ hok hstep ih => exact ih.tail (himp _ _ hok) hstep

/-- A property of the first state that every step keeps holds of every state reached. -/
theorem invariant {P : σ → Prop} (h : Reaches step ok s t) (hs : P s)
    (hstep : ∀ a e b, P a → ok a e → step a e = some b → P b) : P t := by
  induction h with
  | refl => exact hs
  | tail _ hok hst ih => exact hstep _ _ _ ih hok hst

end Reaches

/-- Follow a list of events, checking `okb` before each. -/
def runEvents (step : σ → ε → Option σ) (okb : σ → ε → Bool) : σ → List ε → Option σ
  | s, [] => some s
  | s, e::es => if okb s e then (step s e).bind fun t => runEvents step okb t es else none

theorem reaches_of_runEvents {step : σ → ε → Option σ} {okb : σ → ε → Bool} {s t : σ}
    {es : List ε} (h : runEvents step okb s es = some t) :
    Reaches step (fun s e => okb s e = true) s t := by
  induction es generalizing s with
  | nil =>
    obtain rfl : s = t := by simpa [runEvents] using h
    exact .refl _
  | cons e es ih =>
    simp only [runEvents] at h
    split at h
    · rename_i hok
      obtain ⟨u,hu,ht⟩ := Option.bind_eq_some_iff.mp h
      have hfirst : Reaches step (fun s e => okb s e = true) s u := .tail (.refl _) hok hu
      exact hfirst.trans (ih ht)
    · simp at h

/-- Events that meet their obligations in every state. -/
theorem reaches_of_runEvents_mem {step : σ → ε → Option σ} {okb : σ → ε → Bool} {P : ε → Prop}
    {s t : σ} {es : List ε} (h : runEvents step okb s es = some t) (hP : ∀ e ∈ es, P e) :
    Reaches step (fun _ e => P e) s t := by
  induction es generalizing s with
  | nil =>
    obtain rfl : s = t := by simpa [runEvents] using h
    exact .refl _
  | cons e es ih =>
    simp only [runEvents] at h
    split at h
    · obtain ⟨u,hu,ht⟩ := Option.bind_eq_some_iff.mp h
      have hfirst : Reaches step (fun _ e => P e) s u :=
        .tail (.refl _) (hP e List.mem_cons_self) hu
      exact hfirst.trans (ih ht fun e' he => hP e' (List.mem_cons_of_mem _ he))
    · simp at h

end Xv6
