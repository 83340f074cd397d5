import Xv6.Lib.Free

/-! Contracts for commands.  A program is shown to respect the contracts of the commands it
calls over an abstract state, whatever they answer; then every handler that meets the
contracts runs it safely. -/
namespace Xv6

/-- When a command may be called, and how it may take an abstract state to another. -/
structure Contract (C : Type) (R : C → Type) (τ : Type) where
  pre : C → τ → Prop
  post : (c : C) → R c → τ → τ → Prop

/-- The same contracts, with some commands ruled out. -/
def Contract.only {C : Type} {R : C → Type} {τ : Type} (W : Contract C R τ) (ok : C → Prop) :
    Contract C R τ := ⟨fun c t => ok c ∧ W.pre c t,W.post⟩

namespace Free

variable {C : Type} {R : C → Type} {ε σ τ α β : Type} {W : Contract C R τ}

/-- From `t` the program calls commands only as the contracts allow, and ends as `Q` says
however they are answered. -/
def Safe (W : Contract C R τ) : Free C R α → τ → (α → τ → Prop) → Prop
  | .pure a, t, Q => Q a t
  | .call c k, t, Q => W.pre c t ∧ ∀ r u, W.post c r t u → Safe W (k r) u Q

variable {x : Free C R α} {f : α → Free C R β} {t : τ}

theorem safe_pure {Q : α → τ → Prop} {a : α} (h : Q a t) : Safe W (Pure.pure a) t Q := h

theorem safe_command {c : C} {Q : R c → τ → Prop} (hpre : W.pre c t)
    (h : ∀ r u, W.post c r t u → Q r u) : Safe W (command c) t Q := ⟨hpre,h⟩

theorem safe_ite {c : Prop} [Decidable c] {y : Free C R α} {Q : α → τ → Prop}
    (hx : c → Safe W x t Q) (hy : ¬c → Safe W y t Q) : Safe W (if c then x else y) t Q := by
  by_cases h : c
  · rw [if_pos h]
    exact hx h
  · rw [if_neg h]
    exact hy h

theorem Safe.mono {Q Q' : α → τ → Prop} (h : Safe W x t Q) (hQ : ∀ a u, Q a u → Q' a u) :
    Safe W x t Q' := by
  induction x generalizing t with
  | pure a => exact hQ a t h
  | call c k ih => exact ⟨h.1,fun r u hu => ih r (h.2 r u hu)⟩

theorem Safe.bind {P : α → τ → Prop} {Q : β → τ → Prop} (h : Safe W x t P)
    (hf : ∀ a u, P a u → Safe W (f a) u Q) : Safe W (x >>= f) t Q := by
  induction x generalizing t with
  | pure a => exact hf a t h
  | call c k ih => exact ⟨h.1,fun r u hu => ih r (h.2 r u hu)⟩

/-- A step whose answer says what it has done. -/
theorem Safe.then {u : α → τ} {Q : β → τ → Prop} (h : Safe W x t fun a v => v = u a)
    (hf : ∀ a, Safe W (f a) (u a) Q) : Safe W (x >>= f) t Q :=
  h.bind fun a _ hv => hv ▸ hf a

theorem Safe.of_only {ok : C → Prop} {Q : α → τ → Prop} (h : Safe (W.only ok) x t Q) :
    Safe W x t Q := by
  induction x generalizing t with
  | pure a => exact h
  | call c k ih => exact ⟨h.1.2,fun r u hu => ih r (h.2 r u hu)⟩

/-- A loop over a list: each round takes the invariant from the elements still to come to
the rest of them. -/
theorem safe_forM {γ : Type} {I : List γ → τ → Prop} {body : γ → Free C R PUnit} {l : List γ}
    (hbody : ∀ a l t, I (a :: l) t → Safe W (body a) t fun _ u => I l u) (h : I l t) :
    Safe W (l.forM body) t fun _ u => I [] u := by
  induction l generalizing t with
  | nil => exact h
  | cons a l ih => exact (hbody a l t h).bind fun _ u hu => ih hu

/-- A handler that meets the contracts runs a safe program as it says. -/
theorem Safe.run {Rel : σ → τ → Prop} {h : (c : C) → Prog ε σ (R c)} {E : ε → Prop}
    (hh : ∀ c s t, Rel s t → W.pre c t →
      Prog.Meets (h c) s (fun r s' => ∃ t', Rel s' t' ∧ W.post c r t t') E)
    {Q : α → τ → Prop} {s : σ} (hx : Safe W x t Q) (hs : Rel s t) :
    Prog.Meets (x.run h) s (fun a s' => ∃ t', Rel s' t' ∧ Q a t') E := by
  induction x generalizing s t with
  | pure a => exact Prog.meets_of_run rfl ⟨t,hs,hx⟩
  | call c k ih =>
    refine (hh c s t hs hx.1).bind fun r s' hr => ?_
    obtain ⟨t',hs',hpost⟩ := hr
    exact ih r (hx.2 r t' hpost) hs'

end Free
end Xv6
