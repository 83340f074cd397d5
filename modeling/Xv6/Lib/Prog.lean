import Mathlib.Control.Basic
import Mathlib.Data.List.Range

/-! Programs over a state that may stop with an error, and rules for total correctness. -/
namespace Xv6

abbrev Prog (ε σ : Type) : Type → Type := StateT σ (Except ε)

namespace Prog

variable {ε σ α β : Type} {x : Prog ε σ α} {f : α → Prog ε σ β} {s : σ}

/-- From `s` the program returns, with a result and a state that meet `Q`. -/
def Ends (x : Prog ε σ α) (s : σ) (Q : α → σ → Prop) : Prop :=
  ∃ a t, x.run s = .ok (a,t) ∧ Q a t

theorem Ends.mono {Q R : α → σ → Prop} (h : Ends x s Q) (hQR : ∀ a t, Q a t → R a t) :
    Ends x s R := by
  obtain ⟨a,t,hx,hq⟩ := h
  exact ⟨a,t,hx,hQR a t hq⟩

theorem ends_pure {Q : α → σ → Prop} {a : α} (h : Q a s) :
    Ends (pure a : Prog ε σ α) s Q := ⟨a,s,rfl,h⟩

theorem Ends.bind {R : α → σ → Prop} {Q : β → σ → Prop} (h : Ends x s R)
    (hf : ∀ a t, R a t → Ends (f a) t Q) : Ends (x >>= f) s Q := by
  obtain ⟨a,t,hx,hr⟩ := h
  obtain ⟨b,u,hy,hq⟩ := hf a t hr
  exact ⟨b,u,by rw [StateT.run_bind,hx]; exact hy,hq⟩

theorem run_bind_of_run {a : α} {t : σ} (hx : x.run s = .ok (a,t)) :
    (x >>= f).run s = (f a).run t := by
  rw [StateT.run_bind,hx]
  rfl

theorem ends_bind_of_run {a : α} {t : σ} {Q : β → σ → Prop} (hx : x.run s = .ok (a,t))
    (hf : Ends (f a) t Q) : Ends (x >>= f) s Q := by
  obtain ⟨b,u,hy,hq⟩ := hf
  exact ⟨b,u,(run_bind_of_run hx).trans hy,hq⟩

theorem stops_bind {e : ε} (h : x.run s = .error e) : (x >>= f).run s = .error e := by
  rw [StateT.run_bind,h]
  rfl

/-- From `s` the program returns as `Q` says or stops with an error that meets `E`. -/
def Meets (x : Prog ε σ α) (s : σ) (Q : α → σ → Prop) (E : ε → Prop) : Prop :=
  match x.run s with
  | .ok (a,t) => Q a t
  | .error e => E e

theorem meets_of_run {a : α} {t : σ} {Q : α → σ → Prop} {E : ε → Prop} (hx : x.run s = .ok (a,t))
    (h : Q a t) : Meets x s Q E := by
  rw [Meets,hx]
  exact h

theorem meets_of_error {e : ε} {Q : α → σ → Prop} {E : ε → Prop} (hx : x.run s = .error e)
    (h : E e) : Meets x s Q E := by
  rw [Meets,hx]
  exact h

theorem Ends.meets {Q : α → σ → Prop} (h : Ends x s Q) (E : ε → Prop) : Meets x s Q E := by
  obtain ⟨a,t,hx,hq⟩ := h
  exact meets_of_run hx hq

theorem Meets.ends {Q : α → σ → Prop} {E : ε → Prop} (h : Meets x s Q E) (hE : ∀ e, ¬E e) :
    Ends x s Q := by
  unfold Meets at h
  split at h
  · rename_i a t hx
    exact ⟨a,t,hx,h⟩
  · rename_i e _
    exact absurd h (hE e)

theorem Ends.bind_meets {R : α → σ → Prop} {Q : β → σ → Prop} {E : ε → Prop} (h : Ends x s R)
    (hf : ∀ a t, R a t → Meets (f a) t Q E) : Meets (x >>= f) s Q E := by
  obtain ⟨a,t,hx,hr⟩ := h
  have hq := hf a t hr
  rwa [Meets,← run_bind_of_run hx] at hq

theorem Meets.bind {R : α → σ → Prop} {Q : β → σ → Prop} {E : ε → Prop} (h : Meets x s R E)
    (hf : ∀ a t, R a t → Meets (f a) t Q E) : Meets (x >>= f) s Q E := by
  unfold Meets at h
  split at h
  · rename_i a t hx
    have hq := hf a t h
    rwa [Meets,← run_bind_of_run hx] at hq
  · rename_i e hx
    exact meets_of_error (stops_bind hx) h

theorem Meets.mono {Q R : α → σ → Prop} {E : ε → Prop} (h : Meets x s Q E)
    (hQR : ∀ a t, Q a t → R a t) : Meets x s R E := by
  unfold Meets at h ⊢
  split
  · rename_i a t hx
    rw [hx] at h
    exact hQR a t h
  · rename_i e hx
    rwa [hx] at h

theorem Meets.error {Q : α → σ → Prop} {E E' : ε → Prop} (h : Meets x s Q E)
    (hE : ∀ e, E e → E' e) : Meets x s Q E' := by
  unfold Meets at h ⊢
  split
  · rename_i a t hx
    rwa [hx] at h
  · rename_i e hx
    rw [hx] at h
    exact hE e h

theorem meets_bind_of_run {a : α} {t : σ} {Q : β → σ → Prop} {E : ε → Prop}
    (hx : x.run s = .ok (a,t)) (hf : Meets (f a) t Q E) : Meets (x >>= f) s Q E := by
  rwa [Meets,run_bind_of_run hx]

theorem Meets.of_ok {Q : α → σ → Prop} {E : ε → Prop} {a : α} {t : σ} (h : Meets x s Q E)
    (hx : x.run s = .ok (a,t)) : Q a t := by
  rwa [Meets,hx] at h

theorem Meets.of_error {Q : α → σ → Prop} {E : ε → Prop} {e : ε} (h : Meets x s Q E)
    (hx : x.run s = .error e) : E e := by
  rwa [Meets,hx] at h

theorem meets_false {Q : α → σ → Prop} : Meets x s Q (fun _ => False) ↔ Ends x s Q :=
  ⟨fun h => h.ends fun _ he => he,fun h => h.meets _⟩

/-- The loop `for i = k .. k+n-1`: each round takes the invariant one further. -/
theorem meets_forM_range' {I : ℕ → σ → Prop} {E : ε → Prop} {body : ℕ → Prog ε σ PUnit} {k n : ℕ}
    (hbody : ∀ i, k ≤ i → i < k+n → ∀ s, I i s → Meets (body i) s (fun _ t => I (i+1) t) E)
    (h : I k s) : Meets ((List.range' k n).forM body) s (fun _ t => I (k+n) t) E := by
  induction n generalizing k s with
  | zero => exact meets_of_run rfl h
  | succ n ih =>
    rw [List.range'_succ]
    refine (hbody k (by omega) (by omega) s h).bind fun _ t ht => ?_
    have hrest := ih (fun i hi hlt => hbody i (by omega) (by omega)) ht
    rwa [show k+1+n = k+(n+1) by omega] at hrest

theorem ends_forM_range' {I : ℕ → σ → Prop} {body : ℕ → Prog ε σ PUnit} {k n : ℕ}
    (hbody : ∀ i, k ≤ i → i < k+n → ∀ s, I i s → Ends (body i) s fun _ t => I (i+1) t)
    (h : I k s) : Ends ((List.range' k n).forM body) s fun _ t => I (k+n) t :=
  meets_false.mp (meets_forM_range' (fun i hi hlt s hs => meets_false.mpr (hbody i hi hlt s hs)) h)

theorem meets_forM_range {I : ℕ → σ → Prop} {E : ε → Prop} {body : ℕ → Prog ε σ PUnit} {n : ℕ}
    (hbody : ∀ i < n, ∀ s, I i s → Meets (body i) s (fun _ t => I (i+1) t) E) (h : I 0 s) :
    Meets ((List.range n).forM body) s (fun _ t => I n t) E := by
  have hr := meets_forM_range' (k := 0) (n := n) (fun i _ hi => hbody i (by omega)) h
  rwa [← List.range_eq_range',Nat.zero_add] at hr

theorem ends_forM_range {I : ℕ → σ → Prop} {body : ℕ → Prog ε σ PUnit} {n : ℕ}
    (hbody : ∀ i < n, ∀ s, I i s → Ends (body i) s fun _ t => I (i+1) t) (h : I 0 s) :
    Ends ((List.range n).forM body) s fun _ t => I n t :=
  meets_false.mp (meets_forM_range (fun i hi s hs => meets_false.mpr (hbody i hi s hs)) h)

end Prog
end Xv6
