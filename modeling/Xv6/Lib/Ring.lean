import Mathlib.Data.List.Basic
import Mathlib.Data.Fin.Basic
import Mathlib.Logic.Function.Basic
import Mathlib.Data.Nat.ModEq

/-! A ring between one producer and one consumer with free running indices.
The indices count modulo `M`, a multiple of the number `n` of slots; entry `k` lives in slot
`k % n`.  `Holds r xs` says that `xs` has been produced and not yet consumed. -/
namespace Xv6

structure Ring (n : ℕ) (α : Type) where
  slot : Fin n → α
  prod : ℕ
  cons : ℕ

namespace Ring

variable {n M : ℕ} [NeZero n] {α : Type}

def push (M : ℕ) (r : Ring n α) (a : α) : Ring n α :=
  { r with slot := Function.update r.slot (Fin.ofNat n r.prod) a, prod := (r.prod+1) % M }

def pop (M : ℕ) (r : Ring n α) : Option (α × Ring n α) :=
  if r.cons = r.prod then none
  else some (r.slot (Fin.ofNat n r.cons),{ r with cons := (r.cons+1) % M })

structure Holds (M : ℕ) (r : Ring n α) (xs : List α) : Prop where
  size : xs.length ≤ n
  entries : ∃ h, r.cons = h % M ∧ r.prod = (h+xs.length) % M ∧
    ∀ k a, xs[k]? = some a → r.slot (Fin.ofNat n (h+k)) = a

theorem holds_nil {r : Ring n α} (h : r.cons = r.prod) (hlt : r.cons < M) : r.Holds M [] :=
  ⟨by simp,r.cons,(Nat.mod_eq_of_lt hlt).symm,by simp [← h,Nat.mod_eq_of_lt hlt],by simp⟩

theorem ofNat_mod (hM : n ∣ M) (k : ℕ) : Fin.ofNat n (k % M) = Fin.ofNat n k := by
  ext
  simp [Fin.ofNat,Nat.mod_mod_of_dvd k hM]

theorem ofNat_ne {h i j : ℕ} (hij : i < j) (hj : j < i+n) :
    Fin.ofNat n (h+i) ≠ Fin.ofNat n (h+j) := by
  intro he
  have hm : (h+i) % n = (h+j) % n := by simpa [Fin.ofNat] using congrArg Fin.val he
  have hd : n ∣ h+j-(h+i) := (Nat.modEq_iff_dvd' (by omega)).mp hm
  have := Nat.le_of_dvd (by omega) hd
  omega

/-- Wrapped subtraction undoes wrapped addition. -/
theorem add_mod_sub_mod {a k M : ℕ} (ha : a < M) (hk : k < M) : ((a+k) % M+M-a) % M = k := by
  rcases Nat.lt_or_ge (a+k) M with hfit | hwrap
  · rw [Nat.mod_eq_of_lt hfit,show a+k+M-a = k+M by omega,Nat.add_mod_right]
    exact Nat.mod_eq_of_lt hk
  · rw [Nat.mod_eq_sub_mod hwrap,Nat.mod_eq_of_lt (show a+k-M < M by omega),
      show a+k-M+M-a = k by omega]
    exact Nat.mod_eq_of_lt hk

/-- The wrapped difference of the indices is the number of entries. -/
theorem Holds.pending {r : Ring n α} {xs : List α} (h : r.Holds M xs) (hM : n < M) :
    (r.prod+M-r.cons) % M = xs.length := by
  obtain ⟨hsize,b,hc,hp,-⟩ := h
  have hsum : (b+xs.length) % M = (b % M+xs.length) % M := by rw [Nat.mod_add_mod]
  rw [hc,hp,hsum]
  exact add_mod_sub_mod (Nat.mod_lt b (by omega)) (by omega)

theorem Holds.push {r : Ring n α} {xs : List α} (h : r.Holds M xs) (hM : n ∣ M)
    (hlt : xs.length < n) (a : α) : (r.push M a).Holds M (xs++[a]) := by
  obtain ⟨-,b,hc,hp,hs⟩ := h
  refine ⟨by simp; omega,b,hc,?_,fun k x hk => ?_⟩
  · simp [Ring.push,hp,Nat.add_assoc]
  · rw [Ring.push,hp]
    simp only [ofNat_mod hM]
    rcases Nat.lt_trichotomy k xs.length with hlt' | rfl | hgt
    · rw [List.getElem?_append_left hlt'] at hk
      rw [Function.update_of_ne (ofNat_ne hlt' (by omega)),hs k x hk]
    · simp at hk
      simp [hk]
    · rw [List.getElem?_eq_none (by simp; omega)] at hk
      simp at hk

/-- The oldest entry is where the consumer looks. -/
theorem Holds.peek {r : Ring n α} {xs : List α} {a : α} (h : r.Holds M (a::xs)) (hM : n ∣ M) :
    r.slot (Fin.ofNat n r.cons) = a := by
  obtain ⟨-,b,hc,-,hs⟩ := h
  rw [hc,ofNat_mod hM]
  exact hs 0 a rfl

theorem Holds.drop {r : Ring n α} {xs : List α} {a : α} (h : r.Holds M (a::xs)) :
    ({ r with cons := (r.cons+1) % M } : Ring n α).Holds M xs := by
  obtain ⟨hsize,b,hc,hp,hs⟩ := h
  refine ⟨by simp at hsize; omega,b+1,by simp [hc],?_,fun k y hk => ?_⟩
  · rw [hp,List.length_cons,Nat.add_assoc,Nat.add_comm 1]
  · rw [show b+1+k = b+(k+1) by omega]
    exact hs (k+1) y (by simpa using hk)

/-- What is popped is the oldest entry. -/
theorem Holds.pop {r r' : Ring n α} {xs : List α} {a : α} (h : r.Holds M xs) (hM : n ∣ M)
    (hp : r.pop M = some (a,r')) : ∃ ys, xs = a::ys ∧ r'.Holds M ys := by
  unfold Ring.pop at hp
  split at hp
  · simp at hp
  · rename_i hne
    cases xs with
    | nil =>
      obtain ⟨-,b,hc,hpr,-⟩ := h
      simp [hc,hpr] at hne
    | cons x ys =>
      obtain ⟨ha,rfl⟩ := Prod.mk.inj (Option.some.inj hp)
      have hx : x = a := (h.peek hM).symm.trans ha
      exact ⟨ys,by rw [hx],h.drop⟩

/-- The index before that of the producer. -/
theorem Holds.pred_prod {r : Ring n α} {xs : List α} {a : α} (h : r.Holds M (xs++[a])) {p : ℕ}
    (hp : (p+1) % M = r.prod) (hlt : p < M) : ∃ b, r.cons = b % M ∧ p = (b+xs.length) % M ∧
      ∀ k x, (xs++[a])[k]? = some x → r.slot (Fin.ofNat n (b+k)) = x := by
  obtain ⟨-,b,hc,hpr,hs⟩ := h
  refine ⟨b,hc,?_,hs⟩
  rw [hpr,List.length_append,List.length_singleton,← Nat.add_assoc] at hp
  have hmod : p % M = (b+xs.length) % M := Nat.ModEq.add_right_cancel' 1 hp
  rw [← hmod,Nat.mod_eq_of_lt hlt]

/-- The producer may take back its last entry. -/
theorem Holds.unpush {r : Ring n α} {xs : List α} {a : α} (h : r.Holds M (xs++[a])) {p : ℕ}
    (hp : (p+1) % M = r.prod) (hlt : p < M) : ({ r with prod := p } : Ring n α).Holds M xs := by
  obtain ⟨b,hc,hpb,hs⟩ := h.pred_prod hp hlt
  have hsize := h.size
  rw [List.length_append,List.length_singleton] at hsize
  refine ⟨by omega,b,hc,hpb,fun k y hk => hs k y ?_⟩
  obtain ⟨hk',-⟩ := List.getElem?_eq_some_iff.mp hk
  rw [List.getElem?_append_left hk',hk]

/-- The last entry is behind the producer's index. -/
theorem Holds.peekLast {r : Ring n α} {xs : List α} {a : α} (h : r.Holds M (xs++[a]))
    (hM : n ∣ M) {p : ℕ} (hp : (p+1) % M = r.prod) (hlt : p < M) :
    r.slot (Fin.ofNat n p) = a := by
  obtain ⟨b,-,rfl,hs⟩ := h.pred_prod hp hlt
  rw [ofNat_mod hM]
  exact hs xs.length a (by simp)

/-- The consumer sees an empty ring exactly when there is nothing to consume. -/
theorem Holds.cons_eq_prod {r : Ring n α} {xs : List α} (h : r.Holds M xs) (hM : n < M) :
    r.cons = r.prod ↔ xs = [] := by
  obtain ⟨hsize,b,hc,hp,-⟩ := h
  rw [hc,hp]
  constructor
  · intro he
    have hd : M ∣ b+xs.length-b := (Nat.modEq_iff_dvd' (by omega)).mp he
    by_contra hne
    have hpos := List.length_pos_of_ne_nil hne
    have := Nat.le_of_dvd (by omega) hd
    omega
  · rintro rfl
    simp

/-- The producer sees a full ring exactly when every slot is taken. -/
theorem Holds.full_iff {r : Ring n α} {xs : List α} (h : r.Holds M xs) (hM : n < M) :
    r.prod = (r.cons+n) % M ↔ xs.length = n := by
  obtain ⟨hsize,b,hc,hp,-⟩ := h
  rw [hc,hp,Nat.mod_add_mod]
  constructor
  · intro he
    have hd : M ∣ b+n-(b+xs.length) := (Nat.modEq_iff_dvd' (by omega)).mp he
    by_contra hne
    have := Nat.le_of_dvd (by omega) hd
    omega
  · intro he
    rw [he]

end Ring
end Xv6
