import Mathlib.Data.List.Basic

/-! C strings in a buffer: the bytes from a position up to the first NUL. -/
namespace Xv6

open List

def cstr (buf : List UInt8) (p : ℕ) : List UInt8 := (buf.drop p).takeWhile (· ≠ 0)

/-- `strchr(s, c)` for the string `s` at position `p`. -/
def strchr (c : UInt8) : List UInt8 → ℕ → Option ℕ
  | [], _ => none
  | x::s, p => if x = 0 then none else if x = c then some p else strchr c s (p+1)

/-- A buffer with `xs` written at position `p`. -/
def overwrite (buf : List UInt8) (p : ℕ) (xs : List UInt8) : List UInt8 :=
  buf.take p ++ xs ++ buf.drop (p + xs.length)

variable {buf a w rest xs : List UInt8} {c x : UInt8} {p q : ℕ}

theorem takeWhile_nul (hw : 0 ∉ w) : (w++0::rest).takeWhile (· ≠ 0) = w := by
  induction w with
  | nil => rfl
  | cons x w ih =>
    rw [mem_cons,not_or] at hw
    obtain ⟨hx,hw⟩ := hw
    rw [cons_append,takeWhile_cons_of_pos (by simpa using Ne.symm hx),ih hw]

theorem cstr_append (hw : 0 ∉ w) : cstr (a++(w++0::rest)) a.length = w := by
  rw [cstr,drop_left,takeWhile_nul hw]

/-- A buffer that has `w` and then a NUL at a position. -/
theorem cstr_of_getElem? (hw : 0 ∉ w) (hbuf : ∀ i < w.length, buf[p+i]? = w[i]?)
    (hend : buf[p+w.length]? = some 0) : cstr buf p = w := by
  induction w generalizing p with
  | nil =>
    rw [length_nil,Nat.add_zero] at hend
    obtain ⟨hlt,h0⟩ := List.getElem?_eq_some_iff.mp hend
    rw [cstr,drop_eq_getElem_cons hlt,takeWhile_cons_of_neg]
    simpa using h0
  | cons x w ih =>
    rw [mem_cons,not_or] at hw
    obtain ⟨hx,hw⟩ := hw
    have hnext : cstr buf (p+1) = w := by
      refine ih hw (fun i hi => ?_) ?_
      · have hi' := hbuf (i+1) (Nat.succ_lt_succ hi)
        rw [List.getElem?_cons_succ] at hi'
        rw [← hi']
        congr 1
        omega
      · rw [← hend,length_cons]
        congr 1
        omega
    have hhead : buf[p]? = some x := hbuf 0 (Nat.zero_lt_succ _)
    obtain ⟨hlt,h0⟩ := List.getElem?_eq_some_iff.mp hhead
    rw [cstr,drop_eq_getElem_cons hlt,h0,takeWhile_cons_of_pos (by simpa using Ne.symm hx)]
    exact congrArg (x::·) hnext

theorem strchr_of_not_mem (hc : c ∉ w) (hw : 0 ∉ w) : strchr c (w++0::rest) p = none := by
  induction w generalizing p with
  | nil => rfl
  | cons x w ih =>
    rw [mem_cons,not_or] at hc
    obtain ⟨hxc,hc⟩ := hc
    rw [mem_cons,not_or] at hw
    obtain ⟨hx,hw⟩ := hw
    rw [cons_append,strchr,if_neg (Ne.symm hx),if_neg (Ne.symm hxc),ih hc hw]

theorem strchr_append (hc : c ∉ w) (hw : 0 ∉ w) (hne : c ≠ 0) :
    strchr c (w++c::rest) p = some (p+w.length) := by
  induction w generalizing p with
  | nil => rw [nil_append,strchr,if_neg hne,if_pos rfl]; rfl
  | cons x w ih =>
    rw [mem_cons,not_or] at hc
    obtain ⟨hxc,hc⟩ := hc
    rw [mem_cons,not_or] at hw
    obtain ⟨hx,hw⟩ := hw
    rw [cons_append,strchr,if_neg (Ne.symm hx),if_neg (Ne.symm hxc),ih hc hw,
      length_cons]
    congr 1
    omega

theorem set_append (h : q = a.length) : (a++x::rest).set q c = a++c::rest := by
  subst h
  rw [set_append_right _ _ (Nat.le_refl _),Nat.sub_self,set_cons_zero]

theorem overwrite_length (h : p+xs.length ≤ buf.length) :
    (overwrite buf p xs).length = buf.length := by
  simp only [overwrite,length_append,length_take,length_drop]
  omega

end Xv6
