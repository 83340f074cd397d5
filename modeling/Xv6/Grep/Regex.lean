import Mathlib.Data.List.Basic

/-! The regular expression matcher of `grep`, and what its patterns mean.
A C string is the list of its bytes before the NUL. -/
namespace Xv6.Grep

open List

abbrev Str := List UInt8

def star : UInt8 := 42
def dot : UInt8 := 46
def dollar : UInt8 := 36
def caret : UInt8 := 94

/-- `matchstar(c, re, text)`, where `here` is `matchhere(re, ·)`. -/
def matchstar (here : Str → Bool) (c : UInt8) : Str → Bool
  | [] => here []
  | x::text =>
    if here (x::text) then true
    else if x = c ∨ c = dot then matchstar here c text
    else false

/-- The last test of `matchhere(re, text)`, where `c` is `re[0]` and `next` is
`matchhere(re+1, ·)`. -/
def matchone (next : Str → Bool) (c : UInt8) : Str → Bool
  | [] => false
  | x::text => if c = dot ∨ c = x then next text else false

def matchhere : Str → Str → Bool
  | [], _ => true
  | c::d::re, text =>
    if d = star then matchstar (matchhere re) c text
    else matchone (matchhere (d::re)) c text
  -- here re[1] is the NUL
  | [c], text => if c = dollar then text.isEmpty else matchone (matchhere []) c text

/-- The loop of `match`. -/
def matchFrom (re : Str) : Str → Bool
  | [] => matchhere re []
  | x::text => if matchhere re (x::text) then true else matchFrom re text

def «match» : Str → Str → Bool
  | [], text => matchFrom [] text
  | c::re, text => if c = caret then matchhere re text else matchFrom (c::re) text

/-- What a pattern is made of. -/
inductive Item
  | star (c : UInt8)
  | eol
  | any
  | lit (c : UInt8)
  deriving DecidableEq

/-- A character on its own. -/
def single (c : UInt8) : Item := if c = dot then .any else .lit c

/-- A pattern read from left to right. -/
def items : Str → List Item
  | [] => []
  | c::d::re => if d = star then .star c :: items re else single c :: items (d::re)
  | [c] => if c = dollar then [.eol] else [single c]

/-- An item matches `w` when `rest` is what follows in the text. -/
def Item.Fits : Item → Str → Str → Prop
  | .star c, w, _ => ∀ x ∈ w, x = c ∨ c = dot
  | .eol, w, rest => w = [] ∧ rest = []
  | .any, w, _ => ∃ x, w = [x]
  | .lit c, w, _ => w = [c]

/-- The items match `w`, each a part of it, when `rest` is what follows in the text. -/
def Fits : List Item → Str → Str → Prop
  | [], w, _ => w = []
  | i::is, w, rest => ∃ u v, w = u ++ v ∧ i.Fits u (v ++ rest) ∧ Fits is v rest

/-- Some beginning of the text matches. -/
def FitsHere (is : List Item) (text : Str) : Prop := ∃ w rest, text = w ++ rest ∧ Fits is w rest

variable {is : List Item} {c x : UInt8} {text : Str}

theorem fitsHere_cons {i : Item} : FitsHere (i::is) text ↔
    ∃ u t, text = u++t ∧ i.Fits u t ∧ FitsHere is t := by
  constructor
  · rintro ⟨_,rest,rfl,u,v,rfl,hi,his⟩
    exact ⟨u,v++rest,by rw [append_assoc],hi,v,rest,rfl,his⟩
  · rintro ⟨u,_,rfl,hi,v,rest,rfl,his⟩
    exact ⟨u++v,rest,by rw [append_assoc],u,v,rfl,hi,his⟩

theorem fitsHere_single : FitsHere (single c::is) text ↔
    ∃ x t, text = x::t ∧ (c = dot ∨ c = x) ∧ FitsHere is t := by
  rw [fitsHere_cons]
  unfold single
  split
  · rename_i hc
    constructor
    · rintro ⟨_,t,rfl,⟨x,rfl⟩,h⟩
      exact ⟨x,t,rfl,.inl hc,h⟩
    · rintro ⟨x,t,rfl,-,h⟩
      exact ⟨[x],t,rfl,⟨x,rfl⟩,h⟩
  · rename_i hc
    constructor
    · rintro ⟨_,t,rfl,rfl,h⟩
      exact ⟨c,t,rfl,.inr rfl,h⟩
    · rintro ⟨x,t,rfl,hx,h⟩
      exact ⟨[x],t,rfl,by rw [hx.resolve_left hc]; rfl,h⟩

theorem fitsHere_eol : FitsHere [.eol] text ↔ text = [] := by
  rw [fitsHere_cons]
  constructor
  · rintro ⟨_,_,rfl,⟨rfl,rfl⟩,-⟩
    rfl
  · rintro rfl
    exact ⟨[],[],rfl,⟨rfl,rfl⟩,[],[],rfl,rfl⟩

theorem fitsHere_star_cons : FitsHere (.star c::is) (x::text) ↔
    FitsHere is (x::text) ∨ (x = c ∨ c = dot) ∧ FitsHere (.star c::is) text := by
  simp only [fitsHere_cons]
  constructor
  · rintro ⟨u,t,ht,hu,h⟩
    cases u with
    | nil =>
      rw [nil_append] at ht
      exact .inl (ht ▸ h)
    | cons y u =>
      obtain ⟨rfl,rfl⟩ := cons.inj ht
      have hu' : ∀ y ∈ u, y = c ∨ c = dot := fun y hy => hu y (mem_cons_of_mem x hy)
      exact .inr ⟨hu x mem_cons_self,u,t,rfl,hu',h⟩
  · rintro (h | ⟨hx,u,t,rfl,hu,h⟩)
    · exact ⟨[],x::text,rfl,fun y hy => absurd hy not_mem_nil,h⟩
    · refine ⟨x::u,t,rfl,fun y hy => ?_,h⟩
      rcases mem_cons.mp hy with rfl | hy
      · exact hx
      · exact hu y hy

theorem fitsHere_star_nil : FitsHere (.star c::is) [] ↔ FitsHere is [] := by
  rw [fitsHere_cons]
  constructor
  · rintro ⟨u,t,ht,-,h⟩
    rwa [(append_eq_nil_iff.mp ht.symm).2] at h
  · exact fun h => ⟨[],[],rfl,fun y hy => absurd hy not_mem_nil,h⟩

/-- The loop of `matchstar` tries every number of repetitions. -/
theorem matchstar_iff {here : Str → Bool} (h : ∀ text, here text = true ↔ FitsHere is text) :
    matchstar here c text = true ↔ FitsHere (.star c::is) text := by
  induction text with
  | nil => rw [matchstar,fitsHere_star_nil,h]
  | cons x text ih =>
    rw [matchstar,fitsHere_star_cons,← h,← ih]
    split
    · simp_all
    · simp_all

theorem matchone_iff {next : Str → Bool} (h : ∀ text, next text = true ↔ FitsHere is text) :
    matchone next c text = true ↔ FitsHere (single c::is) text := by
  rw [fitsHere_single]
  cases text with
  | nil => simp [matchone]
  | cons x text => by_cases hc : c = dot ∨ c = x <;> simp [matchone,hc,h]

theorem matchhere_iff (re text : Str) : matchhere re text = true ↔ FitsHere (items re) text := by
  match re with
  | [] => simp [matchhere,items,FitsHere,Fits]
  | c::d::re =>
    rw [matchhere,items]
    split
    · exact matchstar_iff (matchhere_iff re)
    · exact matchone_iff (matchhere_iff (d::re))
  | [c] =>
    rw [matchhere,items]
    split
    · rw [fitsHere_eol,List.isEmpty_iff]
    · exact matchone_iff (matchhere_iff [])

theorem matchFrom_iff (re text : Str) : matchFrom re text = true ↔
    ∃ before t, text = before++t ∧ FitsHere (items re) t := by
  induction text with
  | nil =>
    rw [matchFrom,matchhere_iff]
    constructor
    · exact fun h => ⟨[],[],rfl,h⟩
    · rintro ⟨before,t,ht,h⟩
      rwa [(append_eq_nil_iff.mp ht.symm).2] at h
  | cons x text ih =>
    have hsplit : matchFrom re (x::text) = true ↔
        matchhere re (x::text) = true ∨ matchFrom re text = true := by
      rw [matchFrom]
      split <;> simp_all
    rw [hsplit,matchhere_iff,ih]
    constructor
    · rintro (h | ⟨before,t,rfl,h⟩)
      · exact ⟨[],x::text,rfl,h⟩
      · exact ⟨x::before,t,rfl,h⟩
    · rintro ⟨before,t,ht,h⟩
      cases before with
      | nil =>
        rw [nil_append] at ht
        exact .inl (ht ▸ h)
      | cons y before =>
        obtain ⟨rfl,rfl⟩ := cons.inj ht
        exact .inr ⟨before,t,rfl,h⟩

/-- The pattern after a leading `^`. -/
def body (re : Str) : Str := if re.head? = some caret then re.tail else re

/-- `match` finds out whether a part of the text matches; after a `^` it has to be at the
beginning. -/
theorem match_correct (re text : Str) : «match» re text = true ↔
    ∃ before w after, text = before ++ w ++ after ∧ (re.head? = some caret → before = []) ∧
      Fits (items (body re)) w after := by
  cases re with
  | nil =>
    rw [«match»,matchFrom_iff]
    constructor
    · rintro ⟨before,_,rfl,w,rest,rfl,h⟩
      exact ⟨before,w,rest,by rw [append_assoc],nofun,h⟩
    · rintro ⟨before,w,after,ht,-,h⟩
      exact ⟨before,w++after,by rw [ht,append_assoc],w,after,rfl,h⟩
  | cons c re =>
    by_cases hc : c = caret
    · rw [«match»,if_pos hc,matchhere_iff,body,if_pos (by rw [hc]; rfl),tail_cons]
      constructor
      · rintro ⟨w,rest,rfl,h⟩
        exact ⟨[],w,rest,rfl,fun _ => rfl,h⟩
      · rintro ⟨before,w,after,ht,hb,h⟩
        rw [hb (congrArg some hc),nil_append] at ht
        exact ⟨w,after,ht,h⟩
    · have hne : (c::re).head? ≠ some caret := fun h => hc (Option.some.inj h)
      rw [«match»,if_neg hc,matchFrom_iff,body,if_neg hne]
      constructor
      · rintro ⟨before,_,rfl,w,rest,rfl,h⟩
        exact ⟨before,w,rest,by rw [append_assoc],fun h => absurd h hne,h⟩
      · rintro ⟨before,w,after,ht,-,h⟩
        exact ⟨before,w++after,by rw [ht,append_assoc],w,after,rfl,h⟩

end Xv6.Grep
