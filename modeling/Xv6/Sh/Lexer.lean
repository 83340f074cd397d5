import Mathlib.Data.List.TakeWhile
import Xv6.Sh.Grammar

/-! `peek` and `gettoken` in terms of tokens. -/
namespace Xv6.Sh

open Prog List

variable {line : Str} {s : Cursor} {t : Token} {ts us : List Token} {x : UInt8} {w rest : Str}
  {pos : ℕ}

/-- The cursor is in the line, before these tokens. -/
structure Here (line : Str) (s : Cursor) (ts : List Token) : Prop where
  inLine : ∃ a, line = a ++ s.rest ∧ a.length = s.pos
  lexes : Lexes s.rest ts

/-- What `gettoken` returns. -/
def Token.code : Token → UInt8
  | .word _ => 97
  | .gtgt => 43
  | t => t.sym.getD 0

theorem sym_symbols (h : t.sym = some x) : x ∈ symbols := by
  cases t <;> cases h <;> decide

theorem symbol_not_white (h : x ∈ symbols) : x ∉ whitespace := by
  have hall : symbols.Forall (· ∉ whitespace) := by decide
  exact forall_iff_forall_mem.mp hall x h

theorem Here.next (h : Here line ⟨pos,x::rest⟩ ts) (hl : Lexes rest us) :
    Here line ⟨pos+1,rest⟩ us := by
  obtain ⟨a,ha,hlen⟩ := h.inLine
  refine ⟨⟨a++[x],?_,?_⟩,hl⟩
  · rw [ha,append_assoc]
    rfl
  · rw [length_append,hlen]
    rfl

/-- Skipping blanks does not change the tokens. -/
theorem skipFrom_here (h : Here line ⟨pos,rest⟩ ts) : Here line (skipFrom pos rest) ts ∧
    (skipFrom pos rest).rest.length ≤ rest.length ∧
    ∀ x ∈ (skipFrom pos rest).rest.head?, x ∉ whitespace := by
  induction rest generalizing pos with
  | nil => exact ⟨h,le_rfl,nofun⟩
  | cons x rest ih =>
    rw [skipFrom]
    split
    · rename_i hx
      have hl : Lexes rest ts := by
        cases h.lexes with
        | white _ hl => exact hl
        | word hc => exact absurd hx hc.1
        | sym ht => exact absurd hx (symbol_not_white (sym_symbols ht))
        | gt => exact absurd hx (by decide)
        | gtgt => exact absurd hx (by decide)
      obtain ⟨h1,h2,h3⟩ := ih (h.next hl)
      exact ⟨h1,h2.trans (Nat.le_succ _),h3⟩
    · rename_i hx
      refine ⟨h,le_rfl,fun y hy => ?_⟩
      obtain rfl := Option.some.inj hy
      exact hx

theorem Here.skip (h : Here line s ts) : Here line s.skip ts ∧ s.skip.rest.length ≤ s.rest.length ∧
    ∀ x ∈ s.skip.rest.head?, x ∉ whitespace := skipFrom_here h

theorem wordFrom_append (hw : ∀ x ∈ w, IsWordChar x) (hr : ∀ x ∈ rest.head?, ¬IsWordChar x) :
    wordFrom pos (w++rest) = ⟨pos+w.length,rest⟩ := by
  induction w generalizing pos with
  | nil =>
    cases rest with
    | nil => rfl
    | cons x rest => exact if_neg (hr x rfl)
  | cons x w ih =>
    have hx : x ∉ whitespace ∧ x ∉ symbols := hw x mem_cons_self
    rw [cons_append,wordFrom,if_pos hx,ih fun y hy => hw y (mem_cons_of_mem x hy),
      length_cons]
    congr 1
    omega

/-- The switch of `gettoken` takes the first token. -/
theorem token_here (h : Here line s (t::ts)) (hs : ∀ x ∈ s.rest.head?, x ∉ whitespace) :
    ∃ e, s.token = (t.code,e) ∧ Here line e ts ∧ e.rest.length < s.rest.length ∧
      ∀ w, t = .word w → Word line s.pos e.pos w := by
  obtain ⟨pos,rest⟩ := s
  have hlex := h.lexes
  obtain ⟨a,ha,hlen⟩ := h.inLine
  dsimp only at hlex hs ha hlen
  cases hlex with
  | white hx => exact absurd hx (hs _ rfl)
  | @word x w rest _ hx hw hr hl =>
    have hall : ∀ y ∈ x::w, IsWordChar y := by
      rintro y hy
      rcases mem_cons.mp hy with rfl | hy
      · exact hx
      · exact hw y hy
    have hsym : ∀ y ∈ symbols, x ≠ y := fun y hy he => hx.2 (he ▸ hy)
    have hend : wordFrom pos ((x::w)++rest) = ⟨pos+(x::w).length,rest⟩ :=
      wordFrom_append hall hr
    refine ⟨⟨pos+(x::w).length,rest⟩,?_,⟨⟨a++(x::w),?_,?_⟩,hl⟩,?_,?_⟩
    · rw [Cursor.token]
      dsimp only
      rw [if_neg (by simp only [not_or]; exact ⟨hsym _ (by decide),hsym _ (by decide),
        hsym _ (by decide),hsym _ (by decide),hsym _ (by decide),hsym _ (by decide)⟩),
        if_neg (hsym _ (by decide)),← cons_append,hend]
      rfl
    · rw [ha,append_assoc]
      rfl
    · rw [length_append,hlen]
    · simp only [length_cons,length_append]
      omega
    · rintro w' hw'
      obtain rfl := Token.word.inj hw'
      exact ⟨a,rest,ha,hlen,rfl,cons_ne_nil _ _,hall,hr⟩
  | @sym _ x rest _ ht hx hl =>
    refine ⟨⟨pos+1,rest⟩,?_,h.next hl,Nat.lt_succ_self _,?_⟩
    · cases t <;> cases ht <;> first | rfl | exact absurd rfl hx
    · rintro w rfl
      cases ht
  | @gt rest _ hr hl =>
    refine ⟨⟨pos+1,rest⟩,?_,h.next hl,Nat.lt_succ_self _,nofun⟩
    cases rest with
    | nil => rfl
    | cons y rest =>
      have hy : y ≠ 62 := fun he => hr (congrArg some he)
      have hne : (Cursor.mk pos (62::y::rest)).next.get ≠ 62 := hy
      rw [Cursor.token]
      dsimp only
      rw [if_neg (by decide),if_pos rfl,if_neg hne]
      rfl
  | @gtgt rest _ hl =>
    refine ⟨⟨pos+1+1,rest⟩,rfl,⟨⟨a++[62,62],?_,?_⟩,hl⟩,?_,nofun⟩
    · rw [ha,append_assoc]
      rfl
    · rw [length_append,hlen]
      rfl
    · simp only [length_cons]
      omega

/-- The next token is a symbol that begins with one of these characters. -/
def Starts (toks : List UInt8) (ts : List Token) : Prop :=
  ∃ t us x, ts = t::us ∧ t.sym = some x ∧ x ∈ toks

/-- After `peek` the cursor is before the same tokens. -/
theorem peek_run (toks : List UInt8) (h : Here line s ts) (htoks : toks ⊆ symbols) :
    ∃ b u, (peek toks).run s = .ok (b,u) ∧ (b = true ↔ Starts toks ts) ∧ Here line u ts ∧
      u.rest.length ≤ s.rest.length := by
  obtain ⟨hhere,hlen,hwhite⟩ := h.skip
  refine ⟨_,_,rfl,?_,hhere,hlen⟩
  have hlex := hhere.lexes
  generalize s.skip = u at hlex hwhite
  obtain ⟨pos,rest⟩ := u
  simp only [Cursor.get,Bool.and_eq_true,Bool.not_eq_true',isEmpty_eq_false_iff,
    contains_iff_mem]
  have hword {x : UInt8} (hx : IsWordChar x) : x ∉ toks := fun hm => hx.2 (htoks hm)
  cases hlex with
  | nil =>
    constructor
    · exact fun hn => absurd rfl hn.1
    · rintro ⟨_,_,_,hts,-⟩
      cases hts
  | white hx => exact absurd hx (hwhite _ rfl)
  | word hx =>
    constructor
    · exact fun hm => absurd hm.2 (hword hx)
    · rintro ⟨_,_,_,hts,ht,-⟩
      obtain ⟨rfl,-⟩ := cons.inj hts
      cases ht
  | sym ht =>
    constructor
    · exact fun hm => ⟨_,_,_,rfl,ht,hm.2⟩
    · rintro ⟨_,_,_,hts,ht',hm⟩
      obtain ⟨rfl,-⟩ := cons.inj hts
      obtain rfl := Option.some.inj (ht.symm.trans ht')
      exact ⟨cons_ne_nil _ _,hm⟩
  | gt =>
    constructor
    · exact fun hm => ⟨_,_,_,rfl,rfl,hm.2⟩
    · rintro ⟨_,_,_,hts,ht',hm⟩
      obtain ⟨rfl,-⟩ := cons.inj hts
      obtain rfl := Option.some.inj ht'
      exact ⟨cons_ne_nil _ _,hm⟩
  | gtgt =>
    constructor
    · exact fun hm => ⟨_,_,_,rfl,rfl,hm.2⟩
    · rintro ⟨_,_,_,hts,ht',hm⟩
      obtain ⟨rfl,-⟩ := cons.inj hts
      obtain rfl := Option.some.inj ht'
      exact ⟨cons_ne_nil _ _,hm⟩

theorem gettoken_run (h : Here line s (t::ts)) :
    ∃ q e u, gettoken.run s = .ok ((t.code,q,e),u) ∧ Here line u ts ∧
      u.rest.length < s.rest.length ∧ ∀ w, t = .word w → Word line q e w := by
  obtain ⟨hhere,hlen,hwhite⟩ := h.skip
  obtain ⟨e,htok,he,hshort,hword⟩ := token_here hhere hwhite
  obtain ⟨hnext,hle,-⟩ := he.skip
  refine ⟨s.skip.pos,e.pos,e.skip,?_,hnext,by omega,hword⟩
  have hrun : gettoken.run s = .ok ((s.skip.token.1,s.skip.pos,s.skip.token.2.pos),
      s.skip.token.2.skip) := rfl
  rw [hrun,htok]

/-- At the end of the line `gettoken` returns 0. -/
theorem gettoken_nil (h : Here line s []) : ∃ q e u, gettoken.run s = .ok ((0,q,e),u) ∧
    Here line u [] ∧ u.rest.length ≤ s.rest.length := by
  obtain ⟨hhere,hlen,hwhite⟩ := h.skip
  have hnil : s.skip.rest = [] := by
    have hlex := hhere.lexes
    generalize s.skip.rest = rest at hlex hwhite
    cases hlex with
    | nil => rfl
    | white hx => exact absurd hx (hwhite _ rfl)
  have htok : s.skip.token = (0,s.skip) := by
    rw [Cursor.token,hnil]
  obtain ⟨hnext,hle,-⟩ := hhere.skip
  refine ⟨s.skip.pos,s.skip.pos,s.skip.skip,?_,hnext,by omega⟩
  have hrun : gettoken.run s = .ok ((s.skip.token.1,s.skip.pos,s.skip.token.2.pos),
      s.skip.token.2.skip) := rfl
  rw [hrun,htok]

/-- Every text has tokens. -/
theorem lexes_total (text : Str) : ∃ ts, Lexes text ts := by
  induction hn : text.length using Nat.strong_induction_on generalizing text with
  | _ n ih =>
    subst hn
    cases text with
    | nil => exact ⟨[],.nil⟩
    | cons x rest =>
      obtain ⟨ts,hts⟩ := ih rest.length (Nat.lt_succ_self _) rest rfl
      by_cases hw : x ∈ whitespace
      · exact ⟨ts,.white hw hts⟩
      by_cases hs : x ∈ symbols
      · have hcases : x = 62 ∨ x ≠ 62 ∧ ∃ t : Token, t.sym = some x := by
          simp only [symbols,mem_cons,not_mem_nil,or_false] at hs
          rcases hs with rfl | rfl | rfl | rfl | rfl | rfl | rfl
          · exact .inr ⟨by decide,.lt,rfl⟩
          · exact .inr ⟨by decide,.pipe,rfl⟩
          · exact .inl rfl
          · exact .inr ⟨by decide,.amp,rfl⟩
          · exact .inr ⟨by decide,.semi,rfl⟩
          · exact .inr ⟨by decide,.lparen,rfl⟩
          · exact .inr ⟨by decide,.rparen,rfl⟩
        rcases hcases with rfl | ⟨hx,t,ht⟩
        · by_cases hhead : rest.head? = some 62
          · obtain ⟨rest',rfl⟩ := head?_eq_some_iff.mp hhead
            obtain ⟨us,hus⟩ := ih rest'.length (by simp only [length_cons]; omega) rest' rfl
            exact ⟨.gtgt::us,.gtgt hus⟩
          · exact ⟨.gt::ts,.gt hhead hts⟩
        · exact ⟨t::ts,.sym ht hx hts⟩
      · -- the longest run of word characters
        let isWord : UInt8 → Bool := fun y => decide (IsWordChar y)
        have hsplit : rest.takeWhile isWord++rest.dropWhile isWord = rest :=
          takeWhile_append_dropWhile
        have hall : ∀ y ∈ rest.takeWhile isWord, IsWordChar y := fun y hy =>
          of_decide_eq_true (mem_takeWhile_imp (p := isWord) hy)
        have hhead : ∀ y ∈ (rest.dropWhile isWord).head?, ¬IsWordChar y := by
          intro y hy
          have hnot := head?_dropWhile_not isWord rest
          rw [hy] at hnot
          simpa [isWord] using hnot
        obtain ⟨us,hus⟩ := ih (rest.dropWhile isWord).length
          (Nat.lt_succ_of_le (dropWhile_sublist _).length_le) _ rfl
        have hlex := Lexes.word ⟨hw,hs⟩ hall hhead hus
        rw [hsplit] at hlex
        exact ⟨_,hlex⟩

/-- A text has one sequence of tokens. -/
theorem Lexes.unique {text : Str} (h : Lexes text ts) (h' : Lexes text us) : ts = us := by
  have hws {x : UInt8} {t : Token} (hx : x ∈ whitespace) (ht : t.sym = some x) : False :=
    symbol_not_white (sym_symbols ht) hx
  have hwc {x : UInt8} {t : Token} (hx : IsWordChar x) (ht : t.sym = some x) : False :=
    hx.2 (sym_symbols ht)
  induction h generalizing us with
  | nil =>
    cases h'
    rfl
  | white hx h ih =>
    cases h' with
    | white _ h' => exact ih h'
    | word hc => exact absurd hx hc.1
    | sym ht => exact (hws hx ht).elim
    | gt => exact (hws (t := .gt) hx rfl).elim
    | gtgt => exact (hws (t := .gt) hx rfl).elim
  | @word x w s ts hx hw hs h ih =>
    generalize htext : x::(w++s) = text at h'
    cases h' with
    | nil => cases htext
    | white hx' =>
      obtain ⟨rfl,-⟩ := cons.inj htext
      exact absurd hx' hx.1
    | @word x' w' s' us hx' hw' hs' h' =>
      obtain ⟨rfl,htail⟩ := cons.inj htext
      have hend : wordFrom 0 (w++s) = ⟨0+w.length,s⟩ := wordFrom_append hw hs
      rw [htail,wordFrom_append hw' hs',Cursor.mk.injEq] at hend
      obtain rfl := hend.2
      rw [(append_inj htail (by omega)).1,ih h']
    | sym ht =>
      obtain ⟨rfl,-⟩ := cons.inj htext
      exact (hwc hx ht).elim
    | gt =>
      obtain ⟨rfl,-⟩ := cons.inj htext
      exact (hwc (t := .gt) hx rfl).elim
    | gtgt =>
      obtain ⟨rfl,-⟩ := cons.inj htext
      exact (hwc (t := .gt) hx rfl).elim
  | @sym t x s ts ht hx h ih =>
    cases h' with
    | white hx' => exact (hws hx' ht).elim
    | word hc => exact (hwc hc ht).elim
    | @sym t' _ _ us ht' _ h' =>
      have htt : t = t' := by
        cases t <;> cases t' <;> cases ht <;> first | rfl | exact absurd rfl hx | cases ht'
      rw [htt,ih h']
    | gt => exact absurd rfl hx
    | gtgt => exact absurd rfl hx
  | gt hs h ih =>
    cases h' with
    | white hx' => exact (hws (t := .gt) hx' rfl).elim
    | word hc => exact (hwc (t := .gt) hc rfl).elim
    | sym _ hx' => exact absurd rfl hx'
    | gt _ h' => rw [ih h']
    | gtgt => exact absurd rfl hs
  | @gtgt s _ h ih =>
    generalize htext : 62::62::s = text at h'
    cases h' with
    | nil => cases htext
    | white hx' =>
      obtain ⟨rfl,-⟩ := cons.inj htext
      exact (hws (t := .gt) hx' rfl).elim
    | word hc =>
      obtain ⟨rfl,-⟩ := cons.inj htext
      exact (hwc (t := .gt) hc rfl).elim
    | sym _ hx' => exact absurd (cons.inj htext).1.symm hx'
    | gt hs =>
      obtain ⟨-,rfl⟩ := cons.inj htext
      exact absurd rfl hs
    | gtgt h' =>
      obtain ⟨-,htail⟩ := cons.inj htext
      obtain ⟨-,rfl⟩ := cons.inj htail
      rw [ih h']

end Xv6.Sh
