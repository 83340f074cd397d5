import Xv6.Lib.Count

/-! Radix trees kept in pages of words.
A page holds `b` words.  The page of a prefix at level `l+1` links to the pages of its `b`
extensions at level `l`, and a page at level `0` holds one word for each key.  The tree itself
says which prefix has which page and which key has which word; `Holds` ties it to a memory. -/
namespace Xv6

open Function Finset

structure Radix (b top : ℕ) [NeZero b] where
  root : ℕ
  node : ℕ → ℕ → Option ℕ
  leaf : ℕ → ℕ
  node_top : ∀ p, node top p = if p = 0 then some root else none
  node_parent : ∀ l p, l < top → node l p ≠ none → node (l+1) (p/b) ≠ none
  leaf_page : ∀ k, node 0 (k/b) = none → leaf k = 0

namespace Radix

variable {b top : ℕ}

/-- The places of a tree: the levels and, at each, the prefixes. -/
def places (b top : ℕ) : Finset (ℕ × ℕ) :=
  (Finset.range (top+1)).biUnion fun l => (Finset.range (b^(top-l))).image fun p => (l,p)

theorem mem_places {x : ℕ × ℕ} : x ∈ places b top ↔ x.1 ≤ top ∧ x.2 < b^(top-x.1) := by
  obtain ⟨l,p⟩ := x
  simp [places,Nat.lt_succ_iff]

theorem sum_range_mul {M : Type} [AddCommMonoid M] (f : ℕ → M) (n : ℕ) :
    ∑ q ∈ range (n*b), f q =
      ∑ p ∈ range n, ∑ j ∈ range b, f (b*p+j) := by
  induction n with
  | zero => simp
  | succ n ih =>
    rw [Nat.succ_mul,sum_range_add,ih,sum_range_succ,Nat.mul_comm n b]

variable [NeZero b] (T : Radix b top)

def pages : Multiset ℕ := gather (places b top) fun x => T.node x.1 x.2

/-- The word that links to the page of prefix `p` at level `l`. -/
def entry (link : ℕ → ℕ) (l p : ℕ) : ℕ := (T.node l p).elim 0 link

/-- `word a j` is the `j`-th word of page `a`. -/
structure Holds (word : ℕ → ℕ → ℕ) (link : ℕ → ℕ) : Prop where
  inner : ∀ l p a, l < top → T.node (l+1) p = some a → ∀ j < b,
    word a j = T.entry link l (b*p+j)
  outer : ∀ p a, T.node 0 p = some a → ∀ j < b, word a j = T.leaf (b*p+j)

variable {T} {word word' : ℕ → ℕ → ℕ} {link : ℕ → ℕ} {l p a c k w : ℕ}

theorem node_root : T.node top 0 = some T.root := by
  rw [T.node_top,if_pos rfl]

theorem node_range (hl : l ≤ top) (h : T.node l p ≠ none) : p < b^(top-l) := by
  obtain ⟨d,hd⟩ := Nat.exists_eq_add_of_le hl
  induction d generalizing l p with
  | zero =>
    obtain rfl : top = l := by omega
    rw [T.node_top] at h
    have hp : p = 0 := by
      by_contra hp
      rw [if_neg hp] at h
      exact h rfl
    rw [hp,Nat.sub_self,pow_zero]
    exact Nat.zero_lt_one
  | succ d ih =>
    have hq := ih (by omega) (T.node_parent l p (by omega) h) (by omega)
    rw [show top-l = top-(l+1)+1 by omega,pow_succ]
    exact Nat.lt_mul_of_div_lt hq (Nat.pos_of_neZero b)

/-- A key has no page where one of its prefixes has none. -/
theorem node_zero_none (hl : l ≤ top) (h : T.node l (p/b^l) = none) : T.node 0 p = none := by
  induction l with
  | zero =>
    rwa [pow_zero,Nat.div_one] at h
  | succ l ih =>
    apply ih (Nat.le_of_succ_le hl)
    by_contra hne
    have hq := T.node_parent l (p/b^l) hl hne
    rw [Nat.div_div_eq_div_mul,← pow_succ] at hq
    exact hq h

theorem mem_places_of_node (hl : l ≤ top) (h : T.node l p ≠ none) : (l,p) ∈ places b top :=
  mem_places.mpr ⟨hl,node_range hl h⟩

theorem mem_pages : a ∈ T.pages ↔ ∃ l p, l ≤ top ∧ T.node l p = some a := by
  rw [pages,mem_gather]
  constructor
  · rintro ⟨x,hx,h⟩
    exact ⟨x.1,x.2,(mem_places.mp hx).1,h⟩
  · rintro ⟨l,p,hl,h⟩
    exact ⟨(l,p),mem_places_of_node hl (by rw [h]; exact Option.some_ne_none a),h⟩

theorem mem_pages_of_node (hl : l ≤ top) (h : T.node l p = some a) : a ∈ T.pages :=
  mem_pages.mpr ⟨l,p,hl,h⟩

theorem root_mem_pages : T.root ∈ T.pages := mem_pages_of_node (Nat.le_refl top) node_root

/-- Where the pages are all different, a page belongs to one place. -/
theorem node_inj (hn : T.pages.Nodup) {l' p' : ℕ} (hl : l ≤ top) (hl' : l' ≤ top)
    (h : T.node l p = some a) (h' : T.node l' p' = some a) : l = l' ∧ p = p' := by
  have hx := gather_inj (i := (l,p)) (j := (l',p')) hn
    (mem_places_of_node hl (by rw [h]; exact Option.some_ne_none a))
    (mem_places_of_node hl' (by rw [h']; exact Option.some_ne_none a)) h h'
  exact Prod.mk.inj hx

theorem Holds.congr (h : T.Holds word link) (hw : ∀ a ∈ T.pages, ∀ j < b, word' a j = word a j) :
    T.Holds word' link where
  inner l p a hl hn j hj := by
    rw [hw a (mem_pages_of_node hl hn) j hj,h.inner l p a hl hn j hj]
  outer p a hn j hj := by
    rw [hw a (mem_pages_of_node (Nat.zero_le top) hn) j hj,h.outer p a hn j hj]

section Empty

variable (b top) in
/-- A root page and nothing else. -/
def empty (root : ℕ) : Radix b top where
  root := root
  node l p := if l = top ∧ p = 0 then some root else none
  leaf _ := 0
  node_top p := by simp
  node_parent l p hl h := by
    rw [if_neg (by omega)] at h
    exact absurd rfl h
  leaf_page _ _ := rfl

theorem pages_empty (root : ℕ) : (empty b top root).pages = {root} := by
  have hmem : (top,0) ∈ places b top := mem_places.mpr ⟨Nat.le_refl top,by simp⟩
  have hrest : gather ((places b top).erase (top,0)) (fun x => (empty b top root).node x.1 x.2) = 0 :=
    gather_eq_zero fun x hx => if_neg fun ht =>
      ne_of_mem_erase hx (Prod.ext ht.1 ht.2)
  rw [pages,gather_erase hmem,hrest]
  simp [empty,single]

theorem holds_empty {root : ℕ} (h : ∀ j < b, word root j = 0) :
    (empty b top root).Holds word link where
  inner l p a hl hn j hj := by
    simp only [empty,Option.ite_none_right_eq_some,Option.some.injEq] at hn
    obtain ⟨-,rfl⟩ := hn
    have hnone : (empty b top root).node l (b*p+j) = none := if_neg (by omega)
    rw [h j hj,entry,hnone]
    rfl
  outer p a hn j hj := by
    simp only [empty,Option.ite_none_right_eq_some,Option.some.injEq] at hn
    obtain ⟨-,rfl⟩ := hn
    exact h j hj

end Empty

section SetLeaf

/-- Give the key `k` the word `w`. -/
def setLeaf (T : Radix b top) (k w : ℕ) (h : T.node 0 (k/b) ≠ none) : Radix b top where
  root := T.root
  node := T.node
  leaf := update T.leaf k w
  node_top := T.node_top
  node_parent := T.node_parent
  leaf_page i hi := by
    have hne : i ≠ k := fun he => h (he ▸ hi)
    rw [update_of_ne hne,T.leaf_page i hi]

theorem Holds.setLeaf (h : T.Holds word link) (hn : T.pages.Nodup) (hk : T.node 0 (k/b) = some a)
    (hself : word' a (k%b) = w)
    (hother : ∀ c ∈ T.pages, ∀ j < b, (c ≠ a ∨ j ≠ k%b) → word' c j = word c j) (hne) :
    (T.setLeaf k w hne).Holds word' link where
  inner l p c hl hc j hj := by
    -- an inner page is not the page of the key
    have hca : c ≠ a := by
      rintro rfl
      have hlp := node_inj hn hl (Nat.zero_le top) hc hk
      exact absurd hlp.1 (Nat.succ_ne_zero l)
    rw [hother c (mem_pages_of_node hl hc) j hj (Or.inl hca),h.inner l p c hl hc j hj]
    rfl
  outer p c hc j hj := by
    by_cases hkey : b*p+j = k
    · have hj' : k%b = j := by rw [← hkey,Nat.mul_add_mod,Nat.mod_eq_of_lt hj]
      have hp : k/b = p := by
        rw [← hkey,Nat.mul_add_div (by omega),Nat.div_eq_of_lt hj,Nat.add_zero]
      have hca : c = a := by
        rw [hp] at hk
        exact Option.some.inj (hc.symm.trans hk)
      rw [hca,← hj',hself,hj',hkey]
      exact (update_self k w T.leaf).symm
    · have hapart : c ≠ a ∨ j ≠ k%b := by
        by_contra hboth
        push Not at hboth
        obtain ⟨rfl,rfl⟩ := hboth
        have hlp := node_inj hn (Nat.zero_le top) (Nat.zero_le top) hc hk
        rw [hlp.2] at hkey
        exact hkey (Nat.div_add_mod k b)
      rw [hother c (mem_pages_of_node (Nat.zero_le top) hc) j hj hapart,h.outer p c hc j hj]
      exact (update_of_ne hkey w T.leaf).symm

end SetLeaf

section Grow

/-- Give the prefix `p` at level `l` the page `a`. -/
def grow (T : Radix b top) (l p a : ℕ) (hl : l < top) (hp : T.node (l+1) (p/b) ≠ none) :
    Radix b top where
  root := T.root
  node := update T.node l (update (T.node l) p (some a))
  leaf := T.leaf
  node_top q := by rw [update_of_ne (by omega),T.node_top]
  node_parent l' p' hl' h := by
    -- the new page only makes more places present
    have hmono : ∀ i q, T.node i q ≠ none →
        update T.node l (update (T.node l) p (some a)) i q ≠ none := by
      intro i q hq
      by_cases hi : i = l
      · subst hi
        rw [update_self]
        by_cases hqp : q = p
        · rw [hqp,update_self]
          exact Option.some_ne_none a
        · rwa [update_of_ne hqp]
      · rwa [update_of_ne hi]
    apply hmono
    by_cases hi : l' = l
    · subst hi
      rw [update_self] at h
      by_cases hqp : p' = p
      · rwa [hqp]
      · rw [update_of_ne hqp] at h
        exact T.node_parent l' p' hl' h
    · rw [update_of_ne hi] at h
      exact T.node_parent l' p' hl' h
  leaf_page k hk := by
    apply T.leaf_page
    by_cases hi : 0 = l
    · subst hi
      rw [update_self] at hk
      by_cases hqp : k/b = p
      · rw [hqp,update_self] at hk
        exact absurd hk (Option.some_ne_none a)
      · rwa [update_of_ne hqp] at hk
    · rwa [update_of_ne hi] at hk

variable {hl : l < top} {hp : T.node (l+1) (p/b) ≠ none}

theorem node_grow_self : (T.grow l p a hl hp).node l p = some a := by
  simp only [grow,update_self]

theorem node_grow_other {i q : ℕ} (h : (i,q) ≠ (l,p)) :
    (T.grow l p a hl hp).node i q = T.node i q := by
  by_cases hi : i = l
  · subst hi
    have hq : q ≠ p := fun hq => h (by rw [hq])
    simp only [grow,update_self,update_of_ne hq]
  · simp only [grow,update_of_ne hi]

theorem pages_grow (hnew : T.node l p = none) : (T.grow l p a hl hp).pages = a ::ₘ T.pages := by
  have hmem : (l,p) ∈ places b top := by
    apply mem_places_of_node (T := T.grow l p a hl hp) hl.le
    rw [node_grow_self]
    exact Option.some_ne_none a
  have hfam : (fun x : ℕ × ℕ => (T.grow l p a hl hp).node x.1 x.2) =
      update (fun x => T.node x.1 x.2) (l,p) (some a) := by
    funext x
    by_cases hx : x = (l,p)
    · rw [hx,update_self,node_grow_self]
    · rw [update_of_ne hx,node_grow_other hx]
  rw [pages,hfam]
  exact gather_update_some hmem hnew a

/-- No page hangs below an absent one. -/
theorem node_below_none (hl : l < top) (hnew : T.node (l+1) p = none) {j : ℕ} (hj : j < b) :
    T.node l (b*p+j) = none := by
  by_contra h
  have hq := T.node_parent l (b*p+j) hl h
  rw [Nat.mul_add_div (by omega),Nat.div_eq_of_lt hj,Nat.add_zero] at hq
  exact hq hnew

theorem Holds.grow (h : T.Holds word link) (hnew : T.node l p = none)
    (hn : (a ::ₘ T.pages).Nodup) (hc : T.node (l+1) (p/b) = some c)
    (hzero : ∀ j < b, word' a j = 0) (hlink : word' c (p%b) = link a)
    (hother : ∀ x ∈ T.pages, ∀ j < b, (x ≠ c ∨ j ≠ p%b) → word' x j = word x j) :
    (T.grow l p a hl hp).Holds word' link := by
  have hT := (Multiset.nodup_cons.mp hn).2
  constructor
  · intro i q x hi hx j hj
    by_cases hnew' : (i+1,q) = (l,p)
    · -- the new page itself: nothing below it yet
      obtain ⟨rfl,rfl⟩ := Prod.mk.inj hnew'
      rw [node_grow_self] at hx
      obtain rfl := Option.some.inj hx
      have hnone : T.node i (b*q+j) = none := node_below_none (by omega) hnew hj
      rw [hzero j hj,entry,node_grow_other (by simp),hnone]
      rfl
    · rw [node_grow_other hnew'] at hx
      by_cases hent : (i,b*q+j) = (l,p)
      · -- the entry that links to the new page
        obtain ⟨rfl,hp'⟩ := Prod.mk.inj hent
        have hq : p/b = q := by
          rw [← hp',Nat.mul_add_div (by omega),Nat.div_eq_of_lt hj,Nat.add_zero]
        have hj' : p%b = j := by rw [← hp',Nat.mul_add_mod,Nat.mod_eq_of_lt hj]
        rw [hq] at hc
        obtain rfl := Option.some.inj (hc.symm.trans hx)
        rw [hj'] at hlink
        rw [hlink,entry,hp',node_grow_self]
        rfl
      · have hapart : x ≠ c ∨ j ≠ p%b := by
          by_contra hboth
          push Not at hboth
          obtain ⟨rfl,rfl⟩ := hboth
          have hlp := node_inj hT hi (Nat.succ_le_of_lt hl) hx hc
          apply hent
          rw [hlp.2,Nat.div_add_mod,Nat.succ.inj hlp.1]
        rw [hother x (mem_pages_of_node hi hx) j hj hapart,h.inner i q x hi hx j hj,entry,entry,
          node_grow_other hent]
  · intro q x hx j hj
    by_cases hnew' : (0,q) = (l,p)
    · obtain ⟨rfl,rfl⟩ := Prod.mk.inj hnew'
      rw [node_grow_self] at hx
      obtain rfl := Option.some.inj hx
      have hleaf : T.leaf (b*q+j) = 0 := by
        apply T.leaf_page
        rw [Nat.mul_add_div (by omega),Nat.div_eq_of_lt hj,Nat.add_zero,hnew]
      rw [hzero j hj]
      exact hleaf.symm
    · rw [node_grow_other hnew'] at hx
      have hapart : x ≠ c ∨ j ≠ p%b := by
        apply Or.inl
        rintro rfl
        have hlp := node_inj hT (Nat.zero_le top) (Nat.succ_le_of_lt hl) hx hc
        exact absurd hlp.1 (by omega)
      rw [hother x (mem_pages_of_node (Nat.zero_le top) hx) j hj hapart,h.outer q x hx j hj]
      rfl

end Grow

section Sub

variable (T) in
/-- The pages of the subtree of prefix `p` at level `l`. -/
def sub : ℕ → ℕ → Multiset ℕ
  | 0, p => single (T.node 0 p)
  | l+1, p => single (T.node (l+1) p) + ∑ j ∈ Finset.range b, sub l (b*p+j)

theorem sub_of_none (hl : l ≤ top) (h : T.node l p = none) : T.sub l p = 0 := by
  induction l generalizing p with
  | zero => rw [sub,h,single]
  | succ l ih =>
    rw [sub,h,single_none_add]
    refine sum_eq_zero fun j hj => ih (by omega) ?_
    exact node_below_none hl h (mem_range.mp hj)

/-- The subtrees of one level hold the pages of this level and of all those below. -/
theorem sum_sub (hl : l ≤ top) : ∑ p ∈ range (b^(top-l)), T.sub l p =
    ∑ i ∈ range (l+1), ∑ p ∈ range (b^(top-i)), single (T.node i p) := by
  induction l with
  | zero => simp [sub]
  | succ l ih =>
    have hpow : b^(top-l) = b^(top-(l+1))*b := by
      rw [show top-l = top-(l+1)+1 by omega,pow_succ]
    rw [sum_range_succ,← ih (by omega),hpow,sum_range_mul]
    simp only [sub]
    rw [sum_add_distrib,add_comm]

theorem pages_eq_sub : T.pages = T.sub top 0 := by
  have hall : T.pages =
      ∑ i ∈ range (top+1), ∑ p ∈ range (b^(top-i)), single (T.node i p) := by
    rw [pages,gather,places,sum_biUnion]
    · refine sum_congr rfl fun l _ => sum_image fun p _ q _ h => ?_
      exact (Prod.mk.inj h).2
    · intro i _ j _ hne
      refine disjoint_left.mpr fun x hx hx' => hne ?_
      simp only [mem_image] at hx hx'
      obtain ⟨p,-,rfl⟩ := hx
      obtain ⟨q,-,hq⟩ := hx'
      exact (Prod.mk.inj hq).1.symm
  rw [hall,← sum_sub (Nat.le_refl top)]
  simp

end Sub
end Radix
end Xv6
