import Xv6.Vm.Model

/-! What `walk`, `mappages`, `uvmunmap` and `uvmclear` do to the radix tree of a page table. -/
namespace Xv6.Vm

open Prog Multiset

abbrev Tree := Radix 512 2

/-- The entry that points to a page-table page. -/
def link (a : ℕ) : ℕ := PA2PTE a ||| PTE_V

theorem link_eq (a : ℕ) : link a = PA2PTE a ||| 0 ||| PTE_V := by
  rw [link,Nat.or_zero]

theorem link_valid (a : ℕ) : link a &&& PTE_V ≠ 0 := by
  rw [and_flag (by norm_num),link_eq,PTE_FLAGS_pte (by norm_num)]
  decide

theorem PTE2PA_link {a : ℕ} (h : IsPage a) : PTE2PA (link a) = a := by
  rw [link_eq,PTE2PA_pte (by norm_num) h.1 h.2.2]

theorem pte_lt {pa flags : ℕ} (hpa : pa < 2^56) (hf : flags < 2^10) :
    PA2PTE pa ||| flags ||| PTE_V < 2^64 := by
  have hlt : flags ||| PTE_V < 2^10 := Nat.or_lt_two_pow hf (by norm_num)
  have hd : pa/2^12 < 2^44 := Nat.div_lt_of_lt_mul (by rw [← pow_add]; exact hpa)
  rw [pte_eq hf]
  omega

theorem link_lt {a : ℕ} (h : IsPage a) : link a < 2^64 := by
  rw [link_eq]
  exact pte_lt h.2.2 (by norm_num)

namespace Ram

variable {s : Ram} {a c i j v : ℕ} {x : Page}

theorem mem_setPage_self : (s.setPage a x).mem a = x := Function.update_self ..

theorem mem_setPage_of_ne (h : c ≠ a) : (s.setPage a x).mem c = s.mem c :=
  Function.update_of_ne h ..

theorem mem_setWord_of_ne (h : c ≠ a) : (s.setWord a j v).mem c = s.mem c := mem_setPage_of_ne h

theorem word_setPage_of_ne (h : c ≠ a) : (s.setPage a x).word c j = s.word c j := by
  rw [word,mem_setPage_of_ne h,word]

theorem word_setWord_self (hj : j < 512) (hv : v < 2^64) : (s.setWord a j v).word a j = v := by
  rw [word,setWord,mem_setPage_self,Bytes.getLE_setLE_self _ _ _ _
    (show 8*j+8 ≤ 4096 by omega)]
  exact Nat.mod_eq_of_lt hv

theorem word_setWord_other (h : c ≠ a ∨ i ≠ j) : (s.setWord a j v).word c i = s.word c i := by
  by_cases hc : c = a
  · subst hc
    have hij : i ≠ j := h.resolve_left fun hne => hne rfl
    rw [word,setWord,mem_setPage_self,Bytes.getLE_setLE_disjoint _ _ _ _ _ _ (by omega),word]
  · exact word_setPage_of_ne hc

theorem word_lt : s.word a j < 2^64 := Bytes.getLE_lt ..

end Ram

theorem fill_zero : fill 0 = Bytes.zero PGSIZE := rfl

/-- The page table `T` is in memory, in the pages `P`. -/
structure Stored (P : Multiset ℕ) (s : Ram) (T : Tree) : Prop where
  holds : T.Holds s.word link
  pages : T.pages = P
  nodup : P.Nodup
  page : ∀ a ∈ P, IsPage a

section Lookup

variable {P : Multiset ℕ} {s t : Ram} {T : Tree} {va l a v w : ℕ}

theorem Stored.mem_pages (h : Stored P s T) (ha : a ∈ T.pages) : a ∈ P := h.pages ▸ ha

theorem Stored.isPage (h : Stored P s T) (ha : a ∈ T.pages) : IsPage a :=
  h.page a (h.mem_pages ha)

theorem Stored.congr (h : Stored P s T) (hm : ∀ a ∈ P, t.mem a = s.mem a) : Stored P t T where
  holds := h.holds.congr fun a ha j _ => by rw [Ram.word,hm a (h.mem_pages ha),Ram.word]
  pages := h.pages
  nodup := h.nodup
  page := h.page

/-- What `walk` reads at the page of level `l+1` on its way to `va`. -/
theorem Stored.word_inner (h : Stored P s T) (hl : l < 2)
    (ha : T.node (l+1) (vpn va/512^(l+2)) = some a) :
    s.word a (PX (l+1) va) = T.entry link l (vpn va/512^(l+1)) := by
  have hpre : 512*(vpn va/512^(l+2))+PX (l+1) va = vpn va/512^(l+1) := by
    rw [PX_eq,pow_succ 512 (l+1),← Nat.div_div_eq_div_mul,Nat.div_add_mod]
  rw [h.holds.inner l _ a hl ha _ (PX_lt _ _),hpre]

theorem Stored.walkFrom_lookup (h : Stored P s T) (hl : l ≤ 2) (ha : T.node l (vpn va/512^(l+1)) = some a) :
    (walkFrom va false l a).run s =
      .ok ((T.node 0 (vpn va/512)).map fun b => (b,vpn va % 512),s) := by
  induction l generalizing a with
  | zero =>
    rw [pow_one] at ha
    rw [ha]
    simp only [walkFrom,PX_eq,pow_zero,Nat.div_one]
    rfl
  | succ l ih =>
    have hw := h.word_inner hl ha
    have hrun : (load a (PX (l+1) va)).run s = .ok (s.word a (PX (l+1) va),s) := rfl
    rw [walkFrom,run_bind_of_run hrun,hw]
    cases hn : T.node l (vpn va/512^(l+1)) with
    | none =>
      have hzero : T.node 0 (vpn va/512) = none := by
        apply Radix.node_zero_none (l := l) (by omega)
        rwa [Nat.div_div_eq_div_mul,← pow_succ']
      rw [Radix.entry,hn,hzero]
      rfl
    | some b =>
      have hb := h.isPage (Radix.mem_pages_of_node (by omega) hn)
      rw [Radix.entry,hn,Option.elim_some,if_pos (link_valid b),PTE2PA_link hb]
      exact ih (by omega) hn

theorem top_node (hva : va < MAXVA) : T.node 2 (vpn va/512^3) = some T.root := by
  have hz : vpn va/512^3 = 0 := by
    rw [vpn,Nat.div_div_eq_div_mul]
    exact Nat.div_eq_of_lt (hva.trans (by norm_num))
  rw [hz,Radix.node_root]

theorem Stored.walk_lookup (h : Stored P s T) (hva : va < MAXVA) :
    (walk T.root va false).run s =
      .ok ((T.node 0 (vpn va/512)).map fun b => (b,vpn va % 512),s) := by
  rw [walk,if_neg (by omega)]
  exact h.walkFrom_lookup (Nat.le_refl 2) (top_node hva)

/-- The entry behind the pointer that `walk` returns. -/
theorem Stored.word_leaf (h : Stored P s T) (ha : T.node 0 (v/512) = some a) :
    s.word a (v%512) = T.leaf v := by
  rw [h.holds.outer _ a ha _ (Nat.mod_lt _ (by norm_num)),Nat.div_add_mod]

/-- A write to the entry of page number `v`. -/
theorem Stored.setLeaf (h : Stored P s T) (ha : T.node 0 (v/512) = some a) (hw : w < 2^64)
    (hne : T.node 0 (v/512) ≠ none) :
    Stored P (s.setWord a (v%512) w) (T.setLeaf v w hne) where
  holds := h.holds.setLeaf (h.pages ▸ h.nodup) ha
    (Ram.word_setWord_self (Nat.mod_lt _ (by norm_num)) hw)
    (fun _ _ _ _ hapart => Ram.word_setWord_other hapart) hne
  pages := h.pages
  nodup := h.nodup
  page := h.page

end Lookup

/-- The page table `T` is in memory, and `X` are its pages and the free ones. -/
structure Tab (X : Multiset ℕ) (s : Ram) (T : Tree) : Prop where
  holds : T.Holds s.word link
  total : (s.free : Multiset ℕ) + T.pages = X
  nodup : X.Nodup
  page : ∀ a ∈ X, IsPage a

/-- No allocation fails while there are pages, and there are at least `n`. -/
def Plenty (n : ℕ) (s : Ram) : Prop := s.luck = [] ∧ n ≤ s.free.length

/-- From `s` and `T` to `t` and `T'` only pages of `X` have changed, and no key its word. -/
structure Walked (X : Multiset ℕ) (s : Ram) (T : Tree) (t : Ram) (T' : Tree) : Prop where
  tab : Tab X t T'
  root : T'.root = T.root
  leaf : T'.leaf = T.leaf
  mem : ∀ a ∉ X, t.mem a = s.mem a
  consts : t.consts = s.consts
  free : t.free.length ≤ s.free.length

section Alloc

variable {X : Multiset ℕ} {s t : Ram} {T : Tree} {va l p a next : ℕ} {rest : List ℕ}

theorem Tab.mem_of_pages (h : Tab X s T) (ha : a ∈ T.pages) : a ∈ X :=
  h.total ▸ mem_add.mpr (Or.inr ha)

theorem Tab.isPage (h : Tab X s T) (ha : a ∈ T.pages) : IsPage a := h.page a (h.mem_of_pages ha)

theorem Tab.stored (h : Tab X s T) : Stored T.pages s T where
  holds := h.holds
  pages := rfl
  nodup := (nodup_add.mp (h.total ▸ h.nodup)).2.1
  page _ ha := h.isPage ha

theorem kalloc_cases (s : Ram) :
    (kalloc.run s = .ok (none,s.spend) ∧ ¬Plenty 1 s) ∨
    ∃ a rest, s.free = a::rest ∧ kalloc.run s = .ok (some a,s.spend.pop a rest) := by
  by_cases hl : s.luck.headD false = true
  · refine Or.inl ⟨?_,fun hp => ?_⟩
    · change (ite (s.luck.headD false = true) _ _ : Op (Option ℕ)).run s.spend = _
      rw [if_pos hl]
      rfl
    · rw [hp.1] at hl
      exact absurd hl Bool.false_ne_true
  · cases hf : s.free with
    | nil =>
      refine Or.inl ⟨?_,fun hp => ?_⟩
      · change (ite (s.luck.headD false = true) _ _ : Op (Option ℕ)).run s.spend = _
        rw [if_neg hl,hf]
        rfl
      · have hlen := hp.2
        rw [hf] at hlen
        exact absurd hlen (by simp)
    | cons a rest =>
      refine Or.inr ⟨a,rest,rfl,?_⟩
      change (ite (s.luck.headD false = true) _ _ : Op (Option ℕ)).run s.spend = _
      rw [if_neg hl,hf]
      rfl

/-- The state after `walk` has made the page `next` and linked it at entry `j` of `a`. -/
def Ram.linkPage (s : Ram) (a j next : ℕ) (rest : List ℕ) : Ram :=
  ((s.spend.pop next rest).setPage next (fill 0)).setWord a j (link next)

theorem Tab.fresh (h : Tab X s T) (hf : s.free = next::rest) :
    next ∉ T.pages ∧ (rest : Multiset ℕ)+next ::ₘ T.pages = X ∧ (next ::ₘ T.pages).Nodup := by
  have ht := h.total
  rw [hf,← cons_coe,cons_add,← add_cons] at ht
  have hn := (nodup_add.mp (ht ▸ h.nodup)).2.1
  exact ⟨(nodup_cons.mp hn).1,ht,hn⟩

theorem Tab.mem_free (h : Tab X s T) (hf : s.free = next::rest) : next ∈ X := by
  rw [← (h.fresh hf).2.1]
  exact mem_add.mpr (Or.inr (mem_cons_self ..))

theorem Ram.word_linkPage_other {c i j : ℕ} (hc : c ≠ next) (h : c ≠ a ∨ i ≠ j) :
    (s.linkPage a j next rest).word c i = s.word c i := by
  rw [linkPage,word_setWord_other h,word_setPage_of_ne hc]
  exact word_setPage_of_ne hc

theorem Tab.grow (h : Tab X s T) (hf : s.free = next::rest) (hl : l < 2) (hn : T.node l p = none)
    (hc : T.node (l+1) (p/512) = some a) :
    ∃ T' : Tree, Walked X s T (s.linkPage a (p%512) next rest) T' ∧ T'.node l p = some next := by
  obtain ⟨hnew,htot,hnd⟩ := h.fresh hf
  have ha : a ∈ T.pages := Radix.mem_pages_of_node (by omega) hc
  have hne : next ≠ a := fun he => hnew (he ▸ ha)
  have hp : T.node (l+1) (p/512) ≠ none := by
    rw [hc]
    exact Option.some_ne_none a
  refine ⟨T.grow l p next hl hp,⟨⟨?_,?_,h.nodup,h.page⟩,rfl,rfl,?_,rfl,?_⟩,Radix.node_grow_self⟩
  · refine h.holds.grow hn hnd hc ?_ ?_ ?_
    · intro j hj
      rw [Ram.linkPage,Ram.word_setWord_other (Or.inl hne),Ram.word,Ram.mem_setPage_self,fill_zero,
        Bytes.getLE_zero]
    · exact Ram.word_setWord_self (Nat.mod_lt _ (by norm_num)) (link_lt (h.page _ (h.mem_free hf)))
    · intro c hc j hj hapart
      exact Ram.word_linkPage_other (fun he => hnew (he ▸ hc)) hapart
  · rw [Radix.pages_grow hn]
    exact htot
  · intro c hc
    have hcn : c ≠ next := fun he => hc (he ▸ h.mem_free hf)
    have hca : c ≠ a := fun he => hc (he ▸ h.mem_of_pages ha)
    rw [Ram.linkPage,Ram.mem_setWord_of_ne hca,Ram.mem_setPage_of_ne hcn]
    exact Ram.mem_setPage_of_ne hcn
  · rw [hf]
    exact Nat.le_succ _

theorem Tab.spend (h : Tab X s T) : Tab X s.spend T := ⟨h.holds,h.total,h.nodup,h.page⟩

theorem Tab.walked_refl (h : Tab X s T) : Walked X s T s T :=
  ⟨h,rfl,rfl,fun _ _ => rfl,rfl,Nat.le_refl _⟩

theorem Tab.walked_spend (h : Tab X s T) : Walked X s T s.spend T :=
  ⟨h.spend,rfl,rfl,fun _ _ => rfl,rfl,Nat.le_refl _⟩

theorem Walked.trans {u : Ram} {T' T'' : Tree} (h : Walked X s T t T') (h' : Walked X t T' u T'') :
    Walked X s T u T'' :=
  ⟨h'.tab,h'.root.trans h.root,h'.leaf.trans h.leaf,fun a ha => (h'.mem a ha).trans (h.mem a ha),
    h'.consts.trans h.consts,h'.free.trans h.free⟩

/-- What a call of `walk` that may allocate leaves behind; with `n` pages to spare it succeeds. -/
def WalkPost (X : Multiset ℕ) (s : Ram) (T : Tree) (va n : ℕ) (r : Option (ℕ × ℕ)) (t : Ram) :
    Prop :=
  (∃ T' : Tree, Walked X s T t T' ∧
    ∀ x, r = some x → T'.node 0 (vpn va/512) = some x.1 ∧ x.2 = vpn va % 512) ∧
  ∀ k, Plenty (n+k) s → Plenty k t ∧ r ≠ none

theorem Tab.walkFrom_alloc (h : Tab X s T) (hl : l ≤ 2)
    (ha : T.node l (vpn va/512^(l+1)) = some a) :
    Ends (walkFrom va true l a) s (WalkPost X s T va l) := by
  induction l generalizing s T a with
  | zero =>
    rw [pow_one] at ha
    refine ends_pure ⟨⟨T,h.walked_refl,?_⟩,fun k hk => ⟨?_,Option.some_ne_none _⟩⟩
    · rintro x hx
      obtain rfl := Option.some.inj hx
      exact ⟨ha,by rw [PX_eq,pow_zero,Nat.div_one]⟩
    · rwa [Nat.zero_add] at hk
  | succ l ih =>
    have hw := h.stored.word_inner hl ha
    have hrun : (load a (PX (l+1) va)).run s = .ok (s.word a (PX (l+1) va),s) := rfl
    rw [walkFrom]
    refine ends_bind_of_run hrun ?_
    rw [hw]
    cases hn : T.node l (vpn va/512^(l+1)) with
    | some b =>
      have hb := h.isPage (Radix.mem_pages_of_node (by omega) hn)
      rw [Radix.entry,hn,Option.elim_some,if_pos (link_valid b),PTE2PA_link hb]
      refine (ih h (by omega) hn).mono fun r t hpost => ⟨hpost.1,fun k hk => hpost.2 k ?_⟩
      exact ⟨hk.1,by have := hk.2; omega⟩
    | none =>
      rw [Radix.entry,hn,Option.elim_none,if_neg (by decide)]
      rcases kalloc_cases s with ⟨hk,hp⟩ | ⟨next,rest,hf,hk⟩
      · refine ends_bind_of_run hk (ends_pure ⟨⟨T,h.walked_spend,fun x hx => by cases hx⟩,?_⟩)
        intro k hk
        exact absurd ⟨hk.1,by have := hk.2; omega⟩ hp
      · refine ends_bind_of_run hk ?_
        have hpre : vpn va/512^(l+2) = vpn va/512^(l+1)/512 := by
          rw [Nat.div_div_eq_div_mul,← pow_succ]
        have hidx : PX (l+1) va = vpn va/512^(l+1) % 512 := PX_eq _ _
        rw [hpre] at ha
        obtain ⟨T',hT',hnode⟩ := h.grow hf hl hn ha
        rw [hidx]
        refine ends_bind_of_run (a := ()) (t := (s.spend.pop next rest).setPage next (fill 0)) rfl
          (ends_bind_of_run (a := ()) (t := s.linkPage a (vpn va/512^(l+1) % 512) next rest) rfl ?_)
        refine (ih hT'.tab (by omega) hnode).mono fun r t hpost => ?_
        obtain ⟨⟨T'',hT'',hr⟩,hplenty⟩ := hpost
        refine ⟨⟨T'',hT'.trans hT'',hr⟩,fun k hk => hplenty k ⟨?_,?_⟩⟩
        · change s.luck.tail = []
          rw [hk.1]
          rfl
        · change l+k ≤ rest.length
          have hlen := hk.2
          rw [hf,List.length_cons] at hlen
          omega

theorem Tab.walk_alloc (h : Tab X s T) (hva : va < MAXVA) :
    Ends (walk T.root va true) s (WalkPost X s T va 2) := by
  rw [walk,if_neg (by omega)]
  exact h.walkFrom_alloc (Nat.le_refl 2) (top_node hva)

end Alloc
end Xv6.Vm
