import Xv6.Malloc.FreeList

/-! `free` puts a block back on the free list. -/
namespace Xv6.Malloc

open Function List

variable {base : ℕ} {h : Heap} {l x y : List Block} {others : List Span} {p m bp k z : ℕ}

theorem perm_insert {α : Type} (a b c : List α) (t : α) :
    (a++b++t::c).Perm (a++t::b++c) := by
  have h1 : (a++b++t::c).Perm (t::(a++b++c)) := perm_middle
  have h2 : (a++t::b++c).Perm (t::(a++b++c)) := by
    rw [append_assoc,append_assoc,cons_append]
    exact perm_middle
  exact h1.trans h2.symm

theorem spans_two (x : List Block) (b : Block) (y : List Block) :
    spans (x++b::y) = spans x++spans [b]++spans y := by
  rw [spans_append,append_assoc,← spans_append [b] y]
  rfl

theorem spans_three (hk : 0 < k) (x : List Block) (b : Block) (y : List Block) :
    spans (x++b::(bp,k)::y) = spans x++spans [b]++(bp,16*k)::spans y := by
  rw [spans_two,spans_cons hk]

namespace Heap

/-- The state between the two joins: the block at `bp` leads on to `y`, but nothing leads to it. -/
structure Pending (base : ℕ) (h : Heap) (x : List Block) (p m : ℕ) (y : List Block) (bp k : ℕ)
    (others : List Span) : Prop where
  pos : 0 < base
  head : (x ++ (p,m)::y).head? = some (base,0)
  before : h.Path x p
  here : h.size p = m
  after : h.Path ((bp,k)::y) base
  sorted : (x ++ (p,m)::y).Pairwise Before
  lt : p < bp
  gap : ∀ b ∈ y, Before (bp,k) b
  block_pos : 0 < k
  size_pos : ∀ b ∈ x ++ (p,m)::y, b.1 ≠ base → 0 < b.2
  tiles : Tiles h.Owned (spans (x ++ (p,m)::(bp,k)::y) ++ others)
  sizes : ∀ x ∈ others, x.2 = 16*h.size x.1
  brk : base + 16 ≤ h.brk
  owned : ∀ i, h.Owned i → base + 16 ≤ i ∧ i < h.brk ∧ i < 512*1024*1024
  total : extent h.arena = extent (spans (x ++ (p,m)::(bp,k)::y) ++ others)
  counts : ∀ c ∈ h.counts, c.1 = 16*c.2

/-- A block of owned memory is small. -/
theorem size_lt {owned : ℕ → Prop} {xs : List Span} {a n : ℕ} (ht : Tiles owned xs)
    (hs : (a,16*n) ∈ xs) (hown : ∀ i, owned i → i < 512*1024*1024) : n < 2^32 := by
  have hpos := ht.pos _ hs
  simp only at hpos
  have hlast := hown _ (ht.within _ hs (a+16*n-1) ⟨by simp only; omega,by simp only; omega⟩)
  omega

/-- No other block begins where one is. -/
theorem Holds.start_ne (hh : h.Holds base l ((bp,16*k)::others)) :
    (∀ b ∈ l, b.1 ≠ bp) ∧ (∀ s ∈ others, s.1 ≠ bp) ∧ base < bp := by
  have hmem : (bp,16*k) ∈ spans l++(bp,16*k)::others :=
    mem_append_right _ mem_cons_self
  have htiles := hh.tiles.perm perm_middle
  have hlow := (hh.owned _ (hh.tiles.owned_start hmem)).1
  have hne (s : Span) (hs : s ∈ spans l++others) : s.1 ≠ bp := by
    have hap := htiles.apart_head hs
    have hpos := htiles.tail.pos s hs
    have hpos' := hh.tiles.pos _ hmem
    simp only [Span.Apart] at hap hpos'
    omega
  simp only at hlow
  refine ⟨fun b hb => ?_,fun s hs => hne s (mem_append_right _ hs),by omega⟩
  by_cases hbase : b.1 = base
  · omega
  · exact hne (b.1,16*b.2) (mem_append_left _ (mem_spans.mpr
      ⟨b,hb,hh.size_pos b hb hbase,rfl⟩))

/-- Two blocks side by side become one. -/
theorem join_blocks {owned : ℕ → Prop} {xs ys r : List Span} {a i j : ℕ} (ht : Tiles owned xs)
    (hown : ∀ c, owned c → base+16 ≤ c ∧ c < z ∧ c < 512*1024*1024)
    (hp : xs.Perm ((a,16*i)::(a+16*i,16*j)::r)) (hp' : ((a,16*(i+j))::r).Perm ys) :
    Tiles owned ys ∧ extent xs = extent ys ∧ i+j < 2^32 := by
  have hmerge := (ht.perm hp).merge
  rw [← Nat.mul_add] at hmerge
  refine ⟨hmerge.perm hp',?_,size_lt hmerge mem_cons_self fun c hc => (hown c hc).2.2⟩
  rw [extent_perm hp,← extent_perm hp',extent_cons,extent_cons,extent_cons,Nat.mul_add,Nat.add_assoc]

theorem pending_of_holds (hh : h.Holds base (x++(p,m)::y) ((bp,16*k)::others))
    (hp : p < bp) (hy : ∀ b ∈ y, bp < b.1) :
    ∃ y' k', Pending base (h.joinNext bp p) x p m y' bp k' others ∧ k ≤ k' ∧
      y'.length ≤ y.length := by
  obtain ⟨hne,hne',hbase⟩ := hh.start_ne
  rw [forall_mem_append,forall_mem_cons] at hne
  obtain ⟨hnex,-,hney⟩ := hne
  have hs := same_joinNext h bp p
  have hkpos : 0 < k := by
    have hpos := hh.tiles.pos _ (mem_append_right _ mem_cons_self)
    simp only at hpos
    omega
  obtain ⟨hsize,hsizes⟩ := forall_mem_cons.mp hh.sizes
  replace hsize : h.size bp = k := by
    simp only at hsize
    omega
  have hpos := hh.size_pos
  rw [forall_mem_append,forall_mem_cons] at hpos
  obtain ⟨hpx,hpsize,hptr,hpy⟩ := path_append.mp hh.path
  simp only at hpsize hptr
  -- what does not depend on the case
  have hbefore : (h.joinNext bp p).Path x p := hs.path hpx hnex
  have hhere : (h.joinNext bp p).size p = m := (hs.size p hp.ne).trans hpsize
  have hsizes := hs.sizes hsizes hne'
  obtain ⟨hbrk,howned,hcounts⟩ := hs.books ⟨hh.brk,hh.owned,hh.counts⟩
  by_cases hjoin : bp+16*h.size bp = h.ptr p
  · -- the block after `bp` is joined to it
    cases y with
    | nil =>
      rw [hptr] at hjoin
      simp only [first] at hjoin
      omega
    | cons c y =>
      obtain ⟨q,n⟩ := c
      obtain rfl : q = bp+16*k := by
        rw [hptr,hsize] at hjoin
        exact hjoin.symm
      obtain ⟨hqsize,hqptr,hpy⟩ := hpy
      rw [forall_mem_cons] at hpos hney
      have hnpos : 0 < n := hpos.2.2.1 (by simp only; omega)
      have hperm : (spans (x++(p,m)::(bp+16*k,n)::y)++(bp,16*k)::others).Perm
          ((bp,16*k)::(bp+16*k,16*n)::(spans x++spans [(p,m)]++(spans y++others))) := by
        rw [spans_three hnpos]
        refine perm_middle.trans (Perm.cons _ ?_)
        rw [append_assoc,cons_append]
        exact perm_middle
      have hperm' : ((bp,16*(k+n))::(spans x++spans [(p,m)]++(spans y++others))).Perm
          (spans (x++(p,m)::(bp,k+n)::y)++others) := by
        rw [spans_three (Nat.add_pos_left hkpos n),append_assoc _ (_::_),cons_append]
        exact perm_middle.symm
      obtain ⟨htiles,hextent,hlt⟩ := join_blocks hh.tiles hh.owned hperm hperm'
      have heq : h.joinNext bp p = (h.setSize bp (k+n)).setPtr bp (first y base) := by
        rw [joinNext,if_pos hjoin,← hjoin,hsize,hqsize,Nat.mod_eq_of_lt hlt]
        exact congrArg _ hqptr
      have hsub : (x++(p,m)::y).Sublist (x++(p,m)::(bp+16*k,n)::y) :=
        Sublist.append_left (Sublist.cons_cons _ (sublist_cons_self _ _)) x
      refine ⟨y,k+n,⟨hh.pos,?_,hbefore,hhere,⟨?_,?_,hs.path hpy hney.2⟩,hh.sorted.sublist hsub,hp,
        fun b hb => ?_,Nat.add_pos_left hkpos n,fun b hb => hh.size_pos b (hsub.subset hb),?_,
        hsizes,hbrk,howned,?_,hcounts⟩,Nat.le_add_right _ _,Nat.le_succ _⟩
      · rw [← hh.head]
        cases x <;> rfl
      · rw [heq,setPtr_size,setSize_size,update_self]
      · rw [heq,setPtr_ptr,update_self]
      · have hgap : Before (bp+16*k,n) b :=
          (pairwise_append.mp hh.sorted).2.1.tail.rel_head_tail hb
        simp only [Before] at hgap ⊢
        omega
      · rw [hs.owned]
        exact htiles
      · rw [hs.arena,hh.total,hextent]
  · have heq : h.joinNext bp p = h.setPtr bp (first y base) := by
      rw [joinNext,if_neg hjoin,hptr]
    have hperm : (spans (x++(p,m)::y)++(bp,16*k)::others).Perm
        (spans (x++(p,m)::(bp,k)::y)++others) := by
      rw [spans_two,spans_three hkpos]
      exact perm_insert _ _ _ _
    refine ⟨y,k,⟨hh.pos,hh.head,hbefore,hhere,⟨?_,?_,hs.path hpy hney⟩,hh.sorted,hp,?_,hkpos,
      hh.size_pos,?_,hsizes,hbrk,howned,?_,hcounts⟩,Nat.le_refl _,Nat.le_refl _⟩
    · rw [heq,setPtr_size]
      exact hsize
    · rw [heq,setPtr_ptr,update_self]
    · -- only the first block of `y` can touch the block
      have hap : ∀ b ∈ y, bp+16*k ≤ b.1 := by
        intro b hb
        have hlt := hy b hb
        have hap := (hh.tiles.perm perm_middle).apart_head (mem_append_left _
          (mem_spans.mpr ⟨b,mem_append_right _ (mem_cons_of_mem _ hb),
            hpos.2.2 b hb (by omega),rfl⟩))
        simp only [Span.Apart] at hap
        omega
      cases y with
      | nil => exact forall_mem_nil _
      | cons c y =>
        have hc : bp+16*k < c.1 := by
          refine lt_of_le_of_ne (hap c mem_cons_self) fun he => hjoin ?_
          rw [hptr,hsize]
          exact he
        refine forall_mem_cons.mpr ⟨hc,fun b hb => hc.trans (Before.lt ?_)⟩
        exact (pairwise_append.mp hh.sorted).2.1.tail.rel_head_tail hb
    · rw [hs.owned]
      exact hh.tiles.perm hperm
    · rw [hs.arena,hh.total,extent_perm hperm]

/-- The second join makes the list whole again. -/
theorem Pending.holds (hh : Pending base h x p m y bp k others) :
    ∃ l', ((h.joinPrev bp p).setFreep p).Holds base l' others ∧ (∃ b ∈ l', k ≤ b.2) ∧
      l'.length ≤ x.length+y.length+2 := by
  have hs := same_joinPrev h bp p
  have hlt := hh.lt
  obtain ⟨hbpsize,hbpptr,hpy⟩ := hh.after
  simp only at hbpsize hbpptr
  have hsorted := hh.sorted
  simp only [pairwise_append,pairwise_cons,forall_mem_cons] at hsorted
  obtain ⟨hsortx,⟨hpy',hsorty⟩,hxy⟩ := hsorted
  have hpos := hh.size_pos
  rw [forall_mem_append,forall_mem_cons] at hpos
  have hbase : base ≤ p := by
    cases x with
    | nil => exact (congrArg Prod.fst (Option.some.inj hh.head)).ge
    | cons c x =>
      obtain rfl := Option.some.inj hh.head
      exact (hxy (base,0) mem_cons_self).1.lt.le
  have hpmem (hm : 0 < m) : (p,16*m) ∈ spans x++spans [(p,m)] :=
    mem_append_right _ (mem_spans.mpr ⟨_,mem_singleton.mpr rfl,hm,rfl⟩)
  have hap := hh.tiles.apart
  rw [spans_three hh.block_pos,append_assoc,pairwise_append] at hap
  -- blocks in use are not at `p`
  have hne' : ∀ s ∈ others, s.1 ≠ p := by
    intro s hso he
    have hown := (hh.owned _ (hh.tiles.owned_start (mem_append_right _ hso))).1
    have hap := hap.2.2 _ (hpmem (hpos.2.1 (by simp only; omega))) s (mem_append_right _ hso)
    have hspos := hh.tiles.pos s (mem_append_right _ hso)
    simp only [Span.Apart] at hap
    omega
  have hpx : (h.joinPrev bp p).Path x p := hs.path hh.before fun b hb => (hxy b hb).1.lt.ne
  have hpathy : (h.joinPrev bp p).Path y base := hs.path hpy fun b hb => (hpy' b hb).lt.ne'
  have hsizes := hs.sizes hh.sizes hne'
  obtain ⟨hbrk,howned,hcounts⟩ := hs.books ⟨hh.brk,hh.owned,hh.counts⟩
  by_cases hjoin : p+16*h.size p = bp
  · -- the block at `bp` is joined to the one before it
    rw [hh.here] at hjoin
    have hmpos : 0 < m := by omega
    have hperm : (spans (x++(p,m)::(bp,k)::y)++others).Perm
        ((p,16*m)::(p+16*m,16*k)::(spans x++(spans y++others))) := by
      have hone : spans [(p,m)] = [(p,16*m)] := spans_cons hmpos
      rw [spans_three hh.block_pos,hone,hjoin]
      simp only [append_assoc,cons_append,nil_append]
      exact perm_middle.trans (Perm.cons _ perm_middle)
    have hperm' : ((p,16*(m+k))::(spans x++(spans y++others))).Perm
        (spans (x++(p,m+k)::y)++others) := by
      rw [spans_append,spans_cons (Nat.add_pos_left hmpos k),append_assoc,cons_append]
      exact perm_middle.symm
    obtain ⟨htiles,hextent,hsmall⟩ := join_blocks hh.tiles hh.owned hperm hperm'
    have heq : h.joinPrev bp p = (h.setSize p (m+k)).setPtr p (first y base) := by
      rw [joinPrev,hh.here,if_pos hjoin,hbpsize,Nat.mod_eq_of_lt hsmall,hbpptr]
    refine ⟨x++(p,m+k)::y,⟨hh.pos,?_,?_,⟨_,mem_append_right _ mem_cons_self,rfl⟩,?_,?_,
      ?_,hsizes,hbrk,howned,?_,hcounts⟩,⟨_,mem_append_right _ mem_cons_self,?_⟩,?_⟩
    · cases x with
      | nil =>
        have hz : m = 0 := congrArg Prod.snd (Option.some.inj hh.head)
        omega
      | cons c x => exact hh.head
    · refine path_setFreep.mpr (path_append.mpr ⟨hpx,?_,?_,hpathy⟩)
      · rw [heq]
        exact update_self p (m+k) h.size
      · rw [heq]
        exact update_self p (first y base) h.ptr
    · simp only [pairwise_append,pairwise_cons,forall_mem_cons]
      refine ⟨hsortx,⟨fun b hb => ?_,hsorty⟩,hxy⟩
      have hb := hh.gap b hb
      simp only [Before] at hb ⊢
      omega
    · rw [forall_mem_append,forall_mem_cons]
      exact ⟨hpos.1,fun _ => Nat.add_pos_left hmpos k,hpos.2.2⟩
    · change Tiles (h.joinPrev bp p).Owned _
      rw [hs.owned]
      exact htiles
    · change extent (h.joinPrev bp p).arena = _
      rw [hs.arena,hh.total,hextent]
    · exact Nat.le_add_left _ _
    · simp only [length_append,length_cons]
      omega
  · rw [hh.here] at hjoin
    have heq : h.joinPrev bp p = h.setPtr p bp := by
      rw [joinPrev,hh.here,if_neg hjoin]
    have hgap : Before (p,m) (bp,k) := by
      rcases Nat.eq_zero_or_pos m with rfl | hm
      · exact hlt
      · have hap := hap.2.2 _ (hpmem hm) (bp,16*k) (mem_append_left _ mem_cons_self)
        simp only [Span.Apart,Before] at hap ⊢
        omega
    refine ⟨x++(p,m)::(bp,k)::y,⟨hh.pos,?_,?_,⟨_,mem_append_right _ mem_cons_self,rfl⟩,
      ?_,?_,?_,hsizes,hbrk,howned,?_,hcounts⟩,⟨(bp,k),mem_append_right _
      (mem_cons_of_mem _ mem_cons_self),Nat.le_refl _⟩,?_⟩
    · rw [← hh.head]
      cases x <;> rfl
    · refine path_setFreep.mpr (path_append.mpr ⟨hpx,?_,?_,?_,?_,hpathy⟩)
      · change (h.joinPrev bp p).size p = m
        rw [heq]
        exact hh.here
      · change (h.joinPrev bp p).ptr p = bp
        rw [heq]
        exact update_self p bp h.ptr
      · exact (hs.size bp hlt.ne').trans hbpsize
      · exact (hs.ptr bp hlt.ne').trans hbpptr
    · simp only [pairwise_append,pairwise_cons,forall_mem_cons]
      exact ⟨hsortx,⟨⟨hgap,hpy'⟩,hh.gap,hsorty⟩,fun b hb =>
        ⟨(hxy b hb).1,(hxy b hb).1.trans hlt,(hxy b hb).2⟩⟩
    · rw [forall_mem_append,forall_mem_cons,forall_mem_cons]
      exact ⟨hpos.1,hpos.2.1,fun _ => hh.block_pos,hpos.2.2⟩
    · change Tiles (h.joinPrev bp p).Owned _
      rw [hs.owned]
      exact hh.tiles
    · change extent (h.joinPrev bp p).arena = _
      rw [hs.arena]
      exact hh.total
    · simp only [length_append,length_cons]
      omega

/-- `free` returns, and the block is on the list, alone or as a part of another. -/
theorem free_holds {fuel : ℕ} (hh : h.Holds base l ((bp,16*k)::others)) (hfuel : l.length ≤ fuel) :
    ∃ h' l', h.free fuel (bp+16) = some h' ∧ h'.Holds base l' others ∧ (∃ b ∈ l', k ≤ b.2) ∧
      l'.length ≤ l.length+1 ∧ h'.arena = h.arena ∧ h'.brk = h.brk ∧ h'.counts = h.counts := by
  obtain ⟨hne,-,hbase⟩ := hh.start_ne
  obtain ⟨x,y,hl,hx,hy⟩ := exists_cut hh.sorted bp hne
  -- the static header is in front
  obtain ⟨x,⟨p,m⟩,rfl⟩ : ∃ x' c, x = x'++[c] := by
    rcases eq_nil_or_concat x with rfl | ⟨x',c,rfl⟩
    · rw [nil_append] at hl
      subst hl
      have hmem : (base,0) ∈ l := mem_of_mem_head? hh.head
      exact absurd (hy _ hmem) (by simp only; omega)
    · exact ⟨x',c,concat_eq_append⟩
  rw [append_assoc,singleton_append] at hl
  rw [forall_mem_append,forall_mem_singleton] at hx
  obtain ⟨b,hb,hfreep⟩ := hh.freep
  have hspot : h.spot bp fuel h.freep = some p := by
    rw [hfreep]
    exact spot_eq hh.path hh.sorted hl hh.head hb hx.1 hx.2 hy hfuel
  subst hl
  obtain ⟨y',k',hpending,hk,hylen⟩ := pending_of_holds hh hx.2 hy
  obtain ⟨l',hholds,⟨c,hc,hkc⟩,hlen⟩ := hpending.holds
  have hs := same_joinNext h bp p
  have hs' := same_joinPrev (h.joinNext bp p) bp p
  refine ⟨_,l',?_,hholds,⟨c,hc,hk.trans hkc⟩,?_,hs'.arena.trans hs.arena,hs'.brk.trans hs.brk,
    hs'.counts.trans hs.counts⟩
  · rw [free,if_neg (Nat.succ_ne_zero _),Nat.add_sub_cancel]
    exact congrArg (Option.map _) hspot
  · simp only [length_append,length_cons]
    omega

end Heap

end Xv6.Malloc
