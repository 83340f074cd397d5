import Xv6.Malloc.Free

/-! `malloc` takes a block from the free list. -/
namespace Xv6.Malloc

open Function List

namespace Heap

variable {base : ℕ} {h : Heap} {l x y u w : List Block} {others : List Span} {b c : Block}
  {p m n k z fuel : ℕ} {grows : List Grow}

/-- Pointers between blocks of the list are those between neighbours. -/
theorem Holds.neighbours (hh : h.Holds base l others) (hb : b ∈ l) (hc : c ∈ l)
    (hptr : h.ptr b.1 = c.1) (hne : c.1 ≠ base) : ∃ u w, l = u++b::c::w := by
  obtain ⟨u,w,rfl⟩ := append_of_mem hb
  obtain ⟨-,-,hnext,-⟩ := path_append.mp hh.path
  cases w with
  | nil => exact absurd (hptr.symm.trans hnext) hne
  | cons d w =>
    have hd : d ∈ u++b::d::w := mem_append_right _ (mem_cons_of_mem _ mem_cons_self)
    obtain rfl : d = c := eq_of_address hh.sorted hd hc (hnext.symm.trans hptr)
    exact ⟨u,w,rfl⟩

/-- The whole block is taken off the list. -/
theorem Holds.unlink (hh : h.Holds base (u++(p,m)::b::w) others) (hb : 0 < b.2) :
    ((h.setPtr p (h.ptr b.1)).setFreep p).Holds base (u++(p,m)::w) ((b.1,16*b.2)::others) := by
  obtain ⟨a,n⟩ := b
  simp only at hb ⊢
  have hs : Same p h (h.setPtr p (h.ptr a)) := same_setPtr
  obtain ⟨hpu,hpsize,-,hasize,haptr,hpw⟩ := path_append.mp hh.path
  simp only at hpsize hasize haptr
  obtain ⟨hsortu,hsortp,hup⟩ := pairwise_append.mp hh.sorted
  have hsub : (u++(p,m)::w).Sublist (u++(p,m)::(a,n)::w) :=
    Sublist.append_left (Sublist.cons_cons _ (sublist_cons_self _ _)) u
  have hperm : (spans (u++(p,m)::(a,n)::w)++others).Perm
      (spans (u++(p,m)::w)++(a,16*n)::others) := by
    rw [spans_two u (p,m) w,spans_three hb]
    exact (perm_insert _ _ _ _).symm
  refine ⟨hh.pos,?_,path_setFreep.mpr (path_append.mpr ⟨?_,?_,?_,?_⟩),
    ⟨_,mem_append_right _ mem_cons_self,rfl⟩,hh.sorted.sublist hsub,
    fun c hc => hh.size_pos c (hsub.subset hc),hh.tiles.perm hperm,?_,hh.brk,hh.owned,
    hh.total.trans (extent_perm hperm),hh.counts⟩
  · rw [← hh.head]
    cases u <;> rfl
  · exact hs.path hpu fun c hc => (hup c hc (p,m) mem_cons_self).lt.ne
  · exact hpsize
  · rw [← haptr]
    exact update_self p (h.ptr a) h.ptr
  · refine hs.path hpw fun c hc => ?_
    exact ((pairwise_cons.mp hsortp).1 c (mem_cons_of_mem _ hc)).lt.ne'
  · exact forall_mem_cons.mpr ⟨congrArg (16*·) hasize.symm,hh.sizes⟩

/-- The end of the block is cut off. -/
theorem Holds.cut (hh : h.Holds base (u++(p,m)::b::w) others) (hk : 0 < k) (hlt : k < b.2) :
    (((h.setSize b.1 (b.2-k)).setSize (b.1+16*(b.2-k)) k).setFreep p).Holds base
      (u++(p,m)::(b.1,b.2-k)::w) ((b.1+16*(b.2-k),16*k)::others) := by
  obtain ⟨a,n⟩ := b
  obtain ⟨j,rfl⟩ := Nat.exists_eq_add_of_lt hlt
  simp only at hlt ⊢
  rw [show k+j+1-k = j+1 by omega]
  obtain ⟨hpu,hpsize,hpptr,hasize,haptr,hpw⟩ := path_append.mp hh.path
  simp only at hpsize hpptr hasize haptr
  have hsorted := hh.sorted
  simp only [pairwise_append,pairwise_cons,forall_mem_cons] at hsorted
  obtain ⟨hsortu,⟨⟨hpa,hpw'⟩,haw,hsortw⟩,hu⟩ := hsorted
  have hrest : (spans (u++(p,m)::(a,k+j+1)::w)++others).Perm
      ((a,16*(k+j+1))::(spans u++spans [(p,m)]++(spans w++others))) := by
    rw [spans_three (Nat.succ_pos _),append_assoc _ (_::_),cons_append]
    exact perm_middle
  have hrest' : ((a,16*(j+1))::(a+16*(j+1),16*k)::(spans u++spans [(p,m)] ++
      (spans w++others))).Perm (spans (u++(p,m)::(a,j+1)::w)++(a+16*(j+1),16*k)::others) := by
    rw [spans_three (Nat.succ_pos j)]
    refine (Perm.swap _ _ _).trans ((Perm.cons _ ?_).trans perm_middle.symm)
    rw [append_assoc _ (_::_),cons_append]
    exact perm_middle.symm
  have hsum : 16*(k+j+1) = 16*(j+1)+16*k := by omega
  have htiles := hh.tiles.perm hrest
  have hothers : ∀ s ∈ others, s.1 ≠ a ∧ s.1 ≠ a+16*(j+1) := by
    intro s hs
    have hap := htiles.apart_head (mem_append_right _ (mem_append_right _ hs))
    have hspos := hh.tiles.pos s (mem_append_right _ hs)
    simp only [Span.Apart] at hap
    omega
  have hsize_eq : ∀ i, i ≠ a ∧ i ≠ a+16*(j+1) →
      ((h.setSize a (j+1)).setSize (a+16*(j+1)) k).size i = h.size i := by
    intro i hi
    rw [setSize_size,update_of_ne hi.2,setSize_size,update_of_ne hi.1]
  -- no block begins inside this one
  have hfront {c : Block} (hc : Before c (a,k+j+1)) : c.1 ≠ a ∧ c.1 ≠ a+16*(j+1) :=
    ⟨hc.lt.ne,(hc.lt.trans_le (Nat.le_add_right _ _)).ne⟩
  have hbehind : ∀ c ∈ w, Before (a,j+1) c ∧ c.1 ≠ a ∧ c.1 ≠ a+16*(j+1) := by
    intro c hc
    have hlt := haw c hc
    simp only [Before] at hlt ⊢
    omega
  refine ⟨hh.pos,?_,path_setFreep.mpr (path_append.mpr ⟨?_,?_,hpptr,?_,haptr,?_⟩),
    ⟨_,mem_append_right _ mem_cons_self,rfl⟩,?_,?_,?_,?_,hh.brk,hh.owned,?_,hh.counts⟩
  · rw [← hh.head]
    cases u <;> rfl
  · exact hpu.congr fun c hc => ⟨rfl,hsize_eq _ (hfront (hu c hc).2.1)⟩
  · exact (hsize_eq p (hfront hpa)).trans hpsize
  · simp only
    rw [setSize_size,update_of_ne (by omega),setSize_size,update_self]
  · exact hpw.congr fun c hc => ⟨rfl,hsize_eq _ (hbehind c hc).2⟩
  · simp only [pairwise_append,pairwise_cons,forall_mem_cons]
    exact ⟨hsortu,⟨⟨hpa,hpw'⟩,fun c hc => (hbehind c hc).1,hsortw⟩,hu⟩
  · have hpos := hh.size_pos
    rw [forall_mem_append,forall_mem_cons,forall_mem_cons] at hpos ⊢
    exact ⟨hpos.1,hpos.2.1,fun _ => Nat.succ_pos j,hpos.2.2.2⟩
  · rw [hsum] at htiles
    exact (htiles.split (by omega) (by omega)).perm hrest'
  · refine forall_mem_cons.mpr ⟨?_,fun s hs => ?_⟩
    · exact congrArg (16*·) (update_self (a+16*(j+1)) k (h.setSize a (j+1)).size).symm
    · rw [hh.sizes s hs]
      exact congrArg (16*·) (hsize_eq _ (hothers s hs)).symm
  · refine hh.total.trans ((extent_perm hrest).trans (Eq.trans ?_ (extent_perm hrest')))
    rw [extent_cons,extent_cons,extent_cons,hsum,Nat.add_assoc]

/-- What `malloc` does with the block it has found. -/
theorem Holds.take (hh : h.Holds base l others) (hb : b ∈ l) (hc : c ∈ l) (hptr : h.ptr b.1 = c.1)
    (hk : 0 < k) (hle : k ≤ c.2) : ∃ q l' h', h.take k b.1 c.1 = (q+16,h') ∧
      h'.Holds base l' ((q,16*k)::others) ∧ h'.arena = h.arena ∧ h'.brk = h.brk ∧
      h'.counts = h.counts := by
  have hsize : h.size c.1 = c.2 := hh.path.size_eq hc
  have hne : c.1 ≠ base := by
    intro he
    have hbase : (base,0) ∈ l := mem_of_mem_head? hh.head
    obtain rfl := eq_of_address hh.sorted hc hbase he
    simp only at hle
    omega
  obtain ⟨u,w,rfl⟩ := hh.neighbours hb hc hptr hne
  obtain ⟨p,m⟩ := b
  unfold Heap.take
  by_cases heq : c.2 = k
  · rw [if_pos (hsize.trans heq)]
    refine ⟨c.1,u++(p,m)::w,_,rfl,?_,rfl,rfl,rfl⟩
    rw [← heq]
    exact hh.unlink (heq ▸ hk)
  · rw [if_neg (hsize.symm ▸ heq),hsize]
    simp only [setSize_size,update_self]
    exact ⟨_,_,_,rfl,hh.cut hk (lt_of_le_of_ne hle (Ne.symm heq)),rfl,rfl,rfl⟩

end Heap

end Xv6.Malloc
