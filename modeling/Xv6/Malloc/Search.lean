import Xv6.Malloc.Take

/-! The search of `malloc` through the free list and its request for more memory. -/
namespace Xv6.Malloc

open List

namespace Heap

variable {base : ℕ} {h : Heap} {l : List Block} {others : List Span} {a k nu fuel : ℕ} {g : Grow}
  {grows : List Grow}

/-- The search along a path to `freep`: it finds a block or comes to `freep`. -/
theorem search_walk (k fuel : ℕ) (grows : List Grow) (hp : h.Path l h.freep) (hne : ∀ b ∈ l, b.1 ≠ h.freep)
    (hptr : h.ptr a = first l h.freep) :
    (∃ d, ∃ b ∈ l, (d = a ∨ ∃ c ∈ l, d = c.1) ∧ h.ptr d = b.1 ∧ k ≤ b.2 ∧
      search k (fuel+l.length) a (first l h.freep) grows h = some (h.take k d b.1)) ∨
    ∃ d, (d = a ∨ ∃ c ∈ l, d = c.1) ∧ h.ptr d = h.freep ∧ (∀ b ∈ l, b.2 < k) ∧
      search k (fuel+l.length) a (first l h.freep) grows h = search k fuel d h.freep grows h := by
  induction l generalizing a with
  | nil => exact .inr ⟨a,.inl rfl,hptr,nofun,rfl⟩
  | cons b l ih =>
    obtain ⟨hsize,hnext,hp⟩ := hp
    rw [forall_mem_cons] at hne
    have hunfold : search k (fuel+(b::l).length) a (first (b::l) h.freep) grows h =
        if k ≤ b.2 then some (h.take k a b.1)
        else search k (fuel+l.length) b.1 (first l h.freep) grows h := by
      rw [length_cons,← Nat.add_assoc,search]
      simp only [first,hsize,if_neg hne.1]
      rw [hnext]
      rfl
    rw [hunfold]
    by_cases hle : k ≤ b.2
    · rw [if_pos hle]
      exact .inl ⟨a,b,mem_cons_self,.inl rfl,hptr,hle,rfl⟩
    · rw [if_neg hle]
      have hfrom {d : ℕ} (hd : d = b.1 ∨ ∃ c ∈ l, d = c.1) : d = a ∨ ∃ c ∈ b::l, d = c.1 := by
        rcases hd with hd | ⟨c,hc,hd⟩
        · exact .inr ⟨b,mem_cons_self,hd⟩
        · exact .inr ⟨c,mem_cons_of_mem _ hc,hd⟩
      rcases ih hp hne.2 hnext with ⟨d,c,hc,hd,hdc,hkc,he⟩ | ⟨d,hd,hdf,hall,he⟩
      · exact .inl ⟨d,c,mem_cons_of_mem _ hc,hfrom hd,hdc,hkc,he⟩
      · exact .inr ⟨d,hfrom hd,hdf,forall_mem_cons.mpr ⟨Nat.lt_of_not_le hle,hall⟩,he⟩

/-- The list, beginning after `freep` and going around to it. -/
theorem Holds.rotate (hh : h.Holds base l others) : ∃ c ∈ l, ∃ q, h.freep = c.1 ∧
    h.Path q h.freep ∧ (∀ b ∈ q, b ∈ l ∧ b.1 ≠ h.freep) ∧ h.ptr h.freep = first q h.freep ∧
    (∀ b ∈ l, b = c ∨ b ∈ q) ∧ q.length+1 = l.length := by
  obtain ⟨c,hc,hfreep⟩ := hh.freep
  obtain ⟨x,y,rfl⟩ := append_of_mem hc
  obtain ⟨hpx,-,hptr,hpy⟩ := path_append.mp hh.path
  have hbase : first x c.1 = base := by
    have hhead := hh.head
    cases x with
    | nil => exact congrArg Prod.fst (Option.some.inj hhead)
    | cons d x => exact congrArg Prod.fst (Option.some.inj hhead)
  have hfirst : first (y++x) c.1 = first y base := by
    rw [← hbase]
    cases y <;> rfl
  refine ⟨c,hc,y++x,hfreep,?_,?_,?_,?_,?_⟩
  · rw [hfreep,path_append,hbase]
    exact ⟨hpy,hpx⟩
  · obtain ⟨-,hsorty,hxy⟩ := pairwise_append.mp hh.sorted
    intro b hb
    rw [hfreep]
    rcases mem_append.mp hb with hb | hb
    · exact ⟨mem_append_right _ (mem_cons_of_mem _ hb),
        ((pairwise_cons.mp hsorty).1 b hb).lt.ne'⟩
    · exact ⟨mem_append_left _ hb,(hxy b hb c mem_cons_self).lt.ne⟩
  · rw [hfreep,hfirst]
    exact hptr
  · intro b hb
    simp only [mem_append,mem_cons] at hb ⊢
    tauto
  · simp only [length_append,length_cons]
    omega

/-- If there is a block large enough, one is taken. -/
theorem Holds.search_found (hh : h.Holds base l others) (hk : 0 < k) (hsome : ∃ b ∈ l, k ≤ b.2) :
    ∃ q l' h', search k (fuel+l.length) h.freep (h.ptr h.freep) grows h = some (q+16,h') ∧
      h'.Holds base l' ((q,16*k)::others) ∧ h'.arena = h.arena ∧ h'.brk = h.brk ∧
      h'.counts = h.counts := by
  obtain ⟨c,hc,q,hfreep,hpath,hq,hptr,hcover,hlen⟩ := hh.rotate
  have hfuel : fuel+l.length = (fuel+1)+q.length := by omega
  have hblock {d : ℕ} (hd : d = h.freep ∨ ∃ c ∈ q, d = c.1) : ∃ b ∈ l, d = b.1 := by
    rcases hd with rfl | ⟨b,hb,rfl⟩
    · exact ⟨c,hc,hfreep⟩
    · exact ⟨b,(hq b hb).1,rfl⟩
  rw [hfuel,hptr]
  rcases search_walk k (fuel+1) grows hpath (fun b hb => (hq b hb).2) hptr with
    ⟨d,b,hb,hd,hdb,hkb,he⟩ | ⟨d,hd,hdf,hall,he⟩
  · obtain ⟨e,hel,rfl⟩ := hblock hd
    obtain ⟨q',l',h',htake,hrest⟩ := hh.take hel (hq b hb).1 hdb hk hkb
    exact ⟨q',l',h',he.trans (congrArg some htake),hrest⟩
  · -- only the block at `freep` is left
    have hkc : k ≤ c.2 := by
      obtain ⟨b,hb,hkb⟩ := hsome
      rcases hcover b hb with rfl | hbq
      · exact hkb
      · exact absurd (hall b hbq) (by omega)
    have hsize : h.size h.freep = c.2 := by
      rw [hfreep]
      exact hh.path.size_eq hc
    obtain ⟨e,hel,rfl⟩ := hblock hd
    obtain ⟨q',l',h',htake,hrest⟩ := hh.take hel hc (hdf.trans hfreep) hk hkc
    refine ⟨q',l',h',he.trans ?_,hrest⟩
    rw [search,if_pos (hkc.trans_eq hsize.symm),hfreep]
    exact congrArg some htake

/-- If not, `morecore` is called. -/
theorem Holds.search_none (hh : h.Holds base l others) (hnone : ∀ b ∈ l, b.2 < k) :
    search k (fuel+l.length) h.freep (h.ptr h.freep) grows h =
      (h.morecore fuel k grows).bind fun (p,grows,h) =>
        if p = 0 then some (0,h) else search k fuel p (h.ptr p) grows h := by
  obtain ⟨c,hc,q,hfreep,hpath,hq,hptr,hcover,hlen⟩ := hh.rotate
  have hfuel : fuel+l.length = (fuel+1)+q.length := by omega
  have hsize : h.size h.freep = c.2 := by
    rw [hfreep]
    exact hh.path.size_eq hc
  rw [hfuel,hptr]
  rcases search_walk k (fuel+1) grows hpath (fun b hb => (hq b hb).2) hptr with
    ⟨d,b,hb,-,-,hkb,-⟩ | ⟨d,-,-,-,he⟩
  · exact absurd (hnone b (hq b hb).1) (by omega)
  · rw [he,search,if_neg (by rw [hsize]; exact Nat.not_le.mpr (hnone c hc)),if_pos rfl]

theorem bytes_eq (h : 16*nu < 2^31) : bytes nu = (16*nu : ℕ) := by
  have hmod : (16 * (nu : ℤ)) % ((2^32 : ℕ) : ℤ) = (16*nu : ℕ) := by omega
  have hbmod : Int.bmod (16*nu) (2^32) = (16*nu : ℕ) := by
    rw [Int.bmod_def,hmod,if_pos]
    omega
  exact hbmod

/-- The process has grown. -/
theorem Holds.grow (hh : h.Holds base l others) (j : ℕ) :
    {h with brk := h.brk+j}.Holds base l others := by
  refine ⟨hh.pos,hh.head,hh.path.congr fun _ _ => ⟨rfl,rfl⟩,hh.freep,hh.sorted,hh.size_pos,hh.tiles,
    hh.sizes,hh.brk.trans (Nat.le_add_right _ _),fun i hi => ?_,hh.total,hh.counts⟩
  obtain ⟨h1,h2,h3⟩ := hh.owned i hi
  exact ⟨h1,h2.trans_le (Nat.le_add_right _ _),h3⟩

/-- What `sbrk` does with a positive count. -/
theorem sbrk_cases (h : Heap) (g : Grow) {n : ℕ} (hn : 0 < n) :
    h.sbrk g n = (none,{h with brk := h.brk+g.others}) ∨
    h.brk+g.others+n ≤ 512*1024*1024 ∧ h.sbrk g n = (some (h.brk+g.others),
      {h with brk := h.brk+g.others+n, arena := (h.brk+g.others,n)::h.arena}) := by
  unfold sbrk
  dsimp only
  split_ifs with h1 h2 h3 h4 h5
  · exact .inl rfl
  · exact .inl rfl
  · exact .inl rfl
  · have hsum : ((h.brk+g.others : ℕ)+(n : ℤ)) % 2^64 = (h.brk+g.others+n : ℕ) := by omega
    rw [hsum] at h2 ⊢
    exact .inr ⟨by omega,rfl⟩
  · exact .inl rfl
  · exact absurd (Int.natCast_pos.mpr hn) h4

/-- New memory is a block that is not on the list. -/
theorem Holds.record (hh : h.Holds base l others) {j n : ℕ} (hnu : 0 < nu) (hn : n = 16*nu)
    (hbytes : bytes nu = (16*nu : ℕ)) (hlim : h.brk+j+n ≤ 512*1024*1024) :
    (Heap.record {h with brk := h.brk+j+n, arena := (h.brk+j,n)::h.arena} (h.brk+j)
      nu).Holds base l ((h.brk+j,16*nu)::others) := by
  subst hn
  have hbrk := hh.brk
  have howned : ∀ i, (∃ x ∈ (h.brk+j,16*nu)::h.arena, Span.Has x i) ↔
      h.Owned i ∨ Span.Has (h.brk+j,16*nu) i := by
    intro i
    simp only [exists_mem_cons_iff]
    exact or_comm
  have hnot : ∀ i, Span.Has (h.brk+j,16*nu) i → ¬h.Owned i := by
    intro i hi ho
    have hlt := (hh.owned i ho).2.1
    have hge : h.brk+j ≤ i := hi.1
    omega
  have hne : ∀ b ∈ l, b.1 ≠ h.brk+j := by
    intro b hb he
    by_cases hbase : b.1 = base
    · omega
    · have hmem : (b.1,16*b.2) ∈ spans l++others :=
        mem_append_left _ (mem_spans.mpr ⟨b,hb,hh.size_pos b hb hbase,rfl⟩)
      have hlt := (hh.owned _ (hh.tiles.owned_start hmem)).2.1
      simp only at hlt
      omega
  have hne' : ∀ s ∈ others, s.1 ≠ h.brk+j := by
    intro s hs he
    have hlt := (hh.owned _ (hh.tiles.owned_start (mem_append_right _ hs))).2.1
    omega
  refine ⟨hh.pos,hh.head,?_,hh.freep,hh.sorted,hh.size_pos,?_,?_,?_,?_,?_,?_⟩
  · exact hh.path.congr fun b hb => ⟨rfl,Function.update_of_ne (hne b hb) _ _⟩
  · refine (hh.tiles.fresh (x := (h.brk+j,16*nu)) ?_ hnot fun i hi => (howned i).mpr hi).perm
      perm_middle.symm
    simp only
    omega
  · refine forall_mem_cons.mpr ⟨?_,fun s hs => ?_⟩
    · exact congrArg (16*·) (Function.update_self (h.brk+j) nu h.size).symm
    · rw [hh.sizes s hs]
      refine congrArg (16*·) (Eq.symm ?_)
      exact Function.update_of_ne (hne' s hs) nu h.size
  · change base+16 ≤ h.brk+j+16*nu
    omega
  · intro i hi
    rcases (howned i).mp hi with ho | ⟨hge,hlt⟩
    · obtain ⟨h1,h2,h3⟩ := hh.owned i ho
      refine ⟨h1,?_,h3⟩
      change i < h.brk+j+16*nu
      omega
    · refine ⟨?_,hlt,?_⟩
      · simp only at hge
        omega
      · simp only at hlt
        omega
  · change extent ((h.brk+j,16*nu)::h.arena) = _
    rw [extent_cons,hh.total,extent_perm perm_middle,extent_cons]
  · refine forall_mem_cons.mpr ⟨?_,hh.counts⟩
    simp only [hbytes]
    omega

/-- The byte count of a request for `nunits` fits into an `int`, or the kernel refuses it. -/
def Fits (h : Heap) (nunits : ℕ) (grows : List Grow) : Prop :=
  16*nunits < 2^31 ∨ ∀ g ∈ grows.head?, (h.sbrk g (bytes nunits)).1 = none

instance (h : Heap) (nunits : ℕ) (grows : List Grow) : Decidable (h.Fits nunits grows) :=
  inferInstanceAs (Decidable (_ ∨ _))

theorem sbrk_refused {n : ℤ} (hr : (h.sbrk g n).1 = none) :
    h.sbrk g n = (none,{h with brk := h.brk+g.others}) := by
  unfold sbrk at hr ⊢
  dsimp only at hr ⊢
  split_ifs at hr ⊢ <;> rfl

/-- The list after `morecore`, if it gets memory. -/
theorem Holds.morecore (hh : h.Holds base l others) (hfits : h.Fits k grows) (hk : 0 < k)
    (hfuel : l.length ≤ fuel) : ∃ r grows' h', h.morecore fuel k grows = some (r,grows',h') ∧
      (r = 0 ∧ h'.Holds base l others ∨ r = h'.freep ∧ ∃ l', h'.Holds base l' others ∧
        (∃ b ∈ l', k ≤ b.2) ∧ l'.length ≤ l.length+1) := by
  cases grows with
  | nil => exact ⟨0,[],h,rfl,.inl ⟨rfl,hh⟩⟩
  | cons g grows =>
    obtain ⟨nu,hle,hmin,hmore⟩ : ∃ nu, k ≤ nu ∧ (nu = 4096 ∨ nu = k) ∧
        h.morecore fuel k (g::grows) = addCore fuel nu grows (h.sbrk g (bytes nu)) := by
      refine ⟨if k < 4096 then 4096 else k,?_,?_,rfl⟩ <;> split <;> omega
    rw [hmore]
    have hnone : addCore fuel nu grows (none,{h with brk := h.brk+g.others}) =
        some (0,grows,{h with brk := h.brk+g.others}) := rfl
    by_cases hsmall : 16*nu < 2^31
    · have hbytes := bytes_eq hsmall
      rw [hbytes]
      rcases sbrk_cases h g (show 0 < 16*nu by omega) with he | ⟨hlim,he⟩
      · rw [he]
        exact ⟨0,grows,_,hnone,.inl ⟨rfl,hh.grow g.others⟩⟩
      · have hrec := hh.record (by omega) rfl hbytes hlim
        obtain ⟨h',l',hfree,hholds,⟨b,hb,hbk⟩,hlen,-⟩ := free_holds hrec hfuel
        rw [he,addCore,hfree]
        exact ⟨h'.freep,grows,h',rfl,.inr ⟨rfl,l',hholds,⟨b,hb,hle.trans hbk⟩,hlen⟩⟩
    · obtain rfl : nu = k := by omega
      rw [sbrk_refused (hfits.resolve_left hsmall g rfl)]
      exact ⟨0,grows,_,hnone,.inl ⟨rfl,hh.grow g.others⟩⟩

theorem Holds.freep_pos (hh : h.Holds base l others) : h.freep ≠ 0 := by
  obtain ⟨c,hc,hfreep⟩ := hh.freep
  have hle := hh.base_le hc
  have hpos := hh.pos
  omega

/-- The search returns: 0, or a block of `k` units. -/
theorem Holds.search (hh : h.Holds base l others) (hk : 0 < k) (hfits : h.Fits k grows)
    (hfuel : 2*l.length+1 ≤ fuel) :
    ∃ r h', Heap.search k fuel h.freep (h.ptr h.freep) grows h = some (r,h') ∧
      (r = 0 ∧ (∃ l', h'.Holds base l' others) ∨
        ∃ q l', r = q+16 ∧ h'.Holds base l' ((q,16*k)::others)) := by
  obtain ⟨f,rfl⟩ : ∃ f, fuel = f+l.length := ⟨fuel - l.length,by omega⟩
  by_cases hsome : ∃ b ∈ l, k ≤ b.2
  · obtain ⟨q,l',h',he,hholds,-⟩ := hh.search_found hk hsome
    exact ⟨q+16,h',he,.inr ⟨q,l',rfl,hholds⟩⟩
  · simp only [not_exists,not_and,not_le] at hsome
    rw [hh.search_none hsome]
    obtain ⟨r,grows',h',he,hr⟩ := hh.morecore hfits hk (show l.length ≤ f by omega)
    rw [he]
    simp only [Option.bind_some]
    rcases hr with ⟨rfl,hholds⟩ | ⟨rfl,l',hholds,hsome',hlen⟩
    · exact ⟨0,h',if_pos rfl,.inl ⟨rfl,l,hholds⟩⟩
    · rw [if_neg hholds.freep_pos]
      obtain ⟨f',rfl⟩ : ∃ f', f = f'+l'.length := ⟨f - l'.length,by omega⟩
      obtain ⟨q,l'',h'',he',hholds',-⟩ := hholds.search_found hk hsome'
      exact ⟨q+16,h'',he',.inr ⟨q,l'',rfl,hholds'⟩⟩

end Heap

end Xv6.Malloc
