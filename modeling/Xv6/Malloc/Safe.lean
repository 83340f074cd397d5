import Xv6.Lib.Machine
import Xv6.Malloc.Search

/-! Programs that call `malloc` and `free`: the free list keeps its shape, and `malloc` hands out
only memory that the program owns. -/
namespace Xv6.Malloc

open List

namespace Heap

variable {base : ℕ} {h h' : Heap} {l : List Block} {others : List Span}
  {bp p a k r ap fuel nbytes : ℕ} {grows : List Grow}

section fuel

/-! More fuel does not change a result. -/

theorem spot_mono (hs : h.spot bp fuel p = some r) : h.spot bp (fuel+1) p = some r := by
  induction fuel generalizing p with
  | zero => cases hs
  | succ fuel ih =>
    by_cases hstop : h.Stops bp p
    · rw [spot_of_stops hstop] at hs ⊢
      exact hs
    · rw [spot_of_not_stops hstop] at hs ⊢
      exact ih hs

theorem free_mono (hf : h.free fuel ap = some h') : h.free (fuel+1) ap = some h' := by
  unfold free at hf ⊢
  by_cases h0 : ap = 0
  · rw [if_pos h0] at hf ⊢
    exact hf
  · rw [if_neg h0] at hf ⊢
    obtain ⟨q,hq,rfl⟩ := Option.map_eq_some_iff.mp hf
    exact Option.map_eq_some_iff.mpr ⟨q,spot_mono hq,rfl⟩

theorem addCore_mono {x : Option ℕ × Heap} {y : ℕ × List Grow × Heap}
    (hm : addCore fuel k grows x = some y) : addCore (fuel+1) k grows x = some y := by
  obtain ⟨_ | hp,h⟩ := x
  · exact hm
  · obtain ⟨h',hf,rfl⟩ := Option.map_eq_some_iff.mp hm
    exact Option.map_eq_some_iff.mpr ⟨h',free_mono hf,rfl⟩

theorem morecore_cons (h : Heap) (fuel k : ℕ) (g : Grow) (grows : List Grow) :
    h.morecore fuel k (g::grows) = addCore fuel (if k < 4096 then 4096 else k) grows
      (h.sbrk g (bytes (if k < 4096 then 4096 else k))) := rfl

theorem morecore_mono {y : ℕ × List Grow × Heap} (hm : h.morecore fuel k grows = some y) :
    h.morecore (fuel+1) k grows = some y := by
  cases grows with
  | nil => exact hm
  | cons g grows =>
    rw [morecore_cons] at hm ⊢
    exact addCore_mono hm

theorem search_mono {y : ℕ × Heap} (hs : search k fuel a p grows h = some y) :
    search k (fuel+1) a p grows h = some y := by
  induction fuel generalizing a p grows h with
  | zero => cases hs
  | succ fuel ih =>
    rw [search] at hs ⊢
    by_cases hfound : k ≤ h.size p
    · rw [if_pos hfound] at hs ⊢
      exact hs
    · rw [if_neg hfound] at hs ⊢
      by_cases hwrap : p = h.freep
      · rw [if_pos hwrap] at hs ⊢
        obtain ⟨⟨q,grows',h'⟩,hm,hrest⟩ := Option.bind_eq_some_iff.mp hs
        refine Option.bind_eq_some_iff.mpr ⟨_,morecore_mono hm,?_⟩
        dsimp only at hrest ⊢
        by_cases h0 : q = 0
        · rw [if_pos h0] at hrest ⊢
          exact hrest
        · rw [if_neg h0] at hrest ⊢
          exact ih hrest
      · rw [if_neg hwrap] at hs ⊢
        exact ih hs

theorem malloc_mono {y : ℕ × Heap} (hm : h.malloc base fuel nbytes grows = some y) (j : ℕ) :
    h.malloc base (fuel+j) nbytes grows = some y := by
  induction j with
  | zero => exact hm
  | succ j ih =>
    rw [← Nat.add_assoc]
    unfold malloc at ih ⊢
    by_cases hn : nbytes = 0
    · rw [if_pos hn] at ih ⊢
      exact ih
    · rw [if_neg hn] at ih ⊢
      exact search_mono ih

theorem free_mono_add (hf : h.free fuel ap = some h') (j : ℕ) : h.free (fuel+j) ap = some h' := by
  induction j with
  | zero => exact hf
  | succ j ih => exact free_mono ih

end fuel

/-- The static header is set up by the first call. -/
def ready (base : ℕ) (h : Heap) : Heap :=
  if h.freep = 0 then ((h.setPtr base base).setSize base 0).setFreep base else h

theorem malloc_eq (hn : nbytes ≠ 0) : h.malloc base fuel nbytes grows =
    search (units nbytes) fuel (h.ready base).freep ((h.ready base).ptr (h.ready base).freep) grows
      (h.ready base) := by
  rw [malloc,if_neg hn]
  rfl

theorem units_pos (nbytes : ℕ) : 0 < units nbytes := Nat.succ_pos _

theorem le_units (nbytes : ℕ) : nbytes+16 ≤ 16*units nbytes := by
  unfold units
  omega

/-- The heap before the first call. -/
structure Fresh (base : ℕ) (h : Heap) : Prop where
  pos : 0 < base
  freep : h.freep = 0
  arena : h.arena = []
  counts : h.counts = []
  brk : base + 16 ≤ h.brk

theorem Fresh.ready (hf : h.Fresh base) : (h.ready base).Holds base [(base,0)] [] := by
  have heq : h.ready base = ((h.setPtr base base).setSize base 0).setFreep base := if_pos hf.freep
  have howned : ∀ i, ¬h.Owned i := by
    rintro i ⟨x,hx,-⟩
    rw [hf.arena] at hx
    cases hx
  rw [heq]
  refine ⟨hf.pos,rfl,⟨?_,?_,trivial⟩,⟨_,mem_singleton.mpr rfl,rfl⟩,pairwise_singleton _ _,
    ?_,⟨nofun,List.Pairwise.nil,nofun⟩,nofun,hf.brk,fun i hi => absurd hi (howned i),?_,?_⟩
  · exact Function.update_self base 0 h.size
  · exact Function.update_self base base h.ptr
  · exact fun b hb hne => absurd (congrArg Prod.fst (mem_singleton.mp hb)) hne
  · change extent h.arena = _
    rw [hf.arena]
    rfl
  · change ∀ c ∈ h.counts, _
    rw [hf.counts]
    nofun

theorem Holds.ready (hh : h.Holds base l others) : h.ready base = h := if_neg hh.freep_pos

/-- Whether `sbrk` succeeds depends on the end of memory only. -/
theorem sbrk_congr (hbrk : h'.brk = h.brk) (g : Grow) (n : ℤ) :
    (h'.sbrk g n).1 = (h.sbrk g n).1 := by
  unfold sbrk
  rw [hbrk]
  dsimp only
  split_ifs <;> rfl

theorem ready_fits (h : Heap) (base k : ℕ) (grows : List Grow) :
    (h.ready base).Fits k grows ↔ h.Fits k grows := by
  have hbrk : (h.ready base).brk = h.brk := by
    unfold Heap.ready
    split <;> rfl
  simp only [Fits,sbrk_congr hbrk]

/-- A header that belongs to no block may change. -/
theorem Holds.same (hh : h.Holds base l others) (hs : Same a h h') (hfreep : h'.freep = h.freep)
    (hl : ∀ b ∈ l, b.1 ≠ a) (hothers : ∀ x ∈ others, x.1 ≠ a) : h'.Holds base l others where
  pos := hh.pos
  head := hh.head
  path := hs.path hh.path hl
  freep := hfreep ▸ hh.freep
  sorted := hh.sorted
  size_pos := hh.size_pos
  tiles := hs.owned ▸ hh.tiles
  sizes x hx := (hh.sizes x hx).trans (congrArg (16*·) (hs.size x.1 (hothers x hx)).symm)
  brk := hh.brk.trans_eq hs.brk.symm
  owned := by
    rw [hs.owned,hs.brk]
    exact hh.owned
  total := hs.arena ▸ hh.total
  counts := hs.counts ▸ hh.counts

section counts

/-! No count is forgotten. -/

theorem free_counts (hf : h.free fuel ap = some h') : h'.counts = h.counts := by
  unfold free at hf
  split at hf
  · exact congrArg counts (Option.some.inj hf).symm
  · obtain ⟨q,-,rfl⟩ := Option.map_eq_some_iff.mp hf
    exact (same_joinPrev _ _ _).counts.trans (same_joinNext _ _ _).counts

theorem sbrk_counts (h : Heap) (g : Grow) (n : ℤ) : (h.sbrk g n).2.counts = h.counts := by
  unfold sbrk
  dsimp only
  split_ifs <;> rfl

theorem addCore_counts {x : Option ℕ × Heap} {y : ℕ × List Grow × Heap}
    (hm : addCore fuel k grows x = some y) : ∀ c ∈ x.2.counts, c ∈ y.2.2.counts := by
  obtain ⟨_ | hp,h⟩ := x
  · obtain rfl := Option.some.inj hm
    exact fun c hc => hc
  · obtain ⟨h',hf,rfl⟩ := Option.map_eq_some_iff.mp hm
    intro c hc
    rw [free_counts hf]
    exact mem_cons_of_mem _ hc

theorem morecore_counts {y : ℕ × List Grow × Heap} (hm : h.morecore fuel k grows = some y) :
    ∀ c ∈ h.counts, c ∈ y.2.2.counts := by
  cases grows with
  | nil =>
    obtain rfl := Option.some.inj hm
    exact fun c hc => hc
  | cons g grows =>
    rw [morecore_cons] at hm
    have hcounts := addCore_counts hm
    rwa [sbrk_counts] at hcounts

theorem take_counts (h : Heap) (k a p : ℕ) : (h.take k a p).2.counts = h.counts := by
  unfold take
  split <;> rfl

theorem search_counts {y : ℕ × Heap} (hs : search k fuel a p grows h = some y) :
    ∀ c ∈ h.counts, c ∈ y.2.counts := by
  induction fuel generalizing a p grows h with
  | zero => cases hs
  | succ fuel ih =>
    rw [search] at hs
    split at hs
    · obtain rfl := Option.some.inj hs
      rw [take_counts]
      exact fun c hc => hc
    · split at hs
      · obtain ⟨⟨q,grows',h'⟩,hm,hrest⟩ := Option.bind_eq_some_iff.mp hs
        have hcounts := morecore_counts hm
        dsimp only at hrest
        split at hrest
        · obtain rfl := Option.some.inj hrest
          exact hcounts
        · exact fun c hc => ih hrest c (hcounts c hc)
      · exact ih hs

end counts

end Heap

open Heap

variable {base : ℕ} {s t : State} {l : List Block}

/-- The block before a pointer that `malloc` has returned. -/
def blockOf (h : Heap) (e : ℕ × ℕ) : Span := (e.1-16,16*h.size (e.1-16))

def State.blocks (s : State) : List Span := s.live.map (blockOf s.heap)

/-- The free list and the blocks in use are in order. -/
structure State.Holds (base : ℕ) (s : State) (l : List Block) : Prop where
  heap : s.heap.Holds base l s.blocks
  live : ∀ e ∈ s.live, 16 ≤ e.1 ∧ e.2 + 16 ≤ 16*s.heap.size (e.1-16)

def State.Good (base : ℕ) (s : State) : Prop :=
  s.heap.Fresh base ∧ s.live = [] ∨ ∃ l, s.Holds base l

/-- Blocks whose sizes are known look the same in another heap. -/
theorem blocks_eq {h h' : Heap} {live : List (ℕ × ℕ)}
    (hs : ∀ x ∈ live.map (blockOf h), x.2 = 16*h'.size x.1) :
    live.map (blockOf h') = live.map (blockOf h) := by
  refine map_congr_left fun e he => ?_
  have hsize := hs (blockOf h e) (mem_map_of_mem he)
  simp only [blockOf] at hsize ⊢
  rw [hsize]

theorem size_eq {h h' : Heap} {live : List (ℕ × ℕ)}
    (hs : ∀ x ∈ live.map (blockOf h), x.2 = 16*h'.size x.1) {e : ℕ × ℕ} (he : e ∈ live) :
    16*h'.size (e.1-16) = 16*h.size (e.1-16) :=
  (hs (blockOf h e) (mem_map_of_mem he)).symm

section calls

variable {nbytes fuel ap p : ℕ} {grows : List Grow} {h' : Heap}

theorem State.Good.ready (hg : s.Good base) :
    ∃ l, (⟨s.heap.ready base,s.live⟩ : State).Holds base l := by
  rcases hg with ⟨hf,hlive⟩ | ⟨l,hl⟩
  · refine ⟨[(base,0)],?_,?_⟩
    · change (s.heap.ready base).Holds base [(base,0)] (s.live.map _)
      rw [hlive]
      exact hf.ready
    · rw [hlive]
      nofun
  · rw [hl.heap.ready]
    exact ⟨l,hl⟩

/-- `malloc` returns, with 0 or with a new block. -/
theorem State.Good.malloc (hg : s.Good base) (hfits : s.heap.Fits (units nbytes) grows)
    (hn : nbytes ≠ 0) : ∃ fuel r h', s.heap.malloc base fuel nbytes grows = some (r,h') ∧
      (r = 0 ∧ (∃ l', (⟨h',s.live⟩ : State).Holds base l') ∨
        r ≠ 0 ∧ ∃ l', (⟨h',(r,nbytes)::s.live⟩ : State).Holds base l') := by
  obtain ⟨l,hl⟩ := hg.ready
  obtain ⟨r,h',he,hr⟩ := hl.heap.search (units_pos nbytes) ((ready_fits _ _ _ _).mpr hfits)
    (Nat.le_refl _)
  refine ⟨_,r,h',(malloc_eq hn).trans he,?_⟩
  rcases hr with ⟨rfl,l',hholds⟩ | ⟨q,l',rfl,hholds⟩
  · refine .inl ⟨rfl,l',?_,fun e hel => ?_⟩
    · change h'.Holds base l' (s.live.map (blockOf h'))
      rw [blocks_eq hholds.sizes]
      exact hholds
    · obtain ⟨h1,h2⟩ := hl.live e hel
      exact ⟨h1,h2.trans_eq (size_eq hholds.sizes hel).symm⟩
  · have hsizes := (forall_mem_cons.mp hholds.sizes)
    have hq : 16*h'.size q = 16*units nbytes := hsizes.1.symm
    refine .inr ⟨Nat.succ_ne_zero _,l',?_,forall_mem_cons.mpr ⟨?_,fun e hel => ?_⟩⟩
    · change h'.Holds base l' (blockOf h' (q+16,nbytes)::s.live.map (blockOf h'))
      rw [blocks_eq hsizes.2,blockOf]
      simp only [Nat.add_sub_cancel]
      rw [hq]
      exact hholds
    · simp only [Nat.add_sub_cancel,hq]
      exact ⟨Nat.le_add_left _ _,le_units nbytes⟩
    · obtain ⟨h1,h2⟩ := hl.live e hel
      exact ⟨h1,h2.trans_eq (size_eq hsizes.2 hel).symm⟩

/-- `free` of a pointer in use returns. -/
theorem State.Holds.free (hh : s.Holds base l) (hap : ∃ n, (ap,n) ∈ s.live) :
    ∃ fuel h' l', s.heap.free fuel ap = some h' ∧
      (⟨h',s.live.eraseP (·.1 = ap)⟩ : State).Holds base l' := by
  obtain ⟨n,hn⟩ := hap
  obtain ⟨⟨ap',n'⟩,x,y,-,hap',hlive,herase⟩ :=
    exists_of_eraseP (p := fun e : ℕ × ℕ => e.1 = ap) hn (by simp)
  obtain rfl : ap' = ap := by simpa using hap'
  obtain ⟨hge,-⟩ := hh.live _ hn
  have hblocks : s.blocks.Perm ((ap'-16,16*s.heap.size (ap'-16))::(x++y).map (blockOf s.heap)) := by
    rw [State.blocks,hlive,map_append,map_append,map_cons]
    exact perm_middle
  obtain ⟨h',l',hfree,hholds,-⟩ := free_holds (hh.heap.perm hblocks) (Nat.le_refl _)
  rw [Nat.sub_add_cancel hge] at hfree
  refine ⟨_,h',l',hfree,?_,fun e he => ?_⟩
  · change h'.Holds base l' ((s.live.eraseP _).map (blockOf h'))
    rw [herase,blocks_eq hholds.sizes]
    exact hholds
  · rw [herase] at he
    have hel : e ∈ s.live := by
      rw [hlive]
      rcases mem_append.mp he with he | he
      · exact mem_append_left _ he
      · exact mem_append_right _ (mem_cons_of_mem _ he)
    obtain ⟨h1,h2⟩ := hh.live e hel
    exact ⟨h1,h2.trans_eq (size_eq hholds.sizes he).symm⟩

/-- A write into memory in use leaves the headers alone. -/
theorem State.Holds.write {a ptr size : ℕ} (hh : s.Holds base l)
    (hin : ∃ e ∈ s.live, e.1 ≤ a ∧ a < e.1+e.2) :
    (⟨(s.heap.setPtr a ptr).setSize a size,s.live⟩ : State).Holds base l := by
  obtain ⟨e,he,hle,hlt⟩ := hin
  obtain ⟨hge,hroom⟩ := hh.live e he
  have hmem : blockOf s.heap e ∈ spans l++s.blocks :=
    mem_append_right _ (mem_map_of_mem he)
  have hhas : (blockOf s.heap e).Has a := by
    simp only [Span.Has,blockOf]
    omega
  have hlow := (hh.heap.owned _ (hh.heap.tiles.owned_start hmem)).1
  simp only [blockOf] at hlow
  -- a block that begins at `a` would be the block that has `a`
  have hne : ∀ x ∈ spans l++s.blocks, x.1 ≠ a := by
    rintro x hx rfl
    have hpos := hh.heap.tiles.pos x hx
    have heq := hh.heap.tiles.eq_of_has hx hmem ⟨Nat.le_refl _,by omega⟩ hhas
    have hstart : x.1 = e.1-16 := congrArg Prod.fst heq
    omega
  have hl : ∀ b ∈ l, b.1 ≠ a := by
    intro b hb
    by_cases hbase : b.1 = base
    · omega
    · exact hne (b.1,16*b.2) (mem_append_left _ (mem_spans.mpr
        ⟨b,hb,hh.heap.size_pos b hb hbase,rfl⟩))
  have hs : Same a s.heap ((s.heap.setPtr a ptr).setSize a size) := same_setPtr.trans same_setSize
  have hholds := hh.heap.same hs rfl hl fun x hx => hne x (mem_append_right _ hx)
  refine ⟨?_,fun e' he' => ?_⟩
  · change Heap.Holds base _ l (s.live.map (blockOf _))
    rw [blocks_eq hholds.sizes]
    exact hholds
  · obtain ⟨h1,h2⟩ := hh.live e' he'
    exact ⟨h1,h2.trans_eq (size_eq hholds.sizes he').symm⟩

end calls

/-- The calls that are considered: `free` of pointers in use, and requests whose byte count fits
into an `int` or is refused by the kernel. -/
def Allowed (s : State) : Event → Prop
  | .malloc _ nbytes grows => nbytes < 2^32 ∧ s.heap.Fits (units nbytes) grows
  | .free _ ap => ap = 0 ∨ ∃ n, (ap,n) ∈ s.live
  | .write a _ _ => ∃ e ∈ s.live, e.1 ≤ a ∧ a < e.1 + e.2

theorem State.Good.malloc_step {fuel nbytes : ℕ} {grows : List Grow} (hg : s.Good base)
    (hfits : s.heap.Fits (units nbytes) grows) (hn : nbytes ≠ 0)
    (hs : Malloc.step base s (.malloc fuel nbytes grows) = some t) : ∃ l, t.Holds base l := by
  obtain ⟨⟨p,h⟩,hm,rfl⟩ := Option.map_eq_some_iff.mp hs
  obtain ⟨fuel',r,h',hm',hr⟩ := hg.malloc hfits hn
  have heq := (malloc_mono hm fuel').symm.trans
    ((congrArg (s.heap.malloc base · nbytes grows) (Nat.add_comm _ _)).trans (malloc_mono hm' fuel))
  obtain ⟨rfl,rfl⟩ := Prod.mk.inj (Option.some.inj heq)
  dsimp only
  rcases hr with ⟨rfl,hl⟩ | ⟨hp,hl⟩
  · exact hl
  · rw [if_neg hp]
    exact hl

theorem State.Holds.free_step {fuel ap : ℕ} (hh : s.Holds base l) (hap : ∃ n, (ap,n) ∈ s.live)
    (hs : step base s (.free fuel ap) = some t) : ∃ l', t.Holds base l' := by
  obtain ⟨h,hf,rfl⟩ := Option.map_eq_some_iff.mp hs
  obtain ⟨fuel',h',l',hf',hl'⟩ := hh.free hap
  have heq := (free_mono_add hf fuel').symm.trans
    ((congrArg (s.heap.free · ap) (Nat.add_comm _ _)).trans (free_mono_add hf' fuel))
  obtain rfl := Option.some.inj heq
  exact ⟨l',hl'⟩

/-- With a pointer in use, there is a free list. -/
theorem State.Good.holds_of_live (hg : s.Good base) {e : ℕ × ℕ} (he : e ∈ s.live) :
    ∃ l, s.Holds base l := by
  refine hg.resolve_left fun hf => ?_
  rw [hf.2] at he
  cases he

theorem State.Good.step (hg : s.Good base) {e : Event} (ha : Allowed s e)
    (hs : Malloc.step base s e = some t) : t.Good base := by
  cases e with
  | malloc fuel nbytes grows =>
    by_cases hn : nbytes = 0
    · obtain ⟨⟨p,h⟩,hm,rfl⟩ := Option.map_eq_some_iff.mp hs
      rw [Heap.malloc,if_pos hn] at hm
      cases hm
      exact hg
    · exact .inr (hg.malloc_step ha.2 hn hs)
  | free fuel ap =>
    by_cases hap : ∃ n, (ap,n) ∈ s.live
    · obtain ⟨n,hn⟩ := hap
      obtain ⟨l,hl⟩ := hg.holds_of_live hn
      exact .inr (hl.free_step ⟨n,hn⟩ hs)
    · -- `free(0)`
      obtain ⟨h,hf,rfl⟩ := Option.map_eq_some_iff.mp hs
      obtain rfl := ha.resolve_right hap
      cases hf
      rw [eraseP_of_forall_not]
      · exact hg
      · intro e he h0
        have h0 : e.1 = 0 := by simpa using h0
        exact hap ⟨e.2,h0 ▸ he⟩
  | write a ptr size =>
    cases hs
    obtain ⟨e,he,hin⟩ := ha
    obtain ⟨l,hl⟩ := hg.holds_of_live he
    exact .inr ⟨l,hl.write ⟨e,he,hin⟩⟩

/-- A program before its first call. -/
structure State.Start (base : ℕ) (s : State) : Prop where
  heap : s.heap.Fresh base
  live : s.live = []

theorem State.Start.good (hs : s.Start base) : s.Good base := .inl ⟨hs.heap,hs.live⟩

/-- `l` is the list that the pointers from `freep` go through. -/
structure State.FreeList (s : State) (l : List Block) : Prop where
  start : ∃ b l', l = b::l' ∧ b.1 = s.heap.freep
  circular : s.heap.Path l s.heap.freep
  wraps_once : ∃ x y, l = x ++ y ∧ (y ++ x).Pairwise fun b c => b.1 < c.1
  apart : l.Pairwise fun b c => b.1 + 16*b.2 < c.1 ∨ c.1 + 16*c.2 < b.1
  live : ∀ b ∈ l, ∀ e ∈ s.live, Span.Apart (b.1,16*b.2) (blockOf s.heap e)
  total : 16*(l.map Prod.snd).sum + extent s.blocks = extent s.heap.arena
  enough : ∀ e ∈ s.live, 16 ≤ e.1 ∧ e.2 + 16 ≤ (blockOf s.heap e).2

theorem extent_spans (l : List Block) : extent (spans l) = 16*(l.map Prod.snd).sum := by
  induction l with
  | nil => rfl
  | cons b l ih =>
    obtain ⟨a,n⟩ := b
    rw [map_cons,sum_cons,Nat.mul_add,← ih]
    rcases Nat.eq_zero_or_pos n with rfl | hn
    · rw [Nat.mul_zero,Nat.zero_add]
      rfl
    · rw [spans_cons hn,extent_cons]

theorem State.Holds.freeList (hh : s.Holds base l) : ∃ l', s.FreeList l' := by
  obtain ⟨c,hc,hfreep⟩ := hh.heap.freep
  obtain ⟨x,y,rfl⟩ := append_of_mem hc
  obtain ⟨hpx,hpcy⟩ := path_append.mp hh.heap.path
  have hbase : first x c.1 = base := by
    have hhead := hh.heap.head
    cases x with
    | nil => exact congrArg Prod.fst (Option.some.inj hhead)
    | cons d x => exact congrArg Prod.fst (Option.some.inj hhead)
  have hperm : (x++c::y).Perm (c::y++x) := perm_append_comm
  refine ⟨c::y++x,⟨c,y++x,rfl,hfreep.symm⟩,?_,⟨c::y,x,rfl,hh.heap.sorted.imp Before.lt⟩,?_,?_,?_,
    hh.live⟩
  · rw [hfreep,path_append,hbase]
    exact ⟨hpcy,hpx⟩
  · exact (hperm.pairwise_iff fun h => h.symm).mp (hh.heap.sorted.imp Or.inl)
  · intro b hb e he
    have hb := hperm.mem_iff.mpr hb
    have hmem : blockOf s.heap e ∈ s.blocks := mem_map_of_mem he
    by_cases hz : b.2 = 0
    · -- the static header is in front of all memory
      have hb0 : b.1 = base := by
        by_contra hne
        exact absurd (hh.heap.size_pos b hb hne) (by omega)
      have hlow := (hh.heap.owned _ (hh.heap.tiles.owned_start (mem_append_right _ hmem))).1
      simp only [Span.Apart]
      omega
    · exact (pairwise_append.mp hh.heap.tiles.apart).2.2 _
        (mem_spans.mpr ⟨b,hb,Nat.pos_of_ne_zero hz,rfl⟩) _ hmem
  · rw [hh.heap.total,extent_append,extent_spans,(hperm.map Prod.snd).sum_eq]

/-- Requests of at most 100 MB, and `free` of pointers in use. -/
def Proper (s : State) : Event → Prop
  | .malloc _ nbytes _ => 0 < nbytes ∧ nbytes ≤ 100*1024*1024
  | .free _ ap => ∃ n, (ap,n) ∈ s.live
  | .write a _ _ => ∃ e ∈ s.live, e.1 ≤ a ∧ a < e.1 + e.2

theorem fits_of_le {nbytes : ℕ} (h : Heap) (grows : List Grow) (hn : nbytes ≤ 100*1024*1024) :
    h.Fits (units nbytes) grows := by
  refine .inl ?_
  unfold units
  omega

theorem Proper.allowed {e : Event} (hp : Proper s e) : Allowed s e := by
  cases e with
  | malloc fuel nbytes grows => exact ⟨by have := hp.2; omega,fits_of_le _ _ hp.2⟩
  | free fuel ap => exact .inr hp
  | write a ptr size => exact hp

/-- After a call the free list is there. -/
theorem State.Good.proper_step (hg : s.Good base) {e : Event} (hp : Proper s e)
    (hs : Malloc.step base s e = some t) : ∃ l, t.Holds base l := by
  cases e with
  | malloc fuel nbytes grows =>
    exact hg.malloc_step (fits_of_le _ _ hp.2) (Nat.pos_iff_ne_zero.mp hp.1) hs
  | free fuel ap =>
    obtain ⟨n,hn⟩ := hp
    obtain ⟨l,hl⟩ := hg.holds_of_live hn
    exact hl.free_step ⟨n,hn⟩ hs
  | write a ptr size =>
    cases hs
    obtain ⟨e,he,hin⟩ := hp
    obtain ⟨l,hl⟩ := hg.holds_of_live he
    exact ⟨l,hl.write ⟨e,he,hin⟩⟩

/-- In every run of requests of at most 100 MB and frees of pointers in use, after every call the
free list is in order, and every call returns. -/
theorem free_list_kept (base : ℕ) (s₀ s : State) (h₀ : s₀.Start base)
    (hr : Reaches (step base) Proper s₀ s) :
    (∀ e t, Proper s e → step base s e = some t → ∃ l, t.FreeList l) ∧
    (∀ nbytes grows, 0 < nbytes → nbytes ≤ 100*1024*1024 →
      ∃ fuel, ∀ j, (s.heap.malloc base (fuel+j) nbytes grows).isSome) ∧
    ∀ ap n, (ap,n) ∈ s.live → ∃ fuel, ∀ j, (s.heap.free (fuel+j) ap).isSome := by
  have hg : s.Good base :=
    hr.invariant h₀.good fun _ _ _ hg hp hs => hg.step (Proper.allowed hp) hs
  refine ⟨fun e t hp hs => ?_,fun nbytes grows hpos hle => ?_,fun ap n hn => ?_⟩
  · obtain ⟨l,hl⟩ := hg.proper_step hp hs
    exact hl.freeList
  · obtain ⟨fuel,r,h',hm,-⟩ := hg.malloc (fits_of_le _ grows hle) (Nat.pos_iff_ne_zero.mp hpos)
    exact ⟨fuel,fun j => Option.isSome_of_eq_some (malloc_mono hm j)⟩
  · obtain ⟨l,hl⟩ := hg.holds_of_live hn
    obtain ⟨fuel,h',l',hf,-⟩ := hl.free ⟨n,hn⟩
    exact ⟨fuel,fun j => Option.isSome_of_eq_some (free_mono_add hf j)⟩

/-- A program whose static header is at 4096 and whose memory ends at 8192. -/
def smallStart : State := ⟨⟨fun _ => 0,fun _ => 0,0,8192,[],[]⟩,[]⟩

theorem smallStart_start : smallStart.Start 4096 :=
  ⟨⟨by decide,rfl,rfl,rfl,by decide⟩,rfl⟩

/-- Two requests, the first of which is freed. -/
theorem free_list_kept_two : ∃ s t, Reaches (step 4096) Proper smallStart s ∧
    s.live = [(73664,32),(73712,8)] ∧ step 4096 s (.free 9 73712) = some t ∧
    ∃ l, t.FreeList l := by
  let events : List Event := [.malloc 9 8 [⟨0,true⟩],.malloc 9 32 []]
  have hrun : ((runEvents (step 4096) (fun _ _ => true) smallStart events).bind fun s =>
      (step 4096 s (.free 9 73712)).map fun _ => s.live) = some [(73664,32),(73712,8)] := by
    decide +kernel
  obtain ⟨s,hs,hfree⟩ := Option.bind_eq_some_iff.mp hrun
  obtain ⟨t,ht,hlive⟩ := Option.map_eq_some_iff.mp hfree
  have hproper : ∀ e ∈ events, ∀ s, Proper s e := by
    simp only [events,forall_mem_cons]
    exact ⟨fun _ => ⟨by decide,by decide⟩,fun _ => ⟨by decide,by decide⟩,nofun⟩
  have hr : Reaches (step 4096) Proper smallStart s :=
    (reaches_of_runEvents_mem hs hproper).mono fun s _ h => h s
  refine ⟨s,t,hr,hlive,ht,?_⟩
  exact (free_list_kept 4096 smallStart s smallStart_start hr).1 (.free 9 73712) t
    ⟨8,hlive ▸ by decide⟩ ht

/-- `malloc` has returned 0 or a pointer to bytes that `sbrk` has given and that the process still
has, and every block that `morecore` has made is as large as the count `sbrk` was called with. -/
def Owns (h : Heap) (p nbytes : ℕ) : Prop :=
  (p = 0 ∨ ∀ i < nbytes, h.Owned (p+i) ∧ p+i < h.brk) ∧ ∀ c ∈ h.counts, c.1 = 16*c.2

theorem bytes_ne {nu : ℕ} (h : 2^31 ≤ 16*nu) : bytes nu ≠ 16*nu := by
  have hlt : Int.bmod (16*nu) (2^32) < 2^31 := by
    have := Int.bmod_lt (x := 16*nu) (m := 2^32) (by decide)
    omega
  intro he
  have he' : Int.bmod (16*nu) (2^32) = 16*nu := he
  omega

theorem State.Good.counts (hg : s.Good base) : ∀ c ∈ s.heap.counts, c.1 = 16*c.2 := by
  rcases hg with ⟨hf,-⟩ | ⟨l,hl⟩
  · rw [hf.counts]
    nofun
  · exact hl.heap.counts

theorem State.Holds.owns {h : Heap} {p nbytes : ℕ} {live : List (ℕ × ℕ)}
    (hh : (⟨h,(p,nbytes)::live⟩ : State).Holds base l) : Owns h p nbytes := by
  refine ⟨.inr fun i hi => ?_,hh.heap.counts⟩
  obtain ⟨hge,hroom⟩ := hh.live (p,nbytes) mem_cons_self
  have hmem : blockOf h (p,nbytes) ∈ spans l++State.blocks ⟨h,(p,nbytes)::live⟩ :=
    mem_append_right _ mem_cons_self
  have howned : h.Owned (p+i) := by
    refine hh.heap.tiles.within _ hmem _ ?_
    simp only [Span.Has,blockOf] at hroom ⊢
    omega
  exact ⟨howned,(hh.heap.owned _ howned).2.1⟩

/-- A request that is too large for an `int`, and that the kernel grants all the same, leaves a
block larger than the memory it got. -/
theorem Heap.Holds.not_exact {h h' : Heap} {others : List Span} {k fuel p : ℕ}
    {grows : List Grow} (hh : h.Holds base l others) (hfits : ¬h.Fits k grows)
    (hs : Heap.search k (fuel+l.length) h.freep (h.ptr h.freep) grows h = some (p,h')) :
    ∃ c ∈ h'.counts, c.1 ≠ 16*c.2 := by
  simp only [Fits,not_or,not_lt,not_forall] at hfits
  obtain ⟨hbig,g,hg,hsbrk⟩ := hfits
  obtain ⟨grows,rfl⟩ := head?_eq_some_iff.mp hg
  have hnone : ∀ b ∈ l, b.2 < k := by
    intro b hb
    by_cases hz : b.2 = 0
    · omega
    · have hmem : (b.1,16*b.2) ∈ spans l++others :=
        mem_append_left _ (mem_spans.mpr ⟨b,hb,Nat.pos_of_ne_zero hz,rfl⟩)
      have hlast := (hh.owned _ (hh.tiles.within _ hmem (b.1+16*b.2-1)
        ⟨by simp only; omega,by simp only; omega⟩)).2.2
      omega
  rw [hh.search_none hnone] at hs
  obtain ⟨⟨q,grows',h₂⟩,hmore,hrest⟩ := Option.bind_eq_some_iff.mp hs
  have hcount : (bytes k,k) ∈ h₂.counts := by
    rw [morecore_cons,if_neg (show ¬k < 4096 by omega)] at hmore
    generalize hsb : h.sbrk g (bytes k) = x at hmore hsbrk
    obtain ⟨_ | hp,h₁⟩ := x
    · exact absurd rfl hsbrk
    · obtain ⟨h₃,hf,heq⟩ := Option.map_eq_some_iff.mp hmore
      obtain rfl : h₃ = h₂ := congrArg (fun y => y.2.2) heq
      rw [free_counts hf]
      exact mem_cons_self
  refine ⟨(bytes k,k),?_,?_⟩
  · dsimp only at hrest
    split at hrest
    · cases hrest
      exact hcount
    · exact search_counts hrest _ hcount
  · dsimp only
    exact bytes_ne hbig

/-- In every run whose requests fit, a further request gets memory that is owned just if it fits. -/
theorem malloc_owns (base : ℕ) (s₀ s : State) (h₀ : s₀.Start base)
    (hr : Reaches (step base) Allowed s₀ s) (fuel nbytes : ℕ) (grows : List Grow) (p : ℕ)
    (h' : Heap) (hm : s.heap.malloc base fuel nbytes grows = some (p,h')) :
    Owns h' p nbytes ↔ s.heap.Fits (units nbytes) grows := by
  have hg : s.Good base := hr.invariant h₀.good fun _ _ _ hg hp hs => hg.step hp hs
  by_cases hn : nbytes = 0
  · rw [Heap.malloc,if_pos hn] at hm
    cases hm
    subst hn
    exact ⟨fun _ => .inl (by decide),fun _ => ⟨.inl rfl,hg.counts⟩⟩
  constructor
  · intro howns
    by_contra hfits
    obtain ⟨l,hl⟩ := hg.ready
    have hmore := malloc_mono hm l.length
    rw [malloc_eq hn] at hmore
    rw [← ready_fits _ base] at hfits
    obtain ⟨c,hc,hne⟩ := hl.heap.not_exact hfits hmore
    exact hne (howns.2 c hc)
  · intro hfits
    have hstep : step base s (.malloc fuel nbytes grows) =
        some ⟨h',if p = 0 then s.live else (p,nbytes)::s.live⟩ := by
      rw [step,hm]
      rfl
    obtain ⟨l,hl⟩ := hg.malloc_step hfits hn hstep
    by_cases hp : p = 0
    · exact ⟨.inl hp,hl.heap.counts⟩
    · rw [if_neg hp] at hl
      exact hl.owns

theorem malloc_owns_eight : ∃ h', smallStart.heap.malloc 4096 9 8 [⟨0,true⟩] = some (73712,h') ∧
    Owns h' 73712 8 := by
  have hrun : (smallStart.heap.malloc 4096 9 8 [⟨0,true⟩]).map Prod.fst = some 73712 := by
    decide +kernel
  obtain ⟨⟨p,h'⟩,hm,rfl⟩ := Option.map_eq_some_iff.mp hrun
  exact ⟨h',hm,(malloc_owns 4096 smallStart smallStart smallStart_start (.refl _) 9 8 [⟨0,true⟩] _ h'
    hm).mpr (.inl (by decide))⟩

/-- `malloc(0xffffffff)` calls `sbrk(16)` and returns a pointer to the end of memory. -/
theorem malloc_past_the_break : smallStart.Start 4096 ∧
    ∃ h', smallStart.heap.malloc 4096 9 (2^32-1) [⟨0,true⟩] = some (8208,h') ∧ h'.brk = 8208 ∧
      h'.counts = [(16,2^28+1)] ∧ ¬Owns h' 8208 (2^32-1) := by
  have hrun : (smallStart.heap.malloc 4096 9 (2^32-1) [⟨0,true⟩]).map
      (fun r => (r.1,r.2.brk,r.2.counts)) = some (8208,8208,[(16,2^28+1)]) := by
    decide +kernel
  obtain ⟨⟨p,h'⟩,hm,he⟩ := Option.map_eq_some_iff.mp hrun
  simp only [Prod.mk.injEq] at he
  obtain ⟨rfl,hbrk,hcounts⟩ := he
  refine ⟨smallStart_start,h',hm,hbrk,hcounts,fun howns => ?_⟩
  have hlt := ((howns.1.resolve_left (by decide)) 0 (by decide)).2
  omega

end Xv6.Malloc
