import Mathlib.Data.List.Sort
import Xv6.Malloc.Model

/-! The free list and what `free` does to it.
The list is written as the blocks on it in the order of their addresses, the static header with
its size 0 first. -/
namespace Xv6.Malloc

open Function List

/-- Address and size. -/
abbrev Block := ℕ × ℕ

/-- The memory of the blocks that have some. -/
def spans (l : List Block) : List Span := (l.filter fun b => 0 < b.2).map fun b => (b.1,16*b.2)

/-- Where a path through `l` to `z` begins. -/
def first : List Block → ℕ → ℕ
  | [], z => z
  | b::_, _ => b.1

/-- The pointers lead through the headers of `l` to `z`. -/
def Heap.Path (h : Heap) : List Block → ℕ → Prop
  | [], _ => True
  | b::l, z => h.size b.1 = b.2 ∧ h.ptr b.1 = first l z ∧ h.Path l z

/-- `y` comes after `x`, with a gap. -/
def Before (x y : Block) : Prop := x.1 + 16*x.2 < y.1

/-- The address is in memory that `sbrk` has given. -/
def Heap.Owned (h : Heap) (i : ℕ) : Prop := ∃ x ∈ h.arena, Span.Has x i

/-- The blocks of `l` are the free list, and `others` are the blocks that are not on it. -/
structure Heap.Holds (base : ℕ) (h : Heap) (l : List Block) (others : List Span) : Prop where
  pos : 0 < base
  head : l.head? = some (base,0)
  path : h.Path l base
  freep : ∃ b ∈ l, h.freep = b.1
  sorted : l.Pairwise Before
  size_pos : ∀ b ∈ l, b.1 ≠ base → 0 < b.2
  tiles : Tiles h.Owned (spans l ++ others)
  sizes : ∀ x ∈ others, x.2 = 16*h.size x.1
  brk : base + 16 ≤ h.brk
  owned : ∀ i, h.Owned i → base + 16 ≤ i ∧ i < h.brk ∧ i < 512*1024*1024
  total : extent h.arena = extent (spans l ++ others)
  counts : ∀ c ∈ h.counts, c.1 = 16*c.2

variable {base : ℕ} {h h' : Heap} {l x y : List Block} {others : List Span} {b : Block}
  {z a v n : ℕ}

section lists

theorem spans_append (x y : List Block) : spans (x++y) = spans x++spans y := by
  rw [spans,filter_append,map_append,spans,spans]

theorem spans_cons (hn : 0 < n) : spans ((a,n)::l) = (a,16*n)::spans l := by
  rw [spans,filter_cons_of_pos (by simpa using hn),map_cons,spans]

theorem mem_spans {s : Span} : s ∈ spans l ↔ ∃ b ∈ l, 0 < b.2 ∧ s = (b.1,16*b.2) := by
  simp only [spans,mem_map,mem_filter,decide_eq_true_eq]
  constructor
  · rintro ⟨b,⟨hb,hpos⟩,rfl⟩
    exact ⟨b,hb,hpos,rfl⟩
  · rintro ⟨b,hb,hpos,rfl⟩
    exact ⟨b,⟨hb,hpos⟩,rfl⟩

end lists

namespace Heap

section path

theorem path_append : h.Path (x++y) z ↔ h.Path x (first y z) ∧ h.Path y z := by
  induction x with
  | nil => exact ⟨fun hy => ⟨trivial,hy⟩,fun hy => hy.2⟩
  | cons b x ih =>
    have hfirst : first (x++y) z = first x (first y z) := by
      cases x <;> rfl
    rw [cons_append,Path,Path,ih,hfirst]
    tauto

theorem Path.congr (hp : h.Path l z)
    (heq : ∀ b ∈ l, h'.ptr b.1 = h.ptr b.1 ∧ h'.size b.1 = h.size b.1) : h'.Path l z := by
  induction l with
  | nil => trivial
  | cons b l ih =>
    rw [forall_mem_cons] at heq
    obtain ⟨hsize,hptr,hp⟩ := hp
    exact ⟨heq.1.2.trans hsize,heq.1.1.trans hptr,ih hp heq.2⟩

theorem Path.size_eq (hp : h.Path l z) (hb : b ∈ l) : h.size b.1 = b.2 := by
  induction l with
  | nil => cases hb
  | cons c l ih =>
    rcases mem_cons.mp hb with rfl | hb
    · exact hp.1
    · exact ih hp.2.2 hb

end path

section update

@[simp] theorem setPtr_ptr : (h.setPtr a v).ptr = update h.ptr a v := rfl

@[simp] theorem setPtr_size : (h.setPtr a v).size = h.size := rfl

@[simp] theorem setSize_ptr : (h.setSize a v).ptr = h.ptr := rfl

@[simp] theorem setSize_size : (h.setSize a v).size = update h.size a v := rfl

theorem path_setFreep {p : ℕ} : (h.setFreep p).Path l z ↔ h.Path l z :=
  ⟨fun hp => hp.congr fun _ _ => ⟨rfl,rfl⟩,fun hp => hp.congr fun _ _ => ⟨rfl,rfl⟩⟩

/-- Two heaps that differ only in the header at `a`. -/
structure Same (a : ℕ) (h h' : Heap) : Prop where
  ptr : ∀ i ≠ a, h'.ptr i = h.ptr i
  size : ∀ i ≠ a, h'.size i = h.size i
  brk : h'.brk = h.brk
  arena : h'.arena = h.arena
  counts : h'.counts = h.counts

theorem same_setPtr : Same a h (h.setPtr a v) where
  ptr i hi := by rw [setPtr_ptr,update_of_ne hi]
  size _ _ := rfl
  brk := rfl
  arena := rfl
  counts := rfl

theorem same_setSize : Same a h (h.setSize a v) where
  ptr _ _ := rfl
  size i hi := by rw [setSize_size,update_of_ne hi]
  brk := rfl
  arena := rfl
  counts := rfl

theorem Same.trans {h'' : Heap} (hs : Same a h h') (hs' : Same a h' h'') : Same a h h'' where
  ptr i hi := (hs'.ptr i hi).trans (hs.ptr i hi)
  size i hi := (hs'.size i hi).trans (hs.size i hi)
  brk := hs'.brk.trans hs.brk
  arena := hs'.arena.trans hs.arena
  counts := hs'.counts.trans hs.counts

theorem same_joinNext (h : Heap) (bp p : ℕ) : Same bp h (h.joinNext bp p) := by
  unfold joinNext
  split
  · exact same_setSize.trans same_setPtr
  · exact same_setPtr

theorem same_joinPrev (h : Heap) (bp p : ℕ) : Same p h (h.joinPrev bp p) := by
  unfold joinPrev
  split
  · exact same_setSize.trans same_setPtr
  · exact same_setPtr

theorem Same.path (hs : Same a h h') (hp : h.Path l z) (ha : ∀ b ∈ l, b.1 ≠ a) : h'.Path l z :=
  hp.congr fun b hb => ⟨hs.ptr b.1 (ha b hb),hs.size b.1 (ha b hb)⟩

theorem Same.owned (hs : Same a h h') : h'.Owned = h.Owned := by
  unfold Owned
  rw [hs.arena]

theorem Same.sizes (hs : Same a h h') (hz : ∀ x ∈ others, x.2 = 16*h.size x.1)
    (hne : ∀ x ∈ others, x.1 ≠ a) : ∀ x ∈ others, x.2 = 16*h'.size x.1 := fun x hx =>
  (hz x hx).trans (congrArg (16*·) (hs.size x.1 (hne x hx)).symm)

/-- What does not depend on the headers. -/
theorem Same.books (hs : Same a h h') (hb : base+16 ≤ h.brk ∧
    (∀ i, h.Owned i → base+16 ≤ i ∧ i < h.brk ∧ i < 512*1024*1024) ∧
    ∀ c ∈ h.counts, c.1 = 16*c.2) : base+16 ≤ h'.brk ∧
    (∀ i, h'.Owned i → base+16 ≤ i ∧ i < h'.brk ∧ i < 512*1024*1024) ∧
    ∀ c ∈ h'.counts, c.1 = 16*c.2 := by
  rw [hs.owned,hs.brk,hs.counts]
  exact hb

end update

namespace Holds

theorem base_le (hh : h.Holds base l others) (hb : b ∈ l) : base ≤ b.1 := by
  obtain ⟨l',rfl⟩ := head?_eq_some_iff.mp hh.head
  rcases mem_cons.mp hb with rfl | hb
  · exact Nat.le_refl _
  · have hlt := (pairwise_cons.mp hh.sorted).1 b hb
    exact (Nat.le_add_right _ _).trans hlt.le

theorem perm {others' : List Span} (hh : h.Holds base l others) (hp : others.Perm others') :
    h.Holds base l others' where
  __ := hh
  tiles := hh.tiles.perm (hp.append_left _)
  sizes x hx := hh.sizes x (hp.mem_iff.mpr hx)
  total := hh.total.trans (extent_perm (hp.append_left _))

end Holds

end Heap

/-- Addresses increase along the list. -/
theorem Before.lt {b c : Block} (h : Before b c) : b.1 < c.1 :=
  Nat.lt_of_le_of_lt (Nat.le_add_right _ _) h

theorem eq_of_address (hl : l.Pairwise Before) {b c : Block} (hb : b ∈ l) (hc : c ∈ l)
    (he : b.1 = c.1) : b = c := by
  induction l with
  | nil => cases hb
  | cons d l ih =>
    obtain ⟨hd,hl⟩ := pairwise_cons.mp hl
    rcases mem_cons.mp hb with rfl | hb' <;> rcases mem_cons.mp hc with rfl | hc'
    · rfl
    · exact absurd he (hd c hc').lt.ne
    · exact absurd he (hd b hb').lt.ne'
    · exact ih hl hb' hc'

/-- The list is cut where a block at `bp` belongs. -/
theorem exists_cut (hl : l.Pairwise Before) (bp : ℕ) (hne : ∀ b ∈ l, b.1 ≠ bp) :
    ∃ x y, l = x++y ∧ (∀ b ∈ x, b.1 < bp) ∧ ∀ b ∈ y, bp < b.1 := by
  induction l with
  | nil => exact ⟨[],[],rfl,nofun,nofun⟩
  | cons d l ih =>
    obtain ⟨hd,hl⟩ := pairwise_cons.mp hl
    rw [forall_mem_cons] at hne
    obtain ⟨x,y,rfl,hx,hy⟩ := ih hl hne.2
    by_cases hlt : d.1 < bp
    · exact ⟨d::x,y,rfl,forall_mem_cons.mpr ⟨hlt,hx⟩,hy⟩
    · have hgt : bp < d.1 := lt_of_le_of_ne (Nat.le_of_not_lt hlt) (Ne.symm hne.1)
      exact ⟨[],d::(x++y),rfl,nofun,
        forall_mem_cons.mpr ⟨hgt,fun b hb => hgt.trans (hd b hb).lt⟩⟩

namespace Heap

/-- A pointer of a path leads to its end or to a block of it with a larger address. -/
theorem Path.ptr_cases (hp : h.Path l z) (hl : l.Pairwise Before) (hb : b ∈ l) :
    h.ptr b.1 = z ∨ ∃ c ∈ l, h.ptr b.1 = c.1 ∧ b.1 < c.1 := by
  induction l with
  | nil => cases hb
  | cons d l ih =>
    obtain ⟨hd,hl⟩ := pairwise_cons.mp hl
    obtain ⟨-,hptr,hp⟩ := hp
    rcases mem_cons.mp hb with rfl | hb
    · cases l with
      | nil => exact .inl hptr
      | cons c l => exact .inr ⟨c,mem_cons_of_mem _ mem_cons_self,hptr,
          (hd c mem_cons_self).lt⟩
    · rcases ih hp hl hb with h | ⟨c,hc,h⟩
      · exact .inl h
      · exact .inr ⟨c,mem_cons_of_mem _ hc,h⟩

section spot

variable {bp p fuel : ℕ}

/-- The loop of `free` is left at `p`. -/
def Stops (h : Heap) (bp p : ℕ) : Prop :=
  p < bp ∧ bp < h.ptr p ∨ h.ptr p ≤ p ∧ (p < bp ∨ bp < h.ptr p)

theorem spot_of_stops (hs : h.Stops bp p) : h.spot bp (fuel+1) p = some p := by
  unfold spot
  split
  · rfl
  · rename_i hno
    rw [if_pos (hs.resolve_left hno)]

theorem spot_of_not_stops (hs : ¬h.Stops bp p) :
    h.spot bp (fuel+1) p = h.spot bp fuel (h.ptr p) := by
  rw [Stops,not_or] at hs
  rw [spot,if_neg hs.1,if_neg hs.2]

theorem spot_pass (hp : h.Path l z) (hno : ∀ b ∈ l, ¬h.Stops bp b.1) :
    h.spot bp (fuel+l.length) (first l z) = h.spot bp fuel z := by
  induction l with
  | nil => rfl
  | cons b l ih =>
    obtain ⟨-,hptr,hp⟩ := hp
    rw [forall_mem_cons] at hno
    rw [length_cons,← Nat.add_assoc]
    exact (spot_of_not_stops hno.1).trans ((congrArg _ hptr).trans (ih hp hno.2))

/-- Wherever it begins, the loop of `free` ends at the block before `bp`. -/
theorem spot_eq {m : ℕ} (hp : h.Path l base) (hl : l.Pairwise Before) (hcut : l = x++(p,m)::y)
    (hhead : l.head? = some (base,0)) (hb : b ∈ l) (hx : ∀ c ∈ x, c.1 < bp) (hpb : p < bp)
    (hy : ∀ c ∈ y, bp < c.1) (hfuel : l.length ≤ fuel) : h.spot bp fuel b.1 = some p := by
  subst hcut
  obtain ⟨hpx,-,hptr,hpy⟩ := path_append.mp hp
  simp only [pairwise_append,pairwise_cons,forall_mem_cons] at hl
  obtain ⟨hlx,⟨-,hly⟩,hxp⟩ := hl
  have hfirst : first x p = base := by
    cases x <;> exact congrArg Prod.fst (Option.some.inj hhead)
  have hbase : base ≤ p := by
    cases x with
    | nil => exact hfirst.ge
    | cons c x => exact hfirst.ge.trans (hxp c mem_cons_self).1.lt.le
  have hstops (k : ℕ) : h.spot bp (k+1) p = some p := by
    refine spot_of_stops ?_
    cases y with
    | nil => exact .inr ⟨hptr.trans_le hbase,.inl hpb⟩
    | cons c y => exact .inl ⟨hpb,(hy c mem_cons_self).trans_eq hptr.symm⟩
  have hnox : ∀ c ∈ x, ¬h.Stops bp c.1 := by
    intro c hc
    have hcb := hx c hc
    have hcp := (hxp c hc).1.lt
    rcases hpx.ptr_cases hlx hc with he | ⟨d,hd,he,hlt⟩
    · rw [Stops,he]
      simp only [first] at hcp ⊢
      omega
    · have hdb := hx d hd
      rw [Stops,he]
      omega
  have hnoy : ∀ c ∈ y, ¬h.Stops bp c.1 := by
    intro c hc
    have hcb := hy c hc
    rcases hpy.ptr_cases hly hc with he | ⟨d,hd,he,hlt⟩ <;> rw [Stops,he] <;> omega
  simp only [length_append,length_cons] at hfuel
  rcases mem_append.mp hb with hb | hb
  · -- in front of `p`
    obtain ⟨x₁,x₂,rfl⟩ := append_of_mem hb
    obtain ⟨k,rfl⟩ : ∃ k, fuel = (k+1)+(b::x₂).length := ⟨fuel-1-(b::x₂).length,by
      simp only [length_append,length_cons] at hfuel ⊢; omega⟩
    exact (spot_pass (path_append.mp hpx).2 fun c hc => hnox c (mem_append_right _ hc)).trans
      (hstops k)
  rcases mem_cons.mp hb with rfl | hb
  · obtain ⟨k,rfl⟩ : ∃ k, fuel = k+1 := ⟨fuel-1,by omega⟩
    exact hstops k
  · -- behind `p`: on to the end, and from the first block to `p`
    obtain ⟨y₁,y₂,rfl⟩ := append_of_mem hb
    obtain ⟨k,rfl⟩ : ∃ k, fuel = ((k+1)+x.length)+(b::y₂).length :=
      ⟨fuel-1-x.length-(b::y₂).length,by
        simp only [length_append,length_cons] at hfuel ⊢; omega⟩
    have hpass : h.spot bp ((k+1)+x.length) (first x p) = h.spot bp (k+1) p := spot_pass hpx hnox
    rw [hfirst] at hpass
    refine (spot_pass (path_append.mp hpy).2 fun c hc => ?_).trans (hpass.trans (hstops k))
    exact hnoy c (mem_append_right _ hc)

end spot

end Heap

end Xv6.Malloc
