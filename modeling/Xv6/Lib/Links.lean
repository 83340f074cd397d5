import Mathlib.Data.List.Chain
import Mathlib.Data.List.Nodup
import Mathlib.Logic.Function.Basic

/-! Circular doubly linked lists through a header node.
`Holds l xs` says that the pointers of `l` spell the list `xs`: following `next` from
the header visits `xs` in order, following `prev` visits it backwards. -/
namespace Xv6

open List

/-- The pointer fields of all nodes; `none` is the header. -/
structure Links (ι : Type) where
  next : Option ι → Option ι
  prev : Option ι → Option ι

namespace Links

variable {ι : Type}

/-- A header that points to itself. -/
def empty : Links ι := ⟨fun _ => none,fun _ => none⟩

/-- The first node at or after `p` that meets `cond`, along the pointers `ptr`;
the walk stops at the header.  `fuel` bounds the number of nodes visited. -/
def walk (ptr : Option ι → Option ι) (cond : ι → Bool) : ℕ → Option ι → Option ι
  | 0, _ => none
  | _+1, none => none
  | fuel+1, some b => if cond b then some b else walk ptr cond fuel (ptr (some b))

theorem walk_some {ptr : Option ι → Option ι} {cond : ι → Bool} {fuel : ℕ} {a : Option ι} {b : ι}
    (h : walk ptr cond fuel a = some b) : cond b = true := by
  fun_induction walk ptr cond fuel a with
  | case1 | case2 => cases h
  | case3 => exact Option.some.inj h ▸ ‹_›
  | case4 _ _ _ ih => exact ih h

/-- Neighbours in both directions. -/
def Linked (l : Links ι) (a b : Option ι) : Prop := l.next a = b ∧ l.prev b = a

/-- The nodes in the order of the list, between two visits to the header. -/
abbrev ring (xs : List ι) : List (Option ι) := none::(xs.map some++[none])

structure Holds (l : Links ι) (xs : List ι) : Prop where
  nodup : xs.Nodup
  chain : (ring xs).IsChain l.Linked

theorem holds_empty : (empty : Links ι).Holds [] :=
  ⟨nodup_nil,by simp [ring,Linked,empty]⟩

theorem exists_head (xs : List ι) : ∃ q vs, xs.map some++[none] = q::vs := by
  cases xs with
  | nil => exact ⟨none,[],rfl⟩
  | cons x xs => exact ⟨some x,xs.map some++[none],rfl⟩

theorem exists_last (xs : List ι) : ∃ us p, none::xs.map some = us++[p] := by
  refine ⟨(none::xs.map some).dropLast,(none::xs.map some).getLast (by simp),?_⟩
  rw [dropLast_append_getLast]

theorem walk_chain {ptr : Option ι → Option ι} (cond : ι → Bool) {xs : List ι} {a : Option ι}
    (h : (a::(xs.map some++[none])).IsChain fun x y => ptr x = y) {fuel : ℕ}
    (hf : xs.length < fuel) : walk ptr cond fuel (ptr a) = xs.find? cond := by
  induction xs generalizing a fuel with
  | nil =>
    obtain ⟨k,rfl⟩ : ∃ k, fuel = k+1 := ⟨fuel-1,by simp at hf; omega⟩
    have ha : ptr a = none := by simpa using h
    simp [walk,ha]
  | cons x xs ih =>
    obtain ⟨k,rfl⟩ : ∃ k, fuel = k+1 := ⟨fuel-1,by simp at hf; omega⟩
    simp only [map_cons,cons_append,isChain_cons_cons] at h
    obtain ⟨ha,ht⟩ := h
    simp only [length_cons,Nat.add_lt_add_iff_right] at hf
    simp only [ha,walk,find?_cons]
    cases cond x with
    | true => rfl
    | false => exact ih ht hf

theorem Holds.walk_next {l : Links ι} {xs : List ι} (h : l.Holds xs) (cond : ι → Bool) {fuel : ℕ}
    (hf : xs.length < fuel) : walk l.next cond fuel (l.next none) = xs.find? cond :=
  walk_chain cond (h.chain.imp fun _ _ hab => hab.1) hf

theorem Holds.walk_prev {l : Links ι} {xs : List ι} (h : l.Holds xs) (cond : ι → Bool) {fuel : ℕ}
    (hf : xs.length < fuel) : walk l.prev cond fuel (l.prev none) = xs.reverse.find? cond := by
  have hrev : (ring xs.reverse).IsChain fun a b => l.prev a = b := by
    have hflip : (ring xs).IsChain fun b a => l.prev a = b := h.chain.imp fun _ _ hab => hab.2
    simpa [ring,map_reverse] using isChain_reverse.mpr hflip
  exact walk_chain cond hrev (by simpa using hf)

section update

variable [DecidableEq ι]

def setNext (l : Links ι) (a b : Option ι) : Links ι :=
  { l with next := Function.update l.next a b }

def setPrev (l : Links ι) (a b : Option ι) : Links ι :=
  { l with prev := Function.update l.prev a b }

/-- `b->next->prev = b->prev; b->prev->next = b->next`. -/
def unlink (l : Links ι) (b : ι) : Links ι :=
  let l := l.setPrev (l.next (some b)) (l.prev (some b))
  l.setNext (l.prev (some b)) (l.next (some b))

/-- `b->next = head.next; b->prev = head; head.next->prev = b; head.next = b`. -/
def pushFront (l : Links ι) (b : ι) : Links ι :=
  let l := l.setNext (some b) (l.next none)
  let l := l.setPrev (some b) none
  let l := l.setPrev (l.next none) (some b)
  l.setNext none (some b)

/-- Taking a node out disturbs no pair of neighbours that does not involve it. -/
theorem unlink_linked {l : Links ι} {b : ι} {p q x y : Option ι} (hp : l.Linked p (some b))
    (hq : l.Linked (some b) q) (hqb : q ≠ some b) (hx : x ≠ some b) (hy : y ≠ some b)
    (h : l.Linked x y) : (l.unlink b).Linked x y := by
  obtain ⟨hp1,hp2⟩ := hp
  obtain ⟨hq1,hq2⟩ := hq
  obtain ⟨h1,h2⟩ := h
  have hxp : x ≠ p := by
    rintro rfl
    exact hy (h1.symm.trans hp1)
  have hyq : y ≠ q := by
    rintro rfl
    exact hx (h2.symm.trans hq2)
  simp [unlink,setNext,setPrev,Linked,hq1,hp2,hqb.symm,hxp,hyq,h1,h2]

theorem unlink_joins {l : Links ι} {b : ι} {p q : Option ι} (hp : l.Linked p (some b))
    (hq : l.Linked (some b) q) (hqb : q ≠ some b) : (l.unlink b).Linked p q := by
  obtain ⟨hp1,hp2⟩ := hp
  obtain ⟨hq1,hq2⟩ := hq
  simp [unlink,setNext,setPrev,Linked,hq1,hp2,hqb.symm]

theorem holds_unlink {l : Links ι} {xs : List ι} {b : ι} (h : l.Holds xs) (hb : b ∈ xs) :
    (l.unlink b).Holds (xs.erase b) := by
  obtain ⟨as,bs,rfl⟩ := append_of_mem hb
  obtain ⟨us,p,hus⟩ := exists_last as
  obtain ⟨q,vs,hvs⟩ := exists_head bs
  have hnd := h.nodup
  rw [nodup_middle,nodup_cons,mem_append,not_or] at hnd
  obtain ⟨⟨hbas,hbbs⟩,hnd⟩ := hnd
  have hring : ring (as++b::bs) = us++p::some b::q::vs := by
    simp only [ring,map_append,map_cons,append_assoc,cons_append,hvs]
    rw [← cons_append,hus,append_assoc,singleton_append]
  have hring' : ring (as++bs) = us++p::q::vs := by
    simp only [ring,map_append,append_assoc,hvs]
    rw [← cons_append,hus,append_assoc,singleton_append]
  have hus' : ∀ x ∈ us++[p], x ≠ some b := by
    rintro x hx rfl
    rw [← hus] at hx
    simp at hx
    exact hbas hx
  have hvs' : ∀ x ∈ q::vs, x ≠ some b := by
    rintro x hx rfl
    rw [← hvs] at hx
    simp at hx
    exact hbbs hx
  have hchain := h.chain
  rw [hring,isChain_append_cons_cons,isChain_cons_cons] at hchain
  obtain ⟨hl,hp,hq,hr⟩ := hchain
  have hqb : q ≠ some b := hvs' q (by simp)
  rw [erase_append_right _ hbas,erase_cons_head]
  refine ⟨hnd,?_⟩
  rw [hring',isChain_append_cons_cons]
  refine ⟨hl.imp_of_mem_imp fun x y hx hy hxy => ?_,unlink_joins hp hq hqb,
    hr.imp_of_mem_imp fun x y hx hy hxy => ?_⟩
  · exact unlink_linked hp hq hqb (hus' x hx) (hus' y hy) hxy
  · exact unlink_linked hp hq hqb (hvs' x hx) (hvs' y hy) hxy

theorem holds_pushFront {l : Links ι} {xs : List ι} {b : ι} (h : l.Holds xs) (hb : b ∉ xs) :
    (l.pushFront b).Holds (b::xs) := by
  obtain ⟨q,vs,hvs⟩ := exists_head xs
  have hnd : (q::vs).Nodup := by
    rw [← hvs]
    exact nodup_append.mpr ⟨h.nodup.map fun _ _ => Option.some.inj,by simp,by simp⟩
  have hbq : ∀ x ∈ q::vs, x ≠ some b := by
    rintro x hx rfl
    rw [← hvs] at hx
    simp at hx
    exact hb hx
  have hchain := h.chain
  simp only [ring,hvs,isChain_cons_cons] at hchain
  obtain ⟨⟨hn,hp⟩,hr⟩ := hchain
  have hqb : q ≠ some b := hbq q (by simp)
  refine ⟨nodup_cons.mpr ⟨hb,h.nodup⟩,?_⟩
  simp only [ring,map_cons,cons_append,hvs,isChain_cons_cons]
  refine ⟨?_,?_,hr.imp_of_mem_tail_imp fun x y hx hy hxy => ?_⟩
  · simp [pushFront,setNext,setPrev,Linked,hn,hqb.symm]
  · simp [pushFront,setNext,setPrev,Linked,hn]
  · obtain ⟨h1,h2⟩ := hxy
    have hyq : y ≠ q := by
      rintro rfl
      exact (nodup_cons.mp hnd).1 hy
    have hx0 : x ≠ none := by
      rintro rfl
      exact hyq (h1.symm.trans hn)
    have hyb : y ≠ some b := hbq y (mem_of_mem_tail hy)
    simp [pushFront,setNext,setPrev,Linked,hn,hyq,hx0,hyb,hbq x hx,h1,h2]

end update

end Links
end Xv6
