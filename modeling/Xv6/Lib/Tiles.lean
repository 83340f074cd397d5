import Mathlib.Algebra.BigOperators.Group.List.Basic
import Mathlib.Algebra.GroupWithZero.Nat
import Mathlib.Data.List.Pairwise

/-! Disjoint spans of memory, each given by its first address and its length. -/
namespace Xv6

open List

abbrev Span := ℕ × ℕ

def Span.Apart (x y : Span) : Prop := x.1 + x.2 ≤ y.1 ∨ y.1 + y.2 ≤ x.1

instance : Std.Symm Span.Apart := ⟨fun _ _ h => h.symm⟩

def Span.Has (x : Span) (i : ℕ) : Prop := x.1 ≤ i ∧ i < x.1 + x.2

/-- How many addresses there are in some spans. -/
def extent (xs : List Span) : ℕ := (xs.map Prod.snd).sum

/-- Spans that are not empty and do not overlap, in memory that is owned. -/
structure Tiles (owned : ℕ → Prop) (xs : List Span) : Prop where
  pos : ∀ x ∈ xs, 0 < x.2
  apart : xs.Pairwise Span.Apart
  within : ∀ x ∈ xs, ∀ i, Span.Has x i → owned i

namespace Tiles

variable {owned owned' : ℕ → Prop} {xs ys : List Span} {x y : Span} {a m n : ℕ}

theorem perm (h : Tiles owned xs) (hp : xs.Perm ys) : Tiles owned ys where
  pos y hy := h.pos y (hp.mem_iff.mpr hy)
  apart := (hp.pairwise_iff fun h => h.symm).mp h.apart
  within y hy := h.within y (hp.mem_iff.mpr hy)

theorem tail (h : Tiles owned (x::xs)) : Tiles owned xs where
  pos y hy := h.pos y (mem_cons_of_mem x hy)
  apart := (pairwise_cons.mp h.apart).2
  within y hy := h.within y (mem_cons_of_mem x hy)

theorem apart_head (h : Tiles owned (x::xs)) (hy : y ∈ xs) : x.Apart y :=
  (pairwise_cons.mp h.apart).1 y hy

theorem owned_start (h : Tiles owned xs) (hx : x ∈ xs) : owned x.1 :=
  h.within x hx x.1 ⟨Nat.le_refl _,Nat.lt_add_of_pos_right (h.pos x hx)⟩

/-- Spans that overlap are the same. -/
theorem eq_of_has (h : Tiles owned xs) (hx : x ∈ xs) (hy : y ∈ xs) {i : ℕ} (hxi : x.Has i)
    (hyi : y.Has i) : x = y := by
  by_contra hne
  have hap : x.Apart y := h.apart.forall hx hy hne
  simp only [Span.Apart,Span.Has] at hap hxi hyi
  omega

/-- Two spans side by side become one. -/
theorem merge (h : Tiles owned ((a,m)::(a+m,n)::xs)) : Tiles owned ((a,m+n)::xs) where
  pos := by
    have hm : 0 < m := h.pos (a,m) mem_cons_self
    exact forall_mem_cons.mpr ⟨Nat.add_pos_left hm n,h.tail.tail.pos⟩
  apart := by
    refine pairwise_cons.mpr ⟨fun y hy => ?_,h.tail.tail.apart⟩
    have h1 : Span.Apart (a,m) y := h.apart_head (mem_cons_of_mem _ hy)
    have h2 : Span.Apart (a+m,n) y := h.tail.apart_head hy
    have hpos := h.tail.tail.pos y hy
    simp only [Span.Apart] at h1 h2 ⊢
    omega
  within := by
    rintro y hy i hi
    rcases mem_cons.mp hy with rfl | hy
    · simp only [Span.Has] at hi
      by_cases hlt : i < a+m
      · exact h.within (a,m) mem_cons_self i ⟨hi.1,hlt⟩
      · refine h.within (a+m,n) (mem_cons_of_mem _ mem_cons_self) i ⟨?_,?_⟩
        · exact Nat.le_of_not_lt hlt
        · change i < a+m+n
          omega
    · exact h.tail.tail.within y hy i hi

theorem split (h : Tiles owned ((a,m+n)::xs)) (hm : 0 < m) (hn : 0 < n) :
    Tiles owned ((a,m)::(a+m,n)::xs) where
  pos := forall_mem_cons.mpr ⟨hm,forall_mem_cons.mpr ⟨hn,h.tail.pos⟩⟩
  apart := by
    have hap : ∀ y ∈ xs, Span.Apart (a,m+n) y := fun y hy => h.apart_head hy
    simp only [Span.Apart] at hap
    refine pairwise_cons.mpr ⟨fun y hy => ?_,pairwise_cons.mpr ⟨fun y hy => ?_,
      h.tail.apart⟩⟩
    · rcases mem_cons.mp hy with rfl | hy
      · exact .inl (Nat.le_refl _)
      · have hy := hap y hy
        simp only [Span.Apart]
        omega
    · have hy := hap y hy
      simp only [Span.Apart]
      omega
  within := by
    have hwhole : ∀ i, a ≤ i → i < a+(m+n) → owned i := fun i hi hi' =>
      h.within (a,m+n) mem_cons_self i ⟨hi,hi'⟩
    simp only [forall_mem_cons,Span.Has]
    exact ⟨fun i hi => hwhole i (by omega) (by omega),
      fun i hi => hwhole i (by omega) (by omega),h.tail.within⟩

/-- A span of memory that was not owned. -/
theorem fresh (h : Tiles owned xs) (hpos : 0 < x.2) (hx : ∀ i, Span.Has x i → ¬owned i)
    (howned : ∀ i, owned i ∨ Span.Has x i → owned' i) : Tiles owned' (x::xs) where
  pos := forall_mem_cons.mpr ⟨hpos,h.pos⟩
  apart := by
    refine pairwise_cons.mpr ⟨fun y hy => ?_,h.apart⟩
    -- an address that both have would be owned
    by_contra hcon
    have hypos := h.pos y hy
    have hboth : Span.Has x (max x.1 y.1) ∧ Span.Has y (max x.1 y.1) := by
      simp only [Span.Has,Span.Apart,not_or] at hcon ⊢
      omega
    exact hx _ hboth.1 (h.within y hy _ hboth.2)
  within := by
    rw [forall_mem_cons]
    exact ⟨fun i hi => howned i (.inr hi),fun y hy i hi => howned i (.inl (h.within y hy i hi))⟩

end Tiles

theorem extent_perm {xs ys : List Span} (h : xs.Perm ys) : extent xs = extent ys :=
  (h.map Prod.snd).sum_eq

theorem extent_cons (x : Span) (xs : List Span) : extent (x::xs) = x.2+extent xs := by
  rw [extent,map_cons,sum_cons,extent]

theorem extent_append (xs ys : List Span) : extent (xs++ys) = extent xs+extent ys := by
  rw [extent,map_append,sum_append,extent,extent]

end Xv6
