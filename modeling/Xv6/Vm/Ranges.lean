import Xv6.Vm.User

/-! Ranges of user memory, page by page: which pages a range touches, where a loop over them
stops, and what a store to the range makes of an address space. -/
namespace Xv6.Vm

open Function List

/-- One of the `len` bytes from `va` on lies on page `v`. -/
def Touches (va len v : ℕ) : Prop := ∃ i < len, vpn (va+i) = v

instance (va len v : ℕ) : Decidable (Touches va len v) :=
  inferInstanceAs (Decidable (∃ i < len, vpn (va+i) = v))

/-- The first address after the page of `va`. -/
abbrev nextPage (va : ℕ) : ℕ := PGROUNDDOWN va + PGSIZE

section Touches

variable {va len v m : ℕ}

theorem touches_iff : Touches va len v ↔ 0 < len ∧ va < (v+1)*PGSIZE ∧ v*PGSIZE < va+len := by
  simp only [Touches,vpn,PGSIZE_eq]
  constructor
  · rintro ⟨i,hi,rfl⟩
    omega
  · rintro ⟨hlen,hlo,hhi⟩
    by_cases hv : v*4096 ≤ va
    · exact ⟨0,hlen,by omega⟩
    · exact ⟨v*4096-va,by omega,by omega⟩

theorem touches_first (h : 0 < len) : Touches va len (vpn va) := ⟨0,h,rfl⟩

theorem Touches.le (h : Touches va len v) : vpn va ≤ v := by
  obtain ⟨i,-,rfl⟩ := h
  exact Nat.div_le_div_right (Nat.le_add_right va i)

theorem touches_step (h : 0 < len) : Touches va len v ↔
    v = vpn va ∨ Touches (nextPage va) (len-chunkOf va len) v := by
  rw [touches_iff,touches_iff]
  simp only [nextPage,PGROUNDDOWN,chunkOf,vpn,PGSIZE_eq]
  omega

theorem not_touches_first : ¬ Touches (nextPage va) m (vpn va) := by
  rw [touches_iff]
  simp only [nextPage,PGROUNDDOWN,vpn,PGSIZE_eq]
  omega

theorem chunkOf_le (va len : ℕ) : chunkOf va len ≤ len := Nat.min_le_right ..

theorem chunkOf_fits (va len : ℕ) : va % PGSIZE+chunkOf va len ≤ PGSIZE := by
  have hlt : va % PGSIZE < PGSIZE := Nat.mod_lt _ (by norm_num)
  rw [chunkOf]
  omega

/-- Unless all bytes lie on the first page, those on it end with the page. -/
theorem chunkOf_cases (va len : ℕ) :
    chunkOf va len = len ∨ va+chunkOf va len = nextPage va := by
  simp only [nextPage,PGROUNDDOWN,chunkOf,PGSIZE_eq]
  omega

/-- What comes before page `v` of the bytes, after those on the first page. -/
theorem Touches.before (h : Touches (nextPage va) (len-chunkOf va len) v) :
    v*PGSIZE-va = chunkOf va len+(v*PGSIZE-nextPage va) ∧ va+chunkOf va len = nextPage va ∧
      chunkOf va (min (v*PGSIZE-va) len) = chunkOf va len := by
  rw [touches_iff] at h
  simp only [nextPage,PGROUNDDOWN,chunkOf,PGSIZE_eq] at *
  omega

end Touches

/-- The first page of the range that is not ready. -/
structure FirstBad (ready : ℕ → Prop) (va len v : ℕ) : Prop where
  touches : Touches va len v
  bad : ¬ ready v
  before : ∀ u < v, Touches va len u → ready u

/-- A loop over the pages of the `len` bytes from `va` on has come through with `m` bytes: to
the end, or to the first page that is not ready. -/
def StopsAt (ready : ℕ → Prop) (va len : ℕ) (b : Bool) (m : ℕ) : Prop :=
  if b then m = len ∧ ∀ v, Touches va len v → ready v
  else ∃ v, FirstBad ready va len v ∧ m = v*PGSIZE - va

section StopsAt

variable {ready ready' : ℕ → Prop} {va len m : ℕ} {b : Bool}

theorem stopsAt_nil (ready : ℕ → Prop) (va : ℕ) : StopsAt ready va 0 true 0 :=
  ⟨rfl,fun _ hv => absurd (touches_iff.mp hv).1 (lt_irrefl 0)⟩

theorem stopsAt_first (hlen : 0 < len) (h : ¬ ready (vpn va)) : StopsAt ready va len false 0 := by
  refine ⟨vpn va,⟨touches_first hlen,h,fun u hu ht => absurd ht.le (not_le.mpr hu)⟩,?_⟩
  exact (Nat.sub_eq_zero_of_le (Nat.div_mul_le_self va PGSIZE)).symm

theorem StopsAt.cons (h : StopsAt ready' (nextPage va) (len-chunkOf va len) b m) (hlen : 0 < len)
    (hfirst : ready (vpn va))
    (hrest : ∀ v, Touches (nextPage va) (len-chunkOf va len) v → (ready v ↔ ready' v)) :
    StopsAt ready va len b (chunkOf va len+m) := by
  cases b with
  | true =>
    obtain ⟨hm,hall⟩ := h
    refine ⟨by rw [hm]; exact Nat.add_sub_of_le (chunkOf_le va len),fun v hv => ?_⟩
    rcases (touches_step hlen).mp hv with rfl | hv
    · exact hfirst
    · exact (hrest v hv).mpr (hall v hv)
  | false =>
    obtain ⟨v,⟨hv,hnot,hbefore⟩,hm⟩ := h
    refine ⟨v,⟨(touches_step hlen).mpr (Or.inr hv),fun hr => hnot ((hrest v hv).mp hr),
      fun u hu ht => ?_⟩,by rw [hm,hv.before.1]⟩
    rcases (touches_step hlen).mp ht with rfl | ht
    · exact hfirst
    · exact (hrest u ht).mpr (hbefore u hu ht)

theorem StopsAt.all_iff (h : StopsAt ready va len b m) :
    b = true ↔ ∀ v, Touches va len v → ready v := by
  cases b with
  | true => exact iff_of_true rfl h.2
  | false =>
    obtain ⟨v,hv,-⟩ := h
    exact iff_of_false Bool.false_ne_true fun hall => hv.bad (hall v hv.touches)

theorem StopsAt.le (h : StopsAt ready va len b m) : m ≤ len := by
  cases b with
  | true => exact h.1.le
  | false =>
    obtain ⟨v,hv,rfl⟩ := h
    have hlt := (touches_iff.mp hv.touches).2.2
    omega

/-- The loop came through ready pages only. -/
theorem StopsAt.passed (h : StopsAt ready va len b m) {v : ℕ} (hv : Touches va m v) : ready v := by
  cases b with
  | true => exact h.2 v (h.1 ▸ hv)
  | false =>
    obtain ⟨w,hw,rfl⟩ := h
    obtain ⟨hpos,hlo,hhi⟩ := touches_iff.mp hv
    have hw' := touches_iff.mp hw.touches
    refine hw.before v (Nat.lt_of_mul_lt_mul_right (a := PGSIZE) (by omega)) ?_
    exact touches_iff.mpr ⟨by omega,hlo,by omega⟩

end StopsAt

namespace Space

variable (A : Space)

/-- The flags and the bytes of a page, once it is there. -/
def seen (v : ℕ) : ℕ × Page := (A v).getD (faultFlags,Bytes.zero PGSIZE)

/-- The pages of a range are made present. -/
def touch (va len : ℕ) : Space := fun v => if Touches va len v then some (A.seen v) else A v

/-- Page `v` with the bytes `src` at `va` and after. -/
def overlay (x : Page) (v va : ℕ) (src : List UInt8) : Page := fun i =>
  if va ≤ v*PGSIZE+i ∧ v*PGSIZE+i < va+src.length then src.getD (v*PGSIZE+i-va) 0 else x i

/-- The bytes `src` are stored at `va`. -/
def put (va : ℕ) (src : List UInt8) : Space := fun v =>
  (A.touch va src.length v).map fun x => (x.1,overlay x.2 v va src)

/-- The user's byte at `va`. -/
def byte (va : ℕ) : UInt8 := (A.seen (vpn va)).2.byte (va % PGSIZE)

def bytes (va len : ℕ) : List UInt8 := (List.range len).map fun i => A.byte (va+i)

end Space

section Put

variable {A : Space} {va len v : ℕ} {xs ys src : List UInt8}

theorem seen_of_some {x : ℕ × Page} (h : A v = some x) : A.seen v = x := by
  rw [Space.seen,h,Option.getD_some]

theorem seen_of_logical {sz : ℕ} {x : ℕ × Page} (h : A.logical sz v = some x) : A.seen v = x := by
  cases hA : A v with
  | some y =>
    rw [logical_of_some hA] at h
    rw [seen_of_some hA]
    exact Option.some.inj h
  | none =>
    rw [logical_of_none hA] at h
    rw [Space.seen,hA,Option.getD_none]
    split at h
    · exact Option.some.inj h
    · cases h

theorem seen_update_of_ne {u : ℕ} {x : Option (ℕ × Page)} (h : u ≠ v) :
    Space.seen (update A v x) u = A.seen u := by
  rw [Space.seen,Space.seen,update_of_ne h]

theorem touch_zero : A.touch va 0 = A :=
  funext fun _ => if_neg fun h => absurd (touches_iff.mp h).1 (lt_irrefl 0)

theorem touch_step (h : 0 < len) : A.touch va len =
    Space.touch (update A (vpn va) (some (A.seen (vpn va)))) (nextPage va)
      (len-chunkOf va len) := by
  funext v
  unfold Space.touch
  by_cases hv : v = vpn va
  · rw [hv,if_pos (touches_first h),if_neg not_touches_first,update_self]
  · rw [seen_update_of_ne hv,update_of_ne hv]
    refine if_congr ?_ rfl rfl
    rw [touches_step h,or_iff_right hv]

theorem overlay_byte (x : Page) (v va : ℕ) (src : List UInt8) {i : ℕ} (hi : i < PGSIZE) :
    (Space.overlay x v va src).byte i =
      if va ≤ v*PGSIZE+i ∧ v*PGSIZE+i < va+src.length then src.getD (v*PGSIZE+i-va) 0
      else x.byte i := by
  simp only [Bytes.byte,Space.overlay,hi,dite_true]

theorem overlay_of_not_touches (x : Page) (h : ¬ Touches va src.length v) :
    Space.overlay x v va src = x := by
  funext i
  refine if_neg fun hi => h ⟨v*PGSIZE+i-va,by omega,?_⟩
  have hlt : i.val < PGSIZE := i.isLt
  rw [vpn,Nat.add_sub_of_le hi.1,Nat.mul_comm,Nat.mul_add_div (by norm_num),Nat.div_eq_of_lt hlt,
    Nat.add_zero]

theorem put_nil : A.put va [] = A := by
  funext v
  rw [Space.put,length_nil,touch_zero]
  cases A v with
  | none => rfl
  | some x => rw [Option.map_some,overlay_of_not_touches _ fun h => absurd (touches_iff.mp h).1 (lt_irrefl 0)]

theorem put_of_not_touches (h : ¬ Touches va src.length v) : A.put va src v = A v := by
  rw [Space.put,Space.touch,if_neg h]
  cases A v with
  | none => rfl
  | some x => rw [Option.map_some,overlay_of_not_touches _ h]

theorem put_of_touches (h : Touches va src.length v) :
    A.put va src v = some ((A.seen v).1,Space.overlay (A.seen v).2 v va src) := by
  rw [Space.put,Space.touch,if_pos h,Option.map_some]

theorem chunkOf_take (m : ℕ) (src : List UInt8) :
    chunkOf va (src.take (chunkOf va src.length+m)).length = chunkOf va src.length := by
  rw [length_take]
  simp only [chunkOf]
  omega

theorem overlay_first (x : Page) (m : ℕ) (src : List UInt8) :
    Space.overlay x (vpn va) va (src.take (chunkOf va src.length+m)) =
      x.splice (va % PGSIZE) (src.take (chunkOf va src.length)) := by
  funext i
  have hlt : i.val < PGSIZE := i.isLt
  have hva : vpn va*PGSIZE+va % PGSIZE = va := Nat.div_add_mod' va PGSIZE
  have hcases := chunkOf_cases va src.length
  rw [nextPage,PGROUNDDOWN_eq] at hcases
  have hle := chunkOf_le va src.length
  have hiff : (va ≤ vpn va*PGSIZE+i ∧
      vpn va*PGSIZE+i < va+(src.take (chunkOf va src.length+m)).length) ↔
      (va % PGSIZE ≤ i.val ∧ i.val < va % PGSIZE+(src.take (chunkOf va src.length)).length) := by
    rw [length_take,length_take]
    omega
  by_cases hi : va % PGSIZE ≤ i.val ∧ i.val < va % PGSIZE+(src.take (chunkOf va src.length)).length
  · have hlen := hi.2
    rw [length_take] at hlen
    rw [Space.overlay,if_pos (hiff.mpr hi),Bytes.splice,if_pos hi,getD_eq_getElem?_getD,
      getD_eq_getElem?_getD,List.getElem?_take_of_lt (by omega),
      List.getElem?_take_of_lt (by omega),show vpn va*PGSIZE+i-va = i-va % PGSIZE by omega]
  · rw [Space.overlay,if_neg (mt hiff.mp hi),Bytes.splice,if_neg hi]

theorem overlay_rest (x : Page) {m : ℕ} {src : List UInt8} (hv : vpn va < v)
    (h : va+chunkOf va src.length = nextPage va) :
    Space.overlay x v va (src.take (chunkOf va src.length+m)) =
      Space.overlay x v (nextPage va) ((src.drop (chunkOf va src.length)).take m) := by
  funext i
  have hle := chunkOf_le va src.length
  have hnext : nextPage va ≤ v*PGSIZE+i := by
    have hmul : (vpn va+1)*PGSIZE ≤ v*PGSIZE := Nat.mul_le_mul_right PGSIZE hv
    rw [Nat.add_mul,Nat.one_mul] at hmul
    exact hmul.trans (Nat.le_add_right _ _)
  have hiff : (va ≤ v*PGSIZE+i ∧ v*PGSIZE+i < va+(src.take (chunkOf va src.length+m)).length) ↔
      (nextPage va ≤ v*PGSIZE+i ∧
        v*PGSIZE+i < nextPage va+((src.drop (chunkOf va src.length)).take m).length) := by
    rw [length_take,length_take,length_drop]
    omega
  by_cases hi : nextPage va ≤ v*PGSIZE+i ∧
      v*PGSIZE+i < nextPage va+((src.drop (chunkOf va src.length)).take m).length
  · have hlen := hi.2
    rw [length_take,length_drop] at hlen
    rw [Space.overlay,if_pos (hiff.mpr hi),Space.overlay,if_pos hi,getD_eq_getElem?_getD,
      getD_eq_getElem?_getD,List.getElem?_take_of_lt (by omega),
      List.getElem?_take_of_lt (by omega),List.getElem?_drop,
      show v*PGSIZE+i-va = chunkOf va src.length+(v*PGSIZE+i-nextPage va) by omega]
  · rw [Space.overlay,if_neg (mt hiff.mp hi),Space.overlay,if_neg hi]

/-- The bytes on the first page are stored first. -/
theorem put_step {src : List UInt8} (h : src ≠ []) (m : ℕ) :
    A.put va (src.take (chunkOf va src.length+m)) =
      Space.put (update A (vpn va) (some ((A.seen (vpn va)).1,
          (A.seen (vpn va)).2.splice (va % PGSIZE) (src.take (chunkOf va src.length)))))
        (nextPage va) ((src.drop (chunkOf va src.length)).take m) := by
  have hlen : 0 < src.length := length_pos_iff.mpr h
  have hpos : 0 < chunkOf va src.length := chunkOf_pos hlen.ne'
  have htake : 0 < (src.take (chunkOf va src.length+m)).length := by
    rw [length_take]
    omega
  have hleft : (src.take (chunkOf va src.length+m)).length-chunkOf va src.length =
      ((src.drop (chunkOf va src.length)).take m).length := by
    rw [length_take,length_take,length_drop]
    omega
  funext v
  by_cases hv : v = vpn va
  · rw [hv,put_of_touches (touches_first htake),put_of_not_touches not_touches_first,
      update_self,overlay_first]
  · have hiff : Touches va (src.take (chunkOf va src.length+m)).length v ↔
        Touches (nextPage va) ((src.drop (chunkOf va src.length)).take m).length v := by
      rw [touches_step htake,or_iff_right hv,chunkOf_take,hleft]
    by_cases ht : Touches (nextPage va) ((src.drop (chunkOf va src.length)).take m).length v
    · have hle := (hiff.mpr ht).le
      have hfull : va+chunkOf va src.length = nextPage va := by
        rcases chunkOf_cases va src.length with hall | hfull
        · have hz := (touches_iff.mp ht).1
          rw [hall,length_take,length_drop,Nat.sub_self] at hz
          omega
        · exact hfull
      rw [put_of_touches (hiff.mpr ht),put_of_touches ht,seen_update_of_ne hv,
        overlay_rest _ (by omega) hfull]
    · rw [put_of_not_touches (mt hiff.mp ht),put_of_not_touches ht,update_of_ne hv]

end Put

end Xv6.Vm
