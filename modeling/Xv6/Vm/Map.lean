import Xv6.Vm.Walk

/-! A page table as a map from virtual page numbers to physical pages with flags. -/
namespace Xv6.Vm

open Prog Function

/-- The word that `mappages` stores for a page. -/
def pteWord (pa perm : ℕ) : ℕ := PA2PTE pa ||| perm ||| PTE_V

/-- The physical page and the flags of a valid entry. -/
def decode (pte : ℕ) : Option (ℕ × ℕ) :=
  if pte &&& PTE_V ≠ 0 then some (PTE2PA pte,PTE_FLAGS pte) else none

theorem decode_zero : decode 0 = none := rfl

theorem decode_eq_none {pte : ℕ} : decode pte = none ↔ pte &&& PTE_V = 0 := by
  by_cases hv : pte &&& PTE_V = 0
  · rw [decode,if_neg (not_not.mpr hv)]
    exact iff_of_true rfl hv
  · rw [decode,if_pos hv]
    exact iff_of_false (Option.some_ne_none _) hv

theorem decode_pteWord {pa perm : ℕ} (hperm : perm < 2^10) (ha : pa % PGSIZE = 0)
    (hpa : pa < 2^56) : decode (pteWord pa perm) = some (pa,perm ||| PTE_V) := by
  have hv : pteWord pa perm &&& PTE_V ≠ 0 := by
    rw [and_flag (by norm_num),pteWord,PTE_FLAGS_pte hperm,Nat.and_or_distrib_right,Nat.and_self]
    exact fun h => absurd (Nat.or_eq_zero_iff.mp h).2 (by decide)
  rw [decode,if_pos hv,pteWord,PTE2PA_pte hperm ha hpa,PTE_FLAGS_pte hperm]

theorem decode_clear {pte : ℕ} (h : pte < 2^64) : decode (pte &&& (2^64-1-PTE_U)) =
    (decode pte).map fun x => (x.1,x.2 &&& (2^10-1-PTE_U)) := by
  have hv : pte &&& (2^64-1-PTE_U) &&& PTE_V = pte &&& PTE_V := by
    rw [Nat.and_assoc]
    rfl
  obtain ⟨hpa,hflags⟩ := clear_user h
  rw [decode,decode,hv,hpa,hflags]
  by_cases hz : pte &&& PTE_V ≠ 0
  · rw [if_pos hz,if_pos hz]
    rfl
  · rw [if_neg hz,if_neg hz]
    rfl

/-- The lookup of `va` by `walk(pagetable, va, 0)`. -/
def lookup (pagetable va : ℕ) : Op (Option (ℕ × ℕ)) := do
  match ← walk pagetable va false with
  | none => pure none
  | some (a,j) => do
    let pte ← load a j
    pure (decode pte)

section Entries

variable {P X : Multiset ℕ} {s : Ram} {T : Tree} {va pa perm n : ℕ}

theorem Stored.lookup_run (h : Stored P s T) (hva : va < MAXVA) :
    (lookup T.root va).run s = .ok (decode (T.leaf (vpn va)),s) := by
  rw [lookup,run_bind_of_run (h.walk_lookup hva)]
  cases hn : T.node 0 (vpn va/512) with
  | none =>
    rw [T.leaf_page _ hn]
    rfl
  | some a =>
    rw [← h.word_leaf hn]
    rfl

theorem Stored.leaf_lt (h : Stored P s T) (v : ℕ) : T.leaf v < 2^64 := by
  cases hn : T.node 0 (v/512) with
  | none =>
    rw [T.leaf_page v hn]
    norm_num
  | some a =>
    have hw := h.holds.outer _ a hn (v%512) (Nat.mod_lt _ (by norm_num))
    rw [Nat.div_add_mod] at hw
    rw [← hw]
    exact Ram.word_lt

theorem vpn_step : vpn (va+PGSIZE) = vpn va+1 := by
  rw [vpn,Nat.add_div_right _ (by norm_num),vpn]

/-- The words of the pages `v .. v+n-1` after they were mapped to `pa` on. -/
def mapped (leaf : ℕ → ℕ) (v n pa perm : ℕ) : ℕ → ℕ := fun u =>
  if v ≤ u ∧ u < v+n then pteWord (pa + (u-v)*PGSIZE) perm else leaf u

theorem mapped_zero (leaf : ℕ → ℕ) (v pa perm : ℕ) : mapped leaf v 0 pa perm = leaf := by
  funext u
  rw [mapped,if_neg (by omega)]

theorem mapped_succ (leaf : ℕ → ℕ) (v n pa perm : ℕ) :
    mapped (update leaf v (pteWord pa perm)) (v+1) n (pa+PGSIZE) perm =
      mapped leaf v (n+1) pa perm := by
  funext u
  rw [mapped,mapped]
  by_cases hu : u = v
  · subst hu
    rw [if_neg (by omega),if_pos (by omega),update_self,Nat.sub_self,Nat.zero_mul,
      Nat.add_zero]
  · rw [update_of_ne hu]
    by_cases hin : v+1 ≤ u ∧ u < v+1+n
    · have hpa : pa+PGSIZE+(u-(v+1))*PGSIZE = pa+(u-v)*PGSIZE := by
        rw [show u-v = u-(v+1)+1 by omega]
        ring
      rw [if_pos hin,if_pos (by omega),hpa]
    · rw [if_neg hin,if_neg (by omega)]

/-- What `mappages` leaves behind: the first `k` of its pages are mapped, all of them exactly
when it succeeds. -/
structure MapPost (X : Multiset ℕ) (s : Ram) (T : Tree) (v n pa perm : ℕ) (r : Bool) (t : Ram)
    (T' : Tree) (k : ℕ) : Prop where
  tab : Tab X t T'
  root : T'.root = T.root
  leaf : T'.leaf = mapped T.leaf v k pa perm
  count : k ≤ n
  all : r = true ↔ k = n
  mem : ∀ a ∉ X, t.mem a = s.mem a
  consts : t.consts = s.consts
  free : t.free.length ≤ s.free.length

theorem Tab.mapFrom_meets (h : Tab X s T) (hva : va+n*PGSIZE ≤ MAXVA)
    (hpa : pa+n*PGSIZE ≤ 2^56) (hperm : perm < 2^10) :
    Meets (mapFrom T.root perm n va pa) s
      (fun r t => (∃ T' k, MapPost X s T (vpn va) n pa perm r t T' k) ∧
        ∀ k, Plenty (2*n+k) s → Plenty k t ∧ r = true)
      (fun e => e = .remap ∧ ∃ v, vpn va ≤ v ∧ v < vpn va+n ∧ T.leaf v &&& PTE_V ≠ 0) := by
  induction n generalizing s T va pa with
  | zero =>
    refine meets_of_run rfl ⟨⟨T,0,h,rfl,(mapped_zero ..).symm,Nat.le_refl 0,by simp,fun _ _ => rfl,
      rfl,Nat.le_refl _⟩,fun k hk => ⟨?_,rfl⟩⟩
    rwa [Nat.mul_zero,Nat.zero_add] at hk
  | succ n ih =>
    have hpg : 0 < PGSIZE := by norm_num
    rw [Nat.succ_mul] at hva hpa
    rw [mapFrom]
    refine (h.walk_alloc (by omega)).bind_meets fun r t hpost => ?_
    obtain ⟨⟨T₁,h₁,hr⟩,hplenty⟩ := hpost
    cases r with
    | none =>
      refine meets_of_run rfl ⟨⟨T₁,0,h₁.tab,h₁.root,?_,Nat.zero_le _,by simp,h₁.mem,h₁.consts,
        h₁.free⟩,fun k hk => ?_⟩
      · rw [h₁.leaf,mapped_zero]
      · exact absurd rfl (hplenty (2*n+k) (by rwa [show 2+(2*n+k) = 2*(n+1)+k by ring])).2
    | some x =>
      obtain ⟨b,j⟩ := x
      obtain ⟨hb,rfl⟩ := hr _ rfl
      have hload : (load b (vpn va % 512)).run t = .ok (T.leaf (vpn va),t) := by
        rw [← h₁.leaf,← h₁.tab.stored.word_leaf hb]
        rfl
      refine meets_bind_of_run hload ?_
      by_cases hv : T.leaf (vpn va) &&& PTE_V ≠ 0
      · rw [if_pos hv]
        exact meets_of_error rfl ⟨rfl,vpn va,Nat.le_refl _,by omega,hv⟩
      · rw [if_neg hv]
        have hne : T₁.node 0 (vpn va/512) ≠ none := by
          rw [hb]
          exact Option.some_ne_none b
        have hlt : pteWord pa perm < 2^64 := pte_lt (by omega) hperm
        have hset := h₁.tab.stored.setLeaf hb hlt hne
        have hbX : b ∈ X := h₁.tab.mem_of_pages (Radix.mem_pages_of_node (Nat.zero_le 2) hb)
        have htab : Tab X (t.setWord b (vpn va % 512) (pteWord pa perm))
            (T₁.setLeaf (vpn va) (pteWord pa perm) hne) :=
          ⟨hset.holds,h₁.tab.total,h.nodup,h.page⟩
        refine meets_bind_of_run (a := ()) (t := t.setWord b (vpn va % 512) (pteWord pa perm)) rfl ?_
        have hva' : (va+PGSIZE)+n*PGSIZE ≤ MAXVA := by omega
        have hpa' : (pa+PGSIZE)+n*PGSIZE ≤ 2^56 := by omega
        have hrec := ih htab hva' hpa'
        rw [vpn_step] at hrec
        rw [← h₁.root]
        refine (hrec.mono fun r u hQ => ?_).error fun e hE => ?_
        · obtain ⟨⟨T₂,k,h₂⟩,hmore⟩ := hQ
          refine ⟨⟨T₂,k+1,h₂.tab,h₂.root.trans h₁.root,?_,by have := h₂.count; omega,?_,?_,
            h₂.consts.trans h₁.consts,h₂.free.trans h₁.free⟩,fun k hk => ?_⟩
          · have hleaf : (T₁.setLeaf (vpn va) (pteWord pa perm) hne).leaf =
                update T.leaf (vpn va) (pteWord pa perm) := by
              rw [← h₁.leaf]
              rfl
            rw [h₂.leaf,hleaf,mapped_succ]
          · rw [h₂.all]
            omega
          · intro a ha
            have hab : a ≠ b := fun he => ha (he ▸ hbX)
            rw [h₂.mem a ha,Ram.mem_setWord_of_ne hab,h₁.mem a ha]
          · have hp := (hplenty (2*n+k) (by rwa [show 2+(2*n+k) = 2*(n+1)+k by ring])).1
            exact hmore k hp
        · obtain ⟨he,v,hv1,hv2,hvalid⟩ := hE
          refine ⟨he,v,by omega,by omega,?_⟩
          have hother : (T₁.setLeaf (vpn va) (pteWord pa perm) hne).leaf v = T.leaf v := by
            rw [← h₁.leaf]
            exact update_of_ne (by omega) ..
          rwa [hother] at hvalid

theorem Stored.unmapPage_absent (h : Stored P s T) (hva : va < MAXVA)
    (hv : T.leaf (vpn va) &&& PTE_V = 0) (doFree : Bool) :
    (unmapPage T.root doFree va).run s = .ok ((),s) := by
  rw [unmapPage,run_bind_of_run (h.walk_lookup hva)]
  cases hn : T.node 0 (vpn va/512) with
  | none => rfl
  | some b =>
    have hload : (load b (vpn va % 512)).run s = .ok (T.leaf (vpn va),s) := by
      rw [← h.word_leaf hn]
      rfl
    change (load b (vpn va % 512) >>= _).run s = _
    rw [run_bind_of_run hload,if_pos hv]
    rfl

theorem Stored.unmapPage_present (h : Stored P s T) (hva : va < MAXVA)
    (hv : T.leaf (vpn va) &&& PTE_V ≠ 0) (doFree : Bool) :
    ∃ b, T.node 0 (vpn va/512) = some b ∧ (unmapPage T.root doFree va).run s =
      (kfreeIf doFree (PTE2PA (T.leaf (vpn va))) >>= fun _ => store b (vpn va % 512) 0).run s := by
  cases hn : T.node 0 (vpn va/512) with
  | none =>
    rw [T.leaf_page _ hn] at hv
    exact absurd rfl hv
  | some b =>
    refine ⟨b,rfl,?_⟩
    have hload : (load b (vpn va % 512)).run s = .ok (T.leaf (vpn va),s) := by
      rw [← h.word_leaf hn]
      rfl
    rw [unmapPage,run_bind_of_run (h.walk_lookup hva),hn]
    change (load b (vpn va % 512) >>= _).run s = _
    rw [run_bind_of_run hload,if_neg hv]

theorem kfree_run (pa : ℕ) (s : Ram) : (kfree pa).run s =
    if pa = 0 then .ok ((),s)
    else if pa % PGSIZE ≠ 0 ∨ pa < s.kend ∨ PHYSTOP ≤ pa then .error .kfree
    else if s.debug ∧ pa ∈ s.free then .error .doubleFree
    else .ok ((),s.push pa) := by
  by_cases hz : pa = 0
  · rw [kfree,if_pos hz,if_pos hz]
    rfl
  · rw [kfree,if_neg hz,if_neg hz,run_bind_of_run (a := s) (t := s) rfl]
    by_cases hbad : pa % PGSIZE ≠ 0 ∨ pa < s.kend ∨ PHYSTOP ≤ pa
    · rw [if_pos hbad,if_pos hbad]
      rfl
    · rw [if_neg hbad,if_neg hbad]
      by_cases htwice : s.debug ∧ pa ∈ s.free
      · rw [if_pos htwice,if_pos htwice]
        rfl
      · rw [if_neg htwice,if_neg htwice]
        rfl

/-- The word of a page whose mapping is gone. -/
def dropped (pte : ℕ) : ℕ := if pte &&& PTE_V = 0 then pte else 0

theorem decode_dropped (pte : ℕ) : decode (dropped pte) = none := by
  by_cases hv : pte &&& PTE_V = 0
  · rw [dropped,if_pos hv,decode_eq_none.mpr hv]
  · rw [dropped,if_neg hv,decode_zero]

/-- The words of all pages after the pages `v .. v+n-1` were unmapped. -/
def unmapped (leaf : ℕ → ℕ) (v n : ℕ) : ℕ → ℕ := fun u =>
  if v ≤ u ∧ u < v+n then dropped (leaf u) else leaf u

theorem unmapped_zero (leaf : ℕ → ℕ) (v : ℕ) : unmapped leaf v 0 = leaf := by
  funext u
  rw [unmapped,if_neg (by omega)]

theorem unmapped_succ (leaf : ℕ → ℕ) (v n : ℕ) :
    unmapped leaf v (n+1) = update (unmapped leaf v n) (v+n) (dropped (leaf (v+n))) := by
  funext u
  by_cases hu : u = v+n
  · rw [hu,update_self,unmapped,if_pos (by omega)]
  · rw [update_of_ne hu,unmapped,unmapped]
    by_cases hin : v ≤ u ∧ u < v+n
    · rw [if_pos hin,if_pos (by omega)]
    · rw [if_neg hin,if_neg (by omega)]

theorem unmapped_self (leaf : ℕ → ℕ) (v n : ℕ) : unmapped leaf v n (v+n) = leaf (v+n) :=
  if_neg (by omega)

theorem vpn_add (i : ℕ) : vpn (va+i*PGSIZE) = vpn va+i :=
  Nat.add_mul_div_right va i (by norm_num)

theorem unmapRounds_eq (h : va+n*PGSIZE ≤ MAXVA) : unmapRounds va n = n := by
  have hlt : va+n*PGSIZE < 2^64 := Nat.lt_of_le_of_lt h (by norm_num)
  rw [unmapRounds,Nat.mod_eq_of_lt hlt,Nat.add_sub_cancel_left,Nat.mul_div_cancel _ (by norm_num)]

end Entries
end Xv6.Vm
