import Xv6.Vm.Grow

/-! The kernel's access to user memory: `walkaddr` and `vmfault`. -/
namespace Xv6.Vm

open Prog Function

/-- The flags of a page that `vmfault` maps. -/
def faultFlags : ℕ := PTE_W ||| PTE_U ||| PTE_R ||| PTE_V

/-- No page from the trapframe on is accessible to the user. -/
def Guarded (A : Space) : Prop := ∀ v, UVPN ≤ v → ∀ x, A v = some x → x.1 &&& PTE_U = 0

/-- What the user sees of an address space of `sz` bytes: a page that is not there yet reads
as zero. -/
def Space.logical (A : Space) (sz : ℕ) : Space := fun v =>
  match A v with
  | some x => some x
  | none => if v*PGSIZE < sz then some (faultFlags,Bytes.zero PGSIZE) else none

section Logical

variable {A : Space} {sz v : ℕ} {x : ℕ × Page}

theorem logical_of_some (h : A v = some x) : A.logical sz v = some x := by
  rw [Space.logical,h]

theorem logical_of_none (h : A v = none) : A.logical sz v =
    if v*PGSIZE < sz then some (faultFlags,Bytes.zero PGSIZE) else none := by
  rw [Space.logical,h]

end Logical

section Access

variable {X E : Multiset ℕ} {s₀ s t : Ram} {A : Space} {root sz v r : ℕ} {x : ℕ × Page}

theorem HasAt.page (h : HasAt X s₀ root A E s v r) (hv : v < UVPN) (hA : A v = some x) :
    s.mem r = x.2 := by
  obtain ⟨T,-,-,rfl,hr⟩ := h
  obtain ⟨y,hy,rfl⟩ := Option.map_eq_some_iff.mp hA
  rw [frameOf_eq hy] at hr
  rw [bytesAt_user hv,Option.some.inj hr]

/-- A write to a user page. -/
theorem HasAt.write (h : HasAt X s₀ root A E s v r) (hv : v < UVPN) (hA : A v = some x) (y : Page) :
    Has X s₀ root (update A v (some (x.1,y))) E (s.setPage r y) := by
  obtain ⟨T,rfl,hT,rfl,hr⟩ := h
  have huser : r ∈ userPages T := mem_userPages.mpr ⟨v,hv,hr⟩
  have hX := hT.mem_X (Or.inr (Or.inr (Or.inl huser)))
  have hpages : r ∉ T.pages := fun hp => Multiset.disjoint_left.mp hT.apart.2.2.2.1
    (Multiset.mem_add.mpr (Or.inr hp)) huser
  refine ⟨T,rfl,⟨hT.pool,hT.holds_setPage hpages y,hT.total,fun c hc => ?_,hT.consts⟩,?_⟩
  · have hne : c ≠ r := fun he => hc (he ▸ hX)
    rw [Ram.mem_setPage_of_ne hne,hT.kept c hc]
  · obtain ⟨z,hz,rfl⟩ := Option.map_eq_some_iff.mp hA
    have hzr : z.1 = r := Option.some.inj ((frameOf_eq hz).symm.trans hr)
    funext u
    by_cases hu : u = v
    · rw [hu,update_self,view,hz,Option.map_some,bytesAt_user hv,hzr,
        Ram.mem_setPage_self]
    · rw [update_of_ne hu,view,view]
      cases hw : decode (T.leaf u) with
      | none => rfl
      | some w =>
        rw [Option.map_some,Option.map_some,bytesAt,bytesAt]
        by_cases hlt : u < UVPN
        · rw [if_pos hlt,if_pos hlt,Ram.mem_setPage_of_ne (hT.frame_inj hv hr hlt hu hw)]
        · rw [if_neg hlt,if_neg hlt]

/-- What `walk` finds for a page number, as an entry. -/
theorem Has.entry (h : Has X s₀ root A E s) (hv : v*PGSIZE < MAXVA) :
    (A v = none ∧ (∃ o, (walk root (v*PGSIZE) false).run s = .ok (o,s) ∧
      ∀ b j, o = some (b,j) → s.word b j &&& PTE_V = 0)) ∨
    ∃ r b j, HasAt X s₀ root A E s v r ∧ (walk root (v*PGSIZE) false).run s = .ok (some (b,j),s) ∧
      decode (s.word b j) = some (r,PTE_FLAGS (s.word b j)) ∧
      ∃ x, A v = some x ∧ x.1 = PTE_FLAGS (s.word b j) := by
  obtain ⟨T,rfl,hT,rfl⟩ := h
  have hwalk := hT.stored.walk_lookup hv
  rw [vpn_mul] at hwalk
  cases hx : decode (T.leaf v) with
  | none =>
    refine Or.inl ⟨view_eq_none.mpr hx,_,hwalk,fun b j hbj => ?_⟩
    obtain ⟨c,hc,hcb⟩ := Option.map_eq_some_iff.mp hbj
    obtain ⟨rfl,rfl⟩ := Prod.mk.inj hcb
    rw [hT.stored.word_leaf hc]
    exact decode_eq_none.mp hx
  | some y =>
    obtain ⟨-,hy⟩ := decode_valid hx
    cases hn : T.node 0 (v/512) with
    | none =>
      rw [T.leaf_page v hn] at hx
      exact nomatch hx
    | some b =>
      have hword := hT.stored.word_leaf hn
      rw [hn] at hwalk
      refine Or.inr ⟨y.1,b,v%512,⟨T,rfl,hT,rfl,frameOf_eq hx⟩,hwalk,?_,(y.2,bytesAt s.mem v y.1),?_,?_⟩
      · rw [hword,hx,hy]
      · rw [view,hx,Option.map_some]
      · rw [hword,hy]

theorem not_user_iff {pte : ℕ} : pte &&& PTE_U = 0 ↔ PTE_FLAGS pte &&& PTE_U = 0 := by
  have hflag : pte &&& PTE_U = PTE_FLAGS pte &&& PTE_U := and_flag (by norm_num)
  rw [hflag]

theorem Has.walkaddr (h : Has X s₀ root A E s) (hg : Guarded A) :
    ∃ r, (walkaddr root (v*PGSIZE)).run s = .ok (r,s) ∧
      ((r = 0 ∧ ∀ x, A v = some x → x.1 &&& PTE_U = 0) ∨
        (r ≠ 0 ∧ v < UVPN ∧ (∃ x, A v = some x ∧ x.1 &&& PTE_U ≠ 0) ∧
          HasAt X s₀ root A E s v r)) := by
  by_cases hva : MAXVA ≤ v*PGSIZE
  · have hv : UVPN ≤ v := by
      rw [PGSIZE_eq,MAXVA_eq] at hva
      rw [UVPN_eq]
      omega
    exact ⟨0,by rw [Vm.walkaddr,if_pos hva]; rfl,Or.inl ⟨rfl,hg v hv⟩⟩
  · rw [Vm.walkaddr,if_neg hva]
    rcases h.entry (not_le.mp hva) with ⟨hnone,o,hwalk,ho⟩ | ⟨r,b,j,hat,hwalk,hdec,x,hx,hflags⟩
    · refine ⟨0,?_,Or.inl ⟨rfl,fun x hx => by rw [hnone] at hx; exact nomatch hx⟩⟩
      rw [run_bind_of_run hwalk]
      cases o with
      | none => rfl
      | some y =>
        have hv := ho y.1 y.2 rfl
        change (load y.1 y.2 >>= _).run s = _
        rw [run_bind_of_run (a := s.word y.1 y.2) (t := s) rfl,if_pos hv]
        rfl
    · obtain ⟨hvalid,hr⟩ := decode_valid hdec
      by_cases hu : s.word b j &&& PTE_U = 0
      · refine ⟨0,?_,Or.inl ⟨rfl,fun y hy => ?_⟩⟩
        · rw [run_bind_of_run hwalk]
          change (load b j >>= _).run s = _
          rw [run_bind_of_run (a := s.word b j) (t := s) rfl,if_neg hvalid,if_pos hu]
          rfl
        · rw [hx] at hy
          rw [← Option.some.inj hy,hflags]
          exact not_user_iff.mp hu
      · have huser : x.1 &&& PTE_U ≠ 0 := by
          rw [hflags]
          exact fun hz => hu (not_user_iff.mpr hz)
        have hv : v < UVPN := by
          by_contra hge
          exact huser (hg v (not_lt.mp hge) x hx)
        refine ⟨r,?_,Or.inr ⟨?_,hv,⟨x,hx,huser⟩,hat⟩⟩
        · rw [run_bind_of_run hwalk]
          change (load b j >>= _).run s = _
          rw [run_bind_of_run (a := s.word b j) (t := s) rfl,if_neg hvalid,if_neg hu,
            (Prod.mk.inj hr).1]
          rfl
        · obtain ⟨T,-,hT,-,hfr⟩ := hat
          have hin := hT.mem_X (Or.inr (Or.inr (Or.inl (mem_userPages.mpr ⟨v,hv,hfr⟩))))
          exact (hT.pool.isPage hin).2.1.ne'

theorem Has.ismapped (h : Has X s₀ root A E s) (hv : v*PGSIZE < MAXVA) :
    (ismapped root (v*PGSIZE)).run s = .ok ((A v).isSome,s) := by
  rw [Vm.ismapped]
  rcases h.entry hv with ⟨hnone,o,hwalk,ho⟩ | ⟨r,b,j,-,hwalk,hdec,x,hx,-⟩
  · rw [run_bind_of_run hwalk,hnone]
    cases o with
    | none => rfl
    | some y =>
      have hz := ho y.1 y.2 rfl
      change (load y.1 y.2 >>= _).run s = _
      rw [run_bind_of_run (a := s.word y.1 y.2) (t := s) rfl,hz]
      rfl
  · have hvalid := (decode_valid hdec).1
    rw [run_bind_of_run hwalk,hx]
    change (load b j >>= _).run s = _
    rw [run_bind_of_run (a := s.word b j) (t := s) rfl,decide_eq_true hvalid]
    rfl

theorem PGROUNDDOWN_mul (v : ℕ) : PGROUNDDOWN (v*PGSIZE) = v*PGSIZE := by
  rw [PGROUNDDOWN,Nat.mul_div_cancel _ (by norm_num)]

theorem lt_UVPN_of_lt (hsz : npages sz ≤ UVPN) (h : v*PGSIZE < sz) : v < UVPN := by
  rw [npages,PGSIZE_eq] at hsz
  rw [PGSIZE_eq] at h
  omega

/-- What a look at the page `v` of the running process returns and leaves: no page, or the page
`r`, which is made first if the user may have it. -/
inductive UserPage (X : Multiset ℕ) (s₀ : Ram) (root sz : ℕ) (A : Space) (E : Multiset ℕ) (v : ℕ)
    (s t : Ram) : ℕ → Prop
  | absent : Has X s₀ root A E t →
      (∀ k, Plenty (3+k) s → Plenty k t ∧ ∀ x, A.logical sz v = some x → x.1 &&& PTE_U = 0) →
      UserPage X s₀ root sz A E v s t 0
  | present {r : ℕ} {x : ℕ × Page} : r ≠ 0 → v < UVPN → A.logical sz v = some x →
      x.1 &&& PTE_U ≠ 0 → HasAt X s₀ root (update A v (some x)) E t v r →
      (∀ k, Plenty (3+k) s → Plenty k t) → UserPage X s₀ root sz A E v s t r

theorem Plenty.le {n k : ℕ} (h : Plenty n s) (hk : k ≤ n) : Plenty k s := ⟨h.1,hk.trans h.2⟩

theorem Has.vmfault (h : Has X s₀ root A E s) (hsz : npages sz ≤ UVPN)
    (hu : ∀ x, A v = some x → x.1 &&& PTE_U = 0) :
    Ends (vmfault ⟨sz,root⟩ root (v*PGSIZE)) s fun r t =>
      UserPage X s₀ root sz A E v s t r := by
  rw [Vm.vmfault]
  by_cases hlt : sz ≤ v*PGSIZE
  · rw [if_pos hlt]
    refine ends_pure (.absent h fun k hk => ⟨hk.le (by omega),fun x hx => ?_⟩)
    cases hA : A v with
    | none =>
      rw [logical_of_none hA,if_neg (by omega)] at hx
      exact nomatch hx
    | some y =>
      rw [logical_of_some hA] at hx
      exact hu x (hA.trans hx)
  · have hv := lt_UVPN_of_lt hsz (not_le.mp hlt)
    rw [if_neg hlt,PGROUNDDOWN_mul]
    refine ends_bind_of_run (h.ismapped (mul_lt_MAXVA (UVPN_room hv))) ?_
    cases hA : A v with
    | some y =>
      refine ends_pure (.absent h fun k hk => ⟨hk.le (by omega),fun x hx => ?_⟩)
      rw [logical_of_some hA] at hx
      exact hu x (hA.trans hx)
    | none =>
      have hlog : A.logical sz v = some (faultFlags,Bytes.zero PGSIZE) := by
        rw [logical_of_none hA,if_pos (not_le.mp hlt)]
      rcases kalloc_cases s with ⟨hk,hp⟩ | ⟨mem,rest,hf,hk⟩
      · refine ends_bind_of_run hk (ends_pure (.absent ?_ fun k hk => ?_))
        · obtain ⟨T,hroot,hT,hview⟩ := h
          exact ⟨T,hroot,hT.spend,hview⟩
        · exact absurd (hk.le (by omega)) hp
      · refine ends_bind_of_run hk ?_
        have hE := Multiset.mem_cons_self mem E
        have hpop : Has X s₀ root A (mem ::ₘ E)
            ((s.spend.pop mem rest).setPage mem (fill 0)) := by
          obtain ⟨T,hroot,hT,hview⟩ := h
          obtain ⟨hT',hview'⟩ := hT.pop hf
          obtain ⟨hT'',hview''⟩ := hT'.setPage hE (fill 0)
          exact ⟨T,hroot,hT'',(hview''.trans hview').trans hview⟩
        have hplenty {k : ℕ} (hk : Plenty (3+k) s) :
            Plenty (2+k) ((s.spend.pop mem rest).setPage mem (fill 0)) := by
          have hlen := hk.2
          rw [hf,List.length_cons] at hlen
          refine ⟨?_,show 2+k ≤ rest.length by omega⟩
          change s.luck.tail = []
          rw [hk.1]
          rfl
        refine ends_bind_of_run (a := ()) (t := (s.spend.pop mem rest).setPage mem (fill 0)) rfl ?_
        refine (hpop.mapUser hv hA (by decide)).bind fun r t ht => ?_
        obtain ⟨hhas,-,hmore⟩ := ht
        cases r with
        | true =>
          rw [if_pos rfl] at hhas ⊢
          rw [Ram.mem_setPage_self,fill_zero] at hhas
          refine ends_pure (.present ?_ hv hlog (by decide) hhas fun k hk =>
            (hmore k (hplenty hk)).1)
          obtain ⟨T,-,hT,-,hfr⟩ := hhas
          have hin := hT.mem_X (Or.inr (Or.inr (Or.inl (mem_userPages.mpr ⟨v,hv,hfr⟩))))
          exact (hT.pool.isPage hin).2.1.ne'
        | false =>
          rw [if_neg Bool.false_ne_true] at hhas ⊢
          obtain ⟨T,hroot,hT,hview⟩ := hhas
          obtain ⟨hrun,hfreed,hview'⟩ := hT.kfree
          refine ends_bind_of_run hrun (ends_pure (.absent ⟨T,hroot,hfreed,hview'.trans hview⟩
            fun k hk => ?_))
          exact absurd (hmore k (hplenty hk)).2 Bool.false_ne_true

/-- The entry of a page that is there, as `copyout` reads it again. -/
theorem HasAt.flags (h : HasAt X s₀ root A E s v r) (hv : v < UVPN) (hA : A v = some x) :
    ∃ b j, (walk root (v*PGSIZE) false).run s = .ok (some (b,j),s) ∧
      s.word b j &&& PTE_W = x.1 &&& PTE_W := by
  rcases h.has.entry (mul_lt_MAXVA (UVPN_room hv)) with
    ⟨hnone,-⟩ | ⟨r',b,j,-,hwalk,-,y,hy,hflags⟩
  · rw [hA] at hnone
    exact nomatch hnone
  · rw [hA] at hy
    refine ⟨b,j,hwalk,?_⟩
    rw [Option.some.inj hy,hflags]
    exact and_flag (by norm_num)

end Access

/-- How many of the `len` bytes from `va` on lie on its page. -/
def chunkOf (va len : ℕ) : ℕ := min (PGSIZE - va % PGSIZE) len

theorem sub_PGROUNDDOWN (va : ℕ) : va-PGROUNDDOWN va = va % PGSIZE := by
  rw [PGROUNDDOWN,PGSIZE_eq]
  omega

theorem PGROUNDDOWN_eq (va : ℕ) : PGROUNDDOWN va = vpn va*PGSIZE := rfl

theorem chunkOf_pos {va len : ℕ} (h : len ≠ 0) : 0 < chunkOf va len := by
  have hlt : va % PGSIZE < PGSIZE := Nat.mod_lt _ (by norm_num)
  rw [chunkOf]
  omega

end Xv6.Vm
