import Xv6.Vm.Unmap

/-! Making, growing, shrinking and freeing address spaces. -/
namespace Xv6.Vm

open Prog Function Multiset

/-- The number of pages of `sz` bytes. -/
def npages (sz : ℕ) : ℕ := (sz + PGSIZE - 1)/PGSIZE

theorem PGROUNDUP_eq (sz : ℕ) : PGROUNDUP sz = npages sz*PGSIZE := rfl

theorem npages_le {a b : ℕ} (h : a ≤ b) : npages a ≤ npages b := Nat.div_le_div_right (by omega)

section Bare

variable {X E : Multiset ℕ} {s₀ s : Ram} {root a : ℕ} {rest : List ℕ}

theorem Bare.mem_X (h : Bare X s₀ E s) (ha : a ∈ s.free ∨ a ∈ E) : a ∈ X := by
  rw [← h.total]
  exact mem_add.mpr ha

theorem Bare.kend (h : Bare X s₀ E s) : s.kend = s₀.kend := congrArg Prod.fst h.consts

theorem Bare.spend (h : Bare X s₀ E s) : Bare X s₀ E s.spend := ⟨h.pool,h.total,h.kept,h.consts⟩

theorem Bare.setPage (h : Bare X s₀ E s) (ha : a ∈ E) (x : Page) : Bare X s₀ E (s.setPage a x) where
  pool := h.pool
  total := h.total
  kept c hc := by
    have hne : c ≠ a := fun he => hc (he ▸ h.mem_X (Or.inr ha))
    rw [Ram.mem_setPage_of_ne hne,h.kept c hc]
  consts := h.consts

theorem Bare.pop (h : Bare X s₀ E s) (hf : s.free = a::rest) :
    Bare X s₀ (a ::ₘ E) (s.spend.pop a rest) where
  pool := h.pool
  total := by
    have htot := h.total
    rw [hf,← cons_coe,cons_add] at htot
    rw [add_cons]
    exact htot
  kept c hc := by
    have hne : c ≠ a := fun he => hc (he ▸ h.mem_X (Or.inl (hf ▸ List.mem_cons_self)))
    exact (Ram.mem_setPage_of_ne hne).trans (h.kept c hc)
  consts := h.consts

theorem Bare.kfree (h : Bare X s₀ (a ::ₘ E) s) :
    Ends (kfree a) s fun _ t => Bare X s₀ E t := by
  have hE := mem_cons_self a E
  have hn := h.pool.nodup
  rw [← h.total] at hn
  have hf : a ∉ s.free := fun hf =>
    disjoint_left.mp (nodup_add.mp hn).2.2 hf hE
  refine ⟨(),s.push a,kfree_ok h.pool h.kend (h.mem_X (Or.inr hE)) hf,h.pool,?_,fun c hc => ?_,
    h.consts⟩
  · have htot := h.total
    rw [add_cons] at htot
    change ((a::s.free : List ℕ) : Multiset ℕ)+E = X
    rw [← cons_coe,cons_add]
    exact htot
  · have hne : c ≠ a := fun he => hc (he ▸ h.mem_X (Or.inr hE))
    exact (Ram.mem_setPage_of_ne hne).trans (h.kept c hc)

/-- A zeroed page is the root of an empty page table. -/
theorem Bare.empty (h : Bare X s₀ (root ::ₘ E) s) (hz : s.mem root = Bytes.zero PGSIZE) :
    Has X s₀ root (fun _ => none) E s := by
  have hnone (v : ℕ) : decode ((Radix.empty 512 2 root).leaf v) = none := decode_zero
  refine ⟨Radix.empty 512 2 root,rfl,⟨h.pool,?_,?_,h.kept,h.consts⟩,?_⟩
  · apply Radix.holds_empty
    intro j _
    rw [Ram.word,hz,Bytes.getLE_zero]
  · have hu : userPages (Radix.empty 512 2 root) = 0 :=
      gather_eq_zero fun v _ => by rw [frameOf,hnone]; rfl
    have htot := h.total
    rw [hu,Radix.pages_empty,add_zero,add_assoc,singleton_add]
    exact htot
  · exact funext fun v => view_eq_none.mpr (hnone v)

theorem Bare.uvmcreate (h : Bare X s₀ E s) : Ends uvmcreate s fun r t =>
    match r with
    | none => Bare X s₀ E t
    | some root => Has X s₀ root (fun _ => none) E t := by
  rw [Vm.uvmcreate]
  rcases kalloc_cases s with ⟨hk,-⟩ | ⟨root,rest,hf,hk⟩
  · exact ends_bind_of_run hk (ends_pure h.spend)
  · refine ends_bind_of_run hk ?_
    refine ends_bind_of_run (a := ()) (t := (s.spend.pop root rest).setPage root (fill 0)) rfl ?_
    exact ends_pure (((h.pop hf).setPage (mem_cons_self root E) _).empty
      Ram.mem_setPage_self)

theorem Has.freewalk (h : Has X s₀ root (fun _ => none) E s) :
    Ends (freewalk root) s fun _ t => Bare X s₀ E t := by
  obtain ⟨T,rfl,hT,hA⟩ := h
  have hnone (v : ℕ) : decode (T.leaf v) = none := view_eq_none.mp (congrFun hA v)
  have hu : userPages T = 0 := gather_eq_zero fun v _ => by rw [frameOf,hnone]; rfl
  have hsub : T.sub 2 0 = T.pages := Radix.pages_eq_sub.symm
  have hX : ∀ a ∈ T.pages, a ∈ X := fun a ha => hT.mem_X (Or.inr (Or.inl ha))
  have hd := (nodup_add.mp hT.apart.1).2
  have hwalk : Walkable (T.sub 2 0) s s := by
    rw [hsub]
    exact ⟨fun _ _ => rfl,hd.1,fun a ha hf => disjoint_left.mp hd.2 hf ha,rfl⟩
  have hpool : Pool s.kend X := hT.kend ▸ hT.pool
  refine (freewalkFrom_ends hT.holds (fun v => decode_eq_none.mp (hnone v)) hpool hX
    (Nat.le_refl 2) Radix.node_root hwalk).mono fun _ t ht => ?_
  rw [hsub] at ht
  refine ⟨hT.pool,?_,fun a ha => ?_,ht.consts.trans hT.consts⟩
  · have htot := hT.total
    rw [hu,add_zero] at htot
    rw [ht.free]
    exact htot
  · rw [ht.mem a fun hp => ha (hX a hp),hT.kept a ha]

end Bare

/-- The address space with the zeroed pages `v .. v+n-1`. -/
def Space.grow (A : Space) (v n flags : ℕ) : Space := fun u =>
  if v ≤ u ∧ u < v+n then some (flags,Bytes.zero PGSIZE) else A u

theorem Space.grow_zero (A : Space) (v flags : ℕ) : A.grow v 0 flags = A := by
  funext u
  rw [grow,if_neg (by omega)]

theorem Space.grow_succ (A : Space) (v n flags : ℕ) : A.grow v (n+1) flags =
    update (A.grow v n flags) (v+n) (some (flags,Bytes.zero PGSIZE)) := by
  funext u
  by_cases hu : u = v+n
  · rw [hu,update_self,grow,if_pos (by omega)]
  · rw [update_of_ne hu,grow,grow]
    by_cases hin : v ≤ u ∧ u < v+n
    · rw [if_pos hin,if_pos (by omega)]
    · rw [if_neg hin,if_neg (by omega)]

theorem Space.cut_grow {A : Space} {v n flags : ℕ} (hA : ∀ u, v ≤ u → u < v+n → A u = none) :
    (A.grow v n flags).cut v n = A := by
  funext u
  rw [cut,grow]
  by_cases hin : v ≤ u ∧ u < v+n
  · rw [if_pos hin,hA u hin.1 hin.2]
  · rw [if_neg hin,if_neg hin]

section Sizes

variable {X E : Multiset ℕ} {s₀ s : Ram} {A : Space} {root v n i oldsz newsz xperm : ℕ}

theorem Has.free_le (h : Has X s₀ root A E s) : s.free.length ≤ 2^15 := by
  obtain ⟨T,-,hT,-⟩ := h
  have hle : (s.free : Multiset ℕ) ≤ X := by
    rw [← hT.total,add_assoc,add_assoc]
    exact Multiset.le_add_right _ _
  exact (card_le_card hle).trans hT.pool.card_le

theorem Has.uvmdealloc (h : Has X s₀ root A E s) (hold : npages oldsz ≤ UVPN) :
    Ends (uvmdealloc root oldsz newsz) s fun r t => r = min oldsz newsz ∧
      Has X s₀ root (A.cut (npages newsz) (npages oldsz-npages newsz)) E t := by
  rw [Vm.uvmdealloc]
  by_cases hle : oldsz ≤ newsz
  · rw [if_pos hle]
    refine ends_pure ⟨(Nat.min_eq_left hle).symm,?_⟩
    rwa [Nat.sub_eq_zero_of_le (npages_le hle),Space.cut_zero]
  · rw [if_neg hle]
    by_cases hlt : PGROUNDUP newsz < PGROUNDUP oldsz
    · have hdiv : (PGROUNDUP oldsz-PGROUNDUP newsz)/PGSIZE = npages oldsz-npages newsz := by
        rw [PGROUNDUP_eq,PGROUNDUP_eq,← Nat.sub_mul,Nat.mul_div_cancel _ (by norm_num)]
      have hpages : npages newsz < npages oldsz := Nat.lt_of_mul_lt_mul_right hlt
      rw [if_pos hlt,hdiv,PGROUNDUP_eq]
      refine (h.uvmunmapUser (by omega)).bind fun _ t ht => ends_pure ⟨?_,ht⟩
      exact (Nat.min_eq_right (by omega)).symm
    · have hpages : npages oldsz ≤ npages newsz := by
        rw [PGROUNDUP_eq,PGROUNDUP_eq] at hlt
        exact Nat.le_of_mul_le_mul_right (not_lt.mp hlt) (by norm_num)
      rw [if_neg hlt]
      refine ends_pure ⟨(Nat.min_eq_right (by omega)).symm,?_⟩
      rwa [Nat.sub_eq_zero_of_le hpages,Space.cut_zero]

theorem npages_mul (v : ℕ) : npages (v*PGSIZE) = v := by
  rw [npages,PGSIZE_eq]
  omega

/-- The way out of `uvmalloc` gives back what it took. -/
theorem Has.undo (h : Has X s₀ root (A.grow v i xperm) E s) (hv : v+i ≤ UVPN)
    (hA : ∀ u, v ≤ u → u < UVPN → A u = none) :
    Ends (do
      let _ ← Vm.uvmdealloc root ((v+i)*PGSIZE) (v*PGSIZE)
      pure false) s fun r t => r = false ∧ Has X s₀ root A E t := by
  refine (h.uvmdealloc (by rwa [npages_mul])).bind fun _ t ht => ends_pure ⟨rfl,?_⟩
  have hcut := ht.2
  rw [npages_mul,npages_mul,Nat.add_sub_cancel_left,
    Space.cut_grow fun u hlo hhi => hA u hlo (by omega)] at hcut
  exact hcut

/-- The flags of a page that `uvmalloc` maps. -/
def allocFlags (xperm : ℕ) : ℕ := PTE_R ||| PTE_U ||| xperm ||| PTE_V

theorem Has.allocFrom (hx : xperm < 2^10) (hA : ∀ u, v ≤ u → u < UVPN → A u = none)
    (h : Has X s₀ root (A.grow v i (allocFlags xperm)) E s)
    (hroom : v+i+s.free.length ≤ UVPN) :
    Ends (allocFrom root xperm (v*PGSIZE) n ((v+i)*PGSIZE)) s fun r t =>
      if r then Has X s₀ root (A.grow v (i+n) (allocFlags xperm)) E t ∧ n ≤ s.free.length
      else Has X s₀ root A E t := by
  induction n generalizing i s with
  | zero => exact ends_pure ⟨h,Nat.zero_le _⟩
  | succ n ih =>
    have hundo {s : Ram} (h : Has X s₀ root (A.grow v i (allocFlags xperm)) E s) :=
      (h.undo (by omega) hA).mono fun r t ht => show if r = true then
        Has X s₀ root (A.grow v (i+(n+1)) (allocFlags xperm)) E t ∧ n+1 ≤ s.free.length
        else Has X s₀ root A E t by
          rw [ht.1]
          exact ht.2
    rw [Vm.allocFrom]
    rcases kalloc_cases s with ⟨hk,-⟩ | ⟨mem,rest,hf,hk⟩
    · refine ends_bind_of_run hk ?_
      obtain ⟨T,hroot,hT,hview⟩ := h
      exact hundo ⟨T,hroot,hT.spend,hview⟩
    · refine ends_bind_of_run hk ?_
      rw [hf,List.length_cons] at hroom
      have hE := mem_cons_self mem E
      have hpop : Has X s₀ root (A.grow v i (allocFlags xperm)) (mem ::ₘ E)
          ((s.spend.pop mem rest).setPage mem (fill 0)) := by
        obtain ⟨T,hroot,hT,hview⟩ := h
        obtain ⟨hT',hview'⟩ := hT.pop hf
        obtain ⟨hT'',hview''⟩ := hT'.setPage hE (fill 0)
        exact ⟨T,hroot,hT'',(hview''.trans hview').trans hview⟩
      refine ends_bind_of_run (a := ()) (t := (s.spend.pop mem rest).setPage mem (fill 0)) rfl ?_
      have hnone : A.grow v i (allocFlags xperm) (v+i) = none := by
        rw [Space.grow,if_neg (by omega),hA (v+i) (by omega) (by omega)]
      have hperm : PTE_R ||| PTE_U ||| xperm < 2^10 := Nat.or_lt_two_pow (by decide) hx
      refine (hpop.mapUser (by omega) hnone hperm).bind fun r t ht => ?_
      obtain ⟨hhas,hlen,-⟩ := ht
      have hlen' : t.free.length ≤ rest.length := hlen
      cases r with
      | true =>
        rw [if_pos rfl] at hhas ⊢
        rw [Ram.mem_setPage_self,fill_zero] at hhas
        have hstep : Has X s₀ root (A.grow v (i+1) (allocFlags xperm)) E t := by
          rw [Space.grow_succ]
          exact hhas.has
        have hadd : (v+i)*PGSIZE+PGSIZE = (v+(i+1))*PGSIZE := by ring
        rw [hadd]
        refine (ih hstep (by omega)).mono fun r u hu => ?_
        cases r with
        | true =>
          rw [if_pos rfl] at hu ⊢
          rw [show i+(n+1) = i+1+n by omega,hf,List.length_cons]
          exact ⟨hu.1,by omega⟩
        | false => exact hu
      | false =>
        rw [if_neg Bool.false_ne_true] at hhas ⊢
        obtain ⟨T,hroot,hT,hview⟩ := hhas
        obtain ⟨hrun,hfreed,hview'⟩ := hT.kfree
        refine ends_bind_of_run hrun ?_
        refine (Has.undo ⟨T,hroot,hfreed,hview'.trans hview⟩ (by omega) hA).mono fun r u hu => ?_
        rw [hu.1]
        exact hu.2

theorem rounds_eq (oldsz newsz : ℕ) :
    (newsz-PGROUNDUP oldsz+PGSIZE-1)/PGSIZE = npages newsz-npages oldsz := by
  rw [PGROUNDUP_eq,npages,npages,PGSIZE_eq]
  omega

/-- What `uvmalloc` returns and leaves: it has nothing to do, or it adds the pages up to
`newsz`, or it fails and leaves all as it was. -/
inductive Alloced (X : Multiset ℕ) (s₀ : Ram) (root : ℕ) (A : Space) (E : Multiset ℕ)
    (oldsz newsz xperm : ℕ) (t : Ram) : ℕ → Prop
  | smaller : newsz < oldsz → Has X s₀ root A E t → Alloced X s₀ root A E oldsz newsz xperm t oldsz
  | grown : oldsz ≤ newsz → npages newsz ≤ npages oldsz + 2^15 →
      Has X s₀ root (A.grow (npages oldsz) (npages newsz - npages oldsz) (allocFlags xperm)) E t →
      Alloced X s₀ root A E oldsz newsz xperm t newsz
  | failed : oldsz ≤ newsz → Has X s₀ root A E t → Alloced X s₀ root A E oldsz newsz xperm t 0

theorem Has.uvmalloc (h : Has X s₀ root A E s) (hx : xperm < 2^10)
    (hA : ∀ u, npages oldsz ≤ u → u < UVPN → A u = none) (hroom : npages oldsz+2^15 ≤ UVPN) :
    Ends (uvmalloc root oldsz newsz xperm) s fun r t =>
      Alloced X s₀ root A E oldsz newsz xperm t r := by
  rw [Vm.uvmalloc]
  by_cases hlt : newsz < oldsz
  · rw [if_pos hlt]
    exact ends_pure (.smaller hlt h)
  · rw [if_neg hlt,rounds_eq]
    have hle := not_lt.mp hlt
    have hfree := h.free_le
    have hstart : Has X s₀ root (A.grow (npages oldsz) 0 (allocFlags xperm)) E s := by
      rwa [Space.grow_zero]
    have hloop := Has.allocFrom (n := npages newsz-npages oldsz) hx hA hstart (by omega)
    rw [Nat.add_zero,← PGROUNDUP_eq] at hloop
    refine hloop.bind fun r t ht => ?_
    cases r with
    | true =>
      rw [if_pos rfl] at ht
      rw [Nat.zero_add] at ht
      exact ends_pure (.grown hle (by omega) ht.1)
    | false => exact ends_pure (.failed hle ht)

theorem Has.uvmfree (h : Has X s₀ root A E s) (hsz : npages oldsz ≤ UVPN)
    (hA : ∀ u, npages oldsz ≤ u → A u = none) :
    Ends (uvmfree root oldsz) s fun _ t => Bare X s₀ E t := by
  have hdiv : PGROUNDUP oldsz/PGSIZE = npages oldsz := Nat.mul_div_cancel _ (by norm_num)
  have hcut : A.cut 0 (npages oldsz) = fun _ => none := by
    funext u
    rw [Space.cut]
    by_cases hu : 0 ≤ u ∧ u < 0+npages oldsz
    · rw [if_pos hu]
    · rw [if_neg hu,hA u (by omega)]
  have hunmap := h.uvmunmapUser (v := 0) (n := npages oldsz) (by omega)
  rw [Nat.zero_mul,hcut] at hunmap
  rw [Vm.uvmfree,hdiv]
  by_cases hpos : 0 < oldsz
  · rw [if_pos hpos]
    exact hunmap.bind fun _ t ht => ht.freewalk
  · have hz : npages oldsz = 0 := by
      obtain rfl : oldsz = 0 := by omega
      rfl
    have hall : A = fun _ => none := funext fun u => hA u (by omega)
    rw [if_neg hpos]
    subst hall
    exact h.freewalk

end Sizes

/-- The page table at `root`, all of it outside `X`, holds the address space `B`. -/
def Seen (X : Multiset ℕ) (s₀ : Ram) (root : ℕ) (B : Space) : Prop :=
  ∃ T : Tree, T.root = root ∧ Stored T.pages s₀ T ∧ (∀ a ∈ T.pages, a ∉ X) ∧
    (∀ v < UVPN, ∀ x, decode (T.leaf v) = some x → x.1 ∉ X) ∧ view s₀.mem T = B

/-- The address space whose first `i` pages are those of `B`. -/
def Space.copy (A B : Space) (i : ℕ) : Space := fun u => if u < i then B u else A u

theorem Space.copy_zero (A B : Space) : A.copy B 0 = A := by
  funext u
  rw [copy,if_neg (by omega)]

theorem Space.copy_succ (A B : Space) (i : ℕ) :
    A.copy B (i+1) = update (A.copy B i) i (B i) := by
  funext u
  by_cases hu : u = i
  · rw [hu,update_self,copy,if_pos (by omega)]
  · rw [update_of_ne hu,copy,copy]
    by_cases hlt : u < i
    · rw [if_pos hlt,if_pos (by omega)]
    · rw [if_neg hlt,if_neg (by omega)]

theorem Space.cut_copy {A B : Space} {i : ℕ} (hA : ∀ u < i, A u = none) :
    (A.copy B i).cut 0 i = A := by
  funext u
  rw [cut,copy]
  by_cases hu : u < i
  · rw [if_pos (by omega),hA u hu]
  · rw [if_neg (by omega),if_neg hu]

section Copy

variable {X E : Multiset ℕ} {s₀ s : Ram} {A B : Space} {old new n i sz : ℕ}

/-- The way out of `uvmcopy` frees what it has copied. -/
theorem Has.undoCopy (h : Has X s₀ new (A.copy B i) E s) (hi : i ≤ UVPN)
    (hA : ∀ u < UVPN, A u = none) :
    Ends (do
      uvmunmap new 0 (i*PGSIZE/PGSIZE) true
      pure false) s fun r t => r = false ∧ Has X s₀ new A E t := by
  have hunmap := h.uvmunmapUser (v := 0) (n := i) (by omega)
  rw [Nat.zero_mul,Space.cut_copy fun u hu => hA u (by omega)] at hunmap
  rw [Nat.mul_div_cancel _ (by norm_num)]
  exact hunmap.bind fun _ t ht => ends_pure ⟨rfl,ht⟩

theorem flags_valid {pte : ℕ} (h : pte &&& PTE_V ≠ 0) :
    PTE_FLAGS pte ||| PTE_V = PTE_FLAGS pte := by
  have hodd := valid_iff.mp h
  apply Nat.eq_of_testBit_eq
  intro k
  rw [Nat.testBit_or]
  cases k with
  | zero =>
    have hbit : (PTE_FLAGS pte).testBit 0 = true := by
      rw [Nat.testBit_zero,PTE_FLAGS]
      exact decide_eq_true (by omega)
    rw [hbit,Bool.true_or]
  | succ k =>
    have hz : (PTE_V).testBit (k+1) = false := by
      rw [Nat.testBit_succ]
      exact Nat.zero_testBit k
    rw [hz,Bool.or_false]

theorem Has.copyFrom (hold : Seen X s₀ old B) (hA : ∀ u < UVPN, A u = none)
    (h : Has X s₀ new (A.copy B i) E s) (hn : i+n ≤ UVPN) :
    Ends (copyFrom old new n (i*PGSIZE)) s fun r t =>
      Has X s₀ new (if r then A.copy B (i+n) else A) E t := by
  induction n generalizing i s with
  | zero => exact ends_pure h
  | succ n ih =>
    obtain ⟨T,rfl,hT,hpages,hframes,rfl⟩ := hold
    have hi : i < UVPN := by omega
    have hva := mul_lt_MAXVA (UVPN_room hi)
    have hkept : ∀ a ∉ X, s.mem a = s₀.mem a := by
      obtain ⟨T',-,hT',-⟩ := h
      exact hT'.kept
    have hs : Stored T.pages s T := hT.congr fun a ha => hkept a (hpages a ha)
    have hwalk := hs.walk_lookup hva
    rw [vpn_mul] at hwalk
    have hnext : i*PGSIZE+PGSIZE = (i+1)*PGSIZE := by ring
    have hcount : i+1+n = i+(n+1) := by omega
    -- a page that `old` does not have is not copied
    have hskip (hnone : decode (T.leaf i) = none) :
        Ends (Vm.copyFrom T.root new n (i*PGSIZE+PGSIZE)) s fun r t =>
          Has X s₀ new (if r then A.copy (view s₀.mem T) (i+(n+1)) else A) E t := by
      have hsame : Has X s₀ new (A.copy (view s₀.mem T) (i+1)) E s := by
        have hAi : A.copy (view s₀.mem T) i i = none := by
          rw [Space.copy,if_neg (by omega),hA i hi]
        rw [Space.copy_succ,view_eq_none.mpr hnone,← hAi,update_eq_self]
        exact h
      rw [hnext,← hcount]
      exact ih hsame (by omega)
    rw [Vm.copyFrom]
    refine ends_bind_of_run hwalk ?_
    cases hn0 : T.node 0 (i/512) with
    | none =>
      have hnone : decode (T.leaf i) = none := by
        rw [T.leaf_page i hn0,decode_zero]
      exact hskip hnone
    | some b =>
      refine ends_bind_of_run (a := T.leaf i) (t := s) (by rw [← hs.word_leaf hn0]; rfl) ?_
      by_cases hv : T.leaf i &&& PTE_V = 0
      · rw [if_pos hv]
        exact hskip (decode_eq_none.mpr hv)
      · rw [if_neg hv]
        have hdec : decode (T.leaf i) = some (PTE2PA (T.leaf i),PTE_FLAGS (T.leaf i)) := if_pos hv
        have hpage : view s₀.mem T i =
            some (PTE_FLAGS (T.leaf i),s₀.mem (PTE2PA (T.leaf i))) := by
          rw [view,hdec,Option.map_some,bytesAt_user hi]
        rcases kalloc_cases s with ⟨hk,-⟩ | ⟨mem,rest,hf,hk⟩
        · refine ends_bind_of_run hk ?_
          obtain ⟨T',hroot,hT',hview⟩ := h
          refine (Has.undoCopy ⟨T',hroot,hT'.spend,hview⟩ hi.le hA).mono fun r t ht => ?_
          rw [ht.1]
          exact ht.2
        · refine ends_bind_of_run hk ?_
          have hE := mem_cons_self mem E
          have hXm : mem ∈ X := by
            obtain ⟨T',-,hT',-⟩ := h
            exact hT'.mem_X (Or.inl (by rw [hf]; exact List.mem_cons_self))
          have hsrc : (s.spend.pop mem rest).mem (PTE2PA (T.leaf i)) =
              s₀.mem (PTE2PA (T.leaf i)) := by
            have hout := hframes i hi _ hdec
            have hne : PTE2PA (T.leaf i) ≠ mem := fun he => hout (he ▸ hXm)
            exact (Ram.mem_setPage_of_ne hne).trans (hkept _ hout)
          have hpop : Has X s₀ new (A.copy (view s₀.mem T) i) (mem ::ₘ E)
              ((s.spend.pop mem rest).setPage mem (s₀.mem (PTE2PA (T.leaf i)))) := by
            obtain ⟨T',hroot,hT',hview⟩ := h
            obtain ⟨hT1,hview1⟩ := hT'.pop hf
            obtain ⟨hT2,hview2⟩ := hT1.setPage hE (s₀.mem (PTE2PA (T.leaf i)))
            exact ⟨T',hroot,hT2,(hview2.trans hview1).trans hview⟩
          refine ends_bind_of_run (a := ())
            (t := (s.spend.pop mem rest).setPage mem (s₀.mem (PTE2PA (T.leaf i))))
            (by rw [← hsrc]; rfl) ?_
          have hnone : A.copy (view s₀.mem T) i i = none := by
            rw [Space.copy,if_neg (by omega),hA i hi]
          have hperm : PTE_FLAGS (T.leaf i) < 2^10 := Nat.mod_lt _ (by norm_num)
          refine (hpop.mapUser hi hnone hperm).bind fun r t ht => ?_
          obtain ⟨hhas,-,-⟩ := ht
          cases r with
          | true =>
            rw [if_pos rfl] at hhas ⊢
            rw [Ram.mem_setPage_self,flags_valid hv,← hpage,← Space.copy_succ] at hhas
            rw [hnext,← hcount]
            exact ih hhas.has (by omega)
          | false =>
            rw [if_neg Bool.false_ne_true] at hhas ⊢
            obtain ⟨T',hroot,hT',hview⟩ := hhas
            obtain ⟨hrun,hfreed,hview'⟩ := hT'.kfree
            refine ends_bind_of_run hrun ?_
            refine (Has.undoCopy ⟨T',hroot,hfreed,hview'.trans hview⟩ hi.le hA).mono
              fun r t ht => ?_
            rw [ht.1]
            exact ht.2

theorem Has.uvmcopy (h : Has X s₀ new A E s) (hold : Seen X s₀ old B)
    (hA : ∀ u < UVPN, A u = none) (hsz : npages sz ≤ UVPN) :
    Ends (uvmcopy old new sz) s fun r t =>
      Has X s₀ new (if r then A.copy B (npages sz) else A) E t := by
  have hstart : Has X s₀ new (A.copy B 0) E s := by
    rwa [Space.copy_zero]
  have hcopy := Has.copyFrom (n := npages sz) hold hA hstart (by omega)
  rw [Nat.zero_mul,Nat.zero_add] at hcopy
  exact hcopy

end Copy
end Xv6.Vm
