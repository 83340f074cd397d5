import Xv6.Vm.Ranges

/-! What `copyout` and `copyin` do with every page they come to, when memory may run out at any
of them. -/
namespace Xv6.Vm

open Prog Function List

/-! One round of each loop. -/

/-- The round of `copyout` that stores the bytes `xs`. -/
def outRound (p : User) (pagetable dstva : ℕ) (xs : List UInt8) : Op Bool := do
  if MAXVA ≤ PGROUNDDOWN dstva then pure false else
  let pa0 ← userPage p pagetable (PGROUNDDOWN dstva)
  if pa0 = 0 then pure false else
  match ← walk pagetable (PGROUNDDOWN dstva) false with
  | none => throw .nullPte
  | some (b,j) => do
    let pte ← load b j
    if pte &&& PTE_W = 0 then pure false else
    memmoveTo pa0 (dstva - PGROUNDDOWN dstva) xs
    pure true

/-- The round of `copyin` that fetches `n` bytes. -/
def inRound (p : User) (pagetable srcva n : ℕ) : Op (Option (List UInt8)) := do
  let pa0 ← userPage p pagetable (PGROUNDDOWN srcva)
  if pa0 = 0 then pure none else
  let s ← get
  pure (some ((s.mem pa0).slice (srcva - PGROUNDDOWN srcva) n))

section Rounds

variable {p : User} {pagetable va : ℕ}

theorem chunkOf_eq (va len : ℕ) : min (PGSIZE-(va-PGROUNDDOWN va)) len = chunkOf va len := by
  rw [chunkOf,sub_PGROUNDDOWN]

theorem copyoutFrom_succ (rounds : ℕ) {src : List UInt8} (h : src ≠ []) :
    copyoutFrom p pagetable (rounds+1) va src = (do
      if ← outRound p pagetable va (src.take (chunkOf va src.length)) then
        copyoutFrom p pagetable rounds (nextPage va) (src.drop (chunkOf va src.length))
      else pure false) := by
  rw [copyoutFrom,if_neg h,outRound]
  dsimp only
  rw [chunkOf_eq]
  split
  · rfl
  · rw [bind_assoc]
    refine bind_congr fun pa0 => ?_
    split
    · rfl
    · rw [bind_assoc]
      refine bind_congr fun e => ?_
      cases e with
      | none => rfl
      | some e =>
        rw [bind_assoc]
        refine bind_congr fun pte => ?_
        split
        · rfl
        · rfl

theorem copyoutFrom_rounds {rounds : ℕ} {src : List UInt8} (h : src.length ≤ rounds) :
    copyoutFrom p pagetable rounds va src = copyout p pagetable va src := by
  rw [copyout]
  induction rounds using Nat.strong_induction_on generalizing va src with
  | _ rounds ih =>
    by_cases hsrc : src = []
    · subst hsrc
      cases rounds <;> rfl
    · obtain ⟨k,hk⟩ := Nat.exists_eq_succ_of_ne_zero (length_pos_iff.mpr hsrc).ne'
      obtain ⟨n,rfl⟩ := Nat.exists_eq_succ_of_ne_zero (by omega : rounds ≠ 0)
      have hpos : 0 < chunkOf va src.length := chunkOf_pos (length_pos_iff.mpr hsrc).ne'
      rw [copyoutFrom_succ n hsrc,hk,copyoutFrom_succ k hsrc,← hk]
      refine bind_congr fun b => ?_
      have hrest (r : ℕ) (hr : r < n+1) (hle : src.length ≤ r+1) :
          copyoutFrom p pagetable r (nextPage va) (src.drop (chunkOf va src.length)) =
            copyoutFrom p pagetable (src.drop (chunkOf va src.length)).length (nextPage va)
              (src.drop (chunkOf va src.length)) :=
        ih r hr (by rw [length_drop]; omega)
      rw [hrest n (Nat.lt_succ_self n) h,hrest k (by omega) hk.le]

theorem copyout_step {src : List UInt8} (h : src ≠ []) : copyout p pagetable va src = (do
    if ← outRound p pagetable va (src.take (chunkOf va src.length)) then
      copyout p pagetable (nextPage va) (src.drop (chunkOf va src.length))
    else pure false) := by
  have hlen : 0 < src.length := length_pos_iff.mpr h
  have hpos : 0 < chunkOf va src.length := chunkOf_pos hlen.ne'
  obtain ⟨k,hk⟩ := Nat.exists_eq_succ_of_ne_zero hlen.ne'
  have hrest : (src.drop (chunkOf va src.length)).length ≤ k := by
    rw [length_drop]
    omega
  have hlhs : copyout p pagetable va src = copyoutFrom p pagetable (k+1) va src := by
    rw [copyout,hk]
  rw [hlhs,copyoutFrom_succ k h,copyoutFrom_rounds hrest]

theorem copyinFrom_succ (rounds : ℕ) {len : ℕ} (h : len ≠ 0) (dst : List UInt8) :
    copyinFrom p pagetable (rounds+1) va len dst = (do
      match ← inRound p pagetable va (chunkOf va len) with
      | none => pure (false,dst)
      | some xs =>
        copyinFrom p pagetable rounds (nextPage va) (len-chunkOf va len) (dst++xs)) := by
  rw [copyinFrom,if_neg h,inRound]
  dsimp only
  rw [chunkOf_eq,bind_assoc]
  refine bind_congr fun pa0 => ?_
  split
  · rfl
  · rfl

/-- Neither the rounds nor the bytes already delivered matter. -/
theorem copyinFrom_eq {rounds len : ℕ} (h : len ≤ rounds) (dst : List UInt8) :
    copyinFrom p pagetable rounds va len dst =
      (fun r => (r.1,dst++r.2)) <$> copyin p pagetable va len := by
  rw [copyin]
  induction rounds using Nat.strong_induction_on generalizing va len dst with
  | _ rounds ih =>
    by_cases hlen : len = 0
    · subst hlen
      cases rounds <;> exact congrArg (fun x => pure (true,x)) (append_nil dst).symm
    · obtain ⟨k,hk⟩ := Nat.exists_eq_succ_of_ne_zero hlen
      obtain ⟨n,rfl⟩ := Nat.exists_eq_succ_of_ne_zero (by omega : rounds ≠ 0)
      have hpos : 0 < chunkOf va len := chunkOf_pos hlen
      have hrest (r : ℕ) (hr : r < n+1) (hle : len ≤ r+1) (dst : List UInt8) :
          copyinFrom p pagetable r (nextPage va) (len-chunkOf va len) dst =
            (fun x => (x.1,dst++x.2)) <$> copyinFrom p pagetable (len-chunkOf va len)
              (nextPage va) (len-chunkOf va len) [] :=
        ih r hr (by omega) dst
      rw [copyinFrom_succ n hlen,show copyinFrom p pagetable len va len [] =
        copyinFrom p pagetable (k+1) va len [] by rw [hk],copyinFrom_succ k hlen,map_bind]
      refine bind_congr fun o => ?_
      cases o with
      | none => exact congrArg (fun x => pure (false,x)) (append_nil dst).symm
      | some xs =>
        dsimp only
        rw [hrest n (Nat.lt_succ_self n) h,hrest k (by omega) hk.le,Functor.map_map]
        simp only [nil_append,append_assoc]

theorem copyin_step {len : ℕ} (h : len ≠ 0) : copyin p pagetable va len = (do
    match ← inRound p pagetable va (chunkOf va len) with
    | none => pure (false,[])
    | some xs => do
      let r ← copyin p pagetable (nextPage va) (len-chunkOf va len)
      pure (r.1,xs++r.2)) := by
  have hpos : 0 < chunkOf va len := chunkOf_pos h
  obtain ⟨k,hk⟩ := Nat.exists_eq_succ_of_ne_zero h
  have hlhs : copyin p pagetable va len = copyinFrom p pagetable (k+1) va len [] := by
    rw [copyin,hk]
  rw [hlhs,copyinFrom_succ k h]
  refine bind_congr fun o => ?_
  cases o with
  | none => rfl
  | some xs =>
    have hrest : len-chunkOf va len ≤ k := by omega
    exact copyinFrom_eq hrest ([]++xs)

end Rounds

/-! What a page has to be for a round to succeed. -/

/-- A page fault on `v` gets its memory. -/
def Allocatable (p : User) (v : ℕ) (s : Ram) : Prop :=
  ∃ r t, (vmfault p p.pagetable (v*PGSIZE)).run s = .ok (r,t) ∧ r ≠ 0

/-- The page is mapped with `PTE_U`. -/
def Readable (A : Space) (v : ℕ) : Prop := ∃ x, A v = some x ∧ x.1 &&& PTE_U ≠ 0

/-- The page is mapped with `PTE_U` and `PTE_W`. -/
def Writable (A : Space) (v : ℕ) : Prop :=
  ∃ x, A v = some x ∧ x.1 &&& PTE_U ≠ 0 ∧ x.1 &&& PTE_W ≠ 0

/-- The page is not there, but the user may have it, and memory can be found in `s`. -/
def Faults (p : User) (A : Space) (v : ℕ) (s : Ram) : Prop :=
  A v = none ∧ v*PGSIZE < p.sz ∧ Allocatable p v s

section Ready

variable {X E : Multiset ℕ} {s₀ s : Ram} {A : Space} {root sz v r : ℕ}

/-- What a look at page `v` returns and leaves. -/
inductive Looked (X : Multiset ℕ) (s₀ : Ram) (root sz : ℕ) (A : Space) (E : Multiset ℕ) (v : ℕ)
    (s t : Ram) : ℕ → Prop
  | absent : Has X s₀ root A E t → (∀ x, A v = some x → x.1 &&& PTE_U = 0) →
      ¬ Faults ⟨sz,root⟩ A v s → Looked X s₀ root sz A E v s t 0
  | present {r : ℕ} : r ≠ 0 → v < UVPN → (A.seen v).1 &&& PTE_U ≠ 0 →
      ((∃ x, A v = some x) ∨ Faults ⟨sz,root⟩ A v s) →
      HasAt X s₀ root (update A v (some (A.seen v))) E t v r →
      Looked X s₀ root sz A E v s t r

theorem Has.vmfault_of_some (h : Has X s₀ root A E s) (hsz : npages sz ≤ UVPN) {x : ℕ × Page}
    (hA : A v = some x) : (Vm.vmfault ⟨sz,root⟩ root (v*PGSIZE)).run s = .ok (0,s) := by
  rw [Vm.vmfault]
  by_cases hlt : sz ≤ v*PGSIZE
  · rw [if_pos hlt]
    rfl
  · have hv := lt_UVPN_of_lt hsz (not_le.mp hlt)
    rw [if_neg hlt,PGROUNDDOWN_mul,
      run_bind_of_run (h.ismapped (mul_lt_MAXVA (UVPN_room hv))),hA]
    rfl

theorem Has.look (h : Has X s₀ root A E s) (hg : Guarded A) (hsz : npages sz ≤ UVPN) :
    Ends (Vm.userPage ⟨sz,root⟩ root (v*PGSIZE)) s fun r t => Looked X s₀ root sz A E v s t r ∧
      ∀ k, Plenty (3+k) s → Plenty k t := by
  rw [Vm.userPage]
  obtain ⟨r,hrun,⟨rfl,hu⟩ | ⟨hr,hv,⟨x,hx,hu⟩,hat⟩⟩ := h.walkaddr (v := v) hg
  · refine ends_bind_of_run hrun ?_
    rw [if_pos rfl]
    cases hA : A v with
    | some x =>
      refine ⟨0,s,h.vmfault_of_some hsz hA,.absent h hu fun hf => ?_,fun k hk => hk.le (by omega)⟩
      rw [hf.1] at hA
      cases hA
    | none =>
      obtain ⟨r,t,hfault,hpage⟩ := h.vmfault hsz hu
      refine ⟨r,t,hfault,?_⟩
      cases hpage with
      | absent hhas hno =>
        refine ⟨.absent hhas hu fun hf => ?_,fun k hk => (hno k hk).1⟩
        obtain ⟨-,-,r,t,hfault',hr⟩ := hf
        rw [hfault] at hfault'
        exact hr (Prod.mk.inj (Except.ok.inj hfault')).1.symm
      | @present _ x hr hv hL hux hat hmore =>
        have hseen := seen_of_logical hL
        refine ⟨.present hr hv (hseen ▸ hux) (Or.inr ⟨hA,?_,r,t,hfault,hr⟩) (hseen ▸ hat),hmore⟩
        by_contra hge
        rw [logical_of_none hA,if_neg hge] at hL
        cases hL
  · refine ends_bind_of_run hrun ?_
    rw [if_neg hr]
    have hseen := seen_of_some hx
    refine ends_pure ⟨.present hr hv (hseen ▸ hu) (Or.inl ⟨x,hx⟩) ?_,fun k hk => hk.le (by omega)⟩
    rwa [hseen,← hx,update_eq_self]

theorem Has.outRound (va : ℕ) (h : Has X s₀ root A E s) (hg : Guarded A) (hsz : npages sz ≤ UVPN)
    (xs : List UInt8) :
    Ends (outRound ⟨sz,root⟩ root va xs) s fun b t =>
      (b = true ↔ Writable A (vpn va) ∨ Faults ⟨sz,root⟩ A (vpn va) s) ∧
      Has X s₀ root (if b then update A (vpn va) (some ((A.seen (vpn va)).1,
        (A.seen (vpn va)).2.splice (va % PGSIZE) xs)) else A) E t ∧
      ∀ k, Plenty (3+k) s → Plenty k t := by
  rw [Vm.outRound]
  by_cases hmax : MAXVA ≤ PGROUNDDOWN va
  · have hv : UVPN ≤ vpn va := by
      rw [PGROUNDDOWN_eq,PGSIZE_eq,MAXVA_eq] at hmax
      rw [UVPN_eq]
      omega
    rw [if_pos hmax]
    refine ends_pure ⟨iff_of_false Bool.false_ne_true ?_,h,fun k hk => hk.le (by omega)⟩
    rintro (⟨x,hx,hu,-⟩ | ⟨-,hlt,-⟩)
    · exact hu (hg _ hv x hx)
    · exact absurd (lt_UVPN_of_lt hsz hlt) (by omega)
  · rw [if_neg hmax]
    refine (h.look hg hsz (v := vpn va)).bind fun r t ⟨hlook,hmore⟩ => ?_
    cases hlook with
    | absent hhas hno hnf =>
      rw [if_pos rfl]
      refine ends_pure ⟨iff_of_false Bool.false_ne_true ?_,hhas,hmore⟩
      rintro (⟨x,hx,hu,-⟩ | hf)
      · exact hu (hno x hx)
      · exact hnf hf
    | @present r hr hv hu hfrom hat =>
      rw [if_neg hr]
      have hset : update A (vpn va) (some (A.seen (vpn va))) (vpn va) =
          some (A.seen (vpn va)) := update_self ..
      obtain ⟨b,j,hwalk,hw⟩ := hat.flags hv hset
      refine ends_bind_of_run hwalk (ends_bind_of_run (a := t.word b j) (t := t) rfl ?_)
      rw [hw]
      by_cases hwz : (A.seen (vpn va)).1 &&& PTE_W = 0
      · -- a page without the flag was there before: a page fault sets it
        rw [if_pos hwz]
        obtain ⟨x,hx⟩ : ∃ x, A (vpn va) = some x := by
          rcases hfrom with hx | ⟨hnone,-⟩
          · exact hx
          · rw [Space.seen,hnone] at hwz
            exact absurd hwz (by decide)
        have hsame := hat.has
        rw [seen_of_some hx,← hx,update_eq_self] at hsame
        rw [seen_of_some hx] at hwz
        refine ends_pure ⟨iff_of_false Bool.false_ne_true ?_,hsame,hmore⟩
        rintro (⟨y,hy,-,hyw⟩ | ⟨hnone,-⟩)
        · rw [hx] at hy
          rw [← Option.some.inj hy] at hyw
          exact hyw hwz
        · rw [hx] at hnone
          cases hnone
      · rw [if_neg hwz,sub_PGROUNDDOWN]
        have hwrite := hat.write hv hset ((A.seen (vpn va)).2.splice (va % PGSIZE) xs)
        rw [update_idem] at hwrite
        refine ends_bind_of_run (a := ()) (t := t.setPage r ((A.seen (vpn va)).2.splice
          (va % PGSIZE) xs)) (by rw [← hat.page hv hset]; rfl)
          (ends_pure ⟨iff_of_true rfl ?_,hwrite,hmore⟩)
        rcases hfrom with ⟨x,hx⟩ | hf
        · rw [seen_of_some hx] at hu hwz
          exact Or.inl ⟨x,hx,hu,hwz⟩
        · exact Or.inr hf

theorem Has.inRound (va : ℕ) (h : Has X s₀ root A E s) (hg : Guarded A) (hsz : npages sz ≤ UVPN)
    (n : ℕ) :
    Ends (inRound ⟨sz,root⟩ root va n) s fun o t =>
      (o.isSome = true ↔ Readable A (vpn va) ∨ Faults ⟨sz,root⟩ A (vpn va) s) ∧
      (∀ xs, o = some xs → xs = (A.seen (vpn va)).2.slice (va % PGSIZE) n) ∧
      Has X s₀ root (if o.isSome then update A (vpn va) (some (A.seen (vpn va))) else A)
        E t ∧ ∀ k, Plenty (3+k) s → Plenty k t := by
  rw [Vm.inRound]
  refine (h.look hg hsz (v := vpn va)).bind fun r t ⟨hlook,hmore⟩ => ?_
  cases hlook with
  | absent hhas hno hnf =>
    rw [if_pos rfl]
    refine ends_pure ⟨iff_of_false Bool.false_ne_true ?_,nofun,hhas,hmore⟩
    rintro (⟨x,hx,hu⟩ | hf)
    · exact hu (hno x hx)
    · exact hnf hf
  | @present r hr hv hu hfrom hat =>
    rw [if_neg hr,sub_PGROUNDDOWN]
    have hset : update A (vpn va) (some (A.seen (vpn va))) (vpn va) =
        some (A.seen (vpn va)) := update_self ..
    refine ends_bind_of_run (a := t) (t := t) rfl (ends_pure ⟨iff_of_true rfl ?_,?_,hat.has,hmore⟩)
    · rcases hfrom with ⟨x,hx⟩ | hf
      · rw [seen_of_some hx] at hu
        exact Or.inl ⟨x,hx,hu⟩
      · exact Or.inr hf
    · intro xs hxs
      rw [← Option.some.inj hxs,hat.page hv hset]

theorem Writable.readable (h : Writable A v) : Readable A v := by
  obtain ⟨x,hx,hu,-⟩ := h
  exact ⟨x,hx,hu⟩

theorem lt_UVPN_of_ready (hg : Guarded A) (hsz : npages sz ≤ UVPN)
    (h : Readable A v ∨ Faults ⟨sz,root⟩ A v s) : v < UVPN := by
  rcases h with ⟨x,hx,hu⟩ | ⟨-,hlt,-⟩
  · by_contra hge
    exact hu (hg v (not_lt.mp hge) x hx)
  · exact lt_UVPN_of_lt hsz hlt

theorem Guarded.update (hg : Guarded A) (hv : v < UVPN) (x : Option (ℕ × Page)) :
    Guarded (update A v x) := by
  intro u hu y hy
  rw [update_of_ne (by omega)] at hy
  exact hg u hu y hy

end Ready

/-! The loops. -/

/-- `copyout` comes to page `v` in state `t`: all bytes before it are stored. -/
def OutReaches (p : User) (dstva : ℕ) (src : List UInt8) (v : ℕ) (s t : Ram) : Prop :=
  (copyout p p.pagetable dstva (src.take (v*PGSIZE - dstva))).run s = .ok (true,t)

/-- The page can be written, or is made when `copyout` comes to it. -/
def OutReady (p : User) (A : Space) (dstva : ℕ) (src : List UInt8) (s : Ram) (v : ℕ) : Prop :=
  Writable A v ∨ ∃ t, OutReaches p dstva src v s t ∧ Faults p A v t

/-- `copyin` comes to page `v` in state `t`. -/
def InReaches (p : User) (srcva v : ℕ) (s t : Ram) : Prop :=
  ∃ xs, (copyin p p.pagetable srcva (v*PGSIZE - srcva)).run s = .ok ((true,xs),t)

/-- The page can be read, or is made when `copyin` comes to it. -/
def InReady (p : User) (A : Space) (srcva : ℕ) (s : Ram) (v : ℕ) : Prop :=
  Readable A v ∨ ∃ t, InReaches p srcva v s t ∧ Faults p A v t

section Loops

variable {X E : Multiset ℕ} {s₀ s u : Ram} {A : Space} {root sz v va len : ℕ} {p : User}
  {src : List UInt8}

theorem faults_update (hv : v ≠ vpn va) (x : Option (ℕ × Page)) (t : Ram) :
    Faults p (update A (vpn va) x) v t ↔ Faults p A v t := by
  rw [Faults,Faults,update_of_ne hv]

theorem first_zero (va : ℕ) : vpn va*PGSIZE-va = 0 :=
  Nat.sub_eq_zero_of_le (Nat.div_mul_le_self va PGSIZE)

theorem outReady_first : OutReady p A va src s (vpn va) ↔
    Writable A (vpn va) ∨ Faults p A (vpn va) s := by
  refine or_congr Iff.rfl ?_
  simp only [OutReaches,first_zero,take_zero]
  exact ⟨fun ⟨t,ht,hf⟩ => (Prod.mk.inj (Except.ok.inj ht)).2 ▸ hf,fun hf => ⟨s,rfl,hf⟩⟩

theorem outReaches_rest (hv : Touches (nextPage va) (src.length-chunkOf va src.length) v)
    (hround : (outRound p p.pagetable va (src.take (chunkOf va src.length))).run s = .ok (true,u))
    (t : Ram) : OutReaches p va src v s t ↔
      OutReaches p (nextPage va) (src.drop (chunkOf va src.length)) v u t := by
  have hlen : 0 < src.length := by
    have := (touches_iff.mp hv).1
    omega
  have hpos : 0 < chunkOf va src.length := chunkOf_pos hlen.ne'
  have hne : src.take (chunkOf va src.length+(v*PGSIZE-nextPage va)) ≠ [] := by
    rw [ne_eq,take_eq_nil_iff,not_or]
    exact ⟨by omega,length_pos_iff.mp hlen⟩
  rw [OutReaches,OutReaches,hv.before.1,copyout_step hne,chunkOf_take,take_take,
    Nat.min_eq_left (Nat.le_add_right _ _),drop_take,Nat.add_sub_cancel_left,
    run_bind_of_run hround,if_pos rfl]

theorem outReady_rest (hv : Touches (nextPage va) (src.length-chunkOf va src.length) v)
    (hround : (outRound p p.pagetable va (src.take (chunkOf va src.length))).run s = .ok (true,u))
    (x : Option (ℕ × Page)) : OutReady p A va src s v ↔ OutReady p (update A (vpn va) x)
      (nextPage va) (src.drop (chunkOf va src.length)) u v := by
  have hne : v ≠ vpn va := fun he => not_touches_first (he ▸ hv)
  refine or_congr ?_ (exists_congr fun t => and_congr (outReaches_rest hv hround t)
    (faults_update hne x t).symm)
  rw [Writable,Writable,update_of_ne hne]

theorem Has.copyout_stops (h : Has X s₀ root A E s) (hg : Guarded A) (hsz : npages sz ≤ UVPN)
    (va : ℕ) (src : List UInt8) :
    Ends (Vm.copyout ⟨sz,root⟩ root va src) s fun b t => ∃ m,
      StopsAt (OutReady ⟨sz,root⟩ A va src s) va src.length b m ∧
      Has X s₀ root (A.put va (src.take m)) E t ∧
      ∀ k, Plenty (3*src.length+k) s → Plenty k t := by
  induction hn : src.length using Nat.strong_induction_on generalizing s A va src with
  | _ n ih =>
    by_cases hsrc : src = []
    · subst hsrc
      obtain rfl := hn
      refine ends_pure ⟨0,stopsAt_nil _ va,?_,fun k hk => hk.le (by omega)⟩
      rwa [take_nil,put_nil]
    · have hlen : 0 < src.length := length_pos_iff.mpr hsrc
      have hpos : 0 < chunkOf va src.length := chunkOf_pos hlen.ne'
      rw [copyout_step hsrc]
      obtain ⟨b,u,hround,hready,hhas,hmore⟩ :=
        h.outRound va hg hsz (src.take (chunkOf va src.length))
      refine ends_bind_of_run hround ?_
      cases b with
      | false =>
        have hbad : ¬ OutReady ⟨sz,root⟩ A va src s (vpn va) := fun hr =>
          Bool.false_ne_true (hready.mpr (outReady_first.mp hr))
        refine ends_pure ⟨0,hn ▸ stopsAt_first hlen hbad,?_,fun k hk => hmore k (hk.le (by omega))⟩
        rwa [take_zero,put_nil]
      | true =>
        rw [if_pos rfl] at hhas ⊢
        have hfirst := hready.mp rfl
        have hv : vpn va < UVPN := lt_UVPN_of_ready hg hsz (hfirst.imp_left Writable.readable)
        have hdrop : (src.drop (chunkOf va src.length)).length =
            src.length-chunkOf va src.length := length_drop
        refine (ih _ (by omega) hhas (hg.update hv _) _ _ hdrop).mono fun b t ht => ?_
        obtain ⟨m,hstop,ht,hrest⟩ := ht
        refine ⟨chunkOf va src.length+m,?_,?_,fun k hk => hrest k (hmore _ (hk.le (by omega)))⟩
        · rw [← hn]
          exact hstop.cons hlen (outReady_first.mpr hfirst) fun v hv => outReady_rest hv hround _
        · rwa [put_step hsrc]

theorem inReady_first : InReady p A va s (vpn va) ↔
    Readable A (vpn va) ∨ Faults p A (vpn va) s := by
  refine or_congr Iff.rfl ?_
  simp only [InReaches,first_zero]
  constructor
  · rintro ⟨t,⟨xs,ht⟩,hf⟩
    exact (Prod.mk.inj (Except.ok.inj ht)).2 ▸ hf
  · exact fun hf => ⟨s,⟨[],rfl⟩,hf⟩

theorem inReaches_rest {xs : List UInt8} (hv : Touches (nextPage va) (len-chunkOf va len) v)
    (hround : (inRound p p.pagetable va (chunkOf va len)).run s = .ok (some xs,u)) (t : Ram) :
    InReaches p va v s t ↔ InReaches p (nextPage va) v u t := by
  have hlen : len ≠ 0 := by
    have hpos := (touches_iff.mp hv).1
    omega
  have hpos : 0 < chunkOf va len := chunkOf_pos hlen
  obtain ⟨hk,hfull,-⟩ := hv.before
  have hchunk : chunkOf va (chunkOf va len+(v*PGSIZE-nextPage va)) = chunkOf va len := by
    simp only [chunkOf,nextPage,PGROUNDDOWN,PGSIZE_eq] at hfull ⊢
    omega
  have hne : chunkOf va len+(v*PGSIZE-nextPage va) ≠ 0 := by omega
  have hrun (r : (Bool × List UInt8) × Ram) :
      (copyin p p.pagetable va (v*PGSIZE-va)).run s = .ok r ↔
        (do
          let r ← copyin p p.pagetable (nextPage va) (v*PGSIZE-nextPage va)
          pure (r.1,xs++r.2) : Op (Bool × List UInt8)).run u = .ok r := by
    rw [hk,copyin_step hne,hchunk,run_bind_of_run hround,Nat.add_sub_cancel_left]
  constructor
  · rintro ⟨ys,hys⟩
    rw [hrun,StateT.run_bind] at hys
    cases hrest : (copyin p p.pagetable (nextPage va) (v*PGSIZE-nextPage va)).run u with
    | error e =>
      rw [hrest] at hys
      cases hys
    | ok r =>
      obtain ⟨⟨b,zs⟩,t'⟩ := r
      rw [hrest] at hys
      obtain ⟨hr,ht⟩ := Prod.mk.inj (Except.ok.inj hys)
      obtain rfl : b = true := (Prod.mk.inj hr).1
      obtain rfl : t' = t := ht
      exact ⟨zs,hrest⟩
  · rintro ⟨ys,hys⟩
    refine ⟨xs++ys,(hrun _).mpr ?_⟩
    rw [run_bind_of_run hys]
    rfl

theorem inReady_rest {xs : List UInt8} (hv : Touches (nextPage va) (len-chunkOf va len) v)
    (hround : (inRound p p.pagetable va (chunkOf va len)).run s = .ok (some xs,u))
    (x : Option (ℕ × Page)) :
    InReady p A va s v ↔ InReady p (update A (vpn va) x) (nextPage va) u v := by
  have hne : v ≠ vpn va := fun he => not_touches_first (he ▸ hv)
  refine or_congr ?_ (exists_congr fun t => and_congr (inReaches_rest hv hround t)
    (faults_update hne x t).symm)
  rw [Readable,Readable,update_of_ne hne]

theorem seen_update_seen : Space.seen (update A v (some (A.seen v))) = A.seen := by
  funext w
  by_cases hw : w = v
  · rw [hw,seen_of_some (update_self ..)]
  · exact seen_update_of_ne hw

theorem bytes_update_seen : Space.bytes (update A v (some (A.seen v))) = A.bytes := by
  unfold Space.bytes Space.byte
  rw [seen_update_seen]

theorem bytes_add (A : Space) (va n m : ℕ) : A.bytes va (n+m) = A.bytes va n++A.bytes (va+n) m := by
  rw [Space.bytes,range_add,map_append,map_map]
  refine congrArg (_ ++ ·) (map_congr_left fun i _ => ?_)
  rw [comp_apply,Nat.add_assoc]

theorem bytes_first {n : ℕ} (hn : va % PGSIZE+n ≤ PGSIZE) :
    A.bytes va n = (A.seen (vpn va)).2.slice (va % PGSIZE) n := by
  refine map_congr_left fun i hi => ?_
  have hlt := mem_range.mp hi
  have hpage : vpn (va+i) = vpn va := by
    simp only [vpn,PGSIZE_eq] at *
    omega
  have hoff : (va+i) % PGSIZE = va % PGSIZE+i := by
    simp only [PGSIZE_eq] at *
    omega
  rw [Space.byte,hpage,hoff]

theorem Has.copyin_stops (h : Has X s₀ root A E s) (hg : Guarded A) (hsz : npages sz ≤ UVPN)
    (va len : ℕ) :
    Ends (Vm.copyin ⟨sz,root⟩ root va len) s fun r t => ∃ m,
      StopsAt (InReady ⟨sz,root⟩ A va s) va len r.1 m ∧ r.2 = A.bytes va m ∧
      Has X s₀ root (A.touch va m) E t ∧ ∀ k, Plenty (3*len+k) s → Plenty k t := by
  induction len using Nat.strong_induction_on generalizing s A va with
  | _ len ih =>
    by_cases hlen : len = 0
    · subst hlen
      refine ends_pure ⟨0,stopsAt_nil _ va,rfl,?_,fun k hk => hk.le (by omega)⟩
      rwa [touch_zero]
    · have hpos : 0 < chunkOf va len := chunkOf_pos hlen
      rw [copyin_step hlen]
      obtain ⟨o,u,hround,hready,hxs,hhas,hmore⟩ := h.inRound va hg hsz (chunkOf va len)
      refine ends_bind_of_run hround ?_
      cases o with
      | none =>
        have hbad : ¬ InReady ⟨sz,root⟩ A va s (vpn va) := fun hr =>
          Bool.false_ne_true (hready.mpr (inReady_first.mp hr))
        refine ends_pure ⟨0,stopsAt_first (Nat.pos_of_ne_zero hlen) hbad,rfl,?_,
          fun k hk => hmore k (hk.le (by omega))⟩
        rwa [touch_zero]
      | some xs =>
        rw [Option.isSome_some,if_pos rfl] at hhas
        have hfirst := hready.mp rfl
        have hv : vpn va < UVPN := lt_UVPN_of_ready hg hsz hfirst
        refine (ih (len-chunkOf va len) (by omega) hhas (hg.update hv _) _).bind fun r t ht => ?_
        obtain ⟨m,hstop,hbytes,ht,hrest⟩ := ht
        have hm := hstop.le
        refine ends_pure ⟨chunkOf va len+m,?_,?_,?_,
          fun k hk => hrest k (hmore _ (hk.le (by omega)))⟩
        · exact hstop.cons (Nat.pos_of_ne_zero hlen) (inReady_first.mpr hfirst) fun v hv =>
            inReady_rest hv hround _
        · rw [bytes_update_seen] at hbytes
          rw [bytes_add,bytes_first (chunkOf_fits va len),← hxs xs rfl,hbytes]
          rcases chunkOf_cases va len with hall | hfull
          · obtain rfl : m = 0 := by omega
            rfl
          · rw [hfull]
        · have hchunk : chunkOf va (chunkOf va len+m) = chunkOf va len := by
            simp only [chunkOf] at *
            omega
          rwa [touch_step (by omega),hchunk,Nat.add_sub_cancel_left]

end Loops

section Exact

variable {X : Multiset ℕ} {s : Ram} {A A' : Space} {root sz va len m : ℕ} {b : Bool}
  {src xs : List UInt8} {ready : ℕ → Prop}

theorem byte_put (A : Space) (va : ℕ) (src : List UInt8) (a : ℕ) : (A.put va src).byte a =
    if va ≤ a ∧ a < va+src.length then src.getD (a-va) 0 else A.byte a := by
  have ha : vpn a*PGSIZE+a % PGSIZE = a := Nat.div_add_mod' a PGSIZE
  have hlt : a % PGSIZE < PGSIZE := Nat.mod_lt _ (by norm_num)
  by_cases ht : Touches va src.length (vpn a)
  · rw [Space.byte,seen_of_some (put_of_touches ht),overlay_byte _ _ _ _ hlt,ha,Space.byte]
  · have hout : ¬ (va ≤ a ∧ a < va+src.length) := fun h =>
      ht ⟨a-va,by omega,by rw [Nat.add_sub_of_le h.1]⟩
    rw [if_neg hout,Space.byte,Space.seen,put_of_not_touches ht,Space.byte,Space.seen]

/-- What `copyout` returns for the bytes `src` at `va`, and what it makes of the address space
`A`. -/
structure StoresExactly (ready : ℕ → Prop) (A A' : Space) (va : ℕ) (src : List UInt8) (b : Bool) :
    Prop where
  returns : b = true ↔ ∀ v, Touches va src.length v → ready v
  all : b = true → A' = A.put va src
  changed : b = true → ∀ a, A'.byte a =
    if va ≤ a ∧ a < va+src.length then src.getD (a-va) 0 else A.byte a
  part : b = false → ∃ v, FirstBad ready va src.length v ∧
    A' = A.put va (src.take (v*PGSIZE - va))
  guarded : ∀ v x, A v = some x → x.1 &&& PTE_U = 0 → A' v = some x

/-- What `copyin` returns for `len` bytes at `va`, the bytes `xs` that it delivers, and what it
makes of the address space `A`. -/
structure FetchesExactly (ready : ℕ → Prop) (A A' : Space) (va len : ℕ) (b : Bool)
    (xs : List UInt8) : Prop where
  returns : b = true ↔ ∀ v, Touches va len v → ready v
  all : b = true → xs = A.bytes va len
  part : b = false → ∃ v, FirstBad ready va len v ∧ xs = A.bytes va (v*PGSIZE - va)
  present : A' = A.touch va xs.length
  guarded : ∀ i < xs.length, ∀ x, A (vpn (va+i)) = some x → x.1 &&& PTE_U ≠ 0

theorem StopsAt.storesExactly (h : StopsAt ready va src.length b m)
    (hready : ∀ v x, ready v → A v = some x → x.1 &&& PTE_U ≠ 0) :
    StoresExactly ready A (A.put va (src.take m)) va src b where
  returns := h.all_iff
  all hb := by
    subst hb
    rw [h.1,take_length]
  changed hb a := by
    subst hb
    rw [h.1,take_length,byte_put]
  part hb := by
    subst hb
    obtain ⟨v,hv,rfl⟩ := h
    exact ⟨v,hv,rfl⟩
  guarded v x hx hu := by
    have hm := h.le
    refine (put_of_not_touches fun ht => ?_).trans hx
    rw [length_take,Nat.min_eq_left hm] at ht
    exact hready v x (h.passed ht) hx hu

theorem StopsAt.fetchesExactly (h : StopsAt ready va len b m)
    (hready : ∀ v x, ready v → A v = some x → x.1 &&& PTE_U ≠ 0) :
    FetchesExactly ready A (A.touch va m) va len b (A.bytes va m) := by
  have hlen : (A.bytes va m).length = m := by
    rw [Space.bytes,length_map,length_range]
  refine ⟨h.all_iff,fun hb => ?_,fun hb => ?_,by rw [hlen],fun i hi x hx => ?_⟩
  · subst hb
    rw [h.1]
  · subst hb
    obtain ⟨v,hv,rfl⟩ := h
    exact ⟨v,hv,rfl⟩
  · rw [hlen] at hi
    exact hready _ x (h.passed ⟨i,hi,rfl⟩) hx

theorem user_of_ready {p : User} {v : ℕ} {P : Ram → Prop} {x : ℕ × Page}
    (h : Readable A v ∨ ∃ t, P t ∧ Faults p A v t) (hx : A v = some x) : x.1 &&& PTE_U ≠ 0 := by
  rcases h with ⟨y,hy,hu⟩ | ⟨-,-,hnone,-⟩
  · rw [hx] at hy
    rwa [Option.some.inj hy]
  · rw [hx] at hnone
    cases hnone

/-- `copyout` and `copyin` on the page table of the running process, of which nothing is assumed
but that the user cannot reach the trapframe and the trampoline.  `X` are the free pages and
those of the page table and of the user: all other memory stays as it is. -/
theorem user_copies_exact (h : Has X s root A 0 s) (hg : Guarded A) (hsz : npages sz ≤ UVPN)
    (va len : ℕ) (src : List UInt8) :
    (∃ b t A', (copyout ⟨sz,root⟩ root va src).run s = .ok (b,t) ∧ Has X s root A' 0 t ∧
      StoresExactly (OutReady ⟨sz,root⟩ A va src s) A A' va src b) ∧
    ∃ b xs t A', (copyin ⟨sz,root⟩ root va len).run s = .ok ((b,xs),t) ∧ Has X s root A' 0 t ∧
      FetchesExactly (InReady ⟨sz,root⟩ A va s) A A' va len b xs := by
  constructor
  · obtain ⟨b,t,hrun,m,hstop,ht,-⟩ := h.copyout_stops hg hsz va src
    exact ⟨b,t,_,hrun,ht,hstop.storesExactly fun v x hr hx =>
      user_of_ready (hr.imp_left Writable.readable) hx⟩
  · obtain ⟨⟨b,xs⟩,t,hrun,m,hstop,rfl,ht,-⟩ := h.copyin_stops hg hsz va len
    exact ⟨b,_,t,_,hrun,ht,hstop.fetchesExactly fun v x hr hx => user_of_ready hr hx⟩

/-- A fault on a page below the break gets its memory while there is plenty of it. -/
theorem Has.allocatable {s₀ : Ram} {E : Multiset ℕ} {v : ℕ} (h : Has X s₀ root A E s)
    (hsz : npages sz ≤ UVPN) (hv : A v = none) (hlt : v*PGSIZE < sz) (hp : Plenty 3 s) :
    Allocatable ⟨sz,root⟩ v s := by
  obtain ⟨r,t,hrun,hpage⟩ := h.vmfault (v := v) hsz fun x hx => by
    rw [hv] at hx
    cases hx
  refine ⟨r,t,hrun,?_⟩
  cases hpage with
  | absent _ hno =>
    have hflags := (hno 0 hp).2 (faultFlags,Bytes.zero PGSIZE) (by rw [logical_of_none hv,if_pos hlt])
    exact absurd hflags (by decide)
  | present hr => exact hr

/-- An empty page table and three free pages. -/
def threePages : Ram where
  mem _ := Bytes.zero PGSIZE
  free := [0x80200000,0x80201000,0x80202000]
  luck := []
  kend := 0x80001000
  trampoline := 0x80000000
  debug := false

abbrev emptyTable : ℕ := 0x80100000

theorem threePages_has :
    Has ↑[0x80200000,0x80201000,0x80202000,emptyTable] threePages emptyTable (fun _ => none) 0
      threePages := by
  refine Bare.empty (E := 0) ⟨⟨by decide,by decide,?_⟩,by decide,fun _ _ => rfl,rfl⟩ rfl
  decide

/-- A byte stored in a page that is not there yet. -/
theorem user_copies_exact_fault : ∃ t, ∃ A' : Space,
    (copyout ⟨PGSIZE,emptyTable⟩ emptyTable 5 [7]).run threePages = .ok (true,t) ∧
      A'.byte 5 = 7 ∧ A'.byte 6 = 0 := by
  have hsz : npages PGSIZE ≤ UVPN := by decide
  obtain ⟨⟨b,t,A',hrun,-,hex⟩,-⟩ := user_copies_exact threePages_has (fun _ _ _ hx => nomatch hx)
    hsz 5 0 [7]
  have hfault : Allocatable ⟨PGSIZE,emptyTable⟩ 0 threePages :=
    threePages_has.allocatable hsz rfl (by decide) ⟨rfl,by decide⟩
  have hb : b = true := by
    refine hex.returns.mpr fun v hv => ?_
    obtain rfl : v = vpn 5 := by
      obtain ⟨i,hi,rfl⟩ := hv
      obtain rfl : i = 0 := by
        rw [length_singleton] at hi
        omega
      rfl
    exact outReady_first.mpr (Or.inr ⟨rfl,by decide,hfault⟩)
  subst hb
  refine ⟨t,A',hrun,?_,?_⟩
  · rw [hex.changed rfl]
    rfl
  · rw [hex.changed rfl]
    rfl

end Exact
end Xv6.Vm
