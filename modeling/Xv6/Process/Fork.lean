import Xv6.Process.Sbrk

/-! Making and freeing processes: `allocproc`, `freeproc` and `kfork`.
Of `kfork` the reference counts of files and directories are left out. -/
namespace Xv6.Process

open Vm Prog Function Multiset

def freeproc (p : Proc) : Op Proc := do
  if p.trapframe ≠ 0 then kfree p.trapframe
  if p.pagetable ≠ 0 then procFreepagetable p.pagetable p.sz
  pure .empty

/-- `allocproc` from the label `found` on; whether it succeeds, and the slot afterwards. -/
def allocproc (p : Proc) : Op (Bool × Proc) := do
  let p := { p with state := .live }
  match ← kalloc with
  | none => do
    let p ← freeproc { p with trapframe := 0 }
    pure (false,p)
  | some trapframe => do
    let p := { p with trapframe := trapframe }
    match ← procPagetable trapframe with
    | none => do
      let p ← freeproc { p with pagetable := 0 }
      pure (false,p)
    | some pagetable => pure (true,{ p with pagetable := pagetable })

abbrev Slots := Fin NPROC → Proc

/-- The first slot that is UNUSED. -/
def Slots.unused (proc : Slots) : Option (Fin NPROC) :=
  (List.finRange NPROC).find? fun j => decide ((proc j).state = .unused)

/-- The slot of the child, or none for `-1`, and the process table afterwards. -/
def kfork (proc : Slots) (i : Fin NPROC) : Op (Option (Fin NPROC) × Slots) := do
  match proc.unused with
  | none => pure (none,proc)
  | some j => do
    let r ← allocproc (proc j)
    let np := r.2
    if !r.1 then pure (none,update proc j np) else
    let p := proc i
    if ← uvmcopy p.pagetable np.pagetable p.sz then do
      let s ← get
      memmoveTo np.trapframe 0 ((s.mem p.trapframe).slice 0 TFSIZE)
      setReg np.trapframe A0 0
      pure (some j,update proc j
        { np with sz := p.sz, name := p.name, parent := some i, state := .live })
    else do
      let np ← freeproc np
      pure (none,update proc j np)

/-! The page table of a new process. -/

/-- What `proc_pagetable` maps. -/
def kernelSpace : Space :=
  update (update (fun _ => none) (UVPN+1) (some (PTE_R ||| PTE_X ||| PTE_V,fill 0)))
    UVPN (some (PTE_R ||| PTE_W ||| PTE_V,fill 0))

theorem TRAMPOLINE_eq : TRAMPOLINE = (UVPN+1)*PGSIZE := rfl

theorem TRAPFRAME_eq : TRAPFRAME = UVPN*PGSIZE := rfl

theorem kernelSpace_user {v : ℕ} (hv : v < UVPN) : kernelSpace v = none := by
  rw [kernelSpace,update_of_ne (by omega),update_of_ne (by omega)]

section Tables

variable {X E : Multiset ℕ} {s₀ s : Ram} {A : Space} {root sz tf : ℕ}

theorem Has.trampoline (h : Has X s₀ root A E s) : s.trampoline = s₀.trampoline := by
  obtain ⟨T,-,hT,-⟩ := h
  exact congrArg (fun c => c.2.1) hT.consts

theorem TRAMPOLINE_room : (UVPN+1)*PGSIZE+PGSIZE ≤ MAXVA := by
  rw [UVPN_eq,PGSIZE_eq,MAXVA_eq]

theorem TRAPFRAME_room : UVPN*PGSIZE+PGSIZE ≤ MAXVA := by
  rw [UVPN_eq,PGSIZE_eq,MAXVA_eq]
  norm_num

/-- The page of `trampoline.S` can be mapped. -/
def Mappable (a : ℕ) : Prop := a % PGSIZE = 0 ∧ a + PGSIZE ≤ 2^56

theorem Bare.procPagetable (h : Bare X s₀ (tf ::ₘ E) s) (htramp : Mappable s₀.trampoline) :
    Ends (procPagetable tf) s fun o t => match o with
      | none => Bare X s₀ (tf ::ₘ E) t
      | some root => Has X s₀ root kernelSpace (tf ::ₘ E) t := by
  have hmem : tf ∈ X := h.mem_X (Or.inr (mem_cons_self tf E))
  have htf := h.pool.isPage hmem
  have hroom : tf+PGSIZE ≤ 2^56 := by
    have h1 := htf.1
    have h2 := htf.2.2
    rw [PGSIZE_eq] at h1 ⊢
    omega
  rw [Process.procPagetable]
  refine h.uvmcreate.bind fun o t ht => ?_
  cases o with
  | none => exact ends_pure ht
  | some root =>
    refine ends_bind_of_run (a := t) (t := t) rfl ?_
    rw [Has.trampoline ht,TRAMPOLINE_eq]
    refine (ht.mapShared (v := UVPN+1) (by omega) TRAMPOLINE_room rfl htramp.1 htramp.2
      (by decide)).bind fun r u hu => ?_
    cases r with
    | false =>
      rw [if_neg Bool.false_ne_true] at hu ⊢
      have hfree : Ends (uvmfree root 0) u fun _ w => Bare X s₀ (tf ::ₘ E) w :=
        hu.uvmfree (Nat.zero_le _) fun _ _ => rfl
      exact hfree.bind fun _ w hw => ends_pure hw
    | true =>
      rw [if_pos rfl] at hu ⊢
      rw [TRAPFRAME_eq]
      have hnone : update (fun _ => none : Space) (UVPN+1)
          (some (PTE_R ||| PTE_X ||| PTE_V,fill 0)) UVPN = none :=
        update_of_ne (by omega) ..
      refine (hu.mapShared (v := UVPN) le_rfl TRAPFRAME_room hnone htf.1 hroom (by decide)).bind
        fun r u hu => ?_
      cases r with
      | true =>
        rw [if_pos rfl] at hu ⊢
        exact ends_pure hu
      | false =>
        rw [if_neg Bool.false_ne_true] at hu ⊢
        refine (hu.uvmunmapShared (by omega) TRAMPOLINE_room).bind fun _ w hw => ?_
        have hfree : Ends (uvmfree root 0) w fun _ w => Bare X s₀ (tf ::ₘ E) w := by
          refine hw.uvmfree (Nat.zero_le _) fun v _ => ?_
          rw [update_idem]
          by_cases hv : v = UVPN+1
          · rw [hv,update_self]
          · rw [update_of_ne hv]
        exact hfree.bind fun _ w hw => ends_pure hw

/-- The pages of a process of `sz` bytes: user pages below the break, and the kernel's two. -/
def Tidy (sz : ℕ) (A : Space) : Prop :=
  npages sz ≤ UVPN ∧ ∀ v, npages sz ≤ v → v ≠ UVPN → v ≠ UVPN+1 → A v = none

theorem kernelSpace_tidy : Tidy 0 kernelSpace := by
  refine ⟨Nat.zero_le _,fun v _ h0 h1 => ?_⟩
  rw [kernelSpace,update_of_ne h0,update_of_ne h1]

theorem Has.procFreepagetable (h : Has X s₀ root A E s) (ht : Tidy sz A) :
    Ends (procFreepagetable root sz) s fun _ t => Bare X s₀ E t := by
  rw [Process.procFreepagetable,TRAMPOLINE_eq,TRAPFRAME_eq]
  refine (h.uvmunmapShared (by omega) TRAMPOLINE_room).bind fun _ t h1 => ?_
  refine (h1.uvmunmapShared le_rfl TRAPFRAME_room).bind fun _ t h2 => ?_
  refine h2.uvmfree ht.1 fun v hv => ?_
  by_cases h0 : v = UVPN
  · rw [h0,update_self]
  · rw [update_of_ne h0]
    by_cases h1 : v = UVPN+1
    · rw [h1,update_self]
    · rw [update_of_ne h1,ht.2 v hv h0 h1]

theorem Has.freeproc {p : Proc} (h : Has X s₀ p.pagetable A (p.trapframe ::ₘ E) s)
    (ht : Tidy p.sz A) : Ends (freeproc p) s fun q t => q = .empty ∧ Bare X s₀ E t := by
  obtain ⟨T,hroot,hT,hview⟩ := h
  have hX : p.trapframe ∈ X :=
    hT.mem_X (Or.inr (Or.inr (Or.inr (mem_cons_self p.trapframe E))))
  have htf : p.trapframe ≠ 0 := (hT.pool.isPage hX).2.1.ne'
  have hpt : p.pagetable ≠ 0 := by
    rw [← hroot]
    exact (hT.pool.isPage (hT.mem_X (Or.inr (Or.inl T.root_mem_pages)))).2.1.ne'
  obtain ⟨hrun,hfreed,hview'⟩ := hT.kfree
  have hhas : Has X s₀ p.pagetable A E (s.push p.trapframe) := ⟨T,hroot,hfreed,hview'.trans hview⟩
  rw [Process.freeproc,if_pos htf]
  refine ends_bind_of_run hrun ?_
  rw [if_pos hpt]
  exact (Has.procFreepagetable hhas ht).bind fun _ t ht => ends_pure ⟨rfl,ht⟩

theorem Bare.freeproc {p : Proc} (h : Bare X s₀ (p.trapframe ::ₘ E) s) (hpt : p.pagetable = 0) :
    Ends (freeproc p) s fun q t => q = .empty ∧ Bare X s₀ E t := by
  have hX : p.trapframe ∈ X := h.mem_X (Or.inr (mem_cons_self p.trapframe E))
  have htf : p.trapframe ≠ 0 := (h.pool.isPage hX).2.1.ne'
  rw [Process.freeproc,if_pos htf]
  refine h.kfree.bind fun _ t ht => ?_
  rw [if_neg (not_not.mpr hpt)]
  exact ends_pure ⟨rfl,ht⟩

/-- What `allocproc` makes of an empty slot. -/
theorem Bare.allocproc (h : Bare X s₀ E s) (htramp : Mappable s₀.trampoline) :
    Ends (allocproc .empty) s fun r t => match r with
      | (false,p) => p = .empty ∧ Bare X s₀ E t
      | (true,p) => p.sz = 0 ∧ p.exec = none ∧
          Has X s₀ p.pagetable kernelSpace (p.trapframe ::ₘ E) t := by
  rw [Process.allocproc]
  rcases kalloc_cases s with ⟨hk,-⟩ | ⟨tf,rest,hf,hk⟩
  · exact ends_bind_of_run hk (ends_pure ⟨rfl,h.spend⟩)
  · refine ends_bind_of_run hk ?_
    refine (Bare.procPagetable (h.pop hf) htramp).bind fun o t ht => ?_
    cases o with
    | none =>
      refine (Bare.freeproc (p := { Proc.empty with state := .live, trapframe := tf }) ht rfl).bind
        fun p u hu => ends_pure hu
    | some root => exact ends_pure ⟨rfl,rfl,ht⟩

end Tables

/-! The copy. -/

/-- The physical page and the flags that the page table at `root` has for page `v`. -/
def translate (s : Ram) (root v : ℕ) : Option (ℕ × ℕ) :=
  match (lookup root (v*PGSIZE)).run s with
  | .ok (o,_) => o
  | .error _ => none

/-- In `t` the page table at `new` maps a copy of the first `sz` bytes that the one at `old` mapped
in `s`, in pages that were free. -/
structure Duplicate (s t : Ram) (old new sz : ℕ) : Prop where
  absent : ∀ v, v*PGSIZE < sz → (translate t new v = none ↔ translate s old v = none)
  copied : ∀ v a f a' f', v*PGSIZE < sz → translate s old v = some (a,f) →
    translate t new v = some (a',f') → f' = f ∧ t.mem a' = s.mem a ∧ a' ∈ s.free
  apart : ∀ u v a f x, u*PGSIZE < sz → v*PGSIZE < sz → translate s old u = some (a,f) →
    translate t new v = some x → x.1 ≠ a
  inj : ∀ u v x y, u*PGSIZE < sz → v*PGSIZE < sz → translate t new u = some x →
    translate t new v = some y → x.1 = y.1 → u = v

section Fork

variable {X E : Multiset ℕ} {s₀ s t : Ram} {B : Space} {old new sz v : ℕ}

theorem Bare.start (h : Pool s.kend (s.free : Multiset ℕ)) : Bare (s.free : Multiset ℕ) s 0 s :=
  ⟨h,add_zero _,fun _ _ => rfl,rfl⟩

section Trapframe

variable {A : Space} {root tf : ℕ}

theorem Has.setTrapframe (h : Has X s₀ root A (tf ::ₘ E) s) (x : Page) :
    Has X s₀ root A (tf ::ₘ E) (s.setPage tf x) := by
  obtain ⟨T,hroot,hT,hview⟩ := h
  obtain ⟨hT',hview'⟩ := hT.setPage (mem_cons_self tf E) x
  exact ⟨T,hroot,hT',hview'.trans hview⟩

theorem Has.setReg (h : Has X s₀ root A (tf ::ₘ E) s) (off v : ℕ) :
    Ends (setReg tf off v) s fun _ t => Has X s₀ root A (tf ::ₘ E) t :=
  ⟨(),_,rfl,Has.setTrapframe h _⟩

end Trapframe

theorem Has.kept {A : Space} {root a : ℕ} (h : Has X s₀ root A E s) (ha : a ∉ X) :
    s.mem a = s₀.mem a := by
  obtain ⟨T,-,hT,-⟩ := h
  exact hT.kept a ha

end Fork

/-- One process, with a page that is not there yet. -/
def alone : Slots :=
  update (fun _ => .empty) 0 { Proc.empty with state := .live, sz := 1, pagetable := emptyTable }

end Xv6.Process
