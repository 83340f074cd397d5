import Xv6.Lib.CString
import Xv6.Vm.Copies

/-! Strings in user memory: `copyinstr` and `fetchstr`. -/
namespace Xv6.Vm

open Prog List

/-- The loop of `strlen`, which gives up after 4096 characters. -/
def strlenFrom : ℕ → List UInt8 → ℕ
  | n, [] => n
  | n, c::s => if c = 0 then n else if 4096 < n then n else strlenFrom (n+1) s

def strlen (s : List UInt8) : ℕ := strlenFrom 0 s

/-- The length or `-1`, and the buffer afterwards. -/
def fetchstr (p : User) (addr : ℕ) (buf : List UInt8) (max : ℕ) : Op (ℤ × List UInt8) := do
  let r ← copyinstr p.pagetable addr max
  let buf := overwrite buf 0 r.2
  if r.1 then pure (strlen buf,buf) else pure (-1,buf)

/-- The user can read `k` characters at `va` and the NUL that follows them. -/
structure StringAt (A : Space) (va k : ℕ) : Prop where
  readable : ∀ i ≤ k, Readable A (vpn (va+i))
  chars : ∀ i < k, A.byte (va+i) ≠ 0
  nul : A.byte (va+k) = 0

section Scan

variable {A : Space} {va n k max : ℕ} {xs rest w : List UInt8}

theorem strlenFrom_append (hw : 0 ∉ w) (hlen : n+w.length ≤ 4097) :
    strlenFrom n (w++0::rest) = n+w.length := by
  induction w generalizing n with
  | nil => rfl
  | cons c w ih =>
    rw [mem_cons,not_or] at hw
    rw [length_cons] at hlen ⊢
    rw [cons_append,strlenFrom,if_neg (Ne.symm hw.1),if_neg (by omega),ih hw.2 (by omega)]
    omega

theorem bytes_length : (A.bytes va n).length = n := by
  rw [Space.bytes,length_map,length_range]

theorem bytes_succ (A : Space) (va n : ℕ) : A.bytes va (n+1) = A.byte va::A.bytes (va+1) n := by
  rw [Nat.add_comm n 1,bytes_add]
  rfl

/-- A string that does not end with its first byte. -/
theorem stringAt_succ (hread : Readable A (vpn va)) (hne : A.byte va ≠ 0) :
    StringAt A va (k+1) ↔ StringAt A (va+1) k := by
  have hadd (i : ℕ) : va+1+i = va+(i+1) := by omega
  constructor
  · rintro ⟨hr,hc,hz⟩
    exact ⟨fun i hi => hadd i ▸ hr (i+1) (by omega),fun i hi => hadd i ▸ hc (i+1) (by omega),
      hadd k ▸ hz⟩
  · rintro ⟨hr,hc,hz⟩
    refine ⟨fun i hi => ?_,fun i hi => ?_,hadd k ▸ hz⟩
    · cases i with
      | zero => exact hread
      | succ i => exact hadd i ▸ hr i (by omega)
    · cases i with
      | zero => exact hne
      | succ i => exact hadd i ▸ hc i (by omega)

end Scan

/-- What a search for a string of less than `max` characters at `va` returns and delivers. -/
inductive Fetched (A : Space) : ℕ → ℕ → Bool × List UInt8 → Prop
  | full {va : ℕ} : Fetched A va 0 (false,[])
  | fault {va max : ℕ} : ¬ Readable A (vpn va) → Fetched A va max (false,[])
  | nul {va max : ℕ} : Readable A (vpn va) → A.byte va = 0 → Fetched A va (max+1) (true,[0])
  | char {va max : ℕ} {r : Bool × List UInt8} : Readable A (vpn va) → A.byte va ≠ 0 →
      Fetched A (va+1) max r → Fetched A va (max+1) (r.1,A.byte va::r.2)

section Fetched

variable {A : Space} {va max n k : ℕ} {r : Bool × List UInt8}

/-- A search goes over the first `n` bytes as `scanNull` does. -/
theorem fetched_scan (hread : ∀ i < n, Readable A (vpn (va+i))) (hn : n ≤ max)
    (h : (scanNull (A.bytes va n)).1 = false → Fetched A (va+n) (max-n) r) :
    Fetched A va max (if (scanNull (A.bytes va n)).1 then (true,(scanNull (A.bytes va n)).2)
      else (r.1,(scanNull (A.bytes va n)).2++r.2)) := by
  induction n generalizing va max with
  | zero => exact h rfl
  | succ n ih =>
    obtain ⟨max,rfl⟩ : ∃ m, max = m+1 := ⟨max-1,by omega⟩
    have hadd (i : ℕ) : va+1+i = va+(i+1) := by omega
    rw [bytes_succ,scanNull] at h ⊢
    by_cases hz : A.byte va = 0
    · rw [if_pos hz]
      exact .nul (hread 0 (by omega)) hz
    · rw [if_neg hz] at h ⊢
      have hnext (hf : (scanNull (A.bytes (va+1) n)).1 = false) :
          Fetched A (va+1+n) (max-n) r := by
        rw [hadd,← Nat.add_sub_add_right max 1 n]
        exact h hf
      have hrest := ih (fun i hi => hadd i ▸ hread (i+1) (by omega)) (by omega) hnext
      have hchar := Fetched.char (hread 0 (by omega)) hz hrest
      split at hchar <;> rename_i hb
      · rw [if_pos hb]
        exact hchar
      · rw [if_neg hb]
        exact hchar

theorem Fetched.length_le (h : Fetched A va max r) : r.2.length ≤ max := by
  induction h with
  | full | fault => exact Nat.zero_le _
  | nul => exact Nat.succ_le_succ (Nat.zero_le _)
  | char _ _ _ ih => exact Nat.succ_le_succ ih

/-- A string that is there is found. -/
theorem Fetched.found (h : Fetched A va max r) (hk : k < max) (hs : StringAt A va k) :
    r = (true,A.bytes va (k+1)) := by
  induction h generalizing k with
  | full => exact absurd hk (Nat.not_lt_zero k)
  | fault hno => exact absurd (hs.readable 0 (Nat.zero_le k)) hno
  | nul hread hz =>
    cases k with
    | zero => exact congrArg (fun c => (true,[c])) hz.symm
    | succ k => exact absurd hz (hs.chars 0 (Nat.succ_pos k))
  | char hread hne _ ih =>
    cases k with
    | zero => exact absurd hs.nul hne
    | succ k =>
      rw [ih (by omega) ((stringAt_succ hread hne).mp hs),bytes_succ _ _ (k+1)]

/-- What is found is a string. -/
theorem Fetched.string (h : Fetched A va max r) (hr : r.1 = true) : ∃ k < max, StringAt A va k := by
  induction h with
  | full | fault => cases hr
  | nul hread hz =>
    refine ⟨0,Nat.succ_pos _,fun i hi => ?_,nofun,hz⟩
    obtain rfl : i = 0 := by omega
    exact hread
  | char hread hne _ ih =>
    obtain ⟨k,hk,hs⟩ := ih hr
    exact ⟨k+1,by omega,(stringAt_succ hread hne).mpr hs⟩

end Fetched

section Copyinstr

variable {X E : Multiset ℕ} {s₀ s : Ram} {A : Space} {root rounds va max : ℕ}

theorem Has.copyinstrFrom (h : Has X s₀ root A E s) (hg : Guarded A) (va : ℕ) (hr : max ≤ rounds)
    (dst : List UInt8) : ∃ r, Fetched A va max r ∧
      (copyinstrFrom root rounds va max dst).run s = .ok ((r.1,dst++r.2),s) := by
  induction rounds generalizing va max dst with
  | zero =>
    obtain rfl : max = 0 := by omega
    exact ⟨(false,[]),.full,by rw [append_nil]; rfl⟩
  | succ rounds ih =>
    rw [Vm.copyinstrFrom]
    by_cases hmax : max = 0
    · subst hmax
      exact ⟨(false,[]),.full,by rw [append_nil]; rfl⟩
    · rw [if_neg hmax]
      have hpos : 0 < chunkOf va max := chunkOf_pos hmax
      have hle := chunkOf_le va max
      obtain ⟨r,hrun,⟨rfl,hu⟩ | ⟨hr0,hv,⟨x,hx,hu⟩,hat⟩⟩ := h.walkaddr (v := vpn va) hg
      · refine ⟨(false,[]),.fault fun ⟨x,hx,hux⟩ => hux (hu x hx),?_⟩
        rw [PGROUNDDOWN_eq,run_bind_of_run hrun,if_pos rfl,append_nil]
        rfl
      · have hfits := chunkOf_fits va max
        have hread (i : ℕ) (hi : i < chunkOf va max) : Readable A (vpn (va+i)) := by
          have hpage : vpn (va+i) = vpn va := by
            simp only [vpn,PGSIZE_eq] at *
            omega
          rw [hpage]
          exact ⟨x,hx,hu⟩
        have hslice : (s.mem r).slice (va % PGSIZE) (chunkOf va max) =
            A.bytes va (chunkOf va max) := by
          rw [bytes_first hfits,seen_of_some hx,hat.page hv hx]
        obtain ⟨q,hq,hrest⟩ : ∃ q, ((scanNull (A.bytes va (chunkOf va max))).1 = false →
            Fetched A (va+chunkOf va max) (max-chunkOf va max) q) ∧
            (Vm.copyinstrFrom root rounds (nextPage va) (max-chunkOf va max)
              (dst++(scanNull (A.bytes va (chunkOf va max))).2)).run s =
              .ok ((q.1,dst++(scanNull (A.bytes va (chunkOf va max))).2++q.2),s) := by
          obtain ⟨q,hq,hrest⟩ := ih (nextPage va) (show max - chunkOf va max ≤ rounds by omega)
            (dst++(scanNull (A.bytes va (chunkOf va max))).2)
          refine ⟨q,fun _ => ?_,hrest⟩
          rcases chunkOf_cases va max with hall | hfull
          · rw [hall,Nat.sub_self] at hq ⊢
            cases hq with
            | full => exact .full
            | fault => exact .full
          · rwa [hfull]
        refine ⟨_,fetched_scan hread hle hq,?_⟩
        rw [PGROUNDDOWN_eq,run_bind_of_run hrun,if_neg hr0,← PGROUNDDOWN_eq,
          run_bind_of_run (a := s) (t := s) rfl,chunkOf_eq,sub_PGROUNDDOWN,hslice]
        by_cases hb : (scanNull (A.bytes va (chunkOf va max))).1 = true
        · rw [if_pos hb,if_pos hb]
          rfl
        · rw [if_neg hb,if_neg hb,hrest,append_assoc]

theorem Has.copyinstr (h : Has X s₀ root A E s) (hg : Guarded A) (va max : ℕ) :
    ∃ r, Fetched A va max r ∧ (copyinstr root va max).run s = .ok (r,s) := by
  obtain ⟨r,hr,hrun⟩ := h.copyinstrFrom hg va (Nat.le_refl max) []
  exact ⟨r,hr,hrun⟩

/-- The string at `va` and its NUL, as `strlen` reads them back. -/
theorem StringAt.strlen {k : ℕ} (h : StringAt A va k) (hk : k < 4096) (rest : List UInt8) :
    strlen (A.bytes va (k+1)++rest) = k := by
  have hnul : A.bytes (va+k) 1 = [0] := congrArg (fun c => [c]) h.nul
  have hne : 0 ∉ A.bytes va k := by
    intro hmem
    obtain ⟨i,hi,hz⟩ := mem_map.mp hmem
    exact h.chars i (mem_range.mp hi) hz
  have hlen : strlenFrom 0 (A.bytes va k++0::rest) = 0+(A.bytes va k).length :=
    strlenFrom_append hne (by rw [bytes_length]; omega)
  rw [bytes_add,hnul,append_assoc,Vm.strlen]
  rwa [bytes_length,Nat.zero_add] at hlen

/-- `copyinstr` for every page table of a process, every address and every `max`: it succeeds if
and only if there is a string of less than `max` characters, delivers just the string with its
NUL, and `fetchstr` returns its length. -/
theorem copyinstr_exact (h : Has X s₀ root A E s) (hg : Guarded A) (va max : ℕ) :
    ∃ b xs, (Vm.copyinstr root va max).run s = .ok ((b,xs),s) ∧
      (b = true ↔ ∃ k < max, StringAt A va k) ∧
      (∀ k < max, StringAt A va k → xs = A.bytes va (k+1) ∧
        (max ≤ PGSIZE → ∀ sz buf, ∃ buf',
          (fetchstr ⟨sz,root⟩ va buf max).run s = .ok (((k : ℤ),buf'),s))) ∧
      (b = false → xs.length ≤ max) := by
  obtain ⟨r,hr,hrun⟩ := h.copyinstr hg va max
  refine ⟨r.1,r.2,hrun,⟨hr.string,fun ⟨k,hk,hs⟩ => ?_⟩,fun k hk hs => ?_,fun _ => hr.length_le⟩
  · rw [hr.found hk hs]
  · obtain rfl := hr.found hk hs
    refine ⟨rfl,fun hmax sz buf => ⟨overwrite buf 0 (A.bytes va (k+1)),?_⟩⟩
    have hlen : strlen (overwrite buf 0 (A.bytes va (k+1))) = k :=
      hs.strlen (lt_of_lt_of_le hk hmax) _
    rw [fetchstr,run_bind_of_run hrun,if_pos rfl,hlen]
    rfl

/-- After a page fault at address 0, there is an empty string at it. -/
theorem copyinstr_exact_empty : ∃ t A, StringAt A 0 0 ∧
    (Vm.copyinstr emptyTable 0 1).run t = .ok ((true,[0]),t) := by
  have hnone : Guarded fun _ => none := fun _ _ _ hx => nomatch hx
  have hsz : npages PGSIZE ≤ UVPN := by decide
  obtain ⟨r,t,-,hlook,-⟩ := threePages_has.look (v := 0) hnone hsz
  cases hlook with
  | absent _ _ hno =>
    exact absurd ⟨rfl,by decide,threePages_has.allocatable hsz rfl (by decide)
      ⟨rfl,by decide⟩⟩ hno
  | present _ hv hu _ hat =>
    set A := Function.update (fun _ => none) 0 (some (Space.seen (fun _ => none) 0)) with hA
    have hself : A 0 = some (Space.seen (fun _ => none) 0) := Function.update_self ..
    have hg : Guarded A := hnone.update hv _
    have hs : StringAt A 0 0 := by
      refine ⟨fun i hi => ?_,nofun,?_⟩
      · obtain rfl : i = 0 := by omega
        exact ⟨_,hself,hu⟩
      · rw [Space.byte]
        exact (congrArg (fun x : ℕ × Page => x.2.byte 0) (seen_of_some hself)).trans
          (Bytes.byte_zero 0)
    obtain ⟨b,xs,hrun,hb,hxs,-⟩ := copyinstr_exact hat.has hg 0 1
    obtain rfl : b = true := hb.mpr ⟨0,Nat.zero_lt_one,hs⟩
    refine ⟨t,A,hs,?_⟩
    rw [hrun,(hxs 0 Nat.zero_lt_one hs).1]
    exact congrArg (fun c => Except.ok ((true,[c]),t)) hs.nul

end Copyinstr
end Xv6.Vm
