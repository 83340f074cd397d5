import Xv6.Pipes.Fifo

/-! What one call of `piperead` takes out of the pipe, and what its caller gets of it. -/
namespace Xv6
namespace Pipes

open Function

/-- The second loop of `piperead`, with the rounds left.  `out i` says whether the `copyout` of
byte `i` succeeds; `dst` is the user's memory from `addr` on. -/
def readLoop (out : ℕ → Bool) : ℕ → ℕ → Pipe → (ℕ → UInt8) → ℕ × Pipe × (ℕ → UInt8)
  | 0, i, pi, dst => (i,pi,dst)
  | rounds+1, i, pi, dst =>
    match pi.buf.pop UINT with
    | none => (i,pi,dst)
    | some (ch,buf) =>
      if out i then readLoop out rounds (i+1) { pi with buf } (update dst i ch)
      else (i,{ pi with buf },dst)

/-- `piperead` from the head of its first loop on, with the lock held; `none` when it goes to
sleep, from which it comes back to the same place. -/
def Pipe.piperead (pi : Pipe) (killed : Bool) (out : ℕ → Bool) (n : ℤ) (dst : ℕ → UInt8) :
    Option (ℤ × Pipe × (ℕ → UInt8)) :=
  if pi.isEmpty ∧ pi.writeopen then if killed then some (-1,pi,dst) else none
  else
    let r := readLoop out n.toNat 0 pi dst
    some (r.1,r.2.1,r.2.2)

variable {out : ℕ → Bool} {pi : Pipe} {dst : ℕ → UInt8} {xs : List UInt8} {i rounds : ℕ}

/-- The loop has delivered `m` bytes and removed `gone`. -/
structure Delivers (out : ℕ → Bool) (pi : Pipe) (dst : ℕ → UInt8) (xs : List UInt8) (i rounds : ℕ)
    (r : ℕ × Pipe × (ℕ → UInt8)) (m gone : ℕ) : Prop where
  ret : r.1 = i+m
  left : r.2.1.buf.Holds UINT (xs.drop gone)
  nread : r.2.1.nread = (pi.nread+gone) % UINT
  bytes : ∀ k < m, xs[k]? = some (r.2.2 (i+k))
  others : ∀ j < i, r.2.2 j = dst j
  stored : ∀ k < m, out (i+k) = true
  ends : gone = m ∧ m = min rounds xs.length ∨
    gone = m+1 ∧ m < min rounds xs.length ∧ out (i+m) = false

theorem pop_nread {buf : Ring PIPESIZE UInt8} {ch : UInt8} (h : pi.buf.pop UINT = some (ch,buf)) :
    buf.cons = (pi.nread+1) % UINT := by
  unfold Ring.pop at h
  split at h
  · cases h
  · rw [← (Prod.mk.inj (Option.some.inj h)).2]
    rfl

theorem nread_lt (hx : pi.buf.Holds UINT xs) : pi.nread < UINT := by
  obtain ⟨-,b,hc,-⟩ := hx
  rw [Pipe.nread,hc]
  exact Nat.mod_lt b (by decide)

theorem delivers_nothing (hx : pi.buf.Holds UINT xs) (hend : min rounds xs.length = 0) :
    Delivers out pi dst xs i rounds (i,pi,dst) 0 0 :=
  ⟨rfl,hx,(Nat.mod_eq_of_lt (nread_lt hx)).symm,by simp,fun _ _ => rfl,by simp,.inl ⟨rfl,hend.symm⟩⟩

/-- One byte is delivered, and then what the other rounds deliver. -/
theorem Delivers.cons {buf : Ring PIPESIZE UInt8} {ch : UInt8} {m gone : ℕ}
    {r : ℕ × Pipe × (ℕ → UInt8)}
    (h : Delivers out { pi with buf } (update dst i ch) xs (i+1) rounds r m gone)
    (hbuf : buf.cons = (pi.nread+1) % UINT) (ho : out i = true) :
    Delivers out pi dst (ch::xs) i (rounds+1) r (m+1) (gone+1) where
  ret := by rw [h.ret,Nat.add_right_comm,Nat.add_assoc]
  left := h.left
  nread := by
    rw [h.nread]
    change (buf.cons+gone) % UINT = (pi.nread+(gone+1)) % UINT
    rw [hbuf,Nat.mod_add_mod,Nat.add_right_comm,Nat.add_assoc]
  bytes k hk := by
    cases k with
    | zero =>
      have hkept := h.others i (Nat.lt_succ_self i)
      rw [update_self] at hkept
      rw [Nat.add_zero,hkept]
      rfl
    | succ k =>
      rw [List.getElem?_cons_succ,h.bytes k (Nat.lt_of_succ_lt_succ hk),Nat.add_right_comm,
        Nat.add_assoc]
  others j hj := by
    rw [h.others j (Nat.lt_succ_of_lt hj),update_of_ne (Nat.ne_of_lt hj)]
  stored k hk := by
    cases k with
    | zero => exact ho
    | succ k =>
      rw [show i+(k+1) = i+1+k by omega]
      exact h.stored k (Nat.lt_of_succ_lt_succ hk)
  ends := by
    rw [List.length_cons,Nat.add_min_add_right,show i+(m+1) = i+1+m by omega]
    rcases h.ends with ⟨hg,hm⟩ | ⟨hg,hm,hno⟩
    · exact .inl ⟨by rw [hg],by rw [← hm]⟩
    · exact .inr ⟨by rw [hg],by omega,hno⟩

theorem readLoop_delivers (hx : pi.buf.Holds UINT xs) :
    ∃ m gone, Delivers out pi dst xs i rounds (readLoop out rounds i pi dst) m gone := by
  induction rounds generalizing i pi dst xs with
  | zero => exact ⟨0,0,delivers_nothing hx (Nat.zero_min _)⟩
  | succ rounds ih =>
    rw [readLoop]
    cases hp : pi.buf.pop UINT with
    | none =>
      have hempty : xs = [] := by
        refine (hx.cons_eq_prod (by decide)).mp ?_
        unfold Ring.pop at hp
        split at hp
        · assumption
        · cases hp
      exact ⟨0,0,delivers_nothing hx (by rw [hempty]; rfl)⟩
    | some r =>
      obtain ⟨ch,buf⟩ := r
      obtain ⟨ys,rfl,hy⟩ := hx.pop (by decide) hp
      have hbuf := pop_nread hp
      dsimp only
      cases ho : out i with
      | false =>
        exact ⟨0,1,rfl,hy,hbuf,by simp,fun _ _ => rfl,by simp,.inr ⟨rfl,by simp,ho⟩⟩
      | true =>
        rw [if_pos rfl]
        have hrest : ({ pi with buf } : Pipe).buf.Holds UINT ys := hy
        obtain ⟨m,gone,h⟩ : ∃ m gone, Delivers out { pi with buf } (update dst i ch) ys (i+1)
            rounds (readLoop out rounds (i+1) { pi with buf } (update dst i ch)) m gone :=
          ih hrest
        exact ⟨m+1,gone+1,h.cons hbuf ho⟩

/-- The call has removed just the bytes it reports: they are the oldest of `xs`, in order, at
the destination, and the others are still in the pipe. -/
def Exact (pi : Pipe) (xs : List UInt8) (ret : ℤ) (pi' : Pipe) (dst' : ℕ → UInt8) : Prop :=
  (0 ≤ ret → pi'.nread = (pi.nread+ret.toNat) % UINT ∧ pi'.buf.Holds UINT (xs.drop ret.toNat) ∧
    ∀ k < ret.toNat, xs[k]? = some (dst' k)) ∧
  (ret = -1 → pi' = pi)

theorem exact_loop_iff (hx : pi.buf.Holds UINT xs) :
    Exact pi xs (readLoop out rounds 0 pi dst).1 (readLoop out rounds 0 pi dst).2.1
      (readLoop out rounds 0 pi dst).2.2 ↔ ∀ i < min rounds xs.length, out i = true := by
  obtain ⟨m,gone,h⟩ : ∃ m gone,
      Delivers out pi dst xs 0 rounds (readLoop out rounds 0 pi dst) m gone := readLoop_delivers hx
  have hret : (readLoop out rounds 0 pi dst).1 = m := h.ret.trans (Nat.zero_add m)
  have hbytes (k : ℕ) (hk : k < m) := h.bytes k hk
  have hstored (k : ℕ) (hk : k < m) := h.stored k hk
  simp only [Nat.zero_add] at hbytes hstored
  rw [hret]
  rcases h.ends with ⟨rfl,hm⟩ | ⟨rfl,hm,hno⟩
  · refine iff_of_true ⟨fun _ => ⟨h.nread,h.left,hbytes⟩,fun he => ?_⟩ (hm ▸ hstored)
    exact absurd he (by omega)
  · refine iff_of_false (fun hex => ?_) fun hall => ?_
    · -- one byte more is gone than was reported
      have hgone := (hex.1 (by omega)).1
      rw [h.nread,Int.toNat_natCast] at hgone
      have hmod : m ≡ m+1 [MOD UINT] := Nat.ModEq.add_left_cancel' _ hgone.symm
      have hdvd : UINT ∣ m+1-m := (Nat.modEq_iff_dvd' (Nat.le_succ m)).mp hmod
      rw [Nat.add_sub_cancel_left] at hdvd
      exact absurd (Nat.le_of_dvd (by decide) hdvd) (by decide)
    · rw [Nat.zero_add,hall m hm] at hno
      cases hno

/-- A call of `piperead` on a pipe that holds `xs` removes just the bytes it reports if and only
if every byte that it takes out can be stored. -/
theorem piperead_exact_iff {ret n : ℤ} {killed : Bool} {pi' : Pipe} {dst' : ℕ → UInt8}
    (hx : pi.buf.Holds UINT xs) (hr : pi.piperead killed out n dst = some (ret,pi',dst')) :
    Exact pi xs ret pi' dst' ↔ ∀ i < min n.toNat xs.length, out i = true := by
  unfold Pipe.piperead at hr
  split at hr
  · rename_i hwait
    have heq : pi.buf.cons = pi.buf.prod := beq_iff_eq.mp hwait.1
    have hempty : xs = [] := (hx.cons_eq_prod (by decide)).mp heq
    split at hr
    · obtain ⟨rfl,rfl,rfl⟩ : (-1 : ℤ) = ret ∧ pi = pi' ∧ dst = dst' := by simpa using hr
      refine iff_of_true ⟨fun h => absurd h (by decide),fun _ => rfl⟩ fun i hi => ?_
      rw [hempty] at hi
      exact absurd hi (by simp)
    · cases hr
  · obtain ⟨hret,hrest⟩ := Prod.mk.inj (Option.some.inj hr)
    obtain ⟨hpi,hdst⟩ := Prod.mk.inj hrest
    rw [← hret,← hpi,← hdst]
    exact exact_loop_iff hx

/-- A pipe with one byte in it. -/
def onePipe : Pipe := ⟨(⟨fun _ => 0,0,0⟩ : Ring PIPESIZE UInt8).push UINT 7,true,true⟩

theorem onePipe_holds : onePipe.buf.Holds UINT [7] :=
  (Ring.holds_nil rfl (show 0 < UINT by decide)).push (by decide) (by decide) 7

theorem piperead_exact_onePipe : ∃ pi' dst',
    onePipe.piperead false (fun _ => true) 1 (fun _ => 0) = some (1,pi',dst') ∧
    Exact onePipe [7] 1 pi' dst' := by
  have hrun : (onePipe.piperead false (fun _ => true) 1 fun _ => 0).map Prod.fst = some 1 := by
    decide +kernel
  obtain ⟨⟨ret,pi',dst'⟩,hr,rfl⟩ := Option.map_eq_some_iff.mp hrun
  exact ⟨pi',dst',hr,(piperead_exact_iff onePipe_holds hr).mpr fun _ _ => rfl⟩

/-- A call that cannot store its first byte reports none, and that byte is gone. -/
theorem piperead_loses_byte : ∃ pi' dst',
    onePipe.piperead false (fun _ => false) 1 (fun _ => 0) = some (0,pi',dst') ∧
    pi'.nread = 1 ∧ pi'.isEmpty = true ∧ ¬ Exact onePipe [7] 0 pi' dst' := by
  have hrun : (onePipe.piperead false (fun _ => false) 1 fun _ => 0).map
      (fun r => (r.1,r.2.1.nread,r.2.1.isEmpty)) = some (0,1,true) := by
    decide +kernel
  obtain ⟨⟨ret,pi',dst'⟩,hr,heq⟩ := Option.map_eq_some_iff.mp hrun
  obtain ⟨rfl,hnr,he⟩ : ret = 0 ∧ pi'.nread = 1 ∧ pi'.isEmpty = true := by simpa using heq
  refine ⟨pi',dst',hr,hnr,he,fun hex => ?_⟩
  have hzero := (hex.1 le_rfl).1
  rw [hnr] at hzero
  exact absurd hzero (by decide)

/-! The same call in the machine, step by step. -/

end Pipes
end Xv6
