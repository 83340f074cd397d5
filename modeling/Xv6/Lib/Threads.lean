import Mathlib.Logic.Function.Basic
import Xv6.Lib.Free
import Xv6.Lib.Machine

/-! Threads that share a state, and rules to reason about one of them at a time.
A thread runs a program over commands; a program ends at a label, from which the thread goes
on with further code, so that loops need no bound.  A signal may make a thread run a handler
first, and a command may start a thread anew at a label.  What a thread knows about the
shared state is what the other threads keep: its view of the state. -/
namespace Xv6

open Function

structure Threads (T C : Type) (R : C → Type) (Λ ω σ : Type) where
  /-- One command of a thread; none if it cannot go on.  `ω` says what is not determined. -/
  exec : T → (c : C) → ω → σ → Option (R c × σ)
  /-- What a thread does at a label. -/
  code : T → Λ → ω → Free C R Λ
  /-- The thread a command starts anew, whatever that thread had still to do. -/
  starts : C → Option (T × Λ)
  enabled : T → σ → Bool
  handler : T → ω → Free C R Unit

namespace Threads

variable {T C Λ ω σ α β : Type} {R : C → Type}

/-- The shared state and what each thread has still to do. -/
structure Config (T C : Type) (R : C → Type) (Λ σ : Type) where
  st : σ
  prog : T → Free C R Λ

inductive Event (T ω : Type)
  | run (t : T) (w : ω)
  | signal (t : T) (w : ω)

section Machine

variable [DecidableEq T] (M : Threads T C R Λ ω σ)

def restart (prog : T → Free C R Λ) : Option (T × Λ) → T → Free C R Λ
  | none => prog
  | some (t,l) => update prog t (.pure l)

/-- Thread `t`, which has `p` to do, takes its next step. -/
def advance (x : Config T C R Λ σ) (t : T) (w : ω) : Free C R Λ → Option (Config T C R Λ σ)
  | .pure l => some { x with prog := update x.prog t (M.code t l w) }
  | .call c k => (M.exec t c w x.st).map fun r =>
      ⟨r.2,restart (update x.prog t (k r.1)) (M.starts c)⟩

def step (x : Config T C R Λ σ) : Event T ω → Option (Config T C R Λ σ)
  | .run t w => M.advance x t w (x.prog t)
  | .signal t w =>
    if M.enabled t x.st then
      some { x with prog := update x.prog t (M.handler t w >>= fun _ => x.prog t) }
    else none

end Machine

/-- What the proofs about threads rest on: an invariant, when a thread can run, what it has to
ensure before a command, how much of the state it can rely on, and what holds at labels. -/
structure Logic (T C Λ σ : Type) where
  inv : σ → Prop
  runs : T → σ → Prop
  pre : T → C → σ → Prop
  view : T → σ → σ → Prop
  label : T → Λ → σ → Prop

/-- Whatever the other threads do, thread `t` can run a program from `s`: before each command
its precondition holds, and in the end `Q`. -/
def Does (M : Threads T C R Λ ω σ) (G : Logic T C Λ σ) (t : T) :
    Free C R α → σ → (α → σ → Prop) → Prop
  | .pure a, s, Q => ∀ s', G.inv s' → G.view t s s' → Q a s'
  | .call c k, s, Q => ∀ s', G.inv s' → G.view t s s' → G.runs t s' → G.pre t c s' ∧
      ∀ w r u, M.exec t c w s' = some (r,u) → Does M G t (k r) u Q

/-- What a thread knows and the others keep. -/
def Stable (G : Logic T C Λ σ) (t : T) (P : σ → Prop) : Prop :=
  ∀ s s', G.inv s → G.inv s' → P s → G.view t s s' → P s'

/-- What one command may do: keep the invariant and the other threads' views, and establish
the label of a thread that it starts. -/
structure Steps (M : Threads T C R Λ ω σ) (G : Logic T C Λ σ) : Prop where
  refl : ∀ t s, G.view t s s
  trans : ∀ {t s s' s''}, G.view t s s' → G.view t s' s'' → G.view t s s''
  runs : ∀ {t c w s r u}, M.exec t c w s = some (r,u) → G.runs t s
  keeps : ∀ {t c w s r u}, G.inv s → G.pre t c s → M.exec t c w s = some (r,u) → G.inv u
  frame : ∀ {t t' c w s r u}, t' ≠ t → (∀ l, M.starts c ≠ some (t',l)) → G.inv s → G.pre t c s →
    M.exec t c w s = some (r,u) → G.view t' s u
  starts : ∀ {t t' c w s r u l}, G.inv s → G.pre t c s → M.exec t c w s = some (r,u) →
    M.starts c = some (t',l) → G.label t' l u
  label : ∀ t l, Stable G t (G.label t l)

variable {M : Threads T C R Λ ω σ} {G : Logic T C Λ σ} {t : T} {s s' : σ}
  {P P' : σ → Prop} {x : Free C R α} {Q Q' : α → σ → Prop}

theorem Does.mono (h : Does M G t x s Q) (hQ : ∀ a s', G.inv s' → Q a s' → Q' a s') :
    Does M G t x s Q' := by
  induction x generalizing s with
  | pure a => exact fun s' hi hv => hQ a s' hi (h s' hi hv)
  | call c k ih =>
    intro s' hi hv hr
    obtain ⟨hpre,hrest⟩ := h s' hi hv hr
    exact ⟨hpre,fun w r u he => ih r (hrest w r u he)⟩

/-- A program can be run from any state that looks the same. -/
theorem Does.view (hG : Steps M G) (h : Does M G t x s Q) (hv : G.view t s s') :
    Does M G t x s' Q := by
  cases x with
  | pure a => exact fun u hi hu => h u hi (hG.trans hv hu)
  | call c k => exact fun u hi hu => h u hi (hG.trans hv hu)

theorem Does.bind (hG : Steps M G) {f : α → Free C R β} {F : β → σ → Prop}
    (h : Does M G t x s Q) (hi : G.inv s)
    (hf : ∀ a s', G.inv s' → Q a s' → Does M G t (f a) s' F) : Does M G t (x >>= f) s F := by
  induction x generalizing s with
  | pure a => exact hf a s hi (h s hi (hG.refl t s))
  | call c k ih =>
    intro s' hi' hv hr
    obtain ⟨hpre,hrest⟩ := h s' hi' hv hr
    exact ⟨hpre,fun w r u he => ih r (hrest w r u he) (hG.keeps hi' hpre he)⟩

/-- A thread can run the program wherever `P` holds. -/
def Ensures (M : Threads T C R Λ ω σ) (G : Logic T C Λ σ) (t : T) (P : σ → Prop)
    (x : Free C R α) (Q : α → σ → Prop) : Prop :=
  ∀ s, G.inv s → P s → Does M G t x s Q

namespace Ensures

theorem pure {a : α} (hP : Stable G t P) (hQ : ∀ s, G.inv s → P s → Q a s) :
    Ensures M G t P (.pure a) Q :=
  fun s hi hp s' hi' hv => hQ s' hi' (hP s s' hi hi' hp hv)

theorem mono (h : Ensures M G t P x Q) (hP : ∀ s, G.inv s → P' s → P s)
    (hQ : ∀ a s, G.inv s → Q a s → Q' a s) : Ensures M G t P' x Q' :=
  fun s hi hp => (h s hi (hP s hi hp)).mono hQ

/-- What the precondition says without the state. -/
theorem assume {a : Prop} (ha : ∀ s, G.inv s → P s → a) (h : a → Ensures M G t P x Q) :
    Ensures M G t P x Q :=
  fun s hi hp => h (ha s hi hp) s hi hp

/-- Give a name to something in the state at the start. -/
theorem name (f : σ → β) (h : ∀ b, Ensures M G t (fun s => P s ∧ f s = b) x Q) :
    Ensures M G t P x Q :=
  fun s hi hp => h (f s) s hi ⟨hp,rfl⟩

theorem bind (hG : Steps M G) {f : α → Free C R β} {F : β → σ → Prop} (h : Ensures M G t P x Q)
    (hf : ∀ a, Ensures M G t (Q a) (f a) F) : Ensures M G t P (x >>= f) F :=
  fun s hi hp => (h s hi hp).bind hG hi fun a s' hi' hq => hf a s' hi' hq

/-- One command: it may be run wherever `P` holds, and leads to `Q`. -/
theorem command (hG : Steps M G) {c : C} {Q : R c → σ → Prop} (hP : Stable G t P)
    (hQ : ∀ r, Stable G t (Q r)) (hpre : ∀ s, G.inv s → P s → G.runs t s → G.pre t c s)
    (hpost : ∀ s w r u, G.inv s → P s → M.exec t c w s = some (r,u) → G.inv u → Q r u) :
    Ensures M G t P (Free.command c) Q := by
  intro s hi hp s' hi' hv hr
  have hp' := hP s s' hi hi' hp hv
  have hc := hpre s' hi' hp' hr
  refine ⟨hc,fun w r u he u' hi'' hu => ?_⟩
  have hinv := hG.keeps hi' hc he
  exact hQ r u u' hinv hi'' (hpost s' w r u hi' hp' he hinv) hu

/-- A command runs only when its thread can run. -/
theorem of_runs {c : C} {k : R c → Free C R α} (hP : Stable G t P)
    (hrun : ∀ s, G.inv s → P s → G.runs t s → P' s) (h : Ensures M G t P' (.call c k) Q)
    (hrefl : ∀ s, G.view t s s) : Ensures M G t P (.call c k) Q := by
  intro s hi hp s' hi' hv hr
  exact h s' hi' (hrun s' hi' (hP s s' hi hi' hp hv) hr) s' hi' (hrefl s') hr

/-- A loop over a list: `P done` holds once the elements of `done` are dealt with. -/
theorem forM (hG : Steps M G) {ι : Type} {f : ι → Free C R PUnit} {P : List ι → σ → Prop}
    (hP : ∀ done, Stable G t (P done))
    (hf : ∀ done i, Ensures M G t (P done) (f i) fun _ => P (done++[i])) (l done : List ι) :
    Ensures M G t (P done) (l.forM f) fun _ => P (done++l) := by
  induction l generalizing done with
  | nil => exact .pure (hP done) fun s _ hp => by simpa using hp
  | cons i l ih =>
    have hrest := ih (done++[i])
    simp only [List.append_assoc, List.singleton_append] at hrest
    exact (hf done i).bind hG fun _ => hrest

end Ensures

/-- The threads can be looked at one by one. -/
structure Sound (M : Threads T C R Λ ω σ) (G : Logic T C Λ σ) : Prop extends Steps M G where
  code : ∀ t l w, Ensures M G t (G.label t l) (M.code t l w) (G.label t)
  handler : ∀ t w s, G.inv s → M.enabled t s = true →
    Does M G t (M.handler t w) s fun _ s' => G.view t s s'

/-- The invariant holds, and every thread can go on. -/
def Covered (M : Threads T C R Λ ω σ) (G : Logic T C Λ σ) (x : Config T C R Λ σ) : Prop :=
  G.inv x.st ∧ ∀ t, Does M G t (x.prog t) x.st (G.label t)

variable [DecidableEq T] {x y : Config T C R Λ σ}

theorem Covered.run {w : ω} (hG : Sound M G) (h : Covered M G x)
    (hstep : M.step x (.run t w) = some y) : Covered M G y := by
  obtain ⟨hi,hdo⟩ := h
  have ht := hdo t
  simp only [step] at hstep
  cases hp : x.prog t with
  | pure l =>
    simp only [hp, advance, Option.some.injEq] at hstep ht
    subst hstep
    refine ⟨hi,fun t' => ?_⟩
    by_cases htt : t' = t
    · subst htt
      simpa using hG.code t' l w x.st hi (ht x.st hi (hG.refl _ _))
    · simpa [update_of_ne htt] using hdo t'
  | call c k =>
    simp only [hp, advance, Option.map_eq_some_iff] at hstep ht
    obtain ⟨⟨r,u⟩,he,rfl⟩ := hstep
    obtain ⟨hpre,hrest⟩ := ht x.st hi (hG.refl _ _) (hG.runs he)
    have hu := hG.keeps hi hpre he
    refine ⟨hu,fun t' => ?_⟩
    -- the thread that is started, the one that ran, and the others
    by_cases hst : ∃ l, M.starts c = some (t',l)
    · obtain ⟨l,hl⟩ := hst
      have hlab := hG.starts hi hpre he hl
      have hprog : restart (update x.prog t (k r)) (M.starts c) t' = .pure l := by
        simp [restart, hl]
      simp only [hprog]
      exact fun s' hi' hv => hG.label t' l u s' hu hi' hlab hv
    · have hprog : restart (update x.prog t (k r)) (M.starts c) t'
          = update x.prog t (k r) t' := by
        cases hs : M.starts c with
        | none => rfl
        | some a =>
          have hne : t' ≠ a.1 := by
            rintro rfl
            exact hst ⟨a.2,hs⟩
          simp only [restart, update_of_ne hne]
      simp only [hprog]
      by_cases htt : t' = t
      · subst htt
        simpa using hrest w r u he
      · rw [update_of_ne htt]
        exact (hdo t').view hG.toSteps
          (hG.frame htt (fun l hl => hst ⟨l,hl⟩) hi hpre he)

theorem Covered.signal {w : ω} (hG : Sound M G) (h : Covered M G x)
    (hstep : M.step x (.signal t w) = some y) : Covered M G y := by
  obtain ⟨hi,hdo⟩ := h
  simp only [step] at hstep
  split at hstep
  · rename_i hen
    obtain rfl := Option.some.inj hstep
    refine ⟨hi,fun t' => ?_⟩
    by_cases htt : t' = t
    · subst htt
      simp only [update_self]
      exact (hG.handler t' w x.st hi hen).bind hG.toSteps hi
        fun _ s' _ hv => (hdo t').view hG.toSteps hv
    · simpa only [update_of_ne htt] using hdo t'
  · cases hstep

/-- In every state reached the invariant holds and every thread can go on. -/
theorem covered_of_reaches (hG : Sound M G) {ok : Config T C R Λ σ → Event T ω → Prop}
    (h : Reaches M.step ok x y) (hx : Covered M G x) : Covered M G y := by
  refine h.invariant hx fun a e b ha _ hstep => ?_
  cases e with
  | run t w => exact ha.run hG hstep
  | signal t w => exact ha.signal hG hstep

omit [DecidableEq T] in
theorem Covered.pre {c : C} {k : R c → Free C R Λ} (hG : Sound M G) (h : Covered M G x)
    (hp : x.prog t = .call c k) (hr : G.runs t x.st) : G.pre t c x.st := by
  have hdo := h.2 t
  rw [hp] at hdo
  exact (hdo x.st h.1 (hG.refl t x.st) hr).1

end Threads
end Xv6
