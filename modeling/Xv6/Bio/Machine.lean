import Xv6.Bio.Model
import Xv6.Lib.Machine

/-! Processes that use the buffer cache in any interleaving.
A user is one bracket `bread .. brelse` of some process.  The events are the critical
sections in which `bio.c` runs: `bget` under `bcache.lock`, the sleep lock, the disk transfer
of `bread`, a store into a held buffer, `bwrite`, and the two halves of `brelse`. -/
namespace Xv6
namespace Bio

open Function

inductive Phase
  | waiting
  | locked
  | holding
  | releasing
  deriving DecidableEq

/-- The buffer a user has a reference to, and the block it asked for. -/
structure Ref where
  phase : Phase
  buf : Fin NBUF
  dev : ℕ
  blockno : ℕ

/-- `users`, `pins` and `dirty` record the history the callers' obligations speak of:
who has a reference, how many pins are outstanding, and which buffers were modified since
they were last written.  No operation reads them. -/
structure State where
  cache : Bcache
  disk : ℕ → ℕ → Block
  user : ℕ → Option Ref
  panicked : Option Panic
  users : Fin NBUF → List ℕ
  pins : Fin NBUF → ℕ
  dirty : Fin NBUF → Bool

inductive Event
  | bget (p dev blockno : ℕ)
  | acquiresleep (p : ℕ)
  | bread (p : ℕ)
  | store (p : ℕ) (x : Block)
  | bwrite (p : ℕ)
  | releasesleep (p : ℕ)
  | brelse (p : ℕ)
  | bpin (i : Fin NBUF)
  | bunpin (i : Fin NBUF)

namespace State

def init (disk : ℕ → ℕ → Block) : State :=
  ⟨.binit,disk,fun _ => none,none,fun _ => [],fun _ => 0,fun _ => false⟩

def setUser (s : State) (p : ℕ) (r : Option Ref) : State :=
  { s with user := update s.user p r }

def setDirty (s : State) (i : Fin NBUF) (d : Bool) : State :=
  { s with dirty := update s.dirty i d }

/-- References to buffer `i`: one for each user and each pin. -/
def refs (s : State) (i : Fin NBUF) : ℕ := (s.users i).length+s.pins i

def bget (s : State) (p dev blockno : ℕ) : Option State :=
  match s.user p with
  | some _ => none
  | none =>
    match s.cache.bget dev blockno with
    | none => some { s with panicked := some .noBuffers }
    | some (i,c) => some { s.setUser p (some ⟨.waiting,i,dev,blockno⟩) with
        cache := c
        users := update s.users i (p::s.users i) }

/-- The last step of `bget`: one waiter gets the sleep lock. -/
def acquiresleep (s : State) (p : ℕ) : Option State :=
  match s.user p with
  | some ⟨.waiting,i,dev,blockno⟩ => (s.cache.acquiresleep i p).map fun c =>
      { s.setUser p (some ⟨.locked,i,dev,blockno⟩) with cache := c }
  | _ => none

def bread (s : State) (p : ℕ) : Option State :=
  match s.user p with
  | some ⟨.locked,i,dev,blockno⟩ => some
      { s.setUser p (some ⟨.holding,i,dev,blockno⟩) with cache := s.cache.fill s.disk i }
  | _ => none

def store (s : State) (p : ℕ) (x : Block) : Option State :=
  match s.user p with
  | some ⟨.holding,i,_,_⟩ => some { s.setDirty i true with cache := s.cache.setData i x }
  | _ => none

def bwrite (s : State) (p : ℕ) : Option State :=
  match s.user p with
  | some ⟨.holding,i,_,_⟩ =>
    if s.cache.holdingsleep i p then
      let b := s.cache.buf i
      some { s.setDirty i false with disk := putBlock s.disk b.dev b.blockno b.data }
    else some { s with panicked := some .bwrite }
  | _ => none

def releasesleep (s : State) (p : ℕ) : Option State :=
  match s.user p with
  | some ⟨.holding,i,dev,blockno⟩ =>
    if s.cache.holdingsleep i p then
      some { s.setUser p (some ⟨.releasing,i,dev,blockno⟩) with cache := s.cache.releasesleep i }
    else some { s with panicked := some .brelse }
  | _ => none

def brelse (s : State) (p : ℕ) : Option State :=
  match s.user p with
  | some ⟨.releasing,i,_,_⟩ => some { s.setUser p none with
      cache := s.cache.unref i
      users := update s.users i ((s.users i).erase p) }
  | _ => none

def bpin (s : State) (i : Fin NBUF) : State :=
  { s with cache := s.cache.bpin i, pins := update s.pins i (s.pins i+1) }

def bunpin (s : State) (i : Fin NBUF) : State :=
  { s with cache := s.cache.bunpin i, pins := update s.pins i (s.pins i-1) }

def act (s : State) : Event → Option State
  | .bget p dev blockno => s.bget p dev blockno
  | .acquiresleep p => s.acquiresleep p
  | .bread p => s.bread p
  | .store p x => s.store p x
  | .bwrite p => s.bwrite p
  | .releasesleep p => s.releasesleep p
  | .brelse p => s.brelse p
  | .bpin i => some (s.bpin i)
  | .bunpin i => some (s.bunpin i)

/-- A panic stops the machine. -/
def step (s : State) (e : Event) : Option State :=
  match s.panicked with
  | some _ => none
  | none => s.act e

/-- What callers owe the cache.  A modified buffer stays pinned when its holder lets go of it
and is not unpinned for good before it has been written, unless someone holds it who still owes
the same.  No buffer has 2^32 references: its `uint` count is exact. -/
def ok (s : State) : Event → Prop
  | .bget _ dev _ => dev ≠ 0 ∧ ∀ i, s.refs i+1 < 2^32
  | .releasesleep p => ∀ r ∈ s.user p, s.dirty r.buf = true → 0 < s.pins r.buf
  | .bpin i => s.refs i+1 < 2^32
  | .bunpin i => 0 < s.pins i ∧
      (s.dirty i = true → 1 < s.pins i ∨ (s.cache.buf i).lock ≠ none)
  | _ => True

instance (s : State) (e : Event) : Decidable (s.ok e) :=
  match e with
  | .bget .. => inferInstanceAs (Decidable (_ ∧ _))
  | .releasesleep p => inferInstanceAs (Decidable (∀ r ∈ s.user p, _))
  | .bpin _ => inferInstanceAs (Decidable (_ < _))
  | .bunpin _ => inferInstanceAs (Decidable (_ ∧ (_ → _)))
  | .acquiresleep _ | .bread _ | .store .. | .bwrite _ | .brelse _ =>
    inferInstanceAs (Decidable True)

end State

/-- The map the cache stands for, with the block each user asked for. -/
structure BlockMap where
  content : ℕ → ℕ → Block
  asked : ℕ → ℕ × ℕ

namespace BlockMap

def init (disk : ℕ → ℕ → Block) : BlockMap := ⟨disk,fun _ => (0,0)⟩

/-- A store replaces the contents of the block its user asked for; the map has no other state. -/
def step (m : BlockMap) : Event → BlockMap
  | .bget p dev blockno => { m with asked := update m.asked p (dev,blockno) }
  | .store p x => { m with content := putBlock m.content (m.asked p).1 (m.asked p).2 x }
  | _ => m

/-- What `bread` returns to user `p`. -/
def bread (m : BlockMap) (p : ℕ) : Block := m.content (m.asked p).1 (m.asked p).2

end BlockMap

/-- The cache and the map follow the same events. -/
def track (sm : State × BlockMap) (e : Event) : Option (State × BlockMap) :=
  (sm.1.step e).map fun t => (t,sm.2.step e)

end Bio
end Xv6
