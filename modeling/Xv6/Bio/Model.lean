import Xv6.Param
import Xv6.Lib.Links
import Mathlib.Data.Fintype.Card

/-! The buffer cache of `bio.c`.
Each operation here is one critical section of the source; the system of processes that
run them in any order is in `Bio.Machine`. -/
namespace Xv6
namespace Bio

open Function

/-- `panic` calls of `bio.c`. -/
inductive Panic
  | noBuffers
  | bwrite
  | brelse
  deriving DecidableEq

/-- `struct buf`, with its sleep lock as the holder if there is one. -/
structure Buf where
  valid : Bool
  dev : ℕ
  blockno : ℕ
  lock : Option ℕ
  refcnt : ℕ
  data : Block

/-- `b->dev == dev && b->blockno == blockno`. -/
def Buf.carries (b : Buf) (dev blockno : ℕ) : Bool := b.dev == dev && b.blockno == blockno

/-- `refcnt` is a `uint`. -/
def incr (n : ℕ) : ℕ := (n+1) % 2^32

def decr (n : ℕ) : ℕ := (n+(2^32-1)) % 2^32

/-- The blocks `f` with one of them replaced. -/
def putBlock (f : ℕ → ℕ → Block) (dev blockno : ℕ) (x : Block) : ℕ → ℕ → Block :=
  fun d b => if d = dev ∧ b = blockno then x else f d b

structure Bcache where
  buf : Fin NBUF → Buf
  links : Links (Fin NBUF)

namespace Bcache

def setBuf (c : Bcache) (i : Fin NBUF) (b : Buf) : Bcache :=
  { c with buf := update c.buf i b }

/-- All buffers unused, on the list in the order in which `binit` pushes them. -/
def binit : Bcache where
  buf _ := ⟨false,0,0,none,0,Bytes.zero BSIZE⟩
  links := (List.finRange NBUF).foldl Links.pushFront .empty

/-- Is the block already cached? -/
def lookup (c : Bcache) (dev blockno : ℕ) : Option (Fin NBUF) :=
  Links.walk c.links.next (fun i => (c.buf i).carries dev blockno) (NBUF+1) (c.links.next none)

/-- The least recently used unused buffer. -/
def lru (c : Bcache) : Option (Fin NBUF) :=
  Links.walk c.links.prev (fun i => (c.buf i).refcnt == 0) (NBUF+1) (c.links.prev none)

/-- `bget` up to its `acquiresleep`; `none` is `panic("bget: no buffers")`. -/
def bget (c : Bcache) (dev blockno : ℕ) : Option (Fin NBUF × Bcache) :=
  match c.lookup dev blockno with
  | some i => some (i,c.setBuf i { c.buf i with refcnt := incr (c.buf i).refcnt })
  | none =>
    match c.lru with
    | some i => some (i,c.setBuf i { c.buf i with dev, blockno, valid := false, refcnt := 1 })
    | none => none

/-- `acquiresleep`; `none` while another process holds the lock. -/
def acquiresleep (c : Bcache) (i : Fin NBUF) (p : ℕ) : Option Bcache :=
  match (c.buf i).lock with
  | none => some (c.setBuf i { c.buf i with lock := some p })
  | some _ => none

def releasesleep (c : Bcache) (i : Fin NBUF) : Bcache := c.setBuf i { c.buf i with lock := none }

def holdingsleep (c : Bcache) (i : Fin NBUF) (p : ℕ) : Bool := (c.buf i).lock == some p

/-- The rest of `bread` once the buffer is locked: read the block unless it is valid. -/
def fill (c : Bcache) (disk : ℕ → ℕ → Block) (i : Fin NBUF) : Bcache :=
  if (c.buf i).valid then c
  else c.setBuf i { c.buf i with valid := true, data := disk (c.buf i).dev (c.buf i).blockno }

def setData (c : Bcache) (i : Fin NBUF) (x : Block) : Bcache :=
  c.setBuf i { c.buf i with data := x }

/-- The part of `brelse` under `bcache.lock`. -/
def unref (c : Bcache) (i : Fin NBUF) : Bcache :=
  let c := c.setBuf i { c.buf i with refcnt := decr (c.buf i).refcnt }
  if (c.buf i).refcnt = 0 then { c with links := (c.links.unlink i).pushFront i } else c

def bpin (c : Bcache) (i : Fin NBUF) : Bcache :=
  c.setBuf i { c.buf i with refcnt := incr (c.buf i).refcnt }

def bunpin (c : Bcache) (i : Fin NBUF) : Bcache :=
  c.setBuf i { c.buf i with refcnt := decr (c.buf i).refcnt }

/-- Every buffer is on the list. -/
def Listed (c : Bcache) : Prop := ∃ xs, c.links.Holds xs ∧ ∀ i, i ∈ xs

@[simp] theorem setBuf_buf (c : Bcache) (i : Fin NBUF) (b : Buf) :
    (c.setBuf i b).buf = update c.buf i b := rfl

theorem listed_setBuf {c : Bcache} {i : Fin NBUF} {b : Buf} (h : c.Listed) :
    (c.setBuf i b).Listed := h

theorem foldl_pushFront {xs ys : List (Fin NBUF)} {l : Links (Fin NBUF)} (h : l.Holds ys)
    (hnd : xs.Nodup) (hdis : ∀ x ∈ xs, x ∉ ys) :
    (xs.foldl Links.pushFront l).Holds (xs.reverse++ys) := by
  induction xs generalizing l ys with
  | nil => simpa using h
  | cons x xs ih =>
    rw [List.nodup_cons] at hnd
    have hfront := Links.holds_pushFront h (hdis x (by simp))
    have hrest := ih hfront hnd.2 fun y hy => by
      simp only [List.mem_cons,not_or]
      refine ⟨?_,hdis y (by simp [hy])⟩
      rintro rfl
      exact hnd.1 hy
    simpa using hrest

theorem listed_binit : binit.Listed := by
  have h := foldl_pushFront (Links.holds_empty) (List.nodup_finRange NBUF) (by simp)
  exact ⟨_,h,fun i => by simp⟩

theorem length_le {xs : List (Fin NBUF)} (h : xs.Nodup) : xs.length < NBUF+1 := by
  have hl := h.length_le_card
  rw [Fintype.card_fin] at hl
  omega

theorem lookup_eq_some {c : Bcache} {dev blockno : ℕ} {i : Fin NBUF}
    (hi : c.lookup dev blockno = some i) : (c.buf i).dev = dev ∧ (c.buf i).blockno = blockno := by
  simpa [Buf.carries] using Links.walk_some hi

theorem lookup_eq_none {c : Bcache} (h : c.Listed) {dev blockno : ℕ} :
    c.lookup dev blockno = none ↔ ∀ i, ¬((c.buf i).dev = dev ∧ (c.buf i).blockno = blockno) := by
  obtain ⟨xs,hxs,hall⟩ := h
  rw [lookup,hxs.walk_next _ (length_le hxs.nodup)]
  simp [Buf.carries,hall]

theorem lru_eq_some {c : Bcache} {i : Fin NBUF} (hi : c.lru = some i) :
    (c.buf i).refcnt = 0 := by
  simpa using Links.walk_some hi

theorem lru_eq_none {c : Bcache} (h : c.Listed) : c.lru = none ↔ ∀ i, (c.buf i).refcnt ≠ 0 := by
  obtain ⟨xs,hxs,hall⟩ := h
  rw [lru,hxs.walk_prev _ (length_le hxs.nodup)]
  simp [hall]

/-- What a `bget` that returns has done: found the block, or taken over an unused buffer. -/
theorem bget_cases {c c' : Bcache} (h : c.Listed) {dev blockno : ℕ} {i : Fin NBUF}
    (hg : c.bget dev blockno = some (i,c')) :
    ((c.buf i).dev = dev ∧ (c.buf i).blockno = blockno ∧
      c' = c.setBuf i { c.buf i with refcnt := incr (c.buf i).refcnt }) ∨
    ((∀ j, ¬((c.buf j).dev = dev ∧ (c.buf j).blockno = blockno)) ∧ (c.buf i).refcnt = 0 ∧
      c' = c.setBuf i { c.buf i with dev, blockno, valid := false, refcnt := 1 }) := by
  simp only [bget] at hg
  split at hg
  case h_1 k hk =>
    obtain ⟨rfl,rfl⟩ : k = i ∧ _ = c' := by simpa using hg
    obtain ⟨hd,hb⟩ := lookup_eq_some hk
    exact .inl ⟨hd,hb,rfl⟩
  case h_2 hk =>
    split at hg
    case h_1 k hl =>
      obtain ⟨rfl,rfl⟩ : k = i ∧ _ = c' := by simpa using hg
      exact .inr ⟨(lookup_eq_none h).mp hk,lru_eq_some hl,rfl⟩
    case h_2 => simp at hg

theorem bget_eq_none {c : Bcache} (h : c.Listed) {dev blockno : ℕ} :
    c.bget dev blockno = none ↔
      (∀ j, ¬((c.buf j).dev = dev ∧ (c.buf j).blockno = blockno)) ∧ ∀ j, (c.buf j).refcnt ≠ 0 := by
  rw [← lookup_eq_none h,← lru_eq_none h,bget]
  split
  case h_1 k hk => simp [hk]
  case h_2 hk => split <;> simp_all

theorem listed_bget {c c' : Bcache} (h : c.Listed) {dev blockno : ℕ} {i : Fin NBUF}
    (hg : c.bget dev blockno = some (i,c')) : c'.Listed := by
  rcases bget_cases h hg with ⟨-,-,rfl⟩ | ⟨-,-,rfl⟩ <;> exact listed_setBuf h

theorem unref_buf (c : Bcache) (i : Fin NBUF) :
    (c.unref i).buf = update c.buf i { c.buf i with refcnt := decr (c.buf i).refcnt } := by
  unfold unref
  dsimp only
  split <;> rfl

theorem listed_unref {c : Bcache} (h : c.Listed) (i : Fin NBUF) : (c.unref i).Listed := by
  unfold unref
  dsimp only
  split
  · obtain ⟨xs,hxs,hall⟩ := h
    refine ⟨i::xs.erase i,Links.holds_pushFront (Links.holds_unlink hxs (hall i)) ?_,fun j => ?_⟩
    · exact fun hi => ((hxs.nodup.mem_erase_iff).mp hi).1 rfl
    · by_cases hj : j = i
      · simp [hj]
      · simp [hj,hxs.nodup.mem_erase_iff,hall]
  · exact listed_setBuf h

theorem fill_buf (c : Bcache) (disk : ℕ → ℕ → Block) (i : Fin NBUF) :
    (c.fill disk i).buf = update c.buf i { c.buf i with
      valid := true
      data := if (c.buf i).valid then (c.buf i).data
        else disk (c.buf i).dev (c.buf i).blockno } := by
  unfold fill
  split
  · rename_i hv
    ext1 j
    by_cases hj : j = i
    · subst hj
      simp [← hv]
    · simp [hj]
  · rfl

theorem listed_fill {c : Bcache} (h : c.Listed) (disk : ℕ → ℕ → Block) (i : Fin NBUF) :
    (c.fill disk i).Listed := by
  unfold fill
  split
  · exact h
  · exact listed_setBuf h

end Bcache

@[simp] theorem putBlock_self (f : ℕ → ℕ → Block) (dev blockno : ℕ) (x : Block) :
    putBlock f dev blockno x dev blockno = x := by simp [putBlock]

theorem putBlock_of_ne (f : ℕ → ℕ → Block) {dev blockno d b : ℕ} (x : Block)
    (h : ¬(d = dev ∧ b = blockno)) : putBlock f dev blockno x d b = f d b := if_neg h

theorem incr_of_lt {n : ℕ} (h : n+1 < 2^32) : incr n = n+1 := Nat.mod_eq_of_lt h

theorem decr_of_pos {n : ℕ} (h0 : 0 < n) (h : n < 2^32) : decr n = n-1 := by
  unfold decr
  omega

end Bio
end Xv6
