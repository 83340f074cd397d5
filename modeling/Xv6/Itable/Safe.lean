import Xv6.Itable.Machine

/-! Safety of the inode table: no inode is in it twice, an inode is freed only when nobody else
has a reference to it, and a process that has locked an inode sees the allocation its reference
was made for. -/
namespace Xv6
namespace Itable

open Fs (NINODE Dinode)
open State Function Multiset
set_option linter.unusedSectionVars false

variable {P : Type} [Fintype P] [DecidableEq P] {n : ℕ} {s t : State P} {p q : P} {ip jp : Fin NINODE}
  {i : Ino} {r : Ref} {l : Pc}

namespace State

def Referenced (s : State P) (ip : Fin NINODE) : Prop := ∃ g, (ip,g) ∈ s.refs

/-- The fields of inode `i` that count: those in the table if they are valid there. -/
def current (s : State P) (i : Ino) : Copy :=
  match s.findEntry i with
  | some ip => if (s.itable ip).valid then (s.itable ip).copy else s.disk i
  | none => s.disk i

def Linked (s : State P) (i : Ino) : Prop := (s.current i).d.type ≠ 0 ∧ (s.current i).d.nlink ≠ 0

end State

/-- The protocol.  Directory entries name only linked inodes.  `iget` is for an inode that an entry
names, or to which there is a reference already; the other operations use references that are
held, and what a process has locked stays referenced. -/
def Obeys (s : State P) (e : Event P) : Prop :=
  (∀ i, 0 < s.named i → s.Linked i) ∧
  match e with
  | .iget _ i => 0 < s.named i ∨ ∃ r ∈ s.refs, (s.itable r.1).ino = i
  | .idup _ r => r ∈ s.refs
  | .ilock _ ip => s.Referenced ip
  | .iput _ r => r ∈ s.refs ∧ ∀ q, (s.itable r.1).holder = some q →
      (s.pc q).drops = some r.1 ∨ ∃ g, (r.1,g) ∈ s.refs.erase r
  | .ialloc _ _ type => type % 2^16 ≠ 0
  | .modify _ ip d => d.type = (s.itable ip).copy.d.type
  | _ => True

/-- An entry whose fields belong to the inode that is on disk. -/
def Current (s : State P) (ip : Fin NINODE) : Prop :=
  (s.itable ip).copy.life = (s.disk (s.itable ip).ino).life ∧ (s.itable ip).copy.d.type ≠ 0 ∧
    (s.disk (s.itable ip).ino).d.type ≠ 0

/-- The holder of the entry has freed the inode and is about to let go of it. -/
def Releasing (s : State P) (ip : Fin NINODE) : Prop :=
  match (s.itable ip).holder with
  | some p => s.pc p = .release ip
  | none => False

/-- The references that are held or being dropped. -/
def State.owners (s : State P) : Multiset (Fin NINODE) :=
  s.refs.map Prod.fst + bag fun p => (s.pc p).drops

/-- The invariant of one table entry. -/
structure EntryInv (s : State P) (ip : Fin NINODE) : Prop where
  ref : (s.itable ip).ref = s.owners.count ip
  single : ∀ p q, (s.pc p).drops = some ip → (s.pc q).drops = some ip → p = q
  locks : ∀ p, (s.pc p).locks = some ip → (s.itable ip).holder = some p
  held : ∀ p, (s.itable ip).holder = some p → s.pc p ≠ .drop ip ∧ ((s.pc p).drops = some ip ∨
    (s.Referenced ip ∧ (s.pc p = .lock ip ∨ (s.itable ip).valid = true)))
  live : ∀ g, (ip,g) ∈ s.refs → (s.disk (s.itable ip).ino).life = g ∧
    (s.disk (s.itable ip).ino).d.type ≠ 0
  valid : 0 < (s.itable ip).ref → (s.itable ip).valid = true → Releasing s ip ∨ Current s ip
  last : ∀ p, s.pc p = .trunc ip ∨ s.pc p = .free ip → ¬ s.Referenced ip ∧
    (s.itable ip).valid = true ∧ (s.itable ip).copy.d.nlink = 0
  freed : ∀ p, s.pc p = .release ip → (s.itable ip).copy.d.type = 0
  enroll : ∀ p, s.pc p = .enroll (s.itable ip).ino → 0 < (s.itable ip).ref → ¬ s.Referenced ip ∧
    ((s.itable ip).valid = true → Releasing s ip)

structure Inv (s : State P) : Prop where
  entry : ∀ ip, EntryInv s ip
  unique : ∀ ip jp, 0 < (s.itable ip).ref → 0 < (s.itable jp).ref →
    (s.itable ip).ino = (s.itable jp).ino → ip = jp
  scan : ∀ p dev type inum, s.pc p = .scan dev type inum → type % 2^16 ≠ 0
  /-- What `ialloc` has marked is its own until it is in the table. -/
  enroll : ∀ p i, s.pc p = .enroll i → (s.disk i).d.type ≠ 0 ∧ (s.disk i).d.nlink = 0 ∧
    ∀ q, s.pc q = .enroll i → q = p

/-! Counting. -/

theorem bag_drops_goto (h : l.drops = (s.pc p).drops) :
    (bag fun q => ((s.goto p l).pc q).drops) = bag fun q => (s.pc q).drops := by
  refine congrArg bag (funext fun q => ?_)
  rw [goto_pc]
  split
  next heq => rw [h,heq]
  next => rfl

theorem drops_goto (s : State P) (p : P) (l : Pc) : (fun q => ((s.goto p l).pc q).drops) =
    update (fun q => (s.pc q).drops) p l.drops := by
  funext q
  rw [goto_pc,update_apply]
  split <;> rfl

theorem bag_drops_start (h : (s.pc p).drops = none) (hl : l.drops = some ip) :
    (bag fun q => ((s.goto p l).pc q).drops) = ip ::ₘ bag fun q => (s.pc q).drops := by
  rw [drops_goto,hl,bag_update_some (f := fun q => (s.pc q).drops) h]

theorem bag_drops_end (h : (s.pc p).drops = some ip) (hl : l.drops = none) :
    (bag fun q => (s.pc q).drops) = ip ::ₘ bag fun q => ((s.goto p l).pc q).drops := by
  rw [drops_goto,hl,bag_update_none (f := fun q => (s.pc q).drops) h]

theorem EntryInv.pos_of_mem {g : ℕ} (h : EntryInv s ip) (hr : (ip,g) ∈ s.refs) :
    0 < (s.itable ip).ref := by
  rw [h.ref,count_pos]
  exact mem_add.mpr (.inl (mem_map_of_mem Prod.fst hr))

theorem EntryInv.pos_of_drops (h : EntryInv s ip) (hp : (s.pc p).drops = some ip) :
    0 < (s.itable ip).ref := by
  rw [h.ref,count_pos]
  exact mem_add.mpr (.inr (mem_bag.mpr ⟨p,hp⟩))

theorem drops_of_last (hp : s.pc p = .trunc ip ∨ s.pc p = .free ip) :
    (s.pc p).drops = some ip := by
  rcases hp with hp | hp <;> rw [hp] <;> rfl

/-- The entry an operation is at. -/
def Pc.entry : Pc → Option (Fin NINODE)
  | .lock ip | .trunc ip | .free ip | .release ip | .drop ip => some ip
  | _ => none

theorem Pc.entry_of_drops (h : l.drops = some ip) : l.entry = some ip := by
  cases l <;> first | exact h | cases h

theorem Pc.drops_of_entry (h : l.entry = none) : l.drops = none := by
  cases hd : l.drops with
  | none => rfl
  | some ip => cases h.symm.trans (Pc.entry_of_drops hd)

theorem Pc.entry_of_locks (h : l.locks = some ip) : l.entry = some ip := by
  cases l <;> first | exact h | cases h

/-- A step that is not at entry `ip`. -/
structure Elsewhere (ip : Fin NINODE) (s t : State P) : Prop where
  itable : t.itable ip = s.itable ip
  disk : 0 < (s.itable ip).ref → t.disk (s.itable ip).ino = s.disk (s.itable ip).ino
  refs : ∀ g, (ip,g) ∈ t.refs ↔ (ip,g) ∈ s.refs
  count : t.owners.count ip = s.owners.count ip
  pc : ∀ q, t.pc q = s.pc q ∨ ((s.pc q).entry ≠ some ip ∧ (t.pc q).entry ≠ some ip)
  enroll : ∀ q, 0 < (s.itable ip).ref → t.pc q = .enroll (s.itable ip).ino →
    s.pc q = .enroll (s.itable ip).ino

theorem EntryInv.frame (h : EntryInv s ip) (f : Elsewhere ip s t) : EntryInv t ip := by
  have hat : ∀ {q l}, l.entry = some ip → (t.pc q = l ↔ s.pc q = l) := by
    intro q l hl
    rcases f.pc q with heq | ⟨hs,ht⟩
    · rw [heq]
    · exact ⟨fun hq => absurd (hq ▸ hl) ht,fun hq => absurd (hq ▸ hl) hs⟩
  have hdrops : ∀ {q}, (t.pc q).drops = some ip → (s.pc q).drops = some ip := fun hq =>
    (hat (Pc.entry_of_drops hq)).mp rfl ▸ hq
  have hreferenced : t.Referenced ip ↔ s.Referenced ip := exists_congr f.refs
  have hreleasing : Releasing s ip → Releasing t ip := by
    unfold Releasing
    rw [f.itable]
    split
    · exact (hat rfl).mpr
    · exact id
  refine ⟨?_,fun p q hp hq => h.single p q (hdrops hp) (hdrops hq),fun p hp => ?_,fun p hp => ?_,
    fun g hg => ?_,fun hpos hv => ?_,fun p hp => ?_,fun p hp => ?_,fun p hp hpos => ?_⟩
  · rw [f.itable,h.ref,f.count]
  · rw [f.itable]
    exact h.locks p ((hat (Pc.entry_of_locks hp)).mp rfl ▸ hp)
  · rw [f.itable] at hp ⊢
    obtain ⟨hout,hd | ⟨hr,hl | hv⟩⟩ := h.held p hp
    · exact ⟨fun hq => hout ((hat rfl).mp hq),.inl ((hat (Pc.entry_of_drops hd)).mpr rfl ▸ hd)⟩
    · exact ⟨fun hq => hout ((hat rfl).mp hq),.inr ⟨hreferenced.mpr hr,.inl ((hat rfl).mpr hl)⟩⟩
    · exact ⟨fun hq => hout ((hat rfl).mp hq),.inr ⟨hreferenced.mpr hr,.inr hv⟩⟩
  · have hg := (f.refs g).mp hg
    rw [f.itable,f.disk (h.pos_of_mem hg)]
    exact h.live g hg
  · rw [f.itable] at hpos hv
    refine (h.valid hpos hv).imp hreleasing fun hc => ?_
    rw [Current,f.itable,f.disk hpos]
    exact hc
  · rw [hreferenced,f.itable]
    exact h.last p (hp.imp (hat rfl).mp (hat rfl).mp)
  · rw [f.itable]
    exact h.freed p ((hat rfl).mp hp)
  · rw [f.itable] at hp hpos ⊢
    rw [hreferenced]
    exact (h.enroll p (f.enroll p hpos hp) hpos).imp_right fun hv hvt => hreleasing (hv hvt)

/-- A step of process `p` at entry `ip`.  If it writes to the disk, then the inode of an entry that
is in use. -/
structure Local (ip : Fin NINODE) (p : P) (s t : State P) : Prop where
  itable : ∀ jp, jp ≠ ip → t.itable jp = s.itable jp
  disk : t.disk = s.disk ∨ (0 < (s.itable ip).ref ∧ (s.itable ip).valid = true ∧ ¬ Releasing s ip ∧
    ∀ j, j ≠ (s.itable ip).ino → t.disk j = s.disk j)
  refs : ∀ jp g, jp ≠ ip → ((jp,g) ∈ t.refs ↔ (jp,g) ∈ s.refs)
  owners : t.owners = s.owners ∨ t.owners = ip ::ₘ s.owners ∨ s.owners = ip ::ₘ t.owners
  pc : ∀ q, q ≠ p → t.pc q = s.pc q
  before : ∀ jp, (s.pc p).entry = some jp → jp = ip
  after : ∀ jp, (t.pc p).entry = some jp → jp = ip
  noScan : ∀ dev type inum, t.pc p ≠ .scan dev type inum
  noEnroll : ∀ i, t.pc p ≠ .enroll i

section Local

variable (h : Inv s) (f : Local ip p s t)
include h f

theorem Local.elsewhere (hne : jp ≠ ip) : Elsewhere jp s t := by
  refine ⟨f.itable jp hne,fun hpos => ?_,fun g => f.refs jp g hne,?_,fun q => ?_,fun q _ hq => ?_⟩
  · rcases f.disk with heq | ⟨hip,-,-,hother⟩
    · rw [heq]
    · exact hother _ fun heq => hne (h.unique jp ip hpos hip heq)
  · rcases f.owners with heq | heq | heq
    · rw [heq]
    · rw [heq,count_cons_of_ne hne]
    · rw [heq,count_cons_of_ne hne]
  · by_cases hq : q = p
    · subst hq
      exact .inr ⟨fun hb => hne (f.before jp hb),fun ha => hne (f.after jp ha)⟩
    · exact .inl (f.pc q hq)
  · by_cases hqp : q = p
    · exact absurd (hqp ▸ hq) (f.noEnroll _)
    · exact f.pc q hqp ▸ hq

/-- It is enough to look at the entry. -/
theorem Local.inv (he : EntryInv t ip)
    (hu : 0 < (t.itable ip).ref → ∀ jp, jp ≠ ip → 0 < (s.itable jp).ref →
      (s.itable jp).ino ≠ (t.itable ip).ino) : Inv t := by
  refine ⟨fun jp => ?_,fun jp kp hj hk heq => ?_,fun q dev type inum hq => ?_,fun q i hq => ?_⟩
  · by_cases hne : jp = ip
    · exact hne ▸ he
    · exact (h.entry jp).frame (f.elsewhere h hne)
  · by_cases hji : jp = ip <;> by_cases hki : kp = ip
    · rw [hji,hki]
    · subst hji
      rw [f.itable kp hki] at hk heq
      exact absurd heq.symm (hu hj kp hki hk)
    · subst hki
      rw [f.itable jp hji] at hj heq
      exact absurd heq (hu hk jp hji hj)
    · rw [f.itable jp hji] at hj heq
      rw [f.itable kp hki] at hk heq
      exact h.unique jp kp hj hk heq
  · by_cases hqp : q = p
    · exact absurd (hqp ▸ hq) (f.noScan _ _ _)
    · exact h.scan q dev type inum (f.pc q hqp ▸ hq)
  · have hold : ∀ {q}, t.pc q = .enroll i → s.pc q = .enroll i := by
      intro q hq
      by_cases hqp : q = p
      · exact absurd (hqp ▸ hq) (f.noEnroll _)
      · exact f.pc q hqp ▸ hq
    have hdisk : t.disk i = s.disk i := by
      rcases f.disk with heq | ⟨hip,hv,hr,hother⟩
      · rw [heq]
      · refine hother i fun heq => ?_
        exact hr (((h.entry ip).enroll q (heq ▸ hold hq) hip).2 hv)
    obtain ⟨ht,hz,huniq⟩ := h.enroll q i (hold hq)
    rw [hdisk]
    exact ⟨ht,hz,fun q' hq' => huniq q' (hold hq')⟩

end Local

/-- The usual case: the entry stays for its inode. -/
theorem Local.inv_of_ino (h : Inv s) (f : Local ip p s t) (hpos : 0 < (s.itable ip).ref)
    (hino : (t.itable ip).ino = (s.itable ip).ino) (he : EntryInv t ip) : Inv t :=
  f.inv h he fun _ jp hne hj heq => hne (h.unique jp ip hj hpos (heq.trans hino))

attribute [grind] State.Referenced Current Releasing
attribute [grind =] Pc.drops Pc.locks Pc.entry

@[grind =] theorem put_owners (s : State P) (ip : Fin NINODE) (x : Entry P) :
    (s.put ip x).owners = s.owners := rfl

@[grind =] theorem store_owners (s : State P) (i : Ino) (c : Copy) : (s.store i c).owners = s.owners := rfl

@[grind =] theorem owners_goto (h : l.drops = (s.pc p).drops) : (s.goto p l).owners = s.owners := by
  rw [State.owners,bag_drops_goto h,goto_refs,State.owners]

/-- A step that changes an entry and where a process stands. -/
theorem local_put {x : Entry P} (hd : l.drops = (s.pc p).drops)
    (hb : ∀ jp, (s.pc p).entry = some jp → jp = ip) (ha : ∀ jp, l.entry = some jp → jp = ip)
    (hl : l.locks.isSome ∨ l.drops.isSome ∨ l = .idle) : Local ip p s ((s.put ip x).goto p l) := by
  refine ⟨?_,.inl rfl,fun _ _ _ => .rfl,.inl (owners_goto (s := s.put ip x) hd),?_,hb,?_,?_,?_⟩ <;> grind

theorem Inv.ilock (h : Inv s) (hp : s.pc p = .idle) (hr : s.Referenced ip)
    (hstep : s.ilock p ip = some t) : Inv t := by
  unfold State.ilock at hstep
  split at hstep
  case isFalse => cases hstep
  case isTrue hc =>
    cases hstep
    have hd : (Pc.lock ip).drops = (s.pc p).drops := by rw [hp]; rfl
    refine (local_put hd (by grind) (by grind) (.inl rfl)).inv_of_ino h hc.1 (by grind) ?_
    cases h.entry ip
    constructor <;> grind

theorem Inv.pos_of_locks (h : Inv s) (hp : (s.itable ip).holder = some p) : 0 < (s.itable ip).ref := by
  rcases ((h.entry ip).held p hp).2 with hd | ⟨⟨g,hg⟩,-⟩
  · exact (h.entry ip).pos_of_drops hd
  · exact (h.entry ip).pos_of_mem hg

theorem Inv.load (h : Inv s) (hp : s.pc p = .lock ip) (hstep : s.load p ip = some t) : Inv t := by
  have hd : Pc.idle.drops = (s.pc p).drops := by rw [hp]; rfl
  have hholder : (s.itable ip).holder = some p := (h.entry ip).locks p (by rw [hp]; rfl)
  have hpos := h.pos_of_locks hholder
  have hsame : s.put ip (s.itable ip) = s := by
    rw [State.put,update_eq_self]
  have hentry := h.entry ip
  unfold State.load at hstep
  split at hstep
  case isTrue hv =>
    cases hstep
    rw [← hsame]
    refine (local_put hd (by grind) (by grind) (.inr (.inr rfl))).inv_of_ino h hpos (by grind) ?_
    cases hentry
    constructor <;> grind
  case isFalse hv =>
    split at hstep
    case isTrue => cases hstep
    case isFalse ht =>
      cases hstep
      refine (local_put hd (by grind) (by grind) (.inr (.inr rfl))).inv_of_ino h hpos (by grind) ?_
      cases hentry
      constructor <;> grind

/-- A process that is in no operation changes an entry. -/
theorem local_put_idle {x : Entry P} (hp : s.pc p = .idle) : Local ip p s (s.put ip x) := by
  have f : Local ip p s ((s.put ip x).goto p .idle) :=
    local_put (by rw [hp]) (by grind) (by grind) (.inr (.inr rfl))
  have heq : (s.put ip x).goto p .idle = s.put ip x := by
    rw [State.goto,← hp]
    exact congrArg (fun pc => { s.put ip x with pc := pc }) (update_eq_self p s.pc)
  exact heq ▸ f

theorem Inv.iunlock (h : Inv s) (hp : s.pc p = .idle) (hstep : s.iunlock p ip = some t) : Inv t := by
  unfold State.iunlock at hstep
  split at hstep
  case isFalse => cases hstep
  case isTrue hc =>
    cases hstep
    refine (local_put_idle hp).inv_of_ino h hc.2 (by grind) ?_
    cases h.entry ip
    constructor <;> grind

theorem Inv.modify {d : Dinode} (h : Inv s) (hp : s.pc p = .idle)
    (hd : d.type = (s.itable ip).copy.d.type) (hstep : s.modify p ip d = some t) : Inv t := by
  unfold State.modify at hstep
  split at hstep
  case isFalse => cases hstep
  case isTrue hc =>
    cases hstep
    refine (local_put_idle hp).inv_of_ino h (h.pos_of_locks hc) (by grind) ?_
    cases h.entry ip
    constructor <;> grind

/-- A process that has locked an entry and is in no operation finds the inode there. -/
theorem Inv.current (h : Inv s) (hp : s.pc p = .idle) (hc : (s.itable ip).holder = some p) :
    (s.itable ip).valid = true ∧ ¬ Releasing s ip ∧ Current s ip := by
  have hpos := h.pos_of_locks hc
  obtain ⟨-,-,-,hheld,-,hvalid,-,-,-⟩ := h.entry ip
  grind

theorem Inv.iupdate (h : Inv s) (hp : s.pc p = .idle) (hstep : s.iupdate p ip = some t) : Inv t := by
  unfold State.iupdate at hstep
  split at hstep
  case isFalse => cases hstep
  case isTrue hc =>
    cases hstep
    have hpos := h.pos_of_locks hc
    obtain ⟨hv,hnr,hcur⟩ := h.current hp hc
    have f : Local ip p s (s.store (s.itable ip).ino (s.itable ip).copy) := by
      refine ⟨fun _ _ => rfl,.inr ⟨hpos,hv,hnr,?_⟩,fun _ _ _ => .rfl,.inl rfl,fun _ _ => rfl,?_,?_,?_,?_⟩ <;>
        grind
    refine f.inv_of_ino h hpos rfl ?_
    obtain ⟨href,hsingle,hlocks,hheld,hlive,hvalid,hlast,hfreed,henroll⟩ := h.entry ip
    refine ⟨href,hsingle,hlocks,hheld,?_,?_,hlast,hfreed,?_⟩ <;> grind

/-- A step of `iput` that writes the inode. -/
theorem local_store {x : Entry P} {c : Copy} (h : Inv s) (hp : s.pc p = .trunc ip ∨ s.pc p = .free ip)
    (hl : l.drops = some ip) :
    Local ip p s (((s.put ip x).store (s.itable ip).ino c).goto p l) := by
  have hdrops := drops_of_last hp
  have hown : l.drops = (((s.put ip x).store (s.itable ip).ino c).pc p).drops := hl.trans hdrops.symm
  have hpos := (h.entry ip).pos_of_drops hdrops
  obtain ⟨-,-,hlocks,-,-,-,hlast,-,-⟩ := h.entry ip
  have hent := Pc.entry_of_drops hl
  refine ⟨?_,.inr ⟨hpos,(hlast p hp).2.1,?_,?_⟩,fun _ _ _ => .rfl,.inl (owners_goto hown),?_,?_,?_,?_,?_⟩ <;>
    grind

theorem Inv.itrunc (h : Inv s) (hp : s.pc p = .trunc ip) : Inv (s.itrunc p ip) := by
  unfold State.itrunc
  have hdrops : (s.pc p).drops = some ip := by rw [hp]; rfl
  have hpos := (h.entry ip).pos_of_drops hdrops
  refine (local_store h (.inl hp) rfl).inv_of_ino h hpos (by grind) ?_
  cases h.entry ip
  constructor <;> grind

theorem Inv.freeInode (h : Inv s) (hp : s.pc p = .free ip) : Inv (s.freeInode p ip) := by
  unfold State.freeInode
  have hdrops : (s.pc p).drops = some ip := by rw [hp]; rfl
  have hpos := (h.entry ip).pos_of_drops hdrops
  refine (local_store h (.inr hp) rfl).inv_of_ino h hpos (by grind) ?_
  cases h.entry ip
  constructor <;> grind

theorem Inv.releaseFreed (h : Inv s) (hp : s.pc p = .release ip) : Inv (s.releaseFreed p ip) := by
  unfold State.releaseFreed
  have hdrops : (s.pc p).drops = some ip := by rw [hp]; rfl
  have hd : (Pc.drop ip).drops = (s.pc p).drops := hdrops.symm
  have hpos := (h.entry ip).pos_of_drops hdrops
  refine (local_put hd (by grind) (by grind) (.inr (.inl rfl))).inv_of_ino h hpos (by grind) ?_
  cases h.entry ip
  constructor <;> grind

theorem Inv.dropFreed (h : Inv s) (hp : s.pc p = .drop ip) : Inv (s.dropFreed p ip) := by
  unfold State.dropFreed
  generalize hx : ({ s.itable ip with ref := (s.itable ip).ref-1 } : Entry P) = x
  have hdrops : (s.pc p).drops = some ip := by rw [hp]; rfl
  have hpos := (h.entry ip).pos_of_drops hdrops
  have hown : s.owners = ip ::ₘ ((s.put ip x).goto p .idle).owners := by
    rw [State.owners,bag_drops_end (l := .idle) hdrops rfl,add_cons]
    rfl
  have f : Local ip p s ((s.put ip x).goto p .idle) := by
    refine ⟨?_,.inl rfl,fun _ _ _ => .rfl,.inr (.inr hown),?_,?_,?_,?_,?_⟩ <;> grind
  refine f.inv_of_ino h hpos (by grind) ?_
  obtain ⟨href,hsingle,hlocks,hheld,hlive,hvalid,hlast,hfreed,henroll⟩ := h.entry ip
  rw [hown,count_cons_self] at href
  constructor <;> grind

theorem mem_erase_other {r' : Ref} (hne : r'.1 ≠ r.1) : r' ∈ s.refs.erase r ↔ r' ∈ s.refs :=
  mem_erase_of_ne fun heq => hne (congrArg Prod.fst heq)

/-- Dropping a reference that is not the last, or of an inode that stays. -/
theorem Inv.iputDrop (h : Inv s) (hp : s.pc p = .idle) (hr : r ∈ s.refs)
    (hheld' : ∀ q, (s.itable r.1).holder = some q → (s.pc q).drops = some r.1 ∨
      ∃ g, (r.1,g) ∈ s.refs.erase r) :
    Inv ((s.put r.1 { s.itable r.1 with ref := (s.itable r.1).ref-1 }).withRefs (s.refs.erase r)) := by
  generalize hx : ({ s.itable r.1 with ref := (s.itable r.1).ref-1 } : Entry P) = x
  have hpos := (h.entry r.1).pos_of_mem hr
  have hsub : ∀ r', r' ∈ s.refs.erase r → r' ∈ s.refs := fun r' => mem_of_mem_erase
  have hown : s.owners = r.1 ::ₘ ((s.put r.1 x).withRefs (s.refs.erase r)).owners := by
    rw [State.owners,← cons_erase hr,map_cons,cons_add,
      cons_erase hr]
    rfl
  have f : Local r.1 p s ((s.put r.1 x).withRefs (s.refs.erase r)) := by
    refine ⟨?_,.inl rfl,fun jp g hne => mem_erase_other hne,.inr (.inr hown),fun _ _ => rfl,?_,?_,?_,?_⟩ <;>
      grind
  refine f.inv_of_ino h hpos (by grind) ?_
  obtain ⟨href,hsingle,hlocks,hheld,hlive,hvalid,hlast,hfreed,henroll⟩ := h.entry r.1
  rw [hown,count_cons_self] at href
  constructor <;> grind

/-- The last reference to an inode without links goes, and nobody has it locked. -/
theorem Inv.iputLast (h : Inv s) (hp : s.pc p = .idle) (hr : r ∈ s.refs)
    (hone : (s.itable r.1).ref = 1) (hv : (s.itable r.1).valid = true)
    (hz : (s.itable r.1).copy.d.nlink = 0) (hfree : (s.itable r.1).holder = none) :
    Inv (((s.put r.1 { s.itable r.1 with holder := some p }).goto p (.trunc r.1)).withRefs
      (s.refs.erase r)) := by
  generalize hx : ({ s.itable r.1 with holder := some p } : Entry P) = x
  generalize ht : ((s.put r.1 x).goto p (.trunc r.1)).withRefs (s.refs.erase r) = t
  have hown : t.owners = s.owners := by
    have hbag : (bag fun q => (t.pc q).drops) = r.1 ::ₘ bag fun q => (s.pc q).drops := by
      rw [← ht]
      exact bag_drops_start (s := s) (by rw [hp]; rfl) rfl
    rw [State.owners,hbag,add_cons,← cons_add,← map_cons,← ht]
    show ((r ::ₘ s.refs.erase r).map Prod.fst+_) = _
    rw [cons_erase hr]
    rfl
  have hcons : s.owners = r.1 ::ₘ ((s.refs.erase r).map Prod.fst+bag fun q => (s.pc q).drops) := by
    rw [State.owners,← cons_erase hr,map_cons,cons_add,
      cons_erase hr]
  obtain ⟨href,hsingle,hlocks,hheld,hlive,hvalid,hlast,hfreed,henroll⟩ := h.entry r.1
  -- the reference counted is the one that goes
  have hnone : ((s.refs.erase r).map Prod.fst+bag fun q => (s.pc q).drops).count r.1 = 0 := by
    rw [hcons,count_cons_self] at href
    omega
  have hnoref : ∀ g, (r.1,g) ∉ s.refs.erase r := fun g hg =>
    count_eq_zero.mp hnone (mem_add.mpr (.inl (mem_map.mpr ⟨_,hg,rfl⟩)))
  have hnodrop : ∀ q, (s.pc q).drops ≠ some r.1 := fun q hq =>
    count_eq_zero.mp hnone (mem_add.mpr (.inr (mem_bag.mpr ⟨q,hq⟩)))
  subst ht
  have f : Local r.1 p s (((s.put r.1 x).goto p (.trunc r.1)).withRefs (s.refs.erase r)) := by
    refine ⟨?_,.inl rfl,fun jp g hne => mem_erase_other hne,.inl hown,?_,?_,?_,?_,?_⟩ <;> grind
  refine f.inv_of_ino h (by omega) (by grind) ?_
  constructor <;> grind

theorem Inv.iput (h : Inv s) (hp : s.pc p = .idle) (hr : r ∈ s.refs)
    (hheld : ∀ q, (s.itable r.1).holder = some q → (s.pc q).drops = some r.1 ∨
      ∃ g, (r.1,g) ∈ s.refs.erase r) (hstep : s.iput p r = some t) : Inv t := by
  unfold State.iput at hstep
  split at hstep
  case isTrue hc =>
    split at hstep
    case isTrue hfree =>
      cases hstep
      exact h.iputLast hp hr hc.1 hc.2.1 hc.2.2 hfree
    case isFalse => cases hstep
  case isFalse =>
    cases hstep
    exact h.iputDrop hp hr hheld

theorem findEntry_some (hf : s.findEntry i = some ip) :
    0 < (s.itable ip).ref ∧ (s.itable ip).ino = i := by
  have hip := List.find?_some hf
  exact of_decide_eq_true hip

theorem findEntry_none (hf : s.findEntry i = none) : ∀ ip, 0 < (s.itable ip).ref →
    (s.itable ip).ino ≠ i := fun ip hpos hino =>
  List.find?_eq_none.mp hf ip (List.mem_finRange ip) (decide_eq_true ⟨hpos,hino⟩)

theorem emptyEntry_some (hf : s.emptyEntry = some ip) : (s.itable ip).ref = 0 := by
  have hip := List.find?_some hf
  exact of_decide_eq_true hip

/-- An inode that may be looked up: it is allocated, and nobody is about to free it or has just
marked it. -/
structure Getable (s : State P) (i : Ino) : Prop where
  type : (s.disk i).d.type ≠ 0
  enroll : ∀ q, s.pc q ≠ .enroll i
  last : ∀ q ip, s.pc q = .trunc ip ∨ s.pc q = .free ip → (s.itable ip).ino ≠ i

theorem owners_cons (x : Entry P) (g : ℕ) :
    ((s.put ip x).withRefs ((ip,g) ::ₘ s.refs)).owners = ip ::ₘ s.owners := by
  rw [State.owners,withRefs_refs,map_cons,cons_add]
  rfl

/-- A step that adds a reference to entry `ip`. -/
theorem local_hold {x : Entry P} {g : ℕ} (hp : s.pc p = .idle) :
    Local ip p s ((s.put ip x).withRefs ((ip,g) ::ₘ s.refs)) := by
  refine ⟨?_,.inl rfl,fun jp g' hne => ?_,.inr (.inl (owners_cons x g)),fun _ _ => rfl,?_,?_,?_,?_⟩
  case refine_2 => 
    rw [withRefs_refs,mem_cons]
    exact or_iff_right fun heq => hne (congrArg Prod.fst heq)
  all_goals grind

/-- One more reference to an entry in use. -/
theorem Inv.hold (h : Inv s) (hp : s.pc p = .idle) (hi : Getable s i) (hpos : 0 < (s.itable ip).ref)
    (hino : (s.itable ip).ino = i) :
    Inv ((s.put ip { s.itable ip with ref := (s.itable ip).ref+1 }).withRefs
      ((ip,(s.disk i).life) ::ₘ s.refs)) := by
  obtain ⟨htype,henr,hlst⟩ := hi
  refine (local_hold hp).inv_of_ino h hpos (by grind) ?_
  cases h.entry ip
  constructor <;> grind [owners_cons,count_cons_self]

theorem Inv.igetNew (h : Inv s) (hp : s.pc p = .idle) (hi : Getable s i)
    (hf : s.findEntry i = none) (he : s.emptyEntry = some ip) :
    Inv ((s.put ip { s.itable ip with ino := i, ref := 1, valid := false }).withRefs
      ((ip,(s.disk i).life) ::ₘ s.refs)) := by
  have hzero := emptyEntry_some he
  have hnone := findEntry_none hf
  have hcount : s.owners.count ip = 0 := (h.entry ip).ref ▸ hzero
  have hnoref : ∀ g, (ip,g) ∉ s.refs := fun g hg => by
    have := (h.entry ip).pos_of_mem hg
    omega
  have hnodrop : ∀ q, (s.pc q).drops ≠ some ip := fun q hq => by
    have := (h.entry ip).pos_of_drops hq
    omega
  have hfree : ∀ q, (s.itable ip).holder ≠ some q := fun q hq => by
    have := h.pos_of_locks hq
    omega
  obtain ⟨htype,henr,hlst⟩ := hi
  refine (local_hold hp).inv h ?_ (by grind)
  cases h.entry ip
  constructor <;> grind [owners_cons,count_cons_self]

theorem Inv.iget (h : Inv s) (hp : s.pc p = .idle) (hi : Getable s i) (hstep : s.iget i = some t) :
    Inv t := by
  unfold State.iget at hstep
  split at hstep
  next hf =>
    cases hstep
    obtain ⟨hpos,hino⟩ := findEntry_some hf
    exact h.hold hp hi hpos hino
  next hf =>
    split at hstep
    next he =>
      cases hstep
      exact h.igetNew hp hi hf he
    next => cases hstep

theorem Inv.eq_of_ino {jp : Fin NINODE} (h : Inv s) (hp : s.pc q = .trunc ip ∨ s.pc q = .free ip)
    (hpos : 0 < (s.itable jp).ref) (hino : (s.itable ip).ino = (s.itable jp).ino) : ip = jp := by
  have hdrops := drops_of_last hp
  exact h.unique ip jp ((h.entry ip).pos_of_drops hdrops) hpos hino

theorem Inv.getable_of_ref (h : Inv s) (hr : r ∈ s.refs) (hino : (s.itable r.1).ino = i) :
    Getable s i := by
  subst hino
  have hpos := (h.entry r.1).pos_of_mem hr
  refine ⟨((h.entry r.1).live r.2 hr).2,fun q hq => ?_,fun q ip hq heq => ?_⟩
  · exact ((h.entry r.1).enroll q hq hpos).1 ⟨r.2,hr⟩
  · obtain rfl := h.eq_of_ino hq hpos heq
    exact ((h.entry r.1).last q hq).1 ⟨r.2,hr⟩

theorem Inv.idup (h : Inv s) (hp : s.pc p = .idle) (hr : r ∈ s.refs) : Inv (s.idup r) := by
  have hheld := h.hold hp (h.getable_of_ref hr rfl) ((h.entry r.1).pos_of_mem hr) rfl
  rwa [((h.entry r.1).live r.2 hr).1] at hheld

/-- A linked inode may be looked up. -/
theorem Inv.getable_of_linked (h : Inv s) (hl : s.Linked i) : Getable s i := by
  obtain ⟨htype,hlink⟩ := hl
  unfold State.current at htype hlink
  split at htype
  next ip hf =>
    rw [hf] at hlink
    obtain ⟨hpos,rfl⟩ := findEntry_some hf
    obtain ⟨-,-,-,-,-,hvalid,hlast,hfreed,henroll⟩ := h.entry ip
    by_cases hv : (s.itable ip).valid = true
    · simp only [hv,if_true] at htype hlink
      have hnr : ¬ Releasing s ip := by grind
      refine ⟨((hvalid hpos hv).resolve_left hnr).2.2,fun q hq => ?_,fun q jp hq heq => ?_⟩
      · exact hnr ((henroll q hq hpos).2 hv)
      · obtain rfl := h.eq_of_ino hq hpos heq
        exact hlink (hlast q hq).2.2
    · simp only [hv] at htype hlink
      refine ⟨htype,fun q hq => hlink (h.enroll q _ hq).2.1,fun q jp hq heq => ?_⟩
      obtain rfl := h.eq_of_ino hq hpos heq
      exact hv (hlast q hq).2.1
  next hf =>
    rw [hf] at hlink
    refine ⟨htype,fun q hq => hlink (h.enroll q i hq).2.1,fun q ip hq heq => ?_⟩
    have hdrops := drops_of_last hq
    exact findEntry_none hf ip ((h.entry ip).pos_of_drops hdrops) heq

/-- A step that is at no entry and marks nothing. -/
theorem Inv.goto (h : Inv s) (hp : (s.pc p).entry = none) (hl : l.entry = none)
    (hscan : ∀ dev type inum, l = .scan dev type inum → type % 2^16 ≠ 0) (hne : ∀ i, l ≠ .enroll i) :
    Inv (s.goto p l) := by
  have hd : l.drops = (s.pc p).drops := (Pc.drops_of_entry hl).trans (Pc.drops_of_entry hp).symm
  refine ⟨fun ip => (h.entry ip).frame ⟨rfl,fun _ => rfl,fun _ => .rfl,by rw [owners_goto hd],?_,?_⟩,
    h.unique,?_,?_⟩
  · grind
  · grind
  · have := h.scan
    grind
  · have := h.enroll
    grind

/-- The mark of `ialloc` on a free inode. -/
theorem Inv.mark {d : Dinode} {dev type inum : ℕ} (h : Inv s) (hp : s.pc p = .scan dev type inum)
    (hfree : (s.disk i).d.type = 0) (hd : d.type ≠ 0) (hz : d.nlink = 0) :
    Inv ((s.store i ⟨d,(s.disk i).life+1⟩).goto p (.enroll i)) := by
  have hown : ((s.store i ⟨d,(s.disk i).life+1⟩).goto p (.enroll i)).owners = s.owners :=
    owners_goto (s := s.store i _) (by rw [store_pc,hp]; rfl)
  -- nobody has marked it before, and who has it in the table has freed it
  have hnew : ∀ q, s.pc q ≠ .enroll i := fun q hq => (h.enroll q i hq).1 hfree
  refine ⟨fun ip => ?_,h.unique,?_,?_⟩
  · by_cases hip : 0 < (s.itable ip).ref ∧ (s.itable ip).ino = i
    · obtain ⟨hpos,rfl⟩ := hip
      cases h.entry ip
      constructor <;> grind
    · refine (h.entry ip).frame ⟨rfl,?_,fun _ => .rfl,by rw [hown],?_,?_⟩ <;> grind
  · have := h.scan
    grind
  · have := h.enroll
    grind

theorem Inv.scanRound {dev type inum : ℕ} (h : Inv s) (hp : s.pc p = .scan dev type inum) :
    Inv (s.scan n p dev type inum) := by
  have htype := h.scan p dev type inum hp
  unfold State.scan
  split
  · split
    next hfree => exact h.mark hp hfree htype rfl
    next => exact h.goto (by rw [hp]; rfl) rfl (by grind) (by grind)
  · exact h.goto (by rw [hp]; rfl) rfl (by grind) (by grind)

/-- The second half of `ialloc`. -/
theorem Inv.enrolled (h : Inv s) (hp : s.pc p = .enroll i)
    (hstep : (s.goto p .idle).iget i = some t) : Inv t := by
  have hidle : Inv (s.goto p .idle) := h.goto (by rw [hp]; rfl) rfl (by grind) (by grind)
  obtain ⟨htype,-,honly⟩ := h.enroll p i hp
  refine hidle.iget (p := p) (by grind) ⟨htype,by grind,fun q ip hq hino => ?_⟩ hstep
  have hq : s.pc q = .trunc ip ∨ s.pc q = .free ip := by grind
  have hdrops := drops_of_last hq
  have hpos := (h.entry ip).pos_of_drops hdrops
  obtain ⟨-,-,hlocks,-,-,-,hlast,-,henroll⟩ := h.entry ip
  rw [goto_itable] at hino
  subst hino
  have hrel := (henroll p hp hpos).2 (hlast q hq).2.1
  grind

theorem Inv.advance (h : Inv s) (hstep : s.advance n p = some t) : Inv t := by
  unfold State.advance at hstep
  split at hstep
  next => cases hstep
  next ip hp => exact h.load hp hstep
  next ip hp =>
    cases hstep
    exact h.itrunc hp
  next ip hp =>
    cases hstep
    exact h.freeInode hp
  next ip hp =>
    cases hstep
    exact h.releaseFreed hp
  next ip hp =>
    cases hstep
    exact h.dropFreed hp
  next dev type inum hp =>
    cases hstep
    exact h.scanRound hp
  next i hp => exact h.enrolled hp hstep

theorem Inv.rename (h : Inv s) (named : Ino → ℕ) : Inv { s with named := named } :=
  ⟨fun ip => (h.entry ip).frame ⟨rfl,fun _ => rfl,fun _ => .rfl,rfl,fun _ => .inl rfl,fun _ _ => id⟩,
    h.unique,h.scan,h.enroll⟩

theorem Inv.step {e : Event P} (h : Inv s) (hob : Obeys s e) (hstep : step n s e = some t) : Inv t := by
  unfold Itable.step at hstep
  split at hstep
  case isFalse => cases hstep
  case isTrue hidle =>
    obtain ⟨hlinked,hob⟩ := hob
    cases e with
    | iget p i =>
      refine h.iget (hidle p rfl) ?_ hstep
      rcases hob with hn | ⟨r,hr,hino⟩
      · exact h.getable_of_linked (hlinked i hn)
      · exact h.getable_of_ref hr hino
    | idup p r =>
      cases hstep
      exact h.idup (hidle p rfl) hob
    | ilock p ip => exact h.ilock (hidle p rfl) hob hstep
    | iunlock p ip => exact h.iunlock (hidle p rfl) hstep
    | iput p r => exact h.iput (hidle p rfl) hob.1 hob.2 hstep
    | ialloc p dev type =>
      cases hstep
      refine h.goto (by rw [hidle p rfl]; rfl) rfl ?_ (by grind)
      intro dev' type' inum heq
      cases heq
      exact hob
    | modify p ip d => exact h.modify (hidle p rfl) hob hstep
    | iupdate p ip => exact h.iupdate (hidle p rfl) hstep
    | advance p => exact h.advance hstep
    | enter i =>
      cases hstep
      exact h.rename _
    | remove i =>
      cases hstep
      exact h.rename _

/-! Whole runs. -/

/-- The table as `iinit` leaves it, before any process uses it. -/
structure Fresh (s : State P) : Prop where
  ref : ∀ ip, (s.itable ip).ref = 0
  holder : ∀ ip, (s.itable ip).holder = none
  pc : ∀ p, s.pc p = .idle
  refs : s.refs = 0

theorem Fresh.inv (h : Fresh s) : Inv s := by
  have hpc := h.pc
  have hholder := h.holder
  have hno : ∀ r, r ∉ s.refs := by
    rw [h.refs]
    exact notMem_zero
  have hown : s.owners = 0 := by
    rw [State.owners,h.refs,Multiset.map_zero,zero_add]
    exact bag_eq_zero fun p => by rw [hpc p]; rfl
  refine ⟨fun ip => ⟨?_,?_,?_,?_,?_,?_,?_,?_,?_⟩,fun ip _ hpos => ?_,?_,?_⟩
  · rw [h.ref,hown,count_zero]
  case refine_10 => exact absurd (h.ref ip) hpos.ne'
  case refine_6 => exact fun hpos => absurd (h.ref ip) hpos.ne'
  all_goals grind

/-- What is safe about the table. -/
structure Safe (s : State P) : Prop where
  /-- An inode is in the table at most once. -/
  unique : ∀ ip jp, 0 < (s.itable ip).ref → 0 < (s.itable jp).ref →
    (s.itable ip).ino = (s.itable jp).ino → ip = jp
  /-- A process that is about to truncate or free an inode is the only one with a reference to
  it, and the inode has no links. -/
  frees : ∀ p ip, s.pc p = .trunc ip ∨ s.pc p = .free ip → (s.itable ip).ref = 1 ∧
    (∀ r ∈ s.refs, r.1 ≠ ip) ∧ (∀ q, (s.pc q).drops = some ip → q = p) ∧
    (s.itable ip).copy.d.nlink = 0
  /-- Who has locked an inode sees the allocation that the references to it were made for. -/
  sees : ∀ p r, r ∈ s.refs → (s.itable r.1).holder = some p → s.pc p = .idle →
    (s.itable r.1).valid = true ∧ (s.itable r.1).copy.d.type ≠ 0 ∧ (s.itable r.1).copy.life = r.2 ∧
      (s.disk (s.itable r.1).ino).life = r.2

theorem Inv.ref_one (h : Inv s) (hp : s.pc p = .trunc ip ∨ s.pc p = .free ip) :
    (s.itable ip).ref = 1 := by
  have hdrops := drops_of_last hp
  obtain ⟨href,hsingle,-,-,-,-,hlast,-,-⟩ := h.entry ip
  have hrefs : (s.refs.map Prod.fst).count ip = 0 := by
    refine count_eq_zero.mpr fun hm => ?_
    obtain ⟨r,hr,rfl⟩ := mem_map.mp hm
    exact (hlast p hp).1 ⟨r.2,hr⟩
  have hbag : (bag fun q => (s.pc q).drops).count ip = 1 := by
    rw [count_bag,Finset.card_eq_one]
    refine ⟨p,Finset.ext fun q => ?_⟩
    rw [Finset.mem_filter,Finset.mem_singleton]
    exact ⟨fun hq => hsingle q p hq.2 hdrops,fun hq => ⟨Finset.mem_univ q,hq ▸ hdrops⟩⟩
  rw [href,State.owners,count_add,hrefs,hbag]

theorem Inv.safe (h : Inv s) : Safe s := by
  refine ⟨h.unique,fun p ip hp => ⟨h.ref_one hp,fun r hr heq => ?_,fun q hq => ?_,
    ((h.entry ip).last p hp).2.2⟩,fun p r hr hheld hp => ?_⟩
  · exact ((h.entry ip).last p hp).1 ⟨r.2,heq ▸ hr⟩
  · have hdrops := drops_of_last hp
    exact (h.entry ip).single q p hq hdrops
  · obtain ⟨hv,-,hlife,htype,-⟩ := h.current hp hheld
    have hlive := ((h.entry r.1).live r.2 hr).1
    exact ⟨hv,htype,hlife.trans hlive,hlive⟩

theorem iget_recycles (hstep : s.iget i = some t) (hne : (t.itable ip).ino ≠ (s.itable ip).ino) :
    (s.itable ip).ref = 0 := by
  unfold State.iget at hstep
  split at hstep
  next jp hf =>
    cases hstep
    grind
  next hf =>
    split at hstep
    next jp he =>
      cases hstep
      have := emptyEntry_some he
      grind
    next => cases hstep

/-- Only `iget` gives an entry to another inode. -/
theorem step_recycles {e : Event P} (hstep : step n s e = some t)
    (hne : (t.itable ip).ino ≠ (s.itable ip).ino) : (s.itable ip).ref = 0 := by
  unfold step at hstep
  split at hstep
  case isFalse => cases hstep
  case isTrue =>
    cases e with
    | iget p i => exact iget_recycles hstep hne
    | advance p =>
      simp only [act,State.advance] at hstep
      split at hstep
      case h_8 i hp => exact iget_recycles (s := s.goto p .idle) hstep hne
      all_goals grind [State.load,State.itrunc,State.freeInode,State.releaseFreed,State.dropFreed,State.scan]
    | _ =>
      simp only [act] at hstep
      grind [State.idup,State.ilock,State.iunlock,State.iput,State.modify,State.iupdate]

/-- In every interleaving of processes that obey the protocol, the inode table is safe, and an
entry is given to another inode only when it has no references. -/
theorem itable_safe {s₀ : State P} (h₀ : Fresh s₀) (h : Reaches (step n) Obeys s₀ s) :
    Safe s ∧ ∀ e t, step n s e = some t → ∀ ip, (t.itable ip).ino ≠ (s.itable ip).ino →
      (s.itable ip).ref = 0 := by
  have hs : Inv s := h.invariant h₀.inv fun _ _ _ ha hob hstep => ha.step hob hstep
  exact ⟨hs.safe,fun e t hstep ip hne => step_recycles hstep hne⟩

/-! A run in which an inode is freed and allocated again while it is in the table. -/

/-- Whether an event obeys the protocol, as far as this can be seen without directories. -/
def obeys (s : State P) : Event P → Bool
  | .ilock _ ip => decide (ip ∈ s.refs.map Prod.fst)
  | .iput _ r => decide (r ∈ s.refs ∧ (s.itable r.1).holder = none)
  | .ialloc _ _ type => decide (type % 2^16 ≠ 0)
  | .iunlock _ _ | .advance _ => true
  | _ => false

theorem step_named {e : Event P} (hok : obeys s e = true) (hstep : step n s e = some t) :
    t.named = s.named := by
  unfold step at hstep
  split at hstep
  case isFalse => cases hstep
  case isTrue =>
    cases e <;> simp only [act,State.advance,State.iget] at hstep <;>
      grind [State.load,State.itrunc,State.freeInode,State.releaseFreed,State.dropFreed,State.scan,
        State.ilock,State.iunlock,State.iput,State.put,State.goto,State.store,State.withRefs,obeys]

theorem obeys_sound {e : Event P} (hok : obeys s e = true) (hn : ∀ i, s.named i = 0) : Obeys s e := by
  refine ⟨fun i hi => absurd (hn i) hi.ne',?_⟩
  cases e with
  | ilock p ip =>
    have hmem : ip ∈ s.refs.map Prod.fst := of_decide_eq_true hok
    obtain ⟨r,hr,rfl⟩ := mem_map.mp hmem
    exact ⟨r.2,hr⟩
  | iput p r =>
    obtain ⟨hr,hfree⟩ := of_decide_eq_true hok
    exact ⟨hr,fun q hq => absurd (hfree.symm.trans hq) (Option.some_ne_none q).symm⟩
  | ialloc p dev type => exact of_decide_eq_true hok
  | iunlock | advance => trivial
  | _ => exact absurd hok Bool.false_ne_true

theorem reaches_obeys {s₀ : State P} (h : Reaches (step n) (fun s e => obeys s e = true) s₀ s)
    (h₀ : ∀ i, s₀.named i = 0) : Reaches (step n) Obeys s₀ s ∧ ∀ i, s.named i = 0 := by
  induction h with
  | refl => exact ⟨.refl _,h₀⟩
  | tail _ hok hstep ih =>
    exact ⟨ih.1.tail (obeys_sound hok ih.2) hstep,fun i => by rw [step_named hok hstep,ih.2 i]⟩

/-- Two processes, an empty table and a disk without inodes in use. -/
def blank : State Bool :=
  ⟨fun _ => ⟨Dinode.blank,0⟩,fun _ => ⟨(0,0),0,none,false,⟨Dinode.blank,0⟩⟩,fun _ => .idle,0,fun _ => 0⟩

/-- Process `false` frees inode 1 and has not yet dropped its reference; process `true` gets the
number and the table entry for a device, and sees that. -/
theorem itable_safe_reallocated : ∃ s, Reaches (step 2) Obeys blank s ∧ Safe s ∧
    (s.itable 0).ref = 2 ∧ (s.itable 0).copy.life = 2 ∧ (s.itable 0).copy.d.type = 3 := by
  let es : List (Event Bool) := [.ialloc false 1 2,.advance false,.advance false,.ilock false 0,
    .advance false,.iunlock false 0,.iput false (0,1),.advance false,.advance false,
    .ialloc true 1 3,.advance true,.advance true,.advance false,.ilock true 0,.advance true]
  have hrun : (runEvents (step 2) obeys blank es).map (fun s => decide ((s.itable 0).ref = 2 ∧
      (0,2) ∈ s.refs ∧ (s.itable 0).holder = some true ∧ s.pc true = .idle ∧
      (s.itable 0).copy.d.type = 3)) = some true := by decide +kernel
  obtain ⟨s,hs,hdec⟩ := Option.map_eq_some_iff.mp hrun
  obtain ⟨href,hmem,hheld,hpc,htype⟩ := of_decide_eq_true hdec
  have hreach := (reaches_obeys (reaches_of_runEvents hs) fun _ => rfl).1
  have hfresh : Fresh blank := ⟨fun _ => rfl,fun _ => rfl,fun _ => rfl,rfl⟩
  have hsafe := (itable_safe hfresh hreach).1
  exact ⟨s,hreach,hsafe,href,(hsafe.sees true (0,2) hmem hheld hpc).2.2.1,htype⟩

end Itable
end Xv6
