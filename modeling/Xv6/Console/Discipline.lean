import Xv6.Console.Model

/-! The console as a line discipline: what the reads deliver is what the keys say. -/
namespace Xv6
namespace Console

open List

/-- The input as the user sees it: `done` has been committed, `line` is being edited. -/
structure Line where
  done : List UInt8
  line : List UInt8

/-- Erase and kill processing. -/
def Line.key (x : Line) : Key → Line
  | .char c =>
    let c := if c = carriageReturn then newline else c
    if c = newline ∨ c = eof then ⟨x.done++x.line++[c],[]⟩ else ⟨x.done,x.line++[c]⟩
  | .erase => ⟨x.done,x.line.dropLast⟩
  | .kill => ⟨x.done,[]⟩
  | .full => ⟨x.done++x.line,[]⟩

def edited (keys : List Key) : Line := keys.foldl Line.key ⟨[],[]⟩

theorem edited_press (keys : List Key) (k : Key) : edited (keys++[k]) = (edited keys).key k := by
  simp [edited]

/-- The bytes for users: control-D only marks an end. -/
def textOf (xs : List UInt8) : List UInt8 := xs.filter (· ≠ eof)

/-- A read that has ended went up to the first newline or control-D, or got all it asked for; one
that sleeps has met neither yet. -/
def Pc.Sound : Pc → Prop
  | .user target ret got stop => ret = got.length ∧ eof ∉ got ∧ got.length ≤ target ∧
    match stop with
    | .delivered => got.length = target ∧ newline ∉ got
    | .newline => ∃ l, got = l++[newline] ∧ newline ∉ l
    | .eof => newline ∉ got
    | .fault | .killed => False
  | .sleep target n got _ => got.length+n = target ∧ 0 < n ∧ newline ∉ got ∧ eof ∉ got

theorem UINT_pos : 0 < UINT := by decide

theorem size_dvd : INPUT_BUF_SIZE ∣ UINT := by decide

theorem size_lt : INPUT_BUF_SIZE < UINT := by decide

theorem decr_succ {k : ℕ} (hk : k < UINT) : (decr k+1) % UINT = k := by
  unfold decr
  split
  · rename_i hz
    rw [Nat.sub_add_cancel UINT_pos,Nat.mod_self,hz]
  · rw [Nat.sub_add_cancel (by omega),Nat.mod_eq_of_lt hk]

theorem decr_lt {k : ℕ} (hk : k < UINT) : decr k < UINT := by
  have := UINT_pos
  unfold decr
  split <;> omega

theorem decr_of_succ {k : ℕ} (hk : k < UINT) : decr ((k+1) % UINT) = k := by
  have hlt : decr ((k+1) % UINT) < UINT := decr_lt (Nat.mod_lt _ UINT_pos)
  have hsucc : (decr ((k+1) % UINT)+1) % UINT = (k+1) % UINT := decr_succ (Nat.mod_lt _ UINT_pos)
  have hmod : decr ((k+1) % UINT) % UINT = k % UINT := Nat.ModEq.add_right_cancel' 1 hsucc
  rwa [Nat.mod_eq_of_lt hlt,Nat.mod_eq_of_lt hk] at hmod

/-- The buffer holds `queue`, which is committed and not yet read, and then the `line`. -/
structure Cons.Holds (c : Cons) (queue line : List UInt8) : Prop where
  buf : c.buf.Holds UINT (queue++line)
  w : c.w = (c.r+queue.length) % UINT

section cons

variable {c : Cons} {queue line : List UInt8}

theorem Cons.Holds.used (h : c.Holds queue line) : c.used = (queue++line).length :=
  h.buf.pending size_lt

theorem Cons.Holds.e_eq (h : c.Holds queue line) : c.e = (c.w+line.length) % UINT := by
  obtain ⟨-,b,hc,hp,-⟩ := h.buf
  rw [h.w,Cons.e,Cons.r,hp,hc,Nat.mod_add_mod,Nat.add_assoc,Nat.mod_add_mod,length_append]

theorem Cons.Holds.short (h : c.Holds queue line) :
    queue.length+line.length ≤ INPUT_BUF_SIZE := by
  have hsize := h.buf.size
  rwa [length_append] at hsize

/-- Two indices that are fewer than `UINT` apart are equal only if nothing is in between. -/
theorem add_mod_eq_self {a k : ℕ} (ha : a < UINT) (hk : k ≤ INPUT_BUF_SIZE) :
    (a+k) % UINT = a ↔ k = 0 := by
  simp only [UINT,INPUT_BUF_SIZE] at *
  omega

theorem Cons.Holds.w_lt (h : c.Holds queue line) : c.w < UINT := by
  rw [h.w]
  exact Nat.mod_lt _ UINT_pos

theorem Cons.Holds.r_lt (h : c.Holds queue line) : c.r < UINT := by
  obtain ⟨-,b,hc,-,-⟩ := h.buf
  rw [Cons.r,hc]
  exact Nat.mod_lt _ UINT_pos

theorem Cons.Holds.e_lt (h : c.Holds queue line) : c.e < UINT := by
  rw [h.e_eq]
  exact Nat.mod_lt _ UINT_pos

theorem Cons.Holds.r_eq_w (h : c.Holds queue line) : c.r = c.w ↔ queue = [] := by
  have hshort := h.short
  rw [h.w,eq_comm,add_mod_eq_self h.r_lt (by omega),length_eq_zero_iff]

theorem Cons.Holds.e_eq_w (h : c.Holds queue line) : c.e = c.w ↔ line = [] := by
  have hshort := h.short
  rw [h.e_eq,add_mod_eq_self h.w_lt (by omega),length_eq_zero_iff]

/-- The last character of the line is taken back. -/
theorem Cons.Holds.erase {a : UInt8} (h : c.Holds queue (line++[a])) :
    c.erase.Holds queue line := by
  have hbuf := h.buf
  rw [← append_assoc] at hbuf
  exact ⟨hbuf.unpush (decr_succ h.e_lt) (decr_lt h.e_lt),h.w⟩

theorem Cons.Holds.last {a : UInt8} (h : c.Holds queue (line++[a])) : c.last = a := by
  have hbuf := h.buf
  rw [← append_assoc] at hbuf
  exact hbuf.peekLast size_dvd (decr_succ h.e_lt) (decr_lt h.e_lt)

/-- Control-U takes back the whole line, which has no newline in it. -/
theorem Cons.Holds.killLine {n : ℕ} (h : c.Holds queue line) (hline : newline ∉ line)
    (hn : line.length ≤ n) : (c.killLine n).Holds queue [] := by
  induction n generalizing c line with
  | zero =>
    obtain rfl := length_eq_zero_iff.mp (Nat.le_zero.mp hn)
    exact h
  | succ n ih =>
    rcases eq_nil_or_concat' line with rfl | ⟨l,a,rfl⟩
    · rw [Cons.killLine,if_neg fun hc => hc.1 (h.e_eq_w.mpr rfl)]
      exact h
    · have hne : a ≠ newline := fun he => hline (by simp [he])
      rw [Cons.killLine,if_pos ⟨h.e_eq_w.not.mpr (by simp),by rw [h.last]; exact hne⟩]
      exact ih h.erase (fun hm => hline (by simp [hm])) (by simpa using hn)

/-- A character is stored behind the line. -/
theorem Cons.Holds.store (h : c.Holds queue line) (hroom : c.used < INPUT_BUF_SIZE) (a : UInt8) :
    Cons.Holds { c with buf := c.buf.push UINT a } queue (line++[a]) := by
  rw [h.used] at hroom
  refine ⟨?_,h.w⟩
  rw [← append_assoc]
  exact h.buf.push size_dvd hroom a

/-- The line joins what is committed. -/
theorem Cons.Holds.commit (h : c.Holds queue line) :
    Cons.Holds { c with w := c.e } (queue++line) [] := by
  refine ⟨by rw [append_nil]; exact h.buf,?_⟩
  change c.e = (c.r+(queue++line).length) % UINT
  rw [h.e_eq,h.w,Nat.mod_add_mod,Nat.add_assoc,length_append]

/-- The oldest character is read. -/
theorem Cons.Holds.take {a : UInt8} (h : c.Holds (a::queue) line) :
    c.buf.slot (Fin.ofNat INPUT_BUF_SIZE c.r) = a ∧
      Cons.Holds { c with buf := { c.buf with cons := (c.r+1) % UINT } } queue line := by
  refine ⟨h.buf.peek size_dvd,h.buf.drop,?_⟩
  change c.w = ((c.r+1) % UINT+queue.length) % UINT
  rw [h.w,Nat.mod_add_mod,length_cons,Nat.add_assoc,Nat.add_comm 1]

end cons

/-- The console between two steps. -/
structure Disc (s : State) (queue line : List UInt8) : Prop where
  cons : s.cons.Holds queue line
  keys : ∃ gone, edited s.keys = ⟨gone++queue,line⟩ ∧ textOf gone = s.delivered
  unended : newline ∉ line ∧ eof ∉ line
  saved : s.saved = true → ∃ rest, queue = eof::rest
  sound : ∀ p, (s.pc p).Sound

theorem disc_init : Disc .init [] [] where
  cons := ⟨Ring.holds_nil rfl UINT_pos,rfl⟩
  keys := ⟨[],rfl,rfl⟩
  unended := by simp
  saved := nofun
  sound _ := ⟨rfl,by simp,le_rfl,rfl,by simp⟩

section disc

variable {s t : State} {queue line : List UInt8}

theorem wakeup_sound (h : ∀ p, (s.pc p).Sound) (p : ℕ) : (s.wakeup.pc p).Sound := by
  have hp := h p
  simp only [State.wakeup]
  split
  · rename_i heq
    rwa [heq] at hp
  · exact hp

/-- The keys after one more key. -/
theorem Disc.pressed (h : Disc s queue line) {k : Key} {queue' line' : List UInt8}
    (hk : ∀ gone, Line.key ⟨gone++queue,line⟩ k = ⟨gone++queue',line'⟩) :
    ∃ gone, edited (s.keys++[k]) = ⟨gone++queue',line'⟩ ∧ textOf gone = s.delivered := by
  obtain ⟨gone,hg,hd⟩ := h.keys
  exact ⟨gone,by rw [edited_press,hg,hk],hd⟩

/-- Committing what is in the buffer, after the keys have. -/
theorem Disc.commit {u : State} (hc : u.cons.Holds queue line)
    (hkeys : ∃ gone, edited u.keys = ⟨gone++(queue++line),[]⟩ ∧ textOf gone = u.delivered)
    (hsaved : u.saved = true → ∃ rest, queue = eof::rest) (hsound : ∀ p, (u.pc p).Sound) :
    Disc u.commit (queue++line) [] := by
  refine ⟨hc.commit,hkeys,by simp,fun hs => ?_,wakeup_sound hsound⟩
  obtain ⟨rest,rfl⟩ := hsaved hs
  exact ⟨rest++line,rfl⟩

theorem insert_disc (h : Disc s queue line) (c : UInt8) :
    ∃ queue' line', Disc (s.insert c) queue' line' := by
  unfold State.insert
  split
  case isFalse => exact ⟨queue,line,h⟩
  rename_i hroom
  dsimp only
  generalize hd : (if c = carriageReturn then newline else c) = d
  have hstore := h.cons.store hroom.2 d
  split
  · rename_i hend
    refine ⟨queue++(line++[d]),[],Disc.commit hstore (h.pressed fun gone => ?_) h.saved h.sound⟩
    simp only [Line.key,hd,if_pos hend,append_assoc]
  · rename_i hmore
    have hunended : newline ∉ line++[d] ∧ eof ∉ line++[d] := by
      obtain ⟨h1,h2⟩ := not_or.mp hmore
      simp [h.unended.1,h.unended.2,Ne.symm h1,Ne.symm h2]
    have hdisc : Disc { s.press (.char c) with
        cons := { s.cons with buf := s.cons.buf.push UINT d } } queue (line++[d]) :=
      ⟨hstore,h.pressed fun gone => by simp only [Line.key,hd,if_neg hmore],hunended,h.saved,
        h.sound⟩
    split
    · refine ⟨queue++(line++[d]),[],Disc.commit hstore (hdisc.pressed (k := .full) fun gone => ?_)
        h.saved h.sound⟩
      simp only [Line.key,append_assoc]
    · exact ⟨queue,line++[d],hdisc⟩

theorem consoleintr_disc (h : Disc s queue line) (c : UInt8) :
    ∃ queue' line', Disc (s.consoleintr c) queue' line' := by
  unfold State.consoleintr
  split
  · exact ⟨queue,line,h⟩
  split
  · have hshort := h.cons.short
    exact ⟨queue,[],h.cons.killLine h.unended.1 (by omega),h.pressed fun _ => rfl,by simp,h.saved,
      h.sound⟩
  split
  · rcases eq_nil_or_concat' line with rfl | ⟨l,a,rfl⟩
    · rw [if_neg fun hne => hne (h.cons.e_eq_w.mpr rfl)]
      exact ⟨queue,[],h.cons,h.pressed fun _ => rfl,h.unended,h.saved,h.sound⟩
    · rw [if_pos (h.cons.e_eq_w.not.mpr (by simp))]
      refine ⟨queue,l,h.cons.erase,h.pressed fun _ => ?_,?_,h.saved,h.sound⟩
      · simp [Line.key]
      · exact ⟨fun hm => h.unended.1 (by simp [hm]),fun hm => h.unended.2 (by simp [hm])⟩
  · exact insert_disc h c

/-- A process ends its read, or sleeps. -/
theorem Disc.setPc (h : Disc s queue line) {p : ℕ} {c : Pc} (hc : c.Sound) :
    Disc (s.setPc p c) queue line := by
  refine ⟨h.cons,h.keys,h.unended,h.saved,fun q => ?_⟩
  by_cases hq : q = p
  · subst hq
    simpa [State.setPc] using hc
  · simpa [State.setPc,hq] using h.sound q

/-- The oldest byte of the queue is read: a byte for the user, or a control-D. -/
theorem Disc.take {a : UInt8} {rest : List UInt8} (h : Disc s (a::rest) line)
    {delivered : List UInt8} (hd : delivered = s.delivered++textOf [a]) :
    Disc { s with
      cons := { s.cons with buf := { s.cons.buf with cons := (s.cons.r+1) % UINT } }
      delivered := delivered
      saved := false } rest line := by
  refine ⟨h.cons.take.2,?_,h.unended,nofun,h.sound⟩
  obtain ⟨gone,hg,hdel⟩ := h.keys
  refine ⟨gone++[a],by rw [hg,append_assoc]; rfl,?_⟩
  rw [hd,← hdel,textOf,filter_append]
  rfl

/-- What a round of `consoleread` says about control-D.  `n` of `target` bytes were to go before
it. -/
structure EofRule (s t : State) (p target n : ℕ) : Prop where
  saves : ∀ target' ret got, t.pc p = .user target' ret got .eof → got ≠ [] → t.saved = true
  keeps : s.saved = true → n < target ∨ n = 0 → t.saved = true
  ends : s.saved = true → n = target → 0 < n → t.pc p = .user target 0 [] .eof

theorem readLoop_disc {p target n : ℕ} {got : List UInt8} {copyout : ℕ → Bool}
    (h : Disc s queue line) (hlen : got.length+n = target) (hgot : newline ∉ got ∧ eof ∉ got)
    (hcopy : ∀ n, copyout n = true) :
    ∃ queue', Disc (s.readLoop p false copyout target n got) queue' line ∧
      EofRule s (s.readLoop p false copyout target n got) p target n := by
  induction n generalizing s queue got with
  | zero =>
    refine ⟨queue,h.setPc ⟨by omega,hgot.2,by omega,by omega,hgot.1⟩,?_,?_,?_⟩
    · simp [State.readLoop,State.finish,State.setPc]
    · intro hs _
      exact hs
    · omega
  | succ n ih =>
    rw [State.readLoop]
    split
    · rename_i hrw
      obtain rfl := h.cons.r_eq_w.mp hrw
      have hunsaved (hs : s.saved = true) : False := by
        obtain ⟨rest,hrest⟩ := h.saved hs
        cases hrest
      rw [if_neg (by simp)]
      refine ⟨[],h.setPc ⟨hlen,by omega,hgot.1,hgot.2⟩,?_,fun hs => (hunsaved hs).elim,
        fun hs => (hunsaved hs).elim⟩
      simp [State.setPc]
    rename_i hrw
    obtain ⟨a,rest,rfl⟩ := exists_cons_of_ne_nil (h.cons.r_eq_w.not.mp hrw)
    rw [h.cons.take.1]
    dsimp only
    split
    · rename_i heof
      subst heof
      have hpc (u : State) : (u.finish p target (n+1) got .eof).pc p =
          .user target (target-(n+1 : ℕ)) got .eof := by simp [State.finish,State.setPc]
      by_cases hmore : n+1 < target
      · have hback : decr ((s.cons.r+1) % UINT) = s.cons.r := decr_of_succ h.cons.r_lt
        simp only [hmore,if_true,decide_true,hback]
        have hsame : Disc { s with saved := true } (eof::rest) line :=
          ⟨h.cons,h.keys,h.unended,fun _ => ⟨rest,rfl⟩,h.sound⟩
        exact ⟨eof::rest,hsame.setPc ⟨by omega,hgot.2,by omega,hgot.1⟩,fun _ _ _ _ _ => rfl,
          fun _ _ => rfl,by omega⟩
      · have hfirst : got = [] := length_eq_zero_iff.mp (by omega)
        subst hfirst
        simp only [hmore,if_false,decide_false]
        have htake : Disc { s with
            cons := { s.cons with buf := { s.cons.buf with cons := (s.cons.r+1) % UINT } }
            saved := false } rest line := h.take (by simp [textOf])
        refine ⟨rest,htake.setPc ⟨?_,by simp,by simp,by simp⟩,fun _ _ _ hu hne => ?_,by omega,
          fun _ heq _ => ?_⟩
        · simp only [length_nil]
          omega
        · rw [hpc] at hu
          simp only [Pc.user.injEq] at hu
          exact absurd hu.2.2.1.symm hne
        · rw [hpc,heq]
          simp
    · rename_i hne
      have hunsaved : s.saved = false := by
        by_contra hs
        obtain ⟨rest',hrest⟩ := h.saved (by simpa using hs)
        exact hne (cons.inj hrest).1
      have htake : Disc { s with
          cons := { s.cons with buf := { s.cons.buf with cons := (s.cons.r+1) % UINT } }
          delivered := s.delivered++[a]
          saved := false } rest line := h.take (by simp [textOf,hne])
      rw [if_neg (by simp [hcopy])]
      rw [← hunsaved] at htake
      split
      · rename_i hnl
        refine ⟨rest,htake.setPc ⟨?_,?_,?_,got,by rw [hnl],hgot.1⟩,fun _ _ _ hu => ?_,?_,?_⟩
        · simp only [length_append,length_singleton]
          omega
        · simp only [mem_append,mem_singleton,not_or]
          exact ⟨hgot.2,Ne.symm hne⟩
        · simp only [length_append,length_singleton]
          omega
        · simp [State.finish,State.setPc] at hu
        · simp [hunsaved]
        · simp [hunsaved]
      · rename_i hnl
        have hgot' : newline ∉ got++[a] ∧ eof ∉ got++[a] := by
          simp only [mem_append,mem_singleton,not_or]
          exact ⟨⟨hgot.1,Ne.symm hnl⟩,hgot.2,Ne.symm hne⟩
        obtain ⟨queue',hd,hr⟩ := ih htake
          (by simp only [length_append,length_singleton]; omega) hgot'
        exact ⟨queue',hd,hr.saves,by simp [hunsaved],by simp [hunsaved]⟩

/-- The process whose read an event goes on with. -/
def Event.reader : Event → Option ℕ
  | .intr _ => none
  | .read p .. | .resume p .. => some p

theorem consoleintr_saved (s : State) (c : UInt8) : (s.consoleintr c).saved = s.saved := by
  simp only [State.consoleintr,State.insert]
  repeat' split
  all_goals rfl

/-- One step keeps the console in order; a read that goes on is one with `n` of `target` bytes to
go. -/
theorem step_disc {e : Event} (h : Disc s queue line) (hok : e.sound) (ht : s.step e = some t) :
    (∃ queue' line', Disc t queue' line') ∧ (e.reader = none → t.saved = s.saved) ∧
    ∀ p, e.reader = some p → ∃ target n, n ≤ target ∧ EofRule s t p target n ∧
      ∀ m killed copyout, e = .read p m killed copyout → target = m.toNat ∧ n = m.toNat := by
  cases e with
  | intr c =>
    obtain rfl := Option.some.inj ht
    exact ⟨consoleintr_disc h c,fun _ => consoleintr_saved s c,nofun⟩
  | read p m killed copyout =>
    obtain ⟨rfl,hcopy⟩ := hok
    simp only [State.step,State.consoleread] at ht
    split at ht
    · obtain rfl := Option.some.inj ht
      have hlen : ([] : List UInt8).length+m.toNat = m.toNat := Nat.zero_add _
      obtain ⟨queue',hd,hr⟩ := readLoop_disc h hlen ⟨not_mem_nil,not_mem_nil⟩ hcopy
      refine ⟨⟨queue',line,hd⟩,nofun,fun q hq => ?_⟩
      obtain rfl := Option.some.inj hq
      exact ⟨m.toNat,m.toNat,le_rfl,hr,fun m' _ _ he => by cases he; exact ⟨rfl,rfl⟩⟩
    · cases ht
  | resume p killed copyout =>
    obtain ⟨rfl,hcopy⟩ := hok
    simp only [State.step,State.resume] at ht
    split at ht
    · rename_i target n got hp
      obtain rfl := Option.some.inj ht
      have hsound := h.sound p
      rw [hp] at hsound
      obtain ⟨hlen,hpos,hnl,he⟩ := hsound
      obtain ⟨queue',hd,hr⟩ := readLoop_disc (p := p) h hlen ⟨hnl,he⟩ hcopy
      refine ⟨⟨queue',line,hd⟩,nofun,fun q hq => ?_⟩
      obtain rfl := Option.some.inj hq
      exact ⟨target,n,by omega,hr,nofun⟩
    · cases ht

end disc

/-- The console discipline in a state and the steps from it. -/
structure LineDiscipline (s : State) : Prop where
  ordered : (s.cons.w+UINT-s.cons.r) % UINT ≤ (s.cons.e+UINT-s.cons.r) % UINT ∧
    (s.cons.e+UINT-s.cons.r) % UINT ≤ INPUT_BUF_SIZE
  editing : ∀ c, c = ctrl 'U' ∨ c = ctrl 'H' ∨ c = delete →
    (s.consoleintr c).cons.buf.slot = s.cons.buf.slot ∧
      (s.consoleintr c).cons.r = s.cons.r ∧ (s.consoleintr c).cons.w = s.cons.w
  text : s.delivered <+: textOf (edited s.keys).done
  reads : ∀ p, (s.pc p).Sound
  saves : ∀ e t p target ret got, e.sound → s.step e = some t → e.reader = some p →
    t.pc p = .user target ret got .eof → got ≠ [] → t.saved = true
  waits : s.saved = true → ∀ e t, e.sound → s.step e = some t → t.saved = true ∨
    ∃ p target, e.reader = some p ∧ t.pc p = .user target 0 [] .eof
  next : s.saved = true → ∀ p n killed copyout t, (Event.read p n killed copyout).sound → 0 < n →
    s.step (.read p n killed copyout) = some t → t.pc p = .user n.toNat 0 [] .eof

theorem killLine_keeps (c : Cons) (n : ℕ) : (c.killLine n).buf.slot = c.buf.slot ∧
    (c.killLine n).r = c.r ∧ (c.killLine n).w = c.w := by
  induction n generalizing c with
  | zero => exact ⟨rfl,rfl,rfl⟩
  | succ n ih =>
    rw [Cons.killLine]
    split
    · exact ih c.erase
    · exact ⟨rfl,rfl,rfl⟩

theorem editing_keeps (s : State) {c : UInt8} (hc : c = ctrl 'U' ∨ c = ctrl 'H' ∨ c = delete) :
    (s.consoleintr c).cons.buf.slot = s.cons.buf.slot ∧
      (s.consoleintr c).cons.r = s.cons.r ∧ (s.consoleintr c).cons.w = s.cons.w := by
  unfold State.consoleintr
  rw [if_neg (by rcases hc with rfl | rfl | rfl <;> decide)]
  split
  · exact killLine_keeps s.cons INPUT_BUF_SIZE
  · rw [if_pos (hc.resolve_left ‹_›)]
    split <;> exact ⟨rfl,rfl,rfl⟩

/-- Runs of the console with readers that are not killed and copies that succeed. -/
abbrev ConsoleRun (s : State) : Prop :=
  Reaches State.step (fun _ e => e.sound) .init s

theorem consoleRun_disc {s : State} (hr : ConsoleRun s) : ∃ queue line, Disc s queue line :=
  hr.invariant (P := fun s => ∃ queue line, Disc s queue line) ⟨[],[],disc_init⟩
    fun _ _ _ ⟨_,_,h⟩ hok hst => (step_disc h hok hst).1

theorem console_line_discipline (s : State) (hr : ConsoleRun s) : LineDiscipline s := by
  obtain ⟨queue,line,h⟩ := consoleRun_disc hr
  have hshort := h.cons.short
  have hlt := size_lt
  refine ⟨?_,fun c => editing_keeps s,?_,h.sound,fun e t p target ret got hok ht hp hu hne => ?_,
    fun hs e t hok ht => ?_,fun hs p n killed copyout t hok hn ht => ?_⟩
  · have he := h.cons.used
    rw [Cons.used,length_append] at he
    rw [he,h.cons.w,Ring.add_mod_sub_mod h.cons.r_lt (by omega)]
    omega
  · obtain ⟨gone,hg,hd⟩ := h.keys
    rw [hg,← hd,textOf,textOf,filter_append]
    exact prefix_append ..
  · obtain ⟨-,-,hread⟩ := step_disc h hok ht
    obtain ⟨_,_,-,hrule,-⟩ := hread p hp
    exact hrule.saves target ret got hu hne
  · obtain ⟨-,hquiet,hread⟩ := step_disc h hok ht
    cases hp : e.reader with
    | none => exact .inl ((hquiet hp).trans hs)
    | some p =>
      obtain ⟨target,n,hle,hrule,-⟩ := hread p hp
      by_cases hmore : n < target ∨ n = 0
      · exact .inl (hrule.keeps hs hmore)
      · exact .inr ⟨p,target,rfl,hrule.ends hs (by omega) (by omega)⟩
  · obtain ⟨-,-,hread⟩ := step_disc h hok ht
    obtain ⟨target,m,-,hrule,heq⟩ := hread p rfl
    obtain ⟨rfl,rfl⟩ := heq n killed copyout rfl
    exact hrule.ends hs rfl (by omega)

/-- The user types `a`, corrects it to `b`, and ends the input; a read gets the `b`, the next one
nothing. -/
theorem console_line_discipline_corrected : ∃ s, ConsoleRun s ∧ s.delivered = [98] ∧
    s.pc 0 = .user 5 0 [] .eof ∧ LineDiscipline s := by
  have hrun : (runEvents State.step (fun _ _ => true) .init
      [.intr 97,.intr delete,.intr 98,.intr eof,.read 0 5 false fun _ => true,
        .read 0 5 false fun _ => true]).map
      (fun s => decide (s.delivered = [98] ∧ s.pc 0 = .user 5 0 [] .eof)) = some true := by
    decide +kernel
  have hsound : ∀ e ∈ ([.intr 97,.intr delete,.intr 98,.intr eof,.read 0 5 false fun _ => true,
      .read 0 5 false fun _ => true] : List Event), e.sound := by
    simp [Event.sound]
  obtain ⟨s,hs,heq⟩ := Option.map_eq_some_iff.mp hrun
  obtain ⟨hd,hp⟩ := of_decide_eq_true heq
  have hr : ConsoleRun s := reaches_of_runEvents_mem hs hsound
  exact ⟨s,hr,hd,hp,console_line_discipline s hr⟩

end Console
end Xv6
