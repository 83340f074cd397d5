import Xv6.Lib.CString
import Xv6.Grep.Regex

/-! `grep` reads its input in chunks and prints the lines that match. -/
namespace Xv6.Grep

open List

def newline : UInt8 := 10

/-- `sizeof(buf)`. -/
def SIZE : ℕ := 1024

structure State where
  buf : List UInt8
  m : ℕ
  /-- What was written to file descriptor 1. -/
  out : List UInt8

/-- The loop over the lines in the buffer, from position `p`. -/
def lines (pattern : Str) : ℕ → List UInt8 → ℕ → List UInt8 → Option (ℕ × List UInt8 × List UInt8)
  | 0, _, _, _ => none
  | fuel+1, buf, p, out =>
    match strchr newline (buf.drop p) p with
    | none => some (p,buf,out)
    | some q =>
      let cut := buf.set q 0
      if «match» pattern (cstr cut p) then
        let buf := cut.set q newline
        lines pattern fuel buf (q+1) (out ++ (buf.drop p).take (q+1-p))
      else lines pattern fuel cut (q+1) out

/-- What `grep` does with the bytes that `read` has stored at `buf+m`. -/
def State.round (pattern : Str) (s : State) (chunk : List UInt8) : Option State := do
  let m := s.m + chunk.length
  let buf := (overwrite s.buf s.m chunk).set m 0
  let (p,buf,out) ← lines pattern SIZE buf 0 s.out
  let m := if p = 0 then 0 else m
  if 0 < m then pure ⟨overwrite buf 0 ((buf.drop p).take (m-p)),m-p,out⟩
  else pure ⟨buf,m,out⟩

/-- `grep`, where `read` returns the chunks in turn and then 0. -/
def grep (pattern : Str) : State → List (List UInt8) → Option State
  | s, [] => some s
  | s, chunk::chunks => (s.round pattern chunk).bind fun t => grep pattern t chunks

/-- The calls of `read(fd, buf+m, sizeof(buf)-m-1)` may return these chunks. -/
def Reads (pattern : Str) : State → List (List UInt8) → Prop
  | _, [] => True
  | s, chunk::chunks => chunk ≠ [] ∧ chunk.length ≤ SIZE-s.m-1 ∧
      ∀ t, s.round pattern chunk = some t → Reads pattern t chunks

/-- The text made of these lines. -/
def unlines (ls : List Str) : Str := (ls.map (· ++ [newline])).flatten

/-- The lines that are to be printed. -/
def selected (pattern : Str) (ls : List Str) : List Str := ls.filter («match» pattern)

/-- The bytes of a line. -/
def IsLine (l : Str) : Prop := newline ∉ l ∧ 0 ∉ l

variable {pattern : Str} {ls ls' : List Str} {l rest rest' pend chunk text : Str} {s t : State}
  {out : List UInt8}

theorem unlines_cons : unlines (l::ls) = l++newline::unlines ls := by
  simp [unlines]

theorem unlines_append : unlines (ls++ls') = unlines ls++unlines ls' := by
  simp [unlines]

/-- Every text is made of lines and of what comes after the last newline. -/
theorem exists_lines (text : Str) (h0 : 0 ∉ text) : ∃ ls rest, text = unlines ls++rest ∧
    (∀ l ∈ ls, IsLine l) ∧ IsLine rest := by
  induction text with
  | nil => exact ⟨[],[],rfl,fun l hl => absurd hl not_mem_nil,not_mem_nil,not_mem_nil⟩
  | cons x text ih =>
    rw [mem_cons,not_or] at h0
    obtain ⟨hx,h0⟩ := h0
    obtain ⟨ls,rest,rfl,hls,hrest⟩ := ih h0
    by_cases hn : x = newline
    · refine ⟨[]::ls,rest,by rw [unlines_cons,hn]; rfl,fun l hl => ?_,hrest⟩
      rcases mem_cons.mp hl with rfl | hl
      · exact ⟨not_mem_nil,not_mem_nil⟩
      · exact hls l hl
    · have hline {l : Str} (hl : IsLine l) : IsLine (x::l) :=
        ⟨by rw [mem_cons,not_or]; exact ⟨Ne.symm hn,hl.1⟩,
          by rw [mem_cons,not_or]; exact ⟨hx,hl.2⟩⟩
      cases ls with
      | nil => exact ⟨[],x::rest,rfl,fun l hl => absurd hl not_mem_nil,hline hrest⟩
      | cons l ls =>
        refine ⟨(x::l)::ls,rest,by simp [unlines_cons],fun l' hl => ?_,hrest⟩
        rcases mem_cons.mp hl with rfl | hl
        · exact hline (hls l mem_cons_self)
        · exact hls l' (mem_cons_of_mem _ hl)

theorem selected_cons : unlines (selected pattern (l::ls)) =
    (if «match» pattern l then l++[newline] else [])++unlines (selected pattern ls) := by
  unfold selected
  by_cases h : «match» pattern l = true
  · rw [filter_cons_of_pos h,if_pos h,unlines_cons,append_assoc]
    rfl
  · rw [filter_cons_of_neg h,if_neg h]
    rfl

theorem selected_append : unlines (selected pattern (ls++ls')) =
    unlines (selected pattern ls)++unlines (selected pattern ls') := by
  rw [selected,filter_append,unlines_append]
  rfl

/-- The loop goes through the lines; what it leaves is not the beginning of a line any more. -/
theorem lines_spec {a junk : List UInt8} {fuel : ℕ} (hfuel : ls.length < fuel)
    (hls : ∀ l ∈ ls, IsLine l) (hrest : IsLine rest) :
    ∃ a', a'.length = a.length+(unlines ls).length ∧
      lines pattern fuel (a++(unlines ls++(rest++0::junk))) a.length out =
        some (a'.length,a'++(rest++0::junk),out++unlines (selected pattern ls)) := by
  induction ls generalizing a fuel out with
  | nil =>
    obtain ⟨fuel,rfl⟩ := Nat.exists_eq_succ_of_ne_zero (Nat.ne_of_gt hfuel)
    refine ⟨a,rfl,?_⟩
    rw [lines,show unlines [] = [] from rfl,nil_append,drop_left,
      strchr_of_not_mem hrest.1 hrest.2]
    simp [selected,unlines]
  | cons l ls ih =>
    obtain ⟨fuel,rfl⟩ := Nat.exists_eq_succ_of_ne_zero (Nat.ne_of_gt (Nat.zero_lt_of_lt hfuel))
    obtain ⟨hl,hl0⟩ := hls l mem_cons_self
    have hls' : ∀ l ∈ ls, IsLine l := fun l' hl' => hls l' (mem_cons_of_mem l hl')
    have hfuel' : ls.length < fuel := Nat.lt_of_succ_lt_succ hfuel
    -- what comes after the first line
    obtain ⟨tail,htail⟩ : ∃ tail, unlines ls++(rest++0::junk) = tail := ⟨_,rfl⟩
    have hbuf (x : UInt8) : a++(l++x::tail) = (a++l)++x::tail := by
      rw [append_assoc]
    have hset (x y : UInt8) : (a++(l++x::tail)).set (a.length+l.length) y
        = a++(l++y::tail) := by
      rw [hbuf,set_append (by rw [length_append]),hbuf]
    have htake : ((a++(l++newline::tail)).drop a.length).take (a.length+l.length+1-a.length)
        = l++[newline] := by
      rw [drop_left,show a.length+l.length+1-a.length = l.length+1 by omega,
        take_length_add_append]
      rfl
    have hnext (x : UInt8) (out : List UInt8) :
        ∃ a', a'.length = a.length+(unlines (l::ls)).length ∧
          lines pattern fuel (a++(l++x::tail)) (a.length+l.length+1) out =
            some (a'.length,a'++(rest++0::junk),out++unlines (selected pattern ls)) := by
      obtain ⟨a',hlen,hrun⟩ : ∃ a', a'.length = (a++l++[x]).length+(unlines ls).length ∧
          lines pattern fuel ((a++l++[x])++(unlines ls++(rest++0::junk)))
            (a++l++[x]).length out =
          some (a'.length,a'++(rest++0::junk),out++unlines (selected pattern ls)) :=
        ih hfuel' hls'
      refine ⟨a',?_,?_⟩
      · rw [hlen,unlines_cons]
        simp only [length_append,length_cons,length_nil]
        omega
      · rw [← hrun,htail]
        simp only [append_assoc,cons_append,nil_append,length_append,
          length_cons,length_nil]
        rfl
    rw [unlines_cons,append_assoc,cons_append,htail,lines,drop_left,
      strchr_append hl hl0 (by decide)]
    simp only [hset,cstr_append hl0,htake,selected_cons]
    split
    · obtain ⟨a',hlen,hrun⟩ := hnext newline (out++(l++[newline]))
      refine ⟨a',hlen.trans (by rw [unlines_cons]),?_⟩
      rw [hrun,append_assoc]
    · obtain ⟨a',hlen,hrun⟩ := hnext 0 out
      exact ⟨a',hlen.trans (by rw [unlines_cons]),hrun⟩

/-- The buffer begins with the part of a line that was read so far. -/
structure Holds (s : State) (pend : Str) : Prop where
  size : s.buf.length = SIZE
  count : s.m = pend.length
  front : pend <+: s.buf
  line : IsLine pend

theorem length_le_unlines (ls : List Str) : ls.length ≤ (unlines ls).length := by
  induction ls with
  | nil => exact Nat.le_refl 0
  | cons l ls ih =>
    rw [unlines_cons,length_append,length_cons,length_cons]
    omega

/-- One round: complete lines are dealt with; what is left is kept, but for the case that there
is no newline in the buffer at all. -/
theorem round_spec (h : Holds s pend) (hlen : chunk.length ≤ SIZE-s.m-1) (hpos : chunk ≠ [])
    (heq : pend++chunk = unlines ls++rest) (hls : ∀ l ∈ ls, IsLine l) (hrest : IsLine rest) :
    ∃ t, s.round pattern chunk = some t ∧ Holds t (if ls = [] then [] else rest) ∧
      t.out = s.out++unlines (selected pattern ls) := by
  have hn : 0 < chunk.length := length_pos_iff.mpr hpos
  have hcount := h.count
  have hsize := congrArg length heq
  rw [length_append,length_append] at hsize
  obtain ⟨more,hmore⟩ := h.front
  have hbuflen := h.size
  -- the buffer with the chunk and the NUL
  obtain ⟨junk,hjunk⟩ : ∃ junk, (overwrite s.buf s.m chunk).set (s.m+chunk.length) 0
      = unlines ls++(rest++0::junk) := by
    have hover : overwrite s.buf s.m chunk
        = (unlines ls++rest)++s.buf.drop (s.m+chunk.length) := by
      rw [overwrite,← heq,hcount,← hmore,take_left]
    have hdrop : 0 < (s.buf.drop (s.m+chunk.length)).length := by
      rw [length_drop]
      omega
    obtain ⟨x,junk,hx⟩ := exists_cons_of_length_pos hdrop
    refine ⟨junk,?_⟩
    rw [hover,hx,set_append (by rw [length_append]; omega),append_assoc]
  have hfuel : ls.length < SIZE := by
    have := length_le_unlines ls
    omega
  obtain ⟨a',ha',hrun⟩ : ∃ a', a'.length = 0+(unlines ls).length ∧
      lines pattern SIZE (unlines ls++(rest++0::junk)) 0 s.out =
        some (a'.length,a'++(rest++0::junk),s.out++unlines (selected pattern ls)) :=
    lines_spec (a := []) hfuel hls hrest
  rw [Nat.zero_add] at ha'
  have htotal : a'.length+(rest++0::junk).length = SIZE := by
    have hl := congrArg length hjunk
    rw [length_set,overwrite_length (by omega),length_append] at hl
    omega
  have hzero : a'.length = 0 ↔ ls = [] := by
    rw [ha']
    constructor
    · intro h0
      have := length_le_unlines ls
      exact length_eq_zero_iff.mp (by omega)
    · rintro rfl
      rfl
  have hround : s.round pattern chunk =
      if 0 < (if a'.length = 0 then 0 else s.m+chunk.length) then
        some ⟨overwrite (a'++(rest++0::junk)) 0 (((a'++(rest++0::junk)).drop a'.length).take
          ((if a'.length = 0 then 0 else s.m+chunk.length)-a'.length)),
          (if a'.length = 0 then 0 else s.m+chunk.length)-a'.length,
          s.out++unlines (selected pattern ls)⟩
      else some ⟨a'++(rest++0::junk),if a'.length = 0 then 0 else s.m+chunk.length,
          s.out++unlines (selected pattern ls)⟩ := by
    simp only [State.round,hjunk,hrun,Option.bind_eq_bind,Option.bind_some]
    rfl
  by_cases h0 : ls = []
  · rw [if_pos (hzero.mpr h0),if_neg (Nat.lt_irrefl 0)] at hround
    refine ⟨_,hround,?_,rfl⟩
    rw [if_pos h0]
    exact ⟨by rw [length_append]; exact htotal,rfl, nil_prefix,not_mem_nil,
      not_mem_nil⟩
  · have hlen' : s.m+chunk.length-a'.length = rest.length := by omega
    rw [if_neg (mt hzero.mp h0),if_pos (by omega),drop_left,hlen',take_left] at hround
    refine ⟨_,hround,?_,rfl⟩
    rw [if_neg h0]
    refine ⟨?_,rfl,?_,hrest⟩
    · rw [overwrite_length,length_append]
      · exact htotal
      · rw [length_append,length_append]
        omega
    · exact ⟨(a'++(rest++0::junk)).drop (0+rest.length),rfl⟩

theorem line_inj {x y : Str} (hl : newline ∉ l) (hr : newline ∉ rest)
    (h : l++newline::x = rest++newline::y) : l = rest ∧ x = y := by
  induction l generalizing rest with
  | nil =>
    cases rest with
    | nil => exact ⟨rfl,(cons.inj h).2⟩
    | cons a rest => exact absurd (mem_cons.mpr (.inl (cons.inj h).1)) hr
  | cons a l ih =>
    cases rest with
    | nil => exact absurd (mem_cons.mpr (.inl (cons.inj h).1.symm)) hl
    | cons b rest =>
      obtain ⟨rfl,htail⟩ := cons.inj h
      obtain ⟨rfl,hx⟩ := ih (fun hm => hl (mem_cons_of_mem a hm))
        (fun hm => hr (mem_cons_of_mem a hm)) htail
      exact ⟨rfl,hx⟩

theorem unlines_nil_of_not_mem (h : newline ∉ unlines ls) : ls = [] := by
  cases ls with
  | nil => rfl
  | cons l ls =>
    rw [unlines_cons] at h
    exact absurd (mem_append_right l mem_cons_self) h

/-- Lines can be told from a text that begins with them. -/
theorem unlines_prefix (hls : ∀ l ∈ ls, IsLine l) (hls' : ∀ l ∈ ls', IsLine l)
    (h : unlines ls'++text = unlines ls) : ∃ ls₂, ls = ls'++ls₂ ∧ text = unlines ls₂ := by
  induction ls' generalizing ls with
  | nil => exact ⟨ls,rfl,h⟩
  | cons l' ls' ih =>
    rw [unlines_cons,append_assoc,cons_append] at h
    cases ls with
    | nil => exact absurd h (by simp [unlines])
    | cons l ls =>
      rw [unlines_cons] at h
      obtain ⟨rfl,hrest⟩ := line_inj (hls' l' mem_cons_self).1 (hls l mem_cons_self).1 h
      obtain ⟨ls₂,rfl,htext⟩ := ih (fun l hl => hls l (mem_cons_of_mem _ hl))
        (fun l hl => hls' l (mem_cons_of_mem _ hl)) hrest
      exact ⟨ls₂,rfl,htext⟩

variable {chunks : List (List UInt8)}

/-- The lines that a chunk completes, and the state after its round. -/
theorem exists_round (pattern : Str) (h : Holds s pend) (hlen : chunk.length ≤ SIZE-s.m-1)
    (hpos : chunk ≠ []) (h0 : 0 ∉ chunk) : ∃ ls rest t, pend++chunk = unlines ls++rest ∧
      (∀ l ∈ ls, IsLine l) ∧ IsLine rest ∧ s.round pattern chunk = some t ∧
      Holds t (if ls = [] then [] else rest) ∧ t.out = s.out++unlines (selected pattern ls) := by
  have hall : 0 ∉ pend++chunk := by
    rw [mem_append,not_or]
    exact ⟨h.line.2,h0⟩
  obtain ⟨ls,rest,heq,hls,hrest⟩ := exists_lines (pend++chunk) hall
  obtain ⟨t,hround,ht,hout⟩ := round_spec h hlen hpos heq hls hrest
  exact ⟨ls,rest,t,heq,hls,hrest,hround,ht,hout⟩

theorem grep_cons (h : s.round pattern chunk = some t) :
    grep pattern s (chunk::chunks) = grep pattern t chunks := by
  rw [grep,h,Option.bind_some]

/-- If every chunk has a newline, nothing is lost. -/
theorem grep_of_newlines (h : Holds s pend) (hreads : Reads pattern s chunks)
    (h0 : ∀ c ∈ chunks, 0 ∉ c) (hnl : ∀ c ∈ chunks, newline ∈ c) (hls : ∀ l ∈ ls, IsLine l)
    (heq : pend++chunks.flatten = unlines ls) :
    ∃ t, grep pattern s chunks = some t ∧ t.out = s.out++unlines (selected pattern ls) := by
  induction chunks generalizing s pend ls with
  | nil =>
    rw [flatten_nil,append_nil] at heq
    obtain rfl := unlines_nil_of_not_mem (heq ▸ h.line.1)
    exact ⟨s,rfl,(append_nil _).symm⟩
  | cons chunk chunks ih =>
    obtain ⟨hpos,hlen,hnext⟩ := hreads
    obtain ⟨ls₁,rest,t,hsplit,hls₁,hrest,hround,ht,hout⟩ :=
      exists_round pattern h hlen hpos (h0 chunk mem_cons_self)
    have hne : ls₁ ≠ [] := by
      rintro rfl
      have hmem : newline ∈ pend++chunk := mem_append_right _ (hnl chunk mem_cons_self)
      rw [hsplit] at hmem
      exact hrest.1 hmem
    rw [flatten_cons,← append_assoc,hsplit,append_assoc] at heq
    obtain ⟨ls₂,rfl,hmore⟩ := unlines_prefix hls hls₁ heq
    rw [if_neg hne] at ht
    obtain ⟨u,hu,huout⟩ := ih ht (hnext t hround) (fun c hc => h0 c (mem_cons_of_mem _ hc))
      (fun c hc => hnl c (mem_cons_of_mem _ hc))
      (fun l hl => hls l (mem_append_right _ hl)) hmore
    refine ⟨u,(grep_cons hround).trans hu,?_⟩
    rw [huout,hout,selected_append,append_assoc]

theorem selected_length (pattern : Str) (ls : List Str) :
    (unlines (selected pattern ls)).length ≤ (unlines ls).length := by
  induction ls with
  | nil => exact Nat.le_refl 0
  | cons l ls ih =>
    rw [selected_cons,unlines_cons]
    simp only [length_append,length_cons]
    split <;> simp only [length_append,length_cons,length_nil] <;> omega

/-- What is printed is not longer than what was read, and shorter once a chunk has no newline. -/
theorem grep_length (h : Holds s pend) (hreads : Reads pattern s chunks)
    (h0 : ∀ c ∈ chunks, 0 ∉ c) : ∃ t, grep pattern s chunks = some t ∧
      t.out.length ≤ s.out.length+pend.length+chunks.flatten.length ∧
      ((∃ c ∈ chunks, newline ∉ c) →
        t.out.length < s.out.length+pend.length+chunks.flatten.length) := by
  induction chunks generalizing s pend with
  | nil => exact ⟨s,rfl,by omega,fun ⟨c,hc,_⟩ => absurd hc not_mem_nil⟩
  | cons chunk chunks ih =>
    obtain ⟨hpos,hlen,hnext⟩ := hreads
    obtain ⟨ls,rest,t,hsplit,-,hrest,hround,ht,hout⟩ :=
      exists_round pattern h hlen hpos (h0 chunk mem_cons_self)
    obtain ⟨u,hu,hle,hlt⟩ := ih ht (hnext t hround) fun c hc => h0 c (mem_cons_of_mem _ hc)
    have hsel := selected_length pattern ls
    have htotal := congrArg length hsplit
    have hn : 0 < chunk.length := length_pos_iff.mpr hpos
    simp only [hout,length_append,flatten_cons] at hle hlt htotal ⊢
    refine ⟨u,(grep_cons hround).trans hu,?_,?_⟩
    · split at hle
      · simp only [length_nil] at hle
        omega
      · omega
    · rintro ⟨c,hc,hnl⟩
      by_cases hls : ls = []
      · -- the whole buffer is dropped
        subst hls
        have hnil : (unlines (selected pattern [])).length = 0 := rfl
        rw [if_pos rfl] at hle
        simp only [length_nil] at hle
        omega
      · rcases mem_cons.mp hc with rfl | hc
        · have hmem : newline ∈ pend++c := by
            rw [hsplit,mem_append]
            exact .inl (by_contra fun hn => hls (unlines_nil_of_not_mem hn))
          exact absurd ((mem_append.mp hmem).resolve_left h.line.1) hnl
        · have := hlt ⟨c,hc,hnl⟩
          rw [if_neg hls] at this
          omega

theorem selected_nil (ls : List Str) : selected [] ls = ls :=
  filter_eq_self.mpr fun l _ => by cases l <;> rfl

theorem holds_nil {buf : List UInt8} (h : buf.length = SIZE) : Holds ⟨buf,0,out⟩ [] :=
  ⟨h,rfl, nil_prefix,not_mem_nil,not_mem_nil⟩

/-- Whatever the pattern, the output is right, if and only if every chunk has a newline: a buffer
without one is emptied. -/
theorem grep_chunks {buf : List UInt8} (hbuf : buf.length = SIZE) (hls : ∀ l ∈ ls, IsLine l)
    (heq : chunks.flatten = unlines ls) (hreads : ∀ pattern, Reads pattern ⟨buf,0,[]⟩ chunks) :
    (∀ pattern, ∃ t, grep pattern ⟨buf,0,[]⟩ chunks = some t ∧
      t.out = unlines (selected pattern ls)) ↔ ∀ c ∈ chunks, newline ∈ c := by
  have hnul : 0 ∉ unlines ls := by
    simp only [unlines,mem_flatten,mem_map,not_exists,not_and]
    rintro _ ⟨l,hl,rfl⟩ h
    rcases mem_append.mp h with h | h
    · exact (hls l hl).2 h
    · exact absurd (mem_singleton.mp h) (by decide)
  have h0 : ∀ c ∈ chunks, 0 ∉ c := fun c hc h =>
    hnul (heq ▸ mem_flatten.mpr ⟨c,hc,h⟩)
  constructor
  · intro hall c hc
    by_contra hnl
    obtain ⟨t,ht,hout⟩ := hall []
    obtain ⟨u,hu,-,hlt⟩ := grep_length (holds_nil hbuf) (hreads []) h0
    obtain rfl : t = u := Option.some.inj (ht.symm.trans hu)
    have hlen := hlt ⟨c,hc,hnl⟩
    rw [hout,selected_nil,heq] at hlen
    simp at hlen
  · intro hnl pattern
    obtain ⟨t,ht,hout⟩ := grep_of_newlines (holds_nil hbuf) (hreads pattern) h0 hnl hls heq
    exact ⟨t,ht,hout⟩

/-- A text shorter than the buffer may come in any chunks. -/
theorem reads_of_small (h : Holds s pend) (hne : ∀ c ∈ chunks, c ≠ []) (h0 : ∀ c ∈ chunks, 0 ∉ c)
    (hsmall : pend.length+chunks.flatten.length < SIZE) : Reads pattern s chunks := by
  induction chunks generalizing s pend with
  | nil => trivial
  | cons chunk chunks ih =>
    rw [flatten_cons,length_append] at hsmall
    have hpos := hne chunk mem_cons_self
    have hlen : chunk.length ≤ SIZE-s.m-1 := by
      have := h.count
      omega
    refine ⟨hpos,hlen,fun t ht => ?_⟩
    obtain ⟨ls,rest,t',heq,-,-,ht',hholds,-⟩ :=
      exists_round pattern h hlen hpos (h0 chunk mem_cons_self)
    obtain rfl : t = t' := Option.some.inj (ht.symm.trans ht')
    refine ih hholds (fun c hc => hne c (mem_cons_of_mem _ hc))
      (fun c hc => h0 c (mem_cons_of_mem _ hc)) ?_
    have htotal := congrArg length heq
    rw [length_append,length_append] at htotal
    split
    · rw [length_nil]
      omega
    · omega

/-- The second line comes in two chunks. -/
theorem grep_chunks_two : ∃ t, grep [98] ⟨List.replicate SIZE 0,0,[]⟩ [[97,10,98],[99,10]] = some t ∧
    t.out = [98,99,10] := by
  have hbuf : (replicate SIZE (0 : UInt8)).length = SIZE := length_replicate
  have hls : ∀ l ∈ ([[97],[98,99]] : List Str), IsLine l := by
    unfold IsLine
    decide
  exact (grep_chunks hbuf hls rfl fun _ =>
    reads_of_small (holds_nil hbuf) (by decide) (by decide) (by decide)).mpr (by decide) [98]

/-- A chunk without a newline is forgotten: the line `ab` is not found by the pattern `a`. -/
theorem split_line_lost : (∀ pattern, Reads pattern ⟨List.replicate SIZE 0,0,[]⟩ [[97],[98,10]]) ∧
    [[97],[98,10]].flatten = unlines [[97,98]] ∧
    (grep [97] ⟨List.replicate SIZE 0,0,[]⟩ [[97],[98,10]]).map (·.out) = some [] ∧
    unlines (selected [97] [[97,98]]) = [97,98,10] := by
  have hbuf : (replicate SIZE (0 : UInt8)).length = SIZE := length_replicate
  exact ⟨fun _ => reads_of_small (holds_nil hbuf) (by decide) (by decide) (by decide),rfl,
    by decide +kernel,rfl⟩

end Xv6.Grep
