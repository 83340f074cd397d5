import Mathlib.Data.List.ReduceOption
import Xv6.Sh.Accepts

/-! `nulterminate`: the words of the tree become C strings of the buffer. -/
namespace Xv6.Sh

open Prog List

variable {line : Str} {c : Cmd} {T : Tree} {buf : List UInt8}

/-- The positions that `nulterminate` writes, in its order. -/
def Cmd.ends : Cmd → List ℕ
  | .exec _ eargv => eargv.reduceOption
  | .redir cmd r => cmd.ends ++ [r.efile]
  | .pipe left right => left.ends ++ right.ends
  | .list left right => left.ends ++ right.ends
  | .back cmd => cmd.ends

/-- NULs at some positions. -/
def nuls (es : List ℕ) (buf : List UInt8) : List UInt8 := es.foldl (fun buf e => buf.set e 0) buf

theorem nuls_append (es es' : List ℕ) (buf : List UInt8) :
    nuls (es++es') buf = nuls es' (nuls es buf) := foldl_append

theorem nuls_getElem? (es : List ℕ) (buf : List UInt8) (i : ℕ) :
    (nuls es buf)[i]? = if i ∈ es then buf[i]?.map fun _ => 0 else buf[i]? := by
  induction es generalizing buf with
  | nil => rfl
  | cons e es ih =>
    have hset : nuls (e::es) buf = nuls es (buf.set e 0) := rfl
    rw [hset,ih,List.getElem?_set]
    by_cases he : e = i
    · subst he
      by_cases hlt : e < buf.length <;> simp [hlt]
    · simp [he,Ne.symm he]

theorem nulArgs_pad (spans : List (ℕ × ℕ)) (k k' : ℕ) (hk : k ≠ 0) :
    nulArgs ((spans.map Prod.fst).map some++replicate k none)
      ((spans.map Prod.snd).map some++replicate k' none) buf =
      some (nuls (spans.map Prod.snd) buf) := by
  induction spans generalizing buf with
  | nil =>
    obtain ⟨k,rfl⟩ := Nat.exists_eq_succ_of_ne_zero hk
    rfl
  | cons p spans ih => exact ih

theorem reduceOption_pad (qs : List ℕ) : (pad qs).reduceOption = qs := by
  rw [pad,reduceOption_append]
  simp [reduceOption]

theorem Cmd.Shows.nulterminate_eq (h : c.Shows line T) :
    nulterminate c buf = some (nuls c.ends buf) := by
  induction h generalizing buf with
  | @exec spans ws hlen h =>
    rw [nulterminate,pad,pad,nulArgs_pad _ _ _ (by rw [length_map]; omega),Cmd.ends,
      ← pad,reduceOption_pad]
  | redir _ _ ih =>
    rw [nulterminate,ih,Cmd.ends,nuls_append]
    rfl
  | pipe _ _ ih ih' =>
    rw [nulterminate,ih,Cmd.ends,nuls_append]
    exact ih'
  | list _ _ ih ih' =>
    rw [nulterminate,ih,Cmd.ends,nuls_append]
    exact ih'
  | back _ ih => exact ih

/-- A NUL is written only at the end of a word. -/
theorem Cmd.Shows.word_of_end (h : c.Shows line T) {e : ℕ} (he : e ∈ c.ends) :
    ∃ q w, Word line q e w := by
  induction h with
  | @exec spans ws hlen h =>
    rw [Cmd.ends,reduceOption_pad,mem_map] at he
    obtain ⟨p,hp,rfl⟩ := he
    obtain ⟨i,hi,rfl⟩ := mem_iff_getElem.mp hp
    exact ⟨_,_,h.get hi (h.length_eq ▸ hi)⟩
  | @redir c t r u _ hr ih =>
    rw [Cmd.ends,mem_append,mem_singleton] at he
    rcases he with he | rfl
    · exact ih he
    · exact ⟨_,_,hr.1⟩
  | pipe _ _ ih ih' => exact (mem_append.mp he).elim ih ih'
  | list _ _ ih ih' => exact (mem_append.mp he).elim ih ih'
  | back _ ih => exact ih he

/-- Inside a word no word ends. -/
theorem Word.end_not_inside {q e q' e' : ℕ} {w w' : Str} (h : Word line q e w)
    (h' : Word line q' e' w') : ¬(q ≤ e' ∧ e' < e) := by
  rintro ⟨hle,hlt⟩
  obtain ⟨a,b,rfl,rfl,rfl,-,hw,-⟩ := h
  obtain ⟨a',b',hline,rfl,rfl,-,-,hb'⟩ := h'
  obtain ⟨i,hi⟩ := Nat.exists_eq_add_of_le hle
  have hiw : i < w.length := by omega
  have hget : (a++(w++b))[a'.length+w'.length]? = some w[i] := by
    rw [hi,List.getElem?_append_right (Nat.le_add_right _ _),Nat.add_sub_cancel_left,
      List.getElem?_append_left hiw,List.getElem?_eq_getElem hiw]
  rw [hline,← append_assoc,← length_append,
    List.getElem?_append_right (Nat.le_refl _),Nat.sub_self,← head?_eq_getElem?] at hget
  exact hb' _ hget (hw _ (getElem_mem hiw))

/-- A word whose end is NUL-terminated can be read. -/
theorem Word.cstr_nuls {q e : ℕ} {w : Str} {es : List ℕ} (h : Word line q e w) (he : e ∈ es)
    (hnul : 0 ∉ line) (hes : ∀ e' ∈ es, ∃ q' w', Word line q' e' w') :
    cstr (nuls es (line++[0])) q = w := by
  have hinside : ∀ i < w.length, q+i ∉ es := by
    intro i hi hm
    obtain ⟨q',w',h'⟩ := hes _ hm
    refine h.end_not_inside h' ⟨Nat.le_add_right _ _,?_⟩
    obtain ⟨a,b,-,-,hlen,-⟩ := h
    omega
  obtain ⟨a,b,rfl,rfl,rfl,-⟩ := h
  simp only [mem_append,not_or] at hnul
  refine cstr_of_getElem? hnul.2.1 (fun i hi => ?_) ?_
  · rw [nuls_getElem?,if_neg (hinside i hi),append_assoc,
      List.getElem?_append_right (Nat.le_add_right _ _),Nat.add_sub_cancel_left,append_assoc,
      List.getElem?_append_left hi]
  · have hlt : a.length+w.length < (a++(w++b)++[0]).length := by
      simp only [length_append,length_singleton]
      omega
    rw [nuls_getElem?,if_pos he,List.getElem?_eq_getElem hlt]
    rfl

/-- The words of a tree, read as C strings of a buffer through the pointers of a command; after
the words of a simple command there is a null pointer. -/
def Cmd.Reads (buf : List UInt8) : Cmd → Tree → Prop
  | .exec argv _, .exec ws => ∃ (qs : List ℕ) (rest : List (Option ℕ)),
      argv = qs.map some ++ none::rest ∧ qs.map (cstr buf) = ws
  | .redir cmd r, .redir t u => cmd.Reads buf t ∧ cstr buf r.file = u.file ∧ r.mode = u.mode ∧
      r.fd = u.fd
  | .pipe left right, .pipe t t' => left.Reads buf t ∧ right.Reads buf t'
  | .list left right, .list t t' => left.Reads buf t ∧ right.Reads buf t'
  | .back cmd, .back t => cmd.Reads buf t
  | _, _ => False

theorem Cmd.Shows.reads {es : List ℕ} (h : c.Shows line T) (hnul : 0 ∉ line)
    (hsub : ∀ e ∈ c.ends, e ∈ es) (hes : ∀ e ∈ es, ∃ q w, Word line q e w) :
    c.Reads (nuls es (line++[0])) T := by
  induction h with
  | @exec spans ws hlen h =>
    rw [Cmd.ends,reduceOption_pad] at hsub
    obtain ⟨k,hk⟩ := Nat.exists_eq_add_of_lt hlen
    have hpad : MAXARGS-(spans.map Prod.fst).length = k+1 := by
      rw [length_map]
      omega
    refine ⟨spans.map Prod.fst,replicate k none,by rw [pad,hpad,replicate_succ],?_⟩
    clear hlen hk hpad
    induction h with
    | nil => rfl
    | cons hw h ih =>
      simp only [map_cons,forall_mem_cons] at hsub ⊢
      rw [hw.cstr_nuls hsub.1 hnul hes,ih hsub.2]
  | redir _ hr ih =>
    obtain ⟨hw,hmode,hfd⟩ := hr
    simp only [Cmd.ends,forall_mem_append,forall_mem_singleton] at hsub
    exact ⟨ih hsub.1,hw.cstr_nuls hsub.2 hnul hes,hmode,hfd⟩
  | pipe _ _ ih ih' =>
    simp only [Cmd.ends,forall_mem_append] at hsub
    exact ⟨ih hsub.1,ih' hsub.2⟩
  | list _ _ ih ih' =>
    simp only [Cmd.ends,forall_mem_append] at hsub
    exact ⟨ih hsub.1,ih' hsub.2⟩
  | back _ ih => exact ih hsub

/-- After `nulterminate` every word of the tree can be read in the buffer. -/
theorem nulterminate_reads (line : Str) (hnul : 0 ∉ line) (k : ℕ) (c : Cmd)
    (obuf : Option (List UInt8)) (h : parsecmd (4*line.length + 4 + k) line = .ok (c,obuf)) :
    ∃ buf ts T, obuf = some buf ∧ Lexes line ts ∧ Derives .line ts T ∧ c.tree line = T ∧
      c.Reads buf T := by
  obtain ⟨ts,hts⟩ := lexes_total line
  obtain ⟨rfl,u,hrun⟩ := parsecmd_ok h
  obtain ⟨T,hT,hshows⟩ := (parse_meets hts (Nat.le_add_right _ k)).of_ok hrun
  exact ⟨_,ts,T,hshows.nulterminate_eq,hts,hT,hshows.tree_eq,
    hshows.reads hnul (fun _ he => he) fun _ he => hshows.word_of_end he⟩

/-- `a>b`. -/
theorem nulterminate_reads_redirection : ∃ c obuf, parsecmd 16 [97,62,98] = .ok (c,obuf) ∧
    ∃ buf ts T, obuf = some buf ∧ Lexes [97,62,98] ts ∧ Derives .line ts T ∧
      c.tree [97,62,98] = T ∧ c.Reads buf T :=
  ⟨_,_,rfl,nulterminate_reads [97,62,98] (by decide) 0 _ _ rfl⟩

end Xv6.Sh
