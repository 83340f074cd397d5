import Xv6.Sh.Parser

/-! What the grammar derives is accepted, and the whole parser is correct. -/
namespace Xv6.Sh

open Prog List

variable {line : Str} {s : Cursor} {t : Token} {ts us vs : List Token} {fuel : ℕ}

theorem not_starts_nil (toks : List UInt8) : ¬Starts toks [] := by
  rintro ⟨_,_,_,h,-⟩
  cases h

theorem starts_cons {toks : List UInt8} {x : UInt8} (ht : t.sym = some x) :
    Starts toks (t::ts) ↔ x ∈ toks := by
  constructor
  · rintro ⟨_,_,y,h,hy,hm⟩
    obtain ⟨rfl,-⟩ := cons.inj h
    rwa [Option.some.inj (ht.symm.trans hy)]
  · exact fun hm => ⟨t,ts,x,rfl,ht,hm⟩

theorem not_starts_word {toks : List UInt8} {w : Str} : ¬Starts toks (.word w::ts) := by
  rintro ⟨_,_,_,h,hsym,-⟩
  obtain ⟨rfl,-⟩ := cons.inj h
  cases hsym

/-- What begins with one of some symbols does not begin with one of others. -/
theorem Starts.not {toks toks' : List UInt8} (h : Starts toks ts) (hd : toks.Forall (· ∉ toks')) :
    ¬Starts toks' ts := by
  obtain ⟨t,us,x,rfl,ht,hx⟩ := h
  rw [starts_cons ht]
  exact forall_iff_forall_mem.mp hd x hx

/-- `peek`, if it is known what comes. -/
theorem peek_no {toks : List UInt8} (h : Here line s ts) (htoks : toks ⊆ symbols)
    (hno : ¬Starts toks ts) : ∃ u, (peek toks).run s = .ok (false,u) ∧ Here line u ts ∧
      u.rest.length ≤ s.rest.length := by
  obtain ⟨b,u,hpeek,hb,hu,hul⟩ := peek_run toks h htoks
  cases b with
  | true => exact absurd (hb.mp rfl) hno
  | false => exact ⟨u,hpeek,hu,hul⟩

theorem peek_yes {toks : List UInt8} (h : Here line s ts) (htoks : toks ⊆ symbols)
    (hyes : Starts toks ts) : ∃ u, (peek toks).run s = .ok (true,u) ∧ Here line u ts ∧
      u.rest.length ≤ s.rest.length := by
  obtain ⟨b,u,hpeek,hb,hu,hul⟩ := peek_run toks h htoks
  cases b with
  | true => exact ⟨u,hpeek,hu,hul⟩
  | false => exact absurd (hb.mpr hyes) (by decide)

theorem parseredirs_ends {targets : List Target} (hr : Redirs us targets)
    (h : Here line s (us++vs)) (hvs : ¬Starts [60,62] vs) (hfuel : s.rest.length < fuel) :
    Ends (parseredirs fuel) s fun rs u => Forall₂ (Redir.Shows line) rs targets ∧
      Here line u vs ∧ u.rest.length ≤ s.rest.length := by
  obtain ⟨fuel,rfl⟩ := Nat.exists_eq_succ_of_ne_zero (Nat.ne_of_gt (Nat.zero_lt_of_lt hfuel))
  induction hr generalizing s fuel with
  | nil =>
    obtain ⟨u,hpeek,hu,hul⟩ := peek_no h (by decide) hvs
    exact ends_bind_of_run hpeek ⟨[],u,rfl,.nil,hu,hul⟩
  | @cons d w r us targets hd hr ih =>
    have hstarts : Starts [60,62] (d::.word w::us++vs) := by
      cases d <;> cases hd <;> exact (starts_cons rfl).mpr (by decide)
    obtain ⟨u,hpeek,hu,hul⟩ := peek_yes h (by decide) hstarts
    obtain ⟨q,e,v,htok,hv,hvl,-⟩ := gettoken_run hu
    obtain ⟨q',e',x,htok',hx,hxl,hword⟩ := gettoken_run hv
    obtain ⟨r',target,hr',htarget,hshows⟩ := redirsFor_shows hstarts (hword w rfl)
    obtain rfl := Option.some.inj (hd.symm.trans htarget)
    obtain ⟨fuel,rfl⟩ : ∃ f, fuel = f+1 := ⟨fuel-1,by omega⟩
    obtain ⟨rs,y,hrun,hall,hy,hyl⟩ := ih hx fuel (by omega)
    refine ends_bind_of_run hpeek (ends_bind_of_run htok (ends_bind_of_run htok' ?_))
    refine ends_bind_of_run hrun ⟨redirsFor d.code q' e'++rs,y,rfl,?_,hy,by omega⟩
    rw [hr']
    exact .cons hshows hall

theorem Args.not_starts {toks : List UInt8} {ws : List Str} {targets : List Target}
    (h : Args us ws targets) (hvs : ¬Starts toks vs) : ¬Starts toks (us++vs) := by
  cases h with
  | nil => exact hvs
  | cons => exact not_starts_word

theorem parseargs_ends (spans : List (ℕ × ℕ)) (rs : List Redir) {ws : List Str}
    {targets : List Target} (ha : Args us ws targets) (h : Here line s (us++vs))
    (hvs : vs = [] ∨ Starts [124,41,38,59] vs) (hfuel : s.rest.length < fuel)
    (hlen : spans.length+ws.length < MAXARGS) :
    Ends (parseargs fuel spans.length (pad (spans.map Prod.fst)) (pad (spans.map Prod.snd)) rs) s
      fun r u => (∃ more rs', Forall₂ (fun p w => Word line p.1 p.2 w) more ws ∧
        Forall₂ (Redir.Shows line) rs' targets ∧
        r = (pad ((spans++more).map Prod.fst),pad ((spans++more).map Prod.snd),rs++rs')) ∧
        Here line u vs ∧ u.rest.length ≤ s.rest.length := by
  obtain ⟨fuel,rfl⟩ := Nat.exists_eq_succ_of_ne_zero (Nat.ne_of_gt (Nat.zero_lt_of_lt hfuel))
  have hredir : ¬Starts [60,62] vs := by
    rcases hvs with rfl | hvs
    · exact not_starts_nil _
    · exact hvs.not (by decide)
  induction ha generalizing s fuel spans rs with
  | nil =>
    rw [nil_append] at h
    have hfst := pad_set_none (spans.map Prod.fst) (by rw [length_map]; omega)
    have hsnd := pad_set_none (spans.map Prod.snd) (by rw [length_map]; omega)
    rw [length_map] at hfst hsnd
    unfold parseargs
    rw [hfst,hsnd]
    rcases hvs with rfl | hvs
    · obtain ⟨u,hpeek,hu,hul⟩ := peek_no h (by decide) (not_starts_nil [124,41,38,59])
      obtain ⟨q,e,v,htok,hv,hvl⟩ := gettoken_nil hu
      refine ends_bind_of_run hpeek (ends_bind_of_run htok ⟨_,v,rfl,⟨[],[],.nil,.nil,?_⟩,hv,by omega⟩)
      simp
    · obtain ⟨u,hpeek,hu,hul⟩ := peek_yes h (by decide) hvs
      refine ends_bind_of_run hpeek ⟨_,u,rfl,⟨[],[],.nil,.nil,?_⟩,hu,hul⟩
      simp
  | @cons w us rs₁ us' ws rs₂ hr ha ih =>
    obtain ⟨u,hpeek,hu,hul⟩ := peek_no h (by decide) (not_starts_word : ¬Starts [124,41,38,59] _)
    obtain ⟨q,e,v,htok,hv,hvl,hword⟩ := gettoken_run hu
    obtain ⟨fuel,rfl⟩ : ∃ f, fuel = f+1 := ⟨fuel-1,by omega⟩
    replace hv : Here line v (us++(us'++vs)) := by
      rw [← append_assoc]
      exact hv
    obtain ⟨rs',x,hrun,hall,hx,hxl⟩ := parseredirs_ends hr hv (ha.not_starts hredir)
      (Nat.lt_succ_of_le (show v.rest.length ≤ fuel by omega))
    have hfst := pad_set_some (spans.map Prod.fst) q (by rw [length_map]; omega)
    have hsnd := pad_set_some (spans.map Prod.snd) e (by rw [length_map]; omega)
    rw [length_map] at hfst hsnd
    rw [length_cons] at hlen
    have hspans : (spans++[(q,e)]).length+ws.length < MAXARGS := by
      rw [length_append,length_singleton]
      omega
    obtain ⟨r,y,hrun',⟨more,rs'',hmore,hall',hr'⟩,hy,hyl⟩ := ih (spans++[(q,e)]) (rs++rs')
      hx hspans fuel (by omega)
    refine ends_bind_of_run hpeek (ends_bind_of_run htok ?_)
    dsimp only
    rw [if_neg (code_ne_zero _),if_neg (fun h => h rfl),if_neg (by omega),hfst,hsnd]
    refine ends_bind_of_run hrun ⟨r,y,?_,⟨(q,e)::more,rs'++rs'',.cons (hword w rfl) hmore,
      rel_append hall hall',?_⟩,hy,by omega⟩
    · simpa using hrun'
    · rw [hr']
      simp

theorem parsebacks_ends {c : Cmd} {T : Tree} {n : ℕ} (hc : c.Shows line T)
    (h : Here line s (replicate n .amp++vs)) (hvs : ¬Starts [38] vs)
    (hfuel : s.rest.length < fuel) : Ends (parsebacks fuel c) s fun c' u =>
      c'.Shows line (T.backs n) ∧ Here line u vs ∧ u.rest.length ≤ s.rest.length := by
  obtain ⟨fuel,rfl⟩ := Nat.exists_eq_succ_of_ne_zero (Nat.ne_of_gt (Nat.zero_lt_of_lt hfuel))
  induction n generalizing s fuel c T with
  | zero =>
    obtain ⟨u,hpeek,hu,hul⟩ := peek_no h (by decide) hvs
    exact ends_bind_of_run hpeek ⟨c,u,rfl,hc,hu,hul⟩
  | succ n ih =>
    rw [replicate_succ,cons_append] at h
    have hamp : Starts [38] (.amp::(replicate n .amp++vs)) :=
      (starts_cons rfl).mpr (by decide)
    obtain ⟨u,hpeek,hu,hul⟩ := peek_yes h (by decide) hamp
    obtain ⟨q,e,v,htok,hv,hvl,-⟩ := gettoken_run hu
    obtain ⟨fuel,rfl⟩ : ∃ f, fuel = f+1 := ⟨fuel-1,by omega⟩
    obtain ⟨c',x,hrun,hshows,hx,hxl⟩ := ih (.back hc) hv fuel (by omega)
    exact ends_bind_of_run hpeek (ends_bind_of_run htok ⟨c',x,hrun,hshows,hx,by omega⟩)

/-- What may come after a nonterminal. -/
def Nonterminal.follow : Nonterminal → List UInt8
  | .line => [41]
  | .pipe => [41,38,59]
  | .exec => [124,41,38,59]

/-- The function that reads a nonterminal, and what it needs besides four for each byte. -/
def Nonterminal.parser : Nonterminal → ℕ → Parser Cmd
  | .line => parseline
  | .pipe => parsepipe
  | .exec => parseexec

def Nonterminal.extra : Nonterminal → ℕ
  | .line => 4
  | .pipe => 3
  | .exec => 2

def Follows (n : Nonterminal) (vs : List Token) : Prop := vs = [] ∨ Starts n.follow vs

theorem Starts.mono {toks toks' : List UInt8} (h : Starts toks ts) (hsub : toks ⊆ toks') :
    Starts toks' ts := by
  obtain ⟨t,us,x,hts,ht,hx⟩ := h
  exact ⟨t,us,x,hts,ht,hsub hx⟩

theorem Follows.mono {n n' : Nonterminal} (h : Follows n vs)
    (hsub : n.follow ⊆ n'.follow) : Follows n' vs :=
  h.imp_right fun h => h.mono hsub

theorem Follows.not {n : Nonterminal} {toks : List UInt8} (h : Follows n vs)
    (hd : n.follow.Forall (· ∉ toks)) : ¬Starts toks vs := by
  rcases h with rfl | h
  · exact not_starts_nil toks
  · exact h.not hd

theorem follows_cons {n : Nonterminal} {x : UInt8} (ht : t.sym = some x) (hx : x ∈ n.follow) :
    Follows n (t::ts) := .inr ((starts_cons ht).mpr hx)

/-- With enough fuel, the function for `n` reads `us` and no more, as the tree `T`. -/
def Complete (line : Str) (n : Nonterminal) (us : List Token) (T : Tree) : Prop :=
  ∀ s vs fuel, Here line s (us ++ vs) → Follows n vs → 4*s.rest.length + n.extra ≤ fuel →
    Ends (n.parser fuel) s fun c u => c.Shows line T ∧ Here line u vs ∧
      u.rest.length ≤ s.rest.length

section Complete

variable {us' : List Token} {T T' : Tree}

/-- A pipeline and the `&` after it, as `parseline` begins. -/
theorem Complete.backs {n : ℕ} (hpipe : Complete line .pipe us T)
    (h : Here line s (us++(replicate n .amp++vs))) (hvs : Follows .pipe vs)
    (hamp : ¬Starts [38] vs) (hf : 4*s.rest.length+3 ≤ fuel) :
    ∃ c c' u v, (parsepipe fuel).run s = .ok (c,u) ∧ (parsebacks fuel c).run u = .ok (c',v) ∧
      c'.Shows line (T.backs n) ∧ Here line v vs ∧ v.rest.length ≤ s.rest.length := by
  have hfollows : Follows .pipe (replicate n .amp++vs) := by
    cases n with
    | zero => exact hvs
    | succ n => exact follows_cons (t := .amp) rfl (by decide)
  obtain ⟨c,u,hrun,hshows,hu,hul⟩ := hpipe s _ fuel h hfollows hf
  obtain ⟨c',v,hrun',hshows',hv,hvl⟩ := parsebacks_ends hshows hu hamp
    (show u.rest.length < fuel by omega)
  exact ⟨c,c',u,v,hrun,hrun',hshows',hv,hvl.trans hul⟩

theorem complete_line (n : ℕ) (hpipe : Complete line .pipe us T) :
    Complete line .line (us++replicate n .amp) (T.backs n) := by
  intro s vs fuel h hvs hf
  change 4*s.rest.length+4 ≤ fuel at hf
  obtain ⟨fuel,rfl⟩ : ∃ f, fuel = f+1 := ⟨fuel-1,by omega⟩
  rw [append_assoc] at h
  obtain ⟨c,c',u,v,hrun,hrun',hshows,hv,hvl⟩ := hpipe.backs h (hvs.mono (by decide))
    (hvs.not (by decide)) (show 4*s.rest.length+3 ≤ fuel by omega)
  obtain ⟨w,hpeek,hw,hwl⟩ := peek_no hv (by decide) (hvs.not (by decide) : ¬Starts [59] vs)
  simp only [Nonterminal.parser,parseline]
  exact ends_bind_of_run hrun (ends_bind_of_run hrun' (ends_bind_of_run hpeek
    ⟨c',w,rfl,hshows,hw,by omega⟩))

theorem complete_lines (n : ℕ) (hpipe : Complete line .pipe us T)
    (hline : Complete line .line us' T') : Complete line .line
      (us++(replicate n .amp ++ .semi::us')) (.list (T.backs n) T') := by
  intro s vs fuel h hvs hf
  change 4*s.rest.length+4 ≤ fuel at hf
  obtain ⟨fuel,rfl⟩ : ∃ f, fuel = f+1 := ⟨fuel-1,by omega⟩
  rw [append_assoc,append_assoc] at h
  obtain ⟨c,c',u,v,hrun,hrun',hshows,hv,hvl⟩ := hpipe.backs h (follows_cons rfl (by decide))
    (by rw [cons_append,starts_cons rfl]; decide) (show 4*s.rest.length+3 ≤ fuel by omega)
  have hsemi : Starts [59] (.semi::us'++vs) := (starts_cons rfl).mpr (by decide)
  obtain ⟨w,hpeek,hw,hwl⟩ := peek_yes hv (by decide) hsemi
  obtain ⟨q,e,x,htok,hx,hxl,-⟩ := gettoken_run hw
  obtain ⟨c'',y,hrun'',hshows',hy,hyl⟩ := hline x vs fuel hx hvs
    (show 4*x.rest.length+4 ≤ fuel by omega)
  simp only [Nonterminal.parser,parseline]
  exact ends_bind_of_run hrun (ends_bind_of_run hrun' (ends_bind_of_run hpeek
    (ends_bind_of_run htok (ends_bind_of_run hrun'' ⟨_,y,rfl,.list hshows hshows',hy,by omega⟩))))

theorem complete_pipe (hexec : Complete line .exec us T) : Complete line .pipe us T := by
  intro s vs fuel h hvs hf
  change 4*s.rest.length+3 ≤ fuel at hf
  obtain ⟨fuel,rfl⟩ : ∃ f, fuel = f+1 := ⟨fuel-1,by omega⟩
  obtain ⟨c,u,hrun,hshows,hu,hul⟩ := hexec s vs fuel h (hvs.mono (by decide))
    (show 4*s.rest.length+2 ≤ fuel by omega)
  obtain ⟨w,hpeek,hw,hwl⟩ := peek_no hu (by decide) (hvs.not (by decide) : ¬Starts [124] vs)
  simp only [Nonterminal.parser,parsepipe]
  exact ends_bind_of_run hrun (ends_bind_of_run hpeek ⟨c,w,rfl,hshows,hw,by omega⟩)

theorem complete_pipes (hexec : Complete line .exec us T) (hpipe : Complete line .pipe us' T') :
    Complete line .pipe (us ++ .pipe::us') (.pipe T T') := by
  intro s vs fuel h hvs hf
  change 4*s.rest.length+3 ≤ fuel at hf
  obtain ⟨fuel,rfl⟩ : ∃ f, fuel = f+1 := ⟨fuel-1,by omega⟩
  rw [append_assoc] at h
  obtain ⟨c,u,hrun,hshows,hu,hul⟩ := hexec s _ fuel h (follows_cons rfl (by decide))
    (show 4*s.rest.length+2 ≤ fuel by omega)
  have hbar : Starts [124] (.pipe::us'++vs) := (starts_cons rfl).mpr (by decide)
  obtain ⟨w,hpeek,hw,hwl⟩ := peek_yes hu (by decide) hbar
  obtain ⟨q,e,x,htok,hx,hxl,-⟩ := gettoken_run hw
  obtain ⟨c',y,hrun',hshows',hy,hyl⟩ := hpipe x vs fuel hx hvs
    (show 4*x.rest.length+3 ≤ fuel by omega)
  simp only [Nonterminal.parser,parsepipe]
  exact ends_bind_of_run hrun (ends_bind_of_run hpeek (ends_bind_of_run htok
    (ends_bind_of_run hrun' ⟨_,y,rfl,.pipe hshows hshows',hy,by omega⟩)))

theorem complete_block {targets : List Target} (hline : Complete line .line us T)
    (hredirs : Redirs us' targets) :
    Complete line .exec (.lparen::(us ++ .rparen::us')) (T.wrap targets) := by
  intro s vs fuel h hvs hf
  change 4*s.rest.length+2 ≤ fuel at hf
  obtain ⟨fuel,rfl⟩ : ∃ f, fuel = f+1+1 := ⟨fuel-2,by omega⟩
  rw [cons_append,append_assoc] at h
  have hopen : Starts [40] (.lparen::(us++(.rparen::us'++vs))) :=
    (starts_cons rfl).mpr (by decide)
  -- both `parseexec` and `parseblock` look for the parenthesis
  obtain ⟨u,hpeek,hu,hul⟩ := peek_yes h (by decide) hopen
  obtain ⟨u',hpeek',hu',hul'⟩ := peek_yes hu (by decide) hopen
  obtain ⟨q,e,v,htok,hv,hvl,-⟩ := gettoken_run hu'
  obtain ⟨c,w,hrun,hshows,hw,hwl⟩ := hline v _ fuel hv (follows_cons rfl (by decide))
    (show 4*v.rest.length+4 ≤ fuel by omega)
  have hclose : Starts [41] (.rparen::us'++vs) := (starts_cons rfl).mpr (by decide)
  obtain ⟨x,hpeek'',hx,hxl⟩ := peek_yes hw (by decide) hclose
  obtain ⟨q',e',y,htok',hy,hyl,-⟩ := gettoken_run hx
  obtain ⟨rs,z,hrun',hall,hz,hzl⟩ := parseredirs_ends hredirs hy (hvs.not (by decide))
    (show y.rest.length < fuel by omega)
  simp only [Nonterminal.parser,parseexec]
  refine ends_bind_of_run hpeek ?_
  rw [if_pos rfl,parseblock]
  exact ends_bind_of_run hpeek' (ends_bind_of_run htok (ends_bind_of_run hrun
    (ends_bind_of_run hpeek'' (ends_bind_of_run htok' (ends_bind_of_run hrun'
      ⟨_,z,rfl,hshows.wrap hall,hz,by omega⟩)))))

theorem Redirs.not_paren {targets : List Target} (h : Redirs us targets) (hvs : ¬Starts [40] vs) :
    ¬Starts [40] (us++vs) := by
  cases h with
  | nil => exact hvs
  | @cons d _ _ _ _ hd =>
    cases d <;> cases hd <;> exact fun h => absurd ((starts_cons rfl).mp h) (by decide)

theorem complete_simple {targets targets' : List Target} {ws : List Str}
    (hredirs : Redirs us targets) (hargs : Args us' ws targets') (hlen : ws.length ≤ MAXARGS-1) :
    Complete line .exec (us++us') ((Tree.exec ws).wrap (targets++targets')) := by
  intro s vs fuel h hvs hf
  change 4*s.rest.length+2 ≤ fuel at hf
  obtain ⟨fuel,rfl⟩ : ∃ f, fuel = f+1 := ⟨fuel-1,by omega⟩
  rw [append_assoc] at h
  have hlt : ws.length < MAXARGS := Nat.lt_of_le_pred (by decide) hlen
  obtain ⟨u,hpeek,hu,hul⟩ := peek_no h (by decide)
    (hredirs.not_paren (hargs.not_starts (hvs.not (by decide))))
  obtain ⟨rs,v,hrun,hall,hv,hvl⟩ := parseredirs_ends hredirs hu
    (hargs.not_starts (hvs.not (by decide))) (show u.rest.length < fuel by omega)
  obtain ⟨r,w,hrun',⟨more,rs',hmore,hall',rfl⟩,hw,hwl⟩ := parseargs_ends [] rs
    hargs hv hvs (show v.rest.length < fuel by omega) (by simpa using hlt)
  have hspans : more.length < MAXARGS := by rwa [hmore.length_eq]
  simp only [Nonterminal.parser,parseexec]
  exact ends_bind_of_run hpeek (ends_bind_of_run hrun (ends_bind_of_run hrun'
    ⟨_,w,rfl,(Cmd.Shows.exec hspans hmore).wrap (rel_append hall hall'),hw,by omega⟩))

end Complete

/-- What the grammar derives is read. -/
theorem Derives.complete {n : Nonterminal} {T : Tree} (h : Derives n us T) :
    Complete line n us T := by
  induction h with
  | line n _ ih => exact complete_line n ih
  | lines n _ _ ih ih' => exact complete_lines n ih ih'
  | pipe _ ih => exact complete_pipe ih
  | pipes _ _ ih ih' => exact complete_pipes ih ih'
  | block _ h' ih => exact complete_block ih h'
  | simple h h' hlen => exact complete_simple h h' hlen

/-- The bytes of a line from `q` up to `e`. -/
def slice (line : Str) (q e : ℕ) : Str := (line.drop q).take (e-q)

/-- The words between the pointers of `argv` and of `eargv`. -/
def wordsAt (line : Str) : List (Option ℕ) → List (Option ℕ) → List Str
  | some q::argv, some e::eargv => slice line q e::wordsAt line argv eargv
  | _, _ => []

/-- The tree that a command of the parser stands for. -/
def Cmd.tree (line : Str) : Cmd → Tree
  | .exec argv eargv => .exec (wordsAt line argv eargv)
  | .redir cmd r => .redir (cmd.tree line) ⟨slice line r.file r.efile,r.mode,r.fd⟩
  | .pipe left right => .pipe (left.tree line) (right.tree line)
  | .list left right => .list (left.tree line) (right.tree line)
  | .back cmd => .back (cmd.tree line)

theorem Word.slice_eq {q e : ℕ} {w : Str} (h : Word line q e w) : slice line q e = w := by
  obtain ⟨a,b,rfl,rfl,rfl,-⟩ := h
  rw [slice,drop_left,Nat.add_sub_cancel_left,take_left]

theorem wordsAt_pad {spans : List (ℕ × ℕ)} {ws : List Str} (k k' : ℕ)
    (h : Forall₂ (fun p w => Word line p.1 p.2 w) spans ws) :
    wordsAt line ((spans.map Prod.fst).map some++replicate k none)
      ((spans.map Prod.snd).map some++replicate k' none) = ws := by
  induction h with
  | nil => cases k <;> rfl
  | cons hw _ ih =>
    simp only [map_cons,cons_append,wordsAt]
    rw [hw.slice_eq,ih]

theorem Cmd.Shows.tree_eq {c : Cmd} {T : Tree} (h : c.Shows line T) : c.tree line = T := by
  induction h with
  | exec hlen h => rw [Cmd.tree,pad,pad,wordsAt_pad _ _ h]
  | redir _ hr ih =>
    obtain ⟨hw,hmode,hfd⟩ := hr
    rw [Cmd.tree,ih,hw.slice_eq,hmode,hfd]
  | pipe _ _ ih ih' => rw [Cmd.tree,ih,ih']
  | list _ _ ih ih' => rw [Cmd.tree,ih,ih']
  | back _ ih => rw [Cmd.tree,ih]

/-- `peek(&s, es, "")` leaves the cursor at the end only if no token is left. -/
theorem peek_end (h : Here line s ts) :
    ∃ u, (peek []).run s = .ok (false,u) ∧ (u.rest.isEmpty = true ↔ ts = []) := by
  obtain ⟨hhere,-,hwhite⟩ := h.skip
  refine ⟨s.skip,?_,?_⟩
  · have hrun : (peek []).run s = .ok (!s.skip.rest.isEmpty && [].contains s.skip.get,s.skip) := rfl
    rw [hrun,contains_nil,Bool.and_false]
  · have hlex := hhere.lexes
    generalize s.skip.rest = rest at hlex hwhite
    cases hlex with
    | nil => simp
    | white hx => exact absurd hx (hwhite _ rfl)
    | _ => simp

/-- What `parse` returns is derived by the grammar from all the tokens. -/
theorem parse_meets (h : Lexes line ts) (hf : 4*line.length+4 ≤ fuel) :
    Meets (parse fuel) ⟨0,line⟩ (fun c _ => ∃ T, Derives .line ts T ∧ c.Shows line T) Refused := by
  refine ((parser_sound fuel).1 ⟨0,line⟩ ts ⟨⟨[],rfl,rfl⟩,h⟩ hf).bind fun c u hu => ?_
  obtain ⟨⟨us,vs,T,rfl,hderives,hshows,hu⟩,-⟩ := hu
  obtain ⟨v,hpeek,hv⟩ := peek_end hu
  refine meets_bind_of_run hpeek (meets_bind_of_run rfl ?_)
  split
  · rename_i hempty
    obtain rfl := hv.mp hempty
    rw [append_nil]
    exact meets_of_run rfl ⟨T,hderives,hshows⟩
  · exact meets_of_error rfl (by decide)

theorem parse_ends {T : Tree} (h : Lexes line ts) (hT : Derives .line ts T)
    (hf : 4*line.length+4 ≤ fuel) : Ends (parse fuel) ⟨0,line⟩ fun c _ => c.Shows line T := by
  have hhere : Here line ⟨0,line⟩ (ts++[]) := by
    rw [append_nil]
    exact ⟨⟨[],rfl,rfl⟩,h⟩
  obtain ⟨c,u,hrun,hshows,hu,-⟩ := hT.complete ⟨0,line⟩ [] fuel hhere (.inl rfl) hf
  obtain ⟨v,hpeek,hv⟩ := peek_end hu
  refine ends_bind_of_run hrun (ends_bind_of_run hpeek (ends_bind_of_run rfl ?_))
  rw [if_pos (hv.mpr rfl)]
  exact ⟨c,v,rfl,hshows⟩

theorem parsecmd_ok {c : Cmd} {buf : Option (List UInt8)} (h : parsecmd fuel line = .ok (c,buf)) :
    buf = nulterminate c (line++[0]) ∧ ∃ u, (parse fuel).run ⟨0,line⟩ = .ok (c,u) := by
  rw [parsecmd] at h
  cases hrun : (parse fuel).run ⟨0,line⟩ with
  | error e =>
    rw [hrun] at h
    cases h
  | ok r =>
    rw [hrun] at h
    cases h
    exact ⟨rfl,r.2,rfl⟩

theorem parsecmd_error {e : Err} (h : parsecmd fuel line = .error e) :
    (parse fuel).run ⟨0,line⟩ = .error e := by
  rw [parsecmd] at h
  cases hrun : (parse fuel).run ⟨0,line⟩ with
  | error e' =>
    rw [hrun] at h
    cases h
    rfl
  | ok r =>
    rw [hrun] at h
    cases h

/-- A line has one sequence of tokens, and with fuel enough `parsecmd` ends and returns a tree
just if the grammar derives it from these tokens. -/
theorem parsecmd_derives (line : Str) : ∃ ts, (∀ us, Lexes line us ↔ us = ts) ∧
    ∀ k, parsecmd (4*line.length + 4 + k) line ≠ .error .outOfFuel ∧
      ∀ T, (∃ c buf, parsecmd (4*line.length + 4 + k) line = .ok (c,buf) ∧ c.tree line = T) ↔
        Derives .line ts T := by
  obtain ⟨ts,hts⟩ := lexes_total line
  refine ⟨ts,fun us => ⟨fun h => h.unique hts,fun h => h ▸ hts⟩,fun k => ?_⟩
  have hf : 4*line.length+4 ≤ 4*line.length+4+k := Nat.le_add_right _ _
  generalize 4*line.length+4+k = fuel at hf
  have hmeets := parse_meets hts hf
  refine ⟨?_,fun T => ⟨?_,fun hT => ?_⟩⟩
  · exact fun h => hmeets.of_error (parsecmd_error h) rfl
  · rintro ⟨c,buf,hrun,rfl⟩
    obtain ⟨-,u,hrun⟩ := parsecmd_ok hrun
    obtain ⟨T,hT,hshows⟩ := hmeets.of_ok hrun
    rwa [hshows.tree_eq]
  · obtain ⟨c,u,hrun,hshows⟩ := parse_ends hts hT hf
    refine ⟨c,nulterminate c (line++[0]),?_,hshows.tree_eq⟩
    rw [parsecmd,hrun]
    rfl

end Xv6.Sh
