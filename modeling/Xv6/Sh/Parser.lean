import Xv6.Sh.Lexer

/-! The parser accepts the language of the grammar, and nothing else. -/
namespace Xv6.Sh

open Prog List

variable {line : Str} {s : Cursor} {t : Token} {ts us vs : List Token} {fuel : ℕ}

/-- A failure that is one of the shell's own. -/
abbrev Refused (e : Err) : Prop := e ≠ .outOfFuel

theorem code_word (h : t.code = 97) : ∃ w, t = .word w := by
  cases t with
  | word w => exact ⟨w,rfl⟩
  | _ => exact absurd h (by decide)

theorem code_ne_zero (t : Token) : t.code ≠ 0 := by
  cases t with
  | word w => exact (by decide : (97 : UInt8) ≠ 0)
  | _ => decide

/-- A redirection symbol and the file name after it. -/
theorem redirsFor_shows {q e : ℕ} {w : Str} (hs : Starts [60,62] (t::ts)) (hw : Word line q e w) :
    ∃ r u, redirsFor t.code q e = [r] ∧ t.target w = some u ∧ r.Shows line u := by
  obtain ⟨t',_,x,hts,hsym,hx⟩ := hs
  obtain ⟨rfl,-⟩ := cons.inj hts
  cases t with
  | lt => exact ⟨_,_,rfl,rfl,hw,rfl,rfl⟩
  | gt => exact ⟨_,_,rfl,rfl,hw,rfl,rfl⟩
  | gtgt => exact ⟨_,_,rfl,rfl,hw,rfl,rfl⟩
  | word => cases hsym
  | _ =>
    cases hsym
    exact absurd hx (by decide)

section Sound

/-- What `parseredirs` has read. -/
structure RedirsRead (line : Str) (s : Cursor) (ts : List Token) (rs : List Redir) (u : Cursor) :
    Prop where
  read : ∃ us vs targets, ts = us ++ vs ∧ Redirs us targets ∧
    List.Forall₂ (Redir.Shows line) rs targets ∧ Here line u vs
  short : u.rest.length ≤ s.rest.length

theorem parseredirs_meets (h : Here line s ts) (hfuel : s.rest.length < fuel) :
    Meets (parseredirs fuel) s (RedirsRead line s ts) Refused := by
  induction fuel generalizing s ts with
  | zero => omega
  | succ fuel ih =>
    unfold parseredirs
    obtain ⟨b,u,hpeek,hb,hu,hul⟩ := peek_run [60,62] h (by decide)
    refine meets_bind_of_run hpeek ?_
    split
    · rename_i hfound
      have hstarts := hb.mp hfound
      obtain ⟨t,us,x,rfl,-,-⟩ := id hstarts
      obtain ⟨q,e,v,htok,hv,hvl,-⟩ := gettoken_run hu
      refine meets_bind_of_run htok ?_
      dsimp only
      cases us with
      | nil =>
        obtain ⟨q,e,w,hnil,-⟩ := gettoken_nil hv
        refine meets_bind_of_run hnil ?_
        exact meets_of_error rfl (by decide)
      | cons t' us =>
        obtain ⟨q,e,w,htok',hw,hwl,hword⟩ := gettoken_run hv
        refine meets_bind_of_run htok' ?_
        dsimp only
        split
        · exact meets_of_error rfl (by decide)
        · rename_i hcode
          obtain ⟨file,rfl⟩ := code_word (not_not.mp hcode)
          obtain ⟨r,target,hr,htarget,hshows⟩ := redirsFor_shows hstarts (hword file rfl)
          refine (ih hw (by omega)).bind fun rs x hx => ?_
          obtain ⟨⟨us₁,vs₁,targets,rfl,hredirs,hall,hx⟩,hxl⟩ := hx
          refine meets_of_run rfl ⟨⟨_,vs₁,_,rfl,.cons htarget hredirs,?_,hx⟩,by omega⟩
          rw [hr]
          exact .cons hshows hall
    · exact meets_of_run rfl ⟨⟨[],ts,[],rfl,.nil,.nil,hu⟩,hul⟩

theorem pad_set_some (qs : List ℕ) (q : ℕ) (h : qs.length < MAXARGS) :
    (pad qs).set qs.length (some q) = pad (qs++[q]) := by
  obtain ⟨n,hn⟩ := Nat.exists_eq_add_of_lt h
  have h1 : MAXARGS-qs.length = n+1 := by omega
  have h2 : MAXARGS-(qs++[q]).length = n := by
    rw [length_append]
    simp only [length_singleton]
    omega
  rw [pad,pad,h1,h2,set_append_right _ _ (by simp),length_map,Nat.sub_self,
    replicate_succ,set_cons_zero,map_append,append_assoc]
  rfl

theorem pad_set_none (qs : List ℕ) (h : qs.length < MAXARGS) :
    (pad qs).set qs.length none = pad qs := by
  obtain ⟨n,hn⟩ := Nat.exists_eq_add_of_lt h
  have h1 : MAXARGS-qs.length = n+1 := by omega
  rw [pad,h1,set_append_right _ _ (by simp),length_map,Nat.sub_self,
    replicate_succ,set_cons_zero]

/-- What the loop of `parseexec` has read, after the words at `spans`. -/
structure ArgsRead (line : Str) (s : Cursor) (ts : List Token) (spans : List (ℕ × ℕ))
    (rs : List Redir) (r : List (Option ℕ) × List (Option ℕ) × List Redir) (u : Cursor) : Prop where
  read : ∃ us vs more ws rs' targets, ts = us ++ vs ∧ Args us ws targets ∧
    List.Forall₂ (fun p w => Word line p.1 p.2 w) more ws ∧ (spans ++ more).length < MAXARGS ∧
    List.Forall₂ (Redir.Shows line) rs' targets ∧ Here line u vs ∧
    r = (pad ((spans ++ more).map Prod.fst),pad ((spans ++ more).map Prod.snd),rs ++ rs')
  short : u.rest.length ≤ s.rest.length

theorem ArgsRead.done {spans : List (ℕ × ℕ)} {rs : List Redir} {u : Cursor}
    (hspans : spans.length < MAXARGS) (hu : Here line u ts) (hul : u.rest.length ≤ s.rest.length) :
    ArgsRead line s ts spans rs ((pad (spans.map Prod.fst)).set spans.length none,
      (pad (spans.map Prod.snd)).set spans.length none,rs) u := by
  have hfst := pad_set_none (spans.map Prod.fst) (by rwa [length_map])
  have hsnd := pad_set_none (spans.map Prod.snd) (by rwa [length_map])
  rw [length_map] at hfst hsnd
  rw [hfst,hsnd]
  exact ⟨⟨[],ts,[],[],[],[],rfl,.nil,.nil,by rwa [append_nil],.nil,hu,by simp⟩,hul⟩

theorem parseargs_meets (spans : List (ℕ × ℕ)) {rs : List Redir} (h : Here line s ts)
    (hfuel : s.rest.length < fuel) (hspans : spans.length < MAXARGS) :
    Meets (parseargs fuel spans.length (pad (spans.map Prod.fst)) (pad (spans.map Prod.snd)) rs) s
      (ArgsRead line s ts spans rs) Refused := by
  induction fuel generalizing s ts spans rs with
  | zero => omega
  | succ fuel ih =>
    unfold parseargs
    obtain ⟨b,u,hpeek,-,hu,hul⟩ := peek_run [124,41,38,59] h (by decide)
    refine meets_bind_of_run hpeek ?_
    split
    · exact meets_of_run rfl (.done hspans hu hul)
    cases ts with
    | nil =>
      obtain ⟨q,e,v,hnil,hv,hvl⟩ := gettoken_nil hu
      refine meets_bind_of_run hnil ?_
      exact meets_of_run rfl (.done hspans hv (by omega))
    | cons t ts =>
      obtain ⟨q,e,v,htok,hv,hvl,hword⟩ := gettoken_run hu
      refine meets_bind_of_run htok ?_
      dsimp only
      rw [if_neg (code_ne_zero t)]
      split
      · exact meets_of_error rfl (by decide)
      · rename_i hcode
        obtain ⟨w,rfl⟩ := code_word (not_not.mp hcode)
        split
        · exact meets_of_error rfl (by decide)
        · rename_i hroom
          refine (parseredirs_meets hv (by omega)).bind fun rs₁ x hx => ?_
          obtain ⟨⟨us₁,vs₁,targets,rfl,hredirs,hall,hx⟩,hxl⟩ := hx
          have hfst := pad_set_some (spans.map Prod.fst) q (by rwa [length_map])
          have hsnd := pad_set_some (spans.map Prod.snd) e (by rwa [length_map])
          rw [length_map] at hfst hsnd
          have hmap : spans.map Prod.fst++[q] = (spans++[(q,e)]).map Prod.fst := by simp
          have hmap' : spans.map Prod.snd++[e] = (spans++[(q,e)]).map Prod.snd := by simp
          have hlen : spans.length+1 = (spans++[(q,e)]).length := by simp
          rw [hfst,hsnd,hmap,hmap',hlen]
          refine (ih _ hx (by omega) (by rw [← hlen]; omega)).mono fun r y hy => ?_
          obtain ⟨⟨us₂,vs₂,more,ws,rs₂,targets₂,rfl,hargs,hmore,hlt,hall₂,hy,rfl⟩,hyl⟩ := hy
          refine ⟨⟨.word w::(us₁++us₂),vs₂,(q,e)::more,w::ws,rs₁++rs₂,targets++targets₂,
            by simp,.cons hredirs hargs,.cons (hword w rfl) hmore,?_,
            rel_append hall hall₂,hy,by simp⟩,by omega⟩
          simpa using hlt

theorem parsebacks_meets {c : Cmd} {T : Tree} (h : Here line s ts) (hfuel : s.rest.length < fuel)
    (hc : c.Shows line T) : Meets (parsebacks fuel c) s (fun c' u => (∃ n vs,
      ts = replicate n .amp++vs ∧ c'.Shows line (T.backs n) ∧ Here line u vs) ∧
      u.rest.length ≤ s.rest.length) Refused := by
  induction fuel generalizing s ts c T with
  | zero => omega
  | succ fuel ih =>
    unfold parsebacks
    obtain ⟨b,u,hpeek,hb,hu,hul⟩ := peek_run [38] h (by decide)
    refine meets_bind_of_run hpeek ?_
    split
    · rename_i hfound
      obtain ⟨t,us,x,rfl,ht,hx⟩ := hb.mp hfound
      obtain rfl : t = .amp := by
        cases t <;> cases ht <;> first | rfl | exact absurd hx (by decide)
      obtain ⟨q,e,v,htok,hv,hvl,-⟩ := gettoken_run hu
      refine meets_bind_of_run htok ((ih hv (by omega) (.back hc)).mono fun c' w hw => ?_)
      obtain ⟨⟨n,vs,rfl,hshows,hw⟩,hwl⟩ := hw
      exact ⟨⟨n+1,vs,rfl,hshows,hw⟩,by omega⟩
    · exact meets_of_run rfl ⟨⟨0,ts,rfl,hc,hu⟩,hul⟩

theorem Cmd.Shows.wrap {c : Cmd} {T : Tree} {rs : List Redir} {targets : List Target}
    (h : c.Shows line T) (hr : Forall₂ (Redir.Shows line) rs targets) :
    (c.wrap rs).Shows line (T.wrap targets) := by
  induction hr generalizing c T with
  | nil => exact h
  | cons hr _ ih => exact ih (.redir h hr)

/-- What a function of the parser has read. -/
structure Read (line : Str) (n : Nonterminal) (s : Cursor) (ts : List Token) (c : Cmd)
    (u : Cursor) : Prop where
  read : ∃ us vs T, ts = us ++ vs ∧ Derives n us T ∧ c.Shows line T ∧ Here line u vs
  short : u.rest.length ≤ s.rest.length

/-- The symbol that `peek` has found. -/
theorem starts_one {x : UInt8} (t : Token) (h : Starts [x] ts) (ht : t.sym = some x)
    (hx : x ≠ 62) : ∃ us, ts = t::us := by
  obtain ⟨t₁,us,y,rfl,hsym,hy⟩ := h
  obtain rfl := mem_singleton.mp hy
  refine ⟨us,?_⟩
  cases t₁ <;> cases t <;> cases ht <;> first | rfl | exact absurd rfl hx | cases hsym

/-- With enough fuel, `p` reads what the nonterminal derives. -/
def Sound (line : Str) (n : Nonterminal) (extra fuel : ℕ) (p : Parser Cmd) : Prop :=
  ∀ s ts, Here line s ts → 4*s.rest.length + extra ≤ fuel → Meets p s (Read line n s ts) Refused

theorem parseline_step (hpipe : Sound line .pipe 3 fuel (parsepipe fuel))
    (hline : Sound line .line 4 fuel (parseline fuel)) :
    Sound line .line 4 (fuel+1) (parseline (fuel+1)) := by
  intro s ts h hf
  unfold parseline
  refine (hpipe s ts h (by omega)).bind fun c u hu => ?_
  obtain ⟨⟨us,vs,T,rfl,hderives,hshows,hu⟩,hul⟩ := hu
  refine (parsebacks_meets hu (by omega) hshows).bind fun c' v hv => ?_
  obtain ⟨⟨n,vs,rfl,hshows,hv⟩,hvl⟩ := hv
  obtain ⟨b,w,hpeek,hb,hw,hwl⟩ := peek_run [59] hv (by decide)
  refine meets_bind_of_run hpeek ?_
  split
  · rename_i hfound
    obtain ⟨vs,rfl⟩ := starts_one .semi (hb.mp hfound) rfl (by decide)
    obtain ⟨q,e,x,htok,hx,hxl,-⟩ := gettoken_run hw
    refine meets_bind_of_run htok ?_
    refine (hline x vs hx (by omega)).bind fun c'' y hy => ?_
    obtain ⟨⟨us',vs,T',rfl,hderives',hshows',hy⟩,hyl⟩ := hy
    exact meets_of_run rfl
      ⟨⟨_,vs,_,by simp,.lines n hderives hderives',.list hshows hshows',hy⟩,by omega⟩
  · exact meets_of_run rfl ⟨⟨_,vs,_,by rw [append_assoc],.line n hderives,hshows,hw⟩,by omega⟩

theorem parsepipe_step (hexec : Sound line .exec 2 fuel (parseexec fuel))
    (hpipe : Sound line .pipe 3 fuel (parsepipe fuel)) :
    Sound line .pipe 3 (fuel+1) (parsepipe (fuel+1)) := by
  intro s ts h hf
  unfold parsepipe
  refine (hexec s ts h (by omega)).bind fun c u hu => ?_
  obtain ⟨⟨us,vs,T,rfl,hderives,hshows,hu⟩,hul⟩ := hu
  obtain ⟨b,w,hpeek,hb,hw,hwl⟩ := peek_run [124] hu (by decide)
  refine meets_bind_of_run hpeek ?_
  split
  · rename_i hfound
    obtain ⟨vs,rfl⟩ := starts_one .pipe (hb.mp hfound) rfl (by decide)
    obtain ⟨q,e,x,htok,hx,hxl,-⟩ := gettoken_run hw
    refine meets_bind_of_run htok ?_
    refine (hpipe x vs hx (by omega)).bind fun c'' y hy => ?_
    obtain ⟨⟨us',vs,T',rfl,hderives',hshows',hy⟩,hyl⟩ := hy
    exact meets_of_run rfl
      ⟨⟨_,vs,_,by simp,.pipes hderives hderives',.pipe hshows hshows',hy⟩,by omega⟩
  · exact meets_of_run rfl ⟨⟨_,vs,_,rfl,.pipe hderives,hshows,hw⟩,by omega⟩

theorem parseexec_step (hblock : Sound line .exec 1 fuel (parseblock fuel)) :
    Sound line .exec 2 (fuel+1) (parseexec (fuel+1)) := by
  intro s ts h hf
  unfold parseexec
  obtain ⟨b,u,hpeek,-,hu,hul⟩ := peek_run [40] h (by decide)
  refine meets_bind_of_run hpeek ?_
  split
  · exact (hblock u ts hu (by omega)).mono fun c v hv => ⟨hv.read,hv.short.trans hul⟩
  · refine (parseredirs_meets hu (by omega)).bind fun rs v hv => ?_
    obtain ⟨⟨us,vs,targets,rfl,hredirs,hall,hv⟩,hvl⟩ := hv
    refine (parseargs_meets [] hv (by omega) (by decide)).bind fun r w hw => ?_
    obtain ⟨⟨us',vs,more,ws,rs',targets',rfl,hargs,hmore,hlt,hall',hw,rfl⟩,hwl⟩ := hw
    rw [nil_append] at hlt
    refine meets_of_run rfl ⟨⟨_,vs,_,by rw [append_assoc],.simple hredirs hargs ?_,
      (Cmd.Shows.exec hlt hmore).wrap (rel_append hall hall'),hw⟩,by omega⟩
    rw [← hmore.length_eq]
    omega

theorem parseblock_step (hline : Sound line .line 4 fuel (parseline fuel)) :
    Sound line .exec 1 (fuel+1) (parseblock (fuel+1)) := by
  intro s ts h hf
  unfold parseblock
  obtain ⟨b,u,hpeek,hb,hu,hul⟩ := peek_run [40] h (by decide)
  refine meets_bind_of_run hpeek ?_
  split
  · rename_i hfound
    obtain ⟨ts,rfl⟩ := starts_one .lparen (hb.mp hfound) rfl (by decide)
    obtain ⟨q,e,x,htok,hx,hxl,-⟩ := gettoken_run hu
    refine meets_bind_of_run htok ?_
    refine (hline x ts hx (by omega)).bind fun c v hv => ?_
    obtain ⟨⟨us,vs,T,rfl,hderives,hshows,hv⟩,hvl⟩ := hv
    obtain ⟨b',w,hpeek',hb',hw,hwl⟩ := peek_run [41] hv (by decide)
    refine meets_bind_of_run hpeek' ?_
    split
    · rename_i hclose
      obtain ⟨vs,rfl⟩ := starts_one .rparen (hb'.mp hclose) rfl (by decide)
      obtain ⟨q,e,y,htok,hy,hyl,-⟩ := gettoken_run hw
      refine meets_bind_of_run htok ?_
      refine (parseredirs_meets hy (by omega)).bind fun rs z hz => ?_
      obtain ⟨⟨us',vs,targets,rfl,hredirs,hall,hz⟩,hzl⟩ := hz
      exact meets_of_run rfl
        ⟨⟨_,vs,_,by simp,.block hderives hredirs,hshows.wrap hall,hz⟩,by omega⟩
    · exact meets_of_error rfl (by decide)
  · exact meets_of_error rfl (by decide)

/-- A symbol is read before the parser goes around: fuel of four for each byte is enough. -/
theorem parser_sound (fuel : ℕ) : Sound line .line 4 fuel (parseline fuel) ∧
    Sound line .pipe 3 fuel (parsepipe fuel) ∧ Sound line .exec 2 fuel (parseexec fuel) ∧
    Sound line .exec 1 fuel (parseblock fuel) := by
  induction fuel with
  | zero =>
    exact ⟨fun _ _ _ h => absurd h (by omega),fun _ _ _ h => absurd h (by omega),
      fun _ _ _ h => absurd h (by omega),fun _ _ _ h => absurd h (by omega)⟩
  | succ fuel ih =>
    obtain ⟨hline,hpipe,hexec,hblock⟩ := ih
    exact ⟨parseline_step hpipe hline,parsepipe_step hexec hpipe,parseexec_step hblock,
      parseblock_step hline⟩

end Sound

end Xv6.Sh
