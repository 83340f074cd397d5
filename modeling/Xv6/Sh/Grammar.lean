import Xv6.Sh.Model

/-! The language of the shell: its tokens, its grammar and the trees it stands for. -/
namespace Xv6.Sh

inductive Token
  | word (w : Str)
  | pipe
  | lparen
  | rparen
  | semi
  | amp
  | lt
  | gt
  | gtgt
  deriving DecidableEq

/-- The character that a symbol begins with. -/
def Token.sym : Token → Option UInt8
  | .word _ => none
  | .pipe => some 124
  | .lparen => some 40
  | .rparen => some 41
  | .semi => some 59
  | .amp => some 38
  | .lt => some 60
  | .gt => some 62
  | .gtgt => some 62

def IsWordChar (x : UInt8) : Prop := x ∉ whitespace ∧ x ∉ symbols

instance (x : UInt8) : Decidable (IsWordChar x) := inferInstanceAs (Decidable (_ ∧ _))

/-- The tokens of a text: words are as long as possible, and blanks only separate. -/
inductive Lexes : Str → List Token → Prop
  | nil : Lexes [] []
  | white {x s ts} (hx : x ∈ whitespace) (h : Lexes s ts) : Lexes (x::s) ts
  | word {x w s ts} (hx : IsWordChar x) (hw : ∀ y ∈ w, IsWordChar y)
      (hs : ∀ y ∈ s.head?, ¬IsWordChar y) (h : Lexes s ts) :
      Lexes (x::(w ++ s)) (.word (x::w)::ts)
  | sym {t x s ts} (ht : Token.sym t = some x) (hx : x ≠ 62) (h : Lexes s ts) :
      Lexes (x::s) (t::ts)
  | gt {s ts} (hs : s.head? ≠ some 62) (h : Lexes s ts) : Lexes (62::s) (.gt::ts)
  | gtgt {s ts} (h : Lexes s ts) : Lexes (62::62::s) (.gtgt::ts)

/-- Where a redirection goes. -/
structure Target where
  file : Str
  mode : ℕ
  fd : ℕ
  deriving DecidableEq

inductive Tree
  | exec (args : List Str)
  | redir (t : Tree) (r : Target)
  | pipe (left right : Tree)
  | list (left right : Tree)
  | back (t : Tree)
  deriving DecidableEq

/-- The redirection with one of the symbols `<`, `>` and `>>` before a file name. -/
def Token.target : Token → Str → Option Target
  | .lt, w => some ⟨w,O_RDONLY,0⟩
  | .gt, w => some ⟨w,O_WRONLY ||| O_CREATE ||| O_TRUNC,1⟩
  | .gtgt, w => some ⟨w,O_WRONLY ||| O_CREATE,1⟩
  | _, _ => none

/-- `redir*`. -/
inductive Redirs : List Token → List Target → Prop
  | nil : Redirs [] []
  | cons {d w r ts rs} (hd : Token.target d w = some r) (h : Redirs ts rs) :
      Redirs (d::.word w::ts) (r::rs)

/-- `(word redir*)*`. -/
inductive Args : List Token → List Str → List Target → Prop
  | nil : Args [] [] []
  | cons {w ts rs ts' ws rs'} (h : Redirs ts rs) (h' : Args ts' ws rs') :
      Args (.word w::(ts ++ ts')) (w::ws) (rs ++ rs')

inductive Nonterminal
  | line
  | pipe
  | exec

def Tree.wrap (t : Tree) (rs : List Target) : Tree := rs.foldl .redir t

/-- A command followed by `n` times `&`. -/
def Tree.backs : Tree → ℕ → Tree
  | t, 0 => t
  | t, n+1 => (Tree.back t).backs n

/-- `line ::= pipe '&'* [';' line]`, `pipe ::= exec ['|' pipe]` and
`exec ::= '(' line ')' redir* | redir* (word redir*)*`. -/
inductive Derives : Nonterminal → List Token → Tree → Prop
  | line {ts t} (n : ℕ) (h : Derives .pipe ts t) :
      Derives .line (ts ++ List.replicate n .amp) (t.backs n)
  | lines {ts t ts' t'} (n : ℕ) (h : Derives .pipe ts t) (h' : Derives .line ts' t') :
      Derives .line (ts ++ (List.replicate n .amp ++ .semi::ts')) (.list (t.backs n) t')
  | pipe {ts t} (h : Derives .exec ts t) : Derives .pipe ts t
  | pipes {ts t ts' t'} (h : Derives .exec ts t) (h' : Derives .pipe ts' t') :
      Derives .pipe (ts ++ .pipe::ts') (.pipe t t')
  | block {ts t ts' rs} (h : Derives .line ts t) (h' : Redirs ts' rs) :
      Derives .exec (.lparen::(ts ++ .rparen::ts')) (t.wrap rs)
  | simple {ts rs ts' ws rs'} (h : Redirs ts rs) (h' : Args ts' ws rs')
      (hlen : ws.length ≤ MAXARGS-1) : Derives .exec (ts ++ ts') ((Tree.exec ws).wrap (rs ++ rs'))

/-- `w` is a word of the line, from `q` up to `e`. -/
def Word (line : Str) (q e : ℕ) (w : Str) : Prop :=
  ∃ a b, line = a ++ (w ++ b) ∧ a.length = q ∧ q + w.length = e ∧ w ≠ [] ∧
    (∀ x ∈ w, IsWordChar x) ∧ ∀ x ∈ b.head?, ¬IsWordChar x

/-- An array of pointers that begins with `qs`. -/
def pad (qs : List ℕ) : List (Option ℕ) := qs.map some ++ List.replicate (MAXARGS-qs.length) none

/-- A redirection of the parser names the file of a redirection of the grammar. -/
def Redir.Shows (line : Str) (r : Redir) (t : Target) : Prop :=
  Word line r.file r.efile t.file ∧ r.mode = t.mode ∧ r.fd = t.fd

/-- The parser's command is this tree, its words being parts of the line. -/
inductive Cmd.Shows (line : Str) : Cmd → Tree → Prop
  | exec {spans : List (ℕ × ℕ)} {ws} (hlen : spans.length < MAXARGS)
      (h : List.Forall₂ (fun p w => Word line p.1 p.2 w) spans ws) :
      Shows line (.exec (pad (spans.map Prod.fst)) (pad (spans.map Prod.snd))) (.exec ws)
  | redir {c t r u} (h : Shows line c t) (hr : Redir.Shows line r u) :
      Shows line (.redir c r) (.redir t u)
  | pipe {c t c' t'} (h : Shows line c t) (h' : Shows line c' t') :
      Shows line (.pipe c c') (.pipe t t')
  | list {c t c' t'} (h : Shows line c t) (h' : Shows line c' t') :
      Shows line (.list c c') (.list t t')
  | back {c t} (h : Shows line c t) : Shows line (.back c) (.back t)

end Xv6.Sh
