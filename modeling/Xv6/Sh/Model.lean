import Xv6.Lib.CString
import Xv6.Lib.Prog

/-! The parser of the shell.
The line is the list of its bytes before the NUL; `es` points at the NUL.  A pointer into the
line is a position, and the parser's cursor also has the bytes from there on. -/
namespace Xv6.Sh

abbrev Str := List UInt8

def MAXARGS : ℕ := 10

def O_RDONLY : ℕ := 0x000
def O_WRONLY : ℕ := 0x001
def O_CREATE : ℕ := 0x200
def O_TRUNC : ℕ := 0x400

/-- `" \t\r\n\v"`. -/
def whitespace : List UInt8 := [32,9,13,10,11]

/-- `"<|>&;()"`. -/
def symbols : List UInt8 := [60,124,62,38,59,40,41]

structure Cursor where
  pos : ℕ
  rest : Str

/-- `*s`. -/
def Cursor.get (s : Cursor) : UInt8 := s.rest.headD 0

/-- `s+1`. -/
def Cursor.next (s : Cursor) : Cursor := ⟨s.pos+1,s.rest.tail⟩

/-- `while(s < es && strchr(whitespace, *s)) s++;` -/
def skipFrom : ℕ → Str → Cursor
  | pos, [] => ⟨pos,[]⟩
  | pos, x::rest => if x ∈ whitespace then skipFrom (pos+1) rest else ⟨pos,x::rest⟩

def Cursor.skip (s : Cursor) : Cursor := skipFrom s.pos s.rest

/-- `while(s < es && !strchr(whitespace, *s) && !strchr(symbols, *s)) s++;` -/
def wordFrom : ℕ → Str → Cursor
  | pos, [] => ⟨pos,[]⟩
  | pos, x::rest =>
    if x ∉ whitespace ∧ x ∉ symbols then wordFrom (pos+1) rest else ⟨pos,x::rest⟩

/-- The switch of `gettoken`: what it returns, and the end of the token. -/
def Cursor.token (s : Cursor) : UInt8 × Cursor :=
  match s.rest with
  | [] => (0,s)
  | x::_ =>
    if x = 124 ∨ x = 40 ∨ x = 41 ∨ x = 59 ∨ x = 38 ∨ x = 60 then (x,s.next)
    else if x = 62 then if s.next.get = 62 then (43,s.next.next) else (62,s.next)
    else (97,wordFrom s.pos s.rest)

/-- The arguments of a redirection: `file`, `efile`, `mode` and `fd`. -/
structure Redir where
  file : ℕ
  efile : ℕ
  mode : ℕ
  fd : ℕ
  deriving DecidableEq

inductive Cmd
  | exec (argv eargv : List (Option ℕ))
  | redir (cmd : Cmd) (r : Redir)
  | pipe (left right : Cmd)
  | list (left right : Cmd)
  | back (cmd : Cmd)
  deriving DecidableEq

/-- The calls of `panic`; `outOfFuel` is none of them. -/
inductive Err
  | leftovers
  | missingFile
  | parseblock
  | missingParen
  | badToken
  | tooManyArgs
  | outOfFuel
  deriving DecidableEq

/-- The parser moves the cursor `*ps`. -/
abbrev Parser := Prog Err Cursor

/-- The token's code, `q` and `eq`. -/
def gettoken : Parser (UInt8 × ℕ × ℕ) :=
  modifyGet fun s =>
    let s := s.skip
    let (ret,e) := s.token
    ((ret,s.pos,e.pos),e.skip)

def peek (toks : List UInt8) : Parser Bool :=
  modifyGet fun s =>
    let s := s.skip
    (!s.rest.isEmpty && toks.contains s.get,s)

/-- The switch of `parseredirs`. -/
def redirsFor (tok : UInt8) (q eq : ℕ) : List Redir :=
  if tok = 60 then [⟨q,eq,O_RDONLY,0⟩]
  else if tok = 62 then [⟨q,eq,O_WRONLY ||| O_CREATE ||| O_TRUNC,1⟩]
  else if tok = 43 then [⟨q,eq,O_WRONLY ||| O_CREATE,1⟩]
  else []

/-- The loop of `parseredirs`; later redirections come later in the list. -/
def parseredirs : ℕ → Parser (List Redir)
  | 0 => throw .outOfFuel
  | fuel+1 => do
    if ← peek [60,62] then
      let (tok,_,_) ← gettoken
      let (ret,q,eq) ← gettoken
      if ret ≠ 97 then throw .missingFile
      else
        let rs ← parseredirs fuel
        pure (redirsFor tok q eq ++ rs)
    else pure []

/-- `cmd` with its redirections around it, each later one around the earlier ones. -/
def Cmd.wrap (cmd : Cmd) (rs : List Redir) : Cmd := rs.foldl .redir cmd

/-- The loop of `parseexec`: the arrays and the redirections. -/
def parseargs : ℕ → ℕ → List (Option ℕ) → List (Option ℕ) → List Redir →
    Parser (List (Option ℕ) × List (Option ℕ) × List Redir)
  | 0, _, _, _, _ => throw .outOfFuel
  | fuel+1, argc, argv, eargv, rs => do
    if ← peek [124,41,38,59] then pure (argv.set argc none,eargv.set argc none,rs)
    else
      let (tok,q,eq) ← gettoken
      if tok = 0 then pure (argv.set argc none,eargv.set argc none,rs)
      else if tok ≠ 97 then throw .badToken
      else if MAXARGS ≤ argc+1 then throw .tooManyArgs
      else
        let rs' ← parseredirs fuel
        parseargs fuel (argc+1) (argv.set argc (some q)) (eargv.set argc (some eq)) (rs ++ rs')

/-- `while(peek(ps, es, "&"))` in `parseline`. -/
def parsebacks : ℕ → Cmd → Parser Cmd
  | 0, _ => throw .outOfFuel
  | fuel+1, cmd => do
    if ← peek [38] then
      let _ ← gettoken
      parsebacks fuel (.back cmd)
    else pure cmd

mutual

def parseline : ℕ → Parser Cmd
  | 0 => throw .outOfFuel
  | fuel+1 => do
    let cmd ← parsepipe fuel
    let cmd ← parsebacks fuel cmd
    if ← peek [59] then
      let _ ← gettoken
      let right ← parseline fuel
      pure (.list cmd right)
    else pure cmd

def parsepipe : ℕ → Parser Cmd
  | 0 => throw .outOfFuel
  | fuel+1 => do
    let cmd ← parseexec fuel
    if ← peek [124] then
      let _ ← gettoken
      let right ← parsepipe fuel
      pure (.pipe cmd right)
    else pure cmd

def parseexec : ℕ → Parser Cmd
  | 0 => throw .outOfFuel
  | fuel+1 => do
    if ← peek [40] then parseblock fuel
    else
      let rs ← parseredirs fuel
      let (argv,eargv,rs) ← parseargs fuel 0 (.replicate MAXARGS none) (.replicate MAXARGS none) rs
      pure (Cmd.wrap (.exec argv eargv) rs)

def parseblock : ℕ → Parser Cmd
  | 0 => throw .outOfFuel
  | fuel+1 => do
    if ← peek [40] then
      let _ ← gettoken
      let cmd ← parseline fuel
      if ← peek [41] then
        let _ ← gettoken
        let rs ← parseredirs fuel
        pure (cmd.wrap rs)
      else throw .missingParen
    else throw .parseblock

end

/-- `for(i=0; ecmd->argv[i]; i++) *ecmd->eargv[i] = 0;`, none if it leaves the arrays. -/
def nulArgs : List (Option ℕ) → List (Option ℕ) → List UInt8 → Option (List UInt8)
  | none::_, _, buf => some buf
  | some _::argv, some e::eargv, buf => nulArgs argv eargv (buf.set e 0)
  | _, _, _ => none

/-- The buffer after `nulterminate`. -/
def nulterminate : Cmd → List UInt8 → Option (List UInt8)
  | .exec argv eargv, buf => nulArgs argv eargv buf
  | .redir cmd r, buf => (nulterminate cmd buf).map fun buf => buf.set r.efile 0
  | .pipe left right, buf => (nulterminate left buf).bind (nulterminate right)
  | .list left right, buf => (nulterminate left buf).bind (nulterminate right)
  | .back cmd, buf => nulterminate cmd buf

/-- The command that `parsecmd` builds. -/
def parse (fuel : ℕ) : Parser Cmd := do
  let cmd ← parseline fuel
  let _ ← peek []
  let s ← get
  if s.rest.isEmpty then pure cmd else throw .leftovers

/-- `parsecmd`: the command and the buffer that it points into. -/
def parsecmd (fuel : ℕ) (line : Str) : Except Err (Cmd × Option (List UInt8)) :=
  ((parse fuel).run ⟨0,line⟩).map fun (cmd,_) => (cmd,nulterminate cmd (line ++ [0]))

end Xv6.Sh
