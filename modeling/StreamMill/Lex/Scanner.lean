import StreamMill.Lex.Keywords
import StreamMill.Lib.While

/-!
# StreamMill.Lex.Scanner

The scanner (`yylex`). It walks over a text with a zero behind it; one pass through the `switch` is
a `step`, and a call repeats it until a token is returned. States that the `switch` has no case for
are passed through for ever. The counters of lines and columns, and the values of the numbers, are
left out.
-/

namespace StreamMill.Lex

open ImDb (Byte)
open Lib (Returns)

/-- What `yylex` returns; the flag is `in_sql`. -/
inductive Token
  | char (c : Byte)
  | keyword (tok : String)
  | ident (sql : Bool)
  | num (sql : Bool)
  | realNum (sql : Bool)
  | string (sql : Bool)
  | ccode
  | endOfInput
  | zero
  deriving DecidableEq

/-- The variables of the scanner; `text` is the input up to its zero. -/
structure Scanner where
  text : List Byte
  tokPtr : Nat
  tokStart : Nat
  prevState : LexState
  state : LexState
  nextState : LexState
  c : Byte
  inSql : Bool
  filenameP : Bool
  lastTokenIsKeyword : Bool
  yytext : List Byte
  deriving DecidableEq

def readTextLiteral : List Byte → Option (List Byte)
  | [] => none
  | c :: cs =>
    if c = 92 then
      match cs with
      | [] => none
      | d :: cs => (readTextLiteral cs).map fun tok => c :: d :: tok
    else if c = 39 then some []
    else (readTextLiteral cs).map fun tok => c :: tok

def readCCode : List Byte → Option (List Byte)
  | [] => none
  | c :: cs => if c = 64 then some [] else (readCCode cs).map fun tok => c :: tok

def commentLength : List Byte → Option Nat
  | [] => none
  | c :: cs => if c = 42 ∧ cs.head? = some 47 then some 2 else (commentLength cs).map (· + 1)

def filenameChar (c : Byte) : Bool := isalnum c || c = 46 || c = 47 || c = 45 || c = 95

def identChar (c : Byte) : Bool := isalnum c || c = 95 || c = 36

namespace Scanner

def sqlInitScanner (text : List Byte) : Scanner where
  text := text
  tokPtr := 0
  tokStart := 0
  prevState := .start
  state := .start
  nextState := .start
  c := 0
  inSql := false
  filenameP := false
  lastTokenIsKeyword := false
  yytext := []

/-- `c = yyGet()` -/
def get (s : Scanner) : Except Fault Scanner := do
  let c ← readAt s.text s.tokPtr
  .ok { s with c := c, tokPtr := s.tokPtr + 1 }

/-- `while (f(c = yyGet()))` -/
def getWhile (s : Scanner) (f : Byte → Bool) : Except Fault Scanner := do
  let p ← readEnd f s.text s.tokPtr
  .ok { s with c := byteAt s.text p, tokPtr := p + 1 }

def unget (s : Scanner) : Scanner := { s with tokPtr := s.tokPtr - 1 }

/-- `yytext = copyToken(tokStart, tokPtr)` -/
def copy (s : Scanner) : Scanner := { s with yytext := copyToken s.text s.tokStart s.tokPtr }

def startState (s : Scanner) : Except Fault (Scanner ⊕ Token × Scanner) := do
  let s ← s.getWhile blank
  let s := { s with tokStart := s.tokPtr - 1 }
  if s.filenameP then
    let p ← readEnd filenameChar s.text s.tokStart
    .ok (.inr (.ident s.inSql, { ({ s with tokPtr := p }.copy) with filenameP := false }))
  else
    match stateOf s.c with
    | some state => .ok (.inl { s with state := state })
    | none => .error .stateMap

def identState (s : Scanner) : Except Fault (Scanner ⊕ Token × Scanner) := do
  let s ← s.getWhile identChar
  let s := { s.unget with nextState := .start }
  match ← findKeyword s.text s.inSql s.tokStart s.tokPtr with
  | some tok => .ok (.inr (.keyword tok, { s with lastTokenIsKeyword := true }))
  | none => .ok (.inr (.ident s.inSql, s.copy))

def isExp (c : Byte) : Bool := c = 101 || c = 69

def isSign (c : Byte) : Bool := c = 43 || c = 45

def numberState (s : Scanner) : Except Fault (Scanner ⊕ Token × Scanner) := do
  let s ← s.getWhile isdigit
  if isExp s.c then
    let s ← s.get
    if isSign s.c then
      if isdigit (← readAt s.text s.tokPtr) then
        let p ← readEnd isdigit s.text s.tokPtr
        .ok (.inr (.realNum s.inSql, { ({ s with tokPtr := p }.copy) with nextState := .start }))
      else .ok (.inl { s.unget with state := .intOrReal })
    else .ok (.inl { s.unget with state := .intOrReal })
  else .ok (.inl { s with state := .intOrReal })

/-- A sign; the `switch` falls through behind the digits. -/
def signedNumberState (s : Scanner) : Except Fault (Scanner ⊕ Token × Scanner) := do
  let tokval ← if isSign s.c then findKeyword s.text s.inSql s.tokStart (s.tokStart + 2)
    else .ok none
  match tokval with
  | some tok =>
    let _ ← readAt s.text s.tokPtr
    .ok (.inr (.keyword tok, { s with tokPtr := s.tokPtr + 1 }))
  | none =>
    if s.prevState ≠ .allowSignedNumber then .ok (.inl { s with state := .char })
    else
      let s ← s.get
      if !isdigit s.c && s.c ≠ 46 then .ok (.inl { s with state := .char })
      else
        let s := if isdigit s.c then s else s.unget
        let s ← s.getWhile isdigit
        .ok (.inl { s with state := .intOrReal })

def intOrRealState (s : Scanner) : Except Fault (Scanner ⊕ Token × Scanner) :=
  if s.c ≠ 46 then
    .ok (.inr (.num s.inSql, { s.unget.copy with nextState := .start }))
  else .ok (.inl { s with state := .real })

def realState (s : Scanner) : Except Fault (Scanner ⊕ Token × Scanner) := do
  let s ← s.getWhile isdigit
  if isExp s.c then
    let s ← s.get
    if !isSign s.c then .ok (.inl { s with state := .char })
    else
      let digit ← readAt s.text s.tokPtr
      if !isdigit digit then .ok (.inl { s with tokPtr := s.tokPtr + 1, state := .char })
      else
        let p ← readEnd isdigit s.text (s.tokPtr + 1)
        .ok (.inr (.realNum s.inSql, { ({ s with tokPtr := p }.copy) with nextState := .start }))
  else .ok (.inr (.realNum s.inSql, { s.unget.copy with nextState := .start }))

/-- A comparison; the second character is looked up in `state_map` too. -/
def cmpOpState (s : Scanner) : Except Fault (Scanner ⊕ Token × Scanner) := do
  let s ← s.get
  match stateOf s.c with
  | none => .error .stateMap
  | some state =>
    let s := if state ≠ .cmpOp then s.unget else s
    match ← findKeyword s.text s.inSql s.tokStart s.tokPtr with
    | some tok => .ok (.inr (.keyword tok, s))
    | none => .ok (.inl { s with state := .char })

def literalState (s : Scanner) (read : List Byte → Option (List Byte)) (token : Token) :
    Except Fault (Scanner ⊕ Token × Scanner) :=
  if s.tokPtr ≤ s.text.length then
    match read (s.text.drop s.tokPtr) with
    | some tok => .ok (.inr (token,
        { s with tokPtr := s.tokPtr + tok.length + 1, yytext := tok, nextState := .start }))
    | none => .ok (.inl { s with state := .char })
  else .error .pastEnd

def notNewline (c : Byte) : Bool := c ≠ 10 && c ≠ 0

def commentState (s : Scanner) : Except Fault (Scanner ⊕ Token × Scanner) := do
  let s ← s.getWhile notNewline
  .ok (.inl { s.unget with state := .start })

/-- A comment between `/*` and its end, or a division. -/
def longCommentState (s : Scanner) : Except Fault (Scanner ⊕ Token × Scanner) := do
  let peek ← readAt s.text s.tokPtr
  if peek ≠ 42 then .ok (.inl { s with state := .char })
  else
    match commentLength (s.text.drop (s.tokPtr + 1)) with
    | some n => .ok (.inl { s with tokPtr := s.tokPtr + 1 + n, c := 42, state := .start })
    | none => .ok (.inr (.endOfInput, { s with tokPtr := s.text.length + 1, c := 0 }))

def charState (s : Scanner) : Except Fault (Scanner ⊕ Token × Scanner) := do
  let s := { s with
    tokPtr := s.tokStart
    nextState := if s.c = 41 then .start else s.nextState }
  let s ← s.get
  .ok (.inr (.char s.c, s))

def realOrPointState (s : Scanner) : Except Fault (Scanner ⊕ Token × Scanner) := do
  let peek ← readAt s.text s.tokPtr
  .ok (.inl { s with state := if isdigit peek then .real else .char })

def step (s : Scanner) : Except Fault (Scanner ⊕ Token × Scanner) :=
  match s.state with
  | .allowSignedNumber => s.startState
  | .start => s.startState
  | .ident => s.identState
  | .number => s.numberState
  | .signedNumber => s.signedNumberState
  | .intOrReal => s.intOrRealState
  | .real => s.realState
  | .cmpOp => s.cmpOpState
  | .string => s.literalState readTextLiteral (.string s.inSql)
  | .cCode => s.literalState readCCode .ccode
  | .comment => s.commentState
  | .longComment => s.longCommentState
  | .char => s.charState
  | .realOrPoint => s.realOrPointState
  | .eol => .ok (.inr (.endOfInput, { s with nextState := .finish }))
  | .finish => .ok (.inr (.zero, s))
  -- no case
  | .bool => .ok (.inl s)
  | .escape => .ok (.inl s)
  | .identSep => .ok (.inl s)
  | .identStart => .ok (.inl s)
  | .completeIdent => .ok (.inl s)

/-- `while(1)`; the fuel is the number of passes. -/
def run : Nat → Scanner → Option (Except Fault (Token × Scanner))
  | 0, _ => none
  | n + 1, s =>
    match s.step with
    | .ok (.inl s) => run n s
    | .ok (.inr r) => some (.ok r)
    | .error e => some (.error e)

def enter (s : Scanner) : Scanner :=
  { s with
    prevState := s.nextState
    state := s.nextState
    nextState := .allowSignedNumber
    tokStart := s.tokPtr
    lastTokenIsKeyword := false }

def yylex (n : Nat) (s : Scanner) : Option (Except Fault (Token × Scanner)) := run n s.enter

end Scanner

end StreamMill.Lex
