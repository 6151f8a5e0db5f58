import StreamMill.ImDb.Hash

/-!
# StreamMill.Lex.Bytes

The characters of the scanner (`lex.cc`). A `char` is signed here, so a byte from 128 on is
negative: in the C locale it belongs to none of the classes of characters, and as an index it is in
front of an array.
-/

namespace StreamMill.Lex

open ImDb (Byte)

def isdigit (c : Byte) : Bool := 48 ≤ c.toNat && c.toNat ≤ 57

def isalpha (c : Byte) : Bool :=
  (65 ≤ c.toNat && c.toNat ≤ 90) || (97 ≤ c.toNat && c.toNat ≤ 122)

def isalnum (c : Byte) : Bool := isalpha c || isdigit c

def isgraph (c : Byte) : Bool := 33 ≤ c.toNat && c.toNat ≤ 126

/-- The lower-case letter, as `strcasecmp` compares it. -/
def lower (c : Byte) : Nat := if 65 ≤ c.toNat && c.toNat ≤ 90 then c.toNat + 32 else c.toNat

inductive LexState
  | start | char | ident | identSep | identStart | completeIdent | signedNumber | real | cmpOp
  | string | comment | finish | allowSignedNumber | number | intOrReal | realOrPoint | bool | eol
  | escape | longComment | cCode
  deriving DecidableEq

def LexState.ofCode : Nat → LexState
  | 0 => .start
  | 1 => .char
  | 2 => .ident
  | 3 => .identSep
  | 4 => .identStart
  | 5 => .completeIdent
  | 6 => .signedNumber
  | 7 => .real
  | 8 => .cmpOp
  | 9 => .string
  | 10 => .comment
  | 11 => .finish
  | 12 => .allowSignedNumber
  | 13 => .number
  | 14 => .intOrReal
  | 15 => .realOrPoint
  | 16 => .bool
  | 17 => .eol
  | 18 => .escape
  | 19 => .longComment
  | _ => .cCode

def stateMap : List Nat :=
  [17, 1, 1, 1, 1, 1, 1, 1, 1, 1, 1, 1, 1, 1, 1, 1,
   1, 1, 1, 1, 1, 1, 1, 1, 1, 1, 1, 1, 1, 1, 1, 1,
   1, 8, 9, 10, 1, 1, 16, 9, 1, 1, 1, 6, 1, 6, 15, 19,
   13, 13, 13, 13, 13, 13, 13, 13, 13, 13, 1, 1, 8, 8, 8, 1,
   20, 2, 2, 2, 2, 2, 2, 2, 2, 2, 2, 2, 2, 2, 2, 2,
   2, 2, 2, 2, 2, 2, 2, 2, 2, 2, 2, 1, 18, 1, 1, 2,
   1, 2, 2, 2, 2, 2, 2, 2, 2, 2, 2, 2, 2, 2, 2, 2,
   2, 2, 2, 2, 2, 2, 2, 2, 2, 2, 2, 1, 16, 1, 1, 1,
   1, 1, 1, 1, 1, 1, 1, 1, 1, 1, 1, 1, 1, 1, 1, 1,
   1, 1, 1, 1, 1, 1, 1, 1, 1, 1, 1, 1, 1, 1, 1, 1,
   1, 1, 1, 1, 1, 1, 1, 1, 1, 1, 1, 1, 1, 1, 1, 1,
   1, 1, 1, 1, 1, 1, 1, 1, 1, 1, 1, 1, 1, 1, 1, 1,
   1, 1, 1, 1, 1, 1, 1, 1, 1, 1, 1, 1, 1, 1, 1, 1,
   1, 1, 1, 1, 1, 1, 1, 1, 1, 1, 1, 1, 1, 1, 1, 1,
   1, 1, 1, 1, 1, 1, 1, 1, 1, 1, 1, 1, 1, 1, 1, 1,
   1, 1, 1, 1, 1, 1, 1, 1, 1, 1, 1, 1, 1, 1, 1, 0]

/-- `(lex_state_t)state_map[c]`; `none` in front of the array. -/
def stateOf (c : Byte) : Option LexState :=
  if c.toNat < 128 then some (.ofCode (stateMap.getD c.toNat 0)) else none

theorem stateOf_graph : ∀ c : Byte, isgraph c = true → stateOf c = some
    (if isdigit c then .number
    else if isalpha c || c = 95 then .ident
    else if c = 43 || c = 45 then .signedNumber
    else if c = 33 || c = 60 || c = 61 || c = 62 then .cmpOp
    else if c = 34 || c = 39 then .string
    else if c = 35 then .comment
    else if c = 38 || c = 124 then .bool
    else if c = 46 then .realOrPoint
    else if c = 47 then .longComment
    else if c = 64 then .cCode
    else if c = 92 then .escape
    else .char) := by
  decide +kernel

theorem stateOf_comment : ∀ c : Byte, stateOf c = some .comment → c = 35 := by
  decide +kernel

theorem stateOf_longComment : ∀ c : Byte, stateOf c = some .longComment → c = 47 := by
  decide +kernel

end StreamMill.Lex
