import StreamMill.Lex.Bytes
import StreamMill.Lib.BinarySearch

/-!
# StreamMill.Lex.Keywords

The tables of keywords, and `findKeyword`, which looks a token up in them without regard to case.
The names of functions and aggregates are looked up only before a parenthesis. `sym_compare` copies
the token into a buffer of 100 bytes.
-/

namespace StreamMill.Lex

open ImDb (Byte)
open Lib (bsearch)

/-- `symtab_t`, with the name of the token in the parser. -/
structure Symtab where
  name : String
  tok : String

def funcsym : List Symtab :=
  [⟨"abs", "BF_ABS"⟩, ⟨"case", "BF_CASE"⟩, ⟨"length", "BF_LENGTH"⟩, ⟨"ltrim", "BF_LTRIM"⟩,
   ⟨"max", "BF_MAX"⟩, ⟨"min", "BF_MIN"⟩, ⟨"oldest", "BF_OLDEST"⟩, ⟨"rtrim", "BF_RTRIM"⟩,
   ⟨"sqrt", "BF_SQRT"⟩, ⟨"substr", "BF_SUBSTR"⟩, ⟨"trim", "BF_TRIM"⟩,
   ⟨"xmlattributes", "XML_ATTR"⟩, ⟨"xmlelement", "XML_XE"⟩]

def aggrsym : List Symtab :=
  [⟨"avg", "AGGR_AVG"⟩, ⟨"count", "AGGR_COUNT"⟩, ⟨"sum", "AGGR_SUM"⟩, ⟨"xmlagg", "AGGR_XA"⟩]

def sqlsym : List Symtab :=
  [⟨"++", "PLUSPLUS"⟩, ⟨"+=", "PLUSEQL"⟩, ⟨"--", "MINUSMINUS"⟩, ⟨"-=", "MINUSEQL"⟩,
   ⟨"->", "POINTER"⟩, ⟨"<=", "LE"⟩, ⟨"<>", "NE"⟩, ⟨">=", "GE"⟩, ⟨"aggregate", "AGGREGATE"⟩,
   ⟨"all", "ALL"⟩, ⟨"and", "AND_"⟩, ⟨"array", "ARRAY"⟩, ⟨"as", "AS"⟩, ⟨"asc", "ASC"⟩,
   ⟨"bag", "BAG"⟩, ⟨"break", "BREAK"⟩, ⟨"btree", "BTREE"⟩, ⟨"by", "BY"⟩,
   ⟨"caggregate", "CAGGREGATE"⟩, ⟨"case", "CASE"⟩, ⟨"char", "CHAR_SYM"⟩,
   ⟨"character", "CHAR_SYM"⟩, ⟨"create", "SQL_CREATE"⟩, ⟨"day", "DAY"⟩,
   ⟨"defferred", "DEFFERRED"⟩, ⟨"defined", "DEFINED"⟩, ⟨"delete", "SQL_DELETE"⟩, ⟨"desc", "DESC"⟩,
   ⟨"distinct", "DISTINCT"⟩, ⟨"double", "REAL_SYM"⟩, ⟨"drop", "SQL_DROP"⟩, ⟨"dynamic", "DYNAMIC"⟩,
   ⟨"else", "ELSE"⟩, ⟨"end", "END"⟩, ⟨"except", "EXCEPT"⟩, ⟨"exists", "EXISTS"⟩,
   ⟨"expire", "EXPIRE"⟩, ⟨"external", "EXTERNAL"⟩, ⟨"false", "FALSE"⟩, ⟨"float", "REAL_SYM"⟩,
   ⟨"flow", "FLOW"⟩, ⟨"from", "FROM"⟩, ⟨"function", "FUNCTION"⟩, ⟨"group", "GROUP"⟩,
   ⟨"hash", "HASH"⟩, ⟨"having", "HAVING"⟩, ⟨"heartbeat", "HEARTBEAT"⟩, ⟨"hour", "HOUR"⟩,
   ⟨"iext", "IEXT_SYM"⟩, ⟨"immediate", "IMMEDIATE"⟩, ⟨"in", "IN"⟩, ⟨"index", "INDEX"⟩,
   ⟨"initialize", "INITIALIZE"⟩, ⟨"insert", "SQL_INSERT"⟩, ⟨"int", "INT_SYM"⟩,
   ⟨"integer", "INT_SYM"⟩, ⟨"internal", "INTERNAL"⟩, ⟨"intersect", "INTERSECT"⟩, ⟨"into", "INTO"⟩,
   ⟨"inwindow", "INWINDOW"⟩, ⟨"is", "IS"⟩, ⟨"iterate", "ITERATE"⟩, ⟨"let", "LET"⟩,
   ⟨"like", "LIKE"⟩, ⟨"list", "LIST"⟩, ⟨"load", "SQL_LOAD"⟩, ⟨"local", "LOCAL"⟩,
   ⟨"memory", "MEMORY"⟩, ⟨"minute", "MINUTE"⟩, ⟨"modeltype", "MODELTYPE"⟩, ⟨"name", "NAME"⟩,
   ⟨"nil", "NIL"⟩, ⟨"nop", "NOP"⟩, ⟨"not", "NOT"⟩, ⟨"null", "NULLSYM"⟩, ⟨"of", "OF"⟩,
   ⟨"oid", "OID"⟩, ⟨"on", "ON"⟩, ⟨"or", "OR"⟩, ⟨"order", "ORDER"⟩, ⟨"ordered", "ORDERED"⟩,
   ⟨"over", "OVER"⟩, ⟨"parameters", "PARAMETERS"⟩, ⟨"partables", "PARTABLES"⟩,
   ⟨"partition", "PARTITION"⟩, ⟨"port", "PORT"⟩, ⟨"preceding", "PRECEDING"⟩,
   ⟨"primary", "PRIMARY"⟩, ⟨"produce", "PRODUCE"⟩, ⟨"range", "RANGE"⟩, ⟨"real", "REAL_SYM"⟩,
   ⟨"ref", "REF"⟩, ⟨"refresh", "REFRESH"⟩, ⟨"return", "RETURN"⟩, ⟨"rows", "ROWS"⟩,
   ⟨"rtree", "RTREE"⟩, ⟨"run", "RUN"⟩, ⟨"second", "SECOND"⟩, ⟨"select", "SQL_SELECT"⟩,
   ⟨"set", "SET"⟩, ⟨"sharedtables", "SHAREDTABLES"⟩, ⟨"slide", "SLIDE"⟩, ⟨"sorted", "SORTED"⟩,
   ⟨"source", "SOURCE"⟩, ⟨"stdout", "STDOUT"⟩, ⟨"stream", "STREAM"⟩, ⟨"system", "SYSTEM"⟩,
   ⟨"table", "TABLE"⟩, ⟨"target", "TARGET"⟩, ⟨"terminate", "TERMINATE"⟩, ⟨"then", "THEN"⟩,
   ⟨"timestamp", "TIMESTAMP_SYM"⟩, ⟨"to", "TO"⟩, ⟨"true", "TRUE"⟩, ⟨"type", "TYPE"⟩,
   ⟨"uda", "UDA"⟩, ⟨"union", "UNION"⟩, ⟨"unique", "UNIQUE"⟩, ⟨"unlimited", "UNLIMITED"⟩,
   ⟨"update", "SQL_UPDATE"⟩, ⟨"using", "USING"⟩, ⟨"values", "VALUES"⟩, ⟨"var", "VAR"⟩,
   ⟨"when", "WHEN"⟩, ⟨"where", "WHERE"⟩, ⟨"window", "WINDOW"⟩, ⟨"with", "WITH"⟩]

inductive Fault
  /-- The zero at the end is read past. -/
  | pastEnd
  /-- `state_map` is read in front of its beginning. -/
  | stateMap
  /-- The buffer of `sym_compare` is written past. -/
  | symBuf
  deriving DecidableEq

def strcasecmp : List Byte → List Byte → Ordering
  | [], [] => .eq
  | [], _ :: _ => .lt
  | _ :: _, [] => .gt
  | c :: cs, d :: ds =>
    if lower c < lower d then .lt else if lower d < lower c then .gt else strcasecmp cs ds

def Symtab.bytes (sym : Symtab) : List Byte := sym.name.toList.map fun ch => BitVec.ofNat 8 ch.toNat

/-- `sym_compare`; the token ends at a zero. -/
def symCompare (str : List Byte) (sym : Symtab) : Ordering :=
  strcasecmp (str.takeWhile (· ≠ 0)) sym.bytes

/-- `bsearch` over one of the tables, which calls `sym_compare` at least once. -/
def searchTable (str : List Byte) (table : List Symtab) : Except Fault (Option String) :=
  if 100 ≤ str.length then .error .symBuf
  else .ok ((bsearch (symCompare str) table).bind fun i => (table[i]?).map Symtab.tok)

/-- The byte at a pointer; the zero is behind the text. -/
def byteAt (text : List Byte) (p : Nat) : Byte := text.getD p 0

def readAt (text : List Byte) (p : Nat) : Except Fault Byte :=
  if p ≤ text.length then .ok (byteAt text p) else .error .pastEnd

/-- The first pointer from `p` on whose byte is not `f`: where a loop over these ends. -/
def endOf (f : Byte → Bool) (text : List Byte) (p : Nat) : Nat :=
  p + ((text.drop p).takeWhile f).length

def readEnd (f : Byte → Bool) (text : List Byte) (p : Nat) : Except Fault Nat :=
  if p ≤ text.length then .ok (endOf f text p) else .error .pastEnd

def copyToken (text : List Byte) (start finish : Nat) : List Byte :=
  (text.drop start).take (finish - start)

def blank (c : Byte) : Bool := c ≠ 0 && !isgraph c

def findKeyword (text : List Byte) (inSql : Bool) (tok lookahead : Nat) :
    Except Fault (Option String) := do
  let str := (text ++ [0]).drop tok |>.take (lookahead - tok)
  let s ← readEnd blank text lookahead
  let builtin ← if byteAt text s = 40 then do
      match ← searchTable str funcsym with
      | some tok => .ok (some tok)
      | none => searchTable str aggrsym
    else .ok none
  match builtin with
  | some tok => .ok (some tok)
  | none =>
    match ← searchTable str sqlsym with
    | some tok => .ok (some (if tok = "IN" && inSql then "SQL_IN" else tok))
    | none => .ok none

end StreamMill.Lex
