import CssBuild.Glob.Basic

/-!
# CssBuild.Glob.Matching

Which paths a glob matches.

1. Paths are matched as UTF-8 bytes. A token takes some bytes from the start
   of a path; `Token.rests` lists what it can leave.
2. A glob matches a path that its tokens can use up, one after the other.
3. A class takes one byte: any byte of its characters. Of a range between
   characters of several bytes, the last byte of its low end and the first
   byte of its high end are the ends.
4. Branches of a choice that consist of nothing are left out; a choice that
   has no other branches takes nothing.
5. A glob that is just `**` matches everything.
-/

namespace CssBuild.Glob

/-- A path as bytes. -/
abbrev Bytes := List UInt8

/-- The separator of components. -/
def slash : UInt8 := 47

/-- The bytes of a text. -/
def bytesOf (s : List Char) : Bytes := s.flatMap String.utf8EncodeChar

/-- All ends of a list, itself first. -/
def tails (s : Bytes) : List Bytes :=
  match s with
  | [] => [[]]
  | b :: rest => (b :: rest) :: tails rest

/-- What follows each of the slashes. -/
def afterSlashes (s : Bytes) : List Bytes :=
  match s with
  | [] => []
  | b :: rest => if b = slash then rest :: afterSlashes rest else afterSlashes rest

/-- What any number of bytes other than the separator leave. -/
def starRests (s : Bytes) : List Bytes :=
  match s with
  | [] => [[]]
  | b :: rest => if b = slash then [b :: rest] else (b :: rest) :: starRests rest

/-- What some given bytes leave. -/
def literalRests (expected : Bytes) (s : Bytes) : List Bytes :=
  match expected, s with
  | [], s => [s]
  | _ :: _, [] => []
  | e :: es, b :: rest => if e = b then literalRests es rest else []

/-- Whether a byte is in the range between two characters. -/
def inRange (range : Char × Char) (b : UInt8) : Bool :=
  let low := String.utf8EncodeChar range.1
  let high := String.utf8EncodeChar range.2
  if range.1 = range.2 then low.contains b
  else
    low.dropLast.contains b || high.tail.contains b ||
      (match low.getLast?, high.head? with
        | some l, some h => l ≤ b && b ≤ h
        | _, _ => false)

/-- Whether a byte is in a class. -/
def inClass (negated : Bool) (ranges : List (Char × Char)) (b : UInt8) : Bool :=
  negated != ranges.any fun range => inRange range b

mutual

/-- Whether a token consists of nothing. -/
def Token.isVoid : Token → Bool
  | .choice branches => areVoid branches
  | _ => false

/-- Whether a branch consists of nothing. -/
def isVoidBranch : List Token → Bool
  | [] => true
  | token :: rest => token.isVoid && isVoidBranch rest

/-- Whether all branches consist of nothing. -/
def areVoid : List (List Token) → Bool
  | [] => true
  | branch :: rest => isVoidBranch branch && areVoid rest

end

mutual

/-- What a token can leave of a path. -/
def Token.rests : Token → Bytes → List Bytes
  | .literal c, s => literalRests (String.utf8EncodeChar c) s
  | .any, s =>
    match s with
    | [] => []
    | b :: rest => if b = slash then [] else [rest]
  | .star, s => starRests s
  | .leading, s => s :: afterSlashes s
  | .trailing, s =>
    match s with
    | [] => []
    | b :: rest => if b = slash then tails rest else []
  | .between, s =>
    match s with
    | [] => []
    | b :: rest => if b = slash then rest :: afterSlashes rest else []
  | .oneOf negated ranges, s =>
    match s with
    | [] => []
    | b :: rest => if inClass negated ranges b then [rest] else []
  | .choice branches, s => if areVoid branches then [s] else branchRests branches s

/-- What tokens can leave of some paths, one after the other. -/
def tokenRests : List Token → List Bytes → List Bytes
  | [], paths => paths
  | token :: rest, paths => tokenRests rest ((paths.flatMap token.rests).eraseDups)

/-- What some branches can leave of a path. -/
def branchRests : List (List Token) → Bytes → List Bytes
  | [], _ => []
  | branch :: rest, s =>
    (if isVoidBranch branch then [] else tokenRests branch [s]) ++ branchRests rest s

end

/-- Whether a glob consists of `**` alone. -/
def Compiled.isEverything (glob : Compiled) : Bool :=
  match glob.tokens with
  | [.leading] => true
  | _ => false

/-- Whether a glob matches a path. -/
def Compiled.matches (glob : Compiled) (path : String) : Bool :=
  glob.isEverything || (tokenRests glob.tokens [bytesOf path.toList]).contains []

end CssBuild.Glob
