import CssBuild.Glob.Basic

/-!
# CssBuild.Glob.Reader

Texts as globs.

1. The tokens of a branch are held last first, so that `**/` can replace the
   slash before it.
2. Where a class that does not end is allowed, its bracket is a character as
   any other, and so are the brackets after it.
-/

namespace CssBuild.Glob

/-! ## Classes -/

/-- The ranges of a class while it is read, the last one first, and whether a dash is waiting for
the end of a range. -/
structure ClassState where
  ranges : List (Char × Char)
  dash : Bool

/-- The class so far with one more character. -/
def ClassState.add (state : ClassState) (c : Char) : Except Fault ClassState :=
  match state.dash, state.ranges with
  | true, (low, _) :: rest =>
    if c < low then .error (.invalidRange low c) else .ok ⟨(low, c) :: rest, false⟩
  | _, ranges => .ok ⟨(c, c) :: ranges, false⟩

/-- The ranges of a class that has ended. -/
def ClassState.close (state : ClassState) : List (Char × Char) :=
  (if state.dash then ('-', '-') :: state.ranges else state.ranges).reverse

/-- Reads a class up to its bracket. A bracket or a dash that comes first stands for itself. -/
def classBody (first : Bool) (state : ClassState) :
    List Char → Except Fault (List (Char × Char) × List Char)
  | [] => .error .unclosedClass
  | c :: rest =>
    if c = ']' ∧ !first then .ok (state.close, rest)
    else if c = '-' ∧ !first ∧ !state.dash then classBody false ⟨state.ranges, true⟩ rest
    else match state.add c with
      | .ok state => classBody false state rest
      | .error fault => .error fault

/-- Reads a class after its opening bracket. -/
def readClass (s : List Char) : Except Fault (Token × List Char) :=
  let (negated, start) := match s with
    | c :: rest => if c = '!' ∨ c = '^' then (true, rest) else (false, s)
    | [] => (false, s)
  (classBody true ⟨[], false⟩ start).map fun found => (.oneOf negated found.1, found.2)

/-! ## Choices -/

/-- A choice while it is read. -/
structure Open where
  /-- The tokens before it, last first. -/
  before : List Token
  /-- Its branches that have ended, last first. -/
  branches : List (List Token)

/-- A glob while it is read. -/
structure State where
  /-- The tokens of the branch under way, last first. -/
  tokens : List Token
  /-- The choices that have not ended, the innermost first. -/
  choices : List Open
  /-- Whether brackets stand for themselves. -/
  plainBrackets : Bool

namespace State

/-- Before anything is read. -/
def start : State := ⟨[], [], false⟩

/-- With one more token. -/
def push (state : State) (token : Token) : State :=
  { state with tokens := token :: state.tokens }

/-- At the start of a choice. -/
def openChoice (state : State) : State :=
  ⟨[], ⟨state.tokens, []⟩ :: state.choices, state.plainBrackets⟩

/-- At the start of the next branch, or after a plain comma outside of all choices. -/
def comma (state : State) : State :=
  match state.choices with
  | [] => state.push (.literal ',')
  | choice :: outer =>
    ⟨[], ⟨choice.before, state.tokens.reverse :: choice.branches⟩ :: outer, state.plainBrackets⟩

/-- At the end of a choice. -/
def closeChoice (state : State) : Except Fault State :=
  match state.choices with
  | [] => .error .unopenedChoice
  | choice :: outer =>
    .ok ⟨.choice (state.tokens.reverse :: choice.branches).reverse :: choice.before, outer,
      state.plainBrackets⟩

/-- With a token for components in place of the slash before it. One such token right after
another adds nothing, if that one starts or ends a branch. -/
def replaceSlash (state : State) (token : Token) : State :=
  match state.tokens with
  | .leading :: _ => state
  | .trailing :: _ => state
  | _ :: rest => { state with tokens := token :: rest }
  | [] => { state with tokens := [token] }

/-- With two stars that are not a component. -/
def twoStars (state : State) : State := (state.push .star).push .star

end State

/-! ## Stars -/

/-- Reads the rest of `**`, `previous` being the character before it. -/
def readStars (state : State) (previous : Option Char) (s : List Char) : State × List Char :=
  if state.tokens.isEmpty then
    match s with
    | [] => (state.push .leading, [])
    | '/' :: rest => (state.push .leading, rest)
    | _ => (state.twoStars, s)
  else if previous ≠ some '/' ∧
      (state.choices.isEmpty ∨ (previous ≠ some ',' ∧ previous ≠ some '{')) then
    (state.twoStars, s)
  else
    match s with
    | [] => (state.replaceSlash .trailing, [])
    | c :: rest =>
      if (c = ',' ∨ c = '}') ∧ !state.choices.isEmpty then (state.replaceSlash .trailing, s)
      else if c = '/' then (state.replaceSlash .between, rest)
      else (state.twoStars, s)

/-- The character before what is left of a text, if any of it has been read. -/
def lastRead (read rest : List Char) : Option Char :=
  (read.take (read.length - rest.length)).getLast?

/-! ## Whole patterns -/

/-- Reads a pattern; each step takes one unit of fuel, and the number of characters is enough.
`lenient` allows classes that do not end. -/
def readFrom (lenient : Bool) :
    (fuel : Nat) → State → (previous : Option Char) → List Char → Except Fault State
  | 0, state, _, _ => .ok state
  | _ + 1, state, _, [] => .ok state
  | fuel + 1, state, previous, c :: s =>
    if c = '?' then readFrom lenient fuel (state.push .any) (some c) s
    else if c = '*' then
      match s with
      | '*' :: rest =>
        let (state, after) := readStars state previous rest
        readFrom lenient fuel state (lastRead (c :: s) after) after
      | _ => readFrom lenient fuel (state.push .star) (some c) s
    else if c = '[' ∧ !state.plainBrackets then
      match readClass s with
      | .ok (token, rest) => readFrom lenient fuel (state.push token) (some ']') rest
      | .error fault =>
        if lenient ∧ fault = .unclosedClass then
          readFrom lenient fuel { state.push (.literal c) with plainBrackets := true } (some c) s
        else .error fault
    else if c = '{' then readFrom lenient fuel state.openChoice (some c) s
    else if c = '}' then
      match state.closeChoice with
      | .ok state => readFrom lenient fuel state (some c) s
      | .error fault => .error fault
    else if c = ',' then readFrom lenient fuel state.comma (some c) s
    else if c = '\\' then
      match s with
      | [] => .error .danglingEscape
      | d :: rest => readFrom lenient fuel (state.push (.literal d)) (some d) rest
    else readFrom lenient fuel (state.push (.literal c)) (some c) s

/-- Compiles a pattern. -/
def compileChars (lenient : Bool) (pattern : List Char) : Except Fault Compiled := do
  let state ← readFrom lenient (pattern.length + 1) State.start none pattern
  if state.choices.isEmpty then .ok ⟨state.tokens.reverse⟩ else .error .unclosedChoice

/-- Compiles a pattern in which every class ends. -/
def compile (pattern : String) : Except Fault Compiled := compileChars false pattern.toList

end CssBuild.Glob
