import CssBuild.Decimal.Double
import CssBuild.OrderedMap

/-!
# CssBuild.Json.Basic

The tree into which every configuration format is read.

1. A number is an integer from `-2 ^ 63` up to below `2 ^ 64`, held exactly,
   or a finite double.
2. An object holds its entries in order. What a reader finds in a text may
   repeat a key; `Json.merged` gives each key one entry, in the place where
   it first came and with its last value, at every depth.
3. Equality of trees (`Json.same`) does not look at the order of entries and
   takes the two zeros as equal.
-/

namespace CssBuild

/-- A number of a document. -/
inductive Number where
  /-- An integer, exact. -/
  | integer (value : Int) (bounded : -0x8000000000000000 ≤ value ∧ value < 0x10000000000000000)
  /-- Any other number. -/
  | double (value : Double)
deriving DecidableEq

/-- A tree of values. -/
inductive Json where
  /-- The absent value. -/
  | null
  /-- A truth value. -/
  | bool (value : Bool)
  /-- A number. -/
  | number (value : Number)
  /-- A text. -/
  | string (value : String)
  /-- A sequence. -/
  | array (items : List Json)
  /-- A mapping, its entries in order. -/
  | object (entries : List (String × Json))
deriving Inhabited

/-! ## Numbers -/

namespace Number

/-- An integer, if it is in range. -/
def ofInt? (value : Int) : Option Number :=
  if h : -0x8000000000000000 ≤ value ∧ value < 0x10000000000000000 then some (.integer value h)
  else none

/-- The nearest double to an integer. -/
def ofIntRounded? (value : Int) : Option Number :=
  (Double.ofDecimal? (value < 0) value.natAbs 0).map .double

/-- Equality of values: an integer never equals a double, and the two zeros of doubles are
equal. -/
def same : Number → Number → Bool
  | .integer a _, .integer b _ => a == b
  | .double a, .double b => a.valueEq b
  | _, _ => false

end Number

namespace Json

/-- An object that has one entry. -/
def single (key : String) (value : Json) : Json := .object [(key, value)]

/-- An array of texts. -/
def strings (values : List String) : Json := .array (values.map .string)

/-- The name of a value's kind. -/
def kind : Json → String
  | null => "null"
  | bool _ => "boolean"
  | number _ => "number"
  | string _ => "string"
  | array _ => "array"
  | object _ => "object"

/-- The text of a string value. -/
def text? : Json → Option String
  | string s => some s
  | _ => none

/-- The items of an array. -/
def items? : Json → Option (List Json)
  | array items => some items
  | _ => none

/-- The entries of an object. -/
def entries? : Json → Option (List (String × Json))
  | object entries => some entries
  | _ => none

/-- The value of a key of an object. -/
def field? (tree : Json) (key : String) : Option Json :=
  match tree with
  | object entries => Entries.find? entries key
  | _ => none

/-! ## Repeated keys -/

mutual

/-- The tree in which each mapping has one entry a key, in its first place and with its last
value. -/
def merged : Json → Json
  | null => null
  | bool b => bool b
  | number n => number n
  | string s => string s
  | array items => array (mergedItems items)
  | object entries => object (Entries.merge (mergedEntries entries))

/-- `merged`, item by item. -/
def mergedItems : List Json → List Json
  | [] => []
  | item :: rest => merged item :: mergedItems rest

/-- `merged`, on the value of each entry. -/
def mergedEntries : List (String × Json) → List (String × Json)
  | [] => []
  | (key, value) :: rest => (key, merged value) :: mergedEntries rest

end

mutual

/-- No mapping of the tree repeats a key. -/
def Distinct : Json → Prop
  | null | bool _ | number _ | string _ => True
  | array items => DistinctItems items
  | object entries => (Entries.keys entries).Nodup ∧ DistinctEntries entries

/-- `Distinct`, of every item. -/
def DistinctItems : List Json → Prop
  | [] => True
  | item :: rest => Distinct item ∧ DistinctItems rest

/-- `Distinct`, of the value of every entry. -/
def DistinctEntries : List (String × Json) → Prop
  | [] => True
  | (_, value) :: rest => Distinct value ∧ DistinctEntries rest

end

/-! ## Depth -/

mutual

/-- How many arrays and objects are nested in each other. -/
def depth : Json → Nat
  | null | bool _ | number _ | string _ => 0
  | array items => depthItems items + 1
  | object entries => depthEntries entries + 1

/-- The greatest depth of an item. -/
def depthItems : List Json → Nat
  | [] => 0
  | item :: rest => max (depth item) (depthItems rest)

/-- The greatest depth of an entry's value. -/
def depthEntries : List (String × Json) → Nat
  | [] => 0
  | (_, value) :: rest => max (depth value) (depthEntries rest)

end

/-! ## Equality of trees -/

mutual

/-- Equality of values, the order of entries aside. The entries of `b` are looked up by the keys
of `a`, so both are taken to repeat no key. -/
def same : Json → Json → Bool
  | null, null => true
  | bool a, bool b => a == b
  | number a, number b => a.same b
  | string a, string b => a == b
  | array a, array b => sameItems a b
  | object a, object b => a.length == b.length && sameEntries a b
  | _, _ => false

/-- `same`, item by item. -/
def sameItems : List Json → List Json → Bool
  | [], [] => true
  | a :: as, b :: bs => same a b && sameItems as bs
  | _, _ => false

/-- Each entry of the first list has an equal one in the second. -/
def sameEntries : List (String × Json) → List (String × Json) → Bool
  | [], _ => true
  | (key, value) :: rest, other =>
    (match Entries.find? other key with
      | some found => same value found
      | none => false) && sameEntries rest other

end

end Json

end CssBuild
