import Utu.Bstring
import Utu.Lib.LinkedForest

/-!
# Stackish nodes

Nodes live in an arena and point at each other by address, as the C structure
does. The union is read only under the tag that guards it, so tag and value are
one type. Doubles are abstract: the two library calls on them are parameters.
-/

namespace Utu.Stackish
open LinkedForest
set_option autoImplicit false

/-- `strtod` gives the value, the number of bytes read and whether it set `ERANGE`;
`format` is the output of `%f`. -/
structure DoubleLib (D : Type) where
  strtod : Bytes → D × Nat × Bool
  format : D → Bytes

/-- A library that reads no double, for inputs that have none. -/
def noDoubles : DoubleLib Unit := ⟨fun _ => ((), 0, false), fun _ => []⟩

inductive Value (D : Type) where
  | number (n : UInt64)
  | string (s : Option Bytes)
  | blob (s : Option Bytes)
  | float (x : D)
  | group
deriving DecidableEq, Repr

structure NodeData (D : Type) where
  name : Option Bytes
  value : Value D
deriving DecidableEq, Repr

abbrev Heap (D : Type) := Arena (NodeData D)

/-- The tree a `Node *` stands for, its siblings included. -/
abbrev Tree (D : Type) := Forest (NodeData D)

section Heap
variable {D : Type}

/-- `Node_create`, with `Node_new_number` and the other four as its values. -/
def nodeCreate (h : Heap D) (parent : Option Nat) (value : Value D) : Heap D :=
  create h parent ⟨none, value⟩

def nodeName (h : Heap D) (node : Nat) (name : Option Bytes) : Heap D :=
  match h[node]? with
  | some c => setData h node { c.data with name := name }
  | none => h

end Heap

/-! ## Serialisation -/

section Serialise
variable {D : Type} (lib : DoubleLib D)

/-- Append formatted text, and stop on the assertion that it worked. -/
def bformataAssert (str text : Bytes) : Run Bytes := do
  let (rc, str) ← bformata str text
  if rc then pure str else throw (.assertFailed "rc == BSTR_OK")

/-- The value part of a node; the return values of these appends are not looked at. -/
def catValue (str : Bytes) (sep : UInt8) (node : NodeData D) : Run Bytes :=
  match node.value with
  | .blob s => do
    let (_, str) ← bformata str (39 :: Decimal.print (blength s) ++ [58])
    let (_, str) ← bconcat str s
    let (_, str) ← bformata str [39, sep]
    pure str
  | .string s => do
    let (_, str) ← bformata str (34 :: cstr s ++ [34, sep])
    pure str
  | .number n => do
    let (_, str) ← bformata str (Decimal.print n.toNat ++ [sep])
    pure str
  | .float x => do
    let (_, str) ← bformata str (lib.format x ++ [sep])
    pure str
  | .group =>
    match node.name with
    | none => bformataAssert str [93, sep]
    | some name => if bchar name 0 = 64 then bformataAssert str [93, sep] else pure str

def catName (str : Bytes) (sep : UInt8) (node : NodeData D) : Run Bytes :=
  match node.name with
  | none => pure str
  | some name => bformataAssert str (cstr (some name) ++ [sep])

def catStart (str : Bytes) (sep : UInt8) (node : NodeData D) : Run Bytes :=
  match node.value with
  | .group => bformataAssert str [91, sep]
  | _ => pure str

/-- `Node_catbstr`; the fuel bounds the depth of the C recursion. -/
def nodeCatbstr (h : Heap D) : Nat → Bytes → Option Nat → UInt8 → Bool → Run Bytes
  | 0, _, _, _, _ => throw .outOfFuel
  | _ + 1, str, none, _, _ => pure str
  | fuel + 1, str, some d, sep, followSibs =>
    match h[d]? with
    | none => throw .badPointer
    | some node => do
      let str ← (if node.sibling.isSome && followSibs then
        nodeCatbstr h fuel str node.sibling sep followSibs else pure str)
      let str ← catStart str sep node.data
      let str ← (if node.child.isSome then nodeCatbstr h fuel str node.child sep true else pure str)
      let str ← catValue lib str sep node.data
      catName str sep node.data

/-- `Node_bstr`. A tree inside the heap is never deeper than the heap is long. -/
def nodeBstr (h : Heap D) (d : Option Nat) (followSibs : Bool) : Run Bytes := do
  if d.isNone then throw (.assertFailed "d cannot be NULL")
  let str ← nodeCatbstr lib h (h.length + 1) [] d 32 followSibs
  let (rc, str) := bconchar str 10
  if rc then pure str else throw (.assertFailed "failed to append separator char")

end Serialise

end Utu.Stackish
