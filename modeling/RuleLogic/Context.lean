import RuleLogic.Value
import RuleLogic.Entries

/-!
Contexts: what a reference can look up. Nested data is flattened to paths such as `user.roles[0]`,
kept in the order of their first appearance; a path that comes again takes the later value. A
context exports to an object that carries a marker, and marked objects are read back entry by entry.
-/
namespace RuleLogic

/-- Values by path, in order of insertion, each path once. -/
@[ext] structure Context where
  entries : List (String × Value)
  nodup : (Entries.names entries).Nodup

namespace Context

def empty : Context := ⟨[], .nil⟩

instance : Inhabited Context := ⟨empty⟩

def insert (c : Context) (path : String) (value : Value) : Context :=
  ⟨Entries.put path value c.entries, Entries.nodup_put path value c.nodup⟩

def ofPairs (pairs : List (String × Value)) : Context :=
  ⟨Entries.ofPairs pairs, Entries.nodup_ofPairs pairs⟩

def get? (c : Context) (path : String) : Option Value := c.entries.lookup path

def contains (c : Context) (path : String) : Bool := (c.get? path).isSome

def size (c : Context) : Nat := c.entries.length

@[simp] theorem get?_empty (path : String) : empty.get? path = none := rfl

@[simp] theorem get?_insert (c : Context) (path p : String) (value : Value) :
    (c.insert path value).get? p = if p = path then some value else c.get? p :=
  Entries.lookup_put ..

theorem ofPairs_eq_foldl_insert (pairs : List (String × Value)) :
    ofPairs pairs = pairs.foldl (fun c e => c.insert e.1 e.2) empty := by
  have h : ∀ (c : Context), (pairs.foldl (fun c e => c.insert e.1 e.2) c).entries =
      pairs.foldl (fun es e => Entries.put e.1 e.2 es) c.entries := by
    induction pairs with
    | nil => exact fun _ => rfl
    | cons e rest ih => exact fun c => ih (c.insert e.1 e.2)
  exact Context.ext (by rw [h]; exact Entries.ofPairs_eq_foldl pairs)

def sameInOrder : List (String × Value) → List (String × Value) → Bool
  | [], [] => true
  | (p, v) :: rest, (q, w) :: others => p == q && v.same w && sameInOrder rest others
  | _, _ => false

/-- Same values under the same paths, in whatever order. Paths in the same order need no search. -/
def same (c d : Context) : Bool :=
  sameInOrder c.entries d.entries || c.size == d.size && c.entries.all fun (path, v) =>
    match d.get? path with
    | some w => v.same w
    | none => false

def maxDepth : Nat := 128

def memberPath (path key : String) : String := if path == "" then key else path ++ "." ++ key

def itemPath (path : String) (index : Nat) : String :=
  path ++ "[" ++ String.ofList (Nat.toDigits 10 index) ++ "]"

mutual

/-- The scalars of a document with their paths, from left to right. -/
def leaves (path : String) (depth : Nat) (data : Json) : List (String × Value) :=
  if maxDepth < depth then []
  else match data with
    | .object members => memberLeaves path (depth + 1) members
    | .array items => itemLeaves path (depth + 1) 0 items
    | scalar => ((Value.ofScalar? scalar).map fun v => (path, v)).toList

def memberLeaves (path : String) (depth : Nat) : List (String × Json) → List (String × Value)
  | [] => []
  | (key, data) :: rest =>
    leaves (memberPath path key) depth data ++ memberLeaves path depth rest

def itemLeaves (path : String) (depth index : Nat) : List Json → List (String × Value)
  | [] => []
  | data :: rest =>
    leaves (itemPath path index) depth data ++ itemLeaves path depth (index + 1) rest

end

def marker : String := "_flattenContext"

def isMarked (members : List (String × Json)) : Bool :=
  match members.lookup marker with
  | some (.string s) => s == marker
  | _ => false

def exported (members : List (String × Json)) : List (String × Value) :=
  (members.filter (·.1 != marker)).filterMap fun (path, data) =>
    (Value.ofScalar? data).map fun v => (path, v)

def ofJson? : Json → Option Context
  | .null => none
  | .object members =>
    if isMarked members then some (ofPairs (exported members))
    else some (ofPairs (leaves "" 0 (.object members)))
  | data => some (ofPairs (leaves "" 0 data))

/-- An object of the entries, the marker at its own path or at the end. -/
def toJson (c : Context) : Json :=
  .object (Entries.put marker (.string marker) (c.entries.map fun (path, v) => (path, v.toJson)))

end Context

end RuleLogic
