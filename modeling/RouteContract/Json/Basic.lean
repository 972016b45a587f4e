import RouteContract.Decimal.Binary64
import RouteContract.Text.Basic

/-!
# JSON values

JSON data with ordered objects. A number is a whole number or a binary floating point number; the
two are never identified, so `1` and `1.0` are different values. An object is the list of its
fields in order; `put` keeps the position of a name that is already there and replaces its value.
-/

namespace RouteContract

/-- A JSON number. -/
inductive Number where
  | int (value : Int)
  | float (value : Binary64)
deriving DecidableEq, Repr, Inhabited

/-- A JSON value; the fields of an object are in order. -/
inductive Json where
  | null
  | bool (value : Bool)
  | num (value : Number)
  | str (value : String)
  | arr (items : List Json)
  | obj (fields : List (String × Json))
deriving Repr, Inhabited, BEq

/-- A number as JSON: a whole number below nine quadrillion as such, an infinity or NaN as null. -/
def Json.ofBinary64 (x : Binary64) : Json :=
  match x.whole? with
  | some n => if n.natAbs < 9000000000000000 then .num (.int n) else .num (.float x)
  | none => if x.isFinite then .num (.float x) else .null

/-- An association list with an order: the entries of an object, a path table, a schema table. -/
abbrev Entries (α : Type) := List (String × α)

namespace Entries

/-- The value under a name. -/
def get? {α : Type} (name : String) : Entries α → Option α
  | [] => none
  | (key, value) :: rest => if key = name then some value else get? name rest

/-- Put a value under a name: in place when the name is there, else at the end. -/
def put {α : Type} (name : String) (value : α) : Entries α → Entries α
  | [] => [(name, value)]
  | (key, old) :: rest =>
    if key = name then (key, value) :: rest else (key, old) :: put name value rest

/-- Change the value under a name, if it is there. -/
def change {α : Type} (name : String) (f : α → α) : Entries α → Entries α
  | [] => []
  | (key, old) :: rest =>
    if key = name then (key, f old) :: rest else (key, old) :: change name f rest

/-- Whether a name occurs. -/
def has {α : Type} (name : String) (entries : Entries α) : Bool := (entries.get? name).isSome

/-- The names in order. -/
def names {α : Type} (entries : Entries α) : List String := entries.map Prod.fst

/-- Put all entries of a second list, in order. -/
def putAll {α : Type} (entries more : Entries α) : Entries α :=
  more.foldl (fun acc (name, value) => acc.put name value) entries

/-- The entries other than those of a name. -/
def erase {α : Type} (name : String) (entries : Entries α) : Entries α :=
  entries.filter fun (key, _) => key ≠ name

@[simp] theorem get?_nil {α : Type} (name : String) : get? name ([] : Entries α) = none := rfl

theorem get?_put {α : Type} (entries : Entries α) (name other : String) (value : α) :
    (entries.put name value).get? other =
      if name = other then some value else entries.get? other := by
  induction entries with
  | nil => by_cases h : name = other <;> simp [put, get?, h]
  | cons entry rest ih =>
    obtain ⟨key, old⟩ := entry
    grind [put, get?]

end Entries

end RouteContract
