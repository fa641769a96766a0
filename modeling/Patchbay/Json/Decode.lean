import Patchbay.Fault
import Patchbay.Json.Reader

/-!
# Taking a document apart

A decoder turns a part of a document into a value of the domain or fails with a `Flaw`. Decoders go
through a document in its order, so that of two flaws the earlier one is reported. A record may be
written as an object, whose unknown fields are skipped and whose known fields stand once, or as an
array that gives the fields in their order and may leave off optional ones at the end. Some records
take up all their fields before they look into them; what they keep may name the members of an
enumeration in more ways than a text does.
-/

namespace Patchbay.Json

abbrev Decoder (α : Type) := Json → Except Flaw α

def asText : Decoder String
  | text s => .ok s
  | _ => .error .form

def asBool : Decoder Bool
  | bool b => .ok b
  | _ => .error .form

def asInt64 : Decoder Int64
  | int n =>
    if Int64.minValue.toInt ≤ n ∧ n ≤ Int64.maxValue.toInt then .ok (Int64.ofInt n)
    else .error .form
  | _ => .error .form

def asNat (bound : Nat) : Decoder Nat
  | int n => if 0 ≤ n ∧ n < bound then .ok n.toNat else .error .form
  | _ => .error .form

def asByte : Decoder UInt8 := fun j =>
  (asNat 256 j).map UInt8.ofNat

def asDouble : Decoder Double
  | int n => .ok (Double.ofInt n)
  | double d => .ok d
  | _ => .error .form

def asList (item : Decoder α) : Decoder (List α)
  | array items => items.mapM item
  | _ => .error .form

def asOption (item : Decoder α) : Decoder (Option α)
  | null => .ok none
  | j => (item j).map some

/-- Where a part comes from: straight from a text, or out of a record that was taken up whole. -/
inductive Origin
  | direct
  | kept

/-- The name of a member of an enumeration, or an object that holds the name and nothing: `null`, and
in a kept record also an empty object. -/
def memberName? : Origin → Json → Option String
  | _, text s => some s
  | _, object [(s, null)] => some s
  | .kept, object [(s, object [])] => some s
  | _, _ => none

def asMember (ofName? : String → Option α) (origin : Origin) : Decoder α := fun j =>
  match (memberName? origin j).bind ofName? with
  | some a => .ok a
  | none => .error .form

/-- A member of an enumeration that says which record follows: its name, and in a kept record also its
place in the list of members. -/
def asTag (ofName? : String → Option α) (members : List α) (origin : Origin) : Decoder α := fun j =>
  let member? := match origin, j with
    | _, text s => ofName? s
    | .kept, int n => if 0 ≤ n then members[n.toNat]? else none
    | _, _ => none
  match member? with
  | some a => .ok a
  | none => .error .form

def skip (j : Json) : Except Flaw Unit :=
  if j.isWhole then .ok () else .error .form

def once (item : Decoder α) (seen : Option α) (j : Json) : Except Flaw (Option α) :=
  match seen with
  | some _ => .error .form
  | none => (item j).map some

def required : Option α → Except Flaw α
  | some a => .ok a
  | none => .error .form

def foldFields (step : δ → String → Json → Except Flaw δ) (start : δ) (fields : List (String × Json)) :
    Except Flaw δ :=
  fields.foldlM (fun draft (key, j) => if j.isMisnamed then .error .form else step draft key j) start

/-- Takes up the fields of a record, written as an object or as an array in the order of `names`. -/
def foldRecord (names : List String) (step : δ → String → Json → Except Flaw δ) (start : δ) :
    Decoder δ
  | object fields => foldFields step start fields
  | array items => do
    let draft ← foldFields step start (names.zip items)
    if names.length < items.length then throw .form
    return draft
  | _ => .error .form

def decode (decoder : Decoder α) (s : String) : Except Flaw α :=
  let (j, rest) := read s.toList
  match decoder j with
  | .error flaw => .error flaw
  | .ok a => if rest.any (·.all isBlank) then .ok a else .error .form

end Patchbay.Json
