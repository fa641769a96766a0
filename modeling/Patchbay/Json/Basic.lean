import Patchbay.Double.Basic

/-!
# JSON documents

The tree of a document as it was written: fields keep their order and may repeat, and whole numbers
are kept apart from doubles. Three leaves stand for what has no value. `unreadable` is a part that is
sound JSON but cannot be taken up: a text with half a surrogate pair, a number beyond the doubles, or
a container nested too deep. `misnamed` holds the place of a field whose key is such a text. Both may
be skipped. `broken` is the place where the text stops being JSON; nothing after it is known, so it
may not even be skipped.
-/

namespace Patchbay

inductive Json
  | null
  | bool (b : Bool)
  | int (n : Int)
  | double (d : Double)
  | text (s : String)
  | array (items : List Json)
  | object (fields : List (String × Json))
  | unreadable
  | misnamed
  | broken
  deriving Inhabited

namespace Json

mutual

def every (p : Json → Bool) : Json → Bool
  | array items => everyItem p items
  | object fields => everyField p fields
  | j => p j

def everyItem (p : Json → Bool) : List Json → Bool
  | [] => true
  | j :: rest => every p j && everyItem p rest

def everyField (p : Json → Bool) : List (String × Json) → Bool
  | [] => true
  | (_, j) :: rest => every p j && everyField p rest

end

def isBroken : Json → Bool
  | broken => true
  | _ => false

def isMisnamed : Json → Bool
  | misnamed => true
  | _ => false

def isUnreadable : Json → Bool
  | unreadable => true
  | misnamed => true
  | broken => true
  | _ => false

/-- A part that may be skipped. -/
def isWhole (j : Json) : Bool :=
  j.every fun leaf => !leaf.isBroken

def isReadable (j : Json) : Bool :=
  j.every fun leaf => !leaf.isUnreadable

def ofString (s : String) : Json := text s

def ofBytes (bytes : List UInt8) : Json :=
  array (bytes.map fun b => int b.toNat)

end Json

end Patchbay
