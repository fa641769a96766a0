import Patchbay.Json.Basic
import Patchbay.Double.Text

/-!
# Reading JSON

`read` turns a text into the tree of the value it starts with and what follows that value. Where the
text stops being JSON the tree ends in `broken`, so that whatever stands before keeps its place: a
reader that goes through a document in order meets the faults of the document in that order.

The recursion is bounded by the length of the text; each value and each separator takes a character.
-/

namespace Patchbay.Json

def isBlank (c : Char) : Bool :=
  c == ' ' || c == '\t' || c == '\n' || c == '\r'

def skipBlanks (cs : List Char) : List Char :=
  cs.dropWhile isBlank

/-- A piece of a text: a character, or the 16-bit unit of an escape. -/
inductive Piece
  | char (c : Char)
  | unit (n : Nat)

def hexValue? (c : Char) : Option Nat :=
  if c.isDigit then some (c.toNat - '0'.toNat)
  else if 'a' ≤ c ∧ c ≤ 'f' then some (c.toNat - 'a'.toNat + 10)
  else if 'A' ≤ c ∧ c ≤ 'F' then some (c.toNat - 'A'.toNat + 10)
  else none

def hexUnit? (a b c d : Char) : Option Nat := do
  let a ← hexValue? a
  let b ← hexValue? b
  let c ← hexValue? c
  let d ← hexValue? d
  return ((a * 16 + b) * 16 + c) * 16 + d

def shortEscape? : Char → Option Char
  | '"' => some '"'
  | '\\' => some '\\'
  | '/' => some '/'
  | 'b' => some '\x08'
  | 'f' => some '\x0c'
  | 'n' => some '\n'
  | 'r' => some '\r'
  | 't' => some '\t'
  | _ => none

def scanText : List Char → Option (List Piece × List Char)
  | [] => none
  | '"' :: rest => some ([], rest)
  | '\\' :: 'u' :: a :: b :: c :: d :: rest => do
    let n ← hexUnit? a b c d
    let (pieces, rest) ← scanText rest
    return (.unit n :: pieces, rest)
  | '\\' :: c :: rest => do
    let c ← shortEscape? c
    let (pieces, rest) ← scanText rest
    return (.char c :: pieces, rest)
  | c :: rest =>
    if c.toNat < 0x20 ∨ c = '\\' then none
    else (scanText rest).map fun (pieces, rest) => (.char c :: pieces, rest)

def isHighSurrogate (n : Nat) : Bool := 0xD800 ≤ n && n ≤ 0xDBFF

def isLowSurrogate (n : Nat) : Bool := 0xDC00 ≤ n && n ≤ 0xDFFF

/-- The characters of a text; half a surrogate pair makes none. -/
def joinPieces : List Piece → Option (List Char)
  | [] => some []
  | .char c :: rest => (joinPieces rest).map (c :: ·)
  | .unit high :: .unit low :: rest =>
    if isHighSurrogate high && isLowSurrogate low then
      (joinPieces rest).map (Char.ofNat (0x10000 + (high - 0xD800) * 0x400 + (low - 0xDC00)) :: ·)
    else if isHighSurrogate high || isLowSurrogate high then none
    else (joinPieces (.unit low :: rest)).map (Char.ofNat high :: ·)
  | .unit n :: rest =>
    if isHighSurrogate n || isLowSurrogate n then none
    else (joinPieces rest).map (Char.ofNat n :: ·)

structure Numeral where
  negative : Bool
  whole : List Char
  fraction : Option (List Char)
  exponent : Option Int

def scanFraction : List Char → Option (Option (List Char) × List Char)
  | '.' :: rest =>
    let digits := rest.takeWhile Char.isDigit
    if digits.isEmpty then none else some (some digits, rest.dropWhile Char.isDigit)
  | cs => some (none, cs)

def scanExponent : List Char → Option (Option Int × List Char)
  | [] => some (none, [])
  | c :: rest =>
    if c == 'e' || c == 'E' then
      let (negative, rest) := Double.splitSign rest
      let digits := rest.takeWhile Char.isDigit
      let n : Int := Double.digitsValue digits
      if digits.isEmpty then none
      else some (some (if negative then -n else n), rest.dropWhile Char.isDigit)
    else some (none, c :: rest)

def scanNumeral (cs : List Char) : Option (Numeral × List Char) := do
  let (negative, cs) := match cs with
    | '-' :: rest => (true, rest)
    | _ => (false, cs)
  let whole := cs.takeWhile Char.isDigit
  if whole.isEmpty || (whole.head? == some '0' && whole.length != 1) then none
  let (fraction, cs) ← scanFraction (cs.dropWhile Char.isDigit)
  let (exponent, cs) ← scanExponent cs
  return (⟨negative, whole, fraction, exponent⟩, cs)

/-- A number without fraction and exponent that fits 64 bits is whole; any other is the nearest double,
and so is `-0`. -/
def Numeral.value (n : Numeral) : Json :=
  let fraction := n.fraction.getD []
  let d := Double.ofDecimal n.negative
    ⟨Double.digitsValue (n.whole ++ fraction), n.exponent.getD 0 - fraction.length⟩
  let approximate := if d.isFinite then double d else unreadable
  if n.fraction.isNone && n.exponent.isNone then
    let magnitude := Double.digitsValue n.whole
    if n.negative then
      if 0 < magnitude ∧ magnitude ≤ 1 <<< 63 then int (-magnitude) else approximate
    else if magnitude < UInt64.size then int magnitude
    else approximate
  else approximate

/-- The result of a container that ends, or does not end, at a depth still allowed or not. -/
def contain (depth : Nat) (rest : Option (List Char)) (j : Json) : Json :=
  match depth, rest with
  | 0, none => broken
  | 0, some _ => unreadable
  | _, _ => j

/-- A field, whose key is none if it is unreadable. Such a field keeps its place, and so does a break
of the text inside it. -/
def fieldOf (key : Option String) (j : Json) : String × Json :=
  match key with
  | some key => (key, j)
  | none => ("", if j.isWhole then misnamed else broken)

def maxDepth : Nat := 127

def readKey (cs : List Char) : Option (Option String × List Char) :=
  match skipBlanks cs with
  | '"' :: rest =>
    match scanText rest with
    | none => none
    | some (pieces, rest) =>
      match skipBlanks rest with
      | ':' :: rest => some ((joinPieces pieces).map String.ofList, rest)
      | _ => none
  | _ => none

mutual

/-- The value that a text starts with, and what follows it unless the text breaks off. -/
def readValue : Nat → Nat → List Char → Json × Option (List Char)
  | 0, _, _ => (broken, none)
  | fuel + 1, depth, cs =>
    match skipBlanks cs with
    | '"' :: rest =>
      match scanText rest with
      | none => (broken, none)
      | some (pieces, rest) =>
        match joinPieces pieces with
        | some cs => (text (String.ofList cs), some rest)
        | none => (unreadable, some rest)
    | '[' :: rest =>
      match skipBlanks rest with
      | ']' :: rest => (contain depth (some rest) (array []), some rest)
      | rest =>
        let (items, rest) := readItems fuel (depth - 1) rest
        (contain depth rest (array items), rest)
    | '\x7b' :: rest =>
      match skipBlanks rest with
      | '\x7d' :: rest => (contain depth (some rest) (object []), some rest)
      | rest =>
        let (fields, rest) := readFields fuel (depth - 1) rest
        (contain depth rest (object fields), rest)
    | 'n' :: 'u' :: 'l' :: 'l' :: rest => (null, some rest)
    | 't' :: 'r' :: 'u' :: 'e' :: rest => (bool true, some rest)
    | 'f' :: 'a' :: 'l' :: 's' :: 'e' :: rest => (bool false, some rest)
    | cs =>
      match scanNumeral cs with
      | some (n, rest) => (n.value, some rest)
      | none => (broken, none)

def readItems : Nat → Nat → List Char → List Json × Option (List Char)
  | 0, _, _ => ([broken], none)
  | fuel + 1, depth, cs =>
    match readValue fuel depth cs with
    | (j, none) => ([j], none)
    | (j, some rest) =>
      match skipBlanks rest with
      | ',' :: rest =>
        let (items, rest) := readItems fuel depth rest
        (j :: items, rest)
      | ']' :: rest => ([j], some rest)
      | _ => ([j, broken], none)

def readFields : Nat → Nat → List Char → List (String × Json) × Option (List Char)
  | 0, _, _ => ([("", broken)], none)
  | fuel + 1, depth, cs =>
    match readKey cs with
    | none => ([("", broken)], none)
    | some (key, rest) =>
      match readValue fuel depth rest with
      | (j, none) => ([fieldOf key j], none)
      | (j, some rest) =>
        match skipBlanks rest with
        | ',' :: rest =>
          let (fields, rest) := readFields fuel depth rest
          (fieldOf key j :: fields, rest)
        | '\x7d' :: rest => ([fieldOf key j], some rest)
        | _ => ([fieldOf key j, ("", broken)], none)

end

def read (cs : List Char) : Json × Option (List Char) :=
  readValue (2 * cs.length + 2) maxDepth cs

end Patchbay.Json
