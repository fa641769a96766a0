import Patchbay.Json.Basic
import Patchbay.Double.Text

/-!
# Writing JSON

`compact` writes a document without blanks, `pretty` with one item or field a line and two blanks of
indentation. Only quotes, backslashes and controls are escaped. A double is written with the fewest
digits that read back as it, and one that is not finite as `null`.
-/

namespace Patchbay.Json

def hexDigit (n : Nat) : Char :=
  (Nat.toDigits 16 n).headD '0'

def escapedChar (c : Char) : List Char :=
  if c = '"' ∨ c = '\\' then ['\\', c]
  else if c = '\x08' then ['\\', 'b']
  else if c = '\t' then ['\\', 't']
  else if c = '\n' then ['\\', 'n']
  else if c = '\x0c' then ['\\', 'f']
  else if c = '\r' then ['\\', 'r']
  else if c.toNat < 0x20 then ['\\', 'u', '0', '0', hexDigit (c.toNat / 16), hexDigit (c.toNat % 16)]
  else [c]

def quotedText (s : String) : List Char :=
  '"' :: (s.toList.flatMap escapedChar ++ ['"'])

def doubleText (d : Double) : List Char :=
  if d.isFinite then (d.text .document).toList else ['n', 'u', 'l', 'l']

def leafText : Json → List Char
  | null => ['n', 'u', 'l', 'l']
  | bool true => ['t', 'r', 'u', 'e']
  | bool false => ['f', 'a', 'l', 's', 'e']
  | int n => (toString n).toList
  | double d => doubleText d
  | text s => quotedText s
  | _ => []

mutual

def compactText : Json → List Char
  | array items => '[' :: (compactItems items ++ [']'])
  | object fields => '\x7b' :: (compactFields fields ++ ['\x7d'])
  | j => leafText j

def compactItems : List Json → List Char
  | [] => []
  | [j] => compactText j
  | j :: rest => compactText j ++ ',' :: compactItems rest

def compactFields : List (String × Json) → List Char
  | [] => []
  | [(key, j)] => quotedText key ++ ':' :: compactText j
  | (key, j) :: rest => quotedText key ++ ':' :: (compactText j ++ ',' :: compactFields rest)

end

def newline (level : Nat) : List Char :=
  '\n' :: List.replicate (2 * level) ' '

mutual

def prettyText (level : Nat) : Json → List Char
  | array [] => ['[', ']']
  | array items => '[' :: (prettyItems (level + 1) items ++ newline level ++ [']'])
  | object [] => ['\x7b', '\x7d']
  | object fields => '\x7b' :: (prettyFields (level + 1) fields ++ newline level ++ ['\x7d'])
  | j => leafText j

def prettyItems (level : Nat) : List Json → List Char
  | [] => []
  | [j] => newline level ++ prettyText level j
  | j :: rest => newline level ++ prettyText level j ++ ',' :: prettyItems level rest

def prettyFields (level : Nat) : List (String × Json) → List Char
  | [] => []
  | [(key, j)] => newline level ++ quotedText key ++ ':' :: ' ' :: prettyText level j
  | (key, j) :: rest =>
    newline level ++ quotedText key ++ ':' :: ' ' :: (prettyText level j ++
      ',' :: prettyFields level rest)

end

def compact (j : Json) : String := String.ofList j.compactText

def pretty (j : Json) : String := String.ofList (j.prettyText 0)

end Patchbay.Json
