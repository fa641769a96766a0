import Patchbay.Text.Shapeless

/-!
# Quoted text

A name in double quotes. A quote, a backslash, the usual control characters and everything without a
shape of its own are written as escapes, so two names that differ are quoted differently.
-/

namespace Patchbay.Text

def hexDigits (n : Nat) : List Char :=
  Nat.toDigits 16 n

def codePointEscape (c : Char) : List Char :=
  '\\' :: 'u' :: '\x7b' :: (hexDigits c.toNat ++ ['\x7d'])

def quotedChar (c : Char) : List Char :=
  if c = '\x00' then ['\\', '0']
  else if c = '\t' then ['\\', 't']
  else if c = '\r' then ['\\', 'r']
  else if c = '\n' then ['\\', 'n']
  else if c = '"' ∨ c = '\\' then ['\\', c]
  else if isShapeless c then codePointEscape c
  else [c]

def quoted (s : String) : String :=
  String.ofList ('"' :: (s.toList.flatMap quotedChar ++ ['"']))

end Patchbay.Text
