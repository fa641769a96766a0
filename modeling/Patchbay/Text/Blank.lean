/-!
# Blank text

Names are compared as they are written, but a name that holds nothing except white space names
nothing. White space is the Unicode property White_Space, so the zero-width space and the byte order
mark are letters here. Case is folded for ASCII letters only.
-/

namespace Patchbay.Text

def isSpace (c : Char) : Bool :=
  let n := c.toNat
  (9 ≤ n && n ≤ 13) || n == 0x20 || n == 0x85 || n == 0xA0 || n == 0x1680 ||
    (0x2000 ≤ n && n ≤ 0x200A) || n == 0x2028 || n == 0x2029 || n == 0x202F || n == 0x205F ||
    n == 0x3000

def trim (cs : List Char) : List Char :=
  ((cs.dropWhile isSpace).reverse.dropWhile isSpace).reverse

def isBlank (s : String) : Bool :=
  s.toList.all isSpace

/-- Lower case for the letters `A` to `Z`; every other character stays. -/
def lower (cs : List Char) : List Char :=
  cs.map Char.toLower

theorem isSpace_of_isWhitespace {c : Char} (h : c.isWhitespace) : isSpace c := by
  simp only [Char.isWhitespace, Bool.or_eq_true, decide_eq_true_eq] at h
  rcases h with ((rfl | rfl) | rfl) | rfl <;> decide

theorem trim_nil : trim [] = [] := rfl

theorem isBlank_empty : isBlank "" = true := by decide

end Patchbay.Text
