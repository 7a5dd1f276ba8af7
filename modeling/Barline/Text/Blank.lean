/-!
# Blanks

White space as text documents know it, and trimming.  Note names, marks, key
names and note values may all be written with blanks around them.
-/

namespace Barline.Text

/-- The characters of the property `White_Space`, ASCII or not. -/
def isBlank (c : Char) : Bool :=
  let n := c.toNat
  (9 ≤ n && n ≤ 13) || n == 0x20 || n == 0x85 || n == 0xA0 || n == 0x1680 ||
    (0x2000 ≤ n && n ≤ 0x200A) || n == 0x2028 || n == 0x2029 || n == 0x202F ||
    n == 0x205F || n == 0x3000

/-- A text without the blanks at its two ends. -/
def trim (s : List Char) : List Char :=
  ((s.dropWhile isBlank).reverse.dropWhile isBlank).reverse

/-- The form in which a word is looked up: trimmed, with ASCII letters in lower
case.  The words that are looked up are ASCII, and no other letter has one of
theirs as its lower case form, so folding ASCII letters is enough. -/
def foldWord (s : List Char) : String :=
  String.ofList ((trim s).map Char.toLower)

end Barline.Text
