import BlockEngine.Text.Category

/-!
# Word characters

Letters, marks, decimal digits, connectors and the joiners, as the Unicode recommendation for words
has them. The signs with a case of their own, such as circled letters, count as letters.
-/

namespace BlockEngine

/-- Whether a character is a letter, a letter number or an alphabetic sign or mark. -/
def isAlphabetic (c : Char) : Bool :=
  ([.uppercaseLetter, .lowercaseLetter, .titlecaseLetter, .modifierLetter, .otherLetter,
    .letterNumber] : List Category).contains (.ofChar c) ||
  [(0x24b6, 0x24e9), (0x1f130, 0x1f149), (0x1f150, 0x1f169), (0x1f170, 0x1f189)].any fun r =>
    r.1 ≤ c.toNat && c.toNat ≤ r.2

/-- Whether a character belongs to a word. Plain letters, digits and the underscore need no table. -/
def isWordChar (c : Char) : Bool :=
  c.isAlphanum || c = '_' || isAlphabetic c || c = '\u200c' || c = '\u200d' ||
  ([.nonspacingMark, .spacingMark, .enclosingMark, .decimalNumber, .connectorPunctuation] :
    List Category).contains (.ofChar c)

end BlockEngine
