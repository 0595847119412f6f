import BlockEngine.Pattern.CharSet

/-!
# Named classes

The sets that a pattern names: ASCII classes by their bracketed names, Unicode classes by property.
Property names are compared without case, blanks, hyphens, underscores and a leading `is`.
-/

namespace BlockEngine.CharSet

/-! ## ASCII classes -/

def asciiDigit : CharSet := .range 48 57

def asciiWord : CharSet := .ofRanges [(48, 57), (65, 90), (95, 95), (97, 122)]

def asciiBlank : CharSet := .ofRanges [(9, 13), (32, 32)]

/-- The ranges of the ASCII classes. -/
def asciiClasses : List (String × List (Nat × Nat)) :=
  [("alnum", [(48, 57), (65, 90), (97, 122)]), ("alpha", [(65, 90), (97, 122)]),
   ("ascii", [(0, 127)]), ("blank", [(9, 9), (32, 32)]), ("cntrl", [(0, 31), (127, 127)]),
   ("digit", [(48, 57)]), ("graph", [(33, 126)]), ("lower", [(97, 122)]), ("print", [(32, 126)]),
   ("punct", [(33, 47), (58, 64), (91, 96), (123, 126)]), ("space", [(9, 13), (32, 32)]),
   ("upper", [(65, 90)]), ("word", [(48, 57), (65, 90), (95, 95), (97, 122)]),
   ("xdigit", [(48, 57), (65, 70), (97, 102)])]

def asciiClass? (name : String) : Option CharSet := (asciiClasses.lookup name).map ofRanges

/-! ## Unicode classes -/

/-- The decimal digits. -/
def digit : CharSet := .categories [.decimalNumber]

/-- The names of the general categories and of their groups, with what they hold. -/
def categoryNames : List (List String × List Category) :=
  [(["l", "letter"],
     [.uppercaseLetter, .lowercaseLetter, .titlecaseLetter, .modifierLetter, .otherLetter]),
   (["lc", "casedletter"], [.uppercaseLetter, .lowercaseLetter, .titlecaseLetter]),
   (["lu", "uppercaseletter"], [.uppercaseLetter]),
   (["ll", "lowercaseletter"], [.lowercaseLetter]),
   (["lt", "titlecaseletter"], [.titlecaseLetter]),
   (["lm", "modifierletter"], [.modifierLetter]),
   (["lo", "otherletter"], [.otherLetter]),
   (["m", "mark", "combiningmark"], [.nonspacingMark, .spacingMark, .enclosingMark]),
   (["mn", "nonspacingmark"], [.nonspacingMark]),
   (["mc", "spacingmark"], [.spacingMark]),
   (["me", "enclosingmark"], [.enclosingMark]),
   (["n", "number"], [.decimalNumber, .letterNumber, .otherNumber]),
   (["nd", "decimalnumber", "digit"], [.decimalNumber]),
   (["nl", "letternumber"], [.letterNumber]),
   (["no", "othernumber"], [.otherNumber]),
   (["p", "punctuation", "punct"],
     [.connectorPunctuation, .dashPunctuation, .openPunctuation, .closePunctuation,
      .initialPunctuation, .finalPunctuation, .otherPunctuation]),
   (["pc", "connectorpunctuation"], [.connectorPunctuation]),
   (["pd", "dashpunctuation"], [.dashPunctuation]),
   (["ps", "openpunctuation"], [.openPunctuation]),
   (["pe", "closepunctuation"], [.closePunctuation]),
   (["pi", "initialpunctuation"], [.initialPunctuation]),
   (["pf", "finalpunctuation"], [.finalPunctuation]),
   (["po", "otherpunctuation"], [.otherPunctuation]),
   (["s", "symbol"], [.mathSymbol, .currencySymbol, .modifierSymbol, .otherSymbol]),
   (["sm", "mathsymbol"], [.mathSymbol]),
   (["sc", "currencysymbol"], [.currencySymbol]),
   (["sk", "modifiersymbol"], [.modifierSymbol]),
   (["so", "othersymbol"], [.otherSymbol]),
   (["z", "separator"], [.spaceSeparator, .lineSeparator, .paragraphSeparator]),
   (["zs", "spaceseparator"], [.spaceSeparator]),
   (["zl", "lineseparator"], [.lineSeparator]),
   (["zp", "paragraphseparator"], [.paragraphSeparator]),
   (["c", "other"], [.control, .format, .surrogate, .privateUse, .unassigned]),
   (["cc", "control", "cntrl"], [.control]),
   (["cf", "format"], [.format]),
   (["cs", "surrogate"], [.surrogate]),
   (["co", "privateuse"], [.privateUse]),
   (["cn", "unassigned"], [.unassigned])]

/-- The main ranges of the common scripts. -/
def scriptRanges : List (List String × List (Nat × Nat)) :=
  [(["latin", "latn"],
     [(0x41, 0x5a), (0x61, 0x7a), (0xaa, 0xaa), (0xba, 0xba), (0xc0, 0xd6), (0xd8, 0xf6),
      (0xf8, 0x2b8), (0x2e0, 0x2e4), (0x1d00, 0x1d25), (0x1d2c, 0x1d5c), (0x1d62, 0x1d65),
      (0x1d6b, 0x1d77), (0x1d79, 0x1dbe), (0x1e00, 0x1eff), (0x2071, 0x2071), (0x207f, 0x207f),
      (0x2090, 0x209c), (0x212a, 0x212b), (0x2132, 0x2132), (0x214e, 0x214e), (0x2160, 0x2188),
      (0x2c60, 0x2c7f), (0xa722, 0xa787), (0xa78b, 0xa7ca), (0xa7f2, 0xa7ff), (0xab30, 0xab5a),
      (0xab5c, 0xab64), (0xfb00, 0xfb06), (0xff21, 0xff3a), (0xff41, 0xff5a)]),
   (["greek", "grek"],
     [(0x370, 0x373), (0x375, 0x377), (0x37a, 0x37d), (0x37f, 0x37f), (0x384, 0x384),
      (0x386, 0x386), (0x388, 0x38a), (0x38c, 0x38c), (0x38e, 0x3a1), (0x3a3, 0x3e1),
      (0x3f0, 0x3ff), (0x1d26, 0x1d2a), (0x1d5d, 0x1d61), (0x1d66, 0x1d6a), (0x1dbf, 0x1dbf),
      (0x1f00, 0x1f15), (0x1f18, 0x1f1d), (0x1f20, 0x1f45), (0x1f48, 0x1f4d), (0x1f50, 0x1f57),
      (0x1f59, 0x1f59), (0x1f5b, 0x1f5b), (0x1f5d, 0x1f5d), (0x1f5f, 0x1f7d), (0x1f80, 0x1fb4),
      (0x1fb6, 0x1fc4), (0x1fc6, 0x1fd3), (0x1fd6, 0x1fdb), (0x1fdd, 0x1fef), (0x1ff2, 0x1ff4),
      (0x1ff6, 0x1ffe), (0x2126, 0x2126), (0xab65, 0xab65)]),
   (["cyrillic", "cyrl"],
     [(0x400, 0x484), (0x487, 0x52f), (0x1c80, 0x1c88), (0x1d2b, 0x1d2b), (0x1d78, 0x1d78),
      (0x2de0, 0x2dff), (0xa640, 0xa69f), (0xfe2e, 0xfe2f)]),
   (["armenian", "armn"], [(0x531, 0x556), (0x559, 0x58a), (0x58d, 0x58f), (0xfb13, 0xfb17)]),
   (["hebrew", "hebr"], [(0x591, 0x5c7), (0x5d0, 0x5ea), (0x5ef, 0x5f4), (0xfb1d, 0xfb4f)]),
   (["arabic", "arab"],
     [(0x600, 0x604), (0x606, 0x60b), (0x60d, 0x61a), (0x61c, 0x61e), (0x620, 0x63f),
      (0x641, 0x64a), (0x656, 0x66f), (0x671, 0x6dc), (0x6de, 0x6ff), (0x750, 0x77f),
      (0x870, 0x88e), (0x890, 0x891), (0x898, 0x8e1), (0x8e3, 0x8ff), (0xfb50, 0xfbc2),
      (0xfbd3, 0xfd3d), (0xfd40, 0xfdff), (0xfe70, 0xfefc)]),
   (["devanagari", "deva"], [(0x900, 0x950), (0x955, 0x963), (0x966, 0x97f), (0xa8e0, 0xa8ff)]),
   (["thai"], [(0xe01, 0xe3a), (0xe40, 0xe5b)]),
   (["georgian", "geor"],
     [(0x10a0, 0x10c5), (0x10c7, 0x10c7), (0x10cd, 0x10cd), (0x10d0, 0x10fa), (0x10fc, 0x10ff),
      (0x1c90, 0x1cba), (0x1cbd, 0x1cbf), (0x2d00, 0x2d2d)]),
   (["hangul", "hang"],
     [(0x1100, 0x11ff), (0x302e, 0x302f), (0x3131, 0x318e), (0x3200, 0x321e), (0x3260, 0x327e),
      (0xa960, 0xa97c), (0xac00, 0xd7a3), (0xd7b0, 0xd7c6), (0xd7cb, 0xd7fb), (0xffa0, 0xffdc)]),
   (["hiragana", "hira"],
     [(0x3041, 0x3096), (0x309d, 0x309f), (0x1b001, 0x1b11f), (0x1b150, 0x1b152),
      (0x1f200, 0x1f200)]),
   (["katakana", "kana"],
     [(0x30a1, 0x30fa), (0x30fd, 0x30ff), (0x31f0, 0x31ff), (0x32d0, 0x32fe), (0x3300, 0x3357),
      (0xff66, 0xff6f), (0xff71, 0xff9d), (0x1b000, 0x1b000), (0x1b164, 0x1b167)]),
   (["han", "hani"],
     [(0x2e80, 0x2e99), (0x2e9b, 0x2ef3), (0x2f00, 0x2fd5), (0x3005, 0x3005), (0x3007, 0x3007),
      (0x3021, 0x3029), (0x3038, 0x303b), (0x3400, 0x4dbf), (0x4e00, 0x9fff), (0xf900, 0xfa6d),
      (0xfa70, 0xfad9), (0x20000, 0x2a6df), (0x2a700, 0x2ebe0), (0x2f800, 0x2fa1d),
      (0x30000, 0x323af)])]

/-- The form in which property names are compared. -/
def normalName (name : String) : String :=
  let cs := (name.toList.map Char.toLower).filter fun c => !(c = ' ' || c = '_' || c = '-')
  match cs with
  | 'i' :: 's' :: c :: rest => String.ofList (c :: rest)
  | cs => String.ofList cs

/-- A general category or a group of them. -/
def category? (name : String) : Option CharSet :=
  if name = "any" then some .all
  else if name = "ascii" then some (.range 0 127)
  else if name = "assigned" then some (.complement (.categories [.unassigned]))
  else (categoryNames.find? (·.1.contains name)).map fun p => .categories p.2

def script? (name : String) : Option CharSet :=
  (scriptRanges.find? (·.1.contains name)).map fun p => .ofRanges p.2

/-- A property that characters have or lack. -/
def binaryProperty? (name : String) : Option CharSet :=
  if ["alphabetic", "alpha"].contains name then some .alphabetic
  else if ["whitespace", "wspace", "space"].contains name then some .blank
  else if ["uppercase", "upper"].contains name then
    some (.union (.categories [.uppercaseLetter])
      (.ofRanges [(0x2160, 0x216f), (0x24b6, 0x24cf), (0x1f130, 0x1f149), (0x1f150, 0x1f169),
        (0x1f170, 0x1f189)]))
  else if ["lowercase", "lower"].contains name then
    some (.union (.categories [.lowercaseLetter])
      (.ofRanges [(0xaa, 0xaa), (0xba, 0xba), (0x2b0, 0x2b8), (0x2c0, 0x2c1), (0x2e0, 0x2e4),
        (0x37a, 0x37a), (0x1d2c, 0x1d6a), (0x2071, 0x2071), (0x207f, 0x207f), (0x2170, 0x217f),
        (0x24d0, 0x24e9)]))
  else if ["asciihexdigit", "ahex"].contains name then
    some (.ofRanges [(48, 57), (65, 70), (97, 102)])
  else none

/-- The set of a property name on its own. -/
def property? (name : String) : Option CharSet :=
  let name := normalName name
  binaryProperty? name <|> category? name <|> script? name

/-- The set of a property with a value. -/
def propertyValue? (name value : String) : Option CharSet :=
  let value := normalName value
  match normalName name with
  | "generalcategory" | "gc" => category? value
  | "script" | "sc" | "scriptextensions" | "scx" => script? value
  | _ => none

end BlockEngine.CharSet
