import BlockEngine.Json.Text
import BlockEngine.Text.Category

/-!
# Quoted text in messages

Messages quote a text so that every character of it can be seen: control characters, marks and
characters without a form of their own are written by code point.
-/

namespace BlockEngine

/-- The hexadecimal digits of a code point, without leading zeros. -/
def codePointDigits (n : Nat) : List Char :=
  match (hexDigits 6 n).dropWhile (· = '0') with
  | [] => ['0']
  | ds => ds

/-- Whether a character joins the one before it. -/
def isCombining (c : Char) : Bool :=
  ([.nonspacingMark, .enclosingMark] : List Category).contains (.ofChar c)

/-- One character inside quotes. -/
def visibleChar (c : Char) : List Char :=
  if c = '\x00' then ['\\', '0']
  else if c = '\t' then ['\\', 't']
  else if c = '\r' then ['\\', 'r']
  else if c = '\n' then ['\\', 'n']
  else if c = '"' then ['\\', '"']
  else if c = '\\' then ['\\', '\\']
  else if isPrintable c && !isCombining c then [c]
  else ['\\', 'u', '\x7b'] ++ codePointDigits c.toNat ++ ['\x7d']

/-- The text in double quotes. -/
def quoteVisible (s : String) : String :=
  String.ofList ('"' :: s.toList.flatMap visibleChar ++ ['"'])

/-- Quoted texts in brackets. -/
def quoteVisibleList (items : List String) : String :=
  "[" ++ ", ".intercalate (items.map quoteVisible) ++ "]"

end BlockEngine
