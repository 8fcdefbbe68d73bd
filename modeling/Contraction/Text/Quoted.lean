import Contraction.Text.Printable

/-!
# Quoted text

Two ways of writing a text between quotes. `quoted` is for messages: it keeps every character with a
graphic form and picks the quote that needs no escape. `quotedAscii` is for documents: it writes
ASCII only, a character beyond U+FFFF as the two surrogates that stand for it in UTF-16.
-/

namespace Contraction.Text

/-- The number in base sixteen with lower case digits, filled with zeros up to the width. -/
def hex (width n : Nat) : List Char :=
  let digits := Nat.toDigits 16 n
  List.replicate (width - digits.length) '0' ++ digits

/-- The single quote, unless the text has one and no double quote. -/
def chooseQuote (cs : List Char) : Char :=
  if cs.contains '\'' && !cs.contains '"' then '"' else '\''

/-- One character inside a message's quotes. -/
def escape (quote c : Char) : List Char :=
  let n := c.toNat
  if c == quote || c == '\\' then ['\\', c]
  else if c == '\n' then ['\\', 'n']
  else if c == '\r' then ['\\', 'r']
  else if c == '\t' then ['\\', 't']
  else if isPrintable c then [c]
  else if n ≤ 0xFF then '\\' :: 'x' :: hex 2 n
  else if n ≤ 0xFFFF then '\\' :: 'u' :: hex 4 n
  else '\\' :: 'U' :: hex 8 n

/-- The text between quotes, as a message shows it. -/
def quoted (text : String) : String :=
  let cs := text.toList
  let quote := chooseQuote cs
  String.ofList (quote :: cs.flatMap (escape quote) ++ [quote])

/-- One character inside a document's quotes. -/
def escapeAscii (c : Char) : List Char :=
  let n := c.toNat
  if c == '"' || c == '\\' then ['\\', c]
  else if c == '\n' then ['\\', 'n']
  else if c == '\r' then ['\\', 'r']
  else if c == '\t' then ['\\', 't']
  else if n == 0x08 then ['\\', 'b']
  else if n == 0x0C then ['\\', 'f']
  else if 0x20 ≤ n && n ≤ 0x7E then [c]
  else if n ≤ 0xFFFF then '\\' :: 'u' :: hex 4 n
  else
    let above := n - 0x10000
    '\\' :: 'u' :: hex 4 (0xD800 + above / 0x400) ++ '\\' :: 'u' :: hex 4 (0xDC00 + above % 0x400)

/-- The text between double quotes, as a document holds it. -/
def quotedAscii (text : String) : String :=
  String.ofList ('"' :: text.toList.flatMap escapeAscii ++ ['"'])

end Contraction.Text
