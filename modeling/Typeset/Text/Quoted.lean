import Typeset.Text.Printable

/-!
# Quoted text

A text is shown between single quotes, or between double quotes when it has a single quote
and no double quote. The backslash, the quote in use, line feed, carriage return and tab
have escapes of two characters; any other character that is not printable is written as
`\x`, `\u` or `\U` and two, four or eight hexadecimal digits.

## Main definitions

* `escape` : how one character is shown.
* `quoted` : how a text is shown.
-/

namespace Typeset.Text

/-- The hexadecimal digits of `n`, filled with zeros to `width` places. -/
def hexadecimal (width n : Nat) : List Char :=
  let ds := Nat.toDigits 16 n
  List.replicate (width - ds.length) '0' ++ ds

/-- How the character `c` is shown between two `quote` characters. -/
def escape (quote c : Char) : List Char :=
  if c = quote || c = '\\' then ['\\', c]
  else if c = '\n' then ['\\', 'n']
  else if c = '\r' then ['\\', 'r']
  else if c = '\t' then ['\\', 't']
  else if isPrintable c then [c]
  else if c.toNat < 0x100 then '\\' :: 'x' :: hexadecimal 2 c.toNat
  else if c.toNat < 0x10000 then '\\' :: 'u' :: hexadecimal 4 c.toNat
  else '\\' :: 'U' :: hexadecimal 8 c.toNat

/-- The quote that surrounds a text. -/
def quoteFor (cs : List Char) : Char :=
  if cs.contains '\'' && !cs.contains '"' then '"' else '\''

/-- The text between quotes, with escapes. -/
def quoted (s : String) : String :=
  let q := quoteFor s.toList
  String.ofList (q :: s.toList.flatMap (escape q) ++ [q])

end Typeset.Text
