import SymbolicXor.Unicode.Printable

/-!
# Quoted text

Text quoted for a message stands between double quotes. A double quote, a backslash, the line feed,
the carriage return, the tab and the null character have two-character escapes; a character without
a printed form of its own is written as its code point, in hexadecimal without padding.
-/

namespace SymbolicXor.Text

/-- One character of quoted text. -/
def quoteChar (c : Char) : String :=
  match c with
  | '"' => "\\\""
  | '\\' => "\\\\"
  | '\n' => "\\n"
  | '\r' => "\\r"
  | '\t' => "\\t"
  | '\x00' => "\\0"
  | c =>
    if Unicode.standsAlone c then c.toString
    else "\\u\x7b" ++ String.ofList (Nat.toDigits 16 c.toNat) ++ "\x7d"

/-- A text between double quotes, with its special characters escaped. -/
def quote (s : String) : String :=
  "\"" ++ String.join (s.toList.map quoteChar) ++ "\""

end SymbolicXor.Text
