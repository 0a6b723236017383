/-!
# Quoted text

Text between double quotes, on one line: quotes and backslashes stand behind a backslash, and
control characters are written by an escape.

## Main definitions

* `quote`: the text that the debug form of a glob puts between its brackets.
-/

namespace PathPatterns.Quoted

/-- The characters that stand for `c` between the quotes; all printable ones but `"` and `\` stand
for themselves. -/
def quoteChar (c : Char) : List Char :=
  match c with
  | '"' => ['\\', '"']
  | '\\' => ['\\', '\\']
  | '\t' => ['\\', 't']
  | '\n' => ['\\', 'n']
  | '\r' => ['\\', 'r']
  | '\x00' => ['\\', '0']
  | c =>
    if c.val < 0x20 || c.val == 0x7f then
      ['\\', 'u', '\x7b'] ++ Nat.toDigits 16 c.toNat ++ ['\x7d']
    else [c]

/-- The text between quotes. -/
def quote (text : String) : String :=
  String.ofList ('"' :: text.toList.flatMap quoteChar ++ ['"'])

end PathPatterns.Quoted
