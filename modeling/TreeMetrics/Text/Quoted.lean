import TreeMetrics.Text.Extending
import TreeMetrics.Text.Unprintable

namespace TreeMetrics.Text

/-- A character as it stands between quotes. -/
def escaped (c : Char) : String :=
  match c with
  | '"' => "\\\""
  | '\\' => "\\\\"
  | '\n' => "\\n"
  | '\r' => "\\r"
  | '\t' => "\\t"
  | '\x00' => "\\0"
  | c =>
    if isExtending c || isUnprintable c then
      "\\u\x7b" ++ String.ofList (Nat.toDigits 16 c.toNat) ++ "\x7d"
    else String.singleton c

def quoted (s : String) : String := "\"" ++ String.join (s.toList.map escaped) ++ "\""

end TreeMetrics.Text
