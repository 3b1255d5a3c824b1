import GoSource.Unicode.Concealed
import GoSource.Literal.Quoted

/-!
# Names shown in messages

`show` puts a name that the user gave between double quotes, so that its ends can be seen and no character
of it is lost: what has no glyph of its own is spelled by its number.
-/

namespace GoSource.Literal

/-- How a character of a name is shown. -/
def shownChar (c : Char) : List Char :=
  match c with
  | '\x00' => ['\\', '0']
  | '\t' => ['\\', 't']
  | '\r' => ['\\', 'r']
  | '\n' => ['\\', 'n']
  | '\\' => ['\\', '\\']
  | '"' => ['\\', '"']
  | c =>
      if Unicode.isConcealed c then ['\\', 'u', '\x7b'] ++ Nat.toDigits 16 c.toNat ++ ['\x7d']
      else [c]

/-- A name between double quotes, as messages show it. -/
def shown (s : String) : String :=
  String.ofList ('"' :: s.toList.flatMap shownChar ++ ['"'])

end GoSource.Literal
