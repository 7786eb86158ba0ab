import TestWire.Text.CharClass

/-! # Text quoted for a diagnostic -/

namespace TestWire

namespace Diagnostic

/-- A character by its code point, in as few lower-case hexadecimal digits as it takes. -/
def codePoint (c : Char) : List Char :=
  '\\' :: 'u' :: '{' :: Nat.toDigits 16 c.toNat ++ ['}']

def escape (c : Char) : List Char :=
  match c with
  | '"' => ['\\', '"']
  | '\\' => ['\\', '\\']
  | '\n' => ['\\', 'n']
  | '\r' => ['\\', 'r']
  | '\t' => ['\\', 't']
  | '\x00' => ['\\', '0']
  | c => if CharClass.isCombining c || CharClass.isInvisible c then codePoint c else [c]

def quote (text : String) : String :=
  String.ofList ('"' :: text.toList.flatMap escape ++ ['"'])

end Diagnostic

end TestWire
