/-! # Charstring literals -/

namespace TestWire

namespace Charstring

def escape : List Char → List Char
  | [] => []
  | c :: rest => if c = '"' then '"' :: '"' :: escape rest else c :: escape rest

def quote (text : String) : String :=
  String.ofList ('"' :: escape text.toList ++ ['"'])

end Charstring

end TestWire
