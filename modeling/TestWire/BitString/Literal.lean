import TestWire.BitString.Basic

/-! # Bitstring literals -/

namespace TestWire

namespace BitString

def digit (bit : Bool) : Char :=
  if bit then '1' else '0'

def ofDigit? : Char → Option Bool
  | '0' => some false
  | '1' => some true
  | _ => none

def render (b : BitString) : String :=
  String.ofList ('\'' :: b.bits.map digit ++ ['\'', 'B'])

/-- What stands between the quotes; all of a text that starts without one. -/
def literalDigits? : List Char → Option (List Char)
  | '\'' :: rest =>
      let ending := rest.drop (rest.length - 2)
      if ending = ['\'', 'B'] then some (rest.take (rest.length - 2)) else none
  | text => some text

def parse (text : String) : Except InvalidBitLiteral BitString :=
  match literalDigits? text.toList >>= fun digits => digits.mapM ofDigit? with
  | some bits => .ok (ofBits bits)
  | none => .error ⟨text⟩

end BitString

end TestWire
