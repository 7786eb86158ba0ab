import TestWire.Text.Charstring
import TestWire.Value.Basic

/-! # The text of a value

Octetstrings are written as `'0AFF'O`, charstrings in double quotes, aggregates in braces, and a
value that holds nothing as `omit`.
-/

namespace TestWire

def Scalar.render : Scalar → String
  | octets data => "'" ++ data.upperHex ++ "'O"
  | boolean value => if value then "true" else "false"
  | verdict v => v.render
  | text content => Charstring.quote content
  | real value => value.render
  | integer value => toString value
  | bigNumber literal => literal

def Composite.brace : List String → String
  | [] => "{ }"
  | texts => String.ofList ('{' :: ' ' :: (", ".intercalate texts).toList ++ [' ', '}'])

namespace Value

mutual

def render : Value → String
  | leaf none _ => "omit"
  | leaf (some scalar) _ => scalar.render
  | aggregate values _ _ => Composite.brace (renderAll values)

def renderAll : List Value → List String
  | [] => []
  | v :: values => render v :: renderAll values

end

end Value

def Composite.render (composite : Composite) : String :=
  Composite.brace (Value.renderAll composite.values)

end TestWire
