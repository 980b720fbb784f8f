import TreeMetrics.Data.Decimal
import TreeMetrics.Text.Quoted

namespace TreeMetrics

/-- A value. The members of an object are listed in ascending order of their names. -/
inductive Value where
  | null
  | bool (b : Bool)
  | integer (n : Int)
  | fraction (x : Float)
  | text (s : String)
  | list (items : List Value)
  | object (members : List (String × Value))

def Value.describe : Value → String
  | null => "null"
  | bool b => "boolean `" ++ toString b ++ "`"
  | integer n => "integer `" ++ toString n ++ "`"
  | fraction x => "floating point `" ++ Decimal.text x ++ "`"
  | text s => "string " ++ Text.quoted s
  | list _ => "sequence"
  | object _ => "map"

inductive Wanted where
  | config
  | map
  | sequence
  | string
  | stringOrMap
  | unit
deriving DecidableEq, Repr

def Wanted.text : Wanted → String
  | config => "struct AnalysisConfig"
  | map => "a map"
  | sequence => "a sequence"
  | string => "a string"
  | stringOrMap => "string or map"
  | unit => "unit"

inductive DecodeError where
  | wrongType (found : Value) (wanted : Wanted)
  | unknownField (name : String)
  | unknownVariant (name : String)
  | notOneMember
  | tooLong (length : Nat)

def DecodeError.message : DecodeError → String
  | wrongType v w => "invalid type: " ++ v.describe ++ ", expected " ++ w.text
  | unknownField f => "unknown field `" ++ f ++ "`, expected `options` or `aggregate`"
  | unknownVariant v =>
    "unknown variant `" ++ v ++ "`, expected one of `sum`, `highest`, `average`"
  | notOneMember => "invalid value: map, expected map with a single key"
  | tooLong n => "invalid length " ++ toString n ++ ", expected fewer elements in array"

end TreeMetrics
