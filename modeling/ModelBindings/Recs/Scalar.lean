import ModelBindings.Recs.Mode
import ModelBindings.Recs.TypeExpr

namespace ModelBindings.Recs

inductive Scalar where
  | bool
  | u8
  | u16
  | u32
  | u64
  | usize
  | u128
  | u256
  | felt252
  | contractAddress
  deriving DecidableEq, Repr

namespace Scalar

def all : List Scalar :=
  [.bool, .u8, .u16, .u32, .u64, .usize, .u128, .u256, .felt252, .contractAddress]

def name : Scalar → String
  | .bool => "Bool"
  | .u8 => "U8"
  | .u16 => "U16"
  | .u32 => "U32"
  | .u64 => "U64"
  | .usize => "Usize"
  | .u128 => "U128"
  | .u256 => "U256"
  | .felt252 => "Felt252"
  | .contractAddress => "ContractAddress"

def foldCase (s : String) : List Char :=
  s.toList.map Char.toLower

/-- The case of ASCII letters does not matter, and no other letter changes case. -/
def ofName? (s : String) : Option Scalar :=
  all.find? fun k => foldCase k.name == foldCase s

def type (mode : Mode) : Scalar → ScalarType
  | .bool => .boolean
  | .u8 | .u16 | .u32 | .u64 | .usize => .number
  | .u128 | .felt252 | .contractAddress =>
      match mode with
      | .narrow => .number
      | .wide => .bigInt
  | .u256 =>
      match mode with
      | .narrow => .numberArray
      | .wide => .bigInt

end Scalar

/-- The component type of a scalar by its name. One that is not known is carried as text. -/
def scalarType (mode : Mode) (name : String) : ScalarType :=
  match Scalar.ofName? name with
  | some k => k.type mode
  | none => .string

end ModelBindings.Recs
