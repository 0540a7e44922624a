/-
  Configuration nodes and the exceptions of the program.

  `Node` is the part of `YAML::Node` the program reads: a subscript, `IsDefined`,
  `IsSequence`, `IsMap`, `IsScalar` and `as<T>`. A message built from a node keeps the node
  itself, since the text the node prints as is up to yaml-cpp.
-/
import LoadBalancer.Platform

namespace LoadBalancer

/-- `YAML::Node`; `undefined` is what a subscript yields for an absent key. -/
inductive Node where
  | undefined
  | null
  | scalar (text : String)
  | sequence (items : List Node)
  | map (entries : List (String × Node))

inductive Exception where
  /-- `EXCEPTION`, and `STACKTRACE` without its stack trace -/
  | runtimeError (what : String)
  /-- `STACKTRACE("{} missed {} field", ep, field)` -/
  | missedField (ep : Node) (field : String)
  /-- `STACKTRACE("Weighted-round-robin endpoint is not defined: {}", ep)` -/
  | endpointNotDefined (ep : Node)
  /-- a subscript of a scalar node -/
  | badSubscript
  /-- a use of an undefined node -/
  | invalidNode
  /-- `as<T>` of a node that does not hold a `T` -/
  | badConversion
  /-- `address::from_string` of a text that is no address -/
  | invalidAddress
  /-- the endpoint of a socket that is not connected -/
  | notConnected
  /-- `vector::reserve` above `max_size()` -/
  | lengthError
  /-- an `int` counted past its maximum, which has no defined outcome -/
  | counterOverflow

namespace Node

def isDefined : Node → Bool
  | .undefined => false
  | _ => true

def isMap : Node → Bool
  | .map _ => true
  | _ => false

def isScalar : Node → Bool
  | .scalar _ => true
  | _ => false

/-- `node[key]` -/
def get : Node → String → Except Exception Node
  | .map entries, key => .ok ((entries.lookup key).getD .undefined)
  | .null, _ => .ok .undefined
  | .sequence _, _ => .ok .undefined
  | .scalar _, _ => .error .badSubscript
  | .undefined, _ => .error .invalidNode

/-- `node[key]`, after the test that throws when the key is absent -/
def required (node : Node) (key : String) : Except Exception Node := do
  let value ← node.get key
  if value.isDefined then return value else throw (.missedField node key)

/-- `as<std::string>()` -/
def asString : Node → Except Exception String
  | .scalar text => .ok text
  | .null => .ok "null"
  | .undefined => .error .invalidNode
  | _ => .error .badConversion

variable [Platform]

/-- `as<T>()` for an integer type with values `lo` to `hi` -/
def asInteger (lo hi : Int) : Node → Except Exception Int
  | .scalar text =>
    match Platform.readInteger text with
    | some n => if lo ≤ n ∧ n ≤ hi then .ok n else .error .badConversion
    | none => .error .badConversion
  | .undefined => .error .invalidNode
  | _ => .error .badConversion

/-- `as<int>()` -/
def asInt (node : Node) : Except Exception Int :=
  node.asInteger (-2 ^ 31) (2 ^ 31 - 1)

/-- `as<unsigned>()` -/
def asUnsigned (node : Node) : Except Exception Nat := do
  return (← node.asInteger 0 (2 ^ 32 - 1)).toNat

/-- `as<std::size_t>()` -/
def asSize (node : Node) : Except Exception Nat := do
  return (← node.asInteger 0 (2 ^ 64 - 1)).toNat

end Node

end LoadBalancer
