import Conjunctive.Value.Basic

/-!
# Entries of maps

A map keeps its entries in order of first insertion. Its keys are told apart by sameness,
so `1` and `true` are one key.
-/

namespace Conjunctive

namespace Value

/-- The entry of a map under a key. -/
def lookup (key : Value) : List (Value × Value) → Option Value
  | [] => none
  | (k, v) :: rest => if k.same key then some v else lookup key rest

/-- Set the entry under a key: in place if the key is there, else at the end. -/
def insert (key v : Value) : List (Value × Value) → List (Value × Value)
  | [] => [(key, v)]
  | (k, w) :: rest => if k.same key then (k, v) :: rest else (k, w) :: insert key v rest

/-- The entries of a map; other values have none. -/
def entries : Value → List (Value × Value)
  | map es => es
  | _ => []

def isMap : Value → Bool
  | map _ => true
  | _ => false

end Value

end Conjunctive
