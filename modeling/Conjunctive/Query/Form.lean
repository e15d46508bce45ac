import Conjunctive.Query.Literal

/-!
# Queries as written

Before its names are resolved, a query is a head and a body of relation names
applied to terms. What reads a text gives forms over `Term`. Forms that come
from elsewhere may hold terms that are no constants, or of no known kind, and
are forms over `LooseTerm`.
-/

namespace Conjunctive

/-- A relation name applied to terms. -/
structure AtomForm (τ : Type) where
  name : String
  terms : List τ
  deriving DecidableEq

/-- A head and a body, as written. -/
structure QueryForm (τ : Type) where
  head : AtomForm τ
  body : List (AtomForm τ)
  deriving DecidableEq

/-- A term of a form that was not read from a text. -/
inductive LooseTerm where
  | variable (name : String)
  | constant (v : Value)
  | unknown (kind : String)

end Conjunctive
