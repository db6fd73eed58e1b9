import ModelBindings.Typing

namespace ModelBindings

open Recs (TypeExpr)

/-- `types` lists the custom types below the root. -/
structure Component where
  model : String
  type : TypeExpr
  types : List String
  deriving DecidableEq, Repr, Inhabited

end ModelBindings
