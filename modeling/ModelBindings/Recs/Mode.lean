namespace ModelBindings.Recs

inductive Mode where
  | narrow
  | wide
  deriving DecidableEq, Repr, Inhabited

namespace Mode

def default : Mode := .narrow

def isWide : Mode → Bool
  | .narrow => false
  | .wide => true

def name : Mode → String
  | .narrow => "narrow"
  | .wide => "wide"

def ofName? : String → Option Mode
  | "narrow" => some .narrow
  | "wide" => some .wide
  | _ => none

def describe : Mode → String
  | .narrow => "1 (no bigint, EntityIndex as number)"
  | .wide => "2 (bigint support, Entity as string)"

end Mode

end ModelBindings.Recs
