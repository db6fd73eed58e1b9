namespace ModelBindings.Recs

inductive ScalarType where
  | boolean
  | number
  | bigInt
  | numberArray
  | string
  deriving DecidableEq, Repr, Inhabited

def ScalarType.all : List ScalarType := [.boolean, .number, .bigInt, .numberArray, .string]

def ScalarType.text : ScalarType → String
  | .boolean => "RecsType.Boolean"
  | .number => "RecsType.Number"
  | .bigInt => "RecsType.BigInt"
  | .numberArray => "RecsType.NumberArray"
  | .string => "RecsType.String"

/-- A record keeps its fields in the order of their declaration, also repeated ones. -/
inductive TypeExpr where
  | scalar (t : ScalarType)
  | record (fields : List (String × TypeExpr))
  | tuple (elements : List TypeExpr)
  deriving Repr, Inhabited

namespace TypeExpr

mutual
def decEq : (a b : TypeExpr) → Decidable (a = b)
  | .scalar t, .scalar u => decidable_of_iff (t = u) (by simp)
  | .record fs, .record gs =>
      have := decEqFields fs gs
      decidable_of_iff (fs = gs) (by simp)
  | .tuple es, .tuple ds =>
      have := decEqElements es ds
      decidable_of_iff (es = ds) (by simp)
  | .scalar _, .record _ | .scalar _, .tuple _ => isFalse nofun
  | .record _, .scalar _ | .record _, .tuple _ => isFalse nofun
  | .tuple _, .scalar _ | .tuple _, .record _ => isFalse nofun
termination_by structural a => a

def decEqFields : (a b : List (String × TypeExpr)) → Decidable (a = b)
  | [], [] => isTrue rfl
  | [], _ :: _ | _ :: _, [] => isFalse nofun
  | (s, e) :: fs, (t, d) :: gs =>
      have := decEq e d
      have := decEqFields fs gs
      decidable_of_iff ((s = t ∧ e = d) ∧ fs = gs) (by simp)
termination_by structural a => a

def decEqElements : (a b : List TypeExpr) → Decidable (a = b)
  | [], [] => isTrue rfl
  | [], _ :: _ | _ :: _, [] => isFalse nofun
  | e :: es, d :: ds =>
      have := decEq e d
      have := decEqElements es ds
      decidable_of_iff (e = d ∧ es = ds) (by simp)
termination_by structural a => a
end

instance : DecidableEq TypeExpr := decEq

end TypeExpr

def between (left right : String) (parts : List String) : String :=
  left ++ ", ".intercalate parts ++ right

mutual
def TypeExpr.text : TypeExpr → String
  | .scalar t => t.text
  | .record fields => between "\x7b " " \x7d" (fieldTexts fields)
  | .tuple elements => between "[ " " ]" (elementTexts elements)
termination_by structural e => e

def fieldTexts : List (String × TypeExpr) → List String
  | [] => []
  | (name, e) :: fs => (name ++ ": " ++ e.text) :: fieldTexts fs
termination_by structural fs => fs

def elementTexts : List TypeExpr → List String
  | [] => []
  | e :: es => e.text :: elementTexts es
termination_by structural es => es
end

theorem fieldTexts_eq_map (fs : List (String × TypeExpr)) :
    fieldTexts fs = fs.map fun f => f.1 ++ ": " ++ f.2.text := by
  induction fs with
  | nil => rfl
  | cons f fs ih => simp [fieldTexts, ih]

theorem elementTexts_eq_map (es : List TypeExpr) : elementTexts es = es.map TypeExpr.text := by
  induction es with
  | nil => rfl
  | cons e es ih => simp [elementTexts, ih]

end ModelBindings.Recs
