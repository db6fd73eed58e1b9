namespace ModelBindings.Schema

/-- The payload of an enum's variants is not kept. -/
inductive Node where
  | primitive (scalar : String)
  | struct (name : String) (fields : List (String × Node))
  | enum (name : String)
  | tuple (elements : List Node)
  deriving Repr, Inhabited

namespace Node

mutual
def decEq : (a b : Node) → Decidable (a = b)
  | .primitive s, .primitive t => decidable_of_iff (s = t) (by simp)
  | .enum s, .enum t => decidable_of_iff (s = t) (by simp)
  | .struct s fs, .struct t gs =>
      have := decEqFields fs gs
      decidable_of_iff (s = t ∧ fs = gs) (by simp)
  | .tuple ns, .tuple ms =>
      have := decEqElements ns ms
      decidable_of_iff (ns = ms) (by simp)
  | .primitive _, .struct _ _ | .primitive _, .enum _ | .primitive _, .tuple _ => isFalse nofun
  | .struct _ _, .primitive _ | .struct _ _, .enum _ | .struct _ _, .tuple _ => isFalse nofun
  | .enum _, .primitive _ | .enum _, .struct _ _ | .enum _, .tuple _ => isFalse nofun
  | .tuple _, .primitive _ | .tuple _, .struct _ _ | .tuple _, .enum _ => isFalse nofun
termination_by structural a => a

def decEqFields : (a b : List (String × Node)) → Decidable (a = b)
  | [], [] => isTrue rfl
  | [], _ :: _ | _ :: _, [] => isFalse nofun
  | (s, n) :: fs, (t, m) :: gs =>
      have := decEq n m
      have := decEqFields fs gs
      decidable_of_iff ((s = t ∧ n = m) ∧ fs = gs) (by simp)
termination_by structural a => a

def decEqElements : (a b : List Node) → Decidable (a = b)
  | [], [] => isTrue rfl
  | [], _ :: _ | _ :: _, [] => isFalse nofun
  | n :: ns, m :: ms =>
      have := decEq n m
      have := decEqElements ns ms
      decidable_of_iff (n = m ∧ ns = ms) (by simp)
termination_by structural a => a
end

instance : DecidableEq Node := decEq

end Node

inductive Kind where
  | primitive
  | struct
  | enum
  | tuple
  deriving DecidableEq, Repr

def Node.kind : Node → Kind
  | .primitive _ => .primitive
  | .struct _ _ => .struct
  | .enum _ => .enum
  | .tuple _ => .tuple

def Kind.all : List Kind := [.primitive, .struct, .enum, .tuple]

def Kind.tag : Kind → String
  | .primitive => "primitive"
  | .struct => "struct"
  | .enum => "enum"
  | .tuple => "tuple"

def Kind.ofTag? (tag : String) : Option Kind :=
  Kind.all.find? fun k => k.tag == tag

theorem Kind.ofTag?_tag (k : Kind) : Kind.ofTag? k.tag = some k := by
  cases k <;> decide

mutual
def Node.height : Node → Nat
  | .struct _ fields => heightFields fields + 1
  | .tuple elements => heightElements elements + 1
  | _ => 1
termination_by structural n => n

def heightFields : List (String × Node) → Nat
  | [] => 0
  | (_, n) :: fs => max n.height (heightFields fs)
termination_by structural fs => fs

def heightElements : List Node → Nat
  | [] => 0
  | n :: ns => max n.height (heightElements ns)
termination_by structural ns => ns
end

end ModelBindings.Schema
