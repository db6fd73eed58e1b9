import ModelBindings.Recs.Scalar
import ModelBindings.Schema.Node

/-!
From schema nodes to type expressions. The names of the structs and enums met on the way are entered
into a registry, in the order of the nodes from the top and with repetitions.
-/

namespace ModelBindings

open Schema (Node)

structure Registry where
  names : List String
  deriving DecidableEq, Repr, Inhabited

namespace Registry

def empty : Registry := ⟨[]⟩

def enter (r : Registry) (name : String) : Registry :=
  ⟨r.names ++ [name]⟩

@[simp] theorem names_enter (r : Registry) (name : String) :
    (r.enter name).names = r.names ++ [name] := rfl

end Registry

namespace Recs.TypeExpr

mutual
/-- Enters the node's own name before those below it. -/
def ofNode (mode : Mode) : Node → Registry → TypeExpr × Registry
  | .primitive s, r => (.scalar (scalarType mode s), r)
  | .struct name fields, r =>
      let (fs, r) := ofMembers mode fields (r.enter name)
      (.record fs, r)
  | .enum name, r => (.scalar .number, r.enter name)
  | .tuple elements, r =>
      let (es, r) := ofElements mode elements r
      (.tuple es, r)
termination_by structural n => n

def ofMembers (mode : Mode) :
    List (String × Node) → Registry → List (String × TypeExpr) × Registry
  | [], r => ([], r)
  | (name, n) :: fs, r =>
      let (e, r) := ofNode mode n r
      let (es, r) := ofMembers mode fs r
      ((name, e) :: es, r)
termination_by structural fs => fs

def ofElements (mode : Mode) : List Node → Registry → List TypeExpr × Registry
  | [], r => ([], r)
  | n :: ns, r =>
      let (e, r) := ofNode mode n r
      let (es, r) := ofElements mode ns r
      (e :: es, r)
termination_by structural ns => ns
end

/-- The body of a struct whose own name is not entered, as at the root of a model. -/
def ofBody (mode : Mode) (fields : List (String × Node)) (r : Registry) : TypeExpr × Registry :=
  let (fs, r) := ofMembers mode fields r
  (.record fs, r)

end Recs.TypeExpr

end ModelBindings
