import ModelBindings.Compile

/-!
What the translation of a node enters into the registry, and what it makes of the node. It enters
the names of the structs and enums from the top down, and the registry has no part in the expression
that is returned.
-/

namespace ModelBindings

open Recs (Mode TypeExpr scalarType)
open Schema (Node)

namespace Schema

mutual
def Node.preorder : Node → List Node
  | .primitive s => [.primitive s]
  | .struct name fields => .struct name fields :: preorderFields fields
  | .enum name => [.enum name]
  | .tuple elements => .tuple elements :: preorderElements elements
termination_by structural n => n

def preorderFields : List (String × Node) → List Node
  | [] => []
  | (_, n) :: fs => n.preorder ++ preorderFields fs
termination_by structural fs => fs

def preorderElements : List Node → List Node
  | [] => []
  | n :: ns => n.preorder ++ preorderElements ns
termination_by structural ns => ns
end

def Node.ownName? : Node → Option String
  | .struct name _ => some name
  | .enum name => some name
  | .primitive _ | .tuple _ => none

def Node.names (n : Node) : List String :=
  n.preorder.filterMap Node.ownName?

mutual
def Node.shape (mode : Mode) : Node → TypeExpr
  | .primitive s => .scalar (scalarType mode s)
  | .struct _ fields => .record (shapeFields mode fields)
  | .enum _ => .scalar .number
  | .tuple elements => .tuple (shapeElements mode elements)
termination_by structural n => n

def shapeFields (mode : Mode) : List (String × Node) → List (String × TypeExpr)
  | [] => []
  | (name, n) :: fs => (name, n.shape mode) :: shapeFields mode fs
termination_by structural fs => fs

def shapeElements (mode : Mode) : List Node → List TypeExpr
  | [] => []
  | n :: ns => n.shape mode :: shapeElements mode ns
termination_by structural ns => ns
end

theorem preorderFields_eq_flatMap (fs : List (String × Node)) :
    preorderFields fs = fs.flatMap fun f => f.2.preorder := by
  induction fs with
  | nil => rfl
  | cons f fs ih => rw [preorderFields, ih, List.flatMap_cons]

theorem preorderElements_eq_flatMap (ns : List Node) :
    preorderElements ns = ns.flatMap Node.preorder := by
  induction ns with
  | nil => rfl
  | cons n ns ih => rw [preorderElements, ih, List.flatMap_cons]

theorem shapeFields_eq_map (mode : Mode) (fs : List (String × Node)) :
    shapeFields mode fs = fs.map fun f => (f.1, f.2.shape mode) := by
  induction fs with
  | nil => rfl
  | cons f fs ih => rw [shapeFields, ih, List.map_cons]

theorem shapeElements_eq_map (mode : Mode) (ns : List Node) :
    shapeElements mode ns = ns.map (Node.shape mode) := by
  induction ns with
  | nil => rfl
  | cons n ns ih => rw [shapeElements, ih, List.map_cons]

namespace Node

@[simp] theorem names_primitive (s : String) : (Node.primitive s).names = [] := rfl

@[simp] theorem names_struct (name : String) (fields : List (String × Node)) :
    (Node.struct name fields).names = name :: fields.flatMap fun f => f.2.names := by
  have hown : (Node.struct name fields).ownName? = some name := rfl
  rw [names, preorder, preorderFields_eq_flatMap, List.filterMap_cons_some hown,
    List.filterMap_flatMap]
  rfl

@[simp] theorem names_enum (name : String) : (Node.enum name).names = [name] := rfl

@[simp] theorem names_tuple (elements : List Node) :
    (Node.tuple elements).names = elements.flatMap names := by
  have hown : (Node.tuple elements).ownName? = none := rfl
  rw [names, preorder, preorderElements_eq_flatMap, List.filterMap_cons_none hown,
    List.filterMap_flatMap]
  rfl

@[simp] theorem shape_struct (mode : Mode) (name : String) (fields : List (String × Node)) :
    (Node.struct name fields).shape mode = .record (fields.map fun f => (f.1, f.2.shape mode)) := by
  rw [shape, shapeFields_eq_map]

@[simp] theorem shape_tuple (mode : Mode) (elements : List Node) :
    (Node.tuple elements).shape mode = .tuple (elements.map (shape mode)) := by
  rw [shape, shapeElements_eq_map]

theorem length_filterMap_ownName? (ns : List Node) :
    (ns.filterMap ownName?).length = ns.countP fun n => n.kind = .struct ∨ n.kind = .enum := by
  rw [List.length_filterMap_eq_countP]
  refine List.countP_congr fun n _ => ?_
  cases n <;> simp [ownName?, kind]

end Node

end Schema

namespace Recs.TypeExpr

mutual
theorem ofNode_eq (mode : Mode) : ∀ (n : Node) (r : Registry),
    ofNode mode n r = (n.shape mode, ⟨r.names ++ n.names⟩)
  | .primitive s, r => by simp [ofNode, Node.shape]
  | .struct name fields, r => by simp [ofNode, ofMembers_eq mode fields]
  | .enum name, r => by simp [ofNode, Node.shape, Registry.enter]
  | .tuple elements, r => by simp [ofNode, ofElements_eq mode elements]

theorem ofMembers_eq (mode : Mode) : ∀ (fs : List (String × Node)) (r : Registry),
    ofMembers mode fs r =
      (fs.map fun f => (f.1, f.2.shape mode), ⟨r.names ++ fs.flatMap fun f => f.2.names⟩)
  | [], r => by simp [ofMembers]
  | (name, n) :: fs, r => by simp [ofMembers, ofNode_eq mode n, ofMembers_eq mode fs]

theorem ofElements_eq (mode : Mode) : ∀ (ns : List Node) (r : Registry),
    ofElements mode ns r = (ns.map (Node.shape mode), ⟨r.names ++ ns.flatMap Node.names⟩)
  | [], r => by simp [ofElements]
  | n :: ns, r => by simp [ofElements, ofNode_eq mode n, ofElements_eq mode ns]
end

theorem ofBody_eq (mode : Mode) (fields : List (String × Node)) (r : Registry) :
    ofBody mode fields r =
      (.record (fields.map fun f => (f.1, f.2.shape mode)),
        ⟨r.names ++ fields.flatMap fun f => f.2.names⟩) := by
  rw [ofBody, ofMembers_eq]

end Recs.TypeExpr

theorem Component.ofNode_struct (mode : Mode) (model name : String)
    (fields : List (String × Node)) :
    ofNode mode model (.struct name fields) =
      .ok ⟨model, (Node.struct name fields).shape mode, (Node.struct name fields).names.tail⟩ := by
  rw [ofNode, TypeExpr.ofBody_eq]
  simp [Registry.empty]

namespace Registry

inductive Step where
  | enter (name : String)
  | node (mode : Mode) (n : Node)
  | body (mode : Mode) (fields : List (String × Node))

namespace Step

def take : Step → Registry → Option TypeExpr × Registry
  | .enter name, r => (none, r.enter name)
  | .node mode n, r => (TypeExpr.ofNode mode n r).map some id
  | .body mode fields, r => (TypeExpr.ofBody mode fields r).map some id

def names : Step → List String
  | .enter name => [name]
  | .node _ n => n.names
  | .body _ fields => fields.flatMap fun f => f.2.names

def result? : Step → Option TypeExpr
  | .enter _ => none
  | .node mode n => some (n.shape mode)
  | .body mode fields => some (.record (fields.map fun f => (f.1, f.2.shape mode)))

theorem take_eq (s : Step) (r : Registry) : s.take r = (s.result?, ⟨r.names ++ s.names⟩) := by
  cases s with
  | enter name => rfl
  | node mode n =>
    rw [take, TypeExpr.ofNode_eq]
    rfl
  | body mode fields =>
    rw [take, TypeExpr.ofBody_eq]
    rfl

end Step

def run : List Step → Registry → List (Option TypeExpr) × Registry
  | [], r => ([], r)
  | s :: ss, r =>
      let (result?, r) := s.take r
      let (results, r) := run ss r
      (result? :: results, r)

theorem run_eq (steps : List Step) (r : Registry) :
    run steps r = (steps.map Step.result?, ⟨r.names ++ steps.flatMap Step.names⟩) := by
  induction steps generalizing r with
  | nil => simp [run]
  | cons s ss ih => simp [run, s.take_eq, ih]

theorem run_enters_preorder :
    (∀ (steps : List Step) (r : Registry),
      run steps r = (steps.map Step.result?, ⟨r.names ++ steps.flatMap Step.names⟩)) ∧
    ∀ (mode : Mode) (model name : String) (fields : List (String × Node)),
      Component.ofNode mode model (.struct name fields) =
        .ok ⟨model, (Node.struct name fields).shape mode, (Node.struct name fields).names.tail⟩ ∧
      (Node.struct name fields).names.head? = some name ∧
      (Node.struct name fields).names.tail.length =
        (Node.struct name fields).preorder.tail.countP fun n =>
          n.kind = .struct ∨ n.kind = .enum := by
  refine ⟨run_eq, fun mode model name fields => ⟨Component.ofNode_struct .., rfl, ?_⟩⟩
  exact Node.length_filterMap_ownName? _

end Registry

end ModelBindings
