import ModelBindings.Json.Report
import ModelBindings.Schema.Node

/-!
Schema documents: every node is a record of a tag and a content whose form the tag decides. A
document is read as such records first; `Entry.lower` then goes down node by node and knows at which
path it stands.
-/

namespace ModelBindings.Schema

open Json (Decoder Record Report Value)

inductive Error where
  | malformed (report : Report)
  | unknownTag (tag : String) (path : String)
  deriving DecidableEq, Repr

def Error.message : Error → String
  | .malformed r => "malformed schema document " ++ r.text
  | .unknownTag tag path => "unsupported schema variant `" ++ tag ++ "` at " ++ path

structure Entry where
  tag : String
  content : Value
  deriving DecidableEq, Repr, Inhabited

namespace Entry

def record : Record (Option String × Option Value) (String × Value) :=
  .two "RawNode" "type" .text "content" .any (some .null)

def decoder : Decoder Entry :=
  record.decoder.map fun (tag, content) => ⟨tag, content⟩

def primitiveContent : Decoder String :=
  (Record.one "PrimitiveContent" "scalar_type" .text none).decoder

def enumContent : Decoder String :=
  (Record.one "EnumContent" "name" .text none).decoder

def member : Decoder (String × Entry) :=
  (Record.two "RawMember" "name" .text "member_type" decoder none).decoder

def structContent : Decoder (String × List (String × Entry)) :=
  (Record.two "StructContent" "name" .text "children" (.list member) none).decoder

def tupleContent : Decoder (List Entry) :=
  .list decoder

def contentAs {α : Type} (d : Decoder α) (content : Value) (path : String) : Except Error α :=
  (d.ofValue content).mapError fun r => .malformed (r.anchorAt (path ++ ".content"))

def memberPath (path : String) (i : Nat) : String :=
  path ++ ".content.children[" ++ toString i ++ "].member_type"

def elementPath (path : String) (i : Nat) : String :=
  path ++ ".content[" ++ toString i ++ "]"

def lowerMembers (lower : Entry → String → Except Error Node) (path : String) :
    Nat → List (String × Entry) → Except Error (List (String × Node))
  | _, [] => .ok []
  | i, (name, e) :: ms => do
      let n ← lower e (memberPath path i)
      return (name, n) :: (← lowerMembers lower path (i + 1) ms)

def lowerElements (lower : Entry → String → Except Error Node) (path : String) :
    Nat → List Entry → Except Error (List Node)
  | _, [] => .ok []
  | i, e :: es => do
      let n ← lower e (elementPath path i)
      return n :: (← lowerElements lower path (i + 1) es)

/-- Lowers an entry that is at most `levels` levels high. -/
def lowerWithin : Nat → Entry → String → Except Error Node
  | 0, e, path => .error (.unknownTag e.tag path)
  | levels + 1, e, path =>
      match Kind.ofTag? e.tag with
      | some .primitive => do return .primitive (← contentAs primitiveContent e.content path)
      | some .struct => do
          let (name, children) ← contentAs structContent e.content path
          return .struct name (← lowerMembers (lowerWithin levels) path 0 children)
      | some .enum => do return .enum (← contentAs enumContent e.content path)
      | some .tuple => do
          let elements ← contentAs tupleContent e.content path
          return .tuple (← lowerElements (lowerWithin levels) path 0 elements)
      | none => .error (.unknownTag e.tag path)

/-- The entries in a content are lower than the content. -/
def lower (e : Entry) (path : String) : Except Error Node :=
  lowerWithin (e.content.height + 1) e path

end Entry

def Node.ofDocument (text : String) : Except Error Node := do
  let e ← (Entry.decoder.ofText text).mapError fun r => .malformed (r.anchorAt "$")
  e.lower "$"

end ModelBindings.Schema
