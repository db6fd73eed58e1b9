import ModelBindings.Component
import ModelBindings.Manifest
import ModelBindings.Schema.Source

namespace ModelBindings

open Recs (Mode TypeExpr)
open Schema (Node Source FetchError Kind)

inductive CompileError where
  | fetch (model : String) (cause : FetchError)
  | root (model : String) (found : Kind)
  deriving DecidableEq, Repr

namespace CompileError

def model : CompileError → String
  | .fetch model _ => model
  | .root model _ => model

def chain : CompileError → List String
  | .fetch model cause => ("error when fetching schema for model '" ++ model ++ "'") :: cause.chain
  | .root model found =>
      ["model '" ++ model ++ "' has unsupported root schema type `" ++ found.tag ++
        "` (expected `struct`)"]

def message (e : CompileError) : String :=
  ": ".intercalate e.chain

end CompileError

namespace Component

/-- The root of a model's schema must be a struct. Its name is not entered among the types. -/
def ofNode (mode : Mode) (model : String) : Node → Except CompileError Component
  | .struct _ fields =>
      let (e, r) := TypeExpr.ofBody mode fields .empty
      .ok ⟨model, e, r.names⟩
  | n => .error (.root model n.kind)

def ofSource (mode : Mode) (source : Source) (model : String) : Except CompileError Component := do
  ofNode mode model (← (source model).mapError (.fetch model))

end Component

structure Walk where
  asked : List String
  outcome : Except CompileError (List Component)

namespace Walk

variable {mode : Mode} {source : Source} {model : String}

def inOrder (mode : Mode) (source : Source) : List String → Walk
  | [] => ⟨[], .ok []⟩
  | model :: models =>
      match Component.ofSource mode source model with
      | .error e => ⟨[model], .error e⟩
      | .ok c =>
          let w := inOrder mode source models
          ⟨model :: w.asked, w.outcome.map (c :: ·)⟩

theorem inOrder_cons_ok {c : Component} (h : Component.ofSource mode source model = .ok c)
    (models : List String) :
    inOrder mode source (model :: models) =
      ⟨model :: (inOrder mode source models).asked,
        (inOrder mode source models).outcome.map (c :: ·)⟩ := by
  simp [inOrder, h]

theorem inOrder_cons_error {e : CompileError}
    (h : Component.ofSource mode source model = .error e) (models : List String) :
    inOrder mode source (model :: models) = ⟨[model], .error e⟩ := by
  simp [inOrder, h]

end Walk

def Manifest.components (m : Manifest) (mode : Mode) (source : Source) :
    Except CompileError (List Component) :=
  (Walk.inOrder mode source m.names).outcome

end ModelBindings
