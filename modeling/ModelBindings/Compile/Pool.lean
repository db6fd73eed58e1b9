import ModelBindings.Compile

/-!
Compiling with several queries under way at once. Each model of the manifest is a job. Jobs start
and finish in any order, and one that has not started may be dropped once another has failed; the
components are put together in the order of the manifest. `Pool.batches` is the order that is run.
-/

namespace ModelBindings

open Recs (Mode)
open Schema (Source)

abbrev Compiled := Except CompileError Component

inductive Job where
  | waiting
  | running
  | done (r : Compiled)
  | dropped

namespace Job

def isSettled : Job → Bool
  | .done _ => true
  | .dropped => true
  | _ => false

def component? : Job → Option Component
  | .done (.ok c) => some c
  | _ => none

end Job

inductive Event where
  | start (i : Nat)
  | finish (i : Nat)
  | drop (i : Nat)
  deriving DecidableEq, Repr

structure Pool where
  jobs : List (String × Job)
  asked : List String
  failures : List CompileError

namespace Pool

def ofModels (models : List String) : Pool :=
  ⟨models.map fun m => (m, .waiting), [], []⟩

def failuresOf : Compiled → List CompileError
  | .ok _ => []
  | .error e => [e]

def step (work : String → Compiled) (p : Pool) : Event → Option Pool
  | .start i =>
      match p.jobs[i]? with
      | some (m, .waiting) =>
          some { p with jobs := p.jobs.set i (m, .running), asked := p.asked ++ [m] }
      | _ => none
  | .finish i =>
      match p.jobs[i]? with
      | some (m, .running) =>
          let r := work m
          some { p with
            jobs := p.jobs.set i (m, .done r)
            failures := p.failures ++ failuresOf r }
      | _ => none
  | .drop i =>
      match p.jobs[i]?, p.failures with
      | some (m, .waiting), _ :: _ => some { p with jobs := p.jobs.set i (m, .dropped) }
      | _, _ => none

def run (work : String → Compiled) (p : Pool) : List Event → Option Pool
  | [] => some p
  | e :: es => (p.step work e).bind fun q => q.run work es

def isSettled (p : Pool) : Bool :=
  p.jobs.all fun j => j.2.isSettled

def components? (p : Pool) : Option (List Component) :=
  p.jobs.mapM fun j => j.2.component?

/-- What a settled pool may return: any error that was met, or else all components. -/
inductive Returns (p : Pool) : Except CompileError (List Component) → Prop where
  | failure {e : CompileError} : e ∈ p.failures → Returns p (.error e)
  | success {cs : List Component} : p.failures = [] → p.components? = some cs → Returns p (.ok cs)

def batches (size n : Nat) : List (List Nat) :=
  (List.range ((n + size - 1) / size)).map fun b => (List.range n).filter fun i => i / size == b

def runBatch (work : String → Compiled) (p : Pool) (batch : List Nat) : Pool :=
  let es :=
    if p.failures.isEmpty then batch.map Event.start ++ batch.map Event.finish
    else batch.map Event.drop
  (p.run work es).getD p

def outcome (p : Pool) : Except CompileError (List Component) :=
  match p.failures with
  | e :: _ => .error e
  | [] => .ok (p.components?.getD [])

end Pool

def Walk.pooled (mode : Mode) (source : Source) (jobs : Nat) (models : List String) : Walk :=
  let batches := Pool.batches (max jobs 1) models.length
  let p := batches.foldl (Pool.runBatch (Component.ofSource mode source)) (.ofModels models)
  ⟨p.asked, p.outcome⟩

def Manifest.componentsPooled (m : Manifest) (mode : Mode) (source : Source) (jobs : Nat) :
    Except CompileError (List Component) :=
  (Walk.pooled mode source jobs m.names).outcome

def Walk.withJobs (mode : Mode) (source : Source) (jobs : Nat) (models : List String) : Walk :=
  if 1 < jobs then Walk.pooled mode source jobs models else Walk.inOrder mode source models

end ModelBindings
