import ModelBindings.Files.Disk
import ModelBindings.Recs.Version

/-!
Choosing the mode of a run: a mode that is given outright goes before a constraint, and that before
what the package file says. Without any of them the mode is the default one.
-/

namespace ModelBindings.Recs

open Files (Disk)

inductive Origin where
  | override
  | constraint (text : String)
  | package (text : String)
  | default
  deriving DecidableEq, Repr

structure ModeRequest where
  mode : Option Mode
  constraint : Option String
  package : String
  deriving DecidableEq, Repr

def Origin.constraint? : Origin → Option String
  | .constraint text => some text
  | .package text => some text
  | _ => none

def ModeRequest.choose (s : ModeRequest) (d : Disk) : Mode × Origin :=
  match s.mode, s.constraint with
  | some m, _ => (m, .override)
  | none, some c => (.ofConstraint c, .constraint c)
  | none, none =>
      match d.readText s.package with
      | .ok text =>
          let c := constraintOfPackage text
          (.ofConstraint c, .package c)
      | .error _ => (.default, .default)

end ModelBindings.Recs
