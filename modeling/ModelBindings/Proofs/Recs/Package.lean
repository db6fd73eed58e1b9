import ModelBindings.Proofs.Json.Settled
import ModelBindings.Proofs.Json.Sole
import ModelBindings.Recs.Choice

/-!
What of a package file, and of a tree of files, has a say in the mode: the last entry for the
library among the dependencies, and no more than that.
-/

namespace ModelBindings.Recs

open Files (Disk)
open Json (Alone Blanks Decoder Holding Members MembersOf Spells Value Written blanks_nil maxDepth
  spelling_plain)

def entryText (ns : Members) : String :=
  match Members.get? library ns.reverse with
  | some (.string s) => s
  | _ => ""

/-- Among the members of the object, whatever they are, `ns` are the dependencies. They are nested
no deeper than is read inside of a package file. -/
def PackageText (ns : Members) (text : String) : Prop :=
  (Value.object ns).height < maxDepth ∧ Alone (Holding "dependencies" (Written (.object ns))) text

theorem reads_package {ns : Members} {t : List Char} (hh : (Value.object ns).height < maxDepth)
    (h : Holding "dependencies" (Written (.object ns)) t) (R : List Char → Prop) :
    package.Reads R maxDepth (Members.ofWritten (Json.settledMembers ns)) t := by
  -- The object around the dependencies takes one of the levels.
  have hdependencies (x : List Char) (hx : Written (.object ns) x) :
      Decoder.members.Reads Json.Delimited 126 (Members.ofWritten (Json.settledMembers ns)) x :=
    Decoder.reads_members hx (Nat.le_of_lt_succ hh)
  exact Json.Record.reads_one (h.imp hdependencies) R

theorem constraintOfPackage_of_packageText {ns : Members} {text : String}
    (h : PackageText ns text) : constraintOfPackage text = entryText ns := by
  obtain ⟨hh, ht⟩ := h
  have hread : package.ofWholeText? text = some (Members.ofWritten (Json.settledMembers ns)) :=
    Decoder.ofWholeText?_of_alone ht fun _ ht => reads_package hh ht _
  simp only [constraintOfPackage, hread, Members.get?_settled, entryText]
  cases Members.get? library ns.reverse with
  | none => rfl
  | some v => cases v <;> rfl

def constraintAt? (d : Disk) (path : String) : Option String :=
  (d.readText path).toOption.map constraintOfPackage

inductive Carries (d : Disk) (path : String) : Option String → Prop where
  | entry {text : String} {ns : Members} : d.readText path = .ok text → PackageText ns text →
      Carries d path (some (entryText ns))
  | nothing {f : Files.Failure} : d.readText path = .error f → Carries d path none

theorem Carries.constraintAt?_eq {d : Disk} {path : String} {e : Option String}
    (h : Carries d path e) : constraintAt? d path = e := by
  cases h with
  | entry ht hp => simp [constraintAt?, ht, Except.toOption, constraintOfPackage_of_packageText hp]
  | nothing ht => simp [constraintAt?, ht, Except.toOption]

theorem Mode.ofConstraint_empty : Mode.ofConstraint "" = .default := by decide

namespace ModeRequest

def choice (s : ModeRequest) (e : Option String) : Mode × Origin :=
  match s.mode, s.constraint, e with
  | some m, _, _ => (m, .override)
  | none, some c, _ => (.ofConstraint c, .constraint c)
  | none, none, some c => (.ofConstraint c, .package c)
  | none, none, none => (.default, .default)

theorem choose_eq_choice (s : ModeRequest) (d : Disk) :
    s.choose d = s.choice (constraintAt? d s.package) := by
  obtain ⟨mode, constraint, path⟩ := s
  rcases mode with _ | m
  · rcases constraint with _ | c
    · simp only [choose, constraintAt?]
      cases d.readText path <;> rfl
    · rfl
  · rfl

theorem choice_of_given {s : ModeRequest} (h : s.mode.isSome = true ∨ s.constraint.isSome = true)
    (e e' : Option String) : s.choice e = s.choice e' := by
  obtain ⟨mode, constraint, path⟩ := s
  rcases mode with _ | m
  · rcases constraint with _ | c
    · simp at h
    · rfl
  · rfl

theorem choice_mode {s : ModeRequest} {e : Option String} (h : (s.choice e).2 ≠ .override) :
    (s.choice e).1 = .ofConstraint ((s.choice e).2.constraint?.getD "") := by
  obtain ⟨mode, constraint, path⟩ := s
  rcases mode with _ | m
  · rcases constraint with _ | c
    · rcases e with _ | c
      · exact Mode.ofConstraint_empty.symm
      · dsimp only [choice, Origin.constraint?, Option.getD_some]
    · dsimp only [choice, Origin.constraint?, Option.getD_some]
  · exact absurd rfl h

end ModeRequest

theorem package_entry_decides :
    (∀ ns text, PackageText ns text → constraintOfPackage text = entryText ns) ∧
    (∀ (s : ModeRequest) (d d' : Disk), s.mode.isSome = true ∨ s.constraint.isSome = true →
      s.choose d = s.choose d') ∧
    (∀ (s : ModeRequest) (d d' : Disk) (e : Option String), Carries d s.package e →
      Carries d' s.package e → s.choose d = s.choose d') ∧
    ∀ (s : ModeRequest) (d : Disk), (s.choose d).2 ≠ .override →
      (s.choose d).1 = .ofConstraint ((s.choose d).2.constraint?.getD "") := by
  refine ⟨fun _ _ h => constraintOfPackage_of_packageText h, ?_, ?_, ?_⟩
  · intro s d d' h
    simp only [ModeRequest.choose_eq_choice]
    exact ModeRequest.choice_of_given h _ _
  · intro s d d' e h h'
    rw [ModeRequest.choose_eq_choice, ModeRequest.choose_eq_choice, h.constraintAt?_eq,
      h'.constraintAt?_eq]
  · intro s d
    rw [ModeRequest.choose_eq_choice]
    exact ModeRequest.choice_mode

def onlyPackage (text : String) : Disk :=
  ⟨[(["package.json"], .file (Text.Utf8.encode text))], []⟩

theorem readText_onlyPackage (text : String) :
    (onlyPackage text).readText "package.json" = .ok text := by
  have hfile : (onlyPackage text).readFile "package.json" = .ok (Text.Utf8.encode text) := rfl
  rw [Disk.readText, hfile]
  simp only [bind, Except.bind, Text.Utf8.decode?_encode]
  rfl

def pinnedTwice : List Char :=
  "\x7b\"devDependencies\":\x7b\"@dojoengine/recs\":\"1.0.0\"\x7d,\"dependencies\":".toList ++
    "\x7b\"@dojoengine/recs\":\"1.0.0\",\"@dojoengine/recs\":\"^2.0.0\"\x7d\x7d".toList

def pinnedOnce : List Char :=
  "\x7b\"dependencies\":\x7b\"@dojoengine/recs\":\"^2.0.0\"\x7d\x7d".toList

theorem keyed_library (version : String) (h : version.toList.all Json.isPlain = true) :
    Json.Keyed Written (library, .string version)
      ('"' :: library.toList ++ '"' :: [] ++ ':' :: [] ++ ('"' :: version.toList ++ ['"'])) :=
  .mk (spelling_plain (by decide)) blanks_nil blanks_nil (.string (spelling_plain h))

theorem packageText_pinnedTwice :
    PackageText [(library, .string "1.0.0"), (library, .string "^2.0.0")]
      (String.ofList pinnedTwice) := by
  have hn : Blanks [] := blanks_nil
  have hkey : Spells "dependencies" "dependencies".toList := spelling_plain (by decide)
  have hdev : Spells "devDependencies" "devDependencies".toList := spelling_plain (by decide)
  have hone := keyed_library "1.0.0" (by decide)
  have htwo := keyed_library "^2.0.0" (by decide)
  have hother := Written.object (.cons hn hn hone (.nil hn))
  have hobject := Written.object (.cons hn hn hone (.cons hn hn htwo (.nil hn)))
  have hmembers : MembersOf [("devDependencies", _), ("dependencies", _)] _ :=
    ⟨_, rfl, .cons hn hn (.mk hdev hn hn ⟨rfl, hother.isValue⟩)
      (.cons hn hn (.mk hkey hn hn ⟨rfl, hobject.isValue⟩) (.nil hn))⟩
  exact ⟨by decide, Json.alone_ofList
    ⟨_, _, hmembers, ⟨[("devDependencies", _)], [], rfl, by simp⟩, hobject⟩⟩

theorem packageText_pinnedOnce :
    PackageText [(library, .string "^2.0.0")] (String.ofList pinnedOnce) := by
  have hn : Blanks [] := blanks_nil
  have hkey : Spells "dependencies" "dependencies".toList := spelling_plain (by decide)
  have hone := keyed_library "^2.0.0" (by decide)
  have hobject := Written.object (.cons hn hn hone (.nil hn))
  have hmembers : MembersOf [("dependencies", _)] _ :=
    ⟨_, rfl, .cons hn hn (.mk hkey hn hn ⟨rfl, hobject.isValue⟩) (.nil hn)⟩
  exact ⟨by decide, Json.alone_ofList ⟨_, _, hmembers, ⟨[], [], rfl, by simp⟩, hobject⟩⟩

theorem choose_pinned :
    PackageText [(library, .string "1.0.0"), (library, .string "^2.0.0")]
        (String.ofList pinnedTwice) ∧
      constraintOfPackage (String.ofList pinnedTwice) = "^2.0.0" ∧
      ModeRequest.choose ⟨none, none, "package.json"⟩ (onlyPackage (String.ofList pinnedTwice)) =
        ModeRequest.choose ⟨none, none, "package.json"⟩
          (onlyPackage (String.ofList pinnedOnce)) := by
  obtain ⟨hconstraint, -, hcarries, -⟩ := package_entry_decides
  refine ⟨packageText_pinnedTwice, hconstraint _ _ packageText_pinnedTwice, ?_⟩
  exact hcarries ⟨none, none, "package.json"⟩ _ _ (some "^2.0.0")
    (.entry (readText_onlyPackage _) packageText_pinnedTwice)
    (.entry (readText_onlyPackage _) packageText_pinnedOnce)

end ModelBindings.Recs
