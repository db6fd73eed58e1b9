import ModelBindings.Proofs.Cli.Generate
import ModelBindings.Proofs.Json.Compact
import ModelBindings.Proofs.Manifest

/-!
Inspecting a model and generating a manifest of it alone. Both fail alike, and what the one prints
stands in the file of the other.
-/

namespace ModelBindings

open Recs (Mode ModeRequest)
open Schema (Ending Host Source)

theorem Walk.Possible.outcome_of_one {mode : Mode} {source : Source} {jobs : Nat} {model : String}
    {w : Walk} (h : Walk.Possible mode source jobs [model] w) :
    w.outcome = (Component.ofSource mode source model).map ([·]) := by
  have hone : (Walk.inOrder mode source [model]).outcome =
      (Component.ofSource mode source model).map ([·]) := by
    rw [Walk.inOrder]
    cases Component.ofSource mode source model <;> rfl
  rw [← hone]
  cases h with
  | alone => rfl
  | pool _ hrun hs hr =>
    have hp := Pool.sound_run (Pool.sound_ofModels _ _) hrun
    exact Walk.returns_eq_of_one_name hp hs hr fun m hm _ _ => List.mem_singleton.mp hm

def oneDefinition (model expression name types : String) : String :=
  String.join
    [Component.header, "\n", Component.imports, "\n",
     "export function defineContractComponents(world: World) \x7b\n",
     "  return \x7b\n",
     "    ", model, ": (() => \x7b\n",
     "      return defineComponent(\n",
     "        world,\n",
     "        ", expression, ",\n",
     "        \x7b\n",
     "          metadata: \x7b\n",
     "            name: ", name, ",\n",
     "            types: ", types, ",\n",
     "          \x7d,\n",
     "        \x7d\n",
     "      );\n",
     "    \x7d)(),\n",
     "  \x7d;\n",
     "\x7d\n"]

theorem componentsFile_one (c : Component) :
    componentsFile [c] =
      oneDefinition c.model c.type.text (Json.printString c.model) (Json.printStrings c.types) := by
  simp only [componentsFile, Component.block, oneDefinition, List.map_cons, List.map_nil,
    String.join_cons, String.join_nil, String.append_empty, String.append_assoc]

namespace Cli

variable {h : Host} {s : Inspect} {path text : String} {jobs : Nat} {o : Outcome}

def Inspect.modeOn (s : Inspect) (h : Host) : Mode := (s.mode.choose h.disk).1

def Inspect.component (s : Inspect) (h : Host) : Except CompileError Component :=
  Component.ofSource (s.modeOn h) (s.connection.connection.source h) s.model

def Inspect.generating (s : Inspect) (manifest : String) (jobs : Nat) : Generate :=
  ⟨manifest, standardOutput, jobs, s.connection, s.mode, false⟩

theorem inspect_of_unavailable (ha : s.connection.connection.isAvailable h = false) :
    inspect h s = .idle h (banner (s.modeOn h)) (.error (.noTool s.connection.program)) := by
  simp only [inspect, ha, Bool.false_eq_true, if_false]
  rfl

theorem inspect_of_error (ha : s.connection.connection.isAvailable h = true) {e : CompileError}
    (hc : s.component h = .error e) :
    (inspect h s).result = .error (.compile e) := by
  rw [Inspect.component, Inspect.modeOn] at hc
  simp only [inspect, ha, hc, if_true]

theorem inspect_of_ok (ha : s.connection.connection.isAvailable h = true) {c : Component}
    (hc : s.component h = .ok c) :
    (inspect h s).result = .ok () ∧ (inspect h s).stdout = description c := by
  rw [Inspect.component, Inspect.modeOn] at hc
  simp only [inspect, ha, hc, if_true]
  exact ⟨trivial, trivial⟩

/-- How the two runs end: without the tool, at the fault of the model, or with its component. -/
theorem generating_cases (hread : h.disk.readText path = .ok text)
    (hm : Manifest.ofText text = .ok ⟨[s.model]⟩) (hg : Generates h (s.generating path jobs) o) :
    (∃ e, (inspect h s).result = .error e ∧ o.result = .error e ∧
      ¬ (s.connection.connection.isAvailable h = true ∧ ∃ c, s.component h = .ok c)) ∨
    ∃ c, s.connection.connection.isAvailable h = true ∧ s.component h = .ok c ∧
      (inspect h s).result = .ok () ∧ o.result = .ok () ∧
      (inspect h s).stdout = description c ∧ o.stdout = componentsFile [c] := by
  cases hg with
  | @mk walk hw =>
    cases ha : s.connection.connection.isAvailable h with
    | false =>
      refine .inl ⟨_, by rw [inspect_of_unavailable ha]; rfl, ?_, ?_⟩
      · have hclient : (s.generating path jobs).client.isAvailable h = false := ha
        rw [generateBy, hclient]
        rfl
      · rintro ⟨ht, -⟩
        cases ht
    | true =>
      have hready : Ready h (s.generating path jobs) ⟨[s.model]⟩ :=
        ready_iff.mpr ⟨ha, readManifest_eq_ok_iff.mpr ⟨text, hread, hm⟩⟩
      have hout : (walk [s.model]).outcome = (s.component h).map ([·]) :=
        (hw [s.model]).outcome_of_one
      cases hc : s.component h with
      | error e =>
        rw [hc] at hout
        refine .inl ⟨_, inspect_of_error ha hc, ?_, ?_⟩
        · rw [generateBy_of_error hready hout]
        · rintro ⟨-, c, hok⟩
          cases hok
      | ok c =>
        rw [hc] at hout
        obtain ⟨hresult, hstdout⟩ := inspect_of_ok ha hc
        refine .inr ⟨c, rfl, rfl, hresult, ?_, hstdout, ?_⟩
        · rw [generateBy_of_ok hready hout]
          rfl
        · rw [generateBy_of_ok hready hout]
          rfl

theorem inspect_agrees_with_generate (hread : h.disk.readText path = .ok text)
    (hlist : Manifest.decoder.ofText text = .ok ⟨[s.model]⟩)
    (hblank : Text.allBlank s.model = false) (jobs : Nat) (verbose verbose' : Bool) :
    Generates h (s.generating path jobs) (run h ⟨verbose', .generate (s.generating path jobs)⟩) ∧
    ∀ o, Generates h (s.generating path jobs) o →
      (run h ⟨verbose, .inspect s⟩).result = o.result ∧
      (o.result = .ok () ↔
        s.connection.connection.isAvailable h = true ∧ ∃ c, s.component h = .ok c) ∧
      (o.result = .ok () → ∃ c expression list, s.component h = .ok c ∧
        expression = c.type.text ∧ list = Json.printStrings c.types ∧
        (∀ digits, list = (Json.Value.array (c.types.map .string)).text digits) ∧
        (run h ⟨verbose, .inspect s⟩).stdout =
          expression ++ "\n" ++ "types: " ++ list ++ "\n" ∧
        o.stdout = oneDefinition s.model expression (Json.printString s.model) list) := by
  have hm := Manifest.ofText_of_one hlist hblank
  refine ⟨generates_generate h _, fun o hg => ?_⟩
  rw [show run h ⟨verbose, .inspect s⟩ = inspect h s from rfl]
  rcases generating_cases hread hm hg with ⟨e, hi, ho, hn⟩ | ⟨c, ha, hc, hi, ho, hstdout, hfile⟩
  · rw [hi, ho]
    exact ⟨rfl, iff_of_false nofun hn, nofun⟩
  · refine ⟨hi.trans ho.symm, iff_of_true ho ⟨ha, c, hc⟩, fun _ => ?_⟩
    have hmodel : c.model = s.model := Component.model_of_ofSource hc
    refine ⟨c, _, _, hc, rfl, rfl, fun digits => (Json.text_strings digits c.types).symm, ?_, ?_⟩
    · rw [hstdout, description]
      simp [String.append_assoc]
    · rw [hfile, componentsFile_one, hmodel]

def oneManifest : String := "\x7b\"models\":[\x7b\"name\":\"Moves\"\x7d]\x7d"

def movesDocument : String :=
  "\x7b\"type\":\"struct\",\"content\":\x7b\"name\":\"Moves\",\"children\":[" ++
    "\x7b\"name\":\"last\",\"member_type\":" ++
      "\x7b\"type\":\"enum\",\"content\":\x7b\"name\":\"Turn\"\x7d\x7d\x7d]\x7d\x7d"

def movesHost (ending : Ending) : Host where
  disk := ⟨[(["m"], .file (Text.Utf8.encode oneManifest)), (["bin"], .directory),
    (["bin", "sozo"], .file [])], []⟩
  tools := [(["bin", "sozo"],
    .scripted (.exit 0) fun _ => ⟨Text.Utf8.encode movesDocument, [0x21], ending, 0⟩)]
  searchPath := ["/bin"]

def inspectMoves : Inspect :=
  ⟨"Moves", ⟨"url", "world", Schema.Connection.defaultProgram, none⟩,
    ⟨some .narrow, none, "package.json"⟩⟩

theorem component_moves :
    inspectMoves.component (movesHost (.exit 0)) =
      .ok ⟨"Moves", .record [("last", .scalar .number)], ["Turn"]⟩ := by
  have hdocument : Schema.Node.ofDocument movesDocument =
      .ok (.struct "Moves" [("last", .enum "Turn")]) := by decide +kernel
  have hreply : inspectMoves.connection.connection.Succeeds
      ⟨Text.Utf8.encode movesDocument, [0x21], .exit 0, 0⟩ movesDocument :=
    ⟨nofun, rfl, by simp only [Text.Utf8.decode?_encode]⟩
  have hsource : inspectMoves.connection.connection.source (movesHost (.exit 0)) "Moves" =
      .ok (.struct "Moves" [("last", .enum "Turn")]) :=
    Schema.Connection.source_eq_ok_iff.mpr
      ⟨_, _, Host.run_of_passable rfl (by decide), hreply, hdocument⟩
  rw [Inspect.component, Component.ofSource, show inspectMoves.model = "Moves" from rfl, hsource]
  rfl

theorem inspect_agrees_with_generate_moves :
    (run (movesHost (.exit 1)) ⟨false, .generate (inspectMoves.generating "m" 4)⟩).result =
        .error (.compile (.fetch "Moves" (.failed "sozo" (.exit 1) "!"))) ∧
      (run (movesHost (.exit 0)) ⟨false, .inspect inspectMoves⟩).stdout =
        "\x7b last: RecsType.Number \x7d\ntypes: [\"Turn\"]\n" ∧
      (run (movesHost (.exit 0)) ⟨false, .generate (inspectMoves.generating "m" 4)⟩).stdout =
        oneDefinition "Moves" "\x7b last: RecsType.Number \x7d" "\"Moves\"" "[\"Turn\"]" := by
  have hread (ending : Ending) : (movesHost ending).disk.readText "m" = .ok oneManifest := by
    have hfile : (movesHost ending).disk.readFile "m" = .ok (Text.Utf8.encode oneManifest) := rfl
    rw [Files.Disk.readText, hfile, Json.ok_bind, Text.Utf8.decode?_encode]
    rfl
  have hlist : Manifest.decoder.ofText oneManifest = .ok ⟨[inspectMoves.model]⟩ := by
    decide +kernel
  have hblank : Text.allBlank inspectMoves.model = false := by decide
  obtain ⟨hrun, hbad⟩ :=
    inspect_agrees_with_generate (hread (.exit 1)) hlist hblank 4 false false
  obtain ⟨hrun', hgood⟩ :=
    inspect_agrees_with_generate (hread (.exit 0)) hlist hblank 4 false false
  obtain ⟨-, hok, hprints⟩ := hgood _ hrun'
  obtain ⟨c, _, _, hc, rfl, rfl, -, hstdout, hfile⟩ :=
    hprints (hok.mpr ⟨rfl, _, component_moves⟩)
  cases hc.symm.trans component_moves
  refine ⟨?_, hstdout.trans (by decide +kernel), hfile.trans (by decide +kernel)⟩
  rw [← (hbad _ hrun).1]
  have htrim : Text.trim (Text.Utf8.decodeLossy [0x21]) = "!" := by decide +kernel
  rw [← htrim]
  exact inspect_of_error rfl rfl

end Cli

end ModelBindings
