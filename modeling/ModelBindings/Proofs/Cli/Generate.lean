import ModelBindings.Cli.Run
import ModelBindings.Proofs.Compile.Schedule
import ModelBindings.Proofs.Schema.Query

/-!
Generating publishes a whole result or nothing. A run that meets a fault on the way to the file
leaves the disk as it was, whatever the order in which its queries are made.
-/

namespace ModelBindings.Cli

open Json (bind_eq_ok_iff mapError_eq_ok_iff)
open Recs (Mode)
open Schema (Connection Ending Host Node Tool)

variable {h : Host} {s : Generate} {m : Manifest} {o : Outcome} {walk : List String → Walk}

def Generate.client (s : Generate) : Connection := s.connection.connection

def Generate.modeOn (s : Generate) (h : Host) : Mode := (s.mode.choose h.disk).1

structure Ready (h : Host) (s : Generate) (m : Manifest) : Prop where
  available : s.client.Available h
  manifest : ∃ text, h.disk.readText s.manifest = .ok text ∧ Manifest.ofText text = .ok m

def Compiles (h : Host) (s : Generate) (model : String) (c : Component) : Prop :=
  ∃ n, s.client.Answers h model n ∧ Component.ofNode (s.modeOn h) model n = .ok c

inductive Faulty (h : Host) (s : Generate) : Prop where
  | probe : ¬ s.client.Available h → Faulty h s
  | unreadable {f : Files.Failure} : h.disk.readText s.manifest = .error f → Faulty h s
  | invalid {text : String} {e : Manifest.Error} : h.disk.readText s.manifest = .ok text →
      Manifest.ofText text = .error e → Faulty h s
  | model {m : Manifest} {model : String} : Ready h s m → model ∈ m.names →
      (∀ name fields, ¬ s.client.Answers h model (.struct name fields)) → Faulty h s

/-- A run in which the models are walked as `walk` does. -/
def generateBy (walk : List String → Walk) (h : Host) (s : Generate) : Outcome :=
  let stderr := banner (s.modeOn h)
  if s.client.isAvailable h then
    match readManifest h s.manifest with
    | .error e => .idle h stderr (.error e)
    | .ok m =>
        let w := walk m.names
        let queries := s.client.queries h w.asked
        match w.outcome with
        | .error e => ⟨.error (.compile e), "", stderr, h.disk, queries⟩
        | .ok cs => deliver h s.out stderr (componentsFile cs) queries
  else .idle h stderr (.error (.noTool s.client.program))

inductive Generates (h : Host) (s : Generate) : Outcome → Prop where
  | mk {walk : List String → Walk} :
      (∀ models, Walk.Possible (s.modeOn h) (s.client.source h) s.jobs models (walk models)) →
      Generates h s (generateBy walk h s)

theorem generates_generate (h : Host) (s : Generate) : Generates h s (generate h s) :=
  @Generates.mk h s (Walk.withJobs (s.modeOn h) (s.client.source h) s.jobs)
    fun models => Walk.possible_withJobs _ _ _ models

theorem readManifest_eq_ok_iff {path : String} : readManifest h path = .ok m ↔
    ∃ text, h.disk.readText path = .ok text ∧ Manifest.ofText text = .ok m := by
  simp only [readManifest, bind_eq_ok_iff, mapError_eq_ok_iff]

theorem ready_iff :
    Ready h s m ↔ s.client.isAvailable h = true ∧ readManifest h s.manifest = .ok m := by
  rw [Connection.isAvailable_iff, readManifest_eq_ok_iff]
  exact ⟨fun hr => ⟨hr.available, hr.manifest⟩, fun ⟨ha, hm⟩ => ⟨ha, hm⟩⟩

theorem Ready.unique {m' : Manifest} (hr : Ready h s m) (hr' : Ready h s m') : m = m' :=
  Except.ok.inj ((ready_iff.mp hr).2.symm.trans (ready_iff.mp hr').2)

theorem compiles_iff {model : String} {c : Component} : Compiles h s model c ↔
    Component.ofSource (s.modeOn h) (s.client.source h) model = .ok c := by
  rw [Component.ofSource, bind_eq_ok_iff]
  refine exists_congr fun n => and_congr_left fun _ => ?_
  rw [mapError_eq_ok_iff, Connection.source_eq_ok_iff]

theorem exists_compiles_iff {model : String} : (∃ c, Compiles h s model c) ↔
    ∃ name fields, s.client.Answers h model (.struct name fields) := by
  constructor
  · rintro ⟨c, n, ha, hc⟩
    cases n with
    | struct name fields => exact ⟨name, fields, ha⟩
    | primitive t => cases hc
    | enum name => cases hc
    | tuple elements => cases hc
  · rintro ⟨name, fields, ha⟩
    exact ⟨_, _, ha, rfl⟩

theorem exists_forall₂_compiles {models : List String}
    (hm : ∀ model ∈ models, ∃ c, Compiles h s model c) :
    ∃ cs, List.Forall₂ (Compiles h s) models cs := by
  induction models with
  | nil => exact ⟨[], .nil⟩
  | cons model models ih =>
    obtain ⟨c, hc⟩ := hm model (by simp)
    obtain ⟨cs, hcs⟩ := ih fun k hk => hm k (List.mem_cons_of_mem _ hk)
    exact ⟨c :: cs, .cons hc hcs⟩

theorem faulty_or_complete (h : Host) (s : Generate) :
    Faulty h s ∨ ∃ m cs, Ready h s m ∧ List.Forall₂ (Compiles h s) m.names cs := by
  by_cases ha : s.client.Available h
  · cases ht : h.disk.readText s.manifest with
    | error f => exact .inl (.unreadable ht)
    | ok text =>
      cases hm : Manifest.ofText text with
      | error e => exact .inl (.invalid ht hm)
      | ok m =>
        have hr : Ready h s m := ⟨ha, text, ht, hm⟩
        by_cases hall : ∀ model ∈ m.names, ∃ c, Compiles h s model c
        · obtain ⟨cs, hcs⟩ := exists_forall₂_compiles hall
          exact .inr ⟨m, cs, hr, hcs⟩
        · push Not at hall
          obtain ⟨model, hmem, hno⟩ := hall
          refine .inl (.model hr hmem fun name fields hans => ?_)
          obtain ⟨c, hc⟩ := exists_compiles_iff.mpr ⟨name, fields, hans⟩
          exact hno c hc
  · exact .inl (.probe ha)

theorem not_complete_of_faulty (hf : Faulty h s) {cs : List Component} (hr : Ready h s m) :
    ¬ List.Forall₂ (Compiles h s) m.names cs := by
  intro hcs
  obtain ⟨text, ht, hm⟩ := hr.manifest
  cases hf with
  | probe ha => exact ha hr.available
  | unreadable hu => cases ht.symm.trans hu
  | invalid ht' hm' =>
    cases ht.symm.trans ht'
    cases hm.symm.trans hm'
  | model hr' hmem hno =>
    cases hr.unique hr'
    have hall : ∀ model ∈ m.names, ∃ c, Compiles h s model c :=
      ((List.forall₂_and_left _ _).mp (hcs.imp fun _ c hc => ⟨⟨c, hc⟩, hc⟩)).1
    obtain ⟨name, fields, hans⟩ := exists_compiles_iff.mp (hall _ hmem)
    exact hno name fields hans

theorem generateBy_of_not_ready (hn : ∀ m, ¬ Ready h s m) :
    ∃ e, generateBy walk h s = .idle h (banner (s.modeOn h)) (.error e) := by
  rw [generateBy]
  split
  · rename_i ha
    cases hm : readManifest h s.manifest with
    | error e => exact ⟨e, rfl⟩
    | ok m => exact absurd (ready_iff.mpr ⟨ha, hm⟩) (hn m)
  · exact ⟨_, rfl⟩

theorem generateBy_of_error (hr : Ready h s m) {e : CompileError}
    (hw : (walk m.names).outcome = .error e) :
    generateBy walk h s = ⟨.error (.compile e), "", banner (s.modeOn h), h.disk,
      s.client.queries h (walk m.names).asked⟩ := by
  obtain ⟨ha, hm⟩ := ready_iff.mp hr
  simp only [generateBy, ha, hm, hw, if_true]

theorem generateBy_of_ok (hr : Ready h s m) {cs : List Component}
    (hw : (walk m.names).outcome = .ok cs) :
    generateBy walk h s = deliver h s.out (banner (s.modeOn h)) (componentsFile cs)
      (s.client.queries h (walk m.names).asked) := by
  obtain ⟨ha, hm⟩ := ready_iff.mp hr
  simp only [generateBy, ha, hm, hw, if_true]

/-- How a run ends: before any query, at a fault of a model, or with the whole file at hand. -/
theorem generates_cases (hg : Generates h s o) :
    ((∀ m, ¬ Ready h s m) ∧ ∃ e, o = .idle h (banner (s.modeOn h)) (.error e)) ∨
    (∃ m e asked, Ready h s m ∧ (¬ ∃ cs, List.Forall₂ (Compiles h s) m.names cs) ∧
      o = ⟨.error (.compile e), "", banner (s.modeOn h), h.disk, s.client.queries h asked⟩) ∨
    ∃ m cs asked, Ready h s m ∧ List.Forall₂ (Compiles h s) m.names cs ∧ asked.Perm m.names ∧
      o = deliver h s.out (banner (s.modeOn h)) (componentsFile cs)
        (s.client.queries h asked) := by
  cases hg with
  | @mk walk hw =>
    by_cases hready : ∃ m, Ready h s m
    · obtain ⟨m, hr⟩ := hready
      have hp := hw m.names
      have hok {cs : List Component} :
          (walk m.names).outcome = .ok cs ↔ List.Forall₂ (Compiles h s) m.names cs := by
        rw [hp.outcome_eq_ok_iff]
        exact ⟨.imp fun _ _ => compiles_iff.mpr, .imp fun _ _ => compiles_iff.mp⟩
      cases ho : (walk m.names).outcome with
      | error e =>
        refine .inr (.inl ⟨m, e, _, hr, ?_, generateBy_of_error hr ho⟩)
        rintro ⟨cs, hcs⟩
        cases ho.symm.trans (hok.mpr hcs)
      | ok cs =>
        exact .inr (.inr ⟨m, cs, _, hr, hok.mp ho, hp.asked_perm ho, generateBy_of_ok hr ho⟩)
    · push Not at hready
      exact .inl ⟨hready, generateBy_of_not_ready hready⟩

theorem compiles_unique {model : String} {c c' : Component} (hc : Compiles h s model c)
    (hc' : Compiles h s model c') : c = c' :=
  Except.ok.inj ((compiles_iff.mp hc).symm.trans (compiles_iff.mp hc'))

theorem forall₂_compiles_unique {models : List String} {cs cs' : List Component}
    (hcs : List.Forall₂ (Compiles h s) models cs) (hcs' : List.Forall₂ (Compiles h s) models cs') :
    cs = cs' := by
  induction hcs generalizing cs' with
  | nil =>
    cases hcs'
    rfl
  | cons hc _ ih =>
    cases hcs' with
    | cons hc' hcs' => rw [compiles_unique hc hc', ih hcs']

theorem queries_perm {models asked : List String} {cs : List Component}
    (hcs : List.Forall₂ (Compiles h s) models cs) (hp : asked.Perm models) :
    (s.client.queries h asked).Perm (models.map s.client.arguments) := by
  have hall : ∀ model ∈ models, ∃ n, s.client.Answers h model n :=
    ((List.forall₂_and_left _ _).mp
      (hcs.imp fun _ c ⟨n, hn, hc⟩ => ⟨⟨n, hn⟩, (⟨n, hn, hc⟩ : Compiles h s _ c)⟩)).1
  rw [Connection.queries_eq_map fun model hm => hall model (hp.mem_iff.mp hm)]
  exact hp.map _

theorem run_generate {i : Invocation} (hi : i.command = .generate s) (hn : s.noOp = false) :
    run h i = generate h s := by
  simp [run, hi, hn]

theorem deliver_queries (h : Host) (out stderr file : String) (queries : List (List String)) :
    (deliver h out stderr file queries).queries = queries := by
  rw [deliver]
  split
  · rfl
  · split <;> rfl

theorem deliver_of_ne {out : String} (ho : out ≠ standardOutput) (stderr file : String)
    (queries : List (List String)) :
    (deliver h out stderr file queries).result =
        (h.disk.publish out file).1.mapError .publish ∧
      (deliver h out stderr file queries).disk = (h.disk.publish out file).2 ∧
      (deliver h out stderr file queries).stdout = "" := by
  rw [deliver, if_neg ho]
  split
  · rename_i hp
    rw [hp]
    exact ⟨rfl, rfl, rfl⟩
  · rename_i hp
    rw [hp]
    exact ⟨rfl, rfl, rfl⟩

theorem generates_of_faulty (hg : Generates h s o) (hf : Faulty h s) :
    (∃ e, o.result = .error e) ∧ o.stdout = "" ∧ o.disk = h.disk := by
  obtain ⟨-, e, rfl⟩ | ⟨m, e, asked, -, -, rfl⟩ | ⟨m, cs, asked, hr, hcs, -, -⟩ :=
    generates_cases hg
  · exact ⟨⟨e, rfl⟩, rfl, rfl⟩
  · exact ⟨⟨_, rfl⟩, rfl, rfl⟩
  · exact absurd hcs (not_complete_of_faulty hf hr)

theorem generates_queries (hg : Generates h s o) :
    (o.queries ≠ [] → ∃ m, Ready h s m) ∧
      (o.result = .ok () →
        ∃ m, Ready h s m ∧ o.queries.Perm (m.names.map s.client.arguments)) := by
  obtain ⟨-, e, rfl⟩ | ⟨m, e, asked, hr, -, rfl⟩ | ⟨m, cs, asked, hr, hcs, hp, rfl⟩ :=
    generates_cases hg
  · exact ⟨fun hq => absurd rfl hq, nofun⟩
  · exact ⟨fun _ => ⟨m, hr⟩, nofun⟩
  · refine ⟨fun _ => ⟨m, hr⟩, fun _ => ⟨m, hr, ?_⟩⟩
    rw [deliver_queries]
    exact queries_perm hcs hp

theorem generates_of_complete (hg : Generates h s o) (hr : Ready h s m) {cs : List Component}
    (hcs : List.Forall₂ (Compiles h s) m.names cs) :
    (s.out = standardOutput → o.result = .ok () ∧ o.stdout = componentsFile cs ∧ o.disk = h.disk) ∧
      (s.out ≠ standardOutput →
        o.result = (h.disk.publish s.out (componentsFile cs)).1.mapError .publish ∧
        o.disk = (h.disk.publish s.out (componentsFile cs)).2 ∧ o.stdout = "") := by
  obtain ⟨hno, -⟩ | ⟨m', e, asked, hr', hno, -⟩ | ⟨m', cs', asked, hr', hcs', -, rfl⟩ :=
    generates_cases hg
  · exact absurd hr (hno m)
  · cases hr.unique hr'
    exact absurd ⟨cs, hcs⟩ hno
  · cases hr.unique hr'
    cases forall₂_compiles_unique hcs hcs'
    refine ⟨fun ho => ?_, fun ho => deliver_of_ne ho _ _ _⟩
    rw [deliver, if_pos ho]
    exact ⟨rfl, rfl, rfl⟩

theorem run_publishes_only_complete (h : Host) (i : Invocation) (s : Generate)
    (hi : i.command = .generate s) (hn : s.noOp = false) :
    Generates h s (run h i) ∧
    (Faulty h s ∨ ∃ m cs, Ready h s m ∧ List.Forall₂ (Compiles h s) m.names cs) ∧
    ∀ o, Generates h s o →
      (Faulty h s → (∃ e, o.result = .error e) ∧ o.stdout = "" ∧ o.disk = h.disk) ∧
      (o.queries ≠ [] → ∃ m, Ready h s m) ∧
      (o.result = .ok () →
        ∃ m, Ready h s m ∧ o.queries.Perm (m.names.map fun model =>
          ["model", "schema", model, "--rpc-url", s.connection.rpcUrl, "--json",
            "--world", s.connection.world])) ∧
      ∀ m cs, Ready h s m → List.Forall₂ (Compiles h s) m.names cs →
        (s.out = "-" → o.result = .ok () ∧ o.stdout = componentsFile cs ∧ o.disk = h.disk) ∧
        (s.out ≠ "-" → o.result = (h.disk.publish s.out (componentsFile cs)).1.mapError .publish ∧
          o.disk = (h.disk.publish s.out (componentsFile cs)).2 ∧ o.stdout = "") := by
  refine ⟨?_, faulty_or_complete h s, fun o hg => ⟨generates_of_faulty hg, ?_⟩⟩
  · rw [run_generate hi hn]
    exact generates_generate h s
  · obtain ⟨hready, hperm⟩ := generates_queries hg
    exact ⟨hready, hperm, fun m cs hr hcs => generates_of_complete hg hr hcs⟩

def twoModels : String := "\x7b\"models\":[\x7b\"name\":\"A\"\x7d,\x7b\"name\":\"B\"\x7d]\x7d"

def emptyStruct : String :=
  "\x7b\"type\":\"struct\",\"content\":\x7b\"name\":\"S\",\"children\":[]\x7d\x7d"

def replying (ending : Ending) : Tool :=
  .scripted (.exit 0) fun model =>
    ⟨Text.Utf8.encode emptyStruct, [], if model = "B" then ending else .exit 0, 0⟩

def machine (ending : Ending) : Host where
  disk := ⟨[(["m"], .file (Text.Utf8.encode twoModels)), (["bin"], .directory),
    (["bin", "sozo"], .file []), (["out"], .file (Text.Utf8.encode "previous"))], []⟩
  tools := [(["bin", "sozo"], replying ending)]
  searchPath := ["/bin"]

def toOut : Generate :=
  ⟨"m", "out", 2, ⟨"url", "world", Connection.defaultProgram, none⟩,
    ⟨some .narrow, none, "package.json"⟩, false⟩

theorem run_replying (ending : Ending) {words : List String}
    (hw : ∀ s ∈ words, Schema.Passable s) :
    (machine ending).run toOut.client.program words = .ok (replying ending words) :=
  Host.run_of_passable rfl hw

theorem ready_machine (ending : Ending) : Ready (machine ending) toOut ⟨["A", "B"]⟩ := by
  have hread : (machine ending).disk.readFile toOut.manifest =
      .ok (Text.Utf8.encode twoModels) := rfl
  refine ⟨⟨_, run_replying ending (by decide), rfl⟩, twoModels, ?_, by decide +kernel⟩
  rw [Files.Disk.readText, hread, Json.ok_bind, Text.Utf8.decode?_encode]
  rfl

theorem compiles_machine {model : String} (hm : model ∈ ["A", "B"]) :
    Compiles (machine (.exit 0)) toOut model ⟨model, .record [], []⟩ := by
  have hdocument : Node.ofDocument emptyStruct = .ok (.struct "S" []) := by decide +kernel
  have hreply : toOut.client.Succeeds
      (replying (.exit 0) (toOut.client.arguments model)) emptyStruct :=
    ⟨nofun, by simp [replying, Connection.arguments], Text.Utf8.decode?_encode _⟩
  have hwords : ∀ s ∈ toOut.client.arguments model, Schema.Passable s := by
    simp only [List.mem_cons, List.not_mem_nil, or_false] at hm
    rcases hm with rfl | rfl <;> decide
  exact ⟨_, ⟨_, emptyStruct, run_replying _ hwords, hreply, hdocument⟩, rfl⟩

theorem publish_machine (ending : Ending) (file : String) :
    ((machine ending).disk.publish "out" file).1 = .ok () := rfl

theorem run_machine :
    (∃ e, (run (machine (.exit 1)) ⟨false, .generate toOut⟩).result = .error e) ∧
      (run (machine (.exit 1)) ⟨false, .generate toOut⟩).disk = (machine (.exit 1)).disk ∧
      (run (machine (.exit 0)) ⟨false, .generate toOut⟩).disk =
        ((machine (.exit 0)).disk.publish "out"
          (componentsFile [⟨"A", .record [], []⟩, ⟨"B", .record [], []⟩])).2 ∧
      (run (machine (.exit 0)) ⟨false, .generate toOut⟩).queries.Perm
        [["model", "schema", "A", "--rpc-url", "url", "--json", "--world", "world"],
          ["model", "schema", "B", "--rpc-url", "url", "--json", "--world", "world"]] := by
  have hbad : Faulty (machine (.exit 1)) toOut := by
    have hm : "B" ∈ ["A", "B"] := by decide
    refine .model (ready_machine _) hm ?_
    rintro name fields ⟨reply, text, hrun, hr, -⟩
    cases hrun.symm.trans (run_replying (.exit 1) (by decide))
    cases hr.ending
  have hgood : List.Forall₂ (Compiles (machine (.exit 0)) toOut) ["A", "B"]
      [⟨"A", .record [], []⟩, ⟨"B", .record [], []⟩] :=
    .cons (compiles_machine (by decide)) (.cons (compiles_machine (by decide)) .nil)
  obtain ⟨hrun, -, hall⟩ :=
    run_publishes_only_complete (machine (.exit 1)) ⟨false, .generate toOut⟩ toOut rfl rfl
  obtain ⟨hrun', -, hall'⟩ :=
    run_publishes_only_complete (machine (.exit 0)) ⟨false, .generate toOut⟩ toOut rfl rfl
  obtain ⟨he, -, hd⟩ := (hall _ hrun).1 hbad
  obtain ⟨-, -, hqueries, hcomplete⟩ := hall' _ hrun'
  obtain ⟨hresult, hdisk, -⟩ := (hcomplete _ _ (ready_machine _) hgood).2 (by decide)
  have hok : (run (machine (.exit 0)) ⟨false, .generate toOut⟩).result = .ok () := by
    rw [hresult, show toOut.out = "out" from rfl, publish_machine]
    rfl
  obtain ⟨m, hm, hperm⟩ := hqueries hok
  cases hm.unique (ready_machine _)
  exact ⟨he, hd, hdisk, hperm⟩

end ModelBindings.Cli
