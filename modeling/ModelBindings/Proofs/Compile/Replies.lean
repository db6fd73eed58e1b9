import ModelBindings.Proofs.Compile.History
import ModelBindings.Proofs.Schema.Query
import ModelBindings.Proofs.Text.Utf8

/-!
A query tool in the place of a store. What a reply comes to is settled by its ending, then by
whether it is text, then by the document; where every reply is a text, the tool answers as a store
of these texts does.
-/

namespace ModelBindings

open Recs (Mode)
open Text.Utf8 (byteSize encode)

namespace Schema

variable {c : Connection} {h : Host} {reply : String → Reply} {r : Reply} {model text : String}
  {o : Except FetchError Node}

structure Reply.Says (r : Reply) (text : String) : Prop where
  ending : r.ending = .exit 0
  stdout : r.stdout = encode text

inductive Reply.ComesTo (program : String) (r : Reply) : Except FetchError Node → Prop where
  | ending : r.ending ≠ .exit 0 → ComesTo program r
      (.error (.failed program r.ending (Text.trim (Text.Utf8.decodeLossy r.stderr))))
  | notText : r.ending = .exit 0 → (∀ text, r.stdout ≠ encode text) →
      ComesTo program r (.error (.notText program))
  | text {text : String} : r.Says text →
      ComesTo program r ((Node.ofDocument text).mapError .document)

/-- How asking for a model ends. A name that is too long for an argument is not asked for. -/
inductive Fetches (program : String) (reply : String → Reply) (model : String) :
    Except FetchError Node → Prop where
  | unasked : 131071 < byteSize model.toList → Fetches program reply model
      (.error (.notStarted program "Argument list too long (os error 7)"))
  | answered {o : Except FetchError Node} : byteSize model.toList ≤ 131071 →
      (reply model).ComesTo program o → Fetches program reply model o

inductive Fails (program : String) (reply : String → Reply) (model : String) :
    CompileError → Prop where
  | fetch {e : FetchError} : Fetches program reply model (.error e) →
      Fails program reply model (.fetch model e)
  | root {n : Node} : Fetches program reply model (.ok n) → n.kind ≠ .struct →
      Fails program reply model (.root model n.kind)

theorem Reply.exists_comesTo (program : String) (r : Reply) : ∃ o, r.ComesTo program o := by
  by_cases he : r.ending = .exit 0
  · by_cases ht : ∃ text, r.stdout = encode text
    · obtain ⟨text, ht⟩ := ht
      exact ⟨_, .text ⟨he, ht⟩⟩
    · push Not at ht
      exact ⟨_, .notText he ht⟩
  · exact ⟨_, .ending he⟩

theorem exists_fetches (program : String) (reply : String → Reply) (model : String) :
    ∃ o, Fetches program reply model o := by
  by_cases hm : byteSize model.toList ≤ 131071
  · obtain ⟨o, ho⟩ := (reply model).exists_comesTo program
    exact ⟨o, .answered hm ho⟩
  · exact ⟨_, .unasked (Nat.not_le.mp hm)⟩

namespace Connection

/-- The program is found, and asked for a model in these words it replies as told. -/
structure Reaches (c : Connection) (h : Host) (reply : String → Reply) : Prop where
  tool : ∃ tool, h.tool? c.program = .ok tool ∧ ∀ model,
    tool ["model", "schema", model, "--rpc-url", c.rpcUrl, "--json", "--world", c.world] =
      reply model
  settings : ∀ s ∈ [c.rpcUrl, c.world], Passable s

theorem Reaches.eq_or_passable (hr : c.Reaches h reply) {s : String}
    (hs : s ∈ c.arguments model) : s = model ∨ Passable s := by
  have hfixed : ∀ s ∈ ["model", "schema", "--rpc-url", "--json", "--world"], Passable s := by
    decide
  have hsettings := hr.settings
  simp only [List.forall_mem_cons] at hfixed hsettings
  revert s
  simp [arguments, hfixed, hsettings]

theorem Reaches.run_eq (hr : c.Reaches h reply) (hm : '\x00' ∉ model.toList) :
    h.run c.program (c.arguments model) =
      if 131071 < byteSize model.toList then .error .argumentTooLong else .ok (reply model) := by
  obtain ⟨tool, ht, hreply⟩ := hr.tool
  have hnul : ∀ s ∈ c.arguments model, '\x00' ∉ s.toList := by
    intro s hs
    rcases hr.eq_or_passable hs with rfl | hp
    · exact hm
    · exact hp.noNul
  have hsize : (∃ s ∈ c.arguments model, maxArgument < byteSize s.toList) ↔
      131071 < byteSize model.toList := by
    constructor
    · rintro ⟨s, hs, hlong⟩
      rcases hr.eq_or_passable hs with rfl | hp
      · exact hlong
      · exact absurd hp.size (Nat.not_le.mpr hlong)
    · exact fun hlong => ⟨model, by simp [arguments], hlong⟩
  rw [Host.run_eq ht hnul, if_congr hsize rfl rfl, arguments, hreply]

theorem document_of_text (ht : c.timeout = none) (hs : r.Says text) : c.document r = .ok text := by
  refine document_eq_ok_iff.mpr ⟨?_, hs.ending, Text.Utf8.decode?_eq_some_iff.mpr hs.stdout⟩
  intro limit hlimit
  rw [ht] at hlimit
  cases hlimit

theorem answer_of_comesTo (ht : c.timeout = none) (ho : r.ComesTo c.program o) :
    (do Source.answer (← c.document r)) = o := by
  have hlate : c.isLate r = false := by rw [isLate, ht]
  cases ho with
  | ending he =>
    have hs : r.ending.isSuccess = false := by simpa [Ending.isSuccess] using he
    simp only [document, hlate, hs, Bool.false_eq_true, if_false]
    rfl
  | notText he hn =>
    have hs : r.ending.isSuccess = true := by simpa [Ending.isSuccess] using he
    have hd : Text.Utf8.decode? r.stdout = none := by
      cases hd : Text.Utf8.decode? r.stdout with
      | none => rfl
      | some text => exact absurd (Text.Utf8.decode?_eq_some_iff.mp hd) (hn text)
    simp only [document, hlate, hs, hd, Bool.false_eq_true, if_false, if_true]
    rfl
  | text hs =>
    rw [document_of_text ht hs]
    rfl

theorem source_of_fetches (hr : c.Reaches h reply) (ht : c.timeout = none)
    (hm : '\x00' ∉ model.toList) (ho : Fetches c.program reply model o) :
    c.source h model = o := by
  rw [source, hr.run_eq hm]
  cases ho with
  | unasked hsize => rw [if_pos hsize]; rfl
  | answered hsize ho =>
    rw [if_neg (Nat.not_lt.mpr hsize)]
    exact answer_of_comesTo ht ho

theorem source_eq_iff_fetches (hr : c.Reaches h reply) (ht : c.timeout = none)
    (hm : '\x00' ∉ model.toList) : c.source h model = o ↔ Fetches c.program reply model o := by
  constructor
  · intro hs
    obtain ⟨o', ho'⟩ := exists_fetches c.program reply model
    rw [← hs, source_of_fetches hr ht hm ho']
    exact ho'
  · exact source_of_fetches hr ht hm

theorem fault_iff_fails (hr : c.Reaches h reply) (ht : c.timeout = none)
    (hm : '\x00' ∉ model.toList) {e : CompileError} :
    Component.Fault (c.source h) model e ↔ Fails c.program reply model e := by
  constructor
  · intro hf
    cases hf with
    | fetch hs => exact .fetch ((source_eq_iff_fetches hr ht hm).mp hs)
    | root hs hk => exact .root ((source_eq_iff_fetches hr ht hm).mp hs) hk
  · intro hf
    cases hf with
    | fetch he => exact .fetch (source_of_fetches hr ht hm he)
    | root hn hk => exact .root (source_of_fetches hr ht hm hn) hk

end Connection

def Store.Holds (s : Store) (reply : String → Reply) (model : String) : Prop :=
  ∃ text, (reply model).Says text ∧ s.document? model = some text

theorem Store.exists_holds {models : List String}
    (h : ∀ m ∈ models, ∃ text, (reply m).Says text) :
    ∃ s : Store, ∀ m ∈ models, s.Holds reply m := by
  induction models with
  | nil => exact ⟨.empty, nofun⟩
  | cons model models ih =>
    obtain ⟨text, ht⟩ := h model List.mem_cons_self
    obtain ⟨s, hs⟩ := ih fun m hm => h m (List.mem_cons_of_mem _ hm)
    refine ⟨s.add model text, fun m hm => ?_⟩
    by_cases hmodel : m = model
    · subst hmodel
      exact ⟨text, ht, document?_add_self s m text⟩
    · obtain ⟨text', ht', hd⟩ := hs m ((List.mem_cons.mp hm).resolve_left hmodel)
      exact ⟨text', ht', by rw [document?_add_of_ne s hmodel, hd]⟩

theorem Connection.source_eq_of_holds (hr : c.Reaches h reply) (ht : c.timeout = none)
    (hm : Passable model) {s : Store} (hs : s.Holds reply model) :
    c.source h model = s.source model := by
  obtain ⟨text, htext, hd⟩ := hs
  rw [source_of_fetches hr ht hm.noNul (.answered hm.size (.text htext)), Store.source, hd]
  rfl

end Schema

namespace Walk

open Schema

variable {c : Connection} {h : Host} {reply : String → Reply} {models : List String}

theorem inOrder_of_first_failing (hr : c.Reaches h reply) (ht : c.timeout = none)
    (hm : ∀ m ∈ models, '\x00' ∉ m.toList) (mode : Mode) {i : Nat} {model : String}
    {e : CompileError} (hi : models[i]? = some model) (he : Fails c.program reply model e)
    (hbefore : ∀ m ∈ models.take i, ∀ d, ¬ Fails c.program reply m d) :
    inOrder mode (c.source h) models = ⟨models.take (i + 1), .error e⟩ := by
  have hmodel : '\x00' ∉ model.toList := hm model (List.mem_of_getElem? hi)
  have hf : FirstFault (c.source h) models i model e := by
    refine ⟨hi, (Connection.fault_iff_fails hr ht hmodel).mpr he, fun m hmem d hd => ?_⟩
    have hclean : '\x00' ∉ m.toList := hm m (List.mem_of_mem_take hmem)
    exact hbefore m hmem d ((Connection.fault_iff_fails hr ht hclean).mp hd)
  exact hf.inOrder_eq

theorem inOrder_of_none_failing (hr : c.Reaches h reply) (ht : c.timeout = none)
    (hm : ∀ m ∈ models, '\x00' ∉ m.toList) (mode : Mode)
    (hall : ∀ m ∈ models, ∀ e, ¬ Fails c.program reply m e) :
    ∃ cs, inOrder mode (c.source h) models = ⟨models, .ok cs⟩ := by
  have hclear : ∀ m ∈ models, ∀ e, ¬ Component.Fault (c.source h) m e := by
    intro m hmem e he
    exact hall m hmem e ((Connection.fault_iff_fails hr ht (hm m hmem)).mp he)
  obtain ⟨cs, hcs⟩ := exists_components mode hclear
  exact ⟨cs, inOrder_of_ok hcs⟩

theorem tool_stands_for_store (hr : c.Reaches h reply) (ht : c.timeout = none) :
    (∀ q : Request, (∀ m ∈ q.models, '\x00' ∉ m.toList ∧ byteSize m.toList ≤ 131071) →
      (∀ m ∈ q.models, ∃ text, (reply m).Says text) →
      (∃ s : Store, ∀ m ∈ q.models, s.Holds reply m) ∧
      ∀ s : Store, (∀ m ∈ q.models, s.Holds reply m) →
        ∀ a, Gives (c.source h) q a ↔ Gives s.source q a) ∧
    (∀ model, '\x00' ∉ model.toList → ∀ o,
      c.source h model = o ↔ Fetches c.program reply model o) ∧
    ∀ mode models, (∀ m ∈ models, '\x00' ∉ m.toList) →
      (∀ i model e, models[i]? = some model → Fails c.program reply model e →
        (∀ m ∈ models.take i, ∀ d, ¬ Fails c.program reply m d) →
        inOrder mode (c.source h) models = ⟨models.take (i + 1), .error e⟩) ∧
      ((∀ m ∈ models, ∀ e, ¬ Fails c.program reply m e) →
        ∃ cs, inOrder mode (c.source h) models = ⟨models, .ok cs⟩) := by
  refine ⟨?_, ?_, ?_⟩
  · intro q hm hsays
    refine ⟨Store.exists_holds hsays, fun s hs a => ?_⟩
    have hsame : ∀ m ∈ q.models, c.source h m = s.source m := by
      intro m hmem
      exact Connection.source_eq_of_holds hr ht ⟨(hm m hmem).1, (hm m hmem).2⟩ (hs m hmem)
    exact ⟨.congr hsame, .congr fun m hmem => (hsame m hmem).symm⟩
  · intro model hm o
    exact Connection.source_eq_iff_fetches hr ht hm
  · intro mode models hm
    exact ⟨fun i model e => inOrder_of_first_failing hr ht hm mode,
      inOrder_of_none_failing hr ht hm mode⟩

def flagText : String :=
  "\x7b\"type\":\"struct\",\"content\":\x7b\"name\":\"F\",\"children\":[]\x7d\x7d"

def complaint (model : String) : Reply :=
  if model = "A" then ⟨encode flagText, [0xFF], .exit 0, 0⟩
  else if model = "B" then ⟨encode flagText, [0x20, 0xFF, 0x0A], .exit 3, 0⟩
  else ⟨[0xFF], [0xFF], .exit 0, 0⟩

/-- The tool stands in the second directory of the search path. The first one is missing. -/
def toolHost (reply : String → Reply) : Host where
  disk := ⟨[(["bin"], .directory), (["bin", "sozo"], .file [])], []⟩
  tools := [(["bin", "sozo"], .scripted (.exit 0) reply)]
  searchPath := ["/usr/bin", "/bin"]

def toolClient : Connection := ⟨Connection.defaultProgram, "url", "world", none⟩

theorem reaches_toolHost (reply : String → Reply) : toolClient.Reaches (toolHost reply) reply := by
  have hbefore : ∀ d ∈ ["/usr/bin"], ∃ f,
      (toolHost reply).toolAt? (Files.join d "sozo") = .error f ∧ Host.isPassedOver f = true := by
    intro d hd
    rw [List.mem_singleton.mp hd]
    exact ⟨.missing, rfl, rfl⟩
  have hsearch : (toolHost reply).search "sozo" .missing (["/usr/bin"] ++ "/bin" :: []) =
      .ok (.scripted (.exit 0) reply) := Host.search_of_first hbefore rfl
  exact ⟨⟨_, hsearch, fun model => Tool.scripted_model _ _ _ _⟩, by decide⟩

theorem tool_stands_for_store_complaining :
    toolClient.Reaches (toolHost complaint) complaint ∧ toolClient.timeout = none ∧
      (∀ a, Gives (toolClient.source (toolHost complaint)) (.generate .narrow 2 ["A"]) a ↔
        Gives (Store.empty.add "A" flagText).source (.generate .narrow 2 ["A"]) a) ∧
      toolClient.source (toolHost complaint) "C" = .error (.notText "sozo") ∧
      inOrder .narrow (toolClient.source (toolHost complaint)) ["A", "B", "C"] =
        ⟨["A", "B"], .error (.fetch "B" (.failed "sozo" (.exit 3) "\uFFFD"))⟩ := by
  have hr : toolClient.Reaches (toolHost complaint) complaint := reaches_toolHost complaint
  obtain ⟨hstore, hfetch, hwalk⟩ := tool_stands_for_store hr rfl
  have hsays : (complaint "A").Says flagText := ⟨rfl, rfl⟩
  have hdocument : Node.ofDocument flagText = .ok (.struct "F" []) := by decide +kernel
  refine ⟨hr, rfl, ?_, ?_, ?_⟩
  · refine (hstore (.generate .narrow 2 ["A"]) (by decide) ?_).2 _ ?_
    · intro m hm
      rw [List.mem_singleton.mp hm]
      exact ⟨flagText, hsays⟩
    · intro m hm
      rw [List.mem_singleton.mp hm]
      exact ⟨flagText, hsays, rfl⟩
  · refine (hfetch "C" (by decide) _).mpr (.answered (by decide) (.notText rfl fun text ht => ?_))
    have hnone : Text.Utf8.decode? [0xFF] = none := by decide +kernel
    rw [show (complaint "C").stdout = [0xFF] from rfl] at ht
    rw [ht, Text.Utf8.decode?_encode] at hnone
    cases hnone
  · have hstderr : Text.trim (Text.Utf8.decodeLossy [0x20, 0xFF, 0x0A]) = "\uFFFD" := by
      decide +kernel
    have hb : (complaint "B").ComesTo "sozo" (.error (.failed "sozo" (.exit 3) "\uFFFD")) := by
      rw [← hstderr]
      exact .ending (by decide)
    refine (hwalk .narrow _ (by decide)).1 1 "B" _ rfl (.fetch (.answered (by decide) hb)) ?_
    intro m hm d hd
    rw [List.mem_singleton.mp hm] at hd
    have ha := (hfetch "A" (by decide) _).mpr (.answered (by decide) (.text hsays))
    rw [hdocument] at ha
    cases hd with
    | fetch he => cases ha.symm.trans ((hfetch "A" (by decide) _).mpr he)
    | root hn hk =>
      cases ha.symm.trans ((hfetch "A" (by decide) _).mpr hn)
      exact hk rfl

def flag (_ : String) : Reply := ⟨encode flagText, [], .exit 0, 0⟩

def repeated (n : Nat) : String := String.ofList (List.replicate n 'a')

theorem noNul_repeated (n : Nat) : '\x00' ∉ (repeated n).toList := by
  simp [repeated]

theorem byteSize_repeated (n : Nat) : byteSize (repeated n).toList = n := by
  rw [repeated, String.toList_ofList, Text.Utf8.byteSize_replicate]
  exact Nat.mul_one n

theorem inOrder_stored (name : String) (mode : Mode) :
    inOrder mode (Store.empty.add name flagText).source [name] =
      ⟨[name], .ok [⟨name, .record [], []⟩]⟩ := by
  have hdocument : Node.ofDocument flagText = .ok (.struct "F" []) := by decide +kernel
  have hstore : (Store.empty.add name flagText).source name = .ok (.struct "F" []) := by
    simp only [Store.source, Store.document?_add_self, Source.answer, hdocument]
    rfl
  simp only [inOrder, Component.ofSource, hstore]
  rfl

theorem inOrder_of_long {name : String} (hm : '\x00' ∉ name.toList)
    (hlong : 131071 < byteSize name.toList) (mode : Mode) :
    inOrder mode (toolClient.source (toolHost flag)) [name] = ⟨[name],
      .error (.fetch name (.notStarted "sozo" "Argument list too long (os error 7)"))⟩ := by
  have htool := Connection.source_of_fetches (reaches_toolHost flag) rfl hm (.unasked hlong)
  simp only [inOrder, Component.ofSource, htool]
  rfl

/-- It is the name that cannot be handed to a process, or one of the settings. -/
theorem tool_apart_from_store_unpassable :
    (toolClient.Reaches (toolHost flag) flag ∧ toolClient.timeout = none ∧
      '\x00' ∉ (repeated 131072).toList ∧ (flag (repeated 131072)).Says flagText ∧
      inOrder .narrow (toolClient.source (toolHost flag)) [repeated 131072] =
        ⟨[repeated 131072], .error (.fetch (repeated 131072)
          (.notStarted "sozo" "Argument list too long (os error 7)"))⟩ ∧
      inOrder .narrow (Store.empty.add (repeated 131072) flagText).source [repeated 131072] =
        ⟨[repeated 131072], .ok [⟨repeated 131072, .record [], []⟩]⟩) ∧
    inOrder .narrow (Connection.source ⟨"sozo", "url", "\x00", none⟩ (toolHost flag)) ["A"] =
      ⟨["A"], .error (.fetch "A" (.notStarted "sozo" "nul byte found in provided data"))⟩ ∧
    inOrder .narrow (Store.empty.add "A" flagText).source ["A"] =
      ⟨["A"], .ok [⟨"A", .record [], []⟩]⟩ := by
  have hm := noNul_repeated 131072
  have hlong : 131071 < byteSize (repeated 131072).toList := by
    rw [byteSize_repeated]
    exact Nat.lt_succ_self 131071
  exact ⟨⟨reaches_toolHost flag, rfl, hm, ⟨rfl, rfl⟩, inOrder_of_long hm hlong .narrow,
    inOrder_stored _ .narrow⟩, rfl, inOrder_stored "A" .narrow⟩

end Walk

end ModelBindings
