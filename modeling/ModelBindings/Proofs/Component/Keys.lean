import ModelBindings.Component.File
import ModelBindings.Proofs.Compile.Schedule
import ModelBindings.Proofs.Component.Literal
import ModelBindings.Proofs.Json.Unique
import ModelBindings.Proofs.Manifest

/-!
The keys of the file of component definitions. They are written as they are, so the file holds an
object literal with the models and the fields for its keys if their names may be written so.
-/

namespace ModelBindings

open Json (Blanks Listed Value Written blanks_nil comma)
open Recs (Mode ScalarType TypeExpr between scalarType)
open Schema (Node Source)
open Script

namespace Recs

def ScalarType.member : ScalarType → String
  | .boolean => "Boolean"
  | .number => "Number"
  | .bigInt => "BigInt"
  | .numberArray => "NumberArray"
  | .string => "String"

def ScalarType.expression (t : ScalarType) : Expression := .member (.name "RecsType") t.member

theorem ScalarType.reads_text (l : Lexicon) (t : ScalarType) :
    Reads l t.expression t.text.toList := by
  have h : Reads l (.name "RecsType") "RecsType".toList := .name rfl
  cases t <;> exact .member h rfl

end Recs

namespace Schema

mutual
def Node.expression (mode : Mode) : Node → Expression
  | .primitive s => (scalarType mode s).expression
  | .struct _ fields => .object (fieldExpressions mode fields)
  | .enum _ => ScalarType.number.expression
  | .tuple elements => .array (elementExpressions mode elements)
termination_by structural n => n

def fieldExpressions (mode : Mode) : List (String × Node) → List (String × Expression)
  | [] => []
  | (name, n) :: fs => (name, n.expression mode) :: fieldExpressions mode fs
termination_by structural fs => fs

def elementExpressions (mode : Mode) : List Node → List Expression
  | [] => []
  | n :: ns => n.expression mode :: elementExpressions mode ns
termination_by structural ns => ns
end

theorem fieldExpressions_eq_map (mode : Mode) (fs : List (String × Node)) :
    fieldExpressions mode fs = fs.map fun f => (f.1, f.2.expression mode) := by
  induction fs with
  | nil => rfl
  | cons f fs ih => rw [fieldExpressions, ih, List.map_cons]

inductive Node.Everywhere (P : List String → Prop) : Node → Prop where
  | primitive {s : String} : Everywhere P (.primitive s)
  | struct {name : String} {fields : List (String × Node)} : P (fields.map Prod.fst) →
      (∀ f ∈ fields, Everywhere P f.2) → Everywhere P (.struct name fields)
  | enum {name : String} : Everywhere P (.enum name)
  | tuple {elements : List Node} : (∀ n ∈ elements, Everywhere P n) →
      Everywhere P (.tuple elements)

def Node.Bare (l : Lexicon) (n : Node) : Prop :=
  n.Everywhere fun names => ∀ name ∈ names, l.Bare name

variable {mode : Mode}

theorem distinct_scalar (t : ScalarType) : t.expression.Distinct := .member .name

mutual
theorem distinct_expression_iff : ∀ n : Node,
    (n.expression mode).Distinct ↔ n.Everywhere List.Nodup
  | .primitive s => by
    rw [Node.expression]
    exact iff_of_true (distinct_scalar _) .primitive
  | .enum name => by
    rw [Node.expression]
    exact iff_of_true (distinct_scalar _) .enum
  | .struct name fields => by
    have hkeys : (fieldExpressions mode fields).map Prod.fst = fields.map Prod.fst := by
      rw [fieldExpressions_eq_map, List.map_map]
      rfl
    rw [Node.expression]
    constructor
    · intro h
      cases h with
      | object hn hd => exact .struct (hkeys ▸ hn) ((distinct_fields_iff fields).mp hd)
    · intro h
      cases h with
      | struct hn hd => exact .object (hkeys ▸ hn) ((distinct_fields_iff fields).mpr hd)
  | .tuple elements => by
    rw [Node.expression]
    constructor
    · intro h
      cases h with
      | array hd => exact .tuple ((distinct_elements_iff elements).mp hd)
    · intro h
      cases h with
      | tuple hd => exact .array ((distinct_elements_iff elements).mpr hd)

theorem distinct_fields_iff : ∀ fs : List (String × Node),
    (∀ e ∈ fieldExpressions mode fs, e.2.Distinct) ↔ ∀ f ∈ fs, f.2.Everywhere List.Nodup
  | [] => by simp [fieldExpressions]
  | (name, n) :: fs => by
    rw [fieldExpressions, List.forall_mem_cons, List.forall_mem_cons, distinct_expression_iff n,
      distinct_fields_iff fs]

theorem distinct_elements_iff : ∀ ns : List Node,
    (∀ e ∈ elementExpressions mode ns, e.Distinct) ↔ ∀ n ∈ ns, n.Everywhere List.Nodup
  | [] => by simp [elementExpressions]
  | n :: ns => by
    rw [elementExpressions, List.forall_mem_cons, List.forall_mem_cons, distinct_expression_iff n,
      distinct_elements_iff ns]
end

end Schema

open Schema

section Texts

variable {l : Lexicon} {mode : Mode}

theorem reads_record {es : List (String × Expression)} {fs : List (String × TypeExpr)}
    (h : List.Forall₂ (fun e (t : String) => Property l.PropertyName (Reads l) e t.toList) es
      (Recs.fieldTexts fs)) : Reads l (.object es) (TypeExpr.record fs).text.toList := by
  have h := Reads.object (Series.of_intercalate h)
  simpa [TypeExpr.text, between] using h

mutual
theorem reads_ofNode : ∀ (n : Node) (r : Registry), n.Bare l →
    Reads l (n.expression mode) (TypeExpr.ofNode mode n r).1.text.toList
  | .primitive s, r, _ => by
    rw [TypeExpr.ofNode, TypeExpr.text, Node.expression]
    exact ScalarType.reads_text l _
  | .enum name, r, _ => by
    rw [TypeExpr.ofNode, TypeExpr.text, Node.expression]
    exact ScalarType.reads_text l _
  | .struct name fields, r, h => by
    cases h with
    | struct hnames hfields =>
      rw [Node.expression, TypeExpr.ofNode]
      exact reads_record (reads_ofMembers fields (r.enter name) hnames hfields)
  | .tuple elements, r, h => by
    cases h with
    | tuple helements =>
      rw [Node.expression, TypeExpr.ofNode]
      have h := Reads.array (Series.of_intercalate (reads_ofElements elements r helements))
      simpa [TypeExpr.text, between] using h

theorem reads_ofMembers : ∀ (fs : List (String × Node)) (r : Registry),
    (∀ name ∈ fs.map Prod.fst, l.Bare name) → (∀ f ∈ fs, f.2.Bare l) →
    List.Forall₂ (fun e (t : String) => Property l.PropertyName (Reads l) e t.toList)
      (fieldExpressions mode fs) (Recs.fieldTexts (TypeExpr.ofMembers mode fs r).1)
  | [], r, _, _ => by
    rw [fieldExpressions, TypeExpr.ofMembers, Recs.fieldTexts]
    exact .nil
  | (name, n) :: fs, r, hnames, hfields => by
    rw [List.map_cons, List.forall_mem_cons] at hnames
    rw [List.forall_mem_cons] at hfields
    rw [fieldExpressions, TypeExpr.ofMembers, Recs.fieldTexts]
    refine .cons ?_ (reads_ofMembers fs _ hnames.2 hfields.2)
    have h := Property.of_bare hnames.1 (reads_ofNode n r hfields.1)
    simpa using h

theorem reads_ofElements : ∀ (ns : List Node) (r : Registry), (∀ n ∈ ns, n.Bare l) →
    List.Forall₂ (fun e (t : String) => Reads l e t.toList)
      (elementExpressions mode ns) (Recs.elementTexts (TypeExpr.ofElements mode ns r).1)
  | [], r, _ => by
    rw [elementExpressions, TypeExpr.ofElements, Recs.elementTexts]
    exact .nil
  | n :: ns, r, h => by
    rw [List.forall_mem_cons] at h
    rw [elementExpressions, TypeExpr.ofElements, Recs.elementTexts]
    exact .cons (reads_ofNode n r h.1) (reads_ofElements ns _ h.2)
end

end Texts

namespace Component

def definition (model : String) (types : List String) (type : Expression) : Expression :=
  .thunk (.call "defineComponent" [.name "world", type,
    .object [("metadata", .object [("name", .value (.string model)),
      ("types", .value (.array (types.map .string)))])]])

variable {l : Lexicon} {c : Component} {type : Expression}

theorem distinct_definition_iff {model : String} {types : List String} :
    (definition model types type).Distinct ↔ type.Distinct := by
  constructor
  · intro h
    cases h with
    | thunk h =>
      cases h with
      | call h => exact h type (by simp)
  · intro h
    have htypes : (Value.array (types.map .string)).distinct = true :=
      Json.distinctItems_iff.mpr fun v hv => by
        obtain ⟨s, -, rfl⟩ := List.mem_map.mp hv
        rfl
    have hmetadata : (Expression.object [("name", .value (.string model)),
        ("types", .value (.array (types.map .string)))]).Distinct := by
      refine .object (by simp) ?_
      simpa using ⟨.value rfl, .value htypes⟩
    refine .thunk (.call ?_)
    simpa using ⟨.name, h, .object (by simp) (by simpa using hmetadata)⟩

theorem reads_metadata (l : Lexicon) (c : Component) :
    Reads l (.object [("name", .value (.string c.model)),
        ("types", .value (.array (c.types.map .string)))])
      ('{' :: ('\n' :: (Series.lines "            ".toList
        ["name".toList ++ ": ".toList ++ (Json.printString c.model).toList,
          "types".toList ++ ": ".toList ++ (Json.printStrings c.types).toList] ++
        "          ".toList) ++ ['}'])) := by
  have hname : l.Bare "name" := .identifier rfl
  have htypes : l.Bare "types" := .identifier rfl
  exact .object (.of_lines (.cons (.of_bare hname (.value (Json.written_printString c.model)))
    (.cons (.of_bare htypes (.value (Json.written_printStrings c.types))) .nil))
    (Json.blanks_of_all rfl) (Json.blanks_of_all rfl))

set_option maxRecDepth 2000 in
theorem reads_block (hmodel : l.Bare c.model) (htype : Reads l type c.type.text.toList) :
    ∃ t, c.block.toList = "    ".toList ++ t ++ [',', '\n'] ∧
      Property l.PropertyName (Reads l) (c.model, definition c.model c.types type) t := by
  have hkey : l.Bare "metadata" := .identifier rfl
  have hm : Blanks "\n        ".toList := Json.blanks_of_all rfl
  have hm' : Blanks "\n      ".toList := Json.blanks_of_all rfl
  have hm'' : Blanks "\n    ".toList := Json.blanks_of_all rfl
  have hworld : Reads l (.name "world") "world".toList := .name rfl
  have hoptions := Reads.object (.of_lines (.cons (.of_bare hkey (reads_metadata l c)) .nil)
    (show Blanks "\n          ".toList from Json.blanks_of_all rfl) hm)
  have harguments : Listed (Reads l) true [.name "world", type, _] _ :=
    .cons hm blanks_nil hworld (.cons blanks_nil hm htype (.cons blanks_nil hm hoptions (.nil hm')))
  have hcall : Reads l (.call "defineComponent" _) _ := .call rfl (.plain harguments)
  refine ⟨_, ?_, .of_bare hmodel (.thunk hm' hcall hm'')⟩
  simp only [block, String.join_cons, String.join_nil, String.toList_append, Series.lines,
    List.flatMap_cons, List.flatMap_nil, List.append_assoc, List.cons_append]
  rfl

/-- The member for a model, whose type has the form of the model's schema. -/
inductive Describes (mode : Mode) (source : Source) (model : String) :
    String × Expression → Prop where
  | mk {n : Node} {c : Component} : source model = .ok n → ofSource mode source model = .ok c →
      Describes mode source model (model, definition model c.types (n.expression mode))

variable {mode : Mode} {source : Source} {model : String}

theorem exists_describes (h : ofSource mode source model = .ok c) (hmodel : l.Bare model)
    (hfields : ∀ n, source model = .ok n → n.Bare l) :
    ∃ e t, Describes mode source model e ∧ c.block.toList = "    ".toList ++ t ++ [',', '\n'] ∧
      Property l.PropertyName (Reads l) e t := by
  obtain ⟨n, hn, hc⟩ := Json.bind_eq_ok_iff.mp h
  have hn := Json.mapError_eq_ok_iff.mp hn
  have hbare := hfields n hn
  cases n with
  | primitive s => cases hc
  | enum name => cases hc
  | tuple elements => cases hc
  | struct name fields =>
    cases hc
    have htype : Reads l ((Node.struct name fields).expression mode)
        (TypeExpr.ofBody mode fields .empty).1.text.toList := by
      rw [Node.expression]
      cases hbare with
      | struct hnames hfields => exact reads_record (reads_ofMembers fields .empty hnames hfields)
    obtain ⟨t, hblock, hproperty⟩ :=
      reads_block (c := ⟨model, (TypeExpr.ofBody mode fields .empty).1, _⟩) hmodel htype
    exact ⟨_, t, .mk hn h, hblock, hproperty⟩

theorem exists_describes_all {models : List String} {cs : List Component}
    (h : List.Forall₂ (fun model c => ofSource mode source model = .ok c) models cs)
    (hmodels : ∀ model ∈ models, l.Bare model)
    (hfields : ∀ model ∈ models, ∀ n, source model = .ok n → n.Bare l) :
    ∃ es ts, List.Forall₂ (Describes mode source) models es ∧
      (String.join (cs.map block)).toList = Series.lines "    ".toList ts ∧
      List.Forall₂ (Property l.PropertyName (Reads l)) es ts := by
  induction h with
  | nil => exact ⟨[], [], .nil, rfl, .nil⟩
  | @cons model c models cs hc _ ih =>
    rw [List.forall_mem_cons] at hmodels hfields
    obtain ⟨e, t, he, hblock, ht⟩ := exists_describes hc hmodels.1 hfields.1
    obtain ⟨es, ts, hes, hblocks, hts⟩ := ih hmodels.2 hfields.2
    refine ⟨e :: es, t :: ts, .cons he hes, ?_, .cons ht hts⟩
    rw [List.map_cons, String.join_cons, String.toList_append, hblock, hblocks]
    rfl

theorem Describes.distinct_iff {e : String × Expression} (h : Describes mode source model e) :
    e.2.Distinct ↔ ∀ n, source model = .ok n → n.Everywhere List.Nodup := by
  obtain ⟨hn, -⟩ := h
  rw [distinct_definition_iff, distinct_expression_iff]
  constructor
  · intro h n' hn'
    cases hn.symm.trans hn'
    exact h
  · exact fun h => h _ hn

theorem distinct_iff_of_describes {models : List String} {es : List (String × Expression)}
    (h : List.Forall₂ (Describes mode source) models es) (hn : models.Nodup) :
    (Expression.object es).Distinct ↔
      ∀ model ∈ models, ∀ n, source model = .ok n → n.Everywhere List.Nodup := by
  have hkeys : es.map Prod.fst = models := by
    refine List.forall₂_eq_eq_eq ▸ List.forall₂_map_left_iff.mpr (h.flip.imp ?_)
    rintro e model ⟨⟩
    rfl
  have hmembers : (∀ e ∈ es, e.2.Distinct) ↔
      ∀ model ∈ models, ∀ n, source model = .ok n → n.Everywhere List.Nodup := by
    clear hn hkeys
    induction h with
    | nil => exact iff_of_true nofun nofun
    | cons he _ ih => rw [List.forall_mem_cons, List.forall_mem_cons, he.distinct_iff, ih]
  constructor
  · intro h
    cases h with
    | object _ hd => exact hmembers.mp hd
  · exact fun hd => .object (hkeys ▸ hn) (hmembers.mpr hd)

end Component

def fileOpening : String :=
  Component.header ++ "\n" ++ Component.imports ++ "\n" ++
    "export function defineContractComponents(world: World) \x7b\n" ++ "  return "

def fileClosing : String := ";\n" ++ "\x7d\n"

theorem componentsFile_eq (cs : List Component) :
    componentsFile cs = fileOpening ++ String.ofList ('{' ::
      ('\n' :: ((String.join (cs.map Component.block)).toList ++ "  ".toList) ++ ['}'])) ++
      fileClosing := by
  have hopen : "  return \x7b\n".toList = "  return ".toList ++ ['{', '\n'] := by decide
  have hclose : "  \x7d;\n".toList = "  ".toList ++ '}' :: ";\n".toList := by decide
  rw [← String.toList_inj]
  simp only [componentsFile, fileOpening, fileClosing, String.join_cons, String.join_nil,
    String.append_empty, String.toList_append, String.toList_ofList, hopen, hclose,
    List.append_assoc, List.cons_append, List.nil_append]

theorem componentsFile_is_object (l : Lexicon) {text : String} {m : Manifest}
    (hm : Manifest.ofText text = .ok m) {mode : Mode} {source : Source} {jobs : Nat} {w : Walk}
    (hw : Walk.Possible mode source jobs m.names w) {cs : List Component} (hcs : w.outcome = .ok cs)
    (hmodels : ∀ model ∈ m.names, l.Bare model)
    (hfields : ∀ model ∈ m.names, ∀ n, source model = .ok n → n.Bare l) :
    ∃ es body, componentsFile cs = fileOpening ++ String.ofList body ++ fileClosing ∧
      List.Forall₂ (Component.Describes mode source) m.names es ∧ Reads l (.object es) body ∧
      ((Expression.object es).Distinct ↔
        ∀ model ∈ m.names, ∀ n, source model = .ok n → n.Everywhere List.Nodup) := by
  obtain ⟨es, ts, hes, hblocks, hts⟩ :=
    Component.exists_describes_all (hw.outcome_eq_ok_iff.mp hcs) hmodels hfields
  refine ⟨es, _, componentsFile_eq cs, hes, ?_,
    Component.distinct_iff_of_describes hes (Manifest.nodup_names hm)⟩
  rw [hblocks]
  exact .object (.of_lines hts (Json.blanks_of_all rfl) (Json.blanks_of_all rfl))

theorem exists_componentsFile_cons (c : Component) (cs : List Component) :
    ∃ t, componentsFile (c :: cs) =
      fileOpening ++ String.ofList ('{' :: ("\n    ".toList ++ (c.model.toList ++ t))) := by
  obtain ⟨t, ht⟩ : ∃ t, c.block = "    " ++ (c.model ++ t) :=
    ⟨_, String.join_cons.trans (congrArg _ String.join_cons)⟩
  have hmargin : "\n    ".toList = '\n' :: "    ".toList := by decide
  refine ⟨t.toList ++ (String.join (cs.map Component.block)).toList ++ "  ".toList ++ ['}'] ++
    fileClosing.toList, ?_⟩
  rw [componentsFile_eq, String.append_assoc, String.append_right_inj, ← String.toList_inj,
    String.toList_append, List.map_cons, String.join_cons, ht, hmargin]
  simp only [String.toList_append, String.toList_ofList, List.append_assoc, List.cons_append]

/-- No characters beyond ASCII, and no numerals but decimal ones in their shortest form. -/
def ascii : Lexicon where
  begins _ := false
  continues _ := false
  literal t :=
    if t.all Char.isDigit ∧ (t = ['0'] ∨ t.head? ≠ some '0') then some (String.ofList t) else none

def movesManifest : String :=
  "\x7b\"models\":[\x7b\"name\":\"Moves\"\x7d,\x7b\"name\":\"7\"\x7d]\x7d"

def moves : Node :=
  .struct "Moves" [("left", .primitive "u8"),
    ("at", .tuple [.struct "Vec2" [("x", .primitive "u32"), ("0", .enum "Side")]])]

theorem everywhere_moves {P : List String → Prop} (h : P ["left", "at"]) (h' : P ["x", "0"]) :
    moves.Everywhere P := by
  have hvec : (Node.struct "Vec2" [("x", .primitive "u32"), ("0", .enum "Side")]).Everywhere P :=
    .struct h' (by simpa using ⟨.primitive, .enum⟩)
  exact .struct h (by simpa using ⟨.primitive, .tuple (by simpa using hvec)⟩)

theorem componentsFile_moves :
    ∃ m cs, Manifest.ofText movesManifest = .ok m ∧
      (Walk.inOrder .narrow (fun _ => .ok moves) m.names).outcome = .ok cs ∧
      (∀ model ∈ m.names, ascii.Bare model) ∧ moves.Bare ascii ∧
      ∃ es body, componentsFile cs = fileOpening ++ String.ofList body ++ fileClosing ∧
        List.Forall₂ (Component.Describes .narrow fun _ => .ok moves) m.names es ∧
        Reads ascii (.object es) body ∧ (Expression.object es).Distinct := by
  have hm : Manifest.ofText movesManifest = .ok ⟨["Moves", "7"]⟩ := by decide +kernel
  have hmodels : ∀ model ∈ ["Moves", "7"], ascii.Bare model := by
    simpa using ⟨.identifier rfl, .literal (c := '7') (t := []) rfl rfl⟩
  have hbare : moves.Bare ascii := by
    refine everywhere_moves ?_ ?_
    · simpa using ⟨.identifier rfl, .identifier rfl⟩
    · simpa using ⟨.identifier rfl, .literal (c := '0') (t := []) rfl rfl⟩
  have hw : Walk.Possible .narrow (fun _ => .ok moves) 1 ["Moves", "7"] _ := .alone
  refine ⟨_, _, hm, rfl, hmodels, hbare, ?_⟩
  obtain ⟨es, body, hfile, hes, hreads, hdistinct⟩ :=
    componentsFile_is_object ascii hm hw rfl hmodels fun _ _ n hn => by
      cases hn
      exact hbare
  refine ⟨es, body, hfile, hes, hreads, hdistinct.mpr fun _ _ n hn => ?_⟩
  cases hn
  exact everywhere_moves (by decide) (by decide)

def dashedManifest : String := "\x7b\"models\":[\x7b\"name\":\"a-b\"\x7d]\x7d"

def point : Node := .struct "Point" []

theorem componentsFile_dashed :
    Manifest.ofText dashedManifest = .ok ⟨["a-b"]⟩ ∧
      ∃ cs, (Walk.inOrder .narrow (fun _ => .ok point) ["a-b"]).outcome = .ok cs ∧
        ¬ ∃ (l : Lexicon) (key : String) (b s b' rest : List Char),
          componentsFile cs = fileOpening ++ String.ofList ('{' :: (b ++ s ++ b' ++ ':' :: rest)) ∧
          Blanks b ∧ l.PropertyName key s ∧ Blanks b' := by
  refine ⟨by decide +kernel, [⟨"a-b", .record [], []⟩], rfl, ?_⟩
  rintro ⟨l, key, b, s, b', rest, he, hb, hs, hb'⟩
  obtain ⟨t, ht⟩ := exists_componentsFile_cons ⟨"a-b", .record [], []⟩ []
  rw [ht, String.append_right_inj, String.ofList_inj] at he
  obtain ⟨c, u, rfl, hc⟩ := hs.exists_cons
  have hm : Blanks "\n    ".toList := Json.blanks_of_all rfl
  have hfirst : "\n    ".toList ++ 'a' :: ('-' :: 'b' :: t) =
      b ++ c :: (u ++ b' ++ ':' :: rest) := by
    simpa using (List.cons.inj he).2
  obtain ⟨rfl, hnext⟩ := hm.cons_cancel hb (by decide) hc hfirst
  rcases hs.next (by decide) hb' hnext with hd | hd | hd
  · cases hd
  · cases hd
  · cases hd

end ModelBindings
