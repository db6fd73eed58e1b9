import Mathlib.Data.List.Forall2
import Mathlib.Data.List.Induction
import ModelBindings.Component.File
import ModelBindings.Proofs.Json.Printer
import ModelBindings.Proofs.Recs.TypeExpr

/-!
What can be told from the file of component definitions. A model's name may look like a whole
definition, so the file is read from its end.
-/

namespace ModelBindings

open Text (OneLine EndsLine last_line_unique)

namespace Component

def head (c : Component) : String :=
  "    " ++ c.model ++ ": (() => \x7b\n" ++ "      return defineComponent(\n" ++ "        world,\n"

def typeLine (c : Component) : String := "        " ++ c.type.text

def nameLine (c : Component) : String := "            name: " ++ Json.printString c.model

def typesLine (c : Component) : String := "            types: " ++ Json.printStrings c.types

def middle : String := ",\n" ++ "        \x7b\n" ++ "          metadata: \x7b\n"

def closing : String :=
  ",\n" ++ "          \x7d,\n" ++ "        \x7d\n" ++ "      );\n" ++ "    \x7d)(),\n"

theorem append_block (s : String) (c : Component) :
    s ++ c.block =
      s ++ c.head ++ c.typeLine ++ middle ++ c.nameLine ++ ",\n" ++ c.typesLine ++ closing := by
  unfold block head typeLine middle nameLine typesLine closing
  simp only [String.join_cons, String.join_nil, String.append_empty, String.append_assoc]

def Agree (c d : Component) : Prop :=
  c.model = d.model ∧ c.types = d.types ∧ c.type.text = d.type.text

def Plain (c : Component) : Prop := ∀ name ∈ c.type.names, OneLine name

theorem Plain.typeLine {c : Component} (h : c.Plain) : OneLine c.typeLine := by
  have hmargin : OneLine "        " := by simp [OneLine]
  exact hmargin.append (c.type.oneLine_text h)

theorem endsLine_head (c : Component) : EndsLine c.head := by
  have hworld : EndsLine "        world,\n" := by simp [EndsLine]
  exact hworld.append _

theorem oneLine_nameLine (c : Component) : OneLine c.nameLine := by
  have hlabel : OneLine "            name: " := by simp [OneLine]
  exact hlabel.append (Json.oneLine_printString c.model)

theorem oneLine_typesLine (c : Component) : OneLine c.typesLine := by
  have hlabel : OneLine "            types: " := by simp [OneLine]
  exact hlabel.append (Json.oneLine_printStrings c.types)

theorem append_block_inj {s s' : String} {c d : Component} (hc : c.Plain) (hd : d.Plain)
    (h : s ++ c.block = s' ++ d.block) : s = s' ∧ c.Agree d := by
  have hcomma : EndsLine ",\n" := by simp [EndsLine]
  have hmiddle : EndsLine middle := by simp [EndsLine, middle]
  rw [append_block, append_block, String.append_left_inj] at h
  obtain ⟨h, htypes⟩ := last_line_unique (hcomma.append _) (hcomma.append _) c.oneLine_typesLine
    d.oneLine_typesLine h
  rw [String.append_left_inj] at h
  obtain ⟨h, hname⟩ := last_line_unique (hmiddle.append _) (hmiddle.append _) c.oneLine_nameLine
    d.oneLine_nameLine h
  rw [String.append_left_inj] at h
  obtain ⟨h, htype⟩ := last_line_unique (c.endsLine_head.append _) (d.endsLine_head.append _)
    hc.typeLine hd.typeLine h
  have hmodel : c.model = d.model :=
    Json.printString_injective ((String.append_right_inj _).mp hname)
  rw [head, head, hmodel, String.append_left_inj] at h
  refine ⟨h, hmodel, ?_, (String.append_right_inj _).mp htype⟩
  exact Json.printStrings_injective ((String.append_right_inj _).mp htypes)

theorem Agree.block_eq {c d : Component} (h : c.Agree d) : c.block = d.block := by
  obtain ⟨hm, ht, he⟩ := h
  simp only [block, hm, ht, he]

def blocks (cs : List Component) : String := String.join (cs.map block)

theorem blocks_concat (cs : List Component) (c : Component) :
    blocks (cs ++ [c]) = blocks cs ++ c.block := by
  simp [blocks, String.join_append]

theorem append_block_ne_empty (s : String) (c : Component) : s ++ c.block ≠ "" := by
  intro h
  have hclosing : EndsLine closing := by simp [EndsLine, closing]
  have hend := hclosing.append (s ++ c.head ++ c.typeLine ++ middle ++ c.nameLine ++ ",\n" ++
    c.typesLine)
  rw [← append_block, h] at hend
  cases hend

theorem agree_of_blocks_eq {fs gs : List Component} (hf : ∀ c ∈ fs, c.Plain)
    (hg : ∀ c ∈ gs, c.Plain) (h : blocks fs = blocks gs) : List.Forall₂ Agree fs gs := by
  induction fs using List.reverseRecOn generalizing gs with
  | nil =>
    rcases List.eq_nil_or_concat' gs with rfl | ⟨gs, d, rfl⟩
    · exact .nil
    · rw [blocks_concat] at h
      exact absurd h.symm (append_block_ne_empty _ d)
  | append_singleton fs c ih =>
    rcases List.eq_nil_or_concat' gs with rfl | ⟨gs, d, rfl⟩
    · rw [blocks_concat] at h
      exact absurd h (append_block_ne_empty _ c)
    · rw [blocks_concat, blocks_concat] at h
      obtain ⟨hs, hcd⟩ := append_block_inj (hf c (by simp)) (hg d (by simp)) h
      have hfs : ∀ c ∈ fs, c.Plain := fun c hc => hf c (by simp [hc])
      have hgs : ∀ c ∈ gs, c.Plain := fun c hc => hg c (by simp [hc])
      exact List.rel_append (ih hfs hgs hs) (.cons hcd .nil)

theorem blocks_eq_of_agree {fs gs : List Component} (h : List.Forall₂ Agree fs gs) :
    blocks fs = blocks gs := by
  induction h with
  | nil => rfl
  | @cons c d fs gs hcd _ ih =>
    rw [blocks, List.map_cons, String.join_cons, ← blocks, ih, hcd.block_eq, blocks, blocks,
      List.map_cons, String.join_cons]

theorem block_reads_back (c : Component) :
    ∃ above name types, c.block = above ++ "            name: " ++ name ++ ",\n" ++
        "            types: " ++ types ++ closing ∧
      EndsLine above ∧ OneLine name ∧ OneLine types ∧
      Json.Decoder.text.ofWholeText? name = some c.model ∧
      (Json.Decoder.list .text).ofWholeText? types = some c.types := by
  have hblock := append_block "" c
  rw [String.empty_append, String.empty_append] at hblock
  have hmiddle : EndsLine middle := by simp [EndsLine, middle]
  refine ⟨c.head ++ c.typeLine ++ middle, Json.printString c.model, Json.printStrings c.types, ?_,
    hmiddle.append _, Json.oneLine_printString c.model, Json.oneLine_printStrings c.types,
    Json.ofWholeText?_printString c.model, Json.ofWholeText?_printStrings c.types⟩
  rw [hblock]
  unfold nameLine typesLine
  simp only [String.append_assoc]

end Component

theorem componentsFile_eq_iff_blocks_eq {fs gs : List Component} :
    componentsFile fs = componentsFile gs ↔ Component.blocks fs = Component.blocks gs := by
  simp only [componentsFile, String.join_cons, String.append_right_inj, String.append_left_inj,
    Component.blocks]

theorem componentsFile_loses_nothing {fs gs : List Component} (hf : ∀ c ∈ fs, c.Plain)
    (hg : ∀ c ∈ gs, c.Plain) :
    (componentsFile fs = componentsFile gs ↔
      List.Forall₂ (fun c d => c.model = d.model ∧ c.types = d.types ∧ c.type.text = d.type.text)
        fs gs) ∧
    ∀ c ∈ fs, ∃ above name types, c.block = above ++ "            name: " ++ name ++ ",\n" ++
        "            types: " ++ types ++ Component.closing ∧
      EndsLine above ∧ OneLine name ∧ OneLine types ∧
      Json.Decoder.text.ofWholeText? name = some c.model ∧
      (Json.Decoder.list .text).ofWholeText? types = some c.types := by
  refine ⟨componentsFile_eq_iff_blocks_eq.trans ⟨?_, ?_⟩, fun c _ => c.block_reads_back⟩
  · exact Component.agree_of_blocks_eq hf hg
  · exact Component.blocks_eq_of_agree

def twoFields : Component where
  model := "M\n    \x7d)(),\n"
  type := .record [("a", .scalar .number), ("b", .scalar .number)]
  types := ["", "\"\\\n"]

def oneField : Component where
  model := "M\n    \x7d)(),\n"
  type := .record [("a: RecsType.Number, b", .scalar .number)]
  types := ["", "\"\\\n"]

theorem componentsFile_twoFields :
    (∀ c ∈ [twoFields], c.Plain) ∧ (∀ c ∈ [oneField], c.Plain) ∧ twoFields ≠ oneField ∧
      componentsFile [twoFields] = componentsFile [oneField] := by
  have htwo : ∀ c ∈ [twoFields], c.Plain := by
    simp [Component.Plain, twoFields, Recs.TypeExpr.names, Recs.fieldNames, OneLine]
  have hone : ∀ c ∈ [oneField], c.Plain := by
    simp [Component.Plain, oneField, Recs.TypeExpr.names, Recs.fieldNames, OneLine]
  refine ⟨htwo, hone, by decide, ?_⟩
  exact (componentsFile_loses_nothing htwo hone).1.mpr (.cons ⟨rfl, rfl, by decide⟩ .nil)

end ModelBindings
