import ModelBindings.Json.Printer
import ModelBindings.Proofs.Json.Decoder
import ModelBindings.Proofs.Text.Line

namespace ModelBindings.Json

theorem spelled_low {n : Nat} (h : n < 0x10) :
    Spelled (Char.ofNat n) ('\\' :: 'u' :: '0' :: '0' :: '0' :: Text.hex n) := by
  have hx : ∀ n < 0x10, Text.hex n = [Nat.digitChar n] ∧
      hexUnit? '0' '0' '0' (Nat.digitChar n) = some n := by decide
  obtain ⟨ht, hu⟩ := hx n h
  rw [ht]
  refine .unit hu ?_ ?_
  · simp [isLowSurrogate]; omega
  · simp [isHighSurrogate]; omega

theorem spelled_high {n : Nat} (h : 0x10 ≤ n) (h' : n < 0x20) :
    Spelled (Char.ofNat n) ('\\' :: 'u' :: '0' :: '0' :: Text.hex n) := by
  have hx : ∀ n < 0x20, 0x10 ≤ n → Text.hex n = ['1', Nat.digitChar (n - 0x10)] ∧
      hexUnit? '0' '0' '1' (Nat.digitChar (n - 0x10)) = some n := by decide
  obtain ⟨ht, hu⟩ := hx n h' h
  rw [ht]
  refine .unit hu ?_ ?_
  · simp [isLowSurrogate]; omega
  · simp [isHighSurrogate]; omega

theorem spelled_escape (c : Char) : Spelled c (escape c) := by
  unfold escape
  split
  · exact @Spelled.short '"' '"' rfl
  · exact @Spelled.short '\\' '\\' rfl
  · exact @Spelled.short 'b' '\x08' rfl
  · exact @Spelled.short 'f' '\x0c' rfl
  · exact @Spelled.short 'n' '\n' rfl
  · exact @Spelled.short 'r' '\r' rfl
  · exact @Spelled.short 't' '\t' rfl
  · split
    · have h := spelled_low ‹_›
      rwa [Char.ofNat_toNat] at h
    · split
      · have h := spelled_high (Nat.le_of_not_lt ‹_›) ‹_›
        rwa [Char.ofNat_toNat] at h
      · exact .plain ‹_› ‹_› (Nat.le_of_not_lt ‹_›)

theorem spelling_flatMap_escape (cs : List Char) : Spelling cs (cs.flatMap escape) := by
  induction cs with
  | nil => exact .nil
  | cons c cs ih =>
    rw [List.flatMap_cons]
    exact .cons (spelled_escape c) ih

theorem written_printString (s : String) : Written (.string s) (printString s).toList := by
  rw [printString, String.toList_ofList]
  exact .string (spelling_flatMap_escape s.toList)

theorem listed_intercalate {α : Type} {P : α → List Char → Prop} (gap : String)
    (hgap : Blanks gap.toList) {as : List α} {ts : List String}
    (h : List.Forall₂ (fun a t => P a t.toList) as ts) {a : α} {t : String} (ha : P a t.toList)
    (first : Bool) :
    Listed P first (a :: as)
      (comma first ++ gap.toList ++
        ((("," ++ gap).intercalate (t :: ts)).toList ++ gap.toList)) := by
  induction h generalizing first a t with
  | nil =>
    have h : Listed P first [a] _ := .cons blanks_nil hgap ha (.nil hgap)
    simpa using h
  | @cons a' t' as ts ha' _ ih =>
    have h : Listed P first (a :: a' :: as) _ := .cons blanks_nil hgap ha (ih ha' false)
    simpa [comma, String.intercalate_cons_cons] using h

theorem written_printStrings (ss : List String) :
    Written (.array (ss.map Value.string)) (printStrings ss).toList := by
  cases ss with
  | nil => exact .array (.nil blanks_nil)
  | cons s ss =>
    have hss : List.Forall₂ (fun v (t : String) => Written v t.toList) (ss.map Value.string)
        (ss.map printString) := by
      rw [List.forall₂_map_left_iff, List.forall₂_map_right_iff]
      exact List.forall₂_same.mpr fun s _ => written_printString s
    have h := Written.array (listed_intercalate "" blanks_nil hss (written_printString s) true)
    simpa [printStrings, comma] using h

theorem writtenText_of_written {v : Value} {text : String} (h : Written v text.toList) :
    WrittenText v text := by
  have hw := WrittenText.mk blanks_nil h blanks_nil
  rwa [List.nil_append, List.append_nil, String.ofList_toList] at hw

theorem ofWholeText?_printString (s : String) :
    Decoder.text.ofWholeText? (printString s) = some s :=
  Decoder.ofWholeText?_written Decoder.faithful_text
    (writtenText_of_written (written_printString s)) rfl (Nat.zero_le _)

theorem heightItems_strings (ss : List String) : heightItems (ss.map .string) = 0 := by
  induction ss with
  | nil => rfl
  | cons s ss ih =>
    rw [List.map_cons, heightItems, ih]
    rfl

theorem ofWholeText?_printStrings (ss : List String) :
    (Decoder.list .text).ofWholeText? (printStrings ss) = some ss := by
  have hd : (Value.array (ss.map .string)).distinct = true := by
    refine distinctItems_iff.mpr fun v hv => ?_
    obtain ⟨s, -, rfl⟩ := List.mem_map.mp hv
    rfl
  have hh : (Value.array (ss.map .string)).height ≤ maxDepth := by
    rw [Value.height, heightItems_strings]
    decide
  have hc : (Decoder.list .text).convert (.array (ss.map .string)) = .ok ss := by
    refine Decoder.list_convert_eq_ok_iff.mpr ⟨_, rfl, ?_⟩
    rw [List.forall₂_map_left_iff]
    exact List.forall₂_same.mpr fun s _ => rfl
  rw [Decoder.ofWholeText?_written (Decoder.faithful_list Decoder.faithful_text)
    (writtenText_of_written (written_printStrings ss)) hd hh, hc]
  rfl

theorem printString_injective {s s' : String} (h : printString s = printString s') : s = s' := by
  have hs := ofWholeText?_printString s
  rw [h, ofWholeText?_printString] at hs
  exact (Option.some.inj hs).symm

theorem printStrings_injective {ss ss' : List String} (h : printStrings ss = printStrings ss') :
    ss = ss' := by
  have hs := ofWholeText?_printStrings ss
  rw [h, ofWholeText?_printStrings] at hs
  exact (Option.some.inj hs).symm

theorem hexUnit?_ne_newline {a b c d : Char} {n : Nat} (h : hexUnit? a b c d = some n) :
    '\n' ∉ [a, b, c, d] := by
  have hnone : hexValue? '\n' = none := by decide
  simp only [List.mem_cons, List.not_mem_nil, or_false]
  rintro (rfl | rfl | rfl | rfl) <;> simp [hexUnit?, hnone] at h

theorem Spelled.not_mem_newline {c : Char} {u : List Char} (h : Spelled c u) : '\n' ∉ u := by
  cases h with
  | plain _ _ hc =>
    intro h
    cases List.mem_singleton.mp h
    exact absurd hc (by decide)
  | @short e c he =>
    have hn : '\n' ≠ e := by
      rintro rfl
      cases he
    simp [hn]
  | unit hn _ _ =>
    have h := hexUnit?_ne_newline hn
    simpa using h
  | pair hn _ hm _ =>
    have h := hexUnit?_ne_newline hn
    have h' := hexUnit?_ne_newline hm
    simp only [List.mem_cons, List.not_mem_nil, or_false] at h h' ⊢
    simp [h, h']

theorem Spelling.not_mem_newline {cs t : List Char} (h : Spelling cs t) : '\n' ∉ t := by
  induction h with
  | nil => exact List.not_mem_nil
  | cons hc _ ih =>
    rw [List.mem_append, not_or]
    exact ⟨hc.not_mem_newline, ih⟩

theorem oneLine_printString (s : String) : Text.OneLine (printString s) := by
  have h := (spelling_flatMap_escape s.toList).not_mem_newline
  rw [Text.OneLine, printString, String.toList_ofList]
  simpa using h

theorem oneLine_printStrings (ss : List String) : Text.OneLine (printStrings ss) := by
  have hopen : Text.OneLine "[" := by simp [Text.OneLine]
  have hsep : Text.OneLine "," := by simp [Text.OneLine]
  have hclose : Text.OneLine "]" := by simp [Text.OneLine]
  refine (hopen.append (hsep.intercalate fun t ht => ?_)).append hclose
  obtain ⟨s, -, rfl⟩ := List.mem_map.mp ht
  exact oneLine_printString s

end ModelBindings.Json
