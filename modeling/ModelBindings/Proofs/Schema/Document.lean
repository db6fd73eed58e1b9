import Mathlib.Data.List.Forall2
import ModelBindings.Proofs.Json.Record
import ModelBindings.Schema.Document

namespace ModelBindings.Schema

open Json

inductive Member (P : Value → Node → Prop) : Value → String × Node → Prop where
  | mk {name : String} {v w : Value} {n : Node} :
      HasFields v [("name", .string name), ("member_type", w)] → P w n → Member P v (name, n)

inductive Content (P : Value → Node → Prop) : Kind → Value → Node → Prop where
  | primitive {c : Value} {scalar : String} : HasFields c [("scalar_type", .string scalar)] →
      Content P .primitive c (.primitive scalar)
  | enum {c : Value} {name : String} : HasFields c [("name", .string name)] →
      Content P .enum c (.enum name)
  | struct {c : Value} {name : String} {vs : List Value} {fields : List (String × Node)} :
      HasFields c [("name", .string name), ("children", .array vs)] →
      List.Forall₂ (Member P) vs fields → Content P .struct c (.struct name fields)
  | tuple {vs : List Value} {elements : List Node} : List.Forall₂ P vs elements →
      Content P .tuple (.array vs) (.tuple elements)

inductive Encodes : Value → Node → Prop where
  | mk {v c : Value} {k : Kind} {n : Node} :
      HasFields v [("type", .string k.tag), ("content", c)] → Content Encodes k c n → Encodes v n

def Entry.Encodes (e : Entry) (n : Node) : Prop :=
  ∃ k, Kind.ofTag? e.tag = some k ∧ Content Schema.Encodes k e.content n

section Numbered

variable {ε α β γ : Type} {f : Nat → β → Except ε γ}

def numbered (f : Nat → β → Except ε γ) : Nat → List β → Except ε (List γ)
  | _, [] => .ok []
  | i, b :: bs => do
      let c ← f i b
      return c :: (← numbered f (i + 1) bs)

theorem numbered_forall₂ {R : α → β → Prop} {S : α → γ → Prop} {as : List α} {cs : List γ}
    (h : ∀ a ∈ as, ∀ i c, (∃ b, R a b ∧ f i b = .ok c) ↔ S a c) {i : Nat} :
    (∃ bs, List.Forall₂ R as bs ∧ numbered f i bs = .ok cs) ↔ List.Forall₂ S as cs := by
  induction as generalizing i cs with
  | nil => simp [numbered, eq_comm]
  | cons a as ih =>
    have ha := h a (by simp)
    have has : ∀ a ∈ as, ∀ i c, (∃ b, R a b ∧ f i b = .ok c) ↔ S a c :=
      fun a h' => h a (by simp [h'])
    constructor
    · rintro ⟨bs, hR, hb⟩
      obtain ⟨b, bs, hab, hbs, rfl⟩ := List.forall₂_cons_left_iff.mp hR
      simp only [numbered, bind_eq_ok_iff, pure_eq_ok_iff] at hb
      obtain ⟨c, hc, cs, hcs, rfl⟩ := hb
      exact .cons ((ha i c).mp ⟨b, hab, hc⟩) ((ih has).mp ⟨bs, hbs, hcs⟩)
    · intro hS
      obtain ⟨c, cs, hc, hcs, rfl⟩ := List.forall₂_cons_left_iff.mp hS
      obtain ⟨b, hb, hf⟩ := (ha i c).mpr hc
      obtain ⟨bs, hbs, hn⟩ := (@ih cs has (i + 1)).mpr hcs
      refine ⟨b :: bs, .cons hb hbs, ?_⟩
      rw [numbered, hf, ok_bind, hn]
      rfl

theorem lowerMembers_eq_numbered (lower : Entry → String → Except Error Node) (path : String)
    (i : Nat) (ms : List (String × Entry)) :
    Entry.lowerMembers lower path i ms =
      numbered (fun i m => do return (m.1, ← lower m.2 (Entry.memberPath path i))) i ms := by
  induction ms generalizing i with
  | nil => rfl
  | cons m ms ih =>
    simp only [Entry.lowerMembers, numbered, ih]
    cases lower m.2 (Entry.memberPath path i) <;> rfl

theorem lowerElements_eq_numbered (lower : Entry → String → Except Error Node) (path : String)
    (i : Nat) (es : List Entry) :
    Entry.lowerElements lower path i es =
      numbered (fun i e => lower e (Entry.elementPath path i)) i es := by
  induction es generalizing i with
  | nil => rfl
  | cons e es ih => simp only [Entry.lowerElements, numbered, ih]

end Numbered

namespace Entry

variable {v : Value}

theorem decoder_convert_eq_ok_iff {e : Entry} :
    decoder.convert v = .ok e ↔ record.convert v = .ok (e.tag, e.content) := by
  simp only [decoder, Decoder.map, bind_eq_ok_iff, pure_eq_ok_iff, Record.decoder]
  constructor
  · rintro ⟨x, hx, rfl⟩
    exact hx
  · intro h
    exact ⟨_, h, rfl⟩

theorem decoder_convert_of_hasFields (hv : v.distinct = true) {tag : String} {c : Value}
    (h : HasFields v [("type", .string tag), ("content", c)]) :
    decoder.convert v = .ok ⟨tag, c⟩ :=
  decoder_convert_eq_ok_iff.mpr (Record.two_convert_of_hasFields (by decide) hv h rfl rfl)

theorem hasFields_of_decoder_convert (hv : v.distinct = true) {e : Entry}
    (h : decoder.convert v = .ok e) :
    HasFields v [("type", .string e.tag), ("content", e.content)] ∨ e.content = .null := by
  obtain ⟨x, y, hf, hx, hy⟩ | hc :=
    Record.hasFields_of_two_convert (by decide) hv (decoder_convert_eq_ok_iff.mp h)
  · cases Decoder.text_convert_eq_ok_iff.mp hx
    cases hy
    exact .inl hf
  · exact .inr (Option.some.inj hc).symm

theorem height_lt_and_distinct (hv : v.distinct = true) {e : Entry}
    (h : decoder.convert v = .ok e) :
    e.content.height < v.height ∧ e.content.distinct = true := by
  rcases hasFields_of_decoder_convert hv h with hf | hc
  · have hm : ("content", e.content) ∈ [("type", .string e.tag), ("content", e.content)] := by simp
    exact ⟨hf.height_lt hm, hf.distinct hv hm⟩
  · rw [hc]
    refine ⟨?_, rfl⟩
    cases v with
    | array vs => exact Nat.succ_pos _
    | object ms => exact Nat.succ_pos _
    | null | bool b | number n | string s => cases h

end Entry

theorem not_content_null {P : Value → Node → Prop} {k : Kind} {n : Node} :
    ¬ Content P k .null n := by
  intro h
  cases h with
  | primitive h => cases h
  | enum h => cases h
  | struct h _ => cases h

theorem Kind.tag_of_ofTag? {tag : String} {k : Kind} (h : Kind.ofTag? tag = some k) :
    tag = k.tag := by
  have hk := List.find?_some h
  exact (beq_iff_eq.mp hk).symm

theorem encodes_iff_entry {v : Value} (hv : v.distinct = true) {n : Node} :
    Encodes v n ↔ ∃ e, Entry.decoder.convert v = .ok e ∧ e.Encodes n := by
  constructor
  · rintro ⟨hf, hc⟩
    exact ⟨_, Entry.decoder_convert_of_hasFields hv hf, _, Kind.ofTag?_tag _, hc⟩
  · rintro ⟨e, he, k, hk, hc⟩
    rcases Entry.hasFields_of_decoder_convert hv he with hf | hnull
    · rw [Kind.tag_of_ofTag? hk] at hf
      exact .mk hf hc
    · rw [hnull] at hc
      exact absurd hc not_content_null

theorem contentAs_eq_ok_iff {α : Type} {d : Decoder α} {c : Value} {path : String} {a : α} :
    Entry.contentAs d c path = .ok a ↔ d.convert c = .ok a := by
  simp only [← toOption_eq_some_iff, Entry.contentAs, Decoder.ofValue, toOption_mapError]

theorem member_convert_eq_ok_iff {v : Value} (hv : v.distinct = true) {name : String} {e : Entry} :
    Entry.member.convert v = .ok (name, e) ↔
      ∃ w, HasFields v [("name", .string name), ("member_type", w)] ∧
        Entry.decoder.convert w = .ok e := by
  refine (Record.two_convert_eq_ok_iff (by decide) hv).trans ?_
  constructor
  · rintro ⟨x, w, hf, hx, hw⟩
    cases Decoder.text_convert_eq_ok_iff.mp hx
    exact ⟨w, hf, hw⟩
  · rintro ⟨w, hf, hw⟩
    exact ⟨.string name, w, hf, rfl, hw⟩

theorem structContent_convert_eq_ok_iff {c : Value} (hc : c.distinct = true) {name : String}
    {ms : List (String × Entry)} : Entry.structContent.convert c = .ok (name, ms) ↔
      ∃ vs, HasFields c [("name", .string name), ("children", .array vs)] ∧
        List.Forall₂ (fun v m => Entry.member.convert v = .ok m) vs ms := by
  refine (Record.two_convert_eq_ok_iff (by decide) hc).trans ?_
  constructor
  · rintro ⟨x, y, hf, hx, hy⟩
    cases Decoder.text_convert_eq_ok_iff.mp hx
    obtain ⟨vs, rfl, hvs⟩ := Decoder.list_convert_eq_ok_iff.mp hy
    exact ⟨vs, hf, hvs⟩
  · rintro ⟨vs, hf, hvs⟩
    exact ⟨.string name, .array vs, hf, rfl, Decoder.list_convert_eq_ok_iff.mpr ⟨vs, rfl, hvs⟩⟩

theorem primitiveContent_convert_eq_ok_iff {c : Value} (hc : c.distinct = true) {scalar : String} :
    Entry.primitiveContent.convert c = .ok scalar ↔
      HasFields c [("scalar_type", .string scalar)] := by
  refine (Record.one_convert_eq_ok_iff hc).trans ?_
  simp [Decoder.text_convert_eq_ok_iff]

theorem enumContent_convert_eq_ok_iff {c : Value} (hc : c.distinct = true) {name : String} :
    Entry.enumContent.convert c = .ok name ↔ HasFields c [("name", .string name)] := by
  refine (Record.one_convert_eq_ok_iff hc).trans ?_
  simp [Decoder.text_convert_eq_ok_iff]

def Exact (lower : Entry → String → Except Error Node) (height : Nat) : Prop :=
  ∀ e path n, e.content.height < height → e.content.distinct = true →
    (lower e path = .ok n ↔ e.Encodes n)

namespace Exact

variable {lower : Entry → String → Except Error Node} {height : Nat}

theorem encodes (h : Exact lower height) {v : Value} (hv : v.distinct = true)
    (hh : v.height ≤ height) (path : String) (n : Node) :
    (∃ e, Entry.decoder.convert v = .ok e ∧ lower e path = .ok n) ↔ Encodes v n := by
  rw [encodes_iff_entry hv]
  refine exists_congr fun e => and_congr_right fun he => ?_
  obtain ⟨hlt, hd⟩ := Entry.height_lt_and_distinct hv he
  exact h e path n (Nat.lt_of_lt_of_le hlt hh) hd

theorem member (h : Exact lower height) {v : Value} (hv : v.distinct = true)
    (hh : v.height ≤ height) (path : String) (f : String × Node) :
    (∃ m, Entry.member.convert v = .ok m ∧
      (do return (m.1, ← lower m.2 path) : Except Error (String × Node)) = .ok f) ↔
      Member Encodes v f := by
  have hw {name : String} {w : Value}
      (hf : HasFields v [("name", .string name), ("member_type", w)]) (n : Node) :
      (∃ e, Entry.decoder.convert w = .ok e ∧ lower e path = .ok n) ↔ Encodes w n := by
    have hm : ("member_type", w) ∈ [("name", Value.string name), ("member_type", w)] := by simp
    exact h.encodes (hf.distinct hv hm) (Nat.le_trans (Nat.le_of_lt (hf.height_lt hm)) hh) path n
  constructor
  · rintro ⟨⟨name, e⟩, hm, hl⟩
    obtain ⟨n, hn, hp⟩ := bind_eq_ok_iff.mp hl
    cases hp
    obtain ⟨w, hf, he⟩ := (member_convert_eq_ok_iff hv).mp hm
    exact .mk hf ((hw hf n).mp ⟨e, he, hn⟩)
  · intro hm
    cases hm with
    | @mk name _ w n hf hn =>
      obtain ⟨e, he, hl⟩ := (hw hf n).mpr hn
      refine ⟨(name, e), (member_convert_eq_ok_iff hv).mpr ⟨w, hf, he⟩, ?_⟩
      rw [hl]
      rfl

theorem struct (h : Exact lower height) {c : Value} (hc : c.distinct = true)
    (hh : c.height ≤ height) (path : String) (name : String) (fields : List (String × Node)) :
    (∃ ms, Entry.structContent.convert c = .ok (name, ms) ∧
      Entry.lowerMembers lower path 0 ms = .ok fields) ↔
      ∃ vs, HasFields c [("name", .string name), ("children", .array vs)] ∧
        List.Forall₂ (Member Encodes) vs fields := by
  have hvs {vs : List Value} (hf : HasFields c [("name", .string name), ("children", .array vs)]) :
      (∃ ms, List.Forall₂ (fun v m => Entry.member.convert v = .ok m) vs ms ∧
        Entry.lowerMembers lower path 0 ms = .ok fields) ↔
        List.Forall₂ (Member Encodes) vs fields := by
    have hm : ("children", Value.array vs) ∈
        [("name", Value.string name), ("children", Value.array vs)] := by simp
    have hd := distinctItems_iff.mp (hf.distinct hc hm)
    have hlt : heightItems vs < height :=
      Nat.lt_of_lt_of_le (Nat.lt_of_succ_lt (hf.height_lt hm)) hh
    simp only [lowerMembers_eq_numbered]
    refine numbered_forall₂ fun v hv i f => ?_
    exact h.member (hd v hv) (Nat.le_of_lt (Nat.lt_of_le_of_lt (height_le_of_mem_items hv) hlt)) _ f
  constructor
  · rintro ⟨ms, hms, hl⟩
    obtain ⟨vs, hf, hm⟩ := (structContent_convert_eq_ok_iff hc).mp hms
    exact ⟨vs, hf, (hvs hf).mp ⟨ms, hm, hl⟩⟩
  · rintro ⟨vs, hf, hm⟩
    obtain ⟨ms, hms, hl⟩ := (hvs hf).mpr hm
    exact ⟨ms, (structContent_convert_eq_ok_iff hc).mpr ⟨vs, hf, hms⟩, hl⟩

theorem tuple (h : Exact lower height) {c : Value} (hc : c.distinct = true)
    (hh : c.height ≤ height) (path : String) (elements : List Node) :
    (∃ es, Entry.tupleContent.convert c = .ok es ∧
      Entry.lowerElements lower path 0 es = .ok elements) ↔
      ∃ vs, c = .array vs ∧ List.Forall₂ Encodes vs elements := by
  have hvs {vs : List Value} (hc : (Value.array vs).distinct = true)
      (hh : (Value.array vs).height ≤ height) :
      (∃ es, List.Forall₂ (fun v e => Entry.decoder.convert v = .ok e) vs es ∧
        Entry.lowerElements lower path 0 es = .ok elements) ↔
        List.Forall₂ Encodes vs elements := by
    have hd := distinctItems_iff.mp hc
    simp only [lowerElements_eq_numbered]
    refine numbered_forall₂ fun v hv i n => ?_
    exact h.encodes (hd v hv) (Nat.le_trans (height_le_of_mem_items hv) (Nat.le_of_lt hh)) _ n
  constructor
  · rintro ⟨es, hes, hl⟩
    obtain ⟨vs, rfl, hv⟩ := Decoder.list_convert_eq_ok_iff.mp hes
    exact ⟨vs, rfl, (hvs hc hh).mp ⟨es, hv, hl⟩⟩
  · rintro ⟨vs, rfl, hv⟩
    obtain ⟨es, hes, hl⟩ := (hvs hc hh).mpr hv
    exact ⟨es, Decoder.list_convert_eq_ok_iff.mpr ⟨vs, rfl, hes⟩, hl⟩

end Exact

section Kinds

variable {P : Value → Node → Prop} {c : Value} {n : Node}

theorem content_primitive_iff : Content P .primitive c n ↔
    ∃ scalar, HasFields c [("scalar_type", .string scalar)] ∧ n = .primitive scalar := by
  constructor
  · intro h
    cases h with
    | primitive h => exact ⟨_, h, rfl⟩
  · rintro ⟨scalar, h, rfl⟩
    exact .primitive h

theorem content_enum_iff : Content P .enum c n ↔
    ∃ name, HasFields c [("name", .string name)] ∧ n = .enum name := by
  constructor
  · intro h
    cases h with
    | enum h => exact ⟨_, h, rfl⟩
  · rintro ⟨name, h, rfl⟩
    exact .enum h

theorem content_struct_iff : Content P .struct c n ↔
    ∃ name fields, (∃ vs, HasFields c [("name", .string name), ("children", .array vs)] ∧
      List.Forall₂ (Member P) vs fields) ∧ n = .struct name fields := by
  constructor
  · intro h
    cases h with
    | struct h hvs => exact ⟨_, _, ⟨_, h, hvs⟩, rfl⟩
  · rintro ⟨name, fields, ⟨vs, h, hvs⟩, rfl⟩
    exact .struct h hvs

theorem content_tuple_iff : Content P .tuple c n ↔
    ∃ elements, (∃ vs, c = .array vs ∧ List.Forall₂ P vs elements) ∧ n = .tuple elements := by
  constructor
  · intro h
    cases h with
    | tuple h => exact ⟨_, ⟨_, rfl, h⟩, rfl⟩
  · rintro ⟨elements, ⟨vs, rfl, h⟩, rfl⟩
    exact .tuple h

end Kinds

theorem exact_lowerWithin (levels : Nat) : Exact (Entry.lowerWithin levels) levels := by
  induction levels with
  | zero =>
    intro e path n hh
    exact absurd hh (Nat.not_lt_zero _)
  | succ levels ih =>
    intro e path n hh hd
    obtain ⟨tag, c⟩ := e
    have hc : c.height ≤ levels := Nat.le_of_lt_succ hh
    rw [Entry.lowerWithin]
    cases hk : Kind.ofTag? tag with
    | none => simp [Entry.Encodes, hk]
    | some k =>
      have he : Entry.Encodes ⟨tag, c⟩ n ↔ Content Encodes k c n := by simp [Entry.Encodes, hk]
      rw [he]
      cases k with
      | primitive =>
        simp only [content_primitive_iff, bind_eq_ok_iff, pure_eq_ok_iff, contentAs_eq_ok_iff,
          primitiveContent_convert_eq_ok_iff hd, eq_comm (a := n)]
      | enum =>
        simp only [content_enum_iff, bind_eq_ok_iff, pure_eq_ok_iff, contentAs_eq_ok_iff,
          enumContent_convert_eq_ok_iff hd, eq_comm (a := n)]
      | struct =>
        simp only [content_struct_iff, bind_eq_ok_iff, pure_eq_ok_iff, contentAs_eq_ok_iff,
          ← ih.struct hd hc path]
        constructor
        · rintro ⟨⟨name, ms⟩, hms, fields, hl, rfl⟩
          exact ⟨name, fields, ⟨ms, hms, hl⟩, rfl⟩
        · rintro ⟨name, fields, ⟨ms, hms, hl⟩, rfl⟩
          exact ⟨(name, ms), hms, fields, hl, rfl⟩
      | tuple =>
        simp only [content_tuple_iff, bind_eq_ok_iff, pure_eq_ok_iff, contentAs_eq_ok_iff,
          ← ih.tuple hd hc path]
        constructor
        · rintro ⟨es, hes, elements, hl, rfl⟩
          exact ⟨elements, ⟨es, hes, hl⟩, rfl⟩
        · rintro ⟨elements, ⟨es, hes, hl⟩, rfl⟩
          exact ⟨es, hes, elements, hl, rfl⟩

theorem Entry.faithful_decoder : Entry.decoder.Faithful :=
  Decoder.faithful_map (Record.faithful_two Decoder.faithful_text Decoder.faithful_any) _

theorem ofDocument_eq_ok_iff_encodes {v : Value} {text : String} (hw : WrittenText v text)
    (hd : v.distinct = true) (hh : v.height ≤ 127) (n : Node) :
    Node.ofDocument text = .ok n ↔ Encodes v n := by
  have ht := Decoder.toOption_ofText Entry.faithful_decoder hw hd hh
  have hlower : Exact Entry.lower v.height := fun e path n _ hd =>
    exact_lowerWithin _ e path n (Nat.lt_succ_self _) hd
  rw [← hlower.encodes hd (Nat.le_refl _) "$" n, Node.ofDocument, bind_eq_ok_iff]
  refine exists_congr fun e => and_congr_left fun _ => ?_
  rw [← toOption_eq_some_iff, toOption_mapError, ht, toOption_eq_some_iff]

def taggedLate : Value :=
  .object [("extra", .number (.integer 7)),
    ("content", .array [.array [.string "enum", .object [("name", .string "E")]]]),
    ("type", .string "tuple")]

def taggedLateText : String :=
  " \x7b\"extra\":7 , \"content\":[[\"enum\",\x7b\"name\":\"E\"\x7d]]" ++
    ",\"t\\u0079pe\" : \"tuple\"\x7d"

theorem written_taggedLateText : WrittenText taggedLate taggedLateText := by
  have hn : Blanks [] := blanks_nil
  have hb : Blanks [' '] := by simp [Blanks, isBlank]
  have hy : Spelled 'y' ['\\', 'u', '0', '0', '7', '9'] :=
    @Spelled.unit '0' '0' '7' '9' 0x79 (by decide) (by decide) (by decide)
  have htype : Spelling "type".toList (['t'] ++ (['\\', 'u', '0', '0', '7', '9'] ++ ['p', 'e'])) :=
    .cons (.plain (by decide) (by decide) (by decide)) (.cons hy (spelling_plain (by decide)))
  have hextra : Spelling "extra".toList "extra".toList := spelling_plain (by decide)
  have hcontent : Spelling "content".toList "content".toList := spelling_plain (by decide)
  have hname : Spelling "name".toList "name".toList := spelling_plain (by decide)
  have hseven : Written (.number (.integer 7)) ['7'] :=
    @Written.number ⟨false, ['7'], none, none, .inr (by simp [Digits])⟩ _ rfl
  have htuple : Written (.string "tuple") _ := .string (spelling_plain (by decide))
  have henum : Written (.string "enum") _ := .string (spelling_plain (by decide))
  have he : Written (.string "E") _ := .string (spelling_plain (by decide))
  have hobject : Written (.object [("name", .string "E")]) _ :=
    .object (.cons hn hn (.mk hname hn hn he) (.nil hn))
  have helement : Written (.array [.string "enum", .object [("name", .string "E")]]) _ :=
    .array (.cons hn hn henum (.cons hn hn hobject (.nil hn)))
  have helements := Written.array (.cons hn hn helement (.nil hn))
  have hw := Written.object (.cons hn hn (.mk hextra hn hn hseven)
    (.cons hb hb (.mk hcontent hn hn helements) (.cons hn hn (.mk htype hb hb htuple) (.nil hn))))
  exact .mk hb hw hn

theorem encodes_taggedLate : Encodes taggedLate (.tuple [.enum "E"]) := by
  have he : HasFields (.array [.string "enum", .object [("name", .string "E")]])
      [("type", .string Kind.enum.tag), ("content", .object [("name", .string "E")])] :=
    .placed [("type", _), ("content", _)]
  refine .mk (k := .tuple) (.named ?_) (.tuple (.cons (.mk he (.enum (.named ?_))) .nil)) <;>
  simp [Kind.tag]

theorem ofDocument_taggedLateText :
    WrittenText taggedLate taggedLateText ∧ taggedLate.distinct = true ∧
      taggedLate.height ≤ 127 ∧ Encodes taggedLate (.tuple [.enum "E"]) ∧
      Node.ofDocument taggedLateText = .ok (.tuple [.enum "E"]) := by
  have hd : taggedLate.distinct = true := by decide
  have hh : taggedLate.height ≤ 127 := by decide
  refine ⟨written_taggedLateText, hd, hh, encodes_taggedLate, ?_⟩
  exact (ofDocument_eq_ok_iff_encodes written_taggedLateText hd hh _).mpr encodes_taggedLate

end ModelBindings.Schema
