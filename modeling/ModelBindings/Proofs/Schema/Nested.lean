import ModelBindings.Proofs.Documents
import ModelBindings.Proofs.Json.Settled
import ModelBindings.Proofs.Schema.Document

/-!
A node document by itself and inside another one. The root is read from text and a nested node from
a value that has been read, which tells them apart in two ways only: the root refuses a field that
is repeated, and it passes over the members that are no fields.
-/

namespace ModelBindings.Schema

open Json

def Legible (x : List Char) : Prop := ∃ v, Written v x

structure Portable (ms : List (String × List Char)) : Prop where
  once : ∀ key ∈ ["type", "content"], (ms.map Prod.fst).count key ≤ 1
  legible : ∀ m ∈ ms, m.1 ∉ ["type", "content"] → Legible m.2

def inTuple (document : String) : String :=
  "\x7b\"type\":\"tuple\",\"content\":[" ++ document ++ "]\x7d"

variable {b t b' : List Char}

theorem Entry.takes_fields (steps depth : Nat) :
    ∀ f ∈ record.fields, Takes (fun _ => Legible) (f.decoder.read steps depth) := by
  intro f hf
  simp only [record, Record.two, List.mem_cons, List.not_mem_nil, or_false] at hf
  rcases hf with rfl | rfl
  · have h : Takes (fun _ => Legible) (Decoder.text.read steps depth) :=
      (Decoder.takes_text steps depth).imp fun s u h => ⟨.string s, h⟩
    exact Decoder.takes_map h fun b (s : Option String × Option Value) => (some b, s.2)
  · have h : Takes (fun _ => Legible) (Decoder.any.read steps depth) :=
      (Value.takes_read steps depth).imp fun v u h => h.imp fun w hw => hw.1
    exact Decoder.takes_map h fun c (s : Option String × Option Value) => (s.1, some c)

theorem Entry.not_mem_keys {key : String} (h : record.field? key = none) :
    key ∉ ["type", "content"] := by
  have hall := List.find?_eq_none.mp h
  simp only [record, Record.two, List.mem_cons, List.not_mem_nil, or_false, forall_eq_or_imp,
    forall_eq, beq_iff_eq] at hall ⊢
  exact fun hk => hk.elim (fun h => hall.1 h.symm) fun h => hall.2 h.symm

theorem laid_of_ofDocument (hb : Blanks b) (ht : IsValue t) (hb' : Blanks b') {n : Node}
    (h : Node.ofDocument (String.ofList (b ++ t ++ b')) = .ok n) :
    ∃ s, Record.Laid Entry.record (fun _ _ => Legible) s t := by
  obtain ⟨e, he, -⟩ := bind_eq_ok_iff.mp h
  rw [mapError_eq_ok_iff, ← toOption_eq_some_iff, Decoder.toOption_ofText_eq,
    String.toList_ofList] at he
  obtain ⟨⟨e, rest⟩, hread, -⟩ := Option.map_eq_some_iff.mp he
  obtain ⟨⟨x, t₁⟩, hx, -⟩ := bind_eq_ok_iff.mp (toOption_eq_some_iff.mp hread)
  obtain ⟨c, u, s, he, hc, hu, -⟩ := Record.laid_of_read (Entry.takes_fields _ 126)
    (fun _ _ _ ⟨_, hw⟩ => hw.isValue) hx
  rw [List.append_assoc] at he
  have he := ht.starts.cancel hu.isValue.starts hb hc he
  obtain ⟨rfl, -⟩ := ht.unique hu.isValue (fun _ => hb'.delimited_end)
    (fun h => absurd h hu.not_scalar) he
  exact ⟨s, hu⟩

theorem legible_of_laid {s : Option String × Option Value}
    (h : Record.Laid Entry.record (fun _ _ => Legible) s t)
    (hroot : ∀ ms, MembersOf ms t → Portable ms) : Legible t := by
  cases h with
  | @placed xs u hu hxs =>
    obtain ⟨vs, -, hvs⟩ := hu.reindex (R := fun _ _ => True) (Q := Written)
      fun x hx y ⟨he, _⟩ => by
        obtain ⟨-, -, v, hv⟩ := hxs.forall_mem x hx
        exact ⟨v, trivial, he ▸ hv⟩
    exact ⟨.array vs, .array hvs⟩
  | @named ms u hu hms =>
    have hp := hroot ms ⟨u, rfl, hu⟩
    have hlegible : ∀ m ∈ ms, Legible m.2 := by
      intro m hm
      rcases hms.forall_mem m hm with hf | ⟨f, fill, -, hx⟩
      · exact hp.legible m hm (Entry.not_mem_keys hf)
      · exact hx
    obtain ⟨vs, -, hvs⟩ := hu.reindex (R := fun _ _ => True) (Q := Keyed Written)
      fun m hm y hy => by
        obtain ⟨v, hv⟩ := hlegible m hm
        refine ⟨(m.1, v), trivial, keyed_iff_labelled.mpr (hy.relabel (fun _ h => h) ?_)⟩
        exact fun x hx => hx.1 ▸ hv
    exact ⟨.object vs, .object hvs⟩

theorem toOption_ofText_settled {v : Value} {text : String} (hw : WrittenText v text)
    (hh : v.height ≤ maxDepth) (hv : v.OnceAt ["type", "content"]) :
    (Entry.decoder.ofText text).toOption = (Entry.decoder.convert v.settled).toOption := by
  obtain @⟨b, t, b', hb, ht, hb'⟩ := hw
  have hl : t.length ≤ (b ++ t ++ b').length + 1 := by
    simp only [List.length_append]
    omega
  have hread : (Entry.record.read ((b ++ t ++ b').length + 1) maxDepth (b ++ t ++ b')).toOption =
      (Entry.record.convert v.settled).toOption.map fun a => (a, b') :=
    Record.toOption_read_two (by decide) (fun _ => Decoder.mirrors_text)
      (fun _ => Decoder.mirrors_any) ⟨ht, hl, hh⟩ hv hb hb'.delimited_end
  rw [Decoder.toOption_ofText_eq, String.toList_ofList]
  simp only [Entry.decoder, Decoder.readFront, Decoder.map, Record.decoder, toOption_bind, hread,
    toOption_pure]
  cases (Entry.record.convert v.settled).toOption <;> rfl

theorem ofDocument_iff_settled {v : Value} {text : String} (hw : WrittenText v text)
    (hh : v.height ≤ maxDepth) (hv : v.OnceAt ["type", "content"]) (n : Node) :
    Node.ofDocument text = .ok n ↔ Encodes v.settled n := by
  have hlower : Exact Entry.lower v.settled.height := fun e path n _ hd =>
    exact_lowerWithin _ e path n (Nat.lt_succ_self _) hd
  rw [← hlower.encodes (Value.distinct_settled v) (Nat.le_refl _) "$" n, Node.ofDocument,
    bind_eq_ok_iff]
  refine exists_congr fun e => and_congr_left fun _ => ?_
  rw [← toOption_eq_some_iff, toOption_mapError, toOption_ofText_settled hw hh hv,
    toOption_eq_some_iff]

theorem portable_iff_onceAt {v : Value} (hv : Written v t) :
    (∀ ms, MembersOf ms t → Portable ms) ↔ v.OnceAt ["type", "content"] := by
  constructor
  · rintro hroot ms rfl key hkey
    obtain ⟨ns, hkeys, -, hns⟩ := hv.exists_membersOf
    rw [Members.Once, ← hkeys]
    exact (hroot ns hns).once key hkey
  · rintro honce ms ⟨u, rfl, hu⟩
    obtain ⟨_, _, rfl, -, -⟩ := hv.of_object
    obtain ⟨ns, hkeys, hlegible, hns⟩ := hv.exists_membersOf
    cases hns.unique ⟨u, rfl, hu⟩
    exact ⟨fun key hkey => hkeys ▸ honce _ rfl key hkey, fun m hm _ => hlegible m hm⟩

def tupleText (d : List Char) : List Char :=
  '{' :: ("\"type\":\"tuple\",\"content\":[".toList ++ d ++ [']'] ++ ['}'])

theorem inTuple_ofList (d : List Char) :
    inTuple (String.ofList d) = String.ofList (tupleText d) := by
  have hopen : "\x7b\"type\":\"tuple\",\"content\":[".toList =
      '{' :: "\"type\":\"tuple\",\"content\":[".toList := by decide
  have hclose : "]\x7d".toList = [']', '}'] := by decide
  have hd : (String.ofList d).toList = d := String.toList_ofList
  rw [← String.toList_inj, String.toList_ofList]
  calc (inTuple (String.ofList d)).toList
    _ = ("\x7b\"type\":\"tuple\",\"content\":[" ++ String.ofList d).toList ++ "]\x7d".toList :=
      String.toList_append
    _ = "\x7b\"type\":\"tuple\",\"content\":[".toList ++ (String.ofList d).toList ++
          "]\x7d".toList := congrArg (· ++ _) String.toList_append
    _ = '{' :: "\"type\":\"tuple\",\"content\":[".toList ++ d ++ [']', '}'] := by
      rw [hopen, hclose, hd]
    _ = tupleText d := by
      simp only [tupleText, List.append_assoc, List.cons_append, List.nil_append]

theorem spells_type : Spells "type" "type".toList := spelling_plain (by decide)

theorem spells_content : Spells "content" "content".toList := spelling_plain (by decide)

theorem listed_tupleText {α : Type} {P : α → List Char → Prop} {a c : α} {d : List Char}
    (ha : P a ('"' :: "tuple".toList ++ ['"'])) (hc : P c ('[' :: (d ++ [']']))) :
    Listed (Labelled Spells P) true [("type", a), ("content", c)]
      ("\"type\":\"tuple\",\"content\":[".toList ++ d ++ [']']) := by
  have hn : Blanks [] := blanks_nil
  have h : Listed (Labelled Spells P) true [("type", a), ("content", c)] _ :=
    .cons hn hn (.mk spells_type hn hn ha) (.cons hn hn (.mk spells_content hn hn hc) (.nil hn))
  have hhead : "\"type\":\"tuple\",\"content\":[".toList =
      '"' :: "type".toList ++ ['"', ':'] ++ ('"' :: "tuple".toList ++ ['"']) ++
        (',' :: '"' :: "content".toList ++ ['"', ':', '[']) := by decide
  rw [hhead]
  simpa only [comma, if_true, Bool.false_eq_true, if_false, List.append_assoc, List.cons_append,
    List.nil_append, List.append_nil] using h

theorem listed_element {α : Type} {R : α → List Char → Prop} {a : α} (hb : Blanks b) (ha : R a t)
    (hb' : Blanks b') :
    Listed R true [a] (b ++ t ++ b') := by
  have h : Listed R true [a] _ := .cons hb blanks_nil ha (.nil hb')
  simpa only [comma, if_true, List.append_nil] using h

theorem spelling_tuple : Spelling "tuple".toList "tuple".toList := spelling_plain (by decide)

def tupleOf (v : Value) : Value :=
  .object [("type", .string "tuple"), ("content", .array [v])]

theorem onceAt_tupleOf (v : Value) : (tupleOf v).OnceAt ["type", "content"] := by
  rintro ms hms
  cases hms
  simp [Members.Once]

theorem writtenText_inTuple {v : Value} (hb : Blanks b) (hv : Written v t) (hb' : Blanks b') :
    WrittenText (tupleOf v) (inTuple (String.ofList (b ++ t ++ b'))) := by
  have hu := listed_tupleText (P := Written) (.string spelling_tuple)
    (.array (listed_element hb hv hb'))
  have hw : Written (tupleOf v) (tupleText (b ++ t ++ b')) :=
    .object (hu.imp fun _ _ _ _ h => keyed_iff_labelled.mpr h)
  have h := WrittenText.mk blanks_nil hw blanks_nil
  rwa [List.nil_append, List.append_nil, ← inTuple_ofList] at h

theorem encodes_tupleOf {v : Value} {n : Node} :
    Encodes (tupleOf v).settled (.tuple [n]) ↔ Encodes v.settled n := by
  have hs : (tupleOf v).settled = tupleOf v.settled := rfl
  rw [hs, tupleOf]
  constructor
  · rintro @⟨_, c, k, _, hf, hc⟩
    have hcontent := hasFields_object.mp hf ("content", c) (by simp)
    cases hc with
    | tuple hvs =>
      obtain ⟨w, ws, hw, hws, rfl⟩ := List.forall₂_cons_right_iff.mp hvs
      cases hws
      have hv : w = v.settled := by simpa using hcontent
      exact hv ▸ hw
  · intro h
    have hf : HasFields (tupleOf v.settled)
        [("type", .string Kind.tuple.tag), ("content", .array [v.settled])] :=
      hasFields_object.mpr fun f hf => hf
    exact .mk hf (.tuple (.cons h .nil))

theorem legible_of_inTuple (hb : Blanks b) (ht : IsValue t) (hb' : Blanks b') {n : Node}
    (h : Node.ofDocument (inTuple (String.ofList (b ++ t ++ b'))) = .ok n) : Legible t := by
  have hitem : Listed (Piece IsValue) true [t] (b ++ t ++ b') :=
    listed_element hb ⟨rfl, ht⟩ hb'
  have hms : MembersOf _ (tupleText (b ++ t ++ b')) :=
    ⟨_, rfl, listed_tupleText ⟨rfl, (Written.string spelling_tuple).isValue⟩
      ⟨rfl, isValue_of_items hitem fun _ _ _ h => h.2⟩⟩
  have h : Node.ofDocument (String.ofList ([] ++ tupleText (b ++ t ++ b') ++ [])) = .ok n := by
    rwa [List.nil_append, List.append_nil, ← inTuple_ofList]
  obtain ⟨s, hs⟩ := laid_of_ofDocument blanks_nil hms.isValue blanks_nil h
  generalize he : tupleText (b ++ t ++ b') = w at hs hms
  cases hs with
  | placed => cases he
  | @named ms u hu' hfilled =>
    have hmem := hfilled.forall_mem ("content", '[' :: (b ++ t ++ b' ++ [']']))
      (hms.unique ⟨u, rfl, hu'⟩ ▸ by simp)
    rcases hmem with hf | ⟨f, fill, -, v, hv⟩
    · cases hf
    · obtain ⟨vs, u, rfl, he, hvs⟩ := hv.of_list
      obtain ⟨hR, -⟩ := hvs.unique (R := Written) (fun _ _ h => h.starts) (fun _ _ h => h.2.starts)
        (fun _ _ _ _ _ _ hx hy hr hr' he => hx.unique_piece hy hr hr' he) hitem (.inl rfl) he.symm
      obtain ⟨v, vs, hv, -, -⟩ := List.forall₂_cons_right_iff.mp hR
      exact ⟨v, hv⟩

theorem ofDocument_inTuple (hb : Blanks b) (ht : Formed 125 t) (hb' : Blanks b')
    (hroot : ∀ ms, MembersOf ms t → Portable ms) (n : Node) :
    Node.ofDocument (String.ofList (b ++ t ++ b')) = .ok n ↔
      Node.ofDocument (inTuple (String.ofList (b ++ t ++ b'))) = .ok (.tuple [n]) := by
  have hiff {v : Value} (hv : Written v t) :
      Node.ofDocument (String.ofList (b ++ t ++ b')) = .ok n ↔
        Node.ofDocument (inTuple (String.ofList (b ++ t ++ b'))) = .ok (.tuple [n]) := by
    have hh := hv.height_le ht
    have htuple : (tupleOf v).height = v.height + 2 := by
      simp [tupleOf, Value.height, heightItems, heightMembers]
    rw [ofDocument_iff_settled (.mk hb hv hb') (Nat.le_trans hh (by decide))
        ((portable_iff_onceAt hv).mp hroot),
      ofDocument_iff_settled (writtenText_inTuple hb hv hb')
        (htuple ▸ Nat.add_le_add_right hh 2) (onceAt_tupleOf v), encodes_tupleOf]
  -- Either way of reading it, what is read shows the text to be one that a value is written as.
  constructor
  · intro h
    obtain ⟨s, hs⟩ := laid_of_ofDocument hb ⟨_, ht⟩ hb' h
    obtain ⟨v, hv⟩ := legible_of_laid hs hroot
    exact (hiff hv).mp h
  · intro h
    obtain ⟨v, hv⟩ := legible_of_inTuple hb ⟨_, ht⟩ hb' h
    exact (hiff hv).mpr h

theorem ofDocument_inTuple_taggedLateText :
    ∃ b t b', taggedLateText = String.ofList (b ++ t ++ b') ∧ Blanks b ∧ Formed 125 t ∧
      Blanks b' ∧ (∀ ms, MembersOf ms t → Portable ms) ∧
      Node.ofDocument (inTuple taggedLateText) = .ok (.tuple [.tuple [.enum "E"]]) := by
  have hroot : Node.ofDocument taggedLateText = .ok (.tuple [.enum "E"]) := by decide +kernel
  have hw := written_taggedLateText
  generalize taggedLateText = text at hroot hw ⊢
  obtain ⟨hb, ht, hb'⟩ := hw
  have hformed : Formed 125 _ := ht.formed (by decide)
  have hportable := (portable_iff_onceAt ht).mpr fun ms hms => by
    cases hms
    simp [Members.Once]
  exact ⟨_, _, _, rfl, hb, hformed, hb', hportable,
    (ofDocument_inTuple hb hformed hb' hportable _).mp hroot⟩

def repeatedTag : List Char :=
  "\x7b\"type\":\"enum\",\"type\":\"enum\",\"content\":\x7b\"name\":\"E\"\x7d\x7d".toList

def hugeMember : List Char :=
  "\x7b\"type\":\"enum\",\"content\":\x7b\"name\":\"E\"\x7d,\"x\":1e999\x7d".toList

theorem formed_enum : Formed 124 ('"' :: "enum".toList ++ ['"']) :=
  .of_scalar (.string (spelling_plain (by decide)).loose)

theorem formed_enumContent : Formed 124 "\x7b\"name\":\"E\"\x7d".toList := by
  have hname : Spelling "name".toList "name".toList := spelling_plain (by decide)
  have he : Written (.string "E") _ := .string (spelling_plain (by decide))
  have hn : Blanks [] := blanks_nil
  have hw : Written (.object [("name", .string "E")]) _ :=
    .object (.cons hn hn (.mk hname hn hn he) (.nil hn))
  exact hw.formed (by decide)

theorem formed_hugeNumber : Formed 124 "1e999".toList :=
  .of_scalar (.number ⟨false, ['1'], none,
    some ⟨'e', [], ['9', '9', '9'], .inl rfl, .inl rfl, by simp [Digits]⟩, .inr (by simp [Digits])⟩)

theorem formed_of_members {ms : List (String × List Char)} {u : List Char}
    (h : Listed (Labelled Spells (Piece (Formed 124))) true ms u) :
    Formed 125 ('{' :: (u ++ ['}'])) :=
  .of_members h (fun _ _ hs => hs.loose) fun _ _ _ hx => hx.2

theorem formed_repeatedTag : Formed 125 repeatedTag := by
  have hn : Blanks [] := blanks_nil
  exact formed_of_members (.cons hn hn (.mk spells_type hn hn ⟨rfl, formed_enum⟩)
    (.cons hn hn (.mk spells_type hn hn ⟨rfl, formed_enum⟩)
      (.cons hn hn (.mk spells_content hn hn ⟨rfl, formed_enumContent⟩) (.nil hn))))

theorem formed_hugeMember : Formed 125 hugeMember := by
  have hn : Blanks [] := blanks_nil
  have hx : Spells "x" "x".toList := spelling_plain (by decide)
  exact formed_of_members (.cons hn hn (.mk spells_type hn hn ⟨rfl, formed_enum⟩)
    (.cons hn hn (.mk spells_content hn hn ⟨rfl, formed_enumContent⟩)
      (.cons hn hn (.mk hx hn hn ⟨rfl, formed_hugeNumber⟩) (.nil hn))))

theorem ofDocument_inTuple_apart :
    (Formed 125 repeatedTag ∧ Node.ofDocument (String.ofList repeatedTag) ≠ .ok (.enum "E") ∧
      Node.ofDocument (inTuple (String.ofList repeatedTag)) = .ok (.tuple [.enum "E"])) ∧
    (Formed 125 hugeMember ∧ Node.ofDocument (String.ofList hugeMember) = .ok (.enum "E") ∧
      Node.ofDocument (inTuple (String.ofList hugeMember)) ≠ .ok (.tuple [.enum "E"])) := by
  refine ⟨⟨formed_repeatedTag, ?_, ?_⟩, formed_hugeMember, ?_, ?_⟩ <;> decide +kernel

end ModelBindings.Schema
