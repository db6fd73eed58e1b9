import ModelBindings.Proofs.Json.Sole
import ModelBindings.Proofs.Manifest

namespace ModelBindings.Manifest

open Json (Alone ArrayOf Blanks Delimited Digits Holding IsValue Spells Written blanks_nil
  spelling_plain)

def EntryText (name : String) : List Char → Prop := Holding "name" (Written (.string name))

def NamesText (names : List String) : List Char → Prop :=
  Holding "models" (ArrayOf EntryText names)

theorem reads_entry {name : String} {t : List Char} (h : EntryText name t) (depth : Nat) :
    entry.Reads Delimited (depth + 1) name t :=
  Json.Record.reads_one (h.imp fun _ hx => Json.Decoder.reads_text hx depth) Delimited

theorem reads_names {names : List String} {t : List Char} (h : NamesText names t) (depth : Nat)
    (R : List Char → Prop) : decoder.Reads R (depth + 3) ⟨names⟩ t := by
  refine Json.Decoder.reads_map (Json.Record.reads_one (h.imp ?_) R) Manifest.mk
  rintro _ ⟨u, rfl, hu⟩
  exact Json.Decoder.reads_list (hu.imp fun _ _ _ _ hx => reads_entry hx depth) Delimited

theorem decoder_ofText {names : List String} {text : String} (h : Alone (NamesText names) text) :
    decoder.ofText text = .ok ⟨names⟩ :=
  Json.Decoder.ofText_of_alone h fun _ ht => reads_names ht 124 _

theorem ofText_of_namesText {names : List String} {text : String}
    (h : Alone (NamesText names) text) :
    (validate ⟨names⟩ = .ok () → ofText text = .ok ⟨names⟩) ∧
    (∀ e, validate ⟨names⟩ = .error e → ofText text = .error e) ∧
    ∀ r, ofText text ≠ .error (.unreadable r) := by
  have hread : ofText text = validate ⟨names⟩ >>= fun _ => .ok ⟨names⟩ := by
    rw [ofText, decoder_ofText h]
    rfl
  cases hv : validate ⟨names⟩ with
  | ok u =>
    rw [hread, hv]
    refine ⟨fun _ => rfl, fun e he => ?_, fun r hr => ?_⟩
    · cases he
    · cases hr
  | error e =>
    have herror : ofText text = .error e := by
      rw [hread, hv]
      rfl
    refine ⟨fun h => ?_, fun e' he => ?_, fun r hr => ?_⟩
    · cases h
    · cases he
      exact herror
    · obtain ⟨i, name, -, rfl⟩ := exists_firstFault hv
      exact faultAt_ne_unreadable i name r (Except.error.inj (herror.symm.trans hr))

def lookAlikes : List Char :=
  "\x7b\"world\":\x7b\"models\":[]\x7d,\"models\":".toList ++
    "[\x7b\"x\":\x7b\"name\":\"Z\"\x7d,\"name\":\"A\"\x7d],\"world\":-1e999\x7d".toList

theorem entryText_lookAlike :
    EntryText "A" "\x7b\"x\":\x7b\"name\":\"Z\"\x7d,\"name\":\"A\"\x7d".toList := by
  have hn : Blanks [] := blanks_nil
  have hname : Spells "name" "name".toList := spelling_plain (by decide)
  have hx : Spells "x" "x".toList := spelling_plain (by decide)
  have hz : Written (.string "Z") "\"Z\"".toList := .string (spelling_plain (by decide))
  have ha : Written (.string "A") "\"A\"".toList := .string (spelling_plain (by decide))
  have hobject : Written (.object [("name", .string "Z")]) "\x7b\"name\":\"Z\"\x7d".toList :=
    .object (.cons hn hn (.mk hname hn hn hz) (.nil hn))
  refine ⟨[("x", _), ("name", _)], _, ⟨_, rfl, .cons hn hn (.mk hx hn hn ⟨rfl, hobject.isValue⟩)
    (.cons hn hn (.mk hname hn hn ⟨rfl, ha.isValue⟩) (.nil hn))⟩, ⟨[("x", _)], [], rfl, ?_⟩, ha⟩
  simp

theorem namesText_lookAlikes : NamesText ["A"] lookAlikes := by
  have hn : Blanks [] := blanks_nil
  have hmodels : Spells "models" "models".toList := spelling_plain (by decide)
  have hworld : Spells "world" "world".toList := spelling_plain (by decide)
  have hempty : Written (.object [("models", .array [])]) "\x7b\"models\":[]\x7d".toList :=
    .object (.cons hn hn (.mk hmodels hn hn (.array (.nil hn))) (.nil hn))
  have hlist : ArrayOf EntryText ["A"] _ := ⟨_, rfl, .cons hn hn entryText_lookAlike (.nil hn)⟩
  have hhuge : IsValue "-1e999".toList := ⟨0, .number ⟨true, ['1'], none,
    some ⟨'e', [], ['9', '9', '9'], .inl rfl, .inl rfl, by simp [Digits]⟩, .inr (by simp [Digits])⟩⟩
  refine ⟨[("world", _), ("models", _), ("world", _)], _,
    ⟨_, rfl, .cons hn hn (.mk hworld hn hn ⟨rfl, hempty.isValue⟩)
      (.cons hn hn (.mk hmodels hn hn ⟨rfl, ArrayOf.isValue hlist fun _ _ hx => hx.isValue⟩)
        (.cons hn hn (.mk hworld hn hn ⟨rfl, hhuge⟩) (.nil hn)))⟩,
    ⟨[("world", _)], [("world", _)], rfl, ?_⟩, hlist⟩
  simp

theorem ofText_lookAlikes :
    Alone (NamesText ["A"]) (String.ofList lookAlikes) ∧ validate ⟨["A"]⟩ = .ok () ∧
      ofText (String.ofList lookAlikes) = .ok ⟨["A"]⟩ := by
  have hnames : Alone (NamesText ["A"]) (String.ofList lookAlikes) :=
    Json.alone_ofList namesText_lookAlikes
  have hvalid : validate ⟨["A"]⟩ = .ok () := by decide
  exact ⟨hnames, hvalid, (ofText_of_namesText hnames).1 hvalid⟩

end ModelBindings.Manifest
