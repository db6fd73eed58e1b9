import ModelBindings.Proofs.Json.Faults
import ModelBindings.Proofs.Schema.Document

/-!
The form that an entry is asked for by itself: that of its content, which takes in the names and
tags of its children but not what the children hold.
-/

namespace ModelBindings.Schema

open Json

/-- The record of a tag and a content, which is null where it is not given. -/
inductive Stands : Value → Entry → Prop where
  | whole {v c : Value} {tag : String} :
      HasFields v [("type", .string tag), ("content", c)] → Stands v ⟨tag, c⟩
  | bare {v : Value} {tag : String} :
      HasFields v [("type", .string tag)] → v.Lacks "content" → Stands v ⟨tag, .null⟩

def StandsInMember (v : Value) (e : Entry) : Prop :=
  ∃ name w, HasFields v [("name", .string name), ("member_type", w)] ∧ Stands w e

inductive Holds : Kind → Value → List Entry → Prop where
  | primitive {c : Value} {scalar : String} : HasFields c [("scalar_type", .string scalar)] →
      Holds .primitive c []
  | enum {c : Value} {name : String} : HasFields c [("name", .string name)] → Holds .enum c []
  | struct {c : Value} {name : String} {vs : List Value} {es : List Entry} :
      HasFields c [("name", .string name), ("children", .array vs)] →
      List.Forall₂ StandsInMember vs es → Holds .struct c es
  | tuple {vs : List Value} {es : List Entry} : List.Forall₂ Stands vs es →
      Holds .tuple (.array vs) es

def entryPlace : Path → Prop := InFields [("type", Here), ("content", Nowhere)]

def memberPlace : Path → Prop := InFields [("name", Here), ("member_type", entryPlace)]

def Kind.Place : Kind → Path → Prop
  | .primitive => InFields [("scalar_type", Here)]
  | .struct => InFields [("name", Here), ("children", InItems memberPlace)]
  | .enum => InFields [("name", Here)]
  | .tuple => InItems entryPlace

section Shape

variable {v c : Value} {k : Kind} {e : Entry} {es : List Entry}

theorem stands_iff (hv : v.distinct = true) : Entry.decoder.convert v = .ok e ↔ Stands v e := by
  rw [Entry.decoder_convert_eq_ok_iff]
  refine (Record.two_convert_default_eq_ok_iff (by decide) hv).trans ?_
  constructor
  · rintro (⟨x, y, hf, hx, hy⟩ | ⟨x, hf, hx, hlacks, hc⟩)
    · cases Decoder.text_convert_eq_ok_iff.mp hx
      cases hy
      exact .whole hf
    · cases Decoder.text_convert_eq_ok_iff.mp hx
      obtain ⟨tag, c⟩ := e
      cases hc
      exact .bare hf hlacks
  · rintro (hf | ⟨hf, hlacks⟩)
    · exact .inl ⟨_, _, hf, rfl, rfl⟩
    · exact .inr ⟨_, hf, rfl, hlacks, rfl⟩

theorem standsInMember_iff (hv : v.distinct = true) :
    (∃ m, Entry.member.convert v = .ok m ∧ m.2 = e) ↔ StandsInMember v e := by
  have hw {name : String} {w : Value}
      (hf : HasFields v [("name", .string name), ("member_type", w)]) :
      Entry.decoder.convert w = .ok e ↔ Stands w e :=
    stands_iff (hf.second hv).2
  constructor
  · rintro ⟨⟨name, e⟩, hm, rfl⟩
    obtain ⟨w, hf, he⟩ := (member_convert_eq_ok_iff hv).mp hm
    exact ⟨name, w, hf, (hw hf).mp he⟩
  · rintro ⟨name, w, hf, he⟩
    exact ⟨(name, e), (member_convert_eq_ok_iff hv).mpr ⟨w, hf, (hw hf).mpr he⟩, rfl⟩

def Kind.entries (c : Value) : Kind → Converting (List Entry)
  | .primitive => do
      let _ ← Entry.primitiveContent.convert c
      return []
  | .struct => do
      let (_, ms) ← Entry.structContent.convert c
      return ms.map Prod.snd
  | .enum => do
      let _ ← Entry.enumContent.convert c
      return []
  | .tuple => Entry.tupleContent.convert c

theorem forall₂_map_iff {α β γ : Type} {R : α → β → Prop} {S : α → γ → Prop} {f : β → γ}
    {as : List α} {cs : List γ} (h : ∀ a ∈ as, ∀ c, (∃ b, R a b ∧ f b = c) ↔ S a c) :
    (∃ bs, List.Forall₂ R as bs ∧ bs.map f = cs) ↔ List.Forall₂ S as cs := by
  -- mapping is a numbered run that never fails
  have hmap (i : Nat) (bs : List β) :
      numbered (fun _ b => (.ok (f b) : Except Error γ)) i bs = .ok (bs.map f) := by
    induction bs generalizing i with
    | nil => rfl
    | cons b bs ih => rw [numbered, ok_bind, ih]; rfl
  refine Iff.trans ?_ (numbered_forall₂ (R := R)
    (f := fun _ b => (.ok (f b) : Except Error γ)) (i := 0) fun a ha _ c => ?_)
  · simp only [hmap, Except.ok.injEq]
  · simpa using h a ha c

theorem holds_iff_entries (hc : c.distinct = true) : Holds k c es ↔ k.entries c = .ok es := by
  cases k with
  | primitive =>
    simp only [Kind.entries, bind_eq_ok_iff, pure_eq_ok_iff, primitiveContent_convert_eq_ok_iff hc]
    constructor
    · intro h
      cases h with
      | primitive hf => exact ⟨_, hf, rfl⟩
    · rintro ⟨scalar, hf, rfl⟩
      exact .primitive hf
  | enum =>
    simp only [Kind.entries, bind_eq_ok_iff, pure_eq_ok_iff, enumContent_convert_eq_ok_iff hc]
    constructor
    · intro h
      cases h with
      | enum hf => exact ⟨_, hf, rfl⟩
    · rintro ⟨name, hf, rfl⟩
      exact .enum hf
  | struct =>
    have hvs {name : String} {vs : List Value}
        (hf : HasFields c [("name", .string name), ("children", .array vs)]) :
        (∃ ms, List.Forall₂ (fun v m => Entry.member.convert v = .ok m) vs ms ∧
          ms.map Prod.snd = es) ↔ List.Forall₂ StandsInMember vs es := by
      have hd := distinctItems_iff.mp (hf.second hc).2
      exact forall₂_map_iff fun v hv e => standsInMember_iff (hd v hv)
    simp only [Kind.entries, bind_eq_ok_iff, pure_eq_ok_iff]
    constructor
    · intro h
      cases h with
      | struct hf hall =>
        obtain ⟨ms, hms, hes⟩ := (hvs hf).mpr hall
        exact ⟨(_, ms), (structContent_convert_eq_ok_iff hc).mpr ⟨_, hf, hms⟩, hes⟩
    · rintro ⟨⟨name, ms⟩, hms, hes⟩
      obtain ⟨vs, hf, hall⟩ := (structContent_convert_eq_ok_iff hc).mp hms
      exact .struct hf ((hvs hf).mp ⟨ms, hall, hes⟩)
  | tuple =>
    have hvs {vs : List Value} (hc : (Value.array vs).distinct = true) :
        List.Forall₂ (fun v e => Entry.decoder.convert v = .ok e) vs es ↔
          List.Forall₂ Stands vs es := by
      have hd := distinctItems_iff.mp hc
      have hmap : (∃ bs, List.Forall₂ (fun v e => Entry.decoder.convert v = .ok e) vs bs ∧
          bs.map id = es) ↔ List.Forall₂ Stands vs es :=
        forall₂_map_iff fun v hv e => by simpa using stands_iff (hd v hv)
      simpa using hmap
    constructor
    · intro h
      cases h with
      | tuple hall => exact Decoder.list_convert_eq_ok_iff.mpr ⟨_, rfl, (hvs hc).mpr hall⟩
    · intro h
      obtain ⟨vs, rfl, hall⟩ := Decoder.list_convert_eq_ok_iff.mp h
      exact .tuple ((hvs hc).mp hall)

theorem Stands.height_lt_and_distinct (h : Stands v e) (hv : v.distinct = true) :
    e.content.height < v.height ∧ e.content.distinct = true :=
  Entry.height_lt_and_distinct hv ((stands_iff hv).mpr h)

theorem height_lt_of_children {vs : List Value} {w x y : Value}
    (hc : HasFields c [("name", x), ("children", .array vs)]) (hv : v ∈ vs)
    (hw : HasFields v [("name", y), ("member_type", w)]) : w.height < c.height :=
  calc w.height
    _ < v.height := hw.second_height_lt
    _ ≤ heightItems vs := height_le_of_mem_items hv
    _ < (Value.array vs).height := Nat.lt_succ_self _
    _ < c.height := hc.second_height_lt

theorem Holds.exists_stands (h : Holds k c es) (hc : c.distinct = true) (he : e ∈ es) :
    ∃ v, Stands v e ∧ v.height < c.height ∧ v.distinct = true := by
  cases h with
  | primitive | enum => cases he
  | @struct _ _ vs _ hf hall =>
    obtain ⟨v, hv, name, w, hw, hs⟩ := exists_of_mem_left hall.flip he
    have hvd := distinctItems_iff.mp (hf.second hc).2 v hv
    exact ⟨w, hs, height_lt_of_children hf hv hw, (hw.second hvd).2⟩
  | @tuple vs _ hall =>
    obtain ⟨v, hv, hs⟩ := exists_of_mem_left hall.flip he
    exact ⟨v, hs, Nat.lt_succ_of_le (height_le_of_mem_items hv), distinctItems_iff.mp hc v hv⟩

theorem Holds.height_lt_and_distinct (h : Holds k c es) (hc : c.distinct = true) (he : e ∈ es) :
    e.content.height < c.height ∧ e.content.distinct = true := by
  obtain ⟨v, hs, hlt, hv⟩ := h.exists_stands hc he
  obtain ⟨hcontent, hd⟩ := hs.height_lt_and_distinct hv
  exact ⟨Nat.lt_trans hcontent hlt, hd⟩

theorem faultsAt_entry : Entry.decoder.FaultsAt entryPlace :=
  Decoder.faultsAt_map (Record.faultsAt_two Decoder.faultsAt_text Decoder.faultsAt_any) _

theorem place_of_entries {fault : Located Cause} (h : k.entries c = .error fault) :
    k.Place fault.path := by
  have hname : Entry.enumContent.FaultsAt (Kind.Place .enum) :=
    Record.faultsAt_one Decoder.faultsAt_text
  have hscalar : Entry.primitiveContent.FaultsAt (Kind.Place .primitive) :=
    Record.faultsAt_one Decoder.faultsAt_text
  have hmember : Entry.member.FaultsAt memberPlace :=
    Record.faultsAt_two Decoder.faultsAt_text faultsAt_entry
  have hstruct : Entry.structContent.FaultsAt (Kind.Place .struct) :=
    Record.faultsAt_two Decoder.faultsAt_text (Decoder.faultsAt_list hmember)
  cases k with
  | primitive => exact hscalar (error_of_bind_pure h)
  | struct => exact hstruct (error_of_bind_pure h)
  | enum => exact hname (error_of_bind_pure h)
  | tuple => exact Decoder.faultsAt_list faultsAt_entry h

theorem Kind.Place.anchored {q : Path} (h : k.Place q) : q.Anchored := by
  have hplain {key : String} (h : key ∈ ["scalar_type", "name", "children"]) : Plain key := by
    simp only [List.mem_cons, List.not_mem_nil, or_false] at h
    rcases h with rfl | rfl | rfl
    · exact plain_of_head (c := 's') (by decide) (by decide) (by decide)
    · exact plain_of_head (c := 'n') (by decide) (by decide) (by decide)
    · exact plain_of_head (c := 'c') (by decide) (by decide) (by decide)
  cases k with
  | primitive | struct | enum => exact InFields.anchored h (by simp [hplain])
  | tuple => exact InItems.anchored h

end Shape

end ModelBindings.Schema
