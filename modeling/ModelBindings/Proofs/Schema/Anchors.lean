import ModelBindings.Proofs.Json.Report
import ModelBindings.Proofs.Schema.FirstFault

/-!
Lowering has no regard for the place of an entry. Wherever an entry stands, lowering it comes to the
same, but that the path of an error starts with that place.
-/

namespace ModelBindings.Schema

open Json

def Error.under (anchor : String) : Error → Error
  | .malformed r => .malformed ⟨anchor ++ r.path, r.message⟩
  | .unknownTag tag path => .unknownTag tag (anchor ++ path)

theorem Error.under_append (anchor s : String) (e : Error) :
    e.under (anchor ++ s) = (e.under s).under anchor := by
  cases e with
  | malformed r => exact congrArg (Error.malformed ⟨·, r.message⟩) (String.append_assoc ..)
  | unknownTag tag path => exact congrArg (Error.unknownTag tag) (String.append_assoc ..)

def Placeless {α : Type} (f : String → Except Error α) : Prop :=
  ∃ outcome : Except Error α, ∀ anchor, f anchor = outcome.mapError (Error.under anchor)

namespace Placeless

variable {α β : Type} {f : String → Except Error α}

theorem ok (a : α) : Placeless fun _ => .ok a := ⟨.ok a, fun _ => rfl⟩

theorem bind {g : String → α → Except Error β} (hf : Placeless f)
    (hg : ∀ a, Placeless fun anchor => g anchor a) :
    Placeless fun anchor => f anchor >>= g anchor := by
  obtain ⟨outcome, hf⟩ := hf
  cases outcome with
  | error e => exact ⟨.error e, fun anchor => congrArg (· >>= g anchor) (hf anchor)⟩
  | ok a =>
    obtain ⟨outcome, hg⟩ := hg a
    exact ⟨outcome, fun anchor => (congrArg (· >>= g anchor) (hf anchor)).trans (hg anchor)⟩

theorem behind (hf : Placeless f) (s : String) : Placeless fun anchor => f (anchor ++ s) := by
  obtain ⟨outcome, hf⟩ := hf
  refine ⟨outcome.mapError (Error.under s), fun anchor => (hf (anchor ++ s)).trans ?_⟩
  cases outcome with
  | error e => exact congrArg Except.error (e.under_append anchor s)
  | ok a => rfl

theorem numbered {g : String → Nat → β → Except Error α}
    (hg : ∀ i b, Placeless fun anchor => g anchor i b) (i : Nat) (bs : List β) :
    Placeless fun anchor => Schema.numbered (g anchor) i bs := by
  induction bs generalizing i with
  | nil => exact ok []
  | cons b bs ih => exact (hg i b).bind fun c => (ih (i + 1)).bind fun cs => ok (c :: cs)

end Placeless

section Lowering

variable {lower : Entry → String → Except Error Node}

theorem placeless_contentAs {α : Type} (d : Decoder α) (c : Value) :
    Placeless (Entry.contentAs d c) := by
  cases hd : d.convert c with
  | ok a => exact ⟨.ok a, fun anchor => contentAs_eq_ok_iff.mpr hd⟩
  | error e =>
    refine ⟨.error (.malformed ⟨".content" ++ Report.suffix e.path.text, e.what.message⟩), ?_⟩
    intro anchor
    rw [contentAs_error hd, Report.anchorAt_eq, String.append_assoc]
    rfl

theorem placeless_lowerMembers (h : ∀ e, Placeless (lower e)) (ms : List (String × Entry)) :
    Placeless fun anchor => Entry.lowerMembers lower anchor 0 ms := by
  simp only [lowerMembers_eq_numbered, memberPath_eq]
  exact .numbered (fun i m => ((h m.2).behind _).bind fun n => .ok (m.1, n)) 0 ms

theorem placeless_lowerElements (h : ∀ e, Placeless (lower e)) (es : List Entry) :
    Placeless fun anchor => Entry.lowerElements lower anchor 0 es := by
  simp only [lowerElements_eq_numbered, elementPath_eq]
  exact .numbered (fun i e => (h e).behind _) 0 es

theorem placeless_unknownTag (tag : String) :
    Placeless fun anchor => (.error (.unknownTag tag anchor) : Except Error Node) := by
  refine ⟨.error (.unknownTag tag ""), fun anchor => ?_⟩
  exact congrArg (fun path => Except.error (Error.unknownTag tag path)) String.append_empty.symm

theorem placeless_lowerWithin (levels : Nat) (e : Entry) :
    Placeless (Entry.lowerWithin levels e) := by
  induction levels generalizing e with
  | zero => exact placeless_unknownTag e.tag
  | succ levels ih =>
    change Placeless fun anchor => Entry.lowerWithin (levels + 1) e anchor
    simp only [Entry.lowerWithin]
    cases Kind.ofTag? e.tag with
    | none => exact placeless_unknownTag e.tag
    | some k =>
      cases k with
      | primitive => exact (placeless_contentAs _ _).bind fun scalar => .ok _
      | struct =>
        refine (placeless_contentAs _ _).bind fun x => ?_
        exact (placeless_lowerMembers ih x.2).bind fun fields => .ok _
      | enum => exact (placeless_contentAs _ _).bind fun name => .ok _
      | tuple =>
        refine (placeless_contentAs _ _).bind fun es => ?_
        exact (placeless_lowerElements ih es).bind fun elements => .ok _

end Lowering

theorem lower_regardless_of_place (e : Entry) :
    (∃ n, ∀ anchor, e.lower anchor = .ok n) ∨
    (∃ tag suffix, ∀ anchor, e.lower anchor = .error (.unknownTag tag (anchor ++ suffix))) ∨
    ∃ message suffix, ∀ anchor,
      e.lower anchor = .error (.malformed ⟨anchor ++ suffix, message⟩) := by
  obtain ⟨outcome, h⟩ : Placeless e.lower := placeless_lowerWithin _ e
  cases outcome with
  | ok n => exact .inl ⟨n, h⟩
  | error error =>
    cases error with
    | unknownTag tag suffix => exact .inr (.inl ⟨tag, suffix, h⟩)
    | malformed r => exact .inr (.inr ⟨r.message, r.path, h⟩)

end ModelBindings.Schema
