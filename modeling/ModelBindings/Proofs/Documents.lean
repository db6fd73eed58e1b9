import ModelBindings.Manifest
import ModelBindings.Proofs.Json.Front
import ModelBindings.Recs.Version
import ModelBindings.Schema.Document

/-!
How much of a text counts. Schema documents and manifests are read from the front of a text, and
what follows the first value is not looked at; a package file has to be a document as a whole.
-/

namespace ModelBindings

open Json (IsDocument ReadsFront)

theorem Schema.Entry.local_decoder (R : List Char → Prop) : Entry.decoder.Local R :=
  Json.Decoder.local_map (Json.Record.local_two Json.Decoder.local_text Json.Decoder.local_any R) _

theorem Manifest.local_decoder (R : List Char → Prop) : Manifest.decoder.Local R :=
  Json.Decoder.local_map (Json.Record.local_one (Json.Decoder.local_list
    (Json.Record.local_one Json.Decoder.local_text _) _) R) _

theorem Recs.local_package (R : List Char → Prop) : package.Local R :=
  Json.Record.local_one Json.Decoder.local_members R

theorem isDocument_of_ofWholeText? {α : Type} {d : Json.Decoder α} (hd : d.Local fun _ => True)
    {text : String} {a : α} (h : d.ofWholeText? text = some a) : IsDocument text.toList := by
  rw [Json.Decoder.ofWholeText?] at h
  split at h
  · rename_i a' rest hread
    obtain ⟨front, -, -, hdoc, -⟩ := Json.Decoder.front_of_readFront hd hread
    obtain ⟨hempty, -⟩ := Option.ite_none_right_eq_some.mp h
    obtain ⟨b, hb, hrest⟩ := Json.exists_skipBlank rest
    rw [List.isEmpty_iff.mp hempty, List.append_nil] at hrest
    exact hdoc.mpr (hrest ▸ hb)
  · cases h

theorem readsFront_of_documents (text : String) :
    ReadsFront Schema.Node.ofDocument text ∧ ReadsFront Manifest.ofText text ∧
      ∀ ms, Recs.package.ofWholeText? text = some ms → IsDocument text.toList := by
  have hentry := Json.readsFront_ofText (Schema.Entry.local_decoder _) text
  have hmanifest := Json.readsFront_ofText (Manifest.local_decoder _) text
  refine ⟨(hentry.mapError _).bind _, (hmanifest.mapError _).bind _, fun ms h => ?_⟩
  exact isDocument_of_ofWholeText? (Recs.local_package _) h

def twoManifests : String :=
  "\x7b\"models\":[\x7b\"name\":\"A\"\x7d]\x7d\x7b\"models\":[\x7b\"name\":\"B\"\x7d]\x7d"

theorem ofText_twoManifests :
    Manifest.ofText twoManifests = .ok ⟨["A"]⟩ ∧ ¬ IsDocument twoManifests.toList := by
  refine ⟨by decide +kernel, fun h => ?_⟩
  obtain ⟨b, hb, hskip⟩ := h.exists_skip
  have hrest : Json.Skip.value twoManifests.toList.length twoManifests.toList =
      .ok "\x7b\"models\":[\x7b\"name\":\"B\"\x7d]\x7d".toList := by
    decide +kernel
  cases hskip.symm.trans hrest
  exact absurd (hb '{' (by decide)) (by decide)

end ModelBindings
