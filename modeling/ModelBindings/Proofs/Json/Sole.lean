import ModelBindings.Proofs.Json.Front

namespace ModelBindings.Json

def Sole (key : String) (x : List Char) (ms : List (String × List Char)) : Prop :=
  ∃ before after, ms = before ++ (key, x) :: after ∧ ∀ m ∈ before ++ after, m.1 ≠ key

def Holding (key : String) (P : List Char → Prop) (t : List Char) : Prop :=
  ∃ ms x, MembersOf ms t ∧ Sole key x ms ∧ P x

def ArrayOf {α : Type} (P : α → List Char → Prop) (as : List α) (t : List Char) : Prop :=
  ∃ u, t = '[' :: (u ++ [']']) ∧ Listed P true as u

theorem Holding.isValue {key : String} {P : List Char → Prop} {t : List Char}
    (h : Holding key P t) : IsValue t := by
  obtain ⟨ms, x, hms, -⟩ := h
  exact hms.isValue

theorem ArrayOf.isValue {α : Type} {P : α → List Char → Prop} {as : List α} {t : List Char}
    (h : ArrayOf P as t) (hP : ∀ a x, P a x → IsValue x) : IsValue t := by
  obtain ⟨u, rfl, hu⟩ := h
  exact isValue_of_items hu fun a _ x hx => hP a x hx

inductive Alone (P : List Char → Prop) : String → Prop where
  | mk {b t b' : List Char} : Blanks b → P t → Blanks b' → Alone P (String.ofList (b ++ t ++ b'))

theorem alone_ofList {P : List Char → Prop} {t : List Char} (h : P t) :
    Alone P (String.ofList t) := by
  have halone : Alone P (String.ofList ([] ++ t ++ [])) := .mk blanks_nil h blanks_nil
  rwa [List.nil_append, List.append_nil] at halone

namespace Record

variable {ρ α β : Type} {r : Record ρ α} {T : Field ρ → (ρ → ρ) → List Char → Prop}

theorem Filled.skipped {ms ns : List (String × List Char)} {s s' : ρ}
    (hms : ∀ m ∈ ms, r.field? m.1 = none) (h : Filled r T s ns s') :
    Filled r T s (ms ++ ns) s' := by
  induction ms with
  | nil => exact h
  | cons m ms ih =>
    obtain ⟨hm, hms⟩ := List.forall_mem_cons.mp hms
    exact .skip hm (ih hms)

theorem Filled.of_skipped {ms : List (String × List Char)} (hms : ∀ m ∈ ms, r.field? m.1 = none)
    (s : ρ) : Filled r T s ms s := by
  have h : Filled r T s (ms ++ []) s := .skipped hms .nil
  rwa [List.append_nil] at h

theorem reads_one {name key : String} {d : Decoder β} {default? : Option β} {depth : Nat} {b : β}
    {t : List Char} (h : Holding key (d.Reads Delimited depth b) t) (R : List Char → Prop) :
    (one name key d default?).decoder.Reads R (depth + 1) b t := by
  obtain ⟨ms, x, ⟨u, rfl, hu⟩, ⟨before, after, rfl, hne⟩, hx⟩ := h
  obtain ⟨hbefore, hafter⟩ := List.forall_mem_append.mp hne
  have hskip (k : String) (hk : k ≠ key) : (one name key d default?).field? k = none := by
    simp [field?, one, hk.symm]
  have hfield : (one name key d default?).field? key =
      some ⟨key, Option.isSome, d.map fun b _ => some b⟩ := by
    simp [field?, one]
  have hfill := Decoder.reads_map hx fun b (_ : Option β) => some b
  have hfilled : Filled (one name key d default?)
      (fun f fill x => f.decoder.Reads Delimited depth fill x) none
      (before ++ (key, x) :: after) (some b) := by
    refine .skipped (fun m hm => hskip m.1 (hbefore m hm)) (.fill hfield rfl hfill ?_)
    exact .of_skipped (fun m hm => hskip m.1 (hafter m hm)) (some b)
  exact reads_laid (fun _ _ _ _ h => h) (.named hu hfilled) rfl R

end Record

theorem Holding.imp {key : String} {P Q : List Char → Prop} {t : List Char} (h : Holding key P t)
    (hi : ∀ x, P x → Q x) : Holding key Q t := by
  obtain ⟨ms, x, hms, hx, hP⟩ := h
  exact ⟨ms, x, hms, hx, hi x hP⟩

namespace Decoder

variable {α : Type} {d : Decoder α} {P : List Char → Prop} {a : α} {text : String}

theorem readFront_of_alone (h : Alone P text)
    (hP : ∀ t, P t → d.Reads (fun _ => True) maxDepth a t) :
    ∃ rest, Blanks rest ∧ d.readFront text.toList = .ok (a, rest) := by
  obtain ⟨hb, ht, hb'⟩ := h
  rename_i b t b'
  refine ⟨b', hb', ?_⟩
  rw [String.toList_ofList]
  exact (hP t ht).read_eq (by simp only [List.length_append]; omega) hb trivial

theorem ofText_of_alone (h : Alone P text)
    (hP : ∀ t, P t → d.Reads (fun _ => True) maxDepth a t) : d.ofText text = .ok a := by
  obtain ⟨rest, -, hread⟩ := readFront_of_alone h hP
  rw [ofText, hread]

theorem ofWholeText?_of_alone (h : Alone P text)
    (hP : ∀ t, P t → d.Reads (fun _ => True) maxDepth a t) : d.ofWholeText? text = some a := by
  obtain ⟨rest, hrest, hread⟩ := readFront_of_alone h hP
  have hempty := skipBlank_append hrest []
  rw [List.append_nil] at hempty
  simp only [ofWholeText?, hread, hempty]
  rfl

end Decoder

end ModelBindings.Json
