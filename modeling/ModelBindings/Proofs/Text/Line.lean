namespace ModelBindings.Text

def OneLine (s : String) : Prop := '\n' ∉ s.toList

def EndsLine (s : String) : Prop := s.toList.getLast? = some '\n'

theorem EndsLine.append (s : String) {t : String} (h : EndsLine t) : EndsLine (s ++ t) := by
  rw [EndsLine, String.toList_append, List.getLast?_append, h, Option.some_or]

namespace OneLine

variable {s t : String}

theorem append (hs : OneLine s) (ht : OneLine t) : OneLine (s ++ t) := by
  intro h
  rw [String.toList_append, List.mem_append] at h
  exact h.elim hs ht

theorem intercalate {sep : String} (hsep : OneLine sep) {ss : List String}
    (h : ∀ s ∈ ss, OneLine s) : OneLine (sep.intercalate ss) := by
  induction ss with
  | nil =>
    rw [String.intercalate_nil]
    exact List.not_mem_nil
  | cons s ss ih =>
    have hs := h s (by simp)
    cases ss with
    | nil =>
      rw [String.intercalate_singleton]
      exact hs
    | cons s' ss =>
      rw [String.intercalate_cons_cons]
      exact (hs.append hsep).append (ih fun t ht => h t (by simp [ht]))

end OneLine

theorem eq_nil_of_getLast? {s t u : List Char} (hs : (s ++ t).getLast? = some '\n')
    (hu : '\n' ∉ t ++ u) : t = [] := by
  cases t with
  | nil => rfl
  | cons c t =>
    have hc : (c :: t).getLast? = some ((c :: t).getLast (by simp)) :=
      List.getLast?_eq_some_getLast _
    rw [List.getLast?_append, hc, Option.some_or] at hs
    have hm := List.mem_of_getLast? (hc.trans hs)
    exact absurd (List.mem_append_left u hm) hu

theorem last_line_unique {s s' u u' : String} (hs : EndsLine s) (hs' : EndsLine s')
    (hu : OneLine u) (hu' : OneLine u') (h : s ++ u = s' ++ u') : s = s' ∧ u = u' := by
  suffices hl : s.toList = s'.toList by
    cases String.toList_injective hl
    exact ⟨rfl, (String.append_right_inj _).mp h⟩
  have h' : s.toList ++ u.toList = s'.toList ++ u'.toList := by
    rw [← String.toList_append, ← String.toList_append, h]
  rw [OneLine] at hu hu'
  rw [EndsLine] at hs hs'
  rcases List.append_eq_append_iff.mp h' with ⟨t, ht, h⟩ | ⟨t, ht, h⟩
  · rw [ht] at hs'
    rw [h] at hu
    rw [ht, eq_nil_of_getLast? hs' hu, List.append_nil]
  · rw [ht] at hs
    rw [h] at hu'
    rw [ht, eq_nil_of_getLast? hs hu', List.append_nil]

end ModelBindings.Text
