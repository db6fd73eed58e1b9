import Mathlib.Logic.Function.Basic
import ModelBindings.Json.Report

/-!
Reports seen from further and further out. What of a report's path stands behind an anchor depends
on the path alone, and several anchors put on in turn are one anchor put on once.
-/

namespace ModelBindings.Json.Report

def suffix (path : String) : String :=
  if path = "." then "" else if path.toList.head? = some '[' then path else "." ++ path

theorem anchorAt_eq (r : Report) (anchor : String) :
    r.anchorAt anchor = ⟨anchor ++ suffix r.path, r.message⟩ := by
  rw [anchorAt, suffix]
  refine congrArg (Report.mk · r.message) ?_
  split
  · exact String.append_empty.symm
  · split
    · rfl
    · exact String.append_assoc ..

def ofSuffix (s : String) : String :=
  match s.toList with
  | [] => "."
  | '[' :: _ => s
  | _ :: cs => .ofList cs

theorem ofSuffix_suffix : Function.LeftInverse ofSuffix suffix := by
  intro path
  rw [suffix]
  split
  · rename_i hroot
    exact hroot.symm
  · split
    · rename_i h
      obtain ⟨cs, hcs⟩ := List.head?_eq_some_iff.mp h
      simp only [ofSuffix, hcs]
    · rw [ofSuffix, String.toList_append]
      exact String.ofList_toList

/-- What is not taken for the root, and stays so whatever is put before or behind it. -/
def Opens (path : String) : Prop := path ≠ "" ∧ path ≠ "."

theorem opens_append {s t : String} (h : Opens s ∨ Opens t) : Opens (s ++ t) := by
  refine ⟨fun he => ?_, fun hroot => ?_⟩
  · obtain ⟨hs, ht⟩ := String.append_eq_empty_iff.mp he
    exact h.elim (fun h => h.1 hs) (fun h => h.1 ht)
  · have hlist := congrArg String.toList hroot
    rw [String.toList_append] at hlist
    rcases List.append_eq_singleton_iff.mp hlist with ⟨hs, ht⟩ | ⟨hs, ht⟩
    · have hs := String.toList_eq_nil_iff.mp hs
      exact h.elim (fun h => h.1 hs) (fun h => h.2 (String.toList_inj.mp ht))
    · have ht := String.toList_eq_nil_iff.mp ht
      exact h.elim (fun h => h.2 (String.toList_inj.mp hs)) (fun h => h.1 ht)

namespace Opens

variable {path : String}

theorem suffix_append (h : Opens path) (t : String) : suffix (path ++ t) = suffix path ++ t := by
  have hne : path.toList ≠ [] := mt String.toList_eq_nil_iff.mp h.1
  have hhead : (path ++ t).toList.head? = path.toList.head? := by
    rw [String.toList_append, List.head?_append, List.head?_eq_some_head hne, Option.some_or]
  rw [suffix, suffix, if_neg (opens_append (.inl h)).2, if_neg h.2, hhead]
  split
  · rfl
  · exact (String.append_assoc ..).symm

theorem anchored (h : Opens path) (anchor : String) : Opens (anchor ++ suffix path) := by
  rw [suffix, if_neg h.2]
  split
  · exact opens_append (.inr h)
  · exact opens_append (.inr (opens_append (.inr h)))

end Opens

theorem anchorAt_anchorAt (r : Report) {anchor : String} (h : Opens anchor) (outer : String) :
    (r.anchorAt anchor).anchorAt outer = r.anchorAt (outer ++ suffix anchor) := by
  simp only [anchorAt_eq, h.suffix_append, String.append_assoc]

theorem foldl_anchorAt (r : Report) {anchor : String} (h : Opens anchor) (outer : List String)
    (message : String) :
    (anchor :: outer).foldl anchorAt r =
      r.anchorAt (outer.foldl anchorAt ⟨anchor, message⟩).path := by
  induction outer generalizing anchor with
  | nil => rfl
  | cons a outer ih =>
    calc (anchor :: a :: outer).foldl anchorAt r
      _ = outer.foldl anchorAt ((r.anchorAt anchor).anchorAt a) := rfl
      _ = ((a ++ suffix anchor) :: outer).foldl anchorAt r := by
        rw [anchorAt_anchorAt r h, List.foldl_cons]
      _ = r.anchorAt (outer.foldl anchorAt ⟨a ++ suffix anchor, message⟩).path :=
        ih (h.anchored a)
      _ = r.anchorAt ((a :: outer).foldl anchorAt ⟨anchor, message⟩).path := by
        rw [List.foldl_cons, anchorAt_eq ⟨anchor, message⟩]

theorem anchorAt_composes :
    (∀ (r : Report) (anchor : String) (outer : List String) (message : String),
      anchor ≠ "" → anchor ≠ "." →
        (anchor :: outer).foldl anchorAt r =
          r.anchorAt (outer.foldl anchorAt ⟨anchor, message⟩).path ∧
        ((anchor :: outer).foldl anchorAt r).message = r.message) ∧
    ∀ (anchor : String) (r s : Report), r.path ≠ s.path →
      (r.anchorAt anchor).path ≠ (s.anchorAt anchor).path := by
  refine ⟨fun r anchor outer message h hroot => ?_, fun anchor r s h heq => h ?_⟩
  · have hfold := foldl_anchorAt r ⟨h, hroot⟩ outer message
    exact ⟨hfold, by rw [hfold, message_anchorAt]⟩
  · simp only [anchorAt_eq] at heq
    exact ofSuffix_suffix.injective ((String.append_right_inj anchor).mp heq)

theorem anchorAt_composes_oddAnchors :
    [("[0]" : String), "", ".", "$"].foldl anchorAt ⟨"name", "missing"⟩ =
        Report.anchorAt ⟨"name", "missing"⟩
          (["", ".", "$"].foldl anchorAt ⟨"[0]", "missing"⟩).path ∧
      (Report.anchorAt ⟨".", "missing"⟩ "$").path ≠ (Report.anchorAt ⟨"", "missing"⟩ "$").path := by
  obtain ⟨hfold, hapart⟩ := anchorAt_composes
  exact ⟨(hfold ⟨"name", "missing"⟩ "[0]" ["", ".", "$"] "missing" (by decide) (by decide)).1,
    hapart "$" ⟨".", "missing"⟩ ⟨"", "missing"⟩ (by decide)⟩

end ModelBindings.Json.Report
