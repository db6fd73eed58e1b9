import ModelBindings.Proofs.Text.Line
import ModelBindings.Recs.TypeExpr

namespace ModelBindings.Recs

open Text (OneLine)

mutual
def TypeExpr.names : TypeExpr → List String
  | .scalar _ => []
  | .record fields => fieldNames fields
  | .tuple elements => elementNames elements
termination_by structural e => e

def fieldNames : List (String × TypeExpr) → List String
  | [] => []
  | (name, e) :: fs => name :: (e.names ++ fieldNames fs)
termination_by structural fs => fs

def elementNames : List TypeExpr → List String
  | [] => []
  | e :: es => e.names ++ elementNames es
termination_by structural es => es
end

theorem oneLine_scalar (t : ScalarType) : OneLine t.text := by
  cases t <;> simp [ScalarType.text, OneLine]

theorem oneLine_between {left right : String} (hl : OneLine left) (hr : OneLine right)
    {parts : List String} (h : ∀ p ∈ parts, OneLine p) : OneLine (between left right parts) := by
  have hsep : OneLine ", " := by simp [OneLine]
  exact (hl.append (hsep.intercalate h)).append hr

mutual
theorem TypeExpr.oneLine_text : ∀ e : TypeExpr, (∀ name ∈ e.names, OneLine name) → OneLine e.text
  | .scalar t, _ => by
    rw [TypeExpr.text]
    exact oneLine_scalar t
  | .record fields, h => by
    rw [TypeExpr.text]
    exact oneLine_between (by simp [OneLine]) (by simp [OneLine]) (oneLine_fieldTexts fields h)
  | .tuple elements, h => by
    rw [TypeExpr.text]
    exact oneLine_between (by simp [OneLine]) (by simp [OneLine]) (oneLine_elementTexts elements h)

theorem oneLine_fieldTexts : ∀ fs : List (String × TypeExpr),
    (∀ name ∈ fieldNames fs, OneLine name) → ∀ t ∈ fieldTexts fs, OneLine t
  | [], _, _, ht => absurd ht List.not_mem_nil
  | (name, e) :: fs, h, t, ht => by
    have hsep : OneLine ": " := by simp [OneLine]
    have hname : OneLine name := h name (by simp [fieldNames])
    have he : OneLine e.text := e.oneLine_text fun n hn => h n (by simp [fieldNames, hn])
    rcases List.mem_cons.mp ht with rfl | ht
    · exact (hname.append hsep).append he
    · exact oneLine_fieldTexts fs (fun n hn => h n (by simp [fieldNames, hn])) t ht

theorem oneLine_elementTexts : ∀ es : List TypeExpr,
    (∀ name ∈ elementNames es, OneLine name) → ∀ t ∈ elementTexts es, OneLine t
  | [], _, _, ht => absurd ht List.not_mem_nil
  | e :: es, h, t, ht => by
    rcases List.mem_cons.mp ht with rfl | ht
    · exact e.oneLine_text fun n hn => h n (by simp [elementNames, hn])
    · exact oneLine_elementTexts es (fun n hn => h n (by simp [elementNames, hn])) t ht
end

end ModelBindings.Recs
