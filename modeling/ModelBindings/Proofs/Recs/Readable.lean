import ModelBindings.Proofs.Recs.TypeExpr

/-!
A type expression can be told from its text if the names of its fields hold none of the characters
that the text is laid out with. What follows an expression starts with one of those, so that also a
text that goes on after the expression shows where it ends.
-/

namespace ModelBindings.Recs

def Trusted (name : String) : Prop :=
  ∀ c ∈ [' ', ',', ':', '{', '}', '[', ']'], c ∉ name.toList

def TypeExpr.Plain (e : TypeExpr) : Prop := ∀ name ∈ e.names, Trusted name

section Stops

variable {p : Char → Prop} {s s' r r' : List Char}

def StopsAt (p : Char → Prop) (r : List Char) : Prop := ∀ c ∈ r.head?, p c

theorem stopsAt_cons {c : Char} (h : p c) (r : List Char) : StopsAt p (c :: r) := by
  rintro d hd
  cases hd
  exact h

theorem eq_nil_of_stops {t : List Char} (hs : ∀ c ∈ s ++ t, ¬ p c) (hr : StopsAt p (t ++ r')) :
    t = [] := by
  cases t with
  | nil => rfl
  | cons c t => exact absurd (hr c rfl) (hs c (by simp))

theorem append_unique (hs : ∀ c ∈ s, ¬ p c) (hs' : ∀ c ∈ s', ¬ p c) (hr : StopsAt p r)
    (hr' : StopsAt p r') (h : s ++ r = s' ++ r') : s = s' ∧ r = r' := by
  rcases List.append_eq_append_iff.mp h with ⟨t, rfl, rfl⟩ | ⟨t, rfl, rfl⟩
  · simp [eq_nil_of_stops hs' hr]
  · simp [eq_nil_of_stops hs hr']

end Stops

def Closes (r : List Char) : Prop := StopsAt (fun c => c = ',' ∨ c = ' ') r

theorem closes_nil : Closes [] := nofun

section Parts

variable {α : Type} {P : α → Prop} {t : α → List Char} {a : α} {as bs : List α}

def Unique (P : α → Prop) (t : α → List Char) (a : α) : Prop :=
  ∀ ⦃b : α⦄ ⦃r r' : List Char⦄, P b → Closes r → Closes r' → t a ++ r = t b ++ r' → a = b ∧ r = r'

def furtherParts (t : α → List Char) (as : List α) : List Char :=
  as.flatMap fun a => ',' :: ' ' :: t a

def joinedParts (t : α → List Char) : List α → List Char
  | [] => []
  | a :: as => t a ++ furtherParts t as

theorem closes_furtherParts (t : α → List Char) (as : List α) (r : List Char) :
    Closes (furtherParts t as ++ ' ' :: r) := by
  cases as with
  | nil => exact stopsAt_cons (.inr rfl) _
  | cons a as => exact stopsAt_cons (.inl rfl) _

theorem furtherParts_unique (h : ∀ a ∈ as, Unique P t a) (hbs : ∀ b ∈ bs, P b) {r r' : List Char}
    (he : furtherParts t as ++ ' ' :: r = furtherParts t bs ++ ' ' :: r') : as = bs ∧ r = r' := by
  induction as generalizing bs with
  | nil =>
    cases bs with
    | nil => simpa [furtherParts] using he
    | cons b bs => simp [furtherParts] at he
  | cons a as ih =>
    cases bs with
    | nil => simp [furtherParts] at he
    | cons b bs =>
      simp only [furtherParts, List.flatMap_cons, List.cons_append, List.append_assoc,
        List.cons.injEq, true_and] at he
      rw [List.forall_mem_cons] at h hbs
      obtain ⟨hab, hrest⟩ :=
        h.1 hbs.1 (closes_furtherParts t as r) (closes_furtherParts t bs r') he
      obtain ⟨hparts, hr⟩ := ih h.2 hbs.2 hrest
      exact ⟨by rw [hab, hparts], hr⟩

theorem joinedParts_unique (hstart : ∀ a, P a → ∃ c u, t a = c :: u ∧ c ≠ ' ')
    (has : ∀ a ∈ as, P a ∧ Unique P t a) (hbs : ∀ b ∈ bs, P b) {r r' : List Char}
    (he : joinedParts t as ++ ' ' :: r = joinedParts t bs ++ ' ' :: r') : as = bs ∧ r = r' := by
  cases as with
  | nil =>
    cases bs with
    | nil => simpa [joinedParts] using he
    | cons b bs =>
      obtain ⟨c, u, hb, hc⟩ := hstart b (hbs b (by simp))
      simp [joinedParts, hb, hc.symm] at he
  | cons a as =>
    cases bs with
    | nil =>
      obtain ⟨c, u, ha, hc⟩ := hstart a (has a (by simp)).1
      simp [joinedParts, ha, hc] at he
    | cons b bs =>
      rw [List.forall_mem_cons] at has hbs
      simp only [joinedParts, List.append_assoc] at he
      obtain ⟨hab, hrest⟩ :=
        has.1.2 hbs.1 (closes_furtherParts t as r) (closes_furtherParts t bs r') he
      obtain ⟨hparts, hr⟩ := furtherParts_unique (fun a ha => (has.2 a ha).2) hbs.2 hrest
      exact ⟨by rw [hab, hparts], hr⟩

theorem toList_intercalate_map (s : α → String) (a : α) (as : List α) :
    (", ".intercalate ((a :: as).map s)).toList =
      (s a).toList ++ furtherParts (fun a => (s a).toList) as := by
  induction as generalizing a with
  | nil => simp [furtherParts]
  | cons b bs ih =>
    rw [List.map_cons, List.map_cons, String.intercalate_cons_cons, String.toList_append,
      String.toList_append, ← List.map_cons, ih b]
    simp [furtherParts]

theorem toList_between (left right : String) (s : α → String) (as : List α) :
    (between left right (as.map s)).toList =
      left.toList ++ joinedParts (fun a => (s a).toList) as ++ right.toList := by
  rw [between, String.toList_append, String.toList_append]
  cases as with
  | nil => simp [joinedParts]
  | cons a as => rw [toList_intercalate_map, joinedParts]

end Parts

def TypeExpr.letters (e : TypeExpr) : List Char := e.text.toList

def fieldLetters (f : String × TypeExpr) : List Char := f.1.toList ++ ':' :: ' ' :: f.2.letters

def PlainField (f : String × TypeExpr) : Prop := Trusted f.1 ∧ f.2.Plain

theorem ScalarType.stops_text (t : ScalarType) : ∀ c ∈ t.text.toList, ¬ (c = ',' ∨ c = ' ') := by
  cases t <;> simp [ScalarType.text]

theorem ScalarType.eq_of_text {t u : ScalarType} (h : t.text = u.text) : t = u := by
  cases t <;> cases u <;> first | rfl | exact absurd h (by decide)

namespace TypeExpr

theorem letters_scalar (t : ScalarType) : (scalar t).letters = t.text.toList := by
  rw [letters, text]

theorem letters_record (fs : List (String × TypeExpr)) :
    (record fs).letters = '{' :: ' ' :: (joinedParts fieldLetters fs ++ [' ', '}']) := by
  have hfield : (fun f : String × TypeExpr => (f.1 ++ ": " ++ f.2.text).toList) = fieldLetters := by
    funext f
    simp [fieldLetters, letters]
  rw [letters, text, fieldTexts_eq_map, toList_between, hfield]
  simp

theorem letters_tuple (es : List TypeExpr) :
    (tuple es).letters = '[' :: ' ' :: (joinedParts letters es ++ [' ', ']']) := by
  have helement : (fun e : TypeExpr => e.text.toList) = letters := rfl
  rw [letters, text, elementTexts_eq_map, toList_between, helement]
  simp

def start : TypeExpr → Char
  | .scalar _ => 'R'
  | .record _ => '{'
  | .tuple _ => '['

theorem exists_letters (e : TypeExpr) : ∃ u, e.letters = e.start :: u := by
  cases e with
  | scalar t =>
    rw [letters_scalar]
    cases t <;> exact ⟨_, rfl⟩
  | record fs => exact ⟨_, letters_record fs⟩
  | tuple es => exact ⟨_, letters_tuple es⟩

theorem start_eq {e e' : TypeExpr} {r r' : List Char} (h : e.letters ++ r = e'.letters ++ r') :
    e.start = e'.start := by
  obtain ⟨u, hu⟩ := e.exists_letters
  obtain ⟨u', hu'⟩ := e'.exists_letters
  rw [hu, hu'] at h
  exact (List.cons.inj h).1

theorem exists_letters_ne (e : TypeExpr) (_ : e.Plain) : ∃ c u, e.letters = c :: u ∧ c ≠ ' ' := by
  obtain ⟨u, hu⟩ := e.exists_letters
  refine ⟨e.start, u, hu, ?_⟩
  cases e <;> simp [start]

theorem exists_fieldLetters (f : String × TypeExpr) (hf : PlainField f) :
    ∃ c u, fieldLetters f = c :: u ∧ c ≠ ' ' := by
  obtain ⟨name, e⟩ := f
  have hspace : ' ' ∉ name.toList := hf.1 ' ' (by simp)
  cases hn : name.toList with
  | nil => exact ⟨':', _, by rw [fieldLetters, hn]; rfl, by decide⟩
  | cons c cs =>
    rw [hn, List.mem_cons, not_or] at hspace
    exact ⟨c, _, by rw [fieldLetters, hn]; rfl, Ne.symm hspace.1⟩

theorem plain_record {fs : List (String × TypeExpr)} :
    (record fs).Plain ↔ ∀ f ∈ fs, PlainField f := by
  simp only [Plain, names]
  induction fs with
  | nil => simp [fieldNames]
  | cons f fs ih =>
    simp only [fieldNames, List.forall_mem_cons, List.forall_mem_append, ih, PlainField, Plain,
      and_assoc]

theorem plain_tuple {es : List TypeExpr} : (tuple es).Plain ↔ ∀ e ∈ es, e.Plain := by
  simp only [Plain, names]
  induction es with
  | nil => simp [elementNames]
  | cons e es ih => simp only [elementNames, List.forall_mem_cons, List.forall_mem_append, ih]

theorem unique_scalar (t : ScalarType) : Unique Plain letters (scalar t) := by
  intro b r r' _ hr hr' h
  cases b with
  | scalar u =>
    rw [letters_scalar, letters_scalar] at h
    obtain ⟨htext, hrest⟩ := append_unique t.stops_text u.stops_text hr hr' h
    rw [ScalarType.eq_of_text (String.toList_injective htext)]
    exact ⟨rfl, hrest⟩
  | record fs => exact absurd (start_eq h) (by simp [start])
  | tuple es => exact absurd (start_eq h) (by simp [start])

theorem unique_record {fs : List (String × TypeExpr)}
    (h : ∀ f ∈ fs, PlainField f ∧ Unique PlainField fieldLetters f) :
    Unique Plain letters (record fs) := by
  intro b r r' hb _ _ he
  cases b with
  | record gs =>
    rw [letters_record, letters_record] at he
    simp only [List.cons_append, List.append_assoc, List.nil_append, List.cons.injEq,
      true_and] at he
    obtain ⟨rfl, hr⟩ := joinedParts_unique exists_fieldLetters h (plain_record.mp hb) he
    exact ⟨rfl, (List.cons.inj hr).2⟩
  | scalar t => exact absurd (start_eq he) (by simp [start])
  | tuple es => exact absurd (start_eq he) (by simp [start])

theorem unique_tuple {es : List TypeExpr}
    (h : ∀ e ∈ es, e.Plain ∧ Unique Plain letters e) : Unique Plain letters (tuple es) := by
  intro b r r' hb _ _ he
  cases b with
  | tuple ds =>
    rw [letters_tuple, letters_tuple] at he
    simp only [List.cons_append, List.append_assoc, List.nil_append, List.cons.injEq,
      true_and] at he
    obtain ⟨rfl, hr⟩ := joinedParts_unique exists_letters_ne h (plain_tuple.mp hb) he
    exact ⟨rfl, (List.cons.inj hr).2⟩
  | scalar t => exact absurd (start_eq he) (by simp [start])
  | record fs => exact absurd (start_eq he) (by simp [start])

theorem unique_field {f : String × TypeExpr} (hf : Trusted f.1) (h : Unique Plain letters f.2) :
    Unique PlainField fieldLetters f := by
  intro g r r' hg hr hr' he
  have hcolon {name : String} (hn : Trusted name) : ∀ c ∈ name.toList, ¬ c = ':' :=
    fun c hc hne => hn ':' (by simp) (hne ▸ hc)
  simp only [fieldLetters, List.append_assoc, List.cons_append] at he
  have hstops (t : List Char) : StopsAt (fun c => c = ':') (':' :: t) :=
    stopsAt_cons (p := fun c => c = ':') rfl t
  obtain ⟨hname, he⟩ := append_unique (hcolon hf) (hcolon hg.1) (hstops _) (hstops _) he
  simp only [List.cons.injEq, true_and] at he
  obtain ⟨hexpr, hrest⟩ := h hg.2 hr hr' he
  exact ⟨Prod.ext (String.toList_injective hname) hexpr, hrest⟩

mutual
theorem unique_letters : ∀ e : TypeExpr, e.Plain → Unique Plain letters e
  | .scalar t, _ => unique_scalar t
  | .record fields, h => unique_record (unique_fields fields (plain_record.mp h))
  | .tuple elements, h => unique_tuple (unique_elements elements (plain_tuple.mp h))

theorem unique_fields : ∀ fs : List (String × TypeExpr), (∀ f ∈ fs, PlainField f) →
    ∀ f ∈ fs, PlainField f ∧ Unique PlainField fieldLetters f
  | [], _ => nofun
  | (name, e) :: fs, h => by
    rw [List.forall_mem_cons] at h ⊢
    exact ⟨⟨h.1, unique_field h.1.1 (unique_letters e h.1.2)⟩, unique_fields fs h.2⟩

theorem unique_elements : ∀ es : List TypeExpr, (∀ e ∈ es, e.Plain) →
    ∀ e ∈ es, e.Plain ∧ Unique Plain letters e
  | [], _ => nofun
  | e :: es, h => by
    rw [List.forall_mem_cons] at h ⊢
    exact ⟨⟨h.1, unique_letters e h.1⟩, unique_elements es h.2⟩
end

theorem text_injective {e e' : TypeExpr} (h : ∀ name ∈ e.names, Trusted name)
    (h' : ∀ name ∈ e'.names, Trusted name) : e.text = e'.text ↔ e = e' := by
  refine ⟨fun htext => ?_, congrArg text⟩
  have he : e.letters ++ [] = e'.letters ++ [] := by rw [letters, letters, htext]
  exact (unique_letters e h h' closes_nil closes_nil he).1

def blankNames (e : TypeExpr) (t : ScalarType) : TypeExpr :=
  .record [("", e), ("", .scalar t)]

theorem text_injective_blankNames :
    (∀ name ∈ (blankNames (.record []) .number).names, Trusted name) ∧
      (∀ name ∈ (blankNames (.tuple []) .numberArray).names, Trusted name) ∧
      (blankNames (.record []) .number).text ≠ (blankNames (.tuple []) .numberArray).text := by
  have hleft : ∀ name ∈ (blankNames (.record []) .number).names, Trusted name := by
    simp [blankNames, names, fieldNames, Trusted]
  have hright : ∀ name ∈ (blankNames (.tuple []) .numberArray).names, Trusted name := by
    simp [blankNames, names, fieldNames, elementNames, Trusted]
  exact ⟨hleft, hright, fun h => absurd ((text_injective hleft hright).mp h) (by decide)⟩

end TypeExpr

end ModelBindings.Recs
