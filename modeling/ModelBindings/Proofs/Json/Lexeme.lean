import ModelBindings.Proofs.Json.Written

namespace ModelBindings.Json

section Outcome

variable {ε α β : Type}

theorem toOption_eq_some_iff {x : Except ε α} {a : α} : x.toOption = some a ↔ x = .ok a := by
  cases x <;> simp [Except.toOption]

@[simp] theorem ok_bind (a : α) (f : α → Except ε β) : (Except.ok a >>= f) = f a := rfl

theorem bind_eq_ok_iff {x : Except ε α} {f : α → Except ε β} {b : β} :
    (x >>= f) = .ok b ↔ ∃ a, x = .ok a ∧ f a = .ok b := by
  cases x <;> simp [bind, Except.bind]

theorem pure_eq_ok_iff {a a' : α} : (pure a : Except ε α) = .ok a' ↔ a = a' := by
  simp [pure, Except.pure]

@[simp] theorem toOption_ok (a : α) : (Except.ok a : Except ε α).toOption = some a := rfl

@[simp] theorem toOption_pure (a : α) : (pure a : Except ε α).toOption = some a := rfl

@[simp] theorem toOption_error (e : ε) : (Except.error e : Except ε α).toOption = none := rfl

@[simp] theorem toOption_bind (x : Except ε α) (f : α → Except ε β) :
    (x >>= f).toOption = x.toOption.bind fun a => (f a).toOption := by
  cases x <;> rfl

@[simp] theorem toOption_mapError {δ : Type} (f : ε → δ) (x : Except ε α) :
    (x.mapError f).toOption = x.toOption := by
  cases x <;> rfl

theorem mapError_eq_ok_iff {δ : Type} {f : ε → δ} {x : Except ε α} {a : α} :
    x.mapError f = .ok a ↔ x = .ok a := by
  cases x with
  | error e => exact ⟨nofun, nofun⟩
  | ok b =>
    constructor <;>
    · intro h
      cases h
      rfl

theorem atRoot_eq_ok_iff {x : Except ε α} {a : α} : atRoot x = .ok a ↔ x = .ok a :=
  mapError_eq_ok_iff

theorem within_eq_ok_iff {s : Segment} {x : Except (Located ε) α} {a : α} :
    within s x = .ok a ↔ x = .ok a :=
  mapError_eq_ok_iff

@[simp] theorem atRoot_ok (a : α) : atRoot (.ok a : Except ε α) = .ok a := rfl

@[simp] theorem atRoot_error (e : ε) : atRoot (.error e : Except ε α) = .error ⟨[], e⟩ := rfl

@[simp] theorem within_ok (s : Segment) (a : α) :
    within s (.ok a : Except (Located ε) α) = .ok a := rfl

@[simp] theorem within_error (s : Segment) (e : Located ε) :
    within s (.error e : Except (Located ε) α) = .error { e with path := s :: e.path } := rfl

@[simp] theorem toOption_atRoot (x : Except ε α) : (atRoot x).toOption = x.toOption :=
  toOption_mapError _ x

@[simp] theorem toOption_within (s : Segment) (x : Except (Located ε) α) :
    (within s x).toOption = x.toOption :=
  toOption_mapError _ x

end Outcome

variable {b b' t rest : List Char}

theorem skipBlank_append (hb : Blanks b) (t : List Char) : skipBlank (b ++ t) = skipBlank t :=
  List.dropWhile_append_of_pos hb

theorem skipBlank_cons {c : Char} (hc : isBlank c = false) (t : List Char) :
    skipBlank (c :: t) = c :: t := by
  simp [skipBlank, hc]

theorem skipBlank_append_cons (hb : Blanks b) {c : Char} (hc : isBlank c = false) (t : List Char) :
    skipBlank (b ++ c :: t) = c :: t := by
  rw [skipBlank_append hb, skipBlank_cons hc]

theorem Starts.skipBlank_eq (ht : Starts t) (hb : Blanks b) (rest : List Char) :
    skipBlank (b ++ t ++ rest) = t ++ rest := by
  obtain ⟨c, u, rfl, hc, -⟩ := ht
  rw [List.append_assoc, List.cons_append, skipBlank_append_cons hb hc]

theorem Starts.length_pos (ht : Starts t) : 0 < t.length := by
  obtain ⟨c, u, rfl, -⟩ := ht
  exact Nat.succ_pos _

theorem skipBlank_comma (hb : Blanks b) (t : List Char) :
    skipBlank (b ++ (comma false ++ t)) = ',' :: t :=
  skipBlank_append_cons hb (by decide) t

theorem skipBlank_no_comma (hb : Blanks b) (t : List Char) :
    skipBlank (b ++ (comma true ++ t)) = skipBlank t := by
  rw [skipBlank_append hb]
  rfl

theorem Spelled.length_pos {c : Char} {u : List Char} (h : Spelled c u) : 0 < u.length := by
  cases h <;> simp

theorem readHex_unit {a b c d : Char} {n : Nat} (h : hexUnit? a b c d = some n) (t : List Char) :
    readHex (a :: b :: c :: d :: t) = .ok (n, t) := by
  simp [readHex, h]

theorem isLowSurrogate_of_isHighSurrogate {n : Nat} (h : isHighSurrogate n = true) :
    isLowSurrogate n = false := by
  simp only [isHighSurrogate, isLowSurrogate, Bool.and_eq_true, Bool.and_eq_false_iff,
    decide_eq_true_eq, decide_eq_false_iff_not] at h ⊢
  omega

theorem readEscape_short {e c : Char} (h : simpleEscape? e = some c) (t : List Char) :
    readEscape (e :: t) = .ok (c, t) := by
  have he : e ≠ 'u' := by
    rintro rfl
    cases h
  simp [readEscape, h]

theorem readEscape_unit {a b c d : Char} {n : Nat} (h : hexUnit? a b c d = some n)
    (hl : isLowSurrogate n = false) (hh : isHighSurrogate n = false) (t : List Char) :
    readEscape ('u' :: a :: b :: c :: d :: t) = .ok (Char.ofNat n, t) := by
  simp [readEscape, readUnicode, readHex_unit h, hl, hh]
  rfl

theorem readEscape_pair {a b c d a' b' c' d' : Char} {n m : Nat} (h : hexUnit? a b c d = some n)
    (hh : isHighSurrogate n = true) (h' : hexUnit? a' b' c' d' = some m)
    (hl : isLowSurrogate m = true) (t : List Char) :
    readEscape ('u' :: a :: b :: c :: d :: '\\' :: 'u' :: a' :: b' :: c' :: d' :: t) =
      .ok (joinSurrogates n m, t) := by
  simp [readEscape, readUnicode, readHex_unit h, isLowSurrogate_of_isHighSurrogate hh, hh,
    readPairMark, readHex_unit h', hl]
  rfl

theorem readCharacters_escape {u t : List Char} {c : Char} (h : readEscape u = .ok (c, t))
    (steps : Nat) :
    readCharacters (steps + 1) ('\\' :: u) =
      (readCharacters steps t).map fun r => (c :: r.1, r.2) := by
  simp only [readCharacters, h, ok_bind]
  cases readCharacters steps t <;> rfl

theorem readCharacters_spelled {c : Char} {u : List Char} (h : Spelled c u) (steps : Nat)
    (t : List Char) :
    readCharacters (steps + 1) (u ++ t) =
      (readCharacters steps t).map fun r => (c :: r.1, r.2) := by
  cases h with
  | plain hq hb hc =>
    rw [List.singleton_append, readCharacters]
    · rw [if_neg (Nat.not_lt.mpr hc)]
      cases readCharacters steps t <;> rfl
    · exact hq
    · exact hb
  | short he => exact readCharacters_escape (readEscape_short he t) steps
  | unit hn hl hh => exact readCharacters_escape (readEscape_unit hn hl hh t) steps
  | pair hn hh hm hl => exact readCharacters_escape (readEscape_pair hn hh hm hl t) steps

theorem readCharacters_spelling {cs s : List Char} (h : Spelling cs s) {steps : Nat}
    (hl : s.length < steps) (t : List Char) :
    readCharacters steps (s ++ '"' :: t) = .ok (cs, t) := by
  induction h generalizing steps with
  | nil =>
    obtain ⟨steps, rfl⟩ := Nat.exists_eq_add_of_lt hl
    simp [readCharacters]
  | cons hc _ ih =>
    have hp := hc.length_pos
    simp only [List.length_append] at hl
    obtain ⟨steps, rfl⟩ : ∃ k, steps = k + 1 := ⟨steps - 1, by omega⟩
    rw [List.append_assoc, readCharacters_spelled hc, ih (by omega)]
    rfl

theorem readString_spelling {k : String} {s : List Char} (h : Spelling k.toList s) {steps : Nat}
    (hl : s.length < steps) (t : List Char) : readString steps (s ++ '"' :: t) = .ok (k, t) := by
  rw [readString, readCharacters_spelling h hl, ok_bind]
  simp only [String.ofList_toList]
  rfl

def NoDigit (t : List Char) : Prop := ∀ c ∈ t.head?, c.isDigit = false

theorem noDigit_cons {c : Char} (hc : c.isDigit = false) (t : List Char) : NoDigit (c :: t) := by
  intro d hd
  cases hd
  exact hc

theorem Delimited.noDigit (h : Delimited t) : NoDigit t := by
  intro c hc
  refine Bool.eq_false_iff.mpr fun hd => ?_
  obtain hb | rfl | rfl | rfl := h c hc
  · rw [isBlank_of_isDigit hd] at hb
    cases hb
  all_goals cases hd

theorem digitsOf_append {ds : List Char} (hd : ∀ d ∈ ds, d.isDigit = true) (ht : NoDigit t) :
    digitsOf (ds ++ t) = (ds, t) := by
  have h : t.takeWhile Char.isDigit = [] ∧ t.dropWhile Char.isDigit = t := by
    cases t with
    | nil => exact ⟨rfl, rfl⟩
    | cons c t => simp [ht c rfl]
  rw [digitsOf, List.takeWhile_append_of_pos hd, List.dropWhile_append_of_pos hd, h.1, h.2,
    List.append_nil]

theorem Power.exists_text_eq_cons (w : Power) :
    ∃ t, w.text = w.letter :: t ∧ w.letter.isDigit = false ∧ w.letter ≠ '.' := by
  refine ⟨_, rfl, ?_, ?_⟩ <;> rcases w.letter_eq with h | h <;> rw [h] <;> decide

theorem Literal.noDigit_powerText (l : Literal) (ht : Delimited t) :
    NoDigit (l.powerText ++ t) := by
  rw [powerText]
  split
  · exact ht.noDigit
  · rename_i w _
    obtain ⟨u, hu, hd, -⟩ := w.exists_text_eq_cons
    rw [hu]
    exact noDigit_cons hd _

theorem Literal.noDigit_fractionText (l : Literal) (ht : Delimited t) :
    NoDigit (l.fractionText ++ (l.powerText ++ t)) := by
  rw [fractionText]
  split
  · exact l.noDigit_powerText ht
  · exact noDigit_cons (by decide) _

theorem readWhole_literal (l : Literal) (ht : NoDigit t) :
    readWhole (l.whole ++ t) = .ok (.ofDigits l.whole, t) := by
  rcases l.whole_ok with h | ⟨⟨hn, hd⟩, h0⟩
  · rw [h]
    cases t with
    | nil => rfl
    | cons c t => simp [readWhole, ht c rfl]; rfl
  · obtain ⟨c, ds, hc⟩ := List.exists_cons_of_ne_nil hn
    rw [hc] at hd h0 ⊢
    have hc0 : c ≠ '0' := fun h => h0 (by rw [h]; rfl)
    rw [List.cons_append, readWhole]
    · rw [if_pos (hd c (by simp)), ← List.cons_append, digitsOf_append hd ht]
    · exact hc0

theorem Delimited.head_ne (h : Delimited t) {c : Char} (hc : c ∈ t.head?) :
    c ≠ '.' ∧ c ≠ 'e' ∧ c ≠ 'E' := by
  obtain hb | rfl | rfl | rfl := h c hc
  · simp only [isBlank, Bool.or_eq_true, decide_eq_true_eq] at hb
    rcases hb with ((rfl | rfl) | rfl) | rfl <;> decide
  all_goals decide

theorem Literal.powerText_head_ne (l : Literal) (ht : Delimited t) :
    ∀ c ∈ (l.powerText ++ t).head?, c ≠ '.' := by
  rw [powerText]
  split
  · exact fun c hc => (ht.head_ne hc).1
  · rename_i w _
    obtain ⟨u, hu, -, hd⟩ := w.exists_text_eq_cons
    intro c hc
    rw [hu] at hc
    cases hc
    exact hd

theorem readFraction_of_ne {x : Numeral} (ht : ∀ c ∈ t.head?, c ≠ '.') :
    readFraction x t = .ok (x, t) := by
  cases t with
  | nil => rfl
  | cons c t =>
    rw [readFraction]
    exact fun u h => ht c rfl (List.cons.inj h).1

theorem readFraction_literal (l : Literal) (ht : Delimited t) :
    readFraction (.ofDigits l.whole) (l.fractionText ++ (l.powerText ++ t)) =
      .ok (l.mantissa, l.powerText ++ t) := by
  rw [Literal.fractionText, Literal.mantissa]
  split
  · exact readFraction_of_ne (l.powerText_head_ne ht)
  · rename_i ds _
    obtain ⟨ds, hn, hd⟩ := ds
    obtain ⟨d, ds, rfl⟩ := List.exists_cons_of_ne_nil hn
    rw [List.cons_append, readFraction, digitsOf_append hd (l.noDigit_powerText ht)]

theorem readSign_power (w : Power) (t : List Char) :
    readSign (w.sign ++ w.digits ++ t) = (w.negative, w.digits ++ t) := by
  obtain ⟨hn, hd⟩ := w.digits_ok
  obtain ⟨d, ds, hds⟩ := List.exists_cons_of_ne_nil hn
  rcases w.sign_eq with h | h | h
  · have hdd := hd d (by simp [hds])
    rw [Power.negative, h, hds, List.nil_append, List.cons_append, readSign]
    · rfl
    · intro u hu
      cases hu
      cases hdd
    · intro u hu
      cases hu
      cases hdd
  · simp [Power.negative, h, readSign]
  · simp [Power.negative, h, readSign]

theorem readPower_power (w : Power) (x : Numeral) (ht : NoDigit t) :
    (readPower x w.negative (w.digits ++ t)).toOption = (w.scale? x).map fun y => (y, t) := by
  obtain ⟨hn, hd⟩ := w.digits_ok
  obtain ⟨d, ds, hds⟩ := List.exists_cons_of_ne_nil hn
  rw [readPower, digitsOf_append hd ht, Power.scale?, hds]
  simp only
  split
  · rfl
  · split <;> rfl

theorem readExponent_literal (l : Literal) (ht : Delimited t) :
    (readExponent l.mantissa (l.powerText ++ t)).toOption = l.numeral?.map fun x => (x, t) := by
  rw [Literal.powerText, Literal.numeral?]
  split
  · cases t with
    | nil => rfl
    | cons c t =>
      have hc := ht.head_ne (c := c) rfl
      simp [readExponent, hc.2.1, hc.2.2]
  · rename_i w _
    rw [Power.text, List.cons_append, readExponent, if_pos w.letter_eq, readSign_power]
    exact readPower_power w _ ht.noDigit

theorem readNumber_literal (l : Literal) (ht : Delimited t) :
    (readNumber l.negative (l.unsigned ++ t)).toOption = l.value?.map fun n => (n, t) := by
  have hw := readWhole_literal l (l.noDigit_fractionText ht)
  simp only [readNumber, readNumeral, Literal.unsigned, List.append_assoc, hw, ok_bind,
    readFraction_literal l ht, toOption_bind, readExponent_literal l ht, Literal.value?]
  cases l.numeral? with
  | none => rfl
  | some x =>
    simp only [Option.map_some, Option.bind_some]
    cases x.value? l.negative <;> rfl

theorem readLiteral_append (es t : List Char) : readLiteral es (es ++ t) = .ok t := by
  induction es with
  | nil => rfl
  | cons e es ih => rw [List.cons_append, readLiteral, if_pos rfl, ih]

theorem openValue_of_isDigit {c : Char} (hc : c.isDigit = true) (hb : Blanks b) (steps : Nat) :
    openValue steps (b ++ c :: t) =
      (readNumber false (c :: t)).map fun r => .scalar (.number r.1) r.2 := by
  rw [openValue, skipBlank_append_cons hb (isBlank_of_isDigit hc)]
  split
  case h_9 =>
    rename_i heq
    cases heq
    rw [if_pos hc]
    cases readNumber false (c :: t) <;> rfl
  all_goals
    rename_i heq
    cases heq
  all_goals cases hc

theorem openValue_literal {l : Literal} {n : Number} (hn : l.value? = some n) (hb : Blanks b)
    (ht : Delimited t) (steps : Nat) :
    openValue steps (b ++ l.text ++ t) = .ok (.scalar (.number n) t) := by
  have hr : readNumber l.negative (l.unsigned ++ t) = .ok (n, t) := by
    rw [← toOption_eq_some_iff, readNumber_literal l ht, hn]
    rfl
  rw [List.append_assoc, Literal.text]
  split
  · rename_i h
    rw [h] at hr
    rw [openValue, List.cons_append, skipBlank_append_cons hb (by decide)]
    simp only [hr, ok_bind]
    rfl
  · rename_i h
    rw [Bool.not_eq_true] at h
    rw [h] at hr
    obtain ⟨c, u, hc, hd⟩ := l.exists_unsigned_eq_cons
    rw [hc, List.cons_append] at hr ⊢
    rw [openValue_of_isDigit hd hb, hr]
    rfl

theorem openValue_scalar {v : Value} (h : Written v t) (hv : v.height = 0) (hb : Blanks b)
    (ht : Delimited rest) {steps : Nat} (hl : t.length ≤ steps) :
    openValue steps (b ++ t ++ rest) = .ok (.scalar v rest) := by
  have hs := h.starts.skipBlank_eq hb rest
  cases h with
  | null => rw [openValue, hs]; rfl
  | true => rw [openValue, hs]; rfl
  | false => rw [openValue, hs]; rfl
  | number hn => exact openValue_literal hn hb ht steps
  | string hk =>
    simp only [List.cons_append, List.length_cons, List.length_append, List.append_assoc,
      List.nil_append] at hl hs ⊢
    rw [openValue, hs]
    simp only [readString_spelling hk (show _ < steps by omega), ok_bind]
    rfl
  | array _ => simp [Value.height] at hv
  | object _ => simp [Value.height] at hv

theorem openValue_list (hb : Blanks b) (steps : Nat) (t : List Char) :
    openValue steps (b ++ '[' :: t) = .ok (.list t) := by
  rw [openValue, skipBlank_append_cons hb (by decide)]
  rfl

theorem openValue_object (hb : Blanks b) (steps : Nat) (t : List Char) :
    openValue steps (b ++ '{' :: t) = .ok (.object t) := by
  rw [openValue, skipBlank_append_cons hb (by decide)]
  rfl

end ModelBindings.Json
