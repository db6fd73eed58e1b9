import ModelBindings.Json.Skip
import ModelBindings.Proofs.Json.Formed

namespace ModelBindings.Json

variable {b b' t rest : List Char}

namespace Skip

theorem string_escape {u t : List Char} (h : escape u = .ok t) (steps : Nat) :
    string (steps + 1) ('\\' :: u) = string steps t := by
  rw [string, h, ok_bind]

theorem escape_unit {a b c d : Char} {n : Nat} (h : hexUnit? a b c d = some n) (t : List Char) :
    escape ('u' :: a :: b :: c :: d :: t) = .ok t := by
  rw [escape, readHex_unit h]
  rfl

theorem string_loose {s : List Char} (h : Loose s) {steps : Nat} (hl : s.length < steps)
    (t : List Char) : string steps (s ++ '"' :: t) = .ok t := by
  induction h generalizing steps with
  | nil =>
    obtain ⟨steps, rfl⟩ := Nat.exists_eq_add_of_lt hl
    rfl
  | plain hq hb hc _ ih =>
    simp only [List.length_cons] at hl
    obtain ⟨steps, rfl⟩ : ∃ k, steps = k + 1 := ⟨steps - 1, by omega⟩
    rw [List.cons_append, string, if_neg (Nat.not_lt.mpr hc)]
    · exact ih (by omega)
    · exact hq
    · exact hb
  | @short e c s he _ ih =>
    simp only [List.length_cons] at hl
    obtain ⟨steps, rfl⟩ : ∃ k, steps = k + 1 := ⟨steps - 1, by omega⟩
    have hu : e ≠ 'u' := by
      rintro rfl
      cases he
    refine (string_escape (t := s ++ '"' :: t) ?_ steps).trans (ih (by omega))
    simp [escape, he]
  | unit hn _ ih =>
    simp only [List.length_cons] at hl
    obtain ⟨steps, rfl⟩ : ∃ k, steps = k + 1 := ⟨steps - 1, by omega⟩
    exact (string_escape (escape_unit hn _) steps).trans (ih (by omega))

theorem whole_literal (l : Literal) (ht : NoDigit t) : whole (l.whole ++ t) = .ok t := by
  rcases l.whole_ok with h | ⟨⟨hn, hd⟩, h0⟩
  · rw [h]
    cases t with
    | nil => rfl
    | cons c t => simp [whole, ht c rfl]
  · obtain ⟨c, ds, hc⟩ := List.exists_cons_of_ne_nil hn
    have hds := digitsOf_append hd ht
    rw [hc] at hd h0 hds ⊢
    have hc0 : c ≠ '0' := fun h => h0 (by rw [h]; rfl)
    have hcd : c.isDigit = true := hd c (by simp)
    rw [List.cons_append, digitsOf, List.dropWhile_cons, if_pos hcd] at hds
    rw [List.cons_append, whole, if_pos hcd]
    · exact congrArg Except.ok (congrArg Prod.snd hds)
    · exact hc0

theorem fraction_literal (l : Literal) (ht : Delimited t) :
    fraction (l.fractionText ++ (l.powerText ++ t)) = .ok (l.powerText ++ t) := by
  rw [Literal.fractionText]
  split
  · have h := l.powerText_head_ne ht
    rw [List.nil_append]
    cases hu : l.powerText ++ t with
    | nil => rfl
    | cons c u =>
      rw [hu] at h
      rw [fraction]
      exact fun v hv => h c rfl (List.cons.inj hv).1
  · rename_i ds _
    obtain ⟨ds, hn, hd⟩ := ds
    obtain ⟨d, ds, rfl⟩ := List.exists_cons_of_ne_nil hn
    rw [List.cons_append, fraction, digitsOf_append hd (l.noDigit_powerText ht)]

theorem exponent_literal (l : Literal) (ht : Delimited t) :
    exponent (l.powerText ++ t) = .ok t := by
  rw [Literal.powerText]
  split
  · cases t with
    | nil => rfl
    | cons c t =>
      have hc := ht.head_ne (c := c) rfl
      simp [exponent, hc.2.1, hc.2.2]
  · rename_i w _
    obtain ⟨hn, hd⟩ := w.digits_ok
    rw [Power.text, List.cons_append, exponent, if_pos w.letter_eq, readSign_power]
    rw [digitsOf_append hd ht.noDigit]
    obtain ⟨d, ds, hds⟩ := List.exists_cons_of_ne_nil hn
    rw [hds]

theorem number_literal (l : Literal) (ht : Delimited t) :
    number (l.unsigned ++ t) = .ok t := by
  rw [number, Literal.unsigned, List.append_assoc, List.append_assoc,
    whole_literal l (l.noDigit_fractionText ht), ok_bind, fraction_literal l ht, ok_bind,
    exponent_literal l ht]

theorem nextItem_comma (hb : Blanks b) (hb' : Blanks b') (ht : Starts t) (first : Bool)
    (rest : List Char) :
    ∃ c, Blanks c ∧
      nextItem first (b ++ (comma first ++ (b' ++ (t ++ rest)))) = .ok (true, c ++ t ++ rest) := by
  have hs := ht.skipBlank_eq hb' rest
  cases first with
  | true =>
    obtain ⟨c, u, rfl, -, hc, hc', -⟩ := ht
    rw [List.append_assoc, List.cons_append] at hs
    refine ⟨[], blanks_nil, ?_⟩
    simp [nextItem, skipBlank_no_comma hb, hs]
  | false => exact ⟨b', hb', by simp [nextItem, skipBlank_comma hb]⟩

theorem nextItem_close (hb : Blanks b) (first : Bool) (rest : List Char) :
    nextItem first (b ++ ']' :: rest) = .ok (false, rest) := by
  simp [nextItem, skipBlank_append_cons hb (c := ']') (by decide)]

theorem nextMember_comma (hb : Blanks b) (hb' : Blanks b') (ht : Starts t) (first : Bool)
    (rest : List Char) :
    ∃ c, Blanks c ∧
      nextMember first (b ++ (comma first ++ (b' ++ (t ++ rest)))) =
        .ok (true, c ++ t ++ rest) := by
  have hs := ht.skipBlank_eq hb' rest
  cases first with
  | true =>
    obtain ⟨c, u, rfl, -, hc, -, hc'⟩ := ht
    rw [List.append_assoc, List.cons_append] at hs
    refine ⟨[], blanks_nil, ?_⟩
    simp [nextMember, skipBlank_no_comma hb, hs]
  | false => exact ⟨b', hb', by simp [nextMember, skipBlank_comma hb]⟩

theorem nextMember_close (hb : Blanks b) (first : Bool) (rest : List Char) :
    nextMember first (b ++ '}' :: rest) = .ok (false, rest) := by
  simp [nextMember, skipBlank_append_cons hb (c := '}') (by decide)]

theorem key_append {s : List Char} (hs : Loose s) {steps : Nat} (hl : s.length < steps)
    (hb : Blanks b) (hb' : Blanks b') (t : List Char) :
    key steps (b ++ '"' :: (s ++ '"' :: (b' ++ ':' :: t))) = .ok t := by
  rw [key, skipBlank_append_cons hb (by decide)]
  simp only [string_loose hs hl, ok_bind, skipBlank_append_cons hb' (c := ':') (by decide)]
  rfl

section Listed

variable {κ α : Type} {value : List Char → Except Stop (List Char)} {K : κ → List Char → Prop}
  {P : α → List Char → Prop}

theorem items_listed (hstarts : ∀ a t, P a t → Starts t)
    (hvalue : ∀ a b t rest, P a t → Blanks b → Delimited rest → value (b ++ t ++ rest) = .ok rest)
    {first : Bool} {as : List α} {u : List Char} (h : Listed P first as u) {steps : Nat}
    (hl : u.length < steps) (rest : List Char) :
    items value steps first (u ++ ']' :: rest) = .ok rest := by
  induction h generalizing steps with
  | nil hb =>
    obtain ⟨steps, rfl⟩ := Nat.exists_eq_add_of_lt hl
    simp [items, nextItem_close hb]
    rfl
  | @cons first a as b b' t u hb hb' ht has ih =>
    have hp := (hstarts a t ht).length_pos
    simp only [List.length_append] at hl
    obtain ⟨steps, rfl⟩ : ∃ k, steps = k + 1 := ⟨steps - 1, by omega⟩
    obtain ⟨c, hc, hn⟩ := nextItem_comma hb hb' (hstarts a t ht) first (u ++ ']' :: rest)
    have hv := hvalue a c t (u ++ ']' :: rest) ht hc (has.delimited (.inl rfl))
    simp only [List.append_assoc] at hn hv ⊢
    simp only [items, hn, ok_bind, hv]
    exact ih (by omega)

theorem member_labelled (hkey : ∀ k s, K k s → Loose s)
    (hvalue : ∀ a b t rest, P a t → Blanks b → Delimited rest → value (b ++ t ++ rest) = .ok rest)
    {m : κ × α} (h : Labelled K P m t) (hb : Blanks b) (hr : Delimited rest) {steps : Nat}
    (hl : t.length ≤ steps) : ∃ u, key steps (b ++ t ++ rest) = .ok u ∧ value u = .ok rest := by
  cases h with
  | @mk k a s c c' t hs hc hc' ht =>
    simp only [List.length_append, List.length_cons] at hl
    refine ⟨c' ++ t ++ rest, ?_, hvalue a c' t rest ht hc' hr⟩
    have hk := key_append (hkey k s hs) (show s.length < steps by omega) hb hc (c' ++ t ++ rest)
    simpa only [List.append_assoc, List.cons_append] using hk

theorem members_listed (hkey : ∀ k s, K k s → Loose s)
    (hvalue : ∀ a b t rest, P a t → Blanks b → Delimited rest → value (b ++ t ++ rest) = .ok rest)
    {first : Bool} {ms : List (κ × α)} {u : List Char} (h : Listed (Labelled K P) first ms u)
    {steps : Nat} (hl : u.length < steps) (rest : List Char) :
    members value steps first (u ++ '}' :: rest) = .ok rest := by
  induction h generalizing steps with
  | nil hb =>
    obtain ⟨steps, rfl⟩ := Nat.exists_eq_add_of_lt hl
    simp [members, nextMember_close hb]
    rfl
  | @cons first m ms b b' t u hb hb' hm hms ih =>
    have hp := hm.starts.length_pos
    simp only [List.length_append] at hl
    obtain ⟨steps, rfl⟩ : ∃ k, steps = k + 1 := ⟨steps - 1, by omega⟩
    obtain ⟨c, hc, hn⟩ := nextMember_comma hb hb' hm.starts first (u ++ '}' :: rest)
    have hd : Delimited (u ++ '}' :: rest) := hms.delimited (.inr rfl)
    obtain ⟨t', hk, hv⟩ := member_labelled hkey hvalue hm hc hd (show t.length ≤ steps by omega)
    simp only [List.append_assoc] at hn hk ⊢
    simp only [members, hn, ok_bind, hk, hv]
    exact ih (by omega)

end Listed

theorem value_of_isDigit {c : Char} (hc : c.isDigit = true) (steps : Nat)
    (h : skipBlank t = c :: rest) : value (steps + 1) t = number (c :: rest) := by
  rw [value, h]
  split
  case h_9 =>
    rename_i heq
    cases heq
    exact if_pos hc
  all_goals
    rename_i heq
    cases heq
  all_goals cases hc

theorem value_literal (l : Literal) (hb : Blanks b) (hr : Delimited rest) (steps : Nat) :
    value (steps + 1) (b ++ l.text ++ rest) = .ok rest := by
  have hs := l.starts_text.skipBlank_eq hb rest
  have hn := number_literal l hr
  rw [Literal.text] at hs ⊢
  split at hs
  · rw [if_pos ‹_›, value, hs]
    exact hn
  · obtain ⟨c, u, hc, hd⟩ := l.exists_unsigned_eq_cons
    rw [if_neg ‹_›, value_of_isDigit hd steps (hs.trans (congrArg (· ++ rest) hc))]
    rw [hc] at hn
    exact hn

theorem value_scalar (h : Scalar t) (hb : Blanks b) (hr : Delimited rest) {steps : Nat}
    (hl : t.length ≤ steps) : value steps (b ++ t ++ rest) = .ok rest := by
  have hp := h.starts.length_pos
  obtain ⟨steps, rfl⟩ : ∃ k, steps = k + 1 := ⟨steps - 1, by omega⟩
  have hs := h.starts.skipBlank_eq hb rest
  cases h with
  | null => rw [value, hs]; exact readLiteral_append _ rest
  | true => rw [value, hs]; exact readLiteral_append _ rest
  | false => rw [value, hs]; exact readLiteral_append _ rest
  | number l => exact value_literal l hb hr steps
  | string hk =>
    simp only [List.cons_append, List.length_cons, List.length_append, List.length_nil] at hl
    rw [value, hs]
    simp only [List.append_assoc, List.cons_append, List.nil_append]
    exact string_loose hk (by omega) rest

/-- Only a scalar has to be closed off by what follows it. -/
theorem value_formed {depth : Nat} (h : Formed depth t) (hb : Blanks b)
    (hr : Scalar t → Delimited rest) {steps : Nat} (hl : t.length ≤ steps) :
    value steps (b ++ t ++ rest) = .ok rest := by
  induction depth generalizing b t rest steps with
  | zero => exact value_scalar h hb (hr h) hl
  | succ depth ih =>
    have hs := h.starts.skipBlank_eq hb rest
    rcases h with h | ⟨xs, u, rfl, hu⟩ | ⟨ms, u, rfl, hu⟩
    · exact value_scalar h hb (hr h) hl
    · simp only [List.length_cons, List.length_append, List.length_nil] at hl
      obtain ⟨steps, rfl⟩ : ∃ k, steps = k + 1 := ⟨steps - 1, by omega⟩
      have hi : Listed (fun x t => t.length ≤ steps ∧ Piece (Formed depth) x t) true xs u :=
        hu.imp fun x _ t ht hx => ⟨by omega, hx⟩
      rw [value, hs]
      simp only [List.append_assoc, List.cons_append, List.nil_append]
      exact items_listed (fun x t h => h.2.2.starts)
        (fun x b t rest h hb hr => ih h.2.2 hb (fun _ => hr) h.1) hi (by omega) rest
    · simp only [List.length_cons, List.length_append, List.length_nil] at hl
      obtain ⟨steps, rfl⟩ : ∃ k, steps = k + 1 := ⟨steps - 1, by omega⟩
      have hi : Listed (Labelled (Piece Loose)
          fun x t => t.length ≤ steps ∧ Piece (Formed depth) x t) true ms u :=
        hu.imp fun m _ t ht hm => hm.imp fun x hl hx => ⟨by omega, hx⟩
      rw [value, hs]
      simp only [List.append_assoc, List.cons_append, List.nil_append]
      exact members_listed (fun k s h => h.2)
        (fun x b t rest h hb hr => ih h.2.2 hb (fun _ => hr) h.1) hi (by omega) rest

theorem value_written {v : Value} (h : Written v t) (hb : Blanks b) (hr : Delimited rest)
    {steps : Nat} (hl : t.length ≤ steps) : value steps (b ++ t ++ rest) = .ok rest :=
  value_formed (h.formed (Nat.le_refl _)) hb (fun _ => hr) hl

end Skip

theorem IsDocument.exists_skip (h : IsDocument t) :
    ∃ b, Blanks b ∧ Skip.value t.length t = .ok b := by
  obtain ⟨b, u, b', rfl, hb, ⟨depth, hu⟩, hb'⟩ := h
  refine ⟨b', hb', Skip.value_formed hu hb (fun _ => hb'.delimited_end) ?_⟩
  simp only [List.length_append]
  omega

end ModelBindings.Json
