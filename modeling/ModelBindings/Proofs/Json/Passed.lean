import ModelBindings.Proofs.Json.Sound

namespace ModelBindings.Json

variable {t rest : List Char}

def Passes {ε : Type} (P : List Char → Prop) (f : List Char → Except ε (List Char)) : Prop :=
  ∀ ⦃t rest⦄, f t = .ok rest → ∃ b u, t = b ++ (u ++ rest) ∧ Blanks b ∧ P u

namespace Skip

theorem loose_of_escape {u : List Char} (h : escape t = .ok u) :
    ∃ e, '\\' :: t = e ++ u ∧ Loose e := by
  rw [escape.eq_def] at h
  split at h
  · cases h
  · obtain ⟨⟨n, t₁⟩, hn, h⟩ := bind_eq_ok_iff.mp h
    cases h
    obtain ⟨a, b, c, d, rfl, hu⟩ := hexUnit_of_readHex hn
    exact ⟨_, rfl, .unit hu .nil⟩
  · split at h
    · rename_i he
      cases h
      exact ⟨_, rfl, .short he .nil⟩
    · cases h

theorem loose_of_string {steps : Nat} (h : string steps t = .ok rest) :
    ∃ s, t = s ++ '"' :: rest ∧ Loose s := by
  fun_induction string steps t with
  | case1 | case2 => cases h
  | case3 steps t =>
    cases h
    exact ⟨[], rfl, .nil⟩
  | case4 steps t ih =>
    obtain ⟨u, he, h⟩ := bind_eq_ok_iff.mp h
    obtain ⟨e, ht, hl⟩ := loose_of_escape he
    obtain ⟨s, rfl, hs⟩ := ih _ h
    exact ⟨e ++ s, by rw [ht, List.append_assoc], hl.append hs⟩
  | case5 => cases h
  | case6 steps c t hq hb hc ih =>
    obtain ⟨s, rfl, hs⟩ := ih h
    exact ⟨c :: s, rfl, .plain hq hb (Nat.not_lt.mp hc) hs⟩

theorem whole_of_whole (h : whole t = .ok rest) :
    ∃ w, t = w ++ rest ∧ (w = ['0'] ∨ Digits w ∧ w.head? ≠ some '0') := by
  rw [whole.eq_def] at h
  split at h
  · cases h
  · split at h
    · cases h
      exact ⟨['0'], rfl, .inl rfl⟩
    · split at h
      · cases h
      · cases h
        exact ⟨['0'], rfl, .inl rfl⟩
  · rename_i c t hc
    split at h
    · rename_i hd
      cases h
      obtain ⟨ht, hw⟩ := digits_of_digitsOf (digitsOf_cons hd t) (List.cons_ne_nil _ _)
      exact ⟨_, ht, .inr ⟨hw, fun h0 => hc (Option.some.inj h0)⟩⟩
    · cases h

theorem fraction_of_fraction (h : fraction t = .ok rest) :
    ∃ f : Option { ds : List Char // Digits ds },
      t = (match f with | none => [] | some ds => '.' :: ds.val) ++ rest := by
  rw [fraction.eq_def] at h
  split at h
  · split at h
    · cases h
    · rename_i ds t₁ hn hds
      cases h
      obtain ⟨rfl, hd⟩ := digits_of_digitsOf hds hn
      exact ⟨some ⟨ds, hd⟩, rfl⟩
  · cases h
    exact ⟨none, rfl⟩

theorem power_of_exponent (h : exponent t = .ok rest) :
    ∃ p : Option Power, t = (match p with | none => [] | some w => w.text) ++ rest := by
  rw [exponent.eq_def] at h
  split at h
  · cases h
    exact ⟨none, rfl⟩
  · split at h
    · rename_i c t hc
      obtain ⟨s, ht, hs, -⟩ := sign_of_readSign t
      split at h
      · cases h
      · rename_i ds t₁ hn hds
        cases h
        obtain ⟨hu, hd⟩ := digits_of_digitsOf hds hn
        rw [hu] at ht
        exact ⟨some ⟨c, s, ds, hc, hs, hd⟩, by simp [Power.text, ht]⟩
    · cases h
      exact ⟨none, rfl⟩

theorem literal_of_number (h : number t = .ok rest) (negative : Bool) :
    ∃ l : Literal, l.negative = negative ∧ t = l.unsigned ++ rest := by
  obtain ⟨t₁, h₁, h⟩ := bind_eq_ok_iff.mp h
  obtain ⟨t₂, h₂, h₃⟩ := bind_eq_ok_iff.mp h
  obtain ⟨w, rfl, hw⟩ := whole_of_whole h₁
  obtain ⟨f, rfl⟩ := fraction_of_fraction h₂
  obtain ⟨p, rfl⟩ := power_of_exponent h₃
  refine ⟨⟨negative, w, f, p, hw⟩, rfl, ?_⟩
  rw [Literal.unsigned, List.append_assoc, List.append_assoc]
  rfl

theorem stepped_of_nextItem {first more : Bool} (h : nextItem first t = .ok (more, rest)) :
    Stepped ']' first more t rest := by
  rw [nextItem] at h
  split at h
  · cases h
  · rename_i heq
    obtain ⟨b, hb, rfl⟩ := exists_blanks_of_skipBlank heq
    cases h
    exact .done hb
  · rename_i heq
    obtain ⟨b, hb, rfl⟩ := exists_blanks_of_skipBlank heq
    refine .of_ite hb h fun h => ?_
    cases h
    exact .comma hb blanks_nil _
  · rename_i heq
    obtain ⟨b, hb, rfl⟩ := exists_blanks_of_skipBlank heq
    refine .of_ite hb h fun h => ?_
    cases h

theorem stepped_of_nextMember {first more : Bool} (h : nextMember first t = .ok (more, rest)) :
    Stepped '}' first more t rest := by
  rw [nextMember] at h
  split at h
  · cases h
  · rename_i heq
    obtain ⟨b, hb, rfl⟩ := exists_blanks_of_skipBlank heq
    cases h
    exact .done hb
  · rename_i heq
    obtain ⟨b, hb, rfl⟩ := exists_blanks_of_skipBlank heq
    refine .of_ite hb h fun h => ?_
    cases h
    exact .comma hb blanks_nil _
  · rename_i heq
    obtain ⟨b, hb, rfl⟩ := exists_blanks_of_skipBlank heq
    refine .of_ite hb h fun h => ?_
    cases h

theorem loose_of_key {steps : Nat} (h : key steps t = .ok rest) :
    ∃ b s b', t = b ++ '"' :: (s ++ '"' :: (b' ++ ':' :: rest)) ∧ Blanks b ∧ Loose s ∧
      Blanks b' := by
  rw [key] at h
  split at h
  · cases h
  · rename_i heq
    obtain ⟨b, hb, rfl⟩ := exists_blanks_of_skipBlank heq
    obtain ⟨t₁, hs, hc⟩ := bind_eq_ok_iff.mp h
    obtain ⟨s, rfl, hl⟩ := loose_of_string hs
    split at hc
    · cases hc
    · rename_i heq'
      obtain ⟨b', hb', rfl⟩ := exists_blanks_of_skipBlank heq'
      cases hc
      exact ⟨b, s, b', rfl, hb, hl, hb'⟩
    · cases hc
  · cases h

section Listed

variable {value : List Char → Except Stop (List Char)} {F : List Char → Prop} {steps : Nat}
  {first : Bool}

theorem listed_of_items (hvalue : Passes F value) (h : items value steps first t = .ok rest) :
    ∃ xs u, t = u ++ ']' :: rest ∧ Listed (Piece F) first xs u := by
  induction steps generalizing first t with
  | zero => cases h
  | succ steps ih =>
    obtain ⟨⟨more, t₁⟩, hn, h⟩ := bind_eq_ok_iff.mp h
    have hstep := stepped_of_nextItem hn
    cases more with
    | false =>
      cases h
      exact ⟨[], hstep.nil⟩
    | true =>
      obtain ⟨t₂, hv, hxs⟩ := bind_eq_ok_iff.mp h
      obtain ⟨b, x, rfl, hb, hx⟩ := hvalue hv
      obtain ⟨xs, u, rfl, hu⟩ := ih hxs
      exact ⟨x :: xs, hstep.cons hb ⟨rfl, hx⟩ hu⟩

theorem listed_of_members (hvalue : Passes F value) (h : members value steps first t = .ok rest) :
    ∃ ms u, t = u ++ '}' :: rest ∧ Listed (Labelled (Piece Loose) (Piece F)) first ms u := by
  induction steps generalizing first t with
  | zero => cases h
  | succ steps ih =>
    obtain ⟨⟨more, t₁⟩, hn, h⟩ := bind_eq_ok_iff.mp h
    have hstep := stepped_of_nextMember hn
    cases more with
    | false =>
      cases h
      exact ⟨[], hstep.nil⟩
    | true =>
      obtain ⟨t₂, hk, h⟩ := bind_eq_ok_iff.mp h
      obtain ⟨t₃, hv, hms⟩ := bind_eq_ok_iff.mp h
      obtain ⟨b, s, c, rfl, hb, hs, hc⟩ := loose_of_key hk
      obtain ⟨c', x, rfl, hc', hx⟩ := hvalue hv
      obtain ⟨ms, u, rfl, hu⟩ := ih hms
      exact ⟨(s, x) :: ms, (hstep.blanks hb).member ⟨rfl, hs⟩ hc hc' ⟨rfl, hx⟩ hu⟩

end Listed

theorem passes_value (steps : Nat) : Passes (Formed steps) (value steps) := by
  induction steps with
  | zero => nofun
  | succ steps ih =>
    intro t rest h
    rw [value] at h
    split at h
    · cases h
    all_goals
      rename_i heq
      obtain ⟨b, hb, rfl⟩ := exists_blanks_of_skipBlank heq
    · cases eq_append_of_readLiteral h
      exact ⟨b, _, rfl, hb, .of_scalar .null⟩
    · cases eq_append_of_readLiteral h
      exact ⟨b, _, rfl, hb, .of_scalar .true⟩
    · cases eq_append_of_readLiteral h
      exact ⟨b, _, rfl, hb, .of_scalar .false⟩
    · obtain ⟨s, rfl, hs⟩ := loose_of_string h
      exact ⟨b, _, by rw [cons_append_close], hb, .of_scalar (.string hs)⟩
    · obtain ⟨l, hl, rfl⟩ := literal_of_number h true
      refine ⟨b, l.text, ?_, hb, .of_scalar (.number l)⟩
      rw [Literal.text, hl]
      rfl
    · obtain ⟨xs, u, rfl, hu⟩ := listed_of_items ih h
      exact ⟨b, '[' :: (u ++ [']']), by simp, hb, .inr (.inl ⟨xs, u, rfl, hu⟩)⟩
    · obtain ⟨ms, u, rfl, hu⟩ := listed_of_members ih h
      exact ⟨b, '{' :: (u ++ ['}']), by simp, hb, .inr (.inr ⟨ms, u, rfl, hu⟩)⟩
    · split at h
      · obtain ⟨l, hl, hu⟩ := literal_of_number h false
        refine ⟨b, l.text, ?_, hb, .of_scalar (.number l)⟩
        rw [Literal.text, hl, hu]
        rfl
      · cases h

end Skip

end ModelBindings.Json
