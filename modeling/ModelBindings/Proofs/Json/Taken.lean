import Mathlib.Data.List.TakeWhile
import ModelBindings.Proofs.Json.Skip

namespace ModelBindings.Json

variable {t rest : List Char}

theorem exists_skipBlank (t : List Char) : ∃ b, Blanks b ∧ t = b ++ skipBlank t :=
  ⟨t.takeWhile isBlank, fun _ hc => List.mem_takeWhile_imp hc, List.takeWhile_append_dropWhile.symm⟩

theorem exists_blanks_of_skipBlank {u : List Char} (h : skipBlank t = u) :
    ∃ b, Blanks b ∧ t = b ++ u := by
  obtain ⟨b, hb, ht⟩ := exists_skipBlank t
  exact ⟨b, hb, h ▸ ht⟩

theorem eq_append_of_readLiteral {es : List Char} (h : readLiteral es t = .ok rest) :
    t = es ++ rest := by
  induction es generalizing t with
  | nil => cases h; rfl
  | cons e es ih =>
    cases t with
    | nil => cases h
    | cons c t =>
      rw [readLiteral] at h
      split at h
      · rename_i hc
        rw [hc, ih h, List.cons_append]
      · cases h

theorem hexUnit_of_readHex {n : Nat} (h : readHex t = .ok (n, rest)) :
    ∃ a b c d, t = a :: b :: c :: d :: rest ∧ hexUnit? a b c d = some n := by
  have hstop {u : List Char} : (stopInHex u : Except Stop (Nat × List Char)) ≠ .ok (n, rest) := by
    rw [stopInHex]
    split <;> nofun
  rw [readHex.eq_def] at h
  split at h
  · rename_i a b c d u
    split at h
    · rename_i hn
      cases h
      exact ⟨a, b, c, d, rfl, hn⟩
    · exact absurd h hstop
  · exact absurd h hstop

theorem eq_of_readPairMark (h : readPairMark t = .ok rest) : t = '\\' :: 'u' :: rest := by
  rw [readPairMark.eq_def] at h
  split at h <;> cases h
  rfl

theorem spelled_of_readUnicode {c : Char} (h : readUnicode t = .ok (c, rest)) :
    ∃ u, '\\' :: 'u' :: t = u ++ rest ∧ Spelled c u := by
  obtain ⟨⟨n, t₁⟩, hn, h₁⟩ := bind_eq_ok_iff.mp h
  obtain ⟨a, b, c, d, rfl, hu⟩ := hexUnit_of_readHex hn
  dsimp only at h₁
  split at h₁
  · cases h₁
  · split at h₁
    · rename_i hh
      obtain ⟨t₂, hp, h₂⟩ := bind_eq_ok_iff.mp h₁
      obtain ⟨⟨m, t₃⟩, hm, h₃⟩ := bind_eq_ok_iff.mp h₂
      cases eq_of_readPairMark hp
      obtain ⟨a', b', c', d', rfl, hu'⟩ := hexUnit_of_readHex hm
      dsimp only at h₃
      split at h₃
      · rename_i hl
        obtain ⟨rfl, rfl⟩ := Prod.mk.inj (pure_eq_ok_iff.mp h₃)
        exact ⟨_, rfl, .pair hu hh hu' hl⟩
      · cases h₃
    · rename_i hl hh
      cases h₁
      exact ⟨_, rfl, .unit hu (Bool.eq_false_iff.mpr hl) (Bool.eq_false_iff.mpr hh)⟩

theorem spelled_of_readEscape {c : Char} (h : readEscape t = .ok (c, rest)) :
    ∃ u, '\\' :: t = u ++ rest ∧ Spelled c u := by
  rw [readEscape.eq_def] at h
  split at h
  · cases h
  · exact spelled_of_readUnicode h
  · split at h
    · rename_i he
      cases h
      exact ⟨_, rfl, .short he⟩
    · cases h

theorem spelling_of_readCharacters {steps : Nat} {cs : List Char}
    (h : readCharacters steps t = .ok (cs, rest)) :
    ∃ s, t = s ++ '"' :: rest ∧ Spelling cs s := by
  fun_induction readCharacters steps t generalizing cs with
  | case1 | case2 => cases h
  | case3 steps t =>
    cases h
    exact ⟨[], rfl, .nil⟩
  | case4 steps t ih =>
    obtain ⟨⟨c, t₁⟩, hc, h⟩ := bind_eq_ok_iff.mp h
    obtain ⟨⟨cs, t₂⟩, hcs, h⟩ := bind_eq_ok_iff.mp h
    cases h
    obtain ⟨u, hu, hs⟩ := spelled_of_readEscape hc
    obtain ⟨s, rfl, hss⟩ := ih _ hcs
    exact ⟨u ++ s, by rw [hu, List.append_assoc], .cons hs hss⟩
  | case5 => cases h
  | case6 steps c t hq hb hc ih =>
    obtain ⟨⟨cs, t₂⟩, hcs, h⟩ := bind_eq_ok_iff.mp h
    cases h
    obtain ⟨s, rfl, hss⟩ := ih hcs
    exact ⟨[c] ++ s, rfl, .cons (.plain hq hb (Nat.not_lt.mp hc)) hss⟩

theorem spelling_of_readString {steps : Nat} {k : String} (h : readString steps t = .ok (k, rest)) :
    ∃ s, t = s ++ '"' :: rest ∧ Spells k s := by
  obtain ⟨⟨cs, t₁⟩, hcs, h⟩ := bind_eq_ok_iff.mp h
  cases h
  obtain ⟨s, rfl, hs⟩ := spelling_of_readCharacters hcs
  exact ⟨s, rfl, by rwa [Spells, String.toList_ofList]⟩

theorem digits_of_digitsOf {ds : List Char} (h : digitsOf t = (ds, rest)) (hn : ds ≠ []) :
    t = ds ++ rest ∧ Digits ds := by
  cases h
  exact ⟨List.takeWhile_append_dropWhile.symm, hn, fun _ hd => List.mem_takeWhile_imp hd⟩

theorem digitsOf_cons {c : Char} (hc : c.isDigit = true) (t : List Char) :
    digitsOf (c :: t) = (c :: (digitsOf t).1, (digitsOf t).2) := by
  simp [digitsOf, hc]

theorem whole_of_readWhole {x : Numeral} (h : readWhole t = .ok (x, rest)) :
    ∃ w, t = w ++ rest ∧ x = .ofDigits w ∧ (w = ['0'] ∨ Digits w ∧ w.head? ≠ some '0') := by
  rw [readWhole.eq_def] at h
  split at h
  · cases h
  · split at h
    · cases h
      exact ⟨['0'], rfl, rfl, .inl rfl⟩
    · split at h
      · cases h
      · cases h
        exact ⟨['0'], rfl, rfl, .inl rfl⟩
  · rename_i c t hc
    split at h
    · rename_i hd
      have hds := digitsOf_cons hd t
      rw [hds] at h
      cases h
      obtain ⟨ht, hw⟩ := digits_of_digitsOf hds (List.cons_ne_nil _ _)
      exact ⟨_, ht, rfl, .inr ⟨hw, fun h0 => hc (Option.some.inj h0)⟩⟩
    · cases h

theorem fraction_of_readFraction {x y : Numeral} (h : readFraction x t = .ok (y, rest)) :
    ∃ f : Option { ds : List Char // Digits ds },
      t = (match f with | none => [] | some ds => '.' :: ds.val) ++ rest ∧
      y = match f with | none => x | some ds => x.addFraction ds := by
  rw [readFraction.eq_def] at h
  split at h
  · rename_i t
    split at h
    · cases h
    · cases h
    · rename_i ds t₁ _ hn hds
      cases h
      obtain ⟨rfl, hd⟩ := digits_of_digitsOf hds hn
      exact ⟨some ⟨ds, hd⟩, rfl, rfl⟩
  · cases h
    exact ⟨none, rfl, rfl⟩

theorem sign_of_readSign (t : List Char) :
    ∃ s, t = s ++ (readSign t).2 ∧ (s = [] ∨ s = ['+'] ∨ s = ['-']) ∧
      (readSign t).1 = decide (s = ['-']) := by
  fun_cases readSign t with
  | case1 t => exact ⟨['+'], rfl, .inr (.inl rfl), rfl⟩
  | case2 t => exact ⟨['-'], rfl, .inr (.inr rfl), rfl⟩
  | case3 => exact ⟨[], rfl, .inl rfl, rfl⟩

theorem scale_of_readPower {x y : Numeral} {negative : Bool}
    (h : readPower x negative t = .ok (y, rest)) :
    ∃ ds, t = ds ++ rest ∧ Digits ds ∧
      ∀ w : Power, w.digits = ds → w.negative = negative → w.scale? x = some y := by
  rw [readPower.eq_def] at h
  split at h
  · cases h
  · cases h
  · rename_i ds t₁ _ hn hds
    have hrest : t₁ = rest := by
      dsimp only at h
      split at h
      · cases h; rfl
      · split at h <;> cases h; rfl
    subst hrest
    obtain ⟨ht, hd⟩ := digits_of_digitsOf hds hn
    refine ⟨ds, ht, hd, fun w hw hneg => ?_⟩
    simp only [Power.scale?, hw, hneg]
    dsimp only at h
    split at h
    · rename_i hl
      cases h
      rw [if_pos hl]
    · rename_i hl
      rw [if_neg hl]
      split at h
      · cases h
      · rename_i hz
        cases h
        rw [if_neg hz]

theorem power_of_readExponent {x y : Numeral} (h : readExponent x t = .ok (y, rest)) :
    ∃ p : Option Power,
      t = (match p with | none => [] | some w => w.text) ++ rest ∧
      (match p with | none => some x | some w => w.scale? x) = some y := by
  rw [readExponent.eq_def] at h
  split at h
  · cases h
    exact ⟨none, rfl, rfl⟩
  · split at h
    · rename_i c t hc
      dsimp only at h
      obtain ⟨s, ht, hs, hneg⟩ := sign_of_readSign t
      obtain ⟨ds, hds, hd, hscale⟩ := scale_of_readPower h
      refine ⟨some ⟨c, s, ds, hc, hs, hd⟩, ?_, hscale _ rfl hneg.symm⟩
      rw [hds] at ht
      simp [Power.text, ht]
    · cases h
      exact ⟨none, rfl, rfl⟩

theorem literal_of_readNumber {negative : Bool} {n : Number}
    (h : readNumber negative t = .ok (n, rest)) :
    ∃ l : Literal, l.negative = negative ∧ t = l.unsigned ++ rest ∧ l.value? = some n := by
  obtain ⟨⟨x, t₃⟩, hx, hn⟩ := bind_eq_ok_iff.mp h
  obtain ⟨⟨x₁, t₁⟩, h₁, hx⟩ := bind_eq_ok_iff.mp hx
  obtain ⟨⟨x₂, t₂⟩, h₂, h₃⟩ := bind_eq_ok_iff.mp hx
  obtain ⟨w, rfl, rfl, hw⟩ := whole_of_readWhole h₁
  obtain ⟨f, rfl, rfl⟩ := fraction_of_readFraction h₂
  obtain ⟨p, rfl, hp⟩ := power_of_readExponent h₃
  let l : Literal := ⟨negative, w, f, p, hw⟩
  have hl : l.numeral? = some x := hp
  dsimp only at hn
  split at hn
  · rename_i hv
    cases hn
    refine ⟨l, rfl, ?_, ?_⟩
    · rw [Literal.unsigned, List.append_assoc, List.append_assoc]
      rfl
    · rw [Literal.value?, hl]
      exact hv
  · cases hn

inductive Opened : Opening → List Char → Prop where
  | scalar {v : Value} {u rest : List Char} : Written v u → v.height = 0 →
      Opened (.scalar v rest) (u ++ rest)
  | list {rest : List Char} : Opened (.list rest) ('[' :: rest)
  | object {rest : List Char} : Opened (.object rest) ('{' :: rest)

theorem opened_number {negative : Bool} {n : Number} (h : readNumber negative t = .ok (n, rest)) :
    Opened (.scalar (.number n) rest) (if negative then '-' :: t else t) := by
  obtain ⟨l, rfl, rfl, hv⟩ := literal_of_readNumber h
  have hl : (if l.negative then '-' :: (l.unsigned ++ rest) else l.unsigned ++ rest) =
      l.text ++ rest := by
    rw [Literal.text]
    split <;> rfl
  rw [hl]
  exact .scalar (.number hv) rfl

theorem opened_literal {v : Value} {c : Char} {es : List Char} {o : Opening}
    (hv : Written v (c :: es)) (hh : v.height = 0)
    (h : (do return .scalar v (← readLiteral es t)) = Except.ok o) : Opened o (c :: t) := by
  obtain ⟨rest, hr, h⟩ := bind_eq_ok_iff.mp h
  cases h
  cases eq_append_of_readLiteral hr
  exact .scalar hv hh

theorem opened_string {steps : Nat} {k : String} (h : readString steps t = .ok (k, rest)) :
    Opened (.scalar (.string k) rest) ('"' :: t) := by
  obtain ⟨s, rfl, hs⟩ := spelling_of_readString h
  have ht : '"' :: (s ++ '"' :: rest) = ('"' :: s ++ ['"']) ++ rest := by simp
  rw [ht]
  exact .scalar (.string hs) rfl

theorem opened_of_openValue {steps : Nat} {o : Opening} (h : openValue steps t = .ok o) :
    ∃ b u, t = b ++ u ∧ Blanks b ∧ Opened o u := by
  rw [openValue] at h
  split at h
  · cases h
  all_goals
    rename_i heq
    obtain ⟨b, hb, rfl⟩ := exists_blanks_of_skipBlank heq
    refine ⟨b, _, rfl, hb, ?_⟩
  · exact opened_literal .null rfl h
  · exact opened_literal .true rfl h
  · exact opened_literal .false rfl h
  · obtain ⟨⟨s, t₁⟩, hs, h⟩ := bind_eq_ok_iff.mp h
    cases h
    exact opened_string hs
  · obtain ⟨⟨n, t₁⟩, hn, h⟩ := bind_eq_ok_iff.mp h
    cases h
    exact opened_number hn
  · cases h
    exact .list
  · cases h
    exact .object
  · split at h
    · obtain ⟨⟨n, t₁⟩, hn, h⟩ := bind_eq_ok_iff.mp h
      cases h
      exact opened_number hn
    · cases h

end ModelBindings.Json
