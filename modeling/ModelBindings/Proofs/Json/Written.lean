import ModelBindings.Json.Reader

/-!
How a JSON value may be written: blanks between the tokens, escapes in strings, and any numeral for
a number. `Written` knows nothing of reading.
-/

namespace ModelBindings.Json

def Blanks (t : List Char) : Prop := ∀ c ∈ t, isBlank c = true

def Digits (ds : List Char) : Prop := ds ≠ [] ∧ ∀ d ∈ ds, d.isDigit = true

inductive Spelled : Char → List Char → Prop where
  | plain {c : Char} : c ≠ '"' → c ≠ '\\' → 0x20 ≤ c.toNat → Spelled c [c]
  | short {e c : Char} : simpleEscape? e = some c → Spelled c ['\\', e]
  | unit {a b c d : Char} {n : Nat} : hexUnit? a b c d = some n → isLowSurrogate n = false →
      isHighSurrogate n = false → Spelled (Char.ofNat n) ['\\', 'u', a, b, c, d]
  | pair {a b c d a' b' c' d' : Char} {n m : Nat} : hexUnit? a b c d = some n →
      isHighSurrogate n = true → hexUnit? a' b' c' d' = some m → isLowSurrogate m = true →
      Spelled (joinSurrogates n m) ['\\', 'u', a, b, c, d, '\\', 'u', a', b', c', d']

inductive Spelling : List Char → List Char → Prop where
  | nil : Spelling [] []
  | cons {c : Char} {cs u t : List Char} :
      Spelled c u → Spelling cs t → Spelling (c :: cs) (u ++ t)

structure Power where
  letter : Char
  sign : List Char
  digits : List Char
  letter_eq : letter = 'e' ∨ letter = 'E'
  sign_eq : sign = [] ∨ sign = ['+'] ∨ sign = ['-']
  digits_ok : Digits digits

namespace Power

def text (w : Power) : List Char := w.letter :: (w.sign ++ w.digits)

def negative (w : Power) : Bool := w.sign = ['-']

def scale? (w : Power) (x : Numeral) : Option Numeral :=
  let (n, _, left) := absorb maxExponent 0 w.digits
  let e : Int := n
  if left.isEmpty then
    some ⟨x.digits, if w.negative then x.exponent - e else x.exponent + e, false⟩
  else if x.digits ≠ 0 ∧ w.negative = false then none
  else some ⟨0, 0, false⟩

end Power

structure Literal where
  negative : Bool
  whole : List Char
  fraction : Option { ds : List Char // Digits ds }
  power : Option Power
  whole_ok : whole = ['0'] ∨ Digits whole ∧ whole.head? ≠ some '0'

namespace Literal

def fractionText (l : Literal) : List Char :=
  match l.fraction with
  | none => []
  | some ds => '.' :: ds

def powerText (l : Literal) : List Char :=
  match l.power with
  | none => []
  | some w => w.text

def unsigned (l : Literal) : List Char := l.whole ++ (l.fractionText ++ l.powerText)

def text (l : Literal) : List Char := if l.negative then '-' :: l.unsigned else l.unsigned

def mantissa (l : Literal) : Numeral :=
  match l.fraction with
  | none => .ofDigits l.whole
  | some ds => (Numeral.ofDigits l.whole).addFraction ds

def numeral? (l : Literal) : Option Numeral :=
  match l.power with
  | none => some l.mantissa
  | some w => w.scale? l.mantissa

def value? (l : Literal) : Option Number := l.numeral?.bind (Numeral.value? l.negative)

end Literal

def comma (first : Bool) : List Char := if first then [] else [',']

inductive Listed {α : Type} (P : α → List Char → Prop) : Bool → List α → List Char → Prop where
  | nil {first : Bool} {b : List Char} : Blanks b → Listed P first [] b
  | cons {first : Bool} {a : α} {as : List α} {b b' t u : List Char} : Blanks b → Blanks b' →
      P a t → Listed P false as u → Listed P first (a :: as) (b ++ comma first ++ b' ++ t ++ u)

inductive Keyed (P : Value → List Char → Prop) : String × Value → List Char → Prop where
  | mk {k : String} {v : Value} {s b b' t : List Char} : Spelling k.toList s → Blanks b →
      Blanks b' → P v t → Keyed P (k, v) ('"' :: s ++ '"' :: b ++ ':' :: b' ++ t)

inductive Written : Value → List Char → Prop where
  | null : Written .null ['n', 'u', 'l', 'l']
  | true : Written (.bool true) ['t', 'r', 'u', 'e']
  | false : Written (.bool false) ['f', 'a', 'l', 's', 'e']
  | number {l : Literal} {n : Number} : l.value? = some n → Written (.number n) l.text
  | string {s : String} {t : List Char} : Spelling s.toList t →
      Written (.string s) ('"' :: t ++ ['"'])
  | array {vs : List Value} {t : List Char} : Listed Written .true vs t →
      Written (.array vs) ('[' :: t ++ [']'])
  | object {ms : Members} {t : List Char} : Listed (Keyed Written) .true ms t →
      Written (.object ms) ('{' :: t ++ ['}'])

inductive WrittenText (v : Value) : String → Prop where
  | mk {b t b' : List Char} : Blanks b → Written v t → Blanks b' →
      WrittenText v (String.ofList (b ++ t ++ b'))

theorem blanks_nil : Blanks [] := by simp [Blanks]

theorem blanks_of_all {b : List Char} (h : b.all isBlank = true) : Blanks b :=
  List.all_eq_true.mp h

theorem Blanks.append {b b' : List Char} (hb : Blanks b) (hb' : Blanks b') : Blanks (b ++ b') :=
  fun c hc => (List.mem_append.mp hc).elim (hb c) (hb' c)

def isPlain (c : Char) : Bool := c ≠ '"' && c ≠ '\\' && 0x20 ≤ c.toNat

theorem spelling_plain {cs : List Char} (h : cs.all isPlain = true) : Spelling cs cs := by
  induction cs with
  | nil => exact .nil
  | cons c cs ih =>
    simp only [List.all_cons, isPlain, Bool.and_eq_true, decide_eq_true_eq] at h
    obtain ⟨⟨⟨hq, hb⟩, hc⟩, hcs⟩ := h
    exact .cons (.plain hq hb hc) (ih hcs)

/-- What cannot be taken for more of the numeral before it. -/
def Delimited (t : List Char) : Prop :=
  ∀ c ∈ t.head?, isBlank c = true ∨ c = ',' ∨ c = ']' ∨ c = '}'

def Starts (t : List Char) : Prop :=
  ∃ c u, t = c :: u ∧ isBlank c = false ∧ c ≠ ',' ∧ c ≠ ']' ∧ c ≠ '}'

theorem delimited_nil : Delimited [] := by simp [Delimited]

theorem delimited_cons {c : Char} {t : List Char}
    (h : isBlank c = true ∨ c = ',' ∨ c = ']' ∨ c = '}') : Delimited (c :: t) := by
  intro d hd
  cases hd
  exact h

theorem Blanks.delimited {b t : List Char} (hb : Blanks b) (ht : Delimited t) :
    Delimited (b ++ t) := by
  cases b with
  | nil => exact ht
  | cons c b => exact delimited_cons (.inl (hb c (by simp)))

theorem Blanks.delimited_end {b : List Char} (hb : Blanks b) : Delimited b := by
  have h := hb.delimited delimited_nil
  rwa [List.append_nil] at h

theorem isBlank_of_isDigit {c : Char} (h : c.isDigit = true) : isBlank c = false := by
  refine Bool.eq_false_iff.mpr fun hb => ?_
  simp only [isBlank, Bool.or_eq_true, decide_eq_true_eq] at hb
  rcases hb with ((rfl | rfl) | rfl) | rfl <;> cases h

theorem starts_cons_of_isDigit {c : Char} {t : List Char} (h : c.isDigit = true) :
    Starts (c :: t) := by
  refine ⟨c, t, rfl, isBlank_of_isDigit h, ?_, ?_, ?_⟩ <;>
  · rintro rfl
    cases h

theorem Literal.exists_unsigned_eq_cons (l : Literal) :
    ∃ c t, l.unsigned = c :: t ∧ c.isDigit = true := by
  rcases l.whole_ok with h | ⟨⟨hn, hd⟩, -⟩
  · exact ⟨'0', l.fractionText ++ l.powerText, by simp [unsigned, h], rfl⟩
  · obtain ⟨c, t, hc⟩ := List.exists_cons_of_ne_nil hn
    exact ⟨c, t ++ (l.fractionText ++ l.powerText), by simp [unsigned, hc], hd c (by simp [hc])⟩

theorem Literal.starts_text (l : Literal) : Starts l.text := by
  obtain ⟨c, t, hc, hd⟩ := l.exists_unsigned_eq_cons
  rw [text]
  split
  · exact ⟨'-', l.unsigned, rfl, by decide, by decide, by decide, by decide⟩
  · rw [hc]
    exact starts_cons_of_isDigit hd

theorem Written.starts {v : Value} {t : List Char} (h : Written v t) : Starts t := by
  cases h with
  | null => exact ⟨'n', _, rfl, by decide, by decide, by decide, by decide⟩
  | true => exact ⟨'t', _, rfl, by decide, by decide, by decide, by decide⟩
  | false => exact ⟨'f', _, rfl, by decide, by decide, by decide, by decide⟩
  | number _ => exact Literal.starts_text _
  | string _ => exact ⟨'"', _, rfl, by decide, by decide, by decide, by decide⟩
  | array _ => exact ⟨'[', _, rfl, by decide, by decide, by decide, by decide⟩
  | object _ => exact ⟨'{', _, rfl, by decide, by decide, by decide, by decide⟩

theorem Keyed.starts {P : Value → List Char → Prop} {m : String × Value} {t : List Char}
    (h : Keyed P m t) : Starts t := by
  cases h with
  | mk => exact ⟨'"', _, rfl, by decide, by decide, by decide, by decide⟩

theorem Keyed.imp {P Q : Value → List Char → Prop} {m : String × Value} {t : List Char}
    (h : Keyed P m t) (hi : ∀ u, u.length ≤ t.length → P m.2 u → Q m.2 u) : Keyed Q m t := by
  cases h with
  | mk hk hb hb' ht =>
    refine .mk hk hb hb' (hi _ ?_ ht)
    simp only [List.length_append, List.length_cons]
    omega

namespace Listed

variable {α : Type} {P Q : α → List Char → Prop}

theorem delimited {as : List α} {t rest : List Char} {c : Char} (h : Listed P false as t)
    (hc : c = ']' ∨ c = '}') : Delimited (t ++ c :: rest) := by
  cases h with
  | nil hb => exact hb.delimited (delimited_cons (.inr (.inr hc)))
  | cons hb _ _ _ =>
    simp only [comma, Bool.false_eq_true, if_false, List.append_assoc, List.singleton_append]
    exact hb.delimited (delimited_cons (.inr (.inl rfl)))

theorem imp {first : Bool} {as : List α} {t : List Char} (h : Listed P first as t)
    (hi : ∀ a ∈ as, ∀ u, u.length ≤ t.length → P a u → Q a u) : Listed Q first as t := by
  induction h with
  | nil hb => exact .nil hb
  | cons hb hb' ha _ ih =>
    refine .cons hb hb' (hi _ (by simp) _ ?_ ha) (ih fun a ha u hu => hi a (by simp [ha]) u ?_)
    · simp only [List.length_append]; omega
    · simp only [List.length_append]; omega

end Listed

end ModelBindings.Json
