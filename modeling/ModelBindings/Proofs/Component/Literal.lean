import Mathlib.Data.List.Forall2
import ModelBindings.Proofs.Json.Printer

/-!
Expressions of the language that the file of component definitions is written in, as far as the file
uses them: which texts name a property, and how an object literal is written.
-/

namespace ModelBindings.Script

open Json (Blanks Listed Value Written comma blanks_nil listed_intercalate)

/-- What the language says of the characters beyond ASCII, and which property a numeral or a quoted
text names. -/
structure Lexicon where
  begins : Char → Bool
  continues : Char → Bool
  literal : List Char → Option String

namespace Lexicon

def isStart (l : Lexicon) (c : Char) : Bool :=
  c.isAlpha || c == '$' || c == '_' || (0x80 ≤ c.toNat && l.begins c)

def isPart (l : Lexicon) (c : Char) : Bool :=
  l.isStart c || c.isDigit || (0x80 ≤ c.toNat && l.continues c)

def isIdentifier (l : Lexicon) : List Char → Bool
  | [] => false
  | c :: cs => l.isStart c && cs.all l.isPart

def startsLiteral (c : Char) : Bool :=
  c.isDigit || c == '.' || c == '"' || c == '\''

inductive PropertyName (l : Lexicon) : String → List Char → Prop where
  | identifier {key : String} : l.isIdentifier key.toList = true → PropertyName l key key.toList
  | literal {c : Char} {t : List Char} {key : String} : startsLiteral c = true →
      l.literal (c :: t) = some key → PropertyName l key (c :: t)

def Bare (l : Lexicon) (key : String) : Prop := l.PropertyName key key.toList

theorem not_isBlank_of_isStart {l : Lexicon} {c : Char} (h : l.isStart c = true) :
    Json.isBlank c = false := by
  refine Bool.eq_false_iff.mpr fun hb => ?_
  simp only [Json.isBlank, Bool.or_eq_true, decide_eq_true_eq] at hb
  rcases hb with ((rfl | rfl) | rfl) | rfl <;> cases h

theorem PropertyName.exists_cons {l : Lexicon} {key : String} {t : List Char}
    (h : l.PropertyName key t) : ∃ c u, t = c :: u ∧ Json.isBlank c = false := by
  cases h with
  | identifier hk =>
    generalize key.toList = t at hk
    cases t with
    | nil => cases hk
    | cons c u => exact ⟨c, u, rfl, not_isBlank_of_isStart (Bool.and_eq_true_iff.mp hk).1⟩
  | @literal c u _ hc _ =>
    refine ⟨c, u, rfl, ?_⟩
    simp only [startsLiteral, Bool.or_eq_true, beq_iff_eq] at hc
    rcases hc with ((hc | rfl) | rfl) | rfl
    · exact Json.isBlank_of_isDigit hc
    · decide
    · decide
    · decide

theorem PropertyName.isIdentifier {l : Lexicon} {key : String} {c : Char} {t : List Char}
    (h : l.PropertyName key (c :: t)) (hc : startsLiteral c = false) :
    l.isIdentifier (c :: t) = true := by
  generalize ht : c :: t = u at h
  cases h with
  | identifier hk => exact hk
  | literal hd _ =>
    cases ht
    exact absurd hd (by simp [hc])

theorem PropertyName.next {l : Lexicon} {key : String} {c d : Char} {t u b rest : List Char}
    (h : l.PropertyName key (c :: t)) (hc : startsLiteral c = false) (hb : Blanks b)
    (he : d :: u = t ++ b ++ ':' :: rest) :
    l.isPart d = true ∨ Json.isBlank d = true ∨ d = ':' := by
  have hparts := (Bool.and_eq_true_iff.mp (h.isIdentifier hc)).2
  cases t with
  | cons e t =>
    cases he
    exact .inl (List.all_eq_true.mp hparts d List.mem_cons_self)
  | nil =>
    cases b with
    | cons e b =>
      cases he
      exact .inr (.inl (hb d List.mem_cons_self))
    | nil =>
      cases he
      exact .inr (.inr rfl)

end Lexicon

inductive Expression where
  | value (v : Value)
  | name (s : String)
  | member (e : Expression) (s : String)
  | array (es : List Expression)
  | object (ms : List (String × Expression))
  | call (s : String) (es : List Expression)
  /-- A function of no arguments that is called where it stands. -/
  | thunk (e : Expression)

inductive Property {α : Type} (K : String → List Char → Prop) (P : α → List Char → Prop) :
    String × α → List Char → Prop where
  | mk {k : String} {a : α} {s b b' t : List Char} : K k s → Blanks b → Blanks b' → P a t →
      Property K P (k, a) (s ++ b ++ ':' :: b' ++ t)

/-- Parts with commas between them, and perhaps one after the last. -/
inductive Series {α : Type} (P : α → List Char → Prop) : List α → List Char → Prop where
  | plain {as : List α} {t : List Char} : Listed P true as t → Series P as t
  | trailing {a : α} {as : List α} {t b : List Char} : Listed P true (a :: as) t → Blanks b →
      Series P (a :: as) (t ++ ',' :: b)

inductive Reads (l : Lexicon) : Expression → List Char → Prop where
  | value {v : Value} {t : List Char} : Written v t → Reads l (.value v) t
  | name {s : String} : l.isIdentifier s.toList = true → Reads l (.name s) s.toList
  | member {e : Expression} {s : String} {t : List Char} : Reads l e t →
      l.isIdentifier s.toList = true → Reads l (.member e s) (t ++ '.' :: s.toList)
  | array {es : List Expression} {t : List Char} : Series (Reads l) es t →
      Reads l (.array es) ('[' :: (t ++ [']']))
  | object {ms : List (String × Expression)} {t : List Char} :
      Series (Property l.PropertyName (Reads l)) ms t → Reads l (.object ms) ('{' :: (t ++ ['}']))
  | call {s : String} {es : List Expression} {t : List Char} : l.isIdentifier s.toList = true →
      Series (Reads l) es t → Reads l (.call s es) (s.toList ++ '(' :: (t ++ [')']))
  | thunk {e : Expression} {b t b' : List Char} : Blanks b → Reads l e t → Blanks b' →
      Reads l (.thunk e)
        ("(() => \x7b".toList ++ b ++ "return ".toList ++ t ++ ';' :: b' ++ "\x7d)()".toList)

inductive Expression.Distinct : Expression → Prop where
  | value {v : Value} : v.distinct = true → Distinct (.value v)
  | name {s : String} : Distinct (.name s)
  | member {e : Expression} {s : String} : Distinct e → Distinct (.member e s)
  | array {es : List Expression} : (∀ e ∈ es, Distinct e) → Distinct (.array es)
  | object {ms : List (String × Expression)} : (ms.map Prod.fst).Nodup →
      (∀ m ∈ ms, Distinct m.2) → Distinct (.object ms)
  | call {s : String} {es : List Expression} : (∀ e ∈ es, Distinct e) → Distinct (.call s es)
  | thunk {e : Expression} : Distinct e → Distinct (.thunk e)

theorem blanks_space : Blanks " ".toList := Json.blanks_of_all rfl

theorem Property.of_bare {α : Type} {l : Lexicon} {P : α → List Char → Prop} {key : String} {a : α}
    {t : List Char} (hkey : l.Bare key) (ha : P a t) :
    Property l.PropertyName P (key, a) (key.toList ++ ": ".toList ++ t) := by
  have h := Property.mk hkey blanks_nil blanks_space ha
  simpa using h

namespace Series

variable {α : Type} {P : α → List Char → Prop} {as : List α} {ts : List (List Char)}
  {margin margin' : List Char}

def lines (margin : List Char) (ts : List (List Char)) : List Char :=
  ts.flatMap fun t => margin ++ t ++ [',', '\n']

theorem comma_lines (margin rest : List Char) (ts : List (List Char)) :
    ',' :: '\n' :: (lines margin ts ++ rest) =
      (ts.flatMap fun t => ',' :: '\n' :: (margin ++ t)) ++ ',' :: '\n' :: rest := by
  induction ts with
  | nil => rfl
  | cons t ts ih =>
    simp only [lines, List.flatMap_cons, List.append_assoc, List.cons_append, List.nil_append]
      at ih ⊢
    rw [ih]

theorem listed_lines (h : List.Forall₂ P as ts) (hm : Blanks ('\n' :: margin)) :
    Listed P false as (ts.flatMap fun t => ',' :: '\n' :: (margin ++ t)) := by
  induction h with
  | nil => exact .nil blanks_nil
  | @cons a t as ts ha _ ih =>
    have h : Listed P false (a :: as) _ := .cons blanks_nil hm ha ih
    simpa [comma] using h

theorem of_lines (h : List.Forall₂ P as ts) (hm : Blanks ('\n' :: margin))
    (hm' : Blanks ('\n' :: margin')) : Series P as ('\n' :: (lines margin ts ++ margin')) := by
  cases h with
  | nil => exact .plain (.nil hm')
  | @cons a t as ts ha has =>
    have hl : Listed P true (a :: as) _ := .cons hm blanks_nil ha (listed_lines has hm)
    have h := Series.trailing hl hm'
    have hlines : lines margin (t :: ts) ++ margin' =
        margin ++ t ++ ',' :: '\n' :: (lines margin ts ++ margin') := by
      simp [lines]
    rw [hlines, comma_lines]
    simpa [comma] using h

theorem of_intercalate {ts : List String} (h : List.Forall₂ (fun a t => P a t.toList) as ts) :
    Series P as (" ".toList ++ ((", ".intercalate ts).toList ++ " ".toList)) := by
  cases h with
  | nil => exact .plain (.nil (blanks_space.append blanks_space))
  | cons ha has => exact .plain (listed_intercalate " " blanks_space has ha true)

end Series

end ModelBindings.Script
