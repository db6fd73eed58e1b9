import Mathlib.Data.List.Forall2
import ModelBindings.Proofs.Json.Reader

/-!
Texts of the form of a JSON value, whatever the range of their numbers and whether or not their
surrogates make pairs. The index bounds how deep their brackets are nested.
-/

namespace ModelBindings.Json

inductive Loose : List Char → Prop where
  | nil : Loose []
  | plain {c : Char} {t : List Char} : c ≠ '"' → c ≠ '\\' → 0x20 ≤ c.toNat → Loose t →
      Loose (c :: t)
  | short {e c : Char} {t : List Char} : simpleEscape? e = some c → Loose t →
      Loose ('\\' :: e :: t)
  | unit {a b c d : Char} {n : Nat} {t : List Char} : hexUnit? a b c d = some n → Loose t →
      Loose ('\\' :: 'u' :: a :: b :: c :: d :: t)

inductive Scalar : List Char → Prop where
  | null : Scalar ['n', 'u', 'l', 'l']
  | true : Scalar ['t', 'r', 'u', 'e']
  | false : Scalar ['f', 'a', 'l', 's', 'e']
  | number (l : Literal) : Scalar l.text
  | string {s : List Char} : Loose s → Scalar ('"' :: s ++ ['"'])

inductive Labelled {κ α : Type} (K : κ → List Char → Prop) (P : α → List Char → Prop) :
    κ × α → List Char → Prop where
  | mk {k : κ} {a : α} {s b b' t : List Char} : K k s → Blanks b → Blanks b' → P a t →
      Labelled K P (k, a) ('"' :: s ++ '"' :: b ++ ':' :: b' ++ t)

def Piece (P : List Char → Prop) (x t : List Char) : Prop := x = t ∧ P t

def Spells (k : String) (s : List Char) : Prop := Spelling k.toList s

def Formed : Nat → List Char → Prop
  | 0, t => Scalar t
  | depth + 1, t =>
      Scalar t ∨
      (∃ xs u, t = '[' :: (u ++ [']']) ∧ Listed (Piece (Formed depth)) true xs u) ∨
      ∃ ms u, t = '{' :: (u ++ ['}']) ∧
        Listed (Labelled (Piece Loose) (Piece (Formed depth))) true ms u

def IsValue (t : List Char) : Prop := ∃ depth, Formed depth t

def MembersOf (ms : List (String × List Char)) (t : List Char) : Prop :=
  ∃ u, t = '{' :: (u ++ ['}']) ∧ Listed (Labelled Spells (Piece IsValue)) true ms u

def IsDocument (t : List Char) : Prop :=
  ∃ b u b', t = b ++ u ++ b' ∧ Blanks b ∧ IsValue u ∧ Blanks b'

theorem Loose.append {s t : List Char} (hs : Loose s) (ht : Loose t) : Loose (s ++ t) := by
  induction hs with
  | nil => exact ht
  | plain hq hb hc _ ih => exact .plain hq hb hc ih
  | short he _ ih => exact .short he ih
  | unit hn _ ih => exact .unit hn ih

theorem Spelled.loose {c : Char} {u : List Char} (h : Spelled c u) : Loose u := by
  cases h with
  | plain hq hb hc => exact .plain hq hb hc .nil
  | short he => exact .short he .nil
  | unit hn => exact .unit hn .nil
  | pair hn _ hm => exact .unit hn (.unit hm .nil)

theorem Spelling.loose {cs s : List Char} (h : Spelling cs s) : Loose s := by
  induction h with
  | nil => exact .nil
  | cons hc _ ih => exact hc.loose.append ih

theorem keyed_iff_labelled {P : Value → List Char → Prop} {m : String × Value} {t : List Char} :
    Keyed P m t ↔ Labelled Spells P m t := by
  constructor
  · rintro ⟨hk, hb, hb', ht⟩
    exact .mk hk hb hb' ht
  · rintro ⟨hk, hb, hb', ht⟩
    exact .mk hk hb hb' ht

namespace Labelled

variable {κ κ' α β : Type} {K : κ → List Char → Prop} {K' : κ' → List Char → Prop}
  {P : α → List Char → Prop} {Q : β → List Char → Prop}

theorem starts {m : κ × α} {t : List Char} (h : Labelled K P m t) : Starts t := by
  cases h with
  | mk => exact ⟨'"', _, rfl, by decide, by decide, by decide, by decide⟩

theorem imp {Q : α → List Char → Prop} {m : κ × α} {t : List Char} (h : Labelled K P m t)
    (hi : ∀ u, u.length ≤ t.length → P m.2 u → Q m.2 u) : Labelled K Q m t := by
  cases h with
  | mk hk hb hb' ht =>
    refine .mk hk hb hb' (hi _ ?_ ht)
    simp only [List.length_append, List.length_cons]
    omega

theorem relabel {m : κ × α} {t : List Char} (h : Labelled K P m t) {k : κ'} {b : β}
    (hk : ∀ s, K m.1 s → K' k s) (hb : ∀ u, P m.2 u → Q b u) : Labelled K' Q (k, b) t := by
  cases h with
  | mk hs hc hc' ht => exact .mk (hk _ hs) hc hc' (hb _ ht)

end Labelled

namespace Listed

variable {α β : Type} {P : α → List Char → Prop} {Q : β → List Char → Prop}

theorem reindex {R : α → β → Prop} {first : Bool} {as : List α} {t : List Char}
    (h : Listed P first as t) (hi : ∀ a ∈ as, ∀ u, P a u → ∃ b, R a b ∧ Q b u) :
    ∃ bs, List.Forall₂ R as bs ∧ Listed Q first bs t := by
  induction h with
  | nil hb => exact ⟨[], .nil, .nil hb⟩
  | cons hb hb' ha _ ih =>
    obtain ⟨b, hR, hQ⟩ := hi _ (by simp) _ ha
    obtain ⟨bs, hRs, hQs⟩ := ih fun a ha => hi a (by simp [ha])
    exact ⟨b :: bs, .cons hR hRs, .cons hb hb' hQ hQs⟩

theorem exists_bound {Q : Nat → α → List Char → Prop}
    (hQ : ∀ k k' a x, k ≤ k' → Q k a x → Q k' a x) {first : Bool} {as : List α} {t : List Char}
    (h : Listed P first as t) (hP : ∀ a ∈ as, ∀ x, P a x → ∃ k, Q k a x) :
    ∃ k, Listed (Q k) first as t := by
  induction h with
  | nil hb => exact ⟨0, .nil hb⟩
  | cons hb hb' ha _ ih =>
    obtain ⟨k, hk⟩ := hP _ (by simp) _ ha
    obtain ⟨k', hk'⟩ := ih fun a ha => hP a (by simp [ha])
    refine ⟨max k k', .cons hb hb' (hQ _ _ _ _ (Nat.le_max_left k k') hk) ?_⟩
    exact hk'.imp fun a _ x _ => hQ _ _ a x (Nat.le_max_right k k')

end Listed

theorem Scalar.starts {t : List Char} (h : Scalar t) : Starts t := by
  cases h with
  | null => exact ⟨'n', _, rfl, by decide, by decide, by decide, by decide⟩
  | true => exact ⟨'t', _, rfl, by decide, by decide, by decide, by decide⟩
  | false => exact ⟨'f', _, rfl, by decide, by decide, by decide, by decide⟩
  | number l => exact l.starts_text
  | string _ => exact ⟨'"', _, rfl, by decide, by decide, by decide, by decide⟩

theorem not_scalar_bracket {c : Char} (hc : c = '[' ∨ c = '{') {t : List Char} :
    ¬ Scalar (c :: t) := by
  intro h
  generalize hu : c :: t = u at h
  cases h with
  | number l =>
    obtain ⟨d, w, hd, hdigit⟩ := l.exists_unsigned_eq_cons
    rw [Literal.text, hd] at hu
    split at hu
    · obtain ⟨rfl, -⟩ := List.cons.inj hu
      rcases hc with hc | hc <;> cases hc
    · obtain ⟨rfl, -⟩ := List.cons.inj hu
      rcases hc with rfl | rfl <;> cases hdigit
  | _ =>
    cases hu
    rcases hc with hc | hc <;> cases hc

namespace Formed

variable {depth : Nat} {t : List Char}

theorem cases (h : Formed depth t) :
    Scalar t ∨ ∃ lower, depth = lower + 1 ∧
      ((∃ xs u, t = '[' :: (u ++ [']']) ∧ Listed (Piece (Formed lower)) true xs u) ∨
       ∃ ms u, t = '{' :: (u ++ ['}']) ∧
        Listed (Labelled (Piece Loose) (Piece (Formed lower))) true ms u) := by
  cases depth with
  | zero => exact .inl h
  | succ lower =>
    rcases h with h | h
    · exact .inl h
    · exact .inr ⟨lower, rfl, h⟩

theorem of_scalar (h : Scalar t) : Formed depth t := by
  cases depth with
  | zero => exact h
  | succ lower => exact .inl h

theorem starts (h : Formed depth t) : Starts t := by
  rcases h.cases with h | ⟨lower, -, ⟨xs, u, rfl, -⟩ | ⟨ms, u, rfl, -⟩⟩
  · exact h.starts
  · exact ⟨'[', _, rfl, by decide, by decide, by decide, by decide⟩
  · exact ⟨'{', _, rfl, by decide, by decide, by decide, by decide⟩

theorem of_items {α : Type} {P : α → List Char → Prop} {as : List α} {u : List Char}
    (h : Listed P true as u) (hP : ∀ a ∈ as, ∀ x, P a x → Formed depth x) :
    Formed (depth + 1) ('[' :: (u ++ [']'])) := by
  obtain ⟨xs, -, hxs⟩ := h.reindex (R := fun _ _ => True) (Q := Piece (Formed depth))
    fun a ha x hx => ⟨x, trivial, rfl, hP a ha x hx⟩
  exact .inr (.inl ⟨xs, u, rfl, hxs⟩)

theorem of_members {κ α : Type} {K : κ → List Char → Prop} {P : α → List Char → Prop}
    {ms : List (κ × α)} {u : List Char} (h : Listed (Labelled K P) true ms u)
    (hK : ∀ k s, K k s → Loose s) (hP : ∀ m ∈ ms, ∀ x, P m.2 x → Formed depth x) :
    Formed (depth + 1) ('{' :: (u ++ ['}'])) := by
  obtain ⟨xs, -, hxs⟩ := h.reindex (R := fun _ _ => True)
    (Q := Labelled (Piece Loose) (Piece (Formed depth))) fun m hm x hx => by
      cases hx with
      | mk hs hc hc' ht =>
        exact ⟨(_, _), trivial, .mk ⟨rfl, hK _ _ hs⟩ hc hc' ⟨rfl, hP _ hm _ ht⟩⟩
  exact .inr (.inr ⟨xs, u, rfl, hxs⟩)

theorem mono {depth' : Nat} (h : Formed depth t) (hd : depth ≤ depth') : Formed depth' t := by
  induction depth generalizing t depth' with
  | zero => exact .of_scalar h
  | succ depth ih =>
    obtain ⟨lower, rfl⟩ : ∃ k, depth' = k + 1 := ⟨depth' - 1, by omega⟩
    have hd : depth ≤ lower := Nat.le_of_succ_le_succ hd
    rcases h with h | ⟨xs, u, rfl, hu⟩ | ⟨ms, u, rfl, hu⟩
    · exact .of_scalar h
    · exact .of_items hu fun _ _ _ hx => ih hx.2 hd
    · exact .of_members hu (fun _ _ hs => hs.2) fun _ _ _ hx => ih hx.2 hd

end Formed

theorem IsValue.starts {t : List Char} (h : IsValue t) : Starts t := h.elim fun _ h => h.starts

theorem isValue_of_items {α : Type} {P : α → List Char → Prop} {as : List α} {u : List Char}
    (h : Listed P true as u) (hP : ∀ a ∈ as, ∀ x, P a x → IsValue x) :
    IsValue ('[' :: (u ++ [']'])) := by
  obtain ⟨depth, hd⟩ := h.exists_bound (Q := fun k _ x => Formed k x)
    (fun _ _ _ _ hk h => h.mono hk) hP
  exact ⟨depth + 1, .of_items hd fun _ _ _ hx => hx⟩

theorem isValue_of_members {κ α : Type} {K : κ → List Char → Prop} {P : α → List Char → Prop}
    {ms : List (κ × α)} {u : List Char} (h : Listed (Labelled K P) true ms u)
    (hK : ∀ k s, K k s → Loose s) (hP : ∀ m ∈ ms, ∀ x, P m.2 x → IsValue x) :
    IsValue ('{' :: (u ++ ['}'])) := by
  obtain ⟨depth, hd⟩ := h.exists_bound (Q := fun k => Labelled K fun _ x => Formed k x)
    (fun _ _ _ _ hk h => h.imp fun _ _ hx => hx.mono hk) fun m hm x hx => by
      cases hx with
      | mk hs hc hc' ht =>
        obtain ⟨k, hk⟩ := hP _ hm _ ht
        exact ⟨k, .mk hs hc hc' hk⟩
  exact ⟨depth + 1, .of_members hd hK fun _ _ _ hx => hx⟩

theorem MembersOf.isValue {ms : List (String × List Char)} {t : List Char} (h : MembersOf ms t) :
    IsValue t := by
  obtain ⟨u, rfl, hu⟩ := h
  exact isValue_of_members hu (fun _ _ hs => hs.loose) fun _ _ _ hx => hx.2

theorem Written.scalar {v : Value} {t : List Char} (h : Written v t) (hv : v.height = 0) :
    Scalar t := by
  cases h with
  | null => exact .null
  | true => exact .true
  | false => exact .false
  | number _ => exact .number _
  | string hs => exact .string hs.loose
  | array _ => cases hv
  | object _ => cases hv

theorem Written.formed {v : Value} {t : List Char} (h : Written v t) {depth : Nat}
    (hd : v.height ≤ depth) : Formed depth t := by
  induction depth generalizing v t with
  | zero => exact h.scalar (Nat.le_zero.mp hd)
  | succ depth ih =>
    cases v with
    | array vs =>
      cases h with
      | array hu =>
        refine .of_items hu fun v hv x hx => ih hx ?_
        exact Nat.le_trans (height_le_of_mem_items hv) (Nat.le_of_succ_le_succ hd)
    | object ms =>
      cases h with
      | object hu =>
        refine .of_members (hu.imp fun m _ x _ hx => keyed_iff_labelled.mp hx)
          (fun _ _ hs => hs.loose) fun m hm x hx => ih hx ?_
        exact Nat.le_trans (height_le_of_mem_members hm) (Nat.le_of_succ_le_succ hd)
    | null | bool c | number n | string s => exact .of_scalar (h.scalar rfl)

end ModelBindings.Json
