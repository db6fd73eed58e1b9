import Mathlib.Data.List.Forall2
import ModelBindings.Proofs.Typing

/-!
The two modes side by side. Of the same node and the same registry they make the same registry and
the same type expression, but for the scalars of four names in any letter case.
-/

namespace ModelBindings

open Schema (Node)

namespace Recs

def letterPairs : List (Char × Char) :=
  "ABCDEFGHIJKLMNOPQRSTUVWXYZ".toList.zip "abcdefghijklmnopqrstuvwxyz".toList

def SameLetter (c d : Char) : Prop := c = d ∨ (c, d) ∈ letterPairs ∨ (d, c) ∈ letterPairs

def SameName (s t : String) : Prop := List.Forall₂ SameLetter s.toList t.toList

def wideNames : List String := ["u128", "u256", "felt252", "contractaddress"]

def knownNames : List String := ["bool", "u8", "u16", "u32", "u64", "usize"] ++ wideNames

def IsOneOf (names : List String) (s : String) : Prop := ∃ name ∈ names, SameName s name

theorem toLower_of_mem_letterPairs {c d : Char} (h : (c, d) ∈ letterPairs) :
    c.toLower = d ∧ d.toLower = d := by
  have hall : ∀ p ∈ letterPairs, p.1.toLower = p.2 ∧ p.2.toLower = p.2 := by decide
  exact hall (c, d) h

theorem upper_of_mem_letterPairs {c d e : Char} (hc : (c, e) ∈ letterPairs)
    (hd : (d, e) ∈ letterPairs) : c = d := by
  have hall : ∀ p ∈ letterPairs, ∀ q ∈ letterPairs, p.2 = q.2 → p.1 = q.1 := by decide
  exact hall (c, e) hc (d, e) hd rfl

theorem toLower_cases (c : Char) : c.toLower = c ∨ (c, c.toLower) ∈ letterPairs := by
  by_cases h : 65 ≤ c.toNat ∧ c.toNat ≤ 90
  · have hall : ∀ n ≤ 90, 65 ≤ n → (Char.ofNat n, (Char.ofNat n).toLower) ∈ letterPairs := by decide
    have hc := hall c.toNat h.2 h.1
    rw [Char.ofNat_toNat] at hc
    exact .inr hc
  · exact .inl (dif_neg h)

theorem sameLetter_iff {c d : Char} : SameLetter c d ↔ c.toLower = d.toLower := by
  constructor
  · rintro (rfl | h | h)
    · rfl
    · obtain ⟨hc, hd⟩ := toLower_of_mem_letterPairs h
      exact hc.trans hd.symm
    · obtain ⟨hd, hc⟩ := toLower_of_mem_letterPairs h
      exact hc.trans hd.symm
  · intro h
    -- Both may be upper case letters. Then they are the same, as their lower case is.
    rcases toLower_cases c with hc | hc <;> rcases toLower_cases d with hd | hd
    · exact .inl (hc.symm.trans (h.trans hd))
    · exact .inr (.inr (hc ▸ h ▸ hd))
    · exact .inr (.inl (hd ▸ h ▸ hc))
    · exact .inl (upper_of_mem_letterPairs hc (h ▸ hd))

theorem sameName_iff {s t : String} : SameName s t ↔ Scalar.foldCase s = Scalar.foldCase t := by
  rw [Scalar.foldCase, Scalar.foldCase, ← List.forall₂_eq_eq_eq, List.forall₂_map_left_iff,
    List.forall₂_map_right_iff]
  exact iff_of_eq (congrArg (List.Forall₂ · _ _) (funext₂ fun _ _ => propext sameLetter_iff))

namespace Scalar

theorem ofName?_congr {s t : String} (h : SameName s t) : ofName? s = ofName? t := by
  rw [ofName?, ofName?, sameName_iff.mp h]

theorem sameName_of_ofName? {s : String} {k : Scalar} (h : ofName? s = some k) :
    SameName s k.name := by
  have hk : (foldCase k.name == foldCase s) = true :=
    List.find?_some (p := fun k : Scalar => foldCase k.name == foldCase s) h
  exact sameName_iff.mpr (beq_iff_eq.mp hk).symm

theorem isOneOf_of_ofName? {s : String} {k : Scalar} {names : List String}
    (h : ofName? s = some k) (hk : ∃ name ∈ names, foldCase k.name = foldCase name) :
    IsOneOf names s := by
  obtain ⟨name, hname, heq⟩ := hk
  refine ⟨name, hname, sameName_iff.mpr ?_⟩
  exact (sameName_iff.mp (sameName_of_ofName? h)).trans heq

end Scalar

theorem scalarType_congr (mode : Mode) {s name : String} (h : SameName s name) :
    scalarType mode s = scalarType mode name := by
  rw [scalarType, scalarType, Scalar.ofName?_congr h]

theorem scalarType_of_unknown (mode : Mode) {s : String} (h : ¬ IsOneOf knownNames s) :
    scalarType mode s = .string := by
  rw [scalarType]
  cases hk : Scalar.ofName? s with
  | none => rfl
  | some k => exact absurd (Scalar.isOneOf_of_ofName? hk (by cases k <;> decide)) h

theorem scalarType_of_u256 {s : String} (h : SameName s "u256") :
    scalarType .narrow s = .numberArray ∧ scalarType .wide s = .bigInt := by
  rw [scalarType_congr .narrow h, scalarType_congr .wide h]
  decide

theorem scalarType_of_wide {s : String} (h : IsOneOf wideNames s) (hs : ¬ SameName s "u256") :
    scalarType .narrow s = .number ∧ scalarType .wide s = .bigInt := by
  obtain ⟨name, hname, h⟩ := h
  rw [scalarType_congr .narrow h, scalarType_congr .wide h]
  simp only [wideNames, List.mem_cons, List.not_mem_nil, or_false] at hname
  rcases hname with rfl | rfl | rfl | rfl
  · decide
  · exact absurd h hs
  · decide
  · decide

theorem scalarType_of_not_wide {s : String} (h : ¬ IsOneOf wideNames s) :
    scalarType .narrow s = scalarType .wide s := by
  rw [scalarType, scalarType]
  cases hk : Scalar.ofName? s with
  | none => rfl
  | some k =>
    have hcases : k.type .narrow = k.type .wide ∨
        ∃ name ∈ wideNames, Scalar.foldCase k.name = Scalar.foldCase name := by
      cases k <;> decide
    exact hcases.resolve_right fun hw => h (Scalar.isOneOf_of_ofName? hk hw)

theorem scalarType_ne_iff {s : String} :
    scalarType .narrow s ≠ scalarType .wide s ↔ IsOneOf wideNames s := by
  constructor
  · intro h
    exact not_imp_comm.mp scalarType_of_not_wide h
  · intro h
    by_cases hs : SameName s "u256"
    · rw [(scalarType_of_u256 hs).1, (scalarType_of_u256 hs).2]
      decide
    · rw [(scalarType_of_wide h hs).1, (scalarType_of_wide h hs).2]
      decide

theorem scalarType_narrow_ne (s : String) : scalarType .narrow s ≠ .bigInt := by
  rw [scalarType]
  cases Scalar.ofName? s with
  | none => decide
  | some k => cases k <;> decide

theorem scalarType_wide_ne (s : String) : scalarType .wide s ≠ .numberArray := by
  rw [scalarType]
  cases Scalar.ofName? s with
  | none => decide
  | some k => cases k <;> decide

end Recs

abbrev Place := List Nat

namespace Schema.Node

def parts : Node → List Node
  | .struct _ fields => fields.map Prod.snd
  | .tuple elements => elements
  | .primitive _ | .enum _ => []

def at? : Node → Place → Option Node
  | n, [] => some n
  | n, i :: p => n.parts[i]?.bind fun m => m.at? p

end Schema.Node

namespace Recs.TypeExpr

/-- What a type expression is without its parts: which scalar it is does not count. -/
inductive Head where
  | scalar
  | record (names : List String)
  | tuple (arity : Nat)
  deriving DecidableEq, Repr

def head : TypeExpr → Head
  | .scalar _ => .scalar
  | .record fields => .record (fields.map Prod.fst)
  | .tuple elements => .tuple elements.length

def parts : TypeExpr → List TypeExpr
  | .scalar _ => []
  | .record fields => fields.map Prod.snd
  | .tuple elements => elements

def at? : TypeExpr → Place → Option TypeExpr
  | e, [] => some e
  | e, i :: p => e.parts[i]?.bind fun d => d.at? p

theorem head_shape (n : Node) : (n.shape .narrow).head = (n.shape .wide).head := by
  cases n with
  | primitive s => rfl
  | struct name fields => simp [head, Function.comp_def]
  | enum name => rfl
  | tuple elements => simp [head]

theorem parts_shape (mode : Mode) (n : Node) :
    (n.shape mode).parts = n.parts.map (Node.shape mode) := by
  cases n with
  | primitive s => rfl
  | struct name fields => simp [parts, Node.parts, Function.comp_def]
  | enum name => rfl
  | tuple elements => simp [parts, Node.parts]

theorem at?_shape (mode : Mode) (p : Place) (n : Node) :
    (n.shape mode).at? p = (n.at? p).map (Node.shape mode) := by
  induction p generalizing n with
  | nil => rfl
  | cons i p ih =>
    rw [at?, Node.at?, parts_shape, List.getElem?_map]
    cases n.parts[i]? with
    | none => rfl
    | some m => exact ih m

theorem at?_shape_primitive (mode : Mode) {p : Place} {n : Node} {s : String}
    (h : n.at? p = some (.primitive s)) :
    (n.shape mode).at? p = some (.scalar (scalarType mode s)) := by
  rw [at?_shape, h]
  rfl

theorem exists_of_at?_shape {mode : Mode} {p : Place} {n : Node} {t : ScalarType}
    (h : (n.shape mode).at? p = some (.scalar t)) :
    (∃ s, n.at? p = some (.primitive s) ∧ scalarType mode s = t) ∨
      ∃ name, n.at? p = some (.enum name) ∧ t = .number := by
  rw [at?_shape] at h
  obtain ⟨m, hm, ht⟩ := Option.map_eq_some_iff.mp h
  cases m with
  | primitive s =>
    cases ht
    exact .inl ⟨s, hm, rfl⟩
  | struct name fields => cases ht
  | enum name =>
    cases ht
    exact .inr ⟨name, hm, rfl⟩
  | tuple elements => cases ht

structure ApartInWide (node? : Place → Option Node) (narrow wide : TypeExpr × Registry) : Prop where
  registry_eq : narrow.2 = wide.2
  stands_iff : ∀ p, (narrow.1.at? p).isSome = (node? p).isSome
  head_eq : ∀ p, (narrow.1.at? p).map head = (wide.1.at? p).map head
  ne_iff : ∀ p t u, narrow.1.at? p = some (.scalar t) → wide.1.at? p = some (.scalar u) →
    (t ≠ u ↔ ∃ s, node? p = some (.primitive s) ∧ IsOneOf wideNames s)
  of_u256 : ∀ p s, node? p = some (.primitive s) → SameName s "u256" →
    narrow.1.at? p = some (.scalar .numberArray) ∧ wide.1.at? p = some (.scalar .bigInt)
  of_other : ∀ p s, node? p = some (.primitive s) → IsOneOf wideNames s → ¬ SameName s "u256" →
    narrow.1.at? p = some (.scalar .number) ∧ wide.1.at? p = some (.scalar .bigInt)
  of_unknown : ∀ p s, node? p = some (.primitive s) → ¬ IsOneOf knownNames s →
    narrow.1.at? p = some (.scalar .string) ∧ wide.1.at? p = some (.scalar .string)
  narrow_ne : ∀ p, narrow.1.at? p ≠ some (.scalar .bigInt)
  wide_ne : ∀ p, wide.1.at? p ≠ some (.scalar .numberArray)

theorem apartInWide_shape (n : Node) (r : Registry) :
    ApartInWide n.at? (n.shape .narrow, r) (n.shape .wide, r) where
  registry_eq := rfl
  stands_iff p := by rw [at?_shape, Option.isSome_map]
  head_eq p := by
    rw [at?_shape, at?_shape, Option.map_map, Option.map_map]
    exact congrArg (Option.map · _) (funext head_shape)
  ne_iff p t u ht hu := by
    rcases exists_of_at?_shape ht with ⟨s, hs, rfl⟩ | ⟨name, hname, rfl⟩
    · rw [at?_shape_primitive .wide hs] at hu
      cases hu
      rw [scalarType_ne_iff, hs]
      simp
    · rw [at?_shape, hname] at hu
      cases hu
      simp [hname]
  of_u256 p s hp hs := by
    rw [at?_shape_primitive .narrow hp, at?_shape_primitive .wide hp, (scalarType_of_u256 hs).1,
      (scalarType_of_u256 hs).2]
    exact ⟨rfl, rfl⟩
  of_other p s hp hw hs := by
    rw [at?_shape_primitive .narrow hp, at?_shape_primitive .wide hp, (scalarType_of_wide hw hs).1,
      (scalarType_of_wide hw hs).2]
    exact ⟨rfl, rfl⟩
  of_unknown p s hp hs := by
    rw [at?_shape_primitive .narrow hp, at?_shape_primitive .wide hp,
      scalarType_of_unknown .narrow hs, scalarType_of_unknown .wide hs]
    exact ⟨rfl, rfl⟩
  narrow_ne p hp := by
    rcases exists_of_at?_shape hp with ⟨s, -, hs⟩ | ⟨name, -, ht⟩
    · exact scalarType_narrow_ne s hs
    · cases ht
  wide_ne p hp := by
    rcases exists_of_at?_shape hp with ⟨s, -, hs⟩ | ⟨name, -, ht⟩
    · exact scalarType_wide_ne s hs
    · cases ht

/-- A body is looked at as the struct it belongs to, whose own name has no part in it. -/
theorem modes_apart_in_wide (r : Registry) :
    (∀ n, ApartInWide n.at? (ofNode .narrow n r) (ofNode .wide n r)) ∧
      ∀ name fields, ApartInWide (Node.struct name fields).at? (ofBody .narrow fields r)
        (ofBody .wide fields r) := by
  refine ⟨fun n => ?_, fun name fields => ?_⟩
  · rw [ofNode_eq, ofNode_eq]
    exact apartInWide_shape n _
  · rw [ofBody_eq, ofBody_eq, ← Node.shape_struct .narrow name, ← Node.shape_struct .wide name]
    exact apartInWide_shape (.struct name fields) _

end Recs.TypeExpr

end ModelBindings
