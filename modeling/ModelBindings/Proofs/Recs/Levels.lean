import ModelBindings.Proofs.Recs.Modes

/-!
How deep the nodes of a schema and the parts of a type expression nest. Translating a node and
writing an expression out go no deeper than these nest.
-/

namespace ModelBindings

open Schema (Node)

/-- No way down goes through more than `levels` parts, the whole among them. -/
def NestsWithin {α : Type} (levels : Nat) (at? : Place → Option α) : Prop :=
  ∀ (p : Place) (a : α), at? p = some a → p.length + 1 ≤ levels

namespace NestsWithin

variable {α : Type} {levels : Nat} {at? part? : Place → Option α}

theorem pos {a : α} (h : NestsWithin levels at?) (ha : at? [] = some a) : 0 < levels :=
  h [] a ha

theorem part (h : NestsWithin (levels + 1) at?) {i : Nat} (hi : ∀ p, at? (i :: p) = part? p) :
    NestsWithin levels part? :=
  fun p a ha => Nat.le_of_succ_le_succ (h (i :: p) a ((hi p).trans ha))

end NestsWithin

theorem Schema.Node.nestsWithin_part {levels : Nat} {n m : Node}
    (h : NestsWithin (levels + 1) n.at?) (hm : m ∈ n.parts) : NestsWithin levels m.at? := by
  obtain ⟨i, hi⟩ := List.mem_iff_getElem?.mp hm
  exact h.part (i := i) fun p => by rw [at?, hi, Option.bind_some]

namespace Recs.TypeExpr

theorem nestsWithin_part {levels : Nat} {e d : TypeExpr} (h : NestsWithin (levels + 1) e.at?)
    (hd : d ∈ e.parts) : NestsWithin levels d.at? := by
  obtain ⟨i, hi⟩ := List.mem_iff_getElem?.mp hd
  exact h.part (i := i) fun p => by rw [at?, hi, Option.bind_some]

theorem nestsWithin_shape {levels : Nat} {n : Node} (h : NestsWithin levels n.at?) (mode : Mode) :
    NestsWithin levels (n.shape mode).at? := by
  intro p e he
  rw [at?_shape] at he
  obtain ⟨m, hm, -⟩ := Option.map_eq_some_iff.mp he
  exact h p m hm

abbrev Translation := Node → Registry → Option (TypeExpr × Registry)

def membersBy (translate : Translation) :
    List (String × Node) → Registry → Option (List (String × TypeExpr) × Registry)
  | [], r => some ([], r)
  | (name, n) :: fs, r => do
      let (e, r) ← translate n r
      let (es, r) ← membersBy translate fs r
      return ((name, e) :: es, r)

def elementsBy (translate : Translation) :
    List Node → Registry → Option (List TypeExpr × Registry)
  | [], r => some ([], r)
  | n :: ns, r => do
      let (e, r) ← translate n r
      let (es, r) ← elementsBy translate ns r
      return (e :: es, r)

/-- Translates a node with at most `levels` translations under way at once, or not at all. -/
def ofNodeWithin (mode : Mode) : Nat → Translation
  | 0, _, _ => none
  | _ + 1, .primitive s, r => some (.scalar (scalarType mode s), r)
  | levels + 1, .struct name fields, r => do
      let (fs, r) ← membersBy (ofNodeWithin mode levels) fields (r.enter name)
      return (.record fs, r)
  | _ + 1, .enum name, r => some (.scalar .number, r.enter name)
  | levels + 1, .tuple elements, r => do
      let (es, r) ← elementsBy (ofNodeWithin mode levels) elements r
      return (.tuple es, r)

def ofBodyWithin (mode : Mode) :
    Nat → List (String × Node) → Registry → Option (TypeExpr × Registry)
  | 0, _, _ => none
  | levels + 1, fields, r => do
      let (fs, r) ← membersBy (ofNodeWithin mode levels) fields r
      return (.record fs, r)

def textWithin : Nat → TypeExpr → Option String
  | 0, _ => none
  | _ + 1, .scalar t => some t.text
  | levels + 1, .record fields => do
      let parts ← fields.mapM fun f => do return f.1 ++ ": " ++ (← textWithin levels f.2)
      return between "\x7b " " \x7d" parts
  | levels + 1, .tuple elements => do
      let parts ← elements.mapM fun e => textWithin levels e
      return between "[ " " ]" parts

section Levels

variable {mode : Mode}

theorem membersBy_eq {translate : Translation} {fs : List (String × Node)}
    (h : ∀ n ∈ fs.map Prod.snd, ∀ r, translate n r = some (ofNode mode n r)) (r : Registry) :
    membersBy translate fs r = some (ofMembers mode fs r) := by
  induction fs generalizing r with
  | nil => rfl
  | cons f fs ih =>
    rw [List.map_cons, List.forall_mem_cons] at h
    simp only [membersBy, h.1, ofMembers, Option.bind_eq_bind, Option.bind_some, ih h.2]
    rfl

theorem elementsBy_eq {translate : Translation} {ns : List Node}
    (h : ∀ n ∈ ns, ∀ r, translate n r = some (ofNode mode n r)) (r : Registry) :
    elementsBy translate ns r = some (ofElements mode ns r) := by
  induction ns generalizing r with
  | nil => rfl
  | cons n ns ih =>
    rw [List.forall_mem_cons] at h
    simp only [elementsBy, h.1, ofElements, Option.bind_eq_bind, Option.bind_some, ih h.2]
    rfl

theorem ofNodeWithin_eq {levels : Nat} {n : Node} (h : NestsWithin levels n.at?) (r : Registry) :
    ofNodeWithin mode levels n r = some (ofNode mode n r) := by
  induction levels generalizing n r with
  | zero => exact absurd (h.pos rfl) (Nat.lt_irrefl 0)
  | succ levels ih =>
    have hparts : ∀ m ∈ n.parts, ∀ r, ofNodeWithin mode levels m r = some (ofNode mode m r) :=
      fun m hm r => ih (Node.nestsWithin_part h hm) r
    cases n with
    | primitive s => rfl
    | struct name fields =>
      rw [ofNodeWithin, membersBy_eq hparts]
      rfl
    | enum name => rfl
    | tuple elements =>
      rw [ofNodeWithin, @elementsBy_eq mode _ elements hparts]
      rfl

theorem ofBodyWithin_eq {levels : Nat} {name : String} {fields : List (String × Node)}
    (h : NestsWithin levels (Node.struct name fields).at?) (r : Registry) :
    ofBodyWithin mode levels fields r = some (ofBody mode fields r) := by
  cases levels with
  | zero => exact absurd (h.pos rfl) (Nat.lt_irrefl 0)
  | succ levels =>
    have hparts : ∀ m ∈ fields.map Prod.snd, ∀ r,
        ofNodeWithin mode levels m r = some (ofNode mode m r) :=
      fun m hm r => ofNodeWithin_eq (Node.nestsWithin_part h hm) r
    rw [ofBodyWithin, membersBy_eq hparts]
    rfl

theorem mapM_eq_some {α β : Type} {f : α → Option β} {g : α → β} {as : List α}
    (h : ∀ a ∈ as, f a = some (g a)) : as.mapM f = some (as.map g) := by
  induction as with
  | nil => rfl
  | cons a as ih =>
    rw [List.forall_mem_cons] at h
    rw [List.mapM_cons, h.1, ih h.2]
    rfl

theorem textWithin_eq {levels : Nat} {e : TypeExpr} (h : NestsWithin levels e.at?) :
    e.textWithin levels = some e.text := by
  induction levels generalizing e with
  | zero => exact absurd (h.pos rfl) (Nat.lt_irrefl 0)
  | succ levels ih =>
    have hparts : ∀ d ∈ e.parts, d.textWithin levels = some d.text := fun d hd =>
      ih (nestsWithin_part h hd)
    cases e with
    | scalar t => rfl
    | record fields =>
      have hfields : ∀ f ∈ fields, (do return f.1 ++ ": " ++ (← textWithin levels f.2)) =
          some (f.1 ++ ": " ++ f.2.text) := fun f hf => by
        rw [hparts f.2 (List.mem_map_of_mem hf)]
        rfl
      rw [textWithin, mapM_eq_some hfields, ← fieldTexts_eq_map, text]
      rfl
    | tuple elements =>
      rw [textWithin, @mapM_eq_some _ _ _ _ elements hparts, ← elementTexts_eq_map, text]
      rfl

end Levels

end Recs.TypeExpr

end ModelBindings
