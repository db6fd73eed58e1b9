import ModelBindings.Double.Shortest
import ModelBindings.Text.Quoted

/-!
JSON values. An object keeps its members in the order of their first appearance, each with the
value it was given last.
-/

namespace ModelBindings.Json

inductive Number where
  | integer (n : Int)
  | double (x : Double)
  deriving DecidableEq, Repr, Inhabited

def Number.text : Number → String
  | .integer n => toString n
  | .double x => x.text

inductive Value where
  | null
  | bool (b : Bool)
  | number (n : Number)
  | string (s : String)
  | array (items : List Value)
  | object (members : List (String × Value))
  deriving Repr, Inhabited

namespace Value

mutual
def decEq : (a b : Value) → Decidable (a = b)
  | .null, .null => isTrue rfl
  | .bool b, .bool c => decidable_of_iff (b = c) (by simp)
  | .number n, .number m => decidable_of_iff (n = m) (by simp)
  | .string s, .string t => decidable_of_iff (s = t) (by simp)
  | .array vs, .array ws =>
      have := decEqItems vs ws
      decidable_of_iff (vs = ws) (by simp)
  | .object ms, .object ns =>
      have := decEqMembers ms ns
      decidable_of_iff (ms = ns) (by simp)
  | .null, .bool _ | .null, .number _ | .null, .string _ | .null, .array _ | .null, .object _ =>
      isFalse nofun
  | .bool _, .null | .bool _, .number _ | .bool _, .string _ | .bool _, .array _ |
    .bool _, .object _ => isFalse nofun
  | .number _, .null | .number _, .bool _ | .number _, .string _ | .number _, .array _ |
    .number _, .object _ => isFalse nofun
  | .string _, .null | .string _, .bool _ | .string _, .number _ | .string _, .array _ |
    .string _, .object _ => isFalse nofun
  | .array _, .null | .array _, .bool _ | .array _, .number _ | .array _, .string _ |
    .array _, .object _ => isFalse nofun
  | .object _, .null | .object _, .bool _ | .object _, .number _ | .object _, .string _ |
    .object _, .array _ => isFalse nofun
termination_by structural a => a

def decEqItems : (a b : List Value) → Decidable (a = b)
  | [], [] => isTrue rfl
  | [], _ :: _ | _ :: _, [] => isFalse nofun
  | v :: vs, w :: ws =>
      have := decEq v w
      have := decEqItems vs ws
      decidable_of_iff (v = w ∧ vs = ws) (by simp)
termination_by structural a => a

def decEqMembers : (a b : List (String × Value)) → Decidable (a = b)
  | [], [] => isTrue rfl
  | [], _ :: _ | _ :: _, [] => isFalse nofun
  | (k, v) :: ms, (l, w) :: ns =>
      have := decEq v w
      have := decEqMembers ms ns
      decidable_of_iff ((k = l ∧ v = w) ∧ ms = ns) (by simp)
termination_by structural a => a
end

instance : DecidableEq Value := decEq

end Value

abbrev Members := List (String × Value)

def Members.insert (key : String) (v : Value) : Members → Members
  | [] => [(key, v)]
  | (k, w) :: ms => if k = key then (k, v) :: ms else (k, w) :: Members.insert key v ms

def Members.get? (key : String) (ms : Members) : Option Value :=
  ms.lookup key

def Members.ofWritten (ms : Members) : Members :=
  ms.foldl (fun acc m => acc.insert m.1 m.2) []

theorem Members.get?_insert_self (key : String) (v : Value) (ms : Members) :
    Members.get? key (Members.insert key v ms) = some v := by
  induction ms with
  | nil => simp [insert, get?]
  | cons m ms ih =>
    obtain ⟨k, w⟩ := m
    by_cases h : k = key
    · simp [insert, get?, h]
    · simpa [insert, get?, h, List.lookup_cons, beq_false_of_ne (Ne.symm h)] using ih

theorem Members.get?_insert_of_ne {key key' : String} (h : key' ≠ key) (v : Value) (ms : Members) :
    Members.get? key' (Members.insert key v ms) = Members.get? key' ms := by
  induction ms with
  | nil => simp [insert, get?, List.lookup_cons, beq_false_of_ne h]
  | cons m ms ih =>
    obtain ⟨k, w⟩ := m
    by_cases hk : k = key
    · subst hk
      simp [insert, get?, List.lookup_cons, beq_false_of_ne h]
    · simp only [get?] at ih
      simp [insert, get?, hk, List.lookup_cons, ih]

mutual
def Value.height : Value → Nat
  | .array items => heightItems items + 1
  | .object members => heightMembers members + 1
  | _ => 0
termination_by structural v => v

def heightItems : List Value → Nat
  | [] => 0
  | v :: vs => max v.height (heightItems vs)
termination_by structural vs => vs

def heightMembers : Members → Nat
  | [] => 0
  | (_, v) :: ms => max v.height (heightMembers ms)
termination_by structural ms => ms
end

inductive Shape where
  | null
  | bool (b : Bool)
  | number (n : Number)
  | string (s : String)
  | sequence
  | map
  deriving DecidableEq, Repr

def Value.shape : Value → Shape
  | .null => .null
  | .bool b => .bool b
  | .number n => .number n
  | .string s => .string s
  | .array _ => .sequence
  | .object _ => .map

def Shape.text : Shape → String
  | .null => "null"
  | .bool true => "boolean `true`"
  | .bool false => "boolean `false`"
  | .number (.integer n) => "integer `" ++ toString n ++ "`"
  | .number (.double x) => "floating point `" ++ x.text ++ "`"
  | .string s => "string " ++ Text.quoted s
  | .sequence => "sequence"
  | .map => "map"

end ModelBindings.Json
