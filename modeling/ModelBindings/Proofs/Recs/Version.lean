import Mathlib.Data.List.TakeWhile
import ModelBindings.Recs.Version

namespace ModelBindings

namespace Text

theorem dropWhile_blank {before t : List Char} (hb : ∀ c ∈ before, isBlank c = true)
    (ht : ∀ c ∈ t.head?, isBlank c = false) : (before ++ t).dropWhile isBlank = t := by
  rw [List.dropWhile_append_of_pos hb]
  cases t with
  | nil => rfl
  | cons c t => exact List.dropWhile_cons_of_neg (Bool.eq_false_iff.mp (ht c rfl))

theorem trim_of_blank {before t after : List Char} (hb : ∀ c ∈ before, isBlank c = true)
    (hn : t ≠ []) (ht : ∀ c ∈ t, isBlank c = false) (ha : ∀ c ∈ after, isBlank c = true) :
    trim (.ofList (before ++ t ++ after)) = .ofList t := by
  have hstart : ∀ c ∈ (t ++ after).head?, isBlank c = false := by
    intro c hc
    rw [List.head?_append, List.head?_eq_some_head hn] at hc
    cases hc
    exact ht _ (List.head_mem hn)
  have hend : ∀ c ∈ t.reverse.head?, isBlank c = false := fun c hc =>
    ht c (List.mem_reverse.mp (List.mem_of_mem_head? hc))
  rw [trim, String.toList_ofList, trimStart, List.append_assoc, dropWhile_blank hb hstart,
    trimEnd, List.reverse_append, dropWhile_blank (by simpa using ha) hend, List.reverse_reverse]

theorem isBlank_of_isDigit {c : Char} (h : c.isDigit = true) : isBlank c = false := by
  have hc : 48 ≤ c.toNat ∧ c.toNat ≤ 57 := Char.isDigit_iff_toNat.mp h
  simp only [isBlank, Bool.or_eq_false_iff, Bool.and_eq_false_iff, decide_eq_false_iff_not,
    beq_eq_false_iff_ne]
  omega

end Text

namespace Recs

inductive Operator where
  | caret
  | tilde
  deriving DecidableEq, Repr

def Operator.sign : Operator → Char
  | .caret => '^'
  | .tilde => '~'

structure VersionConstraint where
  before : List Char
  operator : Option Operator
  major : Nat
  minors : List Nat
  after : List Char
  blank_before : ∀ c ∈ before, Text.isBlank c = true
  length_minors : minors.length ≤ 2
  blank_after : ∀ c ∈ after, Text.isBlank c = true

def digits (n : Nat) : List Char := Nat.toDigits 10 n

def versionText (major : Nat) (minors : List Nat) : List Char :=
  digits major ++ minors.flatMap fun n => '.' :: digits n

namespace VersionConstraint

def pin (c : VersionConstraint) : List Char :=
  (c.operator.map Operator.sign).toList ++ versionText c.major c.minors

def text (c : VersionConstraint) : String :=
  .ofList (c.before ++ c.pin ++ c.after)

end VersionConstraint

theorem isDigit_of_mem_digits {n : Nat} {c : Char} (h : c ∈ digits n) : c.isDigit = true :=
  Nat.isDigit_of_mem_toDigits (by decide) (by decide) h

theorem exists_digits_eq_cons (n : Nat) : ∃ c cs, digits n = c :: cs ∧ c.isDigit = true := by
  obtain ⟨c, cs, hc⟩ := List.exists_cons_of_ne_nil (Nat.toDigits_ne_nil (n := n) (b := 10))
  have hc : digits n = c :: cs := hc
  exact ⟨c, cs, hc, isDigit_of_mem_digits (n := n) (hc ▸ List.mem_cons_self)⟩

theorem digits_injective {n m : Nat} (h : digits n = digits m) : n = m := by
  calc n
    _ = Nat.ofDigitChars 10 (digits n) 0 := Nat.ofDigitChars_ten_toDigits.symm
    _ = Nat.ofDigitChars 10 (digits m) 0 := by rw [h]
    _ = m := Nat.ofDigitChars_ten_toDigits

theorem takeWhile_versionText (major : Nat) (minors : List Nat) :
    (versionText major minors).takeWhile Char.isDigit = digits major := by
  rw [versionText, List.takeWhile_append_of_pos fun _ => isDigit_of_mem_digits]
  cases minors with
  | nil => exact List.append_nil _
  | cons n minors => exact List.append_nil _

theorem pinsTwo_iff {cs : List Char} : pinsTwo cs = true ↔ ∃ t, cs = '2' :: '.' :: t := by
  constructor
  · intro h
    rw [pinsTwo.eq_def] at h
    split at h
    · exact ⟨_, rfl⟩
    · cases h
  · rintro ⟨t, rfl⟩
    rfl

theorem pinsTwo_versionText {major : Nat} {minors : List Nat} :
    pinsTwo (versionText major minors) = true ↔ major = 2 ∧ minors ≠ [] := by
  rw [pinsTwo_iff]
  constructor
  · rintro ⟨t, ht⟩
    -- the digits at the front are those of the first number, and here there is one of them
    have hmajor : digits major = ['2'] := by
      rw [← takeWhile_versionText major minors, ht]
      rfl
    refine ⟨digits_injective (m := 2) hmajor, ?_⟩
    rintro rfl
    rw [versionText, hmajor] at ht
    cases ht
  · rintro ⟨rfl, h⟩
    cases minors with
    | nil => exact absurd rfl h
    | cons n minors => exact ⟨_, rfl⟩

namespace VersionConstraint

variable (c : VersionConstraint)

theorem pin_ne_nil : c.pin ≠ [] := by
  obtain ⟨d, ds, hd, -⟩ := exists_digits_eq_cons c.major
  simp [pin, versionText, hd]

theorem not_isBlank_of_mem_pin {x : Char} (h : x ∈ c.pin) : Text.isBlank x = false := by
  rw [pin, versionText, List.mem_append, List.mem_append, List.mem_flatMap] at h
  rcases h with h | h | ⟨n, -, h⟩
  · obtain ⟨o, -, rfl⟩ := Option.map_eq_some_iff.mp (Option.mem_toList.mp h)
    cases o <;> decide
  · exact Text.isBlank_of_isDigit (isDigit_of_mem_digits h)
  · rcases List.mem_cons.mp h with rfl | h
    · decide
    · exact Text.isBlank_of_isDigit (isDigit_of_mem_digits h)

theorem toList_trim_text : (Text.trim c.text).toList = c.pin := by
  rw [text, Text.trim_of_blank c.blank_before c.pin_ne_nil (fun _ => c.not_isBlank_of_mem_pin)
    c.blank_after, String.toList_ofList]

theorem ofConstraint_text : Mode.ofConstraint c.text =
    if pinsTwo (versionText c.major c.minors) then .wide else .narrow := by
  simp only [Mode.ofConstraint, toList_trim_text, pin]
  cases c.operator with
  | none =>
    obtain ⟨d, ds, hd, hdigit⟩ := exists_digits_eq_cons c.major
    have htext : versionText c.major c.minors =
        d :: (ds ++ c.minors.flatMap fun n => '.' :: digits n) := by
      rw [versionText, hd, List.cons_append]
    simp only [Option.map_none, Option.toList_none, List.nil_append, htext]
    split
    · rename_i h
      cases h
      cases hdigit
    · rename_i h
      cases h
      cases hdigit
    · rfl
  | some o => cases o <;> rfl

end VersionConstraint

/-- A version that is the number 2 alone is not told from one of another major version. -/
theorem ofConstraint_eq_wide_iff (c : VersionConstraint) :
    Mode.ofConstraint c.text = .wide ↔ c.major = 2 ∧ c.minors ≠ [] := by
  rw [c.ofConstraint_text, ← pinsTwo_versionText]
  cases pinsTwo (versionText c.major c.minors) <;> decide

def caretTwo : VersionConstraint where
  before := []
  operator := some .caret
  major := 2
  minors := []
  after := []
  blank_before := nofun
  length_minors := Nat.zero_le 2
  blank_after := nofun

theorem ofConstraint_caretTwo :
    caretTwo.text = "^2" ∧ caretTwo.major = 2 ∧ Mode.ofConstraint caretTwo.text = .narrow := by
  decide

end Recs

end ModelBindings
