import Mathlib.Data.List.Nodup
import ModelBindings.Manifest
import ModelBindings.Proofs.Json.Lexeme

/-!
What the check of a manifest finds. It accepts names that are not blank and pairwise different, and
otherwise tells of the first name that is blank or stands before it too.
-/

namespace ModelBindings.Manifest

open Json (bind_eq_ok_iff mapError_eq_ok_iff)

def Blank (name : String) : Prop := ∀ c ∈ name.toList, Text.isBlank c = true

instance (name : String) : Decidable (Blank name) :=
  decidable_of_iff _ Text.allBlank_eq_true_iff

def Faulty (names : List String) (i : Nat) : Prop :=
  ∃ name, names[i]? = some name ∧ (Blank name ∨ ∃ j < i, names[j]? = some name)

structure FirstFault (names : List String) (i : Nat) (name : String) : Prop where
  getElem?_eq : names[i]? = some name
  faulty : Faulty names i
  first : ∀ j < i, ¬ Faulty names j

/-- That a name is blank goes before that it is repeated. -/
def faultAt (i : Nat) (name : String) : Error :=
  if Blank name then .blank i else .repeated name

theorem faultAt_ne_unreadable (i : Nat) (name : String) (r : Json.Report) :
    faultAt i name ≠ .unreadable r := by
  intro h
  rw [faultAt] at h
  split at h <;> cases h

theorem check_cons (seen names : List String) (i : Nat) (name : String) :
    (Blank name ∨ name ∈ seen) ∧ check seen i (name :: names) = .error (faultAt i name) ∨
      (¬ Blank name ∧ name ∉ seen) ∧
        check seen i (name :: names) = check (name :: seen) (i + 1) names := by
  rw [check, faultAt]
  by_cases hb : Blank name
  · rw [if_pos hb, if_pos (Text.allBlank_eq_true_iff.mpr hb)]
    exact .inl ⟨.inl hb, rfl⟩
  · rw [if_neg hb, if_neg (mt Text.allBlank_eq_true_iff.mp hb)]
    by_cases hs : name ∈ seen
    · rw [if_pos (List.contains_iff_mem.mpr hs)]
      exact .inl ⟨.inr hs, rfl⟩
    · rw [if_neg (mt List.contains_iff_mem.mp hs)]
      exact .inr ⟨⟨hb, hs⟩, rfl⟩

theorem check_eq_ok_iff {seen names : List String} {i : Nat} :
    check seen i names = .ok () ↔
      (∀ name ∈ names, ¬ Blank name ∧ name ∉ seen) ∧ names.Nodup := by
  induction names generalizing seen i with
  | nil => simp [check]
  | cons name names ih =>
    rw [List.forall_mem_cons, List.nodup_cons]
    obtain ⟨hf, hc⟩ | ⟨hf, hc⟩ := check_cons seen names i name
    · rw [hc]
      constructor
      · intro h
        cases h
      · intro h
        exact absurd hf (not_or.mpr h.1.1)
    · rw [hc, ih]
      constructor
      · rintro ⟨h, hn⟩
        refine ⟨⟨hf, fun k hk => ⟨(h k hk).1, ?_⟩⟩, fun hm => (h name hm).2 List.mem_cons_self, hn⟩
        exact fun hs => (h k hk).2 (List.mem_cons_of_mem _ hs)
      · rintro ⟨⟨-, h⟩, hm, hn⟩
        refine ⟨fun k hk => ⟨(h k hk).1, fun hs => ?_⟩, hn⟩
        rcases List.mem_cons.mp hs with rfl | hs
        · exact hm hk
        · exact (h k hk).2 hs

theorem exists_of_check_eq_error {seen names : List String} {i : Nat} {e : Error}
    (h : check seen i names = .error e) :
    ∃ before name after, names = before ++ name :: after ∧ check seen i before = .ok () ∧
      (Blank name ∨ name ∈ seen ∨ name ∈ before) ∧ e = faultAt (i + before.length) name := by
  -- The names that pass are seen from then on, so a fault found later is one of the whole list.
  induction names generalizing seen i with
  | nil => cases h
  | cons name names ih =>
    obtain ⟨hf, hc⟩ | ⟨hf, hc⟩ := check_cons seen names i name
    · cases hc.symm.trans h
      exact ⟨[], name, names, rfl, rfl, hf.imp id .inl, rfl⟩
    · obtain ⟨before, k, after, rfl, hok, hk, rfl⟩ := ih (hc.symm.trans h)
      refine ⟨name :: before, k, after, rfl, ?_, ?_, ?_⟩
      · obtain ⟨hf', -⟩ | ⟨-, hc'⟩ := check_cons seen before i name
        · exact absurd hf' (not_or.mpr hf)
        · exact hc'.trans hok
      · rw [List.mem_cons] at hk ⊢
        tauto
      · rw [List.length_cons, Nat.add_right_comm, Nat.add_assoc]

theorem validate_eq_ok_iff {names : List String} :
    validate ⟨names⟩ = .ok () ↔ (∀ name ∈ names, ¬ Blank name) ∧ names.Nodup := by
  simp [validate, check_eq_ok_iff]

theorem faulty_append_iff {before rest : List String} {i : Nat} (h : i < before.length) :
    Faulty (before ++ rest) i ↔ Faulty before i := by
  have hget {j : Nat} (hj : j ≤ i) : (before ++ rest)[j]? = before[j]? :=
    List.getElem?_append_left (Nat.lt_of_le_of_lt hj h)
  rw [Faulty, Faulty, hget (Nat.le_refl i)]
  refine exists_congr fun name => and_congr_right fun _ => or_congr_right ?_
  exact exists_congr fun j => and_congr_right fun hj => by rw [hget (Nat.le_of_lt hj)]

theorem not_faulty_iff {names : List String} :
    (∀ i, ¬ Faulty names i) ↔ (∀ name ∈ names, ¬ Blank name) ∧ names.Nodup := by
  rw [List.nodup_iff_getElem?_ne_getElem?]
  constructor
  · intro h
    refine ⟨fun name hname hb => ?_, fun i j hij hj he => ?_⟩
    · obtain ⟨i, hi⟩ := List.mem_iff_getElem?.mp hname
      exact h i ⟨name, hi, .inl hb⟩
    · have hname := List.getElem?_eq_getElem hj
      exact h j ⟨names[j], hname, .inr ⟨i, hij, he.trans hname⟩⟩
  · rintro ⟨hblank, hne⟩ i ⟨name, hi, hb | ⟨j, hj, hji⟩⟩
    · exact hblank name (List.mem_iff_getElem?.mpr ⟨i, hi⟩) hb
    · exact hne j i hj (List.getElem?_eq_some_iff.mp hi).1 (hji.trans hi.symm)

namespace FirstFault

variable {names : List String} {i : Nat} {name : String}

theorem lt_length (h : FirstFault names i name) : i < names.length :=
  (List.getElem?_eq_some_iff.mp h.getElem?_eq).1

theorem append (h : FirstFault names i name) (more : List String) :
    FirstFault (names ++ more) i name where
  getElem?_eq := (List.getElem?_append_left h.lt_length).trans h.getElem?_eq
  faulty := (faulty_append_iff h.lt_length).mpr h.faulty
  first j hj hf := h.first j hj ((faulty_append_iff (Nat.lt_trans hj h.lt_length)).mp hf)

theorem unique {i' : Nat} {name' : String} (h : FirstFault names i name)
    (h' : FirstFault names i' name') : i = i' ∧ name = name' := by
  obtain rfl : i = i' := by
    rcases Nat.lt_trichotomy i i' with hlt | heq | hlt
    · exact absurd h.faulty (h'.first i hlt)
    · exact heq
    · exact absurd h'.faulty (h.first i' hlt)
  exact ⟨rfl, Option.some.inj (h.getElem?_eq.symm.trans h'.getElem?_eq)⟩

end FirstFault

theorem exists_firstFault {names : List String} {e : Error} (h : validate ⟨names⟩ = .error e) :
    ∃ i name, FirstFault names i name ∧ e = faultAt i name := by
  obtain ⟨before, name, after, rfl, hok, hname, rfl⟩ := exists_of_check_eq_error h
  have hat : (before ++ name :: after)[before.length]? = some name := by simp
  refine ⟨before.length, name, ⟨hat, ⟨name, hat, ?_⟩, fun j hj hf => ?_⟩, by rw [Nat.zero_add]⟩
  · rcases hname with hb | hs | hm
    · exact .inl hb
    · cases hs
    · obtain ⟨j, hj⟩ := List.mem_iff_getElem?.mp hm
      have hlt := (List.getElem?_eq_some_iff.mp hj).1
      exact .inr ⟨j, hlt, (List.getElem?_append_left hlt).trans hj⟩
  · exact not_faulty_iff.mpr (validate_eq_ok_iff.mp hok) j ((faulty_append_iff hj).mp hf)

theorem validate_eq_error_iff {names : List String} {e : Error} :
    validate ⟨names⟩ = .error e ↔ ∃ i name, FirstFault names i name ∧ e = faultAt i name := by
  refine ⟨exists_firstFault, ?_⟩
  rintro ⟨i, name, hfirst, rfl⟩
  cases hv : validate ⟨names⟩ with
  | ok u => exact absurd hfirst.faulty (not_faulty_iff.mpr (validate_eq_ok_iff.mp hv) i)
  | error e =>
    obtain ⟨i', name', hfirst', rfl⟩ := exists_firstFault hv
    obtain ⟨rfl, rfl⟩ := hfirst.unique hfirst'
    rfl

/-- A part of an accepted manifest is accepted in any order, and more names at the end do not change
what is told of a manifest that is refused. -/
theorem validate_first_fault (names : List String) :
    (validate ⟨names⟩ = .ok () ↔
      (∀ name ∈ names, ∃ c ∈ name.toList, Text.isBlank c = false) ∧ names.Nodup) ∧
    (∀ e, validate ⟨names⟩ = .error e ↔
      ∃ i name, FirstFault names i name ∧ e = if Blank name then .blank i else .repeated name) ∧
    (validate ⟨names⟩ = .ok () → ∀ part : List String, part.Sublist names ∨ part.Perm names →
      validate ⟨part⟩ = .ok ()) ∧
    ∀ e, validate ⟨names⟩ = .error e → ∀ more, validate ⟨names ++ more⟩ = .error e := by
  refine ⟨?_, fun e => validate_eq_error_iff, fun h part hpart => ?_, fun e h more => ?_⟩
  · simp [validate_eq_ok_iff, Blank]
  · obtain ⟨hblank, hnodup⟩ := validate_eq_ok_iff.mp h
    rw [validate_eq_ok_iff]
    rcases hpart with hs | hp
    · exact ⟨fun name hname => hblank name (hs.mem hname), hnodup.sublist hs⟩
    · exact ⟨fun name hname => hblank name (hp.mem_iff.mp hname), hp.nodup_iff.mpr hnodup⟩
  · obtain ⟨i, name, hfirst, rfl⟩ := exists_firstFault h
    exact validate_eq_error_iff.mpr ⟨i, name, hfirst.append more, rfl⟩

theorem nodup_names {text : String} {m : Manifest} (h : ofText text = .ok m) : m.names.Nodup := by
  obtain ⟨m', -, h₁⟩ := bind_eq_ok_iff.mp h
  obtain ⟨⟨⟩, hv, h₂⟩ := bind_eq_ok_iff.mp h₁
  cases h₂
  exact (validate_eq_ok_iff.mp hv).2

theorem ofText_of_one {text name : String} (h : decoder.ofText text = .ok ⟨[name]⟩)
    (hb : Text.allBlank name = false) : ofText text = .ok ⟨[name]⟩ := by
  have hv : validate ⟨[name]⟩ = .ok () := by simp [validate, check, hb]
  rw [ofText, mapError_eq_ok_iff.mpr h, Json.ok_bind, hv]
  rfl

end ModelBindings.Manifest
