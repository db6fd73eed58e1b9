import Mathlib.Data.List.Forall2
import ModelBindings.Proofs.Json.Lexeme
import ModelBindings.Proofs.Json.Report

/-!
Where in a value the faults lie that a decoder finds there. A record looks at its own fields only,
whatever else the value holds.
-/

namespace ModelBindings.Json

def Here (q : Path) : Prop := q = []

def Nowhere (_ : Path) : Prop := False

inductive InItems (P : Path → Prop) : Path → Prop where
  | here : InItems P []
  | item {i : Nat} {q : Path} : P q → InItems P (.index i :: q)

/-- A record, or a place in one of these fields of it, which is there by its name or by its
place. -/
inductive InFields (fs : List (String × (Path → Prop))) : Path → Prop where
  | here : InFields fs []
  | named {f : String × (Path → Prop)} {q : Path} : f ∈ fs → f.2 q → InFields fs (.key f.1 :: q)
  | placed {i : Nat} {f : String × (Path → Prop)} {q : Path} : fs[i]? = some f → f.2 q →
      InFields fs (.index i :: q)

theorem exists_of_mem_left {α β : Type} {R : α → β → Prop} {as : List α} {bs : List β}
    (h : List.Forall₂ R as bs) {a : α} (ha : a ∈ as) : ∃ b ∈ bs, R a b := by
  induction h with
  | nil => cases ha
  | cons hab _ ih =>
    cases ha with
    | head => exact ⟨_, List.mem_cons_self, hab⟩
    | tail _ ha =>
      obtain ⟨b, hb, hR⟩ := ih ha
      exact ⟨b, List.mem_cons_of_mem _ hb, hR⟩

section Outcome

variable {ε α β : Type}

theorem bind_eq_error_iff {x : Except ε α} {f : α → Except ε β} {e : ε} :
    (x >>= f) = .error e ↔ x = .error e ∨ ∃ a, x = .ok a ∧ f a = .error e := by
  cases x <;> simp [bind, Except.bind]

theorem error_of_bind_pure {x : Except ε α} {f : α → β} {e : ε}
    (h : (x >>= fun a => pure (f a)) = .error e) : x = .error e := by
  cases x with
  | ok a => cases h
  | error e' => exact congrArg _ (Except.error.inj h)

theorem path_of_atRoot {x : Except ε α} {e : Located ε} (h : atRoot x = .error e) :
    e.path = [] := by
  cases x with
  | ok a => cases h
  | error e' =>
    cases h
    rfl

theorem exists_of_within {s : Segment} {x : Except (Located ε) α} {e : Located ε}
    (h : within s x = .error e) : ∃ e', x = .error e' ∧ e.path = s :: e'.path := by
  cases x with
  | ok a => cases h
  | error e' =>
    cases h
    exact ⟨e', rfl, rfl⟩

end Outcome

namespace Decoder

variable {α β : Type} {P : Path → Prop}

def FaultsAt (d : Decoder α) (P : Path → Prop) : Prop :=
  ∀ ⦃v e⦄, d.convert v = .error e → P e.path

theorem faultsAt_map {d : Decoder α} (hd : d.FaultsAt P) (f : α → β) : (d.map f).FaultsAt P := by
  intro v e h
  rcases bind_eq_error_iff.mp h with h | ⟨a, -, h⟩
  · exact hd h
  · cases h

theorem faultsAt_any : any.FaultsAt Nowhere := by
  intro v e h
  cases h

theorem faultsAt_text : text.FaultsAt Here := by
  intro v e h
  cases v with
  | string s => cases h
  | null | bool b | number n | array vs | object ms =>
    cases h
    rfl

theorem convertItems_faults {item : Value → Converting α}
    (hitem : ∀ ⦃v e⦄, item v = .error e → P e.path) {i : Nat} {vs : List Value}
    {e : Located Cause} (h : convertItems item i vs = .error e) : InItems P e.path := by
  induction vs generalizing i with
  | nil => cases h
  | cons v vs ih =>
    rcases bind_eq_error_iff.mp h with h | ⟨a, -, h⟩
    · obtain ⟨e', he', hpath⟩ := exists_of_within h
      exact hpath ▸ .item (hitem he')
    · rcases bind_eq_error_iff.mp h with h | ⟨as, -, h⟩
      · exact ih h
      · cases h

theorem faultsAt_list {d : Decoder α} (hd : d.FaultsAt P) : (list d).FaultsAt (InItems P) := by
  intro v e h
  cases v with
  | array vs => exact convertItems_faults hd h
  | null | bool b | number n | string s | object ms =>
    cases h
    exact .here

end Decoder

namespace Record

variable {ρ α β γ : Type} {r : Record ρ α} {fs : List (String × (Path → Prop))}

def FieldFaults (f : Field ρ) (p : String × (Path → Prop)) : Prop :=
  f.key = p.1 ∧ f.decoder.FaultsAt p.2

theorem convertFields_faults (h : List.Forall₂ FieldFaults r.fields fs) {s : ρ} {ms : Members}
    {e : Located Cause} (he : r.convertFields s ms = .error e) : InFields fs e.path := by
  fun_induction convertFields r s ms with
  | case1 => cases he
  | case2 s k v ms hf ih => exact ih he
  | case3 s k v ms f hf hfilled =>
    have hpath := path_of_atRoot he
    exact hpath ▸ .here
  | case4 s k v ms f hf hfilled ih =>
    rcases bind_eq_error_iff.mp he with he | ⟨fill, -, he⟩
    · obtain ⟨e', he', hpath⟩ := exists_of_within he
      obtain ⟨p, hp, hkey, hfaults⟩ := exists_of_mem_left h (List.mem_of_find?_eq_some hf)
      have hk := List.find?_some hf
      rw [hpath, ← beq_iff_eq.mp hk, hkey]
      exact .named hp (hfaults he')
    · exact ih fill he

theorem convertPlaces_faults {fields : List (Field ρ)} (h : List.Forall₂ FieldFaults fields fs)
    {i : Nat} {s : ρ} {vs : List Value} {e : Located Cause}
    (he : convertPlaces fields i s vs = .error e) :
    ∃ j p q, fs[j]? = some p ∧ p.2 q ∧ e.path = .index (i + j) :: q := by
  induction h generalizing i s vs with
  | nil => cases he
  | cons hp _ ih =>
    cases vs with
    | nil => cases he
    | cons v vs =>
      rcases bind_eq_error_iff.mp he with he | ⟨fill, -, he⟩
      · obtain ⟨e', he', hpath⟩ := exists_of_within he
        exact ⟨0, _, _, rfl, hp.2 he', hpath⟩
      · obtain ⟨j, p, q, hj, hq, hpath⟩ := ih he
        refine ⟨j + 1, p, q, hj, hq, ?_⟩
        rw [hpath, Nat.add_assoc, Nat.add_comm 1 j]

theorem faultsAt_decoder (h : List.Forall₂ FieldFaults r.fields fs) :
    r.decoder.FaultsAt (InFields fs) := by
  intro v e he
  have hroot (hpath : e.path = []) : InFields fs e.path := hpath ▸ .here
  cases v with
  | array vs =>
    rcases bind_eq_error_iff.mp he with he | ⟨⟨s, rest⟩, -, he⟩
    · obtain ⟨j, p, q, hj, hq, hpath⟩ := convertPlaces_faults h he
      rw [hpath, Nat.zero_add]
      exact .placed hj hq
    · dsimp only at he
      split at he
      · exact hroot (path_of_atRoot he)
      · cases he
      · exact hroot (path_of_atRoot he)
  | object ms =>
    rcases bind_eq_error_iff.mp he with he | ⟨s, -, he⟩
    · exact convertFields_faults h he
    · split at he
      · cases he
      · exact hroot (path_of_atRoot he)
  | null | bool b | number n | string s =>
    cases he
    exact .here

variable {name key key' : String} {d : Decoder β} {d' : Decoder γ} {P P' : Path → Prop}

theorem faultsAt_one {default? : Option β} (hd : d.FaultsAt P) :
    (one name key d default?).decoder.FaultsAt (InFields [(key, P)]) :=
  faultsAt_decoder (.cons ⟨rfl, Decoder.faultsAt_map hd _⟩ .nil)

theorem faultsAt_two {default? : Option γ} (hd : d.FaultsAt P) (hd' : d'.FaultsAt P') :
    (two name key d key' d' default?).decoder.FaultsAt (InFields [(key, P), (key', P')]) :=
  faultsAt_decoder (.cons ⟨rfl, Decoder.faultsAt_map hd _⟩
    (.cons ⟨rfl, Decoder.faultsAt_map hd' _⟩ .nil))

end Record

/-- What is not taken for the root or for an index where it starts a path. -/
def Plain (s : String) : Prop :=
  ∃ c cs, s.toList = c :: cs ∧ c ≠ '.' ∧ c ≠ '['

theorem Plain.append {s : String} (h : Plain s) (t : String) : Plain (s ++ t) := by
  obtain ⟨c, cs, hs, hc⟩ := h
  exact ⟨c, cs ++ t.toList, by rw [String.toList_append, hs, List.cons_append], hc⟩

theorem plain_of_head {s : String} {c : Char} (h : s.toList.head? = some c) (hc : c ≠ '.')
    (hc' : c ≠ '[') : Plain s := by
  obtain ⟨cs, hs⟩ := List.head?_eq_some_iff.mp h
  exact ⟨c, cs, hs, hc, hc'⟩

def Path.Anchored (q : Path) : Prop :=
  ∀ s ∈ q.head?, (∃ i, s = .index i) ∨ ∃ key, s = .key key ∧ Plain key

theorem InItems.anchored {P : Path → Prop} {q : Path} (h : InItems P q) : q.Anchored := by
  rintro s hs
  cases h with
  | here => cases hs
  | item =>
    cases hs
    exact .inl ⟨_, rfl⟩

theorem InFields.anchored {fs : List (String × (Path → Prop))} {q : Path} (h : InFields fs q)
    (hfs : ∀ f ∈ fs, Plain f.1) : q.Anchored := by
  rintro s hs
  cases h with
  | here => cases hs
  | named hf =>
    cases hs
    exact .inr ⟨_, rfl, hfs _ hf⟩
  | placed =>
    cases hs
    exact .inl ⟨_, rfl⟩

namespace Report

theorem suffix_of_plain {path : String} (h : Plain path) : suffix path = "." ++ path := by
  obtain ⟨c, cs, hs, hdot, hbracket⟩ := h
  have hroot : path ≠ "." := fun h => by
    rw [h] at hs
    exact hdot (List.cons.inj hs).1.symm
  have hindex : ¬ path.toList.head? = some '[' := by simpa [hs] using hbracket
  rw [suffix, if_neg hroot, if_neg hindex]

theorem suffix_of_index (s : String) : suffix ("[" ++ s) = "[" ++ s := by
  have hs : ("[" ++ s).toList = '[' :: s.toList := by simp
  have hroot : "[" ++ s ≠ "." := fun h => by
    rw [h] at hs
    exact absurd (List.cons.inj hs).1 (by decide)
  rw [suffix, if_neg hroot, if_pos (by rw [hs]; rfl)]

theorem suffix_text {q : Path} (hq : q.Anchored) :
    suffix q.text = String.join (q.map Segment.joined) := by
  cases q with
  | nil => rw [List.map_nil, String.join_nil]; rfl
  | cons s q =>
    rw [List.map_cons, String.join_cons, Path.text]
    rcases hq s rfl with ⟨i, rfl⟩ | ⟨key, rfl, hkey⟩
    · rw [Segment.joined, Segment.text, String.append_assoc, String.append_assoc, suffix_of_index]
    · exact (suffix_of_plain (hkey.append _)).trans (String.append_assoc ..).symm

theorem anchorAt_text {q : Path} (hq : q.Anchored) (message anchor : String) :
    anchorAt ⟨q.text, message⟩ anchor =
      ⟨anchor ++ String.join (q.map Segment.joined), message⟩ := by
  rw [anchorAt_eq, suffix_text hq]

end Report

end ModelBindings.Json
