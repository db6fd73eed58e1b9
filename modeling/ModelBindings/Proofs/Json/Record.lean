import Mathlib.Data.List.Nodup
import ModelBindings.Proofs.Json.Decoder

/-!
The fields of a record in a value: by their names, in any order and among other members, or by their
places. What a record of one field or of two makes of a value is decided by them.
-/

namespace ModelBindings.Json

inductive HasFields : Value → Members → Prop where
  | named {ms fs : Members} : (∀ f ∈ fs, f ∈ ms) → HasFields (.object ms) fs
  | placed (fs : Members) : HasFields (.array (fs.map Prod.snd)) fs

@[simp] theorem hasFields_array {vs : List Value} {fs : Members} :
    HasFields (.array vs) fs ↔ vs = fs.map Prod.snd := by
  constructor
  · intro h
    cases h
    rfl
  · rintro rfl
    exact .placed fs

@[simp] theorem hasFields_object {ms fs : Members} :
    HasFields (.object ms) fs ↔ ∀ f ∈ fs, f ∈ ms := by
  constructor
  · intro h
    cases h
    assumption
  · exact .named

theorem HasFields.height_lt {v : Value} {fs : Members} (h : HasFields v fs) {f : String × Value}
    (hf : f ∈ fs) : f.2.height < v.height := by
  cases h with
  | named h => exact Nat.lt_succ_of_le (height_le_of_mem_members (h f hf))
  | placed fs => exact Nat.lt_succ_of_le (height_le_of_mem_items (List.mem_map_of_mem hf))

theorem HasFields.distinct {v : Value} {fs : Members} (h : HasFields v fs)
    (hv : v.distinct = true) {f : String × Value} (hf : f ∈ fs) : f.2.distinct = true := by
  cases h with
  | named h => exact (Value.distinct_object.mp hv).2 f (h f hf)
  | placed fs => exact distinctItems_iff.mp hv _ (List.mem_map_of_mem hf)

theorem HasFields.height_pos {v : Value} {f : String × Value} {fs : Members}
    (h : HasFields v (f :: fs)) : 0 < v.height :=
  Nat.lt_of_le_of_lt (Nat.zero_le _) (h.height_lt List.mem_cons_self)

theorem HasFields.second_height_lt {v : Value} {f f' : String × Value} (h : HasFields v [f, f']) :
    f'.2.height < v.height :=
  h.height_lt (List.mem_cons_of_mem _ List.mem_cons_self)

theorem HasFields.second {v : Value} {f f' : String × Value} (h : HasFields v [f, f'])
    (hv : v.distinct = true) : f'.2.height < v.height ∧ f'.2.distinct = true :=
  ⟨h.second_height_lt, h.distinct hv (List.mem_cons_of_mem _ List.mem_cons_self)⟩

/-- There is no member of this name. An array has its fields by their places only. -/
def Value.Lacks (key : String) (v : Value) : Prop :=
  ∀ ms, v = .object ms → key ∉ ms.map Prod.fst

namespace Members

theorem get?_cons_self (k : String) (v : Value) (ms : Members) :
    get? k ((k, v) :: ms) = some v := by
  simp [get?]

theorem get?_cons_of_ne {k k' : String} (h : k ≠ k') (v : Value) (ms : Members) :
    get? k ((k', v) :: ms) = get? k ms := by
  simp [get?, List.lookup_cons, beq_false_of_ne h]

theorem get?_append (k : String) (ms ns : Members) :
    get? k (ms ++ ns) = (get? k ms).or (get? k ns) :=
  List.lookup_append

theorem get?_map (k : String) (f : Value → Value) (ms : Members) :
    get? k (ms.map fun m => (m.1, f m.2)) = (get? k ms).map f := by
  induction ms with
  | nil => rfl
  | cons m ms ih =>
    obtain ⟨k', v⟩ := m
    rw [List.map_cons]
    by_cases hk : k = k'
    · subst hk
      rw [get?_cons_self, get?_cons_self]
      rfl
    · rw [get?_cons_of_ne hk, get?_cons_of_ne hk, ih]

theorem get?_eq_none {k : String} {ms : Members} (h : k ∉ ms.map Prod.fst) : get? k ms = none := by
  refine List.lookup_eq_none_iff.mpr fun m hm => ?_
  rw [bne_iff_ne]
  rintro rfl
  exact h (List.mem_map_of_mem hm)

theorem get?_eq_none_iff {k : String} {ms : Members} : get? k ms = none ↔ k ∉ ms.map Prod.fst := by
  refine ⟨fun h hk => ?_, get?_eq_none⟩
  obtain ⟨m, hm, rfl⟩ := List.mem_map.mp hk
  simpa using List.lookup_eq_none_iff.mp h m hm

def Once (key : String) (ms : Members) : Prop := (ms.map Prod.fst).count key ≤ 1

namespace Once

variable {key : String} {m : String × Value} {ms : Members}

theorem of_nodup (h : (ms.map Prod.fst).Nodup) (key : String) : Once key ms :=
  List.nodup_iff_count_le_one.mp h key

theorem tail (h : Once key (m :: ms)) : Once key ms := by
  rw [Once, List.map_cons, List.count_cons] at h
  exact Nat.le_trans (Nat.le_add_right _ _) h

theorem get?_tail (h : Once m.1 (m :: ms)) : get? m.1 ms = none := by
  rw [Once, List.map_cons, List.count_cons_self] at h
  exact get?_eq_none (List.count_eq_zero.mp (Nat.le_zero.mp (Nat.le_of_succ_le_succ h)))

end Once

theorem get?_foldl_insert (key : String) (ms acc : Members) :
    get? key (ms.foldl (fun acc m => acc.insert m.1 m.2) acc) =
      (get? key ms.reverse).or (get? key acc) := by
  induction ms generalizing acc with
  | nil => rfl
  | cons m ms ih =>
    obtain ⟨k, v⟩ := m
    rw [List.foldl_cons, ih, List.reverse_cons, get?_append, Option.or_assoc]
    by_cases hk : key = k
    · subst hk
      rw [get?_insert_self, get?_cons_self]
      rfl
    · rw [get?_insert_of_ne hk, get?_cons_of_ne hk]
      rfl

theorem get?_ofWritten_eq_reverse (key : String) (ms : Members) :
    get? key (ofWritten ms) = get? key ms.reverse := by
  rw [ofWritten, get?_foldl_insert]
  exact Option.or_none

theorem get?_reverse {key : String} {ms : Members} (h : Once key ms) :
    get? key ms.reverse = get? key ms := by
  induction ms with
  | nil => rfl
  | cons m ms ih =>
    obtain ⟨k, v⟩ := m
    rw [List.reverse_cons, get?_append, ih h.tail]
    by_cases hk : key = k
    · subst hk
      rw [h.get?_tail, get?_cons_self, get?_cons_self]
      rfl
    · rw [get?_cons_of_ne hk, get?_cons_of_ne hk]
      exact Option.or_none

theorem get?_ofWritten {key : String} {ms : Members} (h : Once key ms) :
    get? key (ofWritten ms) = get? key ms := by
  rw [get?_ofWritten_eq_reverse, get?_reverse h]

theorem mem_iff_get? {ms : Members} (h : (ms.map Prod.fst).Nodup) {k : String} {v : Value} :
    (k, v) ∈ ms ↔ get? k ms = some v := by
  induction ms with
  | nil => simp [get?]
  | cons m ms ih =>
    obtain ⟨k', w⟩ := m
    simp only [List.map_cons, List.nodup_cons] at h
    by_cases hk : k = k'
    · subst hk
      rw [get?_cons_self, List.mem_cons, ih h.2, get?_eq_none h.1]
      simp [eq_comm]
    · rw [get?_cons_of_ne hk, ← ih h.2, List.mem_cons]
      simp [hk]

end Members

theorem Decoder.toOption_convert_map {α β : Type} (f : α → β) (d : Decoder α) (v : Value) :
    ((d.map f).convert v).toOption = (d.convert v).toOption.map f := by
  simp only [map, toOption_bind, toOption_pure]
  cases (d.convert v).toOption <;> rfl

namespace Record

variable {β γ : Type} {name key key' : String} {d : Decoder β} {d' : Decoder γ}

def taken (d : Decoder β) (o : Option β) : Option Value → Option (Option β)
  | none => some o
  | some v => (d.convert v).toOption.map some

theorem taken_eq_some_some_iff {v? : Option Value} {b : β} :
    taken d none v? = some (some b) ↔ ∃ v, v? = some v ∧ d.convert v = .ok b := by
  cases v? <;> simp [taken, toOption_eq_some_iff]

theorem convertFields_cons_self {ρ α : Type} {r : Record ρ α} {f : Field ρ} {k : String}
    (hf : r.field? k = some f) {s : ρ} (hs : f.filled s = false) (v : Value) (ms : Members) :
    (r.convertFields s ((k, v) :: ms)).toOption =
      (f.decoder.convert v).toOption.bind fun fill => (r.convertFields (fill s) ms).toOption := by
  simp [convertFields, hf, hs]

theorem toOption_convertFields_one {default? : Option β} {ms : Members}
    (hn : ms.Once key) {o : Option β} (ho : o.isSome = true → ms.get? key = none) :
    ((one name key d default?).convertFields o ms).toOption = taken d o (ms.get? key) := by
  induction ms generalizing o with
  | nil => rfl
  | cons m ms ih =>
    obtain ⟨k, v⟩ := m
    by_cases hk : key = k
    · subst hk
      rw [Members.get?_cons_self] at ho ⊢
      have hs : o.isSome = false := Bool.eq_false_iff.mpr fun h => nomatch ho h
      have hg := hn.get?_tail
      have hf : (one name key d default?).field? key =
          some ⟨key, Option.isSome, d.map fun b _ => some b⟩ := by
        simp [field?, one]
      rw [convertFields_cons_self hf hs, Decoder.toOption_convert_map, taken]
      cases (d.convert v).toOption with
      | none => simp
      | some b => simp [ih hn.tail (fun _ => hg), hg, taken]
    · rw [Members.get?_cons_of_ne hk] at ho ⊢
      rw [← ih hn.tail ho]
      simp [convertFields, field?, one, beq_false_of_ne hk]

theorem toOption_convertFields_two {default? : Option γ} (hkey : key ≠ key') {ms : Members}
    (hn : ms.Once key) (hn' : ms.Once key') {o : Option β} {o' : Option γ}
    (ho : o.isSome = true → ms.get? key = none) (ho' : o'.isSome = true → ms.get? key' = none) :
    ((two name key d key' d' default?).convertFields (o, o') ms).toOption =
      (taken d o (ms.get? key)).bind fun o =>
        (taken d' o' (ms.get? key')).map fun o' => (o, o') := by
  induction ms generalizing o o' with
  | nil => rfl
  | cons m ms ih =>
    obtain ⟨k, v⟩ := m
    by_cases hk : key = k
    · subst hk
      rw [Members.get?_cons_of_ne hkey.symm] at ho' ⊢
      rw [Members.get?_cons_self] at ho ⊢
      have hs : o.isSome = false := Bool.eq_false_iff.mpr fun h => nomatch ho h
      have hg := hn.get?_tail
      have hf : (two name key d key' d' default?).field? key =
          some ⟨key, fun s => s.1.isSome, d.map fun b s => (some b, s.2)⟩ := by
        simp [field?, two]
      rw [convertFields_cons_self hf hs, Decoder.toOption_convert_map, taken]
      cases (d.convert v).toOption with
      | none => simp
      | some b => simp [ih hn.tail hn'.tail (fun _ => hg) ho', hg, taken]
    · rw [Members.get?_cons_of_ne hk] at ho ⊢
      by_cases hk' : key' = k
      · subst hk'
        rw [Members.get?_cons_self] at ho' ⊢
        have hs : o'.isSome = false := Bool.eq_false_iff.mpr fun h => nomatch ho' h
        have hg := hn'.get?_tail
        have hf : (two name key d key' d' default?).field? key' =
            some ⟨key', fun s => s.2.isSome, d'.map fun c s => (s.1, some c)⟩ := by
          simp [field?, two, beq_false_of_ne hk]
        rw [convertFields_cons_self hf hs, Decoder.toOption_convert_map, taken]
        cases (d'.convert v).toOption with
        | none => simp
        | some b => simp [ih hn.tail hn'.tail ho (fun _ => hg), hg, taken]
      · rw [Members.get?_cons_of_ne hk'] at ho' ⊢
        rw [← ih hn.tail hn'.tail ho ho']
        simp [convertFields, field?, two, beq_false_of_ne hk, beq_false_of_ne hk']

theorem two_convertFields_blank (name : String) (d : Decoder β) (d' : Decoder γ)
    (default? : Option γ) (hkey : key ≠ key') {ms : Members} (hn : ms.Once key)
    (hn' : ms.Once key') :
    ((two name key d key' d' default?).convertFields (two name key d key' d' default?).blank
      ms).toOption =
      (taken d none (ms.get? key)).bind fun o =>
        (taken d' none (ms.get? key')).map fun o' => (o, o') :=
  toOption_convertFields_two hkey hn hn' (by simp) (by simp)

theorem one_convert_eq_ok_iff {v : Value} (hv : v.distinct = true) {b : β} :
    (one name key d none).convert v = .ok b ↔
      ∃ x, HasFields v [(key, x)] ∧ d.convert x = .ok b := by
  rw [← toOption_eq_some_iff]
  cases v with
  | array vs =>
    rw [toOption_convert_array]
    rcases vs with _ | ⟨x, _ | ⟨y, vs⟩⟩
    · simp [one, convertPlaces]
    · cases hx : d.convert x <;>
        simp [one, convertPlaces, Decoder.toOption_convert_map, hx]
    · cases hx : d.convert x <;>
        simp [one, convertPlaces, Decoder.toOption_convert_map, hx]
  | object ms =>
    have hn := (Value.distinct_object.mp hv).1
    have hf : ((one name key d none).convertFields none ms).toOption =
        taken d none (Members.get? key ms) :=
      toOption_convertFields_one (.of_nodup hn _) (by simp)
    rw [toOption_convert_object]
    simp only [hasFields_object, List.forall_mem_singleton, Members.mem_iff_get? hn,
      ← taken_eq_some_some_iff, ← hf]
    simp only [one]
    cases (convertFields _ none ms).toOption with
    | none => simp
    | some o => cases o <;> simp
  | null | bool c | number n | string s =>
    constructor
    · intro h
      cases h
    · rintro ⟨x, h, -⟩
      cases h

theorem two_finish_eq_ok {default? : Option γ} {o : Option β} {o' : Option γ} {b : β} {c : γ}
    (h : (two name key d key' d' default?).finish (o, o') = .ok (b, c)) :
    o = some b ∧ (o' = some c ∨ default? = some c) := by
  rcases o with _ | b'
  · cases h
  · rcases o' with _ | c'
    · rcases default? with _ | c'
      · cases h
      · cases h
        exact ⟨rfl, .inr rfl⟩
    · cases h
      exact ⟨rfl, .inl rfl⟩

theorem hasFields_of_two_convert {default? : Option γ} (hkey : key ≠ key') {v : Value}
    (hv : v.distinct = true) {b : β} {c : γ}
    (h : (two name key d key' d' default?).convert v = .ok (b, c)) :
    (∃ x y, HasFields v [(key, x), (key', y)] ∧ d.convert x = .ok b ∧ d'.convert y = .ok c) ∨
      default? = some c := by
  rw [← toOption_eq_some_iff] at h
  cases v with
  | array vs =>
    rw [toOption_convert_array] at h
    obtain ⟨⟨⟨o, o'⟩, left⟩, hp, h⟩ := Option.bind_eq_some_iff.mp h
    obtain ⟨hleft, hfin⟩ := Option.ite_none_right_eq_some.mp h
    obtain ⟨rfl, ho'⟩ := two_finish_eq_ok (toOption_eq_some_iff.mp hfin)
    cases List.isEmpty_iff.mp hleft
    rcases ho' with rfl | ho'
    · rcases vs with _ | ⟨x, _ | ⟨y, vs⟩⟩
      · cases hp
      · cases hx : d.convert x <;>
          simp [two, convertPlaces, Decoder.toOption_convert_map, hx] at hp
      · cases hx : d.convert x <;> cases hy : d'.convert y <;>
          simp [two, convertPlaces, Decoder.toOption_convert_map, hx, hy] at hp
        obtain ⟨⟨rfl, rfl⟩, rfl⟩ := hp
        exact .inl ⟨x, y, .placed [(key, x), (key', y)], hx, hy⟩
    · exact .inr ho'
  | object ms =>
    have hn := (Value.distinct_object.mp hv).1
    have hf := two_convertFields_blank name d d' default? hkey (.of_nodup hn _) (.of_nodup hn _)
    rw [toOption_convert_object] at h
    obtain ⟨⟨o, o'⟩, hs, hfin⟩ := Option.bind_eq_some_iff.mp h
    obtain ⟨o₁, ho, hs⟩ := Option.bind_eq_some_iff.mp (hf.symm.trans hs)
    obtain ⟨o₂, ho', hs⟩ := Option.map_eq_some_iff.mp hs
    cases hs
    obtain ⟨rfl, hc⟩ := two_finish_eq_ok (toOption_eq_some_iff.mp hfin)
    rcases hc with rfl | hc
    · obtain ⟨x, hx, hb⟩ := taken_eq_some_some_iff.mp ho
      obtain ⟨y, hy, hc⟩ := taken_eq_some_some_iff.mp ho'
      refine .inl ⟨x, y, .named ?_, hb, hc⟩
      simp only [List.forall_mem_cons, Members.mem_iff_get? hn, hx, hy]
      simp
    · exact .inr hc
  | null | bool c | number n | string s => cases h

theorem two_convert_of_hasFields {default? : Option γ} (hkey : key ≠ key') {v x y : Value}
    (hv : v.distinct = true) (h : HasFields v [(key, x), (key', y)]) {b : β} {c : γ}
    (hx : d.convert x = .ok b) (hy : d'.convert y = .ok c) :
    (two name key d key' d' default?).convert v = .ok (b, c) := by
  rw [← toOption_eq_some_iff] at hx hy ⊢
  cases h with
  | @named ms _ h =>
    have hn := (Value.distinct_object.mp hv).1
    have hf := two_convertFields_blank name d d' default? hkey (.of_nodup hn _) (.of_nodup hn _)
    rw [(Members.mem_iff_get? hn).mp (h (key, x) (by simp)),
      (Members.mem_iff_get? hn).mp (h (key', y) (by simp))] at hf
    rw [toOption_convert_object]
    refine (congrArg (Option.bind · _) hf).trans ?_
    simp [taken, hx, hy, two]
  | placed =>
    rw [toOption_convert_array]
    simp [two, convertPlaces, Decoder.toOption_convert_map, hx, hy]

theorem two_convert_eq_ok_iff (hkey : key ≠ key') {v : Value} (hv : v.distinct = true) {b : β}
    {c : γ} : (two name key d key' d' none).convert v = .ok (b, c) ↔
      ∃ x y, HasFields v [(key, x), (key', y)] ∧ d.convert x = .ok b ∧ d'.convert y = .ok c := by
  constructor
  · intro h
    exact (hasFields_of_two_convert hkey hv h).resolve_right nofun
  · rintro ⟨x, y, hf, hx, hy⟩
    exact two_convert_of_hasFields hkey hv hf hx hy

theorem two_convert_default_eq_ok_iff (hkey : key ≠ key') {v : Value} (hv : v.distinct = true)
    {b : β} {c c₀ : γ} : (two name key d key' d' (some c₀)).convert v = .ok (b, c) ↔
      (∃ x y, HasFields v [(key, x), (key', y)] ∧ d.convert x = .ok b ∧ d'.convert y = .ok c) ∨
      ∃ x, HasFields v [(key, x)] ∧ d.convert x = .ok b ∧ v.Lacks key' ∧ c₀ = c := by
  rw [← toOption_eq_some_iff]
  cases v with
  | array vs =>
    rw [toOption_convert_array]
    rcases vs with _ | ⟨x, _ | ⟨y, _ | ⟨z, vs⟩⟩⟩
    · simp [two, convertPlaces]
    · cases hx : d.convert x <;>
        simp [two, convertPlaces, Decoder.toOption_convert_map, hx, Value.Lacks]
    · cases hx : d.convert x <;> cases hy : d'.convert y <;>
        simp [two, convertPlaces, Decoder.toOption_convert_map, hx, hy]
    · cases hx : d.convert x <;> cases hy : d'.convert y <;>
        simp [two, convertPlaces, Decoder.toOption_convert_map, hx, hy]
  | object ms =>
    have hn := (Value.distinct_object.mp hv).1
    have hf := two_convertFields_blank name d d' (some c₀) hkey (.of_nodup hn _) (.of_nodup hn _)
    have hlacks : (Value.object ms).Lacks key' ↔ Members.get? key' ms = none := by
      simp [Value.Lacks, Members.get?_eq_none_iff]
    rw [toOption_convert_object, hlacks]
    refine Iff.trans (iff_of_eq (congrArg (Option.bind · _ = _) hf)) ?_
    simp only [hasFields_object, List.forall_mem_cons, Members.mem_iff_get? hn]
    cases hx : Members.get? key ms with
    | none => cases taken d' none (Members.get? key' ms) <;> simp [taken, two]
    | some x =>
      cases hb : d.convert x with
      | error e => simp [taken, hb]
      | ok b' =>
        cases hy : Members.get? key' ms with
        | none => simp [taken, hb, two]
        | some y => cases hc : d'.convert y <;> simp [taken, hb, hc, two]
  | null | bool c | number n | string s =>
    constructor
    · intro h
      cases h
    · rintro (⟨x, y, h, -⟩ | ⟨x, h, -⟩) <;> cases h

theorem faithful_two {default? : Option γ} (hd : d.Faithful) (hd' : d'.Faithful) :
    (two name key d key' d' default?).decoder.Faithful := by
  refine faithful_decoder fun f hf => ?_
  simp only [two, List.mem_cons, List.not_mem_nil, or_false] at hf
  rcases hf with rfl | rfl
  · exact Decoder.faithful_map hd fun b (s : Option β × Option γ) => (some b, s.2)
  · exact Decoder.faithful_map hd' fun c (s : Option β × Option γ) => (s.1, some c)

end Record

end ModelBindings.Json
