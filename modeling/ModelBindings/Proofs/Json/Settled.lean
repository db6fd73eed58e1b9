import ModelBindings.Proofs.Json.Record

/-!
Reading a text whose objects may repeat their keys. Settling leaves no repeats, and a record of two
fields is read as from the settled value if neither field is repeated at the record itself.
-/

namespace ModelBindings.Json

namespace Members

theorem mem_keys_insert {k k' : String} {v : Value} {ms : Members} :
    k' ∈ (Members.insert k v ms).map Prod.fst ↔ k' = k ∨ k' ∈ ms.map Prod.fst := by
  induction ms with
  | nil => simp [insert]
  | cons m ms ih =>
    rw [insert]
    split
    · rename_i h
      simp [h]
    · simp only [List.map_cons, List.mem_cons, ih]
      exact or_left_comm

theorem mem_insert {k : String} {v : Value} {m : String × Value} {ms : Members}
    (h : m ∈ Members.insert k v ms) : m = (k, v) ∨ m ∈ ms := by
  induction ms with
  | nil => exact .inl (List.mem_singleton.mp h)
  | cons n ms ih =>
    rw [insert] at h
    split at h
    · rename_i hk
      rw [hk, List.mem_cons] at h
      exact h.imp id (List.mem_cons_of_mem _)
    · rcases List.mem_cons.mp h with rfl | h
      · exact .inr List.mem_cons_self
      · exact (ih h).imp id (List.mem_cons_of_mem _)

theorem nodup_insert {k : String} {v : Value} {ms : Members} (h : (ms.map Prod.fst).Nodup) :
    ((Members.insert k v ms).map Prod.fst).Nodup := by
  induction ms with
  | nil => simp [insert]
  | cons m ms ih =>
    rw [List.map_cons, List.nodup_cons] at h
    rw [insert]
    split
    · rename_i hk
      rw [List.map_cons, List.nodup_cons]
      exact ⟨hk ▸ h.1, h.2⟩
    · rename_i hk
      rw [List.map_cons, List.nodup_cons, mem_keys_insert]
      exact ⟨fun h' => h'.elim hk h.1, ih h.2⟩

theorem nodup_ofWritten (ms : Members) : ((ofWritten ms).map Prod.fst).Nodup :=
  List.foldlRecOn (motive := fun acc : Members => (acc.map Prod.fst).Nodup) ms _ List.nodup_nil
    fun _ h _ _ => nodup_insert h

theorem mem_of_mem_ofWritten {ms : Members} {m : String × Value} (hm : m ∈ ofWritten ms) :
    m ∈ ms :=
  List.foldlRecOn (motive := fun acc : Members => ∀ m ∈ acc, m ∈ ms) ms _
    (fun _ h => absurd h List.not_mem_nil)
    (fun _ h _ hn m hm => (mem_insert hm).elim (fun he => he ▸ hn) (h m)) m hm

theorem get?_settled (key : String) (ms : Members) :
    get? key (ofWritten (settledMembers ms)) = (get? key ms.reverse).map Value.settled := by
  rw [get?_ofWritten_eq_reverse, settledMembers_eq_map, ← List.map_reverse, get?_map]

end Members

mutual
theorem Value.distinct_settled : ∀ v : Value, v.settled.distinct = true
  | .array vs => distinctItems_settled vs
  | .object ms => by
    rw [Value.settled, Value.distinct_object]
    refine ⟨Members.nodup_ofWritten _, fun m hm => ?_⟩
    exact distinctMembers_iff.mp (distinctMembers_settled ms) m (Members.mem_of_mem_ofWritten hm)
  | .null | .bool _ | .number _ | .string _ => rfl

theorem distinctItems_settled : ∀ vs : List Value, distinctItems (settledItems vs) = true
  | [] => rfl
  | v :: vs => by
    rw [settledItems, distinctItems, Value.distinct_settled v, distinctItems_settled vs]
    rfl

theorem distinctMembers_settled : ∀ ms : Members, distinctMembers (settledMembers ms) = true
  | [] => rfl
  | (k, v) :: ms => by
    rw [settledMembers, distinctMembers, Value.distinct_settled v, distinctMembers_settled ms]
    rfl
end

mutual
theorem Value.height_settled_le : ∀ v : Value, v.settled.height ≤ v.height
  | .array vs => Nat.succ_le_succ (heightItems_settled_le vs)
  | .object ms => by
    refine Nat.succ_le_succ (heightMembers_le_iff.mpr fun m hm => ?_)
    exact heightMembers_le_iff.mp (heightMembers_settled_le ms) m (Members.mem_of_mem_ofWritten hm)
  | .null | .bool _ | .number _ | .string _ => Nat.le_refl 0

theorem heightItems_settled_le : ∀ vs : List Value, heightItems (settledItems vs) ≤ heightItems vs
  | [] => Nat.le_refl 0
  | v :: vs => by
    have hv := Value.height_settled_le v
    have hvs := heightItems_settled_le vs
    rw [settledItems, heightItems, heightItems]
    omega

theorem heightMembers_settled_le : ∀ ms : Members,
    heightMembers (settledMembers ms) ≤ heightMembers ms
  | [] => Nat.le_refl 0
  | (_, v) :: ms => by
    have hv := Value.height_settled_le v
    have hms := heightMembers_settled_le ms
    rw [settledMembers, heightMembers, heightMembers]
    omega
end

namespace Decoder

variable {steps depth : Nat}

theorem mirrors_any : any.Mirrors (Fits steps depth) Value.settled steps depth := by
  intro v b t rest h hb hr
  simp only [any, Value.read_fits h hb hr]
  rfl

theorem mirrors_text : text.Mirrors (Fits steps depth) Value.settled steps depth := by
  intro v b t rest h hb hr
  refine (toOption_readText h hb hr).trans ?_
  cases v <;> rfl

end Decoder

namespace Value

def OnceAt (keys : List String) (v : Value) : Prop :=
  ∀ ms, v = .object ms → ∀ key ∈ keys, Members.Once key ms

theorem once_settledMembers {key : String} {ms : Members} (h : ms.Once key) :
    Members.Once key (settledMembers ms) := by
  rw [Members.Once, settledMembers_eq_map, List.map_map]
  exact h

end Value

namespace Record

variable {β γ : Type} {name key key' : String} {d : Decoder β} {d' : Decoder γ}
  {default? : Option γ} {steps depth : Nat}

theorem two_convert_ofWritten (hkey : key ≠ key') {ms : Members} (hn : ms.Once key)
    (hn' : ms.Once key') :
    ((two name key d key' d' default?).convert (.object (Members.ofWritten ms))).toOption =
      ((two name key d key' d' default?).convert (.object ms)).toOption := by
  have hw (k : String) : Members.Once k (Members.ofWritten ms) :=
    .of_nodup (Members.nodup_ofWritten ms) k
  rw [toOption_convert_object, toOption_convert_object,
    two_convertFields_blank name d d' default? hkey (hw key) (hw key'),
    two_convertFields_blank name d d' default? hkey hn hn', Members.get?_ofWritten hn,
    Members.get?_ofWritten hn']

theorem mirrors_fields_two
    (hd : d.Mirrors (Fits steps depth) Value.settled steps depth)
    (hd' : d'.Mirrors (Fits steps depth) Value.settled steps depth) :
    ∀ f ∈ (two name key d key' d' default?).fields,
      f.decoder.Mirrors (Fits steps depth) Value.settled steps depth := by
  intro f hf
  simp only [two, List.mem_cons, List.not_mem_nil, or_false] at hf
  rcases hf with rfl | rfl
  · exact Decoder.mirrors_map hd fun b (s : Option β × Option γ) => (some b, s.2)
  · exact Decoder.mirrors_map hd' fun c (s : Option β × Option γ) => (s.1, some c)

theorem toOption_read_two (hkey : key ≠ key')
    (hd : ∀ lower, d.Mirrors (Fits steps lower) Value.settled steps lower)
    (hd' : ∀ lower, d'.Mirrors (Fits steps lower) Value.settled steps lower) {v : Value}
    {b t rest : List Char} (h : Fits steps depth v t) (hv : v.OnceAt [key, key']) (hb : Blanks b)
    (hr : Delimited rest) :
    ((two name key d key' d' default?).read steps depth (b ++ t ++ rest)).toOption =
      ((two name key d key' d' default?).convert v.settled).toOption.map fun a => (a, rest) := by
  have hw (lower : Nat) : ∀ v t, Fits steps lower v t → Written v t ∧ t.length ≤ steps :=
    fun v t h => ⟨h.written, h.length_le⟩
  cases v with
  | array vs =>
    obtain ⟨u, lower, rfl, rfl, -, hu⟩ := h.array
    rw [toOption_read_array (fun v t h => (hw lower v t h).1)
      (mirrors_fields_two (hd lower) (hd' lower)) hu hb rest, Value.settled, settledItems_eq_map]
  | object ms =>
    obtain ⟨u, lower, rfl, rfl, hl, hu⟩ := h.object
    have hk := hv ms rfl key (by simp)
    have hk' := hv ms rfl key' (by simp)
    rw [toOption_read_object (hw lower) (mirrors_fields_two (hd lower) (hd' lower)) hu hl hb rest,
      ← settledMembers_eq_map, Value.settled,
      two_convert_ofWritten hkey (Value.once_settledMembers hk) (Value.once_settledMembers hk')]
  | null | bool c | number n | string s => exact toOption_read_scalar h rfl hb hr

end Record

end ModelBindings.Json
