import Mathlib.Data.List.Forall2
import ModelBindings.Json.Report
import ModelBindings.Proofs.Json.Reader
import ModelBindings.Proofs.Json.Skip

/-!
A decoder is faithful if it makes of a text what it makes of the value that is written there. So are
the decoders of records, however the fields of the record are laid out.
-/

namespace ModelBindings.Json

mutual
def Value.distinct : Value → Bool
  | .array vs => distinctItems vs
  | .object ms => decide (ms.map Prod.fst).Nodup && distinctMembers ms
  | _ => true
termination_by structural v => v

def distinctItems : List Value → Bool
  | [] => true
  | v :: vs => v.distinct && distinctItems vs
termination_by structural vs => vs

def distinctMembers : Members → Bool
  | [] => true
  | (_, v) :: ms => v.distinct && distinctMembers ms
termination_by structural ms => ms
end

theorem distinctItems_iff {vs : List Value} :
    distinctItems vs = true ↔ ∀ v ∈ vs, v.distinct = true := by
  induction vs with
  | nil => simp [distinctItems]
  | cons v vs ih => simp [distinctItems, ih]

theorem distinctMembers_iff {ms : Members} :
    distinctMembers ms = true ↔ ∀ m ∈ ms, m.2.distinct = true := by
  induction ms with
  | nil => simp [distinctMembers]
  | cons m ms ih => simp [distinctMembers, ih]

theorem Value.distinct_object {ms : Members} :
    (Value.object ms).distinct = true ↔
      (ms.map Prod.fst).Nodup ∧ ∀ m ∈ ms, m.2.distinct = true := by
  simp [distinct, distinctMembers_iff]

theorem Members.insert_of_not_mem {k : String} {acc : Members} (hk : k ∉ acc.map Prod.fst)
    (v : Value) : Members.insert k v acc = acc ++ [(k, v)] := by
  induction acc with
  | nil => rfl
  | cons m acc ih =>
    simp only [List.map_cons, List.mem_cons, not_or] at hk
    rw [insert, if_neg (Ne.symm hk.1), ih hk.2, List.cons_append]

theorem Members.foldl_insert_of_nodup {ms acc : Members}
    (h : ((acc ++ ms).map Prod.fst).Nodup) :
    ms.foldl (fun acc m => acc.insert m.1 m.2) acc = acc ++ ms := by
  induction ms generalizing acc with
  | nil => rw [List.foldl_nil, List.append_nil]
  | cons m ms ih =>
    have hm : m.1 ∉ acc.map Prod.fst := by
      intro hm
      rw [List.map_append, List.nodup_append] at h
      exact h.2.2 m.1 hm m.1 (by simp) rfl
    have hms : ((acc ++ [m] ++ ms).map Prod.fst).Nodup := by
      rwa [List.append_assoc, List.singleton_append]
    rw [List.foldl_cons, insert_of_not_mem hm, ih hms, List.append_assoc, List.singleton_append]

theorem Members.ofWritten_of_nodup {ms : Members} (h : (ms.map Prod.fst).Nodup) :
    Members.ofWritten ms = ms :=
  @foldl_insert_of_nodup ms [] h

mutual
theorem Value.settled_of_distinct : ∀ v : Value, v.distinct = true → v.settled = v
  | .array vs, h => by rw [Value.settled, settledItems_of_distinct vs h]
  | .object ms, h => by
    simp only [Value.distinct, Bool.and_eq_true, decide_eq_true_eq] at h
    rw [Value.settled, settledMembers_of_distinct ms h.2, Members.ofWritten_of_nodup h.1]
  | .null, _ | .bool _, _ | .number _, _ | .string _, _ => rfl

theorem settledItems_of_distinct : ∀ vs : List Value, distinctItems vs = true →
    settledItems vs = vs
  | [], _ => rfl
  | v :: vs, h => by
    simp only [distinctItems, Bool.and_eq_true] at h
    rw [settledItems, Value.settled_of_distinct v h.1, settledItems_of_distinct vs h.2]

theorem settledMembers_of_distinct : ∀ ms : Members, distinctMembers ms = true →
    settledMembers ms = ms
  | [], _ => rfl
  | (k, v) :: ms, h => by
    simp only [distinctMembers, Bool.and_eq_true] at h
    rw [settledMembers, Value.settled_of_distinct v h.1, settledMembers_of_distinct ms h.2]
end

structure Readable (steps depth : Nat) (v : Value) (t : List Char) : Prop where
  fits : Fits steps depth v t
  distinct : v.distinct = true

namespace Readable

variable {steps depth : Nat} {t : List Char}

theorem starts {v : Value} (h : Readable steps depth v t) : Starts t := h.fits.starts

theorem array {vs : List Value} (h : Readable steps depth (.array vs) t) :
    ∃ u lower, t = '[' :: (u ++ [']']) ∧ depth = lower + 1 ∧ u.length < steps ∧
      Listed (Readable steps lower) true vs u := by
  obtain ⟨u, lower, ht, hlower, hl, hu⟩ := h.fits.array
  have hd := distinctItems_iff.mp h.distinct
  exact ⟨u, lower, ht, hlower, hl, hu.imp fun v hv _ _ hf => ⟨hf, hd v hv⟩⟩

theorem object {ms : Members} (h : Readable steps depth (.object ms) t) :
    ∃ u lower, t = '{' :: (u ++ ['}']) ∧ depth = lower + 1 ∧ u.length < steps ∧
      Listed (Keyed (Readable steps lower)) true ms u := by
  obtain ⟨u, lower, ht, hlower, hl, hu⟩ := h.fits.object
  have hd := (Value.distinct_object.mp h.distinct).2
  exact ⟨u, lower, ht, hlower, hl, hu.imp fun m hm _ _ hk => hk.imp fun _ _ hf => ⟨hf, hd m hm⟩⟩

theorem open_scalar {v : Value} (h : Readable steps depth v t) (hv : v.height = 0) {b : List Char}
    (hb : Blanks b) {rest : List Char} (hr : Delimited rest) :
    openValue steps (b ++ t ++ rest) = .ok (.scalar v rest) :=
  openValue_scalar h.fits.written hv hb hr h.fits.length_le

end Readable

namespace Decoder

variable {α β : Type}

def Faithful (d : Decoder α) : Prop :=
  ∀ ⦃v : Value⦄ ⦃b t rest : List Char⦄ ⦃steps depth : Nat⦄, Readable steps depth v t →
    Blanks b → Delimited rest →
    (d.read steps depth (b ++ t ++ rest)).toOption = (d.convert v).toOption.map fun a => (a, rest)

/-- Of a text that stands for `v` the decoder makes what it makes of the value `g v`. -/
def Mirrors (d : Decoder α) (P : Value → List Char → Prop) (g : Value → Value)
    (steps depth : Nat) : Prop :=
  ∀ ⦃v : Value⦄ ⦃b t rest : List Char⦄, P v t → Blanks b → Delimited rest →
    (d.read steps depth (b ++ t ++ rest)).toOption =
      (d.convert (g v)).toOption.map fun a => (a, rest)

theorem mirrors_map {d : Decoder α} {P : Value → List Char → Prop} {g : Value → Value}
    {steps depth : Nat} (hd : d.Mirrors P g steps depth) (f : α → β) :
    (d.map f).Mirrors P g steps depth := by
  intro v b t rest h hb hr
  simp only [map, toOption_bind, hd h hb hr, toOption_pure]
  cases (d.convert (g v)).toOption <;> rfl

theorem Faithful.mirrors {d : Decoder α} (hd : d.Faithful) (steps depth : Nat) :
    d.Mirrors (Readable steps depth) id steps depth :=
  fun _ _ _ _ h hb hr => hd h hb hr

theorem faithful_map {d : Decoder α} (hd : d.Faithful) (f : α → β) : (d.map f).Faithful := by
  intro v b t rest steps depth h hb hr
  exact mirrors_map (hd.mirrors steps depth) f h hb hr

theorem faithful_any : any.Faithful := by
  intro v b t rest steps depth h hb hr
  have hv := Value.read_fits h.fits hb hr
  rw [Value.settled_of_distinct v h.distinct] at hv
  simp only [any, hv]
  rfl

theorem toOption_readText {v : Value} {b t rest : List Char} {steps depth : Nat}
    (h : Fits steps depth v t) (hb : Blanks b) (hr : Delimited rest) :
    (readText steps depth (b ++ t ++ rest)).toOption =
      (text.convert v).toOption.map fun s => (s, rest) := by
  cases v with
  | array vs =>
    obtain ⟨u, lower, rfl, -⟩ := h.array
    simp only [readText, List.append_assoc, List.cons_append, openValue_list hb]
    rfl
  | object ms =>
    obtain ⟨u, lower, rfl, -⟩ := h.object
    simp only [readText, List.append_assoc, List.cons_append, openValue_object hb]
    rfl
  | null | bool c | number n | string s =>
    simp only [readText, openValue_scalar h.written rfl hb hr h.length_le]
    rfl

theorem faithful_text : text.Faithful :=
  fun _ _ _ _ _ _ h hb hr => toOption_readText h.fits hb hr

theorem text_convert_eq_ok_iff {v : Value} {s : String} :
    text.convert v = .ok s ↔ v = .string s := by
  cases v <;> simp [text]

theorem convertItems_eq_ok_iff {item : Value → Converting α} {i : Nat} {vs : List Value}
    {as : List α} : convertItems item i vs = .ok as ↔
      List.Forall₂ (fun v a => item v = .ok a) vs as := by
  induction vs generalizing i as with
  | nil => simp [convertItems, eq_comm]
  | cons v vs ih =>
    simp only [convertItems, bind_eq_ok_iff, pure_eq_ok_iff, ih,
      List.forall₂_cons_left_iff]
    cases item v with
    | error e => simp
    | ok a => simp [eq_comm]

theorem list_convert_eq_ok_iff {d : Decoder α} {v : Value} {as : List α} :
    (list d).convert v = .ok as ↔
      ∃ vs, v = .array vs ∧ List.Forall₂ (fun v a => d.convert v = .ok a) vs as := by
  cases v <;> simp [list, convertItems_eq_ok_iff]

theorem toOption_convertItems (item : Value → Converting α) (i : Nat) (vs : List Value) :
    (convertItems item i vs).toOption = vs.mapM fun v => (item v).toOption := by
  induction vs generalizing i with
  | nil => rfl
  | cons v vs ih =>
    simp only [convertItems, toOption_bind, toOption_within, toOption_pure, ih, List.mapM_cons]
    rfl

theorem faithful_list {d : Decoder α} (hd : d.Faithful) : (list d).Faithful := by
  intro v b t rest steps depth h hb hr
  cases v with
  | array vs =>
    obtain ⟨u, lower, rfl, rfl, hl, hu⟩ := h.array
    have hi : (readItems (d.read steps lower) steps 0 (u ++ ']' :: rest)).toOption =
        (vs.mapM fun v => (d.convert v).toOption).map fun as => (as, rest) := by
      refine readItems_listed (fun v t h => h.starts) (fun v t rest h hr => ?_) hu hl rfl rest
      have hv := hd h blanks_nil hr
      rwa [List.nil_append] at hv
    simp only [list, readList, List.append_assoc, List.cons_append, List.nil_append,
      openValue_list hb, toOption_convertItems]
    exact hi
  | object ms =>
    obtain ⟨u, lower, rfl, -⟩ := h.object
    simp only [list, readList, List.append_assoc, List.cons_append, openValue_object hb]
    rfl
  | null | bool c | number n | string s =>
    simp only [list, readList, h.open_scalar rfl hb hr]
    rfl

end Decoder

namespace Record

variable {ρ α : Type} {steps depth : Nat}

theorem readFields_member {r : Record ρ α} {first : Bool} {b b' c c' s' x : List Char} {k : String}
    (hb : Blanks b) (hb' : Blanks b') (hk : Spelling k.toList s') (hc : Blanks c)
    (hs : s'.length < steps) (left : Nat) (s : ρ) (t : List Char) :
    r.readFields steps depth (left + 1) first s
        (b ++ comma first ++ b' ++ ('"' :: s' ++ '"' :: c ++ ':' :: c' ++ x) ++ t) =
      match r.field? k with
      | none =>
          within (.key k) (atRoot (Skip.value steps (c' ++ x ++ t))) >>= fun t =>
            r.readFields steps depth left false s t
      | some f =>
          if f.filled s then
            atRoot (stopAt (.duplicateField k) (passEnd (c ++ ':' :: (c' ++ x ++ t))))
          else within (.key k) (f.decoder.read steps depth (c' ++ x ++ t)) >>= fun r' =>
            r.readFields steps depth left false (r'.1 s) r'.2 := by
  have hn := nextKey_comma hb hb' hk hs first (c ++ ':' :: (c' ++ x ++ t))
  simp only [List.append_assoc, List.cons_append] at hn ⊢
  cases hf : r.field? k with
  | none => simp only [readFields, hn, atRoot_ok, within_ok, ok_bind, readColon_append hc, hf]
  | some f => simp only [readFields, hn, atRoot_ok, within_ok, ok_bind, readColon_append hc, hf]

section Listed

variable {r : Record ρ α} {P : Value → List Char → Prop} {g : Value → Value}

theorem readFields_listed (hP : ∀ v t, P v t → Written v t ∧ t.length ≤ steps)
    (hf : ∀ f ∈ r.fields, f.decoder.Mirrors P g steps depth) {first : Bool} {ms : Members}
    {u : List Char} (h : Listed (Keyed P) first ms u) {left : Nat} (hs : u.length ≤ steps)
    (hl : u.length < left) (s : ρ) (rest : List Char) :
    (r.readFields steps depth left first s (u ++ '}' :: rest)).toOption =
      (r.convertFields s (ms.map fun m => (m.1, g m.2))).toOption.map fun s => (s, rest) := by
  induction h generalizing left s with
  | nil hb =>
    obtain ⟨left, rfl⟩ := Nat.exists_eq_add_of_lt hl
    simp [readFields, nextKey_close hb, convertFields]
  | @cons first m ms b b' t u hb hb' hm hms ih =>
    cases hm with
    | @mk k v s' c c' t hk hc hc' ht =>
      simp only [List.length_append, List.length_cons] at hs hl
      obtain ⟨left, rfl⟩ : ∃ n, left = n + 1 := ⟨left - 1, by omega⟩
      have hd : Delimited (u ++ '}' :: rest) := hms.delimited (.inr rfl)
      rw [List.append_assoc, readFields_member hb hb' hk hc (show s'.length < steps by omega),
        List.map_cons, convertFields]
      cases hfield : r.field? k with
      | none =>
        simp only [Skip.value_written (hP v t ht).1 hc' hd (hP v t ht).2, atRoot_ok, within_ok,
          ok_bind]
        exact ih (by omega) (by omega) s
      | some f =>
        simp only
        split
        · rfl
        · have hread := hf f (List.mem_of_find?_eq_some hfield) ht hc' hd
          simp only [hread, toOption_bind, toOption_within]
          cases (f.decoder.convert (g v)).toOption with
          | none => rfl
          | some fill => exact ih (by omega) (by omega) (fill s)

theorem readEnd_listed {P : Value → List Char → Prop} (hstarts : ∀ v t, P v t → Starts t)
    {first : Bool} {vs : List Value} {u : List Char} (h : Listed P first vs u) (rest : List Char) :
    (readEnd (u ++ ']' :: rest)).toOption = if vs.isEmpty then some rest else none := by
  cases h with
  | nil hb =>
    simp [readEnd, skipBlank_append_cons hb (c := ']') (by decide)]
  | @cons _ v vs b b' t u hb hb' ht hvs =>
    have hs := (hstarts v t ht).skipBlank_eq hb' (u ++ ']' :: rest)
    obtain ⟨c, w, rfl, -, hc, hc', -⟩ := hstarts v t ht
    simp only [List.append_assoc, List.cons_append] at hs ⊢
    cases first with
    | true =>
      rw [readEnd, skipBlank_no_comma hb, hs]
      split
      · rfl
      · exact absurd (List.cons.inj ‹_›).1 hc'
      · exact absurd (List.cons.inj ‹_›).1 hc
      · rfl
    | false =>
      rw [readEnd, skipBlank_comma hb]
      simp only [hs]
      split
      · rfl
      · rfl

theorem readPlaces_listed (hP : ∀ v t, P v t → Written v t) {fs : List (Field ρ)}
    (hf : ∀ f ∈ fs, f.decoder.Mirrors P g steps depth) {first : Bool} {vs : List Value}
    {u : List Char} (h : Listed P first vs u) {i : Nat} (hi : first = (i == 0)) (s : ρ)
    (rest : List Char) :
    (readPlaces steps depth fs i s (u ++ ']' :: rest)).toOption.map (fun r => (r.1, r.2.2)) =
      (convertPlaces fs i s (vs.map g)).toOption.bind fun r =>
        if r.2.isEmpty then some (r.1, rest) else none := by
  induction fs generalizing first vs u i s with
  | nil =>
    simp only [readPlaces, convertPlaces, toOption_bind, toOption_atRoot, toOption_ok,
      readEnd_listed (fun v t h => (hP v t h).starts) h rest, Option.bind_some]
    cases vs <;> rfl
  | cons f fs ih =>
    cases h with
    | nil hb => simp [readPlaces, nextItem_close hb, convertPlaces]
    | @cons _ v vs b b' t u hb hb' ht hvs =>
      have hn := nextItem_comma hb hb' (hP v t ht).starts first (u ++ ']' :: rest)
      have hd : Delimited (u ++ ']' :: rest) := hvs.delimited (.inl rfl)
      have hread := hf f (by simp) ht blanks_nil hd
      simp only [List.append_assoc, List.nil_append] at hn hread ⊢
      simp only [readPlaces, List.map_cons, convertPlaces, ← hi, hn, hread, toOption_ok,
        toOption_bind, toOption_within, toOption_atRoot, Option.bind_some]
      cases (f.decoder.convert (g v)).toOption with
      | none => rfl
      | some fill => exact ih (fun f' hf' => hf f' (by simp [hf'])) hvs (by simp) (fill s)

end Listed

theorem toOption_convert_array (r : Record ρ α) (vs : List Value) :
    (r.convert (.array vs)).toOption = (convertPlaces r.fields 0 r.blank vs).toOption.bind fun x =>
      if x.2.isEmpty then (r.finish x.1).toOption else none := by
  rw [convert, toOption_bind]
  congr 1
  funext x
  obtain ⟨s, left⟩ := x
  cases hf : r.finish s <;> cases left <;> simp [hf]

theorem toOption_convert_object (r : Record ρ α) (ms : Members) :
    (r.convert (.object ms)).toOption =
      (r.convertFields r.blank ms).toOption.bind fun s => (r.finish s).toOption := by
  rw [convert, toOption_bind]
  congr 1
  funext s
  cases r.finish s <;> rfl

section Layouts

variable {r : Record ρ α} {P : Value → List Char → Prop} {g : Value → Value} {b u : List Char}

theorem toOption_read_array (hP : ∀ v t, P v t → Written v t)
    (hf : ∀ f ∈ r.fields, f.decoder.Mirrors P g steps depth) {vs : List Value}
    (hu : Listed P true vs u) (hb : Blanks b) (rest : List Char) :
    (r.read steps (depth + 1) (b ++ '[' :: (u ++ [']']) ++ rest)).toOption =
      (r.convert (.array (vs.map g))).toOption.map fun a => (a, rest) := by
  have hp := readPlaces_listed hP hf hu (i := 0) rfl r.blank rest
  rw [toOption_convert_array]
  simp only [read, List.append_assoc, List.cons_append, List.nil_append, openValue_list hb,
    toOption_bind, toOption_ok, toOption_atRoot, Option.bind_some]
  cases hc : (convertPlaces r.fields 0 r.blank (vs.map g)).toOption with
  | none =>
    rw [hc, Option.bind_none, Option.map_eq_none_iff] at hp
    rw [hp]
    rfl
  | some x =>
    obtain ⟨s, left⟩ := x
    rw [hc, Option.bind_some] at hp
    cases left with
    | nil =>
      obtain ⟨⟨s', n, t⟩, hr, ht⟩ := Option.map_eq_some_iff.mp hp
      cases ht
      rw [hr, Option.bind_some, Option.bind_some]
      cases r.finish s <;> rfl
    | cons v vs =>
      rw [Option.map_eq_none_iff.mp hp]
      rfl

theorem toOption_read_object (hP : ∀ v t, P v t → Written v t ∧ t.length ≤ steps)
    (hf : ∀ f ∈ r.fields, f.decoder.Mirrors P g steps depth) {ms : Members}
    (hu : Listed (Keyed P) true ms u) (hl : u.length < steps) (hb : Blanks b) (rest : List Char) :
    (r.read steps (depth + 1) (b ++ '{' :: (u ++ ['}']) ++ rest)).toOption =
      (r.convert (.object (ms.map fun m => (m.1, g m.2)))).toOption.map fun a => (a, rest) := by
  have hm := readFields_listed hP hf hu (Nat.le_of_lt hl) hl r.blank rest
  rw [toOption_convert_object]
  simp only [read, List.append_assoc, List.cons_append, List.nil_append, openValue_object hb,
    toOption_bind, toOption_ok, toOption_atRoot, Option.bind_some, hm]
  cases (r.convertFields r.blank (ms.map fun m => (m.1, g m.2))).toOption with
  | none => rfl
  | some s =>
    simp only [Option.map_some, Option.bind_some]
    cases r.finish s <;> rfl

theorem toOption_read_scalar {v : Value} {t : List Char} (h : Fits steps depth v t)
    (hv : v.height = 0) (hb : Blanks b) {rest : List Char} (hr : Delimited rest) :
    (r.read steps depth (b ++ t ++ rest)).toOption =
      (r.convert v).toOption.map fun a => (a, rest) := by
  have ho := openValue_scalar h.written hv hb hr h.length_le
  cases v with
  | array vs => cases hv
  | object ms => cases hv
  | _ =>
    simp only [read, convert, ho]
    rfl

end Layouts

theorem faithful_decoder {r : Record ρ α} (hf : ∀ f ∈ r.fields, f.decoder.Faithful) :
    r.decoder.Faithful := by
  intro v b t rest steps depth h hb hr
  have hw (lower : Nat) : ∀ v t, Readable steps lower v t → Written v t ∧ t.length ≤ steps :=
    fun v t h => ⟨h.fits.written, h.fits.length_le⟩
  cases v with
  | array vs =>
    obtain ⟨u, lower, rfl, rfl, -, hu⟩ := h.array
    have hread := toOption_read_array (fun v t h => (hw lower v t h).1)
      (fun f h => (hf f h).mirrors steps lower) hu hb rest
    rwa [List.map_id] at hread
  | object ms =>
    obtain ⟨u, lower, rfl, rfl, hl, hu⟩ := h.object
    have hread :=
      toOption_read_object (hw lower) (fun f h => (hf f h).mirrors steps lower) hu hl hb rest
    rwa [show (fun m : String × Value => (m.1, id m.2)) = id from rfl, List.map_id] at hread
  | null | bool c | number n | string s => exact toOption_read_scalar h.fits rfl hb hr

end Record

namespace Decoder

variable {α : Type} {d : Decoder α} {v : Value}

theorem toOption_readFront (hd : d.Faithful) (hv : v.distinct = true) (hh : v.height ≤ maxDepth)
    {b t b' : List Char} (hb : Blanks b) (ht : Written v t) (hb' : Blanks b') :
    (d.readFront (b ++ t ++ b')).toOption = (d.convert v).toOption.map fun a => (a, b') := by
  have hl : t.length ≤ (b ++ t ++ b').length + 1 := by
    simp only [List.length_append]
    omega
  exact hd ⟨⟨ht, hl, hh⟩, hv⟩ hb hb'.delimited_end

theorem toOption_ofText_eq (d : Decoder α) (text : String) :
    (d.ofText text).toOption = (d.readFront text.toList).toOption.map Prod.fst := by
  rw [ofText]
  cases d.readFront text.toList <;> rfl

theorem ofWholeText?_eq (d : Decoder α) (text : String) :
    d.ofWholeText? text = (d.readFront text.toList).toOption.bind fun r =>
      if (skipBlank r.2).isEmpty then some r.1 else none := by
  rw [ofWholeText?]
  cases d.readFront text.toList <;> rfl

theorem toOption_ofText (hd : d.Faithful) {text : String} (hw : WrittenText v text)
    (hv : v.distinct = true) (hh : v.height ≤ maxDepth) :
    (d.ofText text).toOption = (d.convert v).toOption := by
  obtain ⟨hb, ht, hb'⟩ := hw
  rw [toOption_ofText_eq, String.toList_ofList, toOption_readFront hd hv hh hb ht hb']
  cases (d.convert v).toOption <;> rfl

theorem ofWholeText?_written (hd : d.Faithful) {text : String} (hw : WrittenText v text)
    (hv : v.distinct = true) (hh : v.height ≤ maxDepth) :
    d.ofWholeText? text = (d.convert v).toOption := by
  obtain ⟨hb, ht, hb'⟩ := hw
  rw [ofWholeText?_eq, String.toList_ofList, toOption_readFront hd hv hh hb ht hb']
  have hempty := skipBlank_append hb' []
  rw [List.append_nil] at hempty
  cases (d.convert v).toOption with
  | none => rfl
  | some a =>
    simp only [Option.map_some, Option.bind_some, hempty]
    rfl

end Decoder

end ModelBindings.Json
