import ModelBindings.Proofs.Json.Decoder
import ModelBindings.Proofs.Json.Passed
import ModelBindings.Proofs.Json.Unique

/-!
A decoder is local if what it reads at the front of a text has the form of a value and is read there
whatever follows it. So are the decoders of records, whose members that fill in no field are passed
over.
-/

namespace ModelBindings.Json

variable {t rest : List Char}

namespace Decoder

variable {α β : Type}

/-- The text `u` is read as `a` before any rest of a text that `R` admits. -/
structure Reads (d : Decoder α) (R : List Char → Prop) (depth : Nat) (a : α) (u : List Char) :
    Prop where
  isValue : IsValue u
  delimited : Scalar u → ∀ rest, R rest → Delimited rest
  read_eq {steps : Nat} {b rest : List Char} : u.length ≤ steps → Blanks b → R rest →
    d.read steps depth (b ++ u ++ rest) = .ok (a, rest)

def Local (d : Decoder α) (R : List Char → Prop) : Prop :=
  ∀ steps depth, Takes (d.Reads R depth) (d.read steps depth)

theorem reads_map {d : Decoder α} {R : List Char → Prop} {depth : Nat} {a : α} {u : List Char}
    (h : d.Reads R depth a u) (f : α → β) : (d.map f).Reads R depth (f a) u where
  isValue := h.isValue
  delimited := h.delimited
  read_eq hl hb hr := by
    simp only [map, h.read_eq hl hb hr]
    rfl

theorem local_map {d : Decoder α} {R : List Char → Prop} (hd : d.Local R) (f : α → β) :
    (d.map f).Local R := by
  intro steps depth t c rest h
  obtain ⟨⟨a, t₁⟩, ha, hc⟩ := bind_eq_ok_iff.mp h
  cases hc
  obtain ⟨b, u, ht, hb, hu⟩ := hd steps depth ha
  exact ⟨b, u, ht, hb, reads_map hu f⟩

theorem takes_map_imp {d : Decoder α} {steps depth : Nat} {P : α → List Char → Prop}
    {Q : β → List Char → Prop} (hd : Takes P (d.read steps depth)) (f : α → β)
    (h : ∀ a u, P a u → Q (f a) u) : Takes Q ((d.map f).read steps depth) := by
  intro t c rest hc
  obtain ⟨⟨a, t₁⟩, ha, hc⟩ := bind_eq_ok_iff.mp hc
  cases hc
  obtain ⟨b, u, ht, hb, hu⟩ := hd ha
  exact ⟨b, u, ht, hb, h a u hu⟩

theorem takes_map {d : Decoder α} {steps depth : Nat} {L : List Char → Prop}
    (hd : Takes (fun _ => L) (d.read steps depth)) (f : α → β) :
    Takes (fun _ => L) ((d.map f).read steps depth) :=
  takes_map_imp hd f fun _ _ h => h

theorem takes_text (steps depth : Nat) :
    Takes (fun s u => Written (.string s) u) (text.read steps depth) := by
  intro t s rest h
  obtain ⟨b, u, o, rfl, hb, hu, hf⟩ := opened_of_bind h
  cases hu with
  | list => cases hf
  | object => cases hf
  | @scalar v u _ hw hv =>
    cases v with
    | string k =>
      cases hf
      exact ⟨b, u, rfl, hb, hw⟩
    | null | bool c | number n => cases hf
    | array vs => cases hv
    | object ms => cases hv

theorem reads_text {s : String} {u : List Char} (h : Written (.string s) u) (depth : Nat) :
    text.Reads Delimited depth s u where
  isValue := h.isValue
  delimited _ _ hr := hr
  read_eq hl hb hr := toOption_eq_some_iff.mp (toOption_readText ⟨h, hl, Nat.zero_le depth⟩ hb hr)

theorem local_text : text.Local Delimited := by
  intro steps depth t s rest h
  obtain ⟨b, u, rfl, hb, hw⟩ := takes_text steps depth h
  exact ⟨b, u, rfl, hb, reads_text hw depth⟩

theorem local_any : any.Local Delimited := by
  intro steps depth t v rest h
  obtain ⟨b, u, rfl, hb, w, hw, rfl, hh⟩ := Value.takes_read steps depth h
  refine ⟨b, u, rfl, hb, ⟨_, hw.formed (Nat.le_refl _)⟩, fun _ _ hr => hr, fun hl hb hrest => ?_⟩
  exact Value.read_fits ⟨hw, hl, hh⟩ hb hrest

theorem reads_members {ms : Members} {u : List Char} (h : Written (.object ms) u) {depth : Nat}
    (hh : (Value.object ms).height ≤ depth) :
    members.Reads Delimited depth (Members.ofWritten (settledMembers ms)) u where
  isValue := h.isValue
  delimited _ _ hr := hr
  read_eq {steps b rest} hl hb hr := by
    obtain ⟨v, lower, rfl, rfl, hv, hms⟩ := (⟨h, hl, hh⟩ : Fits steps depth _ u).object
    have hread : readMembers (Value.read steps lower) steps steps true (v ++ '}' :: rest) =
        .ok (ms.map fun m => (m.1, m.2.settled), rest) :=
      readMembers_listed (fun _ _ _ _ h hb hr => Value.read_fits h hb hr) hms (Nat.le_of_lt hv) hv
        rest
    simp only [members, readObject, List.append_assoc, List.cons_append, List.nil_append,
      openValue_object hb, atRoot_ok, ok_bind, hread, settledMembers_eq_map]
    rfl

theorem local_members : members.Local Delimited := by
  intro steps depth t ms rest h
  obtain ⟨b, u, o, rfl, hb, hu, hf⟩ := opened_of_bind h
  cases hu with
  | scalar => cases hf
  | list => cases hf
  | object =>
    cases depth with
    | zero => cases hf
    | succ depth =>
      obtain ⟨⟨ns, t₁⟩, hns, hms⟩ := bind_eq_ok_iff.mp hf
      cases hms
      obtain ⟨u, rfl, hu⟩ := listed_of_readMembers (Value.takes_read steps depth) hns
      obtain ⟨w, hw, hs, hh⟩ := settles_of_members hu
      obtain ⟨ks, v, rfl, -, -⟩ := hw.of_object
      have hks : Members.ofWritten (settledMembers ks) = Members.ofWritten ns := Value.object.inj hs
      exact ⟨b, _, by rw [cons_append_close], hb, hks ▸ reads_members hw hh⟩

theorem reads_list {d : Decoder α} {depth : Nat} {as : List α} {u : List Char}
    (h : Listed (d.Reads Delimited depth) true as u) (R : List Char → Prop) :
    (list d).Reads R (depth + 1) as ('[' :: (u ++ [']'])) where
  isValue := isValue_of_items h fun _ _ _ hx => hx.isValue
  delimited hs := absurd hs (not_scalar_bracket (.inl rfl))
  read_eq {steps b rest} hl hb _ := by
    simp only [List.length_cons, List.length_append, List.length_nil] at hl
    have hi : Listed (fun a x => x.length ≤ steps ∧ d.Reads Delimited depth a x) true as u :=
      h.imp fun a _ x hx h => ⟨by omega, h⟩
    have hread : (readItems (d.read steps depth) steps 0 (u ++ ']' :: rest)).toOption =
        (as.mapM fun a => some (id a)).map fun as => (as, rest) := by
      refine readItems_listed (fun a x h => h.2.isValue.starts) (fun a x rest h hr => ?_) hi
        (by omega) rfl rest
      have ha := h.2.read_eq h.1 blanks_nil hr
      rw [List.nil_append] at ha
      rw [ha]
      rfl
    rw [mapM_some, List.map_id, Option.map_some, toOption_eq_some_iff] at hread
    simp only [list, readList, List.append_assoc, List.cons_append, List.nil_append,
      openValue_list hb]
    exact hread

theorem local_list {d : Decoder α} (hd : d.Local Delimited) (R : List Char → Prop) :
    (list d).Local R := by
  intro steps depth t as rest h
  obtain ⟨b, u, o, rfl, hb, hu, hf⟩ := opened_of_bind h
  cases hu with
  | scalar => cases hf
  | object => cases hf
  | list =>
    cases depth with
    | zero => cases hf
    | succ depth =>
      obtain ⟨u, rfl, hu⟩ := listed_of_readItems (hd steps depth) hf
      exact ⟨b, _, by simp, hb, reads_list hu R⟩

end Decoder

namespace Record

variable {ρ α : Type} {r : Record ρ α} {T : Field ρ → (ρ → ρ) → List Char → Prop}
  {steps depth : Nat}

/-- Members, in order, take a record under way to another one. Those of no field are passed over. -/
inductive Filled (r : Record ρ α) (T : Field ρ → (ρ → ρ) → List Char → Prop) :
    ρ → List (String × List Char) → ρ → Prop where
  | nil {s : ρ} : Filled r T s [] s
  | skip {k : String} {x : List Char} {ms : List (String × List Char)} {s s' : ρ} :
      r.field? k = none → Filled r T s ms s' → Filled r T s ((k, x) :: ms) s'
  | fill {k : String} {f : Field ρ} {fill : ρ → ρ} {x : List Char}
      {ms : List (String × List Char)} {s s' : ρ} : r.field? k = some f → f.filled s = false →
      T f fill x → Filled r T (fill s) ms s' → Filled r T s ((k, x) :: ms) s'

inductive Placed (T : Field ρ → (ρ → ρ) → List Char → Prop) :
    List (Field ρ) → ρ → List (List Char) → ρ → Prop where
  | nil {fs : List (Field ρ)} {s : ρ} : Placed T fs s [] s
  | cons {f : Field ρ} {fs : List (Field ρ)} {fill : ρ → ρ} {x : List Char}
      {xs : List (List Char)} {s s' : ρ} : T f fill x → Placed T fs (fill s) xs s' →
      Placed T (f :: fs) s (x :: xs) s'

theorem Filled.forall_mem {s s' : ρ} {ms : List (String × List Char)} (h : Filled r T s ms s') :
    ∀ m ∈ ms, r.field? m.1 = none ∨ ∃ f fill, r.field? m.1 = some f ∧ T f fill m.2 := by
  induction h with
  | nil => nofun
  | skip hf _ ih => exact List.forall_mem_cons.mpr ⟨.inl hf, ih⟩
  | fill hf _ hx _ ih => exact List.forall_mem_cons.mpr ⟨.inr ⟨_, _, hf, hx⟩, ih⟩

theorem Placed.forall_mem {fs : List (Field ρ)} {s s' : ρ} {xs : List (List Char)}
    (h : Placed T fs s xs s') : ∀ x ∈ xs, ∃ f fill, T f fill x := by
  induction h with
  | nil => nofun
  | cons hx _ ih => exact List.forall_mem_cons.mpr ⟨⟨_, _, hx⟩, ih⟩

theorem Filled.invariant {I : ρ → Prop} {s s' : ρ} {ms : List (String × List Char)}
    (h : Filled r T s ms s') (hT : ∀ f fill x, T f fill x → ∀ s, I s → I (fill s)) (hs : I s) :
    I s' := by
  induction h with
  | nil => exact hs
  | skip _ _ ih => exact ih hs
  | fill _ _ hx _ ih => exact ih (hT _ _ _ hx _ hs)

theorem Placed.invariant {I : ρ → Prop} {fs : List (Field ρ)} {s s' : ρ} {xs : List (List Char)}
    (h : Placed T fs s xs s') (hT : ∀ f fill x, T f fill x → ∀ s, I s → I (fill s)) (hs : I s) :
    I s' := by
  induction h with
  | nil => exact hs
  | cons hx _ ih => exact ih (hT _ _ _ hx _ hs)

inductive Laid (r : Record ρ α) (T : Field ρ → (ρ → ρ) → List Char → Prop) (s : ρ) :
    List Char → Prop where
  | named {ms : List (String × List Char)} {u : List Char} :
      Listed (Labelled Spells (Piece IsValue)) true ms u → Filled r T r.blank ms s →
      Laid r T s ('{' :: (u ++ ['}']))
  | placed {xs : List (List Char)} {u : List Char} : Listed (Piece IsValue) true xs u →
      Placed T r.fields r.blank xs s → Laid r T s ('[' :: (u ++ [']']))

theorem Laid.isValue {s : ρ} {u : List Char} (h : Laid r T s u) : IsValue u := by
  cases h with
  | named hu _ => exact isValue_of_members hu (fun _ _ hs => hs.loose) fun _ _ _ hx => hx.2
  | placed hu _ => exact isValue_of_items hu fun _ _ _ hx => hx.2

theorem Laid.not_scalar {s : ρ} {u : List Char} (h : Laid r T s u) : ¬ Scalar u := by
  cases h with
  | named => exact not_scalar_bracket (.inr rfl)
  | placed => exact not_scalar_bracket (.inl rfl)

theorem Laid.invariant {I : ρ → Prop} {s : ρ} {u : List Char} (h : Laid r T s u)
    (hT : ∀ f fill x, T f fill x → ∀ s, I s → I (fill s)) (hs : I r.blank) : I s := by
  cases h with
  | named _ hms => exact hms.invariant hT hs
  | placed _ hxs => exact hxs.invariant hT hs

theorem filled_of_readFields
    (hT : ∀ f ∈ r.fields, Takes (T f) (f.decoder.read steps depth))
    (hv : ∀ f fill x, T f fill x → IsValue x)
    {left : Nat} {first : Bool} {s s' : ρ}
    (h : r.readFields steps depth left first s t = .ok (s', rest)) :
    ∃ ms u, t = u ++ '}' :: rest ∧ Listed (Labelled Spells (Piece IsValue)) first ms u ∧
      Filled r T s ms s' := by
  induction left generalizing first s t with
  | zero => cases h
  | succ left ih =>
    obtain ⟨⟨k?, t₁⟩, hk, h₁⟩ := bind_eq_ok_iff.mp h
    obtain ⟨rfl, hstep⟩ | ⟨k, s₁, rfl, hs, hstep⟩ :=
      stepped_of_nextKey (atRoot_eq_ok_iff.mp (within_eq_ok_iff.mp hk))
    · cases h₁
      obtain ⟨u, ht, hu⟩ := hstep.nil
      exact ⟨[], u, ht, hu, .nil⟩
    · dsimp only at h₁
      split at h₁
      · rename_i hf
        obtain ⟨t₂, hc, h₂⟩ := bind_eq_ok_iff.mp h₁
        obtain ⟨t₃, hskip, h₃⟩ := bind_eq_ok_iff.mp h₂
        obtain ⟨b, rfl, hb⟩ := colon_of_readColon (atRoot_eq_ok_iff.mp hc)
        obtain ⟨b', x, rfl, hb', hx⟩ :=
          Skip.passes_value steps (atRoot_eq_ok_iff.mp (within_eq_ok_iff.mp hskip))
        obtain ⟨ms, u, rfl, hu, hms⟩ := ih h₃
        obtain ⟨u', ht, hu'⟩ := hstep.member hs hb hb' ⟨rfl, ⟨_, hx⟩⟩ hu
        exact ⟨(k, x) :: ms, u', ht, hu', .skip hf hms⟩
      · rename_i f hf
        split at h₁
        · cases h₁
        · rename_i hfilled
          obtain ⟨t₂, hc, h₂⟩ := bind_eq_ok_iff.mp h₁
          obtain ⟨⟨fill, t₃⟩, hread, h₃⟩ := bind_eq_ok_iff.mp h₂
          obtain ⟨b, rfl, hb⟩ := colon_of_readColon (atRoot_eq_ok_iff.mp hc)
          obtain ⟨b', x, rfl, hb', hx⟩ :=
            hT f (List.mem_of_find?_eq_some hf) (within_eq_ok_iff.mp hread)
          obtain ⟨ms, u, rfl, hu, hms⟩ := ih h₃
          obtain ⟨u', ht, hu'⟩ := hstep.member hs hb hb' ⟨rfl, hv _ _ _ hx⟩ hu
          exact ⟨(k, x) :: ms, u', ht, hu', .fill hf (Bool.eq_false_iff.mpr hfilled) hx hms⟩

theorem blanks_of_readEnd (h : readEnd t = .ok rest) : ∃ b, t = b ++ ']' :: rest ∧ Blanks b := by
  rw [readEnd] at h
  split at h
  · cases h
  · rename_i heq
    obtain ⟨b, hb, rfl⟩ := exists_blanks_of_skipBlank heq
    cases h
    exact ⟨b, rfl, hb⟩
  · split at h <;> cases h
  · cases h

theorem placed_of_readPlaces {fs : List (Field ρ)}
    (hT : ∀ f ∈ fs, Takes (T f) (f.decoder.read steps depth))
    (hv : ∀ f fill x, T f fill x → IsValue x)
    {i n : Nat} {s s' : ρ} (h : readPlaces steps depth fs i s t = .ok (s', n, rest)) :
    ∃ xs u, t = u ++ ']' :: rest ∧ Listed (Piece IsValue) (i == 0) xs u ∧ Placed T fs s xs s' := by
  induction fs generalizing i s t with
  | nil =>
    obtain ⟨t₁, he, h₁⟩ := bind_eq_ok_iff.mp h
    cases h₁
    obtain ⟨b, rfl, hb⟩ := blanks_of_readEnd (atRoot_eq_ok_iff.mp he)
    exact ⟨[], b, rfl, .nil hb, .nil⟩
  | cons f fs ih =>
    obtain ⟨⟨more, t₁⟩, hn, h₁⟩ := bind_eq_ok_iff.mp h
    have hstep := stepped_of_nextItem (atRoot_eq_ok_iff.mp hn)
    cases more with
    | false =>
      cases h₁
      obtain ⟨u, ht, hu⟩ := hstep.nil
      exact ⟨[], u, ht, hu, .nil⟩
    | true =>
      obtain ⟨⟨fill, t₂⟩, hread, h₂⟩ := bind_eq_ok_iff.mp h₁
      obtain ⟨b, x, rfl, hb, hx⟩ := hT f (by simp) (within_eq_ok_iff.mp hread)
      obtain ⟨xs, u, rfl, hu, hxs⟩ := ih (fun g hg => hT g (by simp [hg])) h₂
      obtain ⟨u', ht, hu'⟩ := hstep.cons hb ⟨rfl, hv _ _ _ hx⟩ hu
      exact ⟨x :: xs, u', ht, hu', .cons hx hxs⟩

theorem exists_depth_of_read {a : α} (h : r.read steps depth t = .ok (a, rest)) :
    ∃ lower, depth = lower + 1 := by
  obtain ⟨b, u, o, rfl, hb, hu, hf⟩ := opened_of_bind h
  cases depth with
  | zero => cases hu <;> cases hf
  | succ lower => exact ⟨lower, rfl⟩

theorem laid_of_read
    (hT : ∀ f ∈ r.fields, Takes (T f) (f.decoder.read steps depth))
    (hv : ∀ f fill x, T f fill x → IsValue x)
    {a : α} (h : r.read steps (depth + 1) t = .ok (a, rest)) :
    ∃ b u s, t = b ++ (u ++ rest) ∧ Blanks b ∧ Laid r T s u ∧ r.finish s = .ok a := by
  obtain ⟨b, u, o, rfl, hb, hu, hf⟩ := opened_of_bind h
  cases hu with
  | scalar => cases hf
  | list =>
    obtain ⟨⟨s, n, t₁⟩, hs, ha⟩ := bind_eq_ok_iff.mp hf
    obtain ⟨xs, u, rfl, hu, hxs⟩ := placed_of_readPlaces hT hv hs
    dsimp only at ha
    split at ha
    · rename_i hfin
      cases ha
      exact ⟨b, _, s, by simp, hb, .placed hu hxs, hfin⟩
    · cases ha
  | object =>
    obtain ⟨⟨s, t₁⟩, hs, ha⟩ := bind_eq_ok_iff.mp hf
    obtain ⟨ms, u, rfl, hu, hms⟩ := filled_of_readFields hT hv hs
    dsimp only at ha
    split at ha
    · rename_i hfin
      cases ha
      exact ⟨b, _, s, by simp, hb, .named hu hms, hfin⟩
    · cases ha

/-! Reading the record again. -/

theorem readFields_filled
    (hT : ∀ f ∈ r.fields, ∀ fill x, T f fill x → f.decoder.Reads Delimited depth fill x)
    {first : Bool} {ms : List (String × List Char)} {u : List Char}
    (h : Listed (Labelled Spells (Piece IsValue)) first ms u) {s s' : ρ} (hf : Filled r T s ms s')
    {left : Nat} (hs : u.length ≤ steps) (hl : u.length < left) (rest : List Char) :
    r.readFields steps depth left first s (u ++ '}' :: rest) = .ok (s', rest) := by
  induction h generalizing left s with
  | nil hb =>
    obtain ⟨left, rfl⟩ := Nat.exists_eq_add_of_lt hl
    cases hf
    simp [readFields, nextKey_close hb]
    rfl
  | @cons first m ms b b' t u hb hb' hm hms ih =>
    cases hm with
    | @mk k x s₁ c c' t hk hc hc' ht =>
      obtain ⟨rfl, ⟨d, ht⟩⟩ := ht
      simp only [List.length_append, List.length_cons] at hs hl
      obtain ⟨left, rfl⟩ : ∃ n, left = n + 1 := ⟨left - 1, by omega⟩
      have hd : Delimited (u ++ '}' :: rest) := hms.delimited (.inr rfl)
      have hx : x.length ≤ steps := by omega
      rw [List.append_assoc, readFields_member hb hb' hk hc (show s₁.length < steps by omega)]
      cases hf with
      | skip hfield hms' =>
        rw [hfield, Skip.value_formed ht hc' (fun _ => hd) hx]
        exact ih hms' (by omega) (by omega)
      | fill hfield hfilled hT' hms' =>
        simp only [hfield, hfilled,
          (hT _ (List.mem_of_find?_eq_some hfield) _ _ hT').read_eq hx hc' hd]
        exact ih hms' (by omega) (by omega)

theorem readPlaces_placed {fs : List (Field ρ)}
    (hT : ∀ f ∈ fs, ∀ fill x, T f fill x → f.decoder.Reads Delimited depth fill x)
    {first : Bool} {xs : List (List Char)} {u : List Char} (h : Listed (Piece IsValue) first xs u)
    {s s' : ρ} (hp : Placed T fs s xs s') {i : Nat} (hi : first = (i == 0)) (hs : u.length ≤ steps)
    (rest : List Char) :
    readPlaces steps depth fs i s (u ++ ']' :: rest) = .ok (s', i + xs.length, rest) := by
  induction hp generalizing first u i with
  | @nil fs s =>
    cases h with
    | nil hb =>
      cases fs with
      | nil => simp [readPlaces, readEnd, skipBlank_append_cons hb (c := ']') (by decide)]
      | cons f fs => simp [readPlaces, nextItem_close hb]; rfl
  | @cons f fs fill x xs s s' hx _ ih =>
    cases h with
    | @cons _ _ _ b b' t u hb hb' ht hxs =>
      obtain ⟨rfl, hv⟩ := ht
      simp only [List.length_append] at hs
      have hn := nextItem_comma hb hb' hv.starts first (u ++ ']' :: rest)
      have hd : Delimited (u ++ ']' :: rest) := hxs.delimited (.inl rfl)
      have hread :=
        (hT f (by simp) fill x hx).read_eq (show x.length ≤ steps by omega) blanks_nil hd
      simp only [List.append_assoc, List.nil_append] at hn hread ⊢
      simp only [readPlaces, ← hi, hn, atRoot_ok, ok_bind, hread, within_ok]
      have hr := ih (fun g hg => hT g (by simp [hg])) hxs (i := i + 1) (by simp) (by omega)
      rw [hr, List.length_cons, Nat.add_right_comm, Nat.add_assoc]

theorem reads_laid
    (hT : ∀ f ∈ r.fields, ∀ fill x, T f fill x → f.decoder.Reads Delimited depth fill x) {s : ρ}
    {u : List Char} (h : Laid r T s u) {a : α} (hfin : r.finish s = .ok a) (R : List Char → Prop) :
    r.decoder.Reads R (depth + 1) a u := by
  refine ⟨h.isValue, fun hs => absurd hs h.not_scalar, fun {steps b rest} hl hb _ => ?_⟩
  cases h with
  | named hu hms =>
    simp only [List.length_cons, List.length_append, List.length_nil] at hl
    have hread :=
      readFields_filled hT hu hms (show _ ≤ steps by omega) (show _ < steps by omega) rest
    simp only [decoder, read, List.append_assoc, List.cons_append, List.nil_append,
      openValue_object hb, atRoot_ok, ok_bind, hread, hfin]
    rfl
  | placed hu hxs =>
    simp only [List.length_cons, List.length_append, List.length_nil] at hl
    have hread := readPlaces_placed hT hu hxs (i := 0) rfl (show _ ≤ steps by omega) rest
    simp only [decoder, read, List.append_assoc, List.cons_append, List.nil_append,
      openValue_list hb, atRoot_ok, ok_bind, hread, hfin]
    rfl

theorem local_decoder (hr : ∀ f ∈ r.fields, f.decoder.Local Delimited) (R : List Char → Prop) :
    r.decoder.Local R := by
  intro steps depth t a rest h
  obtain ⟨lower, rfl⟩ := exists_depth_of_read h
  obtain ⟨b, u, s, rfl, hb, hu, hfin⟩ := laid_of_read (fun f hf => hr f hf steps lower)
    (fun f fill x hx => hx.isValue) h
  exact ⟨b, u, rfl, hb, reads_laid (fun _ _ _ _ hx => hx) hu hfin R⟩

theorem local_one {β : Type} {name key : String} {d : Decoder β} {default? : Option β}
    (hd : d.Local Delimited) (R : List Char → Prop) :
    (one name key d default?).decoder.Local R := by
  refine local_decoder (fun f hf => ?_) R
  rw [List.mem_singleton.mp hf]
  exact Decoder.local_map hd fun b (_ : Option β) => some b

theorem local_two {β γ : Type} {name key key' : String} {d : Decoder β} {d' : Decoder γ}
    {default? : Option γ} (hd : d.Local Delimited) (hd' : d'.Local Delimited)
    (R : List Char → Prop) : (two name key d key' d' default?).decoder.Local R := by
  refine local_decoder (fun f hf => ?_) R
  simp only [two, List.mem_cons, List.not_mem_nil, or_false] at hf
  rcases hf with rfl | rfl
  · exact Decoder.local_map hd fun b (s : Option β × Option γ) => (some b, s.2)
  · exact Decoder.local_map hd' fun c (s : Option β × Option γ) => (s.1, some c)

end Record

namespace Decoder

variable {α : Type} {d : Decoder α}

theorem front_of_readFront (hd : d.Local fun _ => True) {a : α}
    (h : d.readFront t = .ok (a, rest)) :
    ∃ front, t = front ++ rest ∧ IsDocument front ∧ (IsDocument t ↔ Blanks rest) ∧
      ∀ rest', d.readFront (front ++ rest') = .ok (a, rest') := by
  obtain ⟨b, u, rfl, hb, hu⟩ := hd _ _ h
  have hfront : IsDocument (b ++ u) := ⟨b, u, [], by simp, hb, hu.isValue, blanks_nil⟩
  refine ⟨b ++ u, by simp, hfront, ⟨?_, fun hr => ⟨b, u, rest, by simp, hb, hu.isValue, hr⟩⟩, ?_⟩
  · rintro ⟨c, v, c', he, hc, hv, hc'⟩
    rw [List.append_assoc] at he
    have he := hu.isValue.starts.cancel hv.starts hb hc he
    obtain ⟨-, rfl⟩ :=
      hu.isValue.unique hv (fun hs => hu.delimited hs _ trivial) (fun _ => hc'.delimited_end) he
    exact hc'
  · intro rest'
    exact hu.read_eq (by simp only [List.length_append]; omega) hb trivial

end Decoder

/-- Of a text that is read at all only a document at its front counts, whatever follows it. -/
def ReadsFront {ε α : Type} (f : String → Except ε α) (text : String) : Prop :=
  ∀ a, f text = .ok a → ∃ front rest, text = front ++ rest ∧ IsDocument front.toList ∧
    (IsDocument text.toList ↔ Blanks rest.toList) ∧ ∀ rest', f (front ++ rest') = .ok a

theorem readsFront_ofText {α : Type} {d : Decoder α} (hd : d.Local fun _ => True) (text : String) :
    ReadsFront d.ofText text := by
  intro a h
  have hok {text : String} :
      d.ofText text = .ok a ↔ ∃ rest, d.readFront text.toList = .ok (a, rest) := by
    rw [Decoder.ofText]
    split <;> simp_all
  obtain ⟨rest, hrest⟩ := hok.mp h
  obtain ⟨front, ht, hfront, hdoc, hread⟩ := Decoder.front_of_readFront hd hrest
  refine ⟨String.ofList front, String.ofList rest, ?_, by simpa, by simpa,
    fun rest' => hok.mpr ⟨rest'.toList, ?_⟩⟩
  · rw [← String.ofList_append, ← ht, String.ofList_toList]
  · rw [String.toList_append, String.toList_ofList]
    exact hread _

theorem ReadsFront.bind {ε α β : Type} {f : String → Except ε α} {text : String}
    (h : ReadsFront f text) (g : α → Except ε β) : ReadsFront (fun text => f text >>= g) text := by
  intro b hb
  obtain ⟨a, ha, hb⟩ := bind_eq_ok_iff.mp hb
  obtain ⟨front, rest, ht, hfront, hdoc, hread⟩ := h a ha
  refine ⟨front, rest, ht, hfront, hdoc, fun rest' => ?_⟩
  simp only [hread rest', ok_bind, hb]

theorem ReadsFront.mapError {ε δ α : Type} {f : String → Except ε α} {text : String}
    (h : ReadsFront f text) (g : ε → δ) : ReadsFront (fun text => (f text).mapError g) text := by
  intro a ha
  obtain ⟨front, rest, ht, hfront, hdoc, hread⟩ := h a (mapError_eq_ok_iff.mp ha)
  exact ⟨front, rest, ht, hfront, hdoc, fun rest' => mapError_eq_ok_iff.mpr (hread rest')⟩

end ModelBindings.Json
