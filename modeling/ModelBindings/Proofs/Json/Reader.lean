import ModelBindings.Proofs.Json.Lexeme

/-!
Reading any value from a text that writes it. Of a repeated key the value is the last one, at the
place of the first; `Value.settled` says so at every level.
-/

namespace ModelBindings.Json

variable {b b' t rest : List Char}

theorem nextItem_comma (hb : Blanks b) (hb' : Blanks b') (ht : Starts t) (first : Bool)
    (rest : List Char) :
    nextItem first (b ++ (comma first ++ (b' ++ (t ++ rest)))) = .ok (true, t ++ rest) := by
  have hs := ht.skipBlank_eq hb' rest
  obtain ⟨c, u, rfl, -, -, hc, -⟩ := ht
  rw [List.append_assoc, List.cons_append] at hs
  cases first with
  | true => simp [nextItem, skipBlank_no_comma hb, hs]
  | false => simp [nextItem, skipBlank_comma hb, hs, hc]

theorem nextItem_close (hb : Blanks b) (first : Bool) (rest : List Char) :
    nextItem first (b ++ ']' :: rest) = .ok (false, rest) := by
  simp [nextItem, skipBlank_append_cons hb (c := ']') (by decide)]

theorem nextKey_key {k : String} {s : List Char} (hs : Spelling k.toList s) {steps : Nat}
    (hl : s.length < steps) (rest : List Char) :
    nextKey.key steps ('"' :: (s ++ '"' :: rest)) = .ok (some k, rest) := by
  rw [nextKey.key, readString_spelling hs hl, ok_bind]
  rfl

theorem nextKey_comma (hb : Blanks b) (hb' : Blanks b') {k : String} {s : List Char}
    (hs : Spelling k.toList s) {steps : Nat} (hl : s.length < steps) (first : Bool)
    (rest : List Char) :
    nextKey steps first (b ++ (comma first ++ (b' ++ '"' :: (s ++ '"' :: rest)))) =
      .ok (some k, rest) := by
  have hk := nextKey_key hs hl rest
  have hq : skipBlank (b' ++ '"' :: (s ++ '"' :: rest)) = '"' :: (s ++ '"' :: rest) := by
    rw [skipBlank_append_cons hb' (by decide)]
  cases first with
  | true => simpa [nextKey, skipBlank_no_comma hb, hq] using hk
  | false => simpa [nextKey, skipBlank_comma hb, hq] using hk

theorem nextKey_close (hb : Blanks b) (steps : Nat) (first : Bool) (rest : List Char) :
    nextKey steps first (b ++ '}' :: rest) = .ok (none, rest) := by
  simp [nextKey, skipBlank_append_cons hb (c := '}') (by decide)]

theorem readColon_append (hb : Blanks b) (t : List Char) : readColon (b ++ ':' :: t) = .ok t := by
  simp [readColon, skipBlank_append_cons hb (c := ':') (by decide)]

theorem readItems_listed {α β : Type} {item : List Char → Reading (α × List Char)}
    {P : β → List Char → Prop} {g : β → Option α}
    (hstarts : ∀ v t, P v t → Starts t)
    (hitem : ∀ v t rest, P v t → Delimited rest →
      (item (t ++ rest)).toOption = (g v).map fun a => (a, rest))
    {first : Bool} {vs : List β} {u : List Char} (h : Listed P first vs u) {steps i : Nat}
    (hl : u.length < steps) (hi : first = (i == 0)) (rest : List Char) :
    (readItems item steps i (u ++ ']' :: rest)).toOption =
      (vs.mapM g).map fun as => (as, rest) := by
  induction h generalizing steps i with
  | nil hb =>
    obtain ⟨steps, rfl⟩ := Nat.exists_eq_add_of_lt hl
    simp [readItems, nextItem_close hb]
  | @cons first v vs b b' t u hb hb' ht hvs ih =>
    have hp := (hstarts v t ht).length_pos
    simp only [List.length_append] at hl
    obtain ⟨steps, rfl⟩ : ∃ k, steps = k + 1 := ⟨steps - 1, by omega⟩
    have hn := nextItem_comma hb hb' (hstarts v t ht) first (u ++ ']' :: rest)
    have hv := hitem v t (u ++ ']' :: rest) ht (hvs.delimited (.inl rfl))
    have hr : (readItems item steps (i + 1) (u ++ ']' :: rest)).toOption =
        (vs.mapM g).map fun as => (as, rest) :=
      ih (by omega) (by simp)
    simp only [List.append_assoc] at hn hv ⊢
    simp only [readItems, toOption_bind, toOption_atRoot, ← hi, hn, toOption_ok, Option.bind_some,
      toOption_within, hv, List.mapM_cons]
    cases g v with
    | none => rfl
    | some a =>
      simp only [Option.map_some, Option.bind_some, hr]
      cases vs.mapM g <;> rfl

theorem readMembers_listed {α : Type} {value : List Char → Reading (α × List Char)}
    {P : Value → List Char → Prop} {g : Value → α}
    (hvalue : ∀ v b t rest, P v t → Blanks b → Delimited rest →
      value (b ++ t ++ rest) = .ok (g v, rest))
    {first : Bool} {ms : Members} {u : List Char} (h : Listed (Keyed P) first ms u)
    {steps left : Nat} (hs : u.length ≤ steps) (hl : u.length < left) (rest : List Char) :
    readMembers value steps left first (u ++ '}' :: rest) =
      .ok (ms.map fun m => (m.1, g m.2), rest) := by
  induction h generalizing left with
  | nil hb =>
    obtain ⟨left, rfl⟩ := Nat.exists_eq_add_of_lt hl
    simp [readMembers, nextKey_close hb]
    rfl
  | @cons first m ms b b' t u hb hb' hm hms ih =>
    obtain ⟨hk, hc, hc', ht⟩ := hm
    rename_i k v s c c' t
    simp only [List.length_append, List.length_cons] at hs hl
    obtain ⟨left, rfl⟩ : ∃ k, left = k + 1 := ⟨left - 1, by omega⟩
    have hn := nextKey_comma hb hb' hk (show s.length < steps by omega) first
      (c ++ ':' :: (c' ++ t ++ (u ++ '}' :: rest)))
    have hv := hvalue v c' t (u ++ '}' :: rest) ht hc' (hms.delimited (.inr rfl))
    have hr : readMembers value steps left false (u ++ '}' :: rest) =
        .ok (ms.map fun m => (m.1, g m.2), rest) :=
      ih (by omega) (by omega)
    simp only [List.append_assoc, List.cons_append] at hn hv ⊢
    simp only [readMembers, hn, atRoot_ok, within_ok, ok_bind, readColon_append hc, hv,
      hr]
    rfl

mutual
def Value.settled : Value → Value
  | .array vs => .array (settledItems vs)
  | .object ms => .object (Members.ofWritten (settledMembers ms))
  | v => v
termination_by structural v => v

def settledItems : List Value → List Value
  | [] => []
  | v :: vs => v.settled :: settledItems vs
termination_by structural vs => vs

def settledMembers : Members → Members
  | [] => []
  | (k, v) :: ms => (k, v.settled) :: settledMembers ms
termination_by structural ms => ms
end

theorem settledItems_eq_map (vs : List Value) : settledItems vs = vs.map Value.settled := by
  induction vs with
  | nil => rfl
  | cons v vs ih => rw [settledItems, ih, List.map_cons]

theorem settledMembers_eq_map (ms : Members) :
    settledMembers ms = ms.map fun m => (m.1, m.2.settled) := by
  induction ms with
  | nil => rfl
  | cons m ms ih => rw [settledMembers, ih, List.map_cons]

theorem height_le_of_mem_items {v : Value} {vs : List Value} (h : v ∈ vs) :
    v.height ≤ heightItems vs := by
  induction h with
  | head vs => exact Nat.le_max_left _ _
  | tail w _ ih => exact Nat.le_trans ih (Nat.le_max_right _ _)

theorem height_le_of_mem_members {m : String × Value} {ms : Members} (h : m ∈ ms) :
    m.2.height ≤ heightMembers ms := by
  induction h with
  | head ms => exact Nat.le_max_left _ _
  | tail w _ ih => exact Nat.le_trans ih (Nat.le_max_right _ _)

theorem heightItems_le_iff {depth : Nat} {vs : List Value} :
    heightItems vs ≤ depth ↔ ∀ v ∈ vs, v.height ≤ depth := by
  induction vs with
  | nil => simp [heightItems]
  | cons v vs ih => rw [heightItems, Nat.max_le, ih, List.forall_mem_cons]

theorem heightMembers_le_iff {depth : Nat} {ms : Members} :
    heightMembers ms ≤ depth ↔ ∀ m ∈ ms, m.2.height ≤ depth := by
  induction ms with
  | nil => simp [heightMembers]
  | cons m ms ih => rw [heightMembers, Nat.max_le, ih, List.forall_mem_cons]

theorem mapM_some {α β : Type} (f : α → β) (as : List α) :
    (as.mapM fun a => some (f a)) = some (as.map f) := by
  induction as with
  | nil => rfl
  | cons a as ih => simp [ih]

structure Fits (steps depth : Nat) (v : Value) (t : List Char) : Prop where
  written : Written v t
  length_le : t.length ≤ steps
  height_le : v.height ≤ depth

namespace Fits

variable {steps depth : Nat}

theorem starts {v : Value} (h : Fits steps depth v t) : Starts t := h.written.starts

theorem array {vs : List Value} (h : Fits steps depth (.array vs) t) :
    ∃ u lower, t = '[' :: (u ++ [']']) ∧ depth = lower + 1 ∧ u.length < steps ∧
      Listed (Fits steps lower) true vs u := by
  obtain ⟨hw, hl, hd⟩ := h
  rw [Value.height] at hd
  obtain ⟨lower, rfl⟩ : ∃ k, depth = k + 1 := ⟨depth - 1, by omega⟩
  cases hw with
  | @array vs u hu =>
    simp only [List.length_cons, List.length_append, List.length_nil] at hl
    refine ⟨u, lower, rfl, rfl, by omega, hu.imp fun v hv t ht hw => ?_⟩
    exact ⟨hw, by omega, Nat.le_trans (height_le_of_mem_items hv) (Nat.le_of_succ_le_succ hd)⟩

theorem object {ms : Members} (h : Fits steps depth (.object ms) t) :
    ∃ u lower, t = '{' :: (u ++ ['}']) ∧ depth = lower + 1 ∧ u.length < steps ∧
      Listed (Keyed (Fits steps lower)) true ms u := by
  obtain ⟨hw, hl, hd⟩ := h
  rw [Value.height] at hd
  obtain ⟨lower, rfl⟩ : ∃ k, depth = k + 1 := ⟨depth - 1, by omega⟩
  cases hw with
  | @object ms u hu =>
    simp only [List.length_cons, List.length_append, List.length_nil] at hl
    refine ⟨u, lower, rfl, rfl, by omega, hu.imp fun m hm t ht hk => hk.imp fun w hw hv => ?_⟩
    exact ⟨hv, by omega, Nat.le_trans (height_le_of_mem_members hm) (Nat.le_of_succ_le_succ hd)⟩

end Fits

namespace Value

theorem settled_of_height_eq_zero {v : Value} (hv : v.height = 0) : v.settled = v := by
  cases v with
  | array vs => cases hv
  | object ms => cases hv
  | _ => rfl

theorem read_scalar {v : Value} {steps depth : Nat} (h : Fits steps depth v t) (hv : v.height = 0)
    (hb : Blanks b) (hr : Delimited rest) :
    read steps depth (b ++ t ++ rest) = .ok (v.settled, rest) := by
  have ho := openValue_scalar h.written hv hb hr h.length_le
  rw [settled_of_height_eq_zero hv]
  cases depth with
  | zero => rw [read, ho]; rfl
  | succ depth => rw [read, ho]; rfl

theorem read_fits {v : Value} {steps depth : Nat} (h : Fits steps depth v t) (hb : Blanks b)
    (hr : Delimited rest) : read steps depth (b ++ t ++ rest) = .ok (v.settled, rest) := by
  induction depth generalizing v b t rest with
  | zero => exact read_scalar h (Nat.le_zero.mp h.height_le) hb hr
  | succ depth ih =>
    cases v with
    | array vs =>
      obtain ⟨u, lower, rfl, hlower, hl, hu⟩ := h.array
      cases hlower
      have hrd : (readItems (read steps depth) steps 0 (u ++ ']' :: rest)).toOption =
          (vs.mapM fun v => some v.settled).map fun ws => (ws, rest) := by
        refine readItems_listed (fun v t h => h.starts) (fun v t rest h hr => ?_) hu hl rfl rest
        have hv := ih h blanks_nil hr
        rw [List.nil_append] at hv
        rw [hv]
        rfl
      rw [mapM_some, Option.map_some, toOption_eq_some_iff] at hrd
      simp only [List.append_assoc, List.cons_append, List.nil_append, read, openValue_list hb,
        atRoot_ok, ok_bind, hrd, settled, settledItems_eq_map]
      rfl
    | object ms =>
      obtain ⟨u, lower, rfl, hlower, hl, hu⟩ := h.object
      cases hlower
      have hrd : readMembers (read steps depth) steps steps true (u ++ '}' :: rest) =
          .ok (ms.map fun m => (m.1, m.2.settled), rest) :=
        readMembers_listed (fun v b t rest h hb hr => ih h hb hr) hu (Nat.le_of_lt hl) hl rest
      simp only [List.append_assoc, List.cons_append, List.nil_append, read, openValue_object hb,
        atRoot_ok, ok_bind, hrd, settled, settledMembers_eq_map]
      rfl
    | null => exact read_scalar h rfl hb hr
    | bool c => exact read_scalar h rfl hb hr
    | number n => exact read_scalar h rfl hb hr
    | string s => exact read_scalar h rfl hb hr

end Value

end ModelBindings.Json
