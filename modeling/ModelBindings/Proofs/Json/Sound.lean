import ModelBindings.Proofs.Json.Taken

namespace ModelBindings.Json

variable {t rest : List Char}

def Takes {ε α : Type} (P : α → List Char → Prop) (f : List Char → Except ε (α × List Char)) :
    Prop :=
  ∀ ⦃t a rest⦄, f t = .ok (a, rest) → ∃ b u, t = b ++ (u ++ rest) ∧ Blanks b ∧ P a u

theorem Takes.imp {ε α : Type} {P Q : α → List Char → Prop}
    {f : List Char → Except ε (α × List Char)} (h : Takes P f) (hPQ : ∀ a u, P a u → Q a u) :
    Takes Q f := by
  intro t a rest ha
  obtain ⟨b, u, ht, hb, hu⟩ := h ha
  exact ⟨b, u, ht, hb, hPQ a u hu⟩

inductive Stepped (close : Char) (first : Bool) : Bool → List Char → List Char → Prop where
  | more {b b' rest : List Char} : Blanks b → Blanks b' →
      Stepped close first true (b ++ comma first ++ b' ++ rest) rest
  | done {b rest : List Char} : Blanks b → Stepped close first false (b ++ close :: rest) rest

namespace Stepped

variable {α : Type} {P : α → List Char → Prop} {close : Char} {first : Bool}

theorem nil (h : Stepped close first false t rest) :
    ∃ u, t = u ++ close :: rest ∧ Listed P first [] u := by
  cases h with
  | done hb => exact ⟨_, rfl, .nil hb⟩

theorem blanks {b : List Char} (h : Stepped close first true t (b ++ rest)) (hb : Blanks b) :
    Stepped close first true t rest := by
  cases h with
  | @more c c' _ hc hc' =>
    have h : Stepped close first true (c ++ comma first ++ (c' ++ b) ++ rest) rest :=
      .more hc (hc'.append hb)
    simpa only [List.append_assoc] using h

theorem cons {a : α} {as : List α} {b x u : List Char}
    (h : Stepped close first true t (b ++ (x ++ (u ++ close :: rest)))) (hb : Blanks b)
    (hx : P a x) (hu : Listed P false as u) :
    ∃ u, t = u ++ close :: rest ∧ Listed P first (a :: as) u := by
  cases h.blanks hb with
  | more hc hc' => exact ⟨_, by simp only [List.append_assoc], .cons hc hc' hx hu⟩

theorem member {κ : Type} {K : κ → List Char → Prop} {k : κ} {a : α} {ms : List (κ × α)}
    {s b b' x u : List Char}
    (h : Stepped close first true t
      ('"' :: (s ++ '"' :: (b ++ ':' :: (b' ++ (x ++ (u ++ close :: rest)))))))
    (hk : K k s) (hb : Blanks b) (hb' : Blanks b') (hx : P a x)
    (hu : Listed (Labelled K P) false ms u) :
    ∃ u, t = u ++ close :: rest ∧ Listed (Labelled K P) first ((k, a) :: ms) u := by
  have hm : Labelled K P (k, a) ('"' :: s ++ '"' :: b ++ ':' :: b' ++ x) := .mk hk hb hb' hx
  refine cons (b := []) ?_ blanks_nil hm hu
  simpa only [List.append_assoc, List.cons_append, List.nil_append] using h

theorem start {b : List Char} (hb : Blanks b) (t : List Char) :
    Stepped close true true (b ++ t) t := by
  have h : Stepped close true true (b ++ comma true ++ [] ++ t) t := .more hb blanks_nil
  rwa [comma, if_pos rfl, List.append_nil, List.append_nil] at h

theorem comma {b b' : List Char} (hb : Blanks b) (hb' : Blanks b') (t : List Char) :
    Stepped close false true (b ++ ',' :: (b' ++ t)) t := by
  have h : Stepped close false true (b ++ Json.comma false ++ b' ++ t) t := .more hb hb'
  rwa [List.append_assoc, List.append_assoc] at h

theorem of_ite {b : List Char} {more : Bool} {e : Except Stop (Bool × List Char)} (hb : Blanks b)
    (h : (if first = true then .ok (true, t) else e) = .ok (more, rest))
    (he : e = .ok (more, rest) → Stepped close false more (b ++ t) rest) :
    Stepped close first more (b ++ t) rest := by
  cases first with
  | true =>
    cases h
    exact start hb _
  | false => exact he h

end Stepped

theorem stepped_of_nextItem {first more : Bool} (h : nextItem first t = .ok (more, rest)) :
    Stepped ']' first more t rest := by
  rw [nextItem] at h
  split at h
  · cases h
  · rename_i heq
    obtain ⟨b, hb, rfl⟩ := exists_blanks_of_skipBlank heq
    cases h
    exact .done hb
  · rename_i c u _ heq
    obtain ⟨b, hb, rfl⟩ := exists_blanks_of_skipBlank heq
    refine .of_ite hb h fun h => ?_
    split at h
    · rename_i hc
      obtain ⟨b', hb', hu⟩ := exists_skipBlank u
      rw [hc, hu]
      split at h
      · cases h
      · cases h
      · cases h
        exact .comma hb hb' _
    · cases h

theorem key_of_nextKey {steps : Nat} {k? : Option String}
    (h : nextKey.key steps t = .ok (k?, rest)) :
    ∃ k s, k? = some k ∧ t = '"' :: (s ++ '"' :: rest) ∧ Spells k s := by
  rw [nextKey.key.eq_def] at h
  split at h
  · obtain ⟨⟨k, t₁⟩, hk, h⟩ := bind_eq_ok_iff.mp h
    cases h
    obtain ⟨s, rfl, hs⟩ := spelling_of_readString hk
    exact ⟨k, s, rfl, rfl, hs⟩
  · cases h

theorem stepped_of_nextKey {steps : Nat} {first : Bool} {k? : Option String}
    (h : nextKey steps first t = .ok (k?, rest)) :
    (k? = none ∧ Stepped '}' first false t rest) ∨
      ∃ k s, k? = some k ∧ Spells k s ∧ Stepped '}' first true t ('"' :: (s ++ '"' :: rest)) := by
  rw [nextKey] at h
  split at h
  · cases h
  · rename_i heq
    obtain ⟨b, hb, rfl⟩ := exists_blanks_of_skipBlank heq
    cases h
    exact .inl ⟨rfl, .done hb⟩
  · rename_i c u _ heq
    obtain ⟨b, hb, rfl⟩ := exists_blanks_of_skipBlank heq
    split at h
    · rename_i hf
      obtain ⟨k, s, rfl, hu, hs⟩ := key_of_nextKey h
      rw [hf, hu]
      exact .inr ⟨k, s, rfl, hs, .start hb _⟩
    · rename_i hf
      split at h
      · rename_i hc
        rw [hc, Bool.eq_false_iff.mpr hf]
        obtain ⟨b', hb', hu⟩ := exists_skipBlank u
        split at h
        · cases h
        · cases h
        · obtain ⟨k, s, rfl, hk, hs⟩ := key_of_nextKey h
          rw [hk] at hu
          rw [hu]
          exact .inr ⟨k, s, rfl, hs, .comma hb hb' _⟩
      · cases h

theorem colon_of_readColon (h : readColon t = .ok rest) : ∃ b, t = b ++ ':' :: rest ∧ Blanks b := by
  rw [readColon] at h
  split at h
  · cases h
  · rename_i heq
    obtain ⟨b, hb, rfl⟩ := exists_blanks_of_skipBlank heq
    cases h
    exact ⟨b, rfl, hb⟩
  · cases h

section Reading

variable {α : Type} {P : α → List Char → Prop}

theorem listed_of_readItems {item : List Char → Reading (α × List Char)} (hitem : Takes P item)
    {steps i : Nat} {as : List α} (h : readItems item steps i t = .ok (as, rest)) :
    ∃ u, t = u ++ ']' :: rest ∧ Listed P (i == 0) as u := by
  induction steps generalizing i t as with
  | zero => cases h
  | succ steps ih =>
    obtain ⟨⟨more, t₁⟩, hn, h⟩ := bind_eq_ok_iff.mp h
    have hstep := stepped_of_nextItem (atRoot_eq_ok_iff.mp hn)
    cases more with
    | false =>
      cases h
      exact hstep.nil
    | true =>
      obtain ⟨⟨a, t₂⟩, ha, h⟩ := bind_eq_ok_iff.mp h
      obtain ⟨⟨as, t₃⟩, has, h⟩ := bind_eq_ok_iff.mp h
      cases h
      obtain ⟨b, x, rfl, hb, hx⟩ := hitem (within_eq_ok_iff.mp ha)
      obtain ⟨u, rfl, hu⟩ := ih has
      exact hstep.cons hb hx hu

theorem listed_of_readMembers {value : List Char → Reading (α × List Char)} (hvalue : Takes P value)
    {steps left : Nat} {first : Bool} {ms : List (String × α)}
    (h : readMembers value steps left first t = .ok (ms, rest)) :
    ∃ u, t = u ++ '}' :: rest ∧ Listed (Labelled Spells P) first ms u := by
  induction left generalizing first t ms with
  | zero => cases h
  | succ left ih =>
    obtain ⟨⟨k?, t₁⟩, hk, h⟩ := bind_eq_ok_iff.mp h
    obtain ⟨rfl, hstep⟩ | ⟨k, s, rfl, hs, hstep⟩ :=
      stepped_of_nextKey (atRoot_eq_ok_iff.mp (within_eq_ok_iff.mp hk))
    · cases h
      exact hstep.nil
    · obtain ⟨t₂, hc, h⟩ := bind_eq_ok_iff.mp h
      obtain ⟨⟨a, t₃⟩, ha, h⟩ := bind_eq_ok_iff.mp h
      obtain ⟨⟨ms, t₄⟩, hms, h⟩ := bind_eq_ok_iff.mp h
      cases h
      obtain ⟨b, rfl, hb⟩ := colon_of_readColon (atRoot_eq_ok_iff.mp hc)
      obtain ⟨b', x, rfl, hb', hx⟩ := hvalue (within_eq_ok_iff.mp ha)
      obtain ⟨u, rfl, hu⟩ := ih hms
      exact hstep.member hs hb hb' hx hu

end Reading

def Settles (depth : Nat) (v : Value) (t : List Char) : Prop :=
  ∃ w, Written w t ∧ w.settled = v ∧ w.height ≤ depth

theorem settles_of_scalar {depth : Nat} {v : Value} (h : Written v t) (hv : v.height = 0) :
    Settles depth v t :=
  ⟨v, h, Value.settled_of_height_eq_zero hv, hv ▸ Nat.zero_le _⟩

theorem settles_of_items {depth : Nat} {vs : List Value} {u : List Char}
    (h : Listed (Settles depth) true vs u) :
    Settles (depth + 1) (.array vs) ('[' :: u ++ [']']) := by
  obtain ⟨ws, hR, hws⟩ := h.reindex (R := fun v w => w.height ≤ depth ∧ w.settled = v)
    (Q := Written) fun v _ x ⟨w, hw, hs, hh⟩ => ⟨w, ⟨hh, hs⟩, hw⟩
  have hR : List.Forall₂ (fun w v => w.height ≤ depth ∧ w.settled = v) ws vs := .flip hR
  obtain ⟨hh, hs⟩ := (List.forall₂_and_left _ _).mp hR
  rw [← List.forall₂_map_left_iff, List.forall₂_eq_eq_eq] at hs
  refine ⟨.array ws, .array hws, ?_, Nat.succ_le_succ (heightItems_le_iff.mpr hh)⟩
  rw [Value.settled, settledItems_eq_map, hs]

theorem settles_of_members {depth : Nat} {ms : Members} {u : List Char}
    (h : Listed (Labelled Spells (Settles depth)) true ms u) :
    Settles (depth + 1) (.object (Members.ofWritten ms)) ('{' :: u ++ ['}']) := by
  obtain ⟨ns, hR, hns⟩ := h.reindex
    (R := fun m n => n.2.height ≤ depth ∧ (n.1, n.2.settled) = m) (Q := Keyed Written)
    fun m _ x hx => by
      cases hx with
      | @mk k v s b b' t hk hb hb' ht =>
        obtain ⟨w, hw, hs, hh⟩ := ht
        exact ⟨(k, w), ⟨hh, congrArg (Prod.mk k) hs⟩, .mk hk hb hb' hw⟩
  have hR : List.Forall₂ (fun n m => n.2.height ≤ depth ∧ (n.1, n.2.settled) = m) ns ms := .flip hR
  obtain ⟨hh, hs⟩ := (List.forall₂_and_left _ _).mp hR
  rw [← List.forall₂_map_left_iff, List.forall₂_eq_eq_eq] at hs
  refine ⟨.object ns, .object hns, ?_, Nat.succ_le_succ (heightMembers_le_iff.mpr hh)⟩
  rw [Value.settled, settledMembers_eq_map, hs]

theorem cons_append_close {c d : Char} (u rest : List Char) :
    c :: (u ++ d :: rest) = (c :: u ++ [d]) ++ rest := by
  simp

theorem opened_of_bind {α : Type} {steps : Nat} {f : Opening → Reading (α × List Char)} {a : α}
    (h : (do f (← atRoot (openValue steps t))) = .ok (a, rest)) :
    ∃ b u o, t = b ++ u ∧ Blanks b ∧ Opened o u ∧ f o = .ok (a, rest) := by
  obtain ⟨o, ho, hf⟩ := bind_eq_ok_iff.mp h
  obtain ⟨b, u, ht, hb, hu⟩ := opened_of_openValue (atRoot_eq_ok_iff.mp ho)
  exact ⟨b, u, o, ht, hb, hu, hf⟩

theorem Value.takes_read (steps depth : Nat) : Takes (Settles depth) (Value.read steps depth) := by
  induction depth with
  | zero =>
    intro t v rest h
    obtain ⟨b, u, o, rfl, hb, hu, hf⟩ := opened_of_bind h
    cases hu with
    | scalar hw hv =>
      cases hf
      exact ⟨b, _, rfl, hb, settles_of_scalar hw hv⟩
    | list => cases hf
    | object => cases hf
  | succ depth ih =>
    intro t v rest h
    obtain ⟨b, u, o, rfl, hb, hu, hf⟩ := opened_of_bind h
    cases hu with
    | scalar hw hv =>
      cases hf
      exact ⟨b, _, rfl, hb, settles_of_scalar hw hv⟩
    | list =>
      obtain ⟨⟨vs, t₁⟩, hvs, hf⟩ := bind_eq_ok_iff.mp hf
      cases hf
      obtain ⟨u, rfl, hu⟩ := listed_of_readItems ih hvs
      exact ⟨b, _, by rw [cons_append_close], hb, settles_of_items hu⟩
    | object =>
      obtain ⟨⟨ms, t₁⟩, hms, hf⟩ := bind_eq_ok_iff.mp hf
      cases hf
      obtain ⟨u, rfl, hu⟩ := listed_of_readMembers ih hms
      exact ⟨b, _, by rw [cons_append_close], hb, settles_of_members hu⟩

end ModelBindings.Json
