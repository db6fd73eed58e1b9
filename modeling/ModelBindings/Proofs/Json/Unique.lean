import ModelBindings.Proofs.Json.Skip

namespace ModelBindings.Json

variable {t t' rest rest' : List Char}

theorem IsValue.unique (h : IsValue t) (h' : IsValue t') (hr : Scalar t → Delimited rest)
    (hr' : Scalar t' → Delimited rest') (he : t ++ rest = t' ++ rest') : t = t' ∧ rest = rest' := by
  obtain ⟨depth, h⟩ := h
  obtain ⟨depth', h'⟩ := h'
  have hv : Skip.value (max t.length t'.length) ([] ++ t ++ rest) = .ok rest :=
    Skip.value_formed h blanks_nil hr (Nat.le_max_left _ _)
  have hv' : Skip.value (max t.length t'.length) ([] ++ t' ++ rest') = .ok rest' :=
    Skip.value_formed h' blanks_nil hr' (Nat.le_max_right _ _)
  rw [List.nil_append] at hv hv'
  rw [he, hv'] at hv
  cases hv
  exact ⟨List.append_cancel_right he, rfl⟩

theorem Blanks.cons_cancel {b b' : List Char} {c c' : Char} (hb : Blanks b) (hb' : Blanks b')
    (hc : isBlank c = false) (hc' : isBlank c' = false) (h : b ++ c :: t = b' ++ c' :: t') :
    c = c' ∧ t = t' := by
  have hs := congrArg skipBlank h
  rw [skipBlank_append_cons hb hc, skipBlank_append_cons hb' hc'] at hs
  exact List.cons.inj hs

theorem Starts.cancel {b b' : List Char} (ht : Starts t) (ht' : Starts t') (hb : Blanks b)
    (hb' : Blanks b') (h : b ++ (t ++ rest) = b' ++ (t' ++ rest')) :
    t ++ rest = t' ++ rest' := by
  have hs := congrArg skipBlank h
  rwa [← List.append_assoc, ht.skipBlank_eq hb, ← List.append_assoc, ht'.skipBlank_eq hb'] at hs

theorem spells_unique {k k' : String} {s s' : List Char} (h : Spells k s) (h' : Spells k' s')
    (he : s ++ '"' :: rest = s' ++ '"' :: rest') : k = k' ∧ rest = rest' := by
  have hk := readString_spelling h (Nat.lt_succ_of_le (Nat.le_max_left s.length s'.length)) rest
  have hk' := readString_spelling h' (Nat.lt_succ_of_le (Nat.le_max_right s.length s'.length)) rest'
  rw [he, hk'] at hk
  cases hk
  exact ⟨rfl, rfl⟩

theorem loose_unique {s s' : List Char} (h : Loose s) (h' : Loose s')
    (he : s ++ '"' :: rest = s' ++ '"' :: rest') : rest = rest' := by
  have hk := Skip.string_loose h (Nat.lt_succ_of_le (Nat.le_max_left s.length s'.length)) rest
  have hk' := Skip.string_loose h' (Nat.lt_succ_of_le (Nat.le_max_right s.length s'.length)) rest'
  rw [he, hk'] at hk
  cases hk
  rfl

theorem Labelled.unique {κ κ' α β : Type} {K : κ → List Char → Prop} {K' : κ' → List Char → Prop}
    {P : α → List Char → Prop} {Q : β → List Char → Prop} {A : κ → κ' → Prop} {R : α → β → Prop}
    {m : κ × α} {n : κ' × β} (h : Labelled K P m t) (h' : Labelled K' Q n t')
    (hA : ∀ s s' r r', K m.1 s → K' n.1 s' → s ++ '"' :: r = s' ++ '"' :: r' → A m.1 n.1 ∧ r = r')
    (hP : ∀ x, P m.2 x → Starts x) (hQ : ∀ x, Q n.2 x → Starts x)
    (hR : ∀ x y, P m.2 x → Q n.2 y → x ++ rest = y ++ rest' → R m.2 n.2 ∧ rest = rest')
    (he : t ++ rest = t' ++ rest') : (A m.1 n.1 ∧ R m.2 n.2) ∧ rest = rest' := by
  obtain ⟨hs, hb, hc, hx⟩ := h
  obtain ⟨hs', hb', hc', hx'⟩ := h'
  simp only [List.cons_append, List.append_assoc, List.cons.injEq, true_and] at he
  obtain ⟨hk, he⟩ := hA _ _ _ _ hs hs' he
  obtain ⟨-, he⟩ := hb.cons_cancel hb' (by decide) (by decide) he
  obtain ⟨hR, hrest⟩ := hR _ _ hx hx' ((hP _ hx).cancel (hQ _ hx') hc hc' he)
  exact ⟨⟨hk, hR⟩, hrest⟩

section Commas

variable {b b' c c' x y : List Char} {first : Bool}

theorem Starts.comma_cancel (hx : Starts x) (hy : Starts y) (hb : Blanks b) (hb' : Blanks b')
    (hc : Blanks c) (hc' : Blanks c')
    (h : b ++ comma first ++ b' ++ x ++ rest = c ++ comma first ++ c' ++ y ++ rest') :
    x ++ rest = y ++ rest' := by
  simp only [List.append_assoc] at h
  cases first with
  | true =>
    refine hx.cancel hy (hb.append hb') (hc.append hc') ?_
    simpa only [comma, if_true, List.nil_append, List.append_assoc] using h
  | false =>
    obtain ⟨-, h⟩ := Blanks.cons_cancel hb hc (by decide) (by decide) h
    exact hx.cancel hy hb' hc' h

theorem Starts.ne_close (hx : Starts x) (hb : Blanks b) (hc : Blanks c) (hc' : Blanks c')
    {d : Char} (hd : d = ']' ∨ d = '}') :
    b ++ d :: rest ≠ c ++ comma first ++ c' ++ x ++ rest' := by
  obtain ⟨e, u, rfl, he, -, he', he''⟩ := hx
  have hdb : isBlank d = false := by rcases hd with rfl | rfl <;> decide
  intro h
  simp only [List.append_assoc, List.cons_append] at h
  cases first with
  | true =>
    simp only [comma, if_true, List.nil_append, ← List.append_assoc c c'] at h
    obtain ⟨rfl, -⟩ := Blanks.cons_cancel hb (hc.append hc') hdb he h
    exact hd.elim he' he''
  | false =>
    obtain ⟨rfl, -⟩ := Blanks.cons_cancel hb hc hdb (by decide) h
    rcases hd with hd | hd <;> cases hd

end Commas

namespace Listed

variable {α β : Type} {P : α → List Char → Prop} {Q : β → List Char → Prop} {R : α → β → Prop}

theorem unique (hP : ∀ a x, P a x → Starts x) (hQ : ∀ b y, Q b y → Starts y)
    (hR : ∀ a b x y r r', P a x → Q b y → Delimited r → Delimited r' → x ++ r = y ++ r' →
      R a b ∧ r = r')
    {first : Bool} {as : List α} {bs : List β} (h : Listed P first as t)
    (h' : Listed Q first bs t') {d : Char} (hd : d = ']' ∨ d = '}')
    (he : t ++ d :: rest = t' ++ d :: rest') : List.Forall₂ R as bs ∧ rest = rest' := by
  induction h generalizing bs t' with
  | nil hb =>
    cases h' with
    | nil hb' =>
      have hdb : isBlank d = false := by rcases hd with rfl | rfl <;> decide
      exact ⟨.nil, (Blanks.cons_cancel hb hb' hdb hdb he).2⟩
    | cons hc hc' hy _ =>
      rw [List.append_assoc] at he
      exact absurd he ((hQ _ _ hy).ne_close hb hc hc' hd)
  | cons hb hb' hx has ih =>
    cases h' with
    | nil hc =>
      rw [List.append_assoc] at he
      exact absurd he.symm ((hP _ _ hx).ne_close hc hb hb' hd)
    | cons hc hc' hy hbs =>
      rw [List.append_assoc, List.append_assoc _ _ (d :: rest')] at he
      have he := (hP _ _ hx).comma_cancel (hQ _ _ hy) hb hb' hc hc' he
      obtain ⟨hab, hrest⟩ := hR _ _ _ _ _ _ hx hy (has.delimited hd) (hbs.delimited hd) he
      obtain ⟨habs, hrest⟩ := ih hbs hrest
      exact ⟨.cons hab habs, hrest⟩

end Listed

theorem forall_mem_of_forall₂ {α β : Type} {p : α → Prop} {as : List α} {bs : List β}
    (h : List.Forall₂ (fun a _ => p a) as bs) : ∀ a ∈ as, p a := by
  induction h with
  | nil => nofun
  | cons ha _ ih => exact List.forall_mem_cons.mpr ⟨ha, ih⟩

theorem Piece.unique {x y u v r r' : List Char} (hu : Piece IsValue x u) (hv : Piece IsValue y v)
    (hr : Delimited r) (hr' : Delimited r') (he : u ++ r = v ++ r') : x = y ∧ r = r' := by
  obtain ⟨rfl, hu⟩ := hu
  obtain ⟨rfl, hv⟩ := hv
  exact hu.unique hv (fun _ => hr) (fun _ => hr') he

theorem MembersOf.unique {ms ns : List (String × List Char)} (h : MembersOf ms t)
    (h' : MembersOf ns t) : ms = ns := by
  obtain ⟨u, rfl, hu⟩ := h
  obtain ⟨u', he, hu'⟩ := h'
  have he : u ++ '}' :: [] = u' ++ '}' :: [] := (List.cons.inj he).2
  obtain ⟨hR, -⟩ := hu.unique (R := Eq) (fun _ _ h => h.starts) (fun _ _ h => h.starts)
    (fun m n x y r r' hm hn hr hr' he => by
      obtain ⟨hmn, hrest⟩ := hm.unique hn (A := Eq) (R := Eq)
        (fun _ _ _ _ hk hk' he => spells_unique hk hk' he) (fun _ h => h.2.starts)
        (fun _ h => h.2.starts) (fun _ _ hx hy he => hx.unique hy hr hr' he) he
      exact ⟨Prod.ext hmn.1 hmn.2, hrest⟩) hu' (.inr rfl) he
  exact List.forall₂_eq_eq_eq ▸ hR

namespace Written

variable {v : Value}

theorem isValue (h : Written v t) : IsValue t := ⟨_, h.formed (Nat.le_refl _)⟩

theorem height_eq_zero (h : Written v t) (hs : Scalar t) : v.height = 0 := by
  cases h with
  | array => exact absurd hs (not_scalar_bracket (.inl rfl))
  | object => exact absurd hs (not_scalar_bracket (.inr rfl))
  | _ => rfl

theorem of_list (h : Written v ('[' :: t)) :
    ∃ vs u, v = .array vs ∧ t = u ++ [']'] ∧ Listed Written .true vs u := by
  generalize ht : '[' :: t = w at h
  cases h with
  | array hu => exact ⟨_, _, rfl, (List.cons.inj ht).2, hu⟩
  | number hn => exact absurd (.number _) (ht ▸ not_scalar_bracket (.inl rfl))
  | _ => cases ht

theorem of_object (h : Written v ('{' :: t)) :
    ∃ ms u, v = .object ms ∧ t = u ++ ['}'] ∧ Listed (Keyed Written) .true ms u := by
  generalize ht : '{' :: t = w at h
  cases h with
  | object hu => exact ⟨_, _, rfl, (List.cons.inj ht).2, hu⟩
  | number hn => exact absurd (.number _) (ht ▸ not_scalar_bracket (.inr rfl))
  | _ => cases ht

theorem exists_membersOf {ms : Members} (h : Written (.object ms) t) :
    ∃ ns, ns.map Prod.fst = ms.map Prod.fst ∧ (∀ n ∈ ns, ∃ v, Written v n.2) ∧ MembersOf ns t := by
  cases h with
  | object hu =>
    obtain ⟨ns, hR, hns⟩ := hu.reindex (R := fun m n => (∃ v, Written v n.2) ∧ n.1 = m.1)
      (Q := Labelled Spells (Piece IsValue)) fun m _ x hx => by
        cases hx with
        | mk hk hb hb' ht => exact ⟨(_, _), ⟨⟨_, ht⟩, rfl⟩, .mk hk hb hb' ⟨rfl, ht.isValue⟩⟩
    obtain ⟨hwritten, hkeys⟩ := (List.forall₂_and_left _ _).mp hR.flip
    refine ⟨ns, ?_, hwritten, _, rfl, hns⟩
    rwa [← List.forall₂_eq_eq_eq, List.forall₂_map_left_iff, List.forall₂_map_right_iff]

theorem unique_piece {x u w r r' : List Char} (h : Written v u)
    (hx : Piece IsValue x w) (hr : Delimited r) (hr' : Delimited r') (he : u ++ r = w ++ r') :
    Written v x ∧ r = r' := by
  obtain ⟨rfl, hx⟩ := hx
  obtain ⟨rfl, hrest⟩ := h.isValue.unique hx (fun _ => hr) (fun _ => hr') he
  exact ⟨h, hrest⟩

theorem height_le (h : Written v t) {depth : Nat} (hf : Formed depth t) : v.height ≤ depth := by
  induction depth generalizing v t with
  | zero => exact Nat.le_of_eq (h.height_eq_zero hf)
  | succ depth ih =>
    have hstep {a : Value} {x y r r' : List Char} (hx : Written a x) (hy : Formed depth y)
        (hr : Delimited r) (hr' : Delimited r') (he : x ++ r = y ++ r') :
        a.height ≤ depth ∧ r = r' := by
      obtain ⟨rfl, rfl⟩ := hx.isValue.unique ⟨_, hy⟩ (fun _ => hr) (fun _ => hr') he
      exact ⟨ih hx hy, rfl⟩
    have hmember {a : String × Value} {m : List Char × List Char} {x y r r' : List Char}
        (hx : Keyed Written a x) (hy : Labelled (Piece Loose) (Piece (Formed depth)) m y)
        (hr : Delimited r) (hr' : Delimited r') (he : x ++ r = y ++ r') :
        a.2.height ≤ depth ∧ r = r' := by
      obtain ⟨⟨-, hR⟩, hrest⟩ := (keyed_iff_labelled.mp hx).unique hy (A := fun _ _ => True)
        (R := fun v _ => v.height ≤ depth)
        (fun _ _ _ _ hk hk' he => ⟨trivial, loose_unique hk.loose hk'.2 he⟩)
        (fun _ h => h.starts) (fun _ h => h.2.starts)
        (fun _ _ hx hy he => hstep hx hy.2 hr hr' he) he
      exact ⟨hR, hrest⟩
    rcases hf with hs | ⟨xs, u, rfl, hu⟩ | ⟨ms, u, rfl, hu⟩
    · exact h.height_eq_zero hs ▸ Nat.zero_le _
    · obtain ⟨vs, u', rfl, he, hvs⟩ := h.of_list
      obtain ⟨hR, -⟩ := hvs.unique (R := fun v _ => v.height ≤ depth) (fun _ _ h => h.starts)
        (fun _ _ h => h.2.starts)
        (fun _ _ _ _ _ _ hx hy hr hr' he => hstep hx hy.2 hr hr' he) hu (.inl rfl) he.symm
      exact Nat.succ_le_succ (heightItems_le_iff.mpr (forall_mem_of_forall₂ hR))
    · obtain ⟨ns, u', rfl, he, hns⟩ := h.of_object
      obtain ⟨hR, -⟩ := hns.unique (R := fun m _ => m.2.height ≤ depth) (fun _ _ h => h.starts)
        (fun _ _ h => h.starts)
        (fun _ _ _ _ _ _ hx hy hr hr' he => hmember hx hy hr hr' he) hu (.inr rfl) he.symm
      exact Nat.succ_le_succ (heightMembers_le_iff.mpr (forall_mem_of_forall₂ hR))

end Written

end ModelBindings.Json
