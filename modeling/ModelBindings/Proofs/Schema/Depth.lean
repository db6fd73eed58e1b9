import ModelBindings.Proofs.Recs.Levels
import ModelBindings.Proofs.Schema.FirstFault

/-!
How deep a document can drive what is done with it. The limit on open brackets, which holds while
the text is read, also limits the nodes on any way down, and with them the lowering of the entries,
the translation of the node and the text of its type expression.
-/

namespace ModelBindings.Schema

open Json
open Recs (Mode TypeExpr)

namespace Node

variable {n m : Node}

theorem heightFields_le_iff {k : Nat} {fs : List (String × Node)} :
    heightFields fs ≤ k ↔ ∀ f ∈ fs, f.2.height ≤ k := by
  induction fs with
  | nil => simp [heightFields]
  | cons f fs ih => rw [heightFields, Nat.max_le, ih, List.forall_mem_cons]

theorem heightElements_le_iff {k : Nat} {ns : List Node} :
    heightElements ns ≤ k ↔ ∀ n ∈ ns, n.height ≤ k := by
  induction ns with
  | nil => simp [heightElements]
  | cons n ns ih => rw [heightElements, Nat.max_le, ih, List.forall_mem_cons]

theorem height_le_succ_iff {k : Nat} : n.height ≤ k + 1 ↔ ∀ m ∈ n.parts, m.height ≤ k := by
  cases n with
  | primitive s | enum s => simp [height, parts]
  | struct name fields =>
    rw [height, parts, List.forall_mem_map, Nat.add_le_add_iff_right, heightFields_le_iff]
  | tuple elements =>
    rw [height, parts, Nat.add_le_add_iff_right, heightElements_le_iff]

theorem height_pos (n : Node) : 0 < n.height := by
  cases n <;> exact Nat.succ_pos _

theorem nestsWithin_height (n : Node) : NestsWithin n.height n.at? := by
  intro p
  induction p generalizing n with
  | nil => exact fun _ _ => n.height_pos
  | cons i p ih =>
    intro m hm
    rw [at?] at hm
    obtain ⟨c, hc, hm⟩ := Option.bind_eq_some_iff.mp hm
    obtain ⟨k, hk⟩ := Nat.exists_eq_succ_of_ne_zero (Nat.ne_of_gt n.height_pos)
    have hle := height_le_succ_iff.mp (Nat.le_of_eq hk) c (List.mem_of_getElem? hc)
    rw [hk]
    exact Nat.succ_le_succ (Nat.le_trans (ih c m hm) hle)

theorem parts_induction {P : Node → Prop} (h : ∀ n, (∀ m ∈ n.parts, P m) → P n) (n : Node) :
    P n := by
  have hheight : ∀ k n, n.height ≤ k → P n := by
    intro k
    induction k with
    | zero => exact fun n hn => absurd n.height_pos (Nat.not_lt.mpr hn)
    | succ k ih => exact fun n hn => h n fun m hm => ih m (height_le_succ_iff.mp hn m hm)
  exact hheight n.height n (Nat.le_refl _)

end Node

section Encoded

variable {k : Kind} {v c : Value} {n : Node}

theorem Encodes.exists_content (h : Encodes v n) :
    ∃ k c, Content Encodes k c n ∧ c.height < v.height := by
  cases h with
  | mk hf hc => exact ⟨_, _, hc, hf.second_height_lt⟩

theorem Content.parts (h : Content Encodes k c n) :
    0 < c.height ∧ ∀ m ∈ n.parts, ∃ v, Encodes v m ∧ v.height < c.height := by
  cases h with
  | primitive hf | enum hf => exact ⟨hf.height_pos, nofun⟩
  | struct hf hall =>
    refine ⟨hf.height_pos, fun m hm => ?_⟩
    obtain ⟨f, hmem, rfl⟩ := List.mem_map.mp hm
    obtain ⟨v, hv, hmember⟩ := exists_of_mem_left hall.flip hmem
    cases hmember with
    | mk hw hn => exact ⟨_, hn, height_lt_of_children hf hv hw⟩
  | tuple hall =>
    refine ⟨Nat.succ_pos _, fun m hm => ?_⟩
    obtain ⟨v, hv, hn⟩ := exists_of_mem_left hall.flip hm
    exact ⟨v, hn, Nat.lt_succ_of_le (height_le_of_mem_items hv)⟩

/-- Every node takes two brackets, the record's and the one around its content. -/
theorem Content.two_mul_height_le (h : Content Encodes k c n) : 2 * n.height ≤ c.height + 1 := by
  induction n using Node.parts_induction generalizing k c with
  | h n ih =>
    obtain ⟨hpos, hparts⟩ := h.parts
    have hle : ∀ m ∈ n.parts, m.height ≤ (c.height - 1) / 2 := by
      intro m hm
      obtain ⟨v, hencodes, hv⟩ := hparts m hm
      obtain ⟨k', c', hcontent, hc'⟩ := hencodes.exists_content
      have hm := ih m hm hcontent
      omega
    have hn := Node.height_le_succ_iff.mpr hle
    omega

theorem Below.two_mul_length_le {e f : Entry} {p : List Step} (h : Below e p f)
    (hd : e.content.distinct = true) : 2 * p.length + f.content.height ≤ e.content.height := by
  induction h with
  | here => exact Nat.le_of_eq (Nat.zero_add _)
  | @step e c f k es i p hk hes hi h ih =>
    obtain ⟨v, hs, hlt, hv⟩ := hes.exists_stands hd (List.mem_of_getElem? hi)
    obtain ⟨hcontent, hc⟩ := hs.height_lt_and_distinct hv
    have hbelow := ih hc
    rw [List.length_cons]
    omega

end Encoded

section Documents

variable {text : String} {e : Entry} {n : Node}

theorem height_of_ofText (h : Entry.decoder.ofText text = .ok e) : e.content.height ≤ 126 := by
  refine content_of_ofText (P := fun c => c.height ≤ 126) h ?_ (Nat.zero_le _)
  rintro c u ⟨w, -, rfl, hw⟩
  exact Nat.le_trans (Value.height_settled_le w) hw

theorem nestsWithin_of_ofDocument (h : Node.ofDocument text = .ok n) : NestsWithin 63 n.at? := by
  obtain ⟨e, he, hlower⟩ := bind_eq_ok_iff.mp h
  have he : Entry.decoder.ofText text = .ok e := mapError_eq_ok_iff.mp he
  obtain ⟨k, -, hc⟩ :=
    (exact_lowerWithin _ e "$" n (Nat.lt_succ_self _) (distinct_of_ofText he)).mp hlower
  have hheight : n.height ≤ 63 := by
    have hn := hc.two_mul_height_le
    have hc := height_of_ofText he
    omega
  exact fun p m hm => Nat.le_trans (n.nestsWithin_height p m hm) hheight

/-- Whether the document is accepted or not, at most 64 entries are under way at once. If it is
accepted, a level less is enough for it and for the rest that is done with it. -/
theorem ofDocument_nests_within :
    (∀ text n, Node.ofDocument text = .ok n → NestsWithin 63 n.at?) ∧
    (∀ text name fields mode r, Node.ofDocument text = .ok (.struct name fields) →
      TypeExpr.ofBodyWithin mode 63 fields r = some (TypeExpr.ofBody mode fields r) ∧
      NestsWithin 63 (TypeExpr.ofBody mode fields r).1.at? ∧
      (TypeExpr.ofBody mode fields r).1.textWithin 63 =
        some (TypeExpr.ofBody mode fields r).1.text) ∧
    ∀ text e, Entry.decoder.ofText text = .ok e → ∀ p f, Below e p f → p.length + 1 ≤ 64 := by
  refine ⟨fun text n h => nestsWithin_of_ofDocument h, ?_, ?_⟩
  · intro text name fields mode r h
    have hnode := nestsWithin_of_ofDocument h
    have hbody : (TypeExpr.ofBody mode fields r).1 = (Node.struct name fields).shape mode := by
      rw [TypeExpr.ofBody_eq, Node.shape_struct]
    have hexpr := TypeExpr.nestsWithin_shape hnode mode
    rw [hbody]
    exact ⟨TypeExpr.ofBodyWithin_eq hnode r, hexpr, TypeExpr.textWithin_eq hexpr⟩
  · intro text e he p f hbelow
    have hlength := hbelow.two_mul_length_le (distinct_of_ofText he)
    have hheight := height_of_ofText he
    omega

end Documents

def mixedText : String :=
  "[\"struct\",\x7b\"name\":\"M\",\"children\":[[\"x\"," ++
    "\x7b\"type\":\"tuple\",\"content\":[[\"primitive\",[\"u256\"]]]\x7d]]\x7d]"

def mixedFields : List (String × Node) :=
  [("x", .tuple [.primitive "u256"])]

theorem ofDocument_nests_within_mixed :
    Node.ofDocument mixedText = .ok (.struct "M" mixedFields) ∧
      NestsWithin 63 (Node.struct "M" mixedFields).at? ∧
      (TypeExpr.ofBody .wide mixedFields .empty).1.textWithin 63 =
        some "\x7b x: [ RecsType.BigInt ] \x7d" ∧
      ∃ e, Entry.decoder.ofText mixedText = .ok e ∧ ∀ p f, Below e p f → p.length + 1 ≤ 64 := by
  have hdocument : Node.ofDocument mixedText = .ok (.struct "M" mixedFields) := by decide +kernel
  have htext : (TypeExpr.ofBody .wide mixedFields .empty).1.text =
      "\x7b x: [ RecsType.BigInt ] \x7d" := by decide +kernel
  obtain ⟨e, he, -⟩ := bind_eq_ok_iff.mp hdocument
  have he : Entry.decoder.ofText mixedText = .ok e := mapError_eq_ok_iff.mp he
  obtain ⟨hnode, hrest, hentry⟩ := ofDocument_nests_within
  refine ⟨hdocument, hnode _ _ hdocument, ?_, e, he, hentry _ e he⟩
  rw [← htext]
  exact (hrest _ _ _ .wide .empty hdocument).2.2

end ModelBindings.Schema
