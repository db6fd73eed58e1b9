import ModelBindings.Proofs.Json.Front
import ModelBindings.Proofs.Json.Settled
import ModelBindings.Proofs.Schema.Form

/-!
The fault that is reported of a document: that of the first entry that is of no known kind or fails
the form of its kind, where a parent comes before its children and the children come in order.
-/

namespace ModelBindings.Schema

open Json

inductive Faulty (e : Entry) : Prop where
  | unknown : (∀ k : Kind, e.tag ≠ k.tag) → Faulty e
  | misshapen {k : Kind} : e.tag = k.tag → (∀ es, ¬ Holds k e.content es) → Faulty e

inductive Step where
  | member (i : Nat)
  | element (i : Nat)
  deriving DecidableEq, Repr

namespace Step

def index : Step → Nat
  | .member i | .element i => i

def text : Step → String
  | .member i => ".content.children[" ++ toString i ++ "].member_type"
  | .element i => ".content[" ++ toString i ++ "]"

def texts (p : List Step) : String := String.join (p.map text)

@[simp] theorem texts_nil : texts [] = "" := rfl

@[simp] theorem texts_cons (s : Step) (p : List Step) : texts (s :: p) = s.text ++ texts p :=
  String.join_cons

/-- The order in which a parent is met before its children and the children in turn. -/
def Before (p q : List Step) : Prop := p.map index < q.map index

end Step

def Kind.step : Kind → Nat → Step
  | .struct, i => .member i
  | _, i => .element i

@[simp] theorem Kind.index_step (k : Kind) (i : Nat) : (k.step i).index = i := by
  cases k <;> rfl

/-- The steps lead down from the first entry to the second one. They do not lead below a faulty
entry, which comes before all that could stand there. -/
inductive Below : Entry → List Step → Entry → Prop where
  | here {e : Entry} : Below e [] e
  | step {e c f : Entry} {k : Kind} {es : List Entry} {i : Nat} {p : List Step} : e.tag = k.tag →
      Holds k e.content es → es[i]? = some c → Below c p f → Below e (k.step i :: p) f

structure FirstFault (e : Entry) (p : List Step) (f : Entry) : Prop where
  below : Below e p f
  faulty : Faulty f
  first : ∀ q g, Below e q g → Faulty g → q = p ∨ Step.Before p q

inductive Complaint (e : Entry) (path : String) : Error → Prop where
  | unknown : (∀ k : Kind, e.tag ≠ k.tag) → Complaint e path (.unknownTag e.tag path)
  | misshapen {k : Kind} {q : Path} {message : String} : e.tag = k.tag → k.Place q →
      Complaint e path
        (.malformed ⟨path ++ ".content" ++ String.join (q.map Segment.joined), message⟩)

section Lowering

variable {α β γ ε : Type}

theorem ok_of_numbered {f : Nat → β → Except ε γ} {i : Nat} {bs : List β} {cs : List γ}
    (h : numbered f i bs = .ok cs) {j : Nat} {b : β} (hb : bs[j]? = some b) :
    ∃ c, f (i + j) b = .ok c := by
  induction bs generalizing i j cs with
  | nil => cases hb
  | cons b' bs ih =>
    obtain ⟨c, hc, hbs⟩ := bind_eq_ok_iff.mp h
    obtain ⟨cs, hcs, -⟩ := bind_eq_ok_iff.mp hbs
    cases j with
    | zero =>
      cases hb
      exact ⟨c, hc⟩
    | succ j =>
      obtain ⟨c, hc⟩ := ih hcs hb
      exact ⟨c, by rwa [Nat.add_right_comm] at hc⟩

theorem first_of_numbered {f : Nat → β → Except ε γ} {i : Nat} {bs : List β} {e : ε}
    (h : numbered f i bs = .error e) :
    ∃ j b, bs[j]? = some b ∧ f (i + j) b = .error e ∧
      ∀ l < j, ∀ b, bs[l]? = some b → ∃ c, f (i + l) b = .ok c := by
  induction bs generalizing i with
  | nil => cases h
  | cons b bs ih =>
    rcases bind_eq_error_iff.mp h with h | ⟨c, hc, h⟩
    · exact ⟨0, b, rfl, h, nofun⟩
    · obtain ⟨j, b', hb', he, hfirst⟩ := ih (error_of_bind_pure h)
      refine ⟨j + 1, b', hb', by rwa [Nat.add_right_comm] at he, fun l hl b hb => ?_⟩
      cases l with
      | zero =>
        cases hb
        exact ⟨c, hc⟩
      | succ l =>
        obtain ⟨c, hc⟩ := hfirst l (Nat.lt_of_succ_lt_succ hl) b hb
        exact ⟨c, by rwa [Nat.add_right_comm] at hc⟩

inductive Lowers (lower : Entry → String → Except Error Node) (k : Kind) (c : Value)
    (path : String) : Except Error Node → Prop where
  | misshapen {e : Located Cause} : k.entries c = .error e →
      Lowers lower k c path
        (.error (.malformed (Report.anchorAt ⟨e.path.text, e.what.message⟩ (path ++ ".content"))))
  | child {es : List Entry} {i : Nat} {f : Entry} {e : Error} : k.entries c = .ok es →
      es[i]? = some f → lower f (path ++ (k.step i).text) = .error e →
      (∀ j < i, ∀ g, es[j]? = some g → ∃ n, lower g (path ++ (k.step j).text) = .ok n) →
      Lowers lower k c path (.error e)
  | through {es : List Entry} {n : Node} : k.entries c = .ok es →
      (∀ i f, es[i]? = some f → ∃ n, lower f (path ++ (k.step i).text) = .ok n) →
      Lowers lower k c path (.ok n)

section Levels

variable {lower : Entry → String → Except Error Node} {c : Value} {path : String}

theorem contentAs_error {d : Decoder α} {e : Located Cause} (h : d.convert c = .error e) :
    Entry.contentAs d c path =
      .error (.malformed (Report.anchorAt ⟨e.path.text, e.what.message⟩ (path ++ ".content"))) := by
  rw [Entry.contentAs, Decoder.ofValue, h]
  rfl

theorem lowers_scalar {k : Kind} {d : Decoder α} {node : α → Node}
    (hk : k.entries c = do let _ ← d.convert c; return []) :
    Lowers lower k c path (do return node (← Entry.contentAs d c path)) := by
  cases hd : d.convert c with
  | error e =>
    rw [contentAs_error hd]
    exact .misshapen (by rw [hk, hd]; rfl)
  | ok a =>
    rw [contentAs_eq_ok_iff.mpr hd]
    exact .through (by rw [hk, hd]; rfl) (by simp)

theorem memberPath_eq (path : String) (i : Nat) :
    Entry.memberPath path i = path ++ (Kind.step .struct i).text := by
  rw [Entry.memberPath, String.append_assoc, String.append_assoc]
  exact congrArg (path ++ ·) (String.append_assoc ..).symm

theorem elementPath_eq (path : String) (i : Nat) :
    Entry.elementPath path i = path ++ (Kind.step .tuple i).text := by
  rw [Entry.elementPath, String.append_assoc, String.append_assoc]
  exact congrArg (path ++ ·) (String.append_assoc ..).symm

theorem lowers_struct : Lowers lower .struct c path (do
    let (name, children) ← Entry.contentAs Entry.structContent c path
    return .struct name (← Entry.lowerMembers lower path 0 children)) := by
  cases hd : Entry.structContent.convert c with
  | error e =>
    rw [contentAs_error hd]
    exact .misshapen (by rw [Kind.entries, hd]; rfl)
  | ok x =>
    obtain ⟨name, ms⟩ := x
    have hes : Kind.entries c .struct = .ok (ms.map Prod.snd) := by rw [Kind.entries, hd]; rfl
    have hstep {i : Nat} {m : String × Entry} {f : String × Node}
        (h : (do return (m.1, ← lower m.2 (Entry.memberPath path (0 + i))) :
          Except Error (String × Node)) = .ok f) :
        ∃ n, lower m.2 (path ++ (Kind.step .struct i).text) = .ok n := by
      obtain ⟨n, hn, -⟩ := bind_eq_ok_iff.mp h
      exact ⟨n, by rwa [memberPath_eq, Nat.zero_add] at hn⟩
    simp only [contentAs_eq_ok_iff.mpr hd, ok_bind, lowerMembers_eq_numbered]
    cases hl : numbered _ 0 ms with
    | error e =>
      obtain ⟨i, m, hm, he, hfirst⟩ := first_of_numbered hl
      refine .child hes (f := m.2) (by rw [List.getElem?_map, hm]; rfl) ?_ fun j hj g hg => ?_
      · rw [← memberPath_eq, ← Nat.zero_add i]
        exact error_of_bind_pure he
      · rw [List.getElem?_map] at hg
        obtain ⟨m', hm', rfl⟩ := Option.map_eq_some_iff.mp hg
        obtain ⟨f, hf⟩ := hfirst j hj m' hm'
        exact hstep hf
    | ok fields =>
      refine .through hes fun i f hf => ?_
      rw [List.getElem?_map] at hf
      obtain ⟨m, hm, rfl⟩ := Option.map_eq_some_iff.mp hf
      obtain ⟨f, hf⟩ := ok_of_numbered hl hm
      exact hstep hf

theorem lowers_tuple : Lowers lower .tuple c path (do
    let elements ← Entry.contentAs Entry.tupleContent c path
    return .tuple (← Entry.lowerElements lower path 0 elements)) := by
  cases hd : Entry.tupleContent.convert c with
  | error e =>
    rw [contentAs_error hd]
    exact .misshapen hd
  | ok es =>
    simp only [contentAs_eq_ok_iff.mpr hd, ok_bind, lowerElements_eq_numbered, elementPath_eq]
    cases hl : numbered _ 0 es with
    | error e =>
      obtain ⟨i, f, hf, he, hfirst⟩ := first_of_numbered hl
      refine .child hd hf (by rwa [Nat.zero_add] at he) fun j hj g hg => ?_
      obtain ⟨n, hn⟩ := hfirst j hj g hg
      exact ⟨n, by rwa [Nat.zero_add] at hn⟩
    | ok elements =>
      refine .through hd fun i f hf => ?_
      obtain ⟨n, hn⟩ := ok_of_numbered hl hf
      exact ⟨n, by rwa [Nat.zero_add] at hn⟩

end Levels

theorem lowers_lowerWithin (levels : Nat) {e : Entry} {k : Kind} (hk : Kind.ofTag? e.tag = some k)
    (path : String) : Lowers (Entry.lowerWithin levels) k e.content path
      (Entry.lowerWithin (levels + 1) e path) := by
  rw [Entry.lowerWithin, hk]
  cases k with
  | primitive => exact lowers_scalar rfl
  | struct => exact lowers_struct
  | enum => exact lowers_scalar rfl
  | tuple => exact lowers_tuple

end Lowering

theorem Kind.tag_injective {k k' : Kind} (h : k.tag = k'.tag) : k = k' :=
  Option.some.inj ((Kind.ofTag?_tag k).symm.trans (h ▸ Kind.ofTag?_tag k'))

section Order

variable {e c f g : Entry} {k : Kind} {es : List Entry} {i : Nat} {p q : List Step}

theorem not_faulty (hd : e.content.distinct = true) (hk : e.tag = k.tag)
    (hes : k.entries e.content = .ok es) : ¬ Faulty e := by
  intro h
  cases h with
  | unknown h => exact h k hk
  | misshapen hk' h =>
    cases Kind.tag_injective (hk.symm.trans hk')
    exact h es ((holds_iff_entries hd).mpr hes)

theorem below_iff (hd : e.content.distinct = true) (hk : e.tag = k.tag)
    (hes : k.entries e.content = .ok es) : Below e q g ↔
      q = [] ∧ g = e ∨ ∃ i c p, q = k.step i :: p ∧ es[i]? = some c ∧ Below c p g := by
  constructor
  · intro h
    cases h with
    | here => exact .inl ⟨rfl, rfl⟩
    | step hk' hes' hi h =>
      cases Kind.tag_injective (hk.symm.trans hk')
      cases hes.symm.trans ((holds_iff_entries hd).mp hes')
      exact .inr ⟨_, _, _, rfl, hi, h⟩
  · rintro (⟨rfl, rfl⟩ | ⟨i, c, p, rfl, hi, h⟩)
    · exact .here
    · exact .step hk ((holds_iff_entries hd).mpr hes) hi h

theorem Below.functional (h : Below e p f) (hd : e.content.distinct = true) (h' : Below e p g) :
    f = g := by
  induction h with
  | here =>
    cases h'
    rfl
  | @step e c f k es i p hk hes hi h ih =>
    have hc := (hes.height_lt_and_distinct hd (List.mem_of_getElem? hi)).2
    rcases (below_iff hd hk ((holds_iff_entries hd).mp hes)).mp h' with
      ⟨hnil, -⟩ | ⟨j, c', p', hstep, hj, h'⟩
    · cases hnil
    · obtain ⟨hij, rfl⟩ := List.cons.inj hstep
      have hij : i = j := by simpa using congrArg Step.index hij
      subst hij
      cases hi.symm.trans hj
      exact ih hc h'

namespace FirstFault

theorem root (h : Faulty e) : FirstFault e [] e := by
  refine ⟨.here, h, fun q g _ _ => ?_⟩
  cases q with
  | nil => exact .inl rfl
  | cons s q => exact .inr (List.nil_lt_cons _ _)

theorem child (hd : e.content.distinct = true) (hk : e.tag = k.tag)
    (hes : k.entries e.content = .ok es) (hi : es[i]? = some c) (h : FirstFault c p f)
    (hbefore : ∀ j < i, ∀ b, es[j]? = some b → ∀ q g, Below b q g → ¬ Faulty g) :
    FirstFault e (k.step i :: p) f := by
  refine ⟨.step hk ((holds_iff_entries hd).mpr hes) hi h.below, h.faulty, fun q g hq hg => ?_⟩
  -- another fault is at no earlier child, and at a later one it comes after this
  rcases (below_iff hd hk hes).mp hq with ⟨rfl, rfl⟩ | ⟨j, b, q, rfl, hj, hb⟩
  · exact absurd hg (not_faulty hd hk hes)
  · simp only [Step.Before, List.map_cons, Kind.index_step, List.cons_lt_cons_iff]
    rcases Nat.lt_trichotomy j i with hlt | rfl | hgt
    · exact absurd hg (hbefore j hlt b hj q g hb)
    · cases hi.symm.trans hj
      exact (h.first q g hb hg).imp (congrArg _) fun hpq => .inr ⟨rfl, hpq⟩
    · exact .inr (.inl hgt)

theorem unique (h : FirstFault e p f) (h' : FirstFault e q g) (hd : e.content.distinct = true) :
    p = q ∧ f = g := by
  have hpq : p = q := by
    rcases h.first q g h'.below h'.faulty with rfl | hlt
    · rfl
    · rcases h'.first p f h.below h.faulty with rfl | hgt
      · rfl
      · exact absurd hgt (List.lt_asymm hlt)
  subst hpq
  exact ⟨rfl, h.below.functional hd h'.below⟩

end FirstFault

end Order

inductive Judges (e : Entry) (path : String) : Except Error Node → Prop where
  | sound {n : Node} : (∀ p f, Below e p f → ¬ Faulty f) → Judges e path (.ok n)
  | fault {p : List Step} {f : Entry} {error : Error} : FirstFault e p f →
      Complaint f (path ++ Step.texts p) error → Judges e path (.error error)

section Judging

variable {e : Entry} {k : Kind} {path : String} {lower : Entry → String → Except Error Node}
  {result : Except Error Node}

theorem Judges.not_faulty {n : Node} (h : Judges e path (.ok n)) :
    ∀ p f, Below e p f → ¬ Faulty f := by
  cases h with
  | sound h => exact h

theorem judges_root {error : Error} (hfaulty : Faulty e) (h : Complaint e path error) :
    Judges e path (.error error) := by
  refine .fault (.root hfaulty) ?_
  rwa [Step.texts_nil, String.append_empty]

theorem judges_of_lowers (hk : e.tag = k.tag) (hd : e.content.distinct = true)
    (hchild : ∀ es, k.entries e.content = .ok es → ∀ i f, es[i]? = some f →
      Judges f (path ++ (k.step i).text) (lower f (path ++ (k.step i).text)))
    (h : Lowers lower k e.content path result) : Judges e path result := by
  have hsound {es : List Entry} (hes : k.entries e.content = .ok es) {i : Nat} {f : Entry}
      (hi : es[i]? = some f) (hn : ∃ n, lower f (path ++ (k.step i).text) = .ok n) :
      ∀ q g, Below f q g → ¬ Faulty g := by
    obtain ⟨n, hn⟩ := hn
    exact (hn ▸ hchild es hes i f hi).not_faulty
  cases h with
  | @misshapen fault hfault =>
    have hshape : ∀ es, ¬ Holds k e.content es := fun es hes => by
      rw [(holds_iff_entries hd).mp hes] at hfault
      cases hfault
    have hplace := place_of_entries hfault
    rw [Report.anchorAt_text hplace.anchored]
    exact judges_root (.misshapen hk hshape) (.misshapen hk hplace)
  | child hes hi herror hbefore =>
    have hjudged := hchild _ hes _ _ hi
    rw [herror] at hjudged
    cases hjudged with
    | fault hfirst hcomplaint =>
      refine .fault (hfirst.child hd hk hes hi fun j hj b hb => ?_) ?_
      · exact hsound hes hb (hbefore j hj b hb)
      · rwa [Step.texts_cons, ← String.append_assoc]
  | through hes hall =>
    refine .sound fun p f hp => ?_
    rcases (below_iff hd hk hes).mp hp with ⟨rfl, rfl⟩ | ⟨i, c, p, rfl, hi, hp⟩
    · exact Schema.not_faulty hd hk hes
    · exact hsound hes hi (hall i c hi) p f hp

theorem judges_lowerWithin (levels : Nat) (e : Entry) (path : String)
    (hh : e.content.height < levels) (hd : e.content.distinct = true) :
    Judges e path (Entry.lowerWithin levels e path) := by
  -- each child's content is lower than the entry's, so a level less is enough for it
  induction levels generalizing e path with
  | zero => exact absurd hh (Nat.not_lt_zero _)
  | succ levels ih =>
    cases hk : Kind.ofTag? e.tag with
    | none =>
      have hunknown : ∀ k : Kind, e.tag ≠ k.tag := by
        intro k h
        rw [h, Kind.ofTag?_tag] at hk
        cases hk
      rw [Entry.lowerWithin, hk]
      exact judges_root (.unknown hunknown) (.unknown hunknown)
    | some k =>
      refine judges_of_lowers (Kind.tag_of_ofTag? hk) hd (fun es hes i f hi => ?_)
        (lowers_lowerWithin levels hk path)
      have hholds := (holds_iff_entries hd).mpr hes
      obtain ⟨hlt, hf⟩ := hholds.height_lt_and_distinct hd (List.mem_of_getElem? hi)
      exact ih f _ (Nat.lt_of_lt_of_le hlt (Nat.le_of_lt_succ hh)) hf

end Judging

section Root

variable {P : Value → Prop}

def FillsContent (P : Value → Prop) (_ : Json.Field (Option String × Option Value))
    (fill : Option String × Option Value → Option String × Option Value) (u : List Char) : Prop :=
  IsValue u ∧ ∀ s, (∀ c ∈ s.2, P c) → ∀ c ∈ (fill s).2, P c

theorem takes_fillsContent (steps : Nat) {depth : Nat} (hP : ∀ c u, Settles depth c u → P c) :
    ∀ f ∈ Entry.record.fields, Takes (FillsContent P f) (f.decoder.read steps depth) := by
  intro f hf
  simp only [Entry.record, Record.two, List.mem_cons, List.not_mem_nil, or_false] at hf
  rcases hf with rfl | rfl
  · refine Decoder.takes_map_imp (Decoder.takes_text steps depth)
      (fun b (s : Option String × Option Value) => (some b, s.2)) fun tag u hw => ?_
    exact ⟨hw.isValue, fun _ hs => hs⟩
  · have h : Takes (Settles depth) (Decoder.any.read steps depth) := Value.takes_read steps depth
    refine Decoder.takes_map_imp h
      (fun c (s : Option String × Option Value) => (s.1, some c)) fun v u hv => ?_
    refine ⟨?_, fun s _ c hc => ?_⟩
    · obtain ⟨w, hw, -⟩ := hv
      exact hw.isValue
    · cases hc
      exact hP v u hv

theorem content_of_ofText {text : String} {e : Entry} (h : Entry.decoder.ofText text = .ok e)
    (hP : ∀ c u, Settles 126 c u → P c) (hnull : P .null) : P e.content := by
  rw [← toOption_eq_some_iff, Decoder.toOption_ofText_eq] at h
  obtain ⟨⟨e, rest⟩, hread, rfl⟩ := Option.map_eq_some_iff.mp h
  obtain ⟨⟨⟨tag, c⟩, rest⟩, hx, he⟩ := bind_eq_ok_iff.mp (toOption_eq_some_iff.mp hread)
  cases he
  obtain ⟨b, u, ⟨o, o'⟩, -, -, hu, hfinish⟩ :=
    Record.laid_of_read (takes_fillsContent _ hP) (fun _ _ _ hx => hx.1) hx
  -- the fields are filled in one by one, from a record that has no content yet
  have hc := hu.invariant (I := fun s => ∀ c ∈ s.2, P c) (fun _ _ _ hx => hx.2) nofun
  rcases (Record.two_finish_eq_ok hfinish).2 with rfl | hdefault
  · exact hc c rfl
  · cases hdefault
    exact hnull

theorem distinct_of_ofText {text : String} {e : Entry} (h : Entry.decoder.ofText text = .ok e) :
    e.content.distinct = true := by
  refine content_of_ofText (P := fun c => c.distinct = true) h ?_ rfl
  rintro c u ⟨w, -, rfl, -⟩
  exact Value.distinct_settled w

end Root

theorem ofDocument_first_fault {text : String} {e : Entry}
    (he : Entry.decoder.ofText text = .ok e) :
    ((∃ n, Node.ofDocument text = .ok n) ↔ ∀ p f, Below e p f → ¬ Faulty f) ∧
    ((∃ p f, Below e p f ∧ Faulty f) → ∃ p f, FirstFault e p f) ∧
    ∀ p f, FirstFault e p f → ∃ error, Node.ofDocument text = .error error ∧
      Complaint f ("$" ++ Step.texts p) error := by
  have hd := distinct_of_ofText he
  have hdocument : Node.ofDocument text = e.lower "$" := by
    rw [Node.ofDocument, he]
    rfl
  have hjudged : Judges e "$" (Node.ofDocument text) := by
    rw [hdocument]
    exact judges_lowerWithin _ e "$" (Nat.lt_succ_self _) hd
  generalize Node.ofDocument text = result at hjudged
  cases hjudged with
  | @sound n hsound =>
    refine ⟨⟨fun _ => hsound, fun _ => ⟨n, rfl⟩⟩, ?_, fun p f h => ?_⟩
    · rintro ⟨p, f, hp, hf⟩
      exact absurd hf (hsound p f hp)
    · exact absurd h.faulty (hsound p f h.below)
  | @fault p f error hfirst hcomplaint =>
    refine ⟨⟨?_, fun h => absurd hfirst.faulty (h p f hfirst.below)⟩, fun _ => ⟨p, f, hfirst⟩,
      fun q g h => ?_⟩
    · rintro ⟨n, hn⟩
      cases hn
    · obtain ⟨rfl, rfl⟩ := h.unique hfirst hd
      exact ⟨error, rfl, hcomplaint⟩

def twoFaultsText : String :=
  "\x7b\"type\":\"tuple\",\"content\":[\x7b\"type\":\"enum\",\"content\":" ++
    "\x7b\"name\":\"E\",\"children\":7\x7d\x7d,\x7b\"type\":\"struct\",\"content\":" ++
    "\x7b\"name\":1\x7d\x7d,\x7b\"type\":\"odd\"\x7d]\x7d"

def twoFaults : Entry where
  tag := "tuple"
  content := .array
    [.object [("type", .string "enum"),
      ("content", .object [("name", .string "E"), ("children", .number (.integer 7))])],
     .object [("type", .string "struct"),
      ("content", .object [("name", .number (.integer 1))])],
     .object [("type", .string "odd")]]

theorem ofDocument_first_fault_twoFaults :
    Entry.decoder.ofText twoFaultsText = .ok twoFaults ∧
      ∃ p f error, FirstFault twoFaults p f ∧ Complaint f ("$" ++ Step.texts p) error ∧
        error = .malformed
          ⟨"$.content[1].content.name", "invalid type: integer `1`, expected a string"⟩ ∧
        Node.ofDocument twoFaultsText = .error error := by
  have he : Entry.decoder.ofText twoFaultsText = .ok twoFaults := by decide +kernel
  have herror : Node.ofDocument twoFaultsText = .error (.malformed
      ⟨"$.content[1].content.name", "invalid type: integer `1`, expected a string"⟩) := by
    decide +kernel
  obtain ⟨hiff, hexists, hall⟩ := ofDocument_first_fault he
  have hfaulty : ∃ p f, Below twoFaults p f ∧ Faulty f := by
    by_contra hnone
    push Not at hnone
    obtain ⟨n, hn⟩ := hiff.mpr hnone
    rw [herror] at hn
    cases hn
  obtain ⟨p, f, hfirst⟩ := hexists hfaulty
  obtain ⟨error, he', hcomplaint⟩ := hall p f hfirst
  exact ⟨he, p, f, error, hfirst, hcomplaint, Except.error.inj (he'.symm.trans herror), he'⟩

end ModelBindings.Schema
