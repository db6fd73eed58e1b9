import Mathlib.Data.List.Induction
import ModelBindings.Proofs.Compile.Sources

/-!
A store over time. Documents are added to it and models are fetched, compiled and generated from it
in any order; every answer comes from the document that was added last under the model's name.
-/

namespace ModelBindings

open Recs (Mode)
open Schema (FetchError Node Source Store)

inductive Request where
  | add (model document : String)
  | fetch (model : String)
  | compile (mode : Mode) (models : List String)
  | compilePooled (mode : Mode) (models : List String)
  | generate (mode : Mode) (jobs : Nat) (models : List String)

inductive Answer where
  | added
  | node (r : Except FetchError Node)
  | components (r : Except CompileError (List Component))
  | file (r : Except CompileError String)

namespace Request

def models : Request → List String
  | .add _ _ => []
  | .fetch model => [model]
  | .compile _ models => models
  | .compilePooled _ models => models
  | .generate _ _ models => models

def isAddition : Request → Bool
  | .add _ _ => true
  | _ => false

end Request

inductive Gives (source : Source) : Request → Answer → Prop where
  | add {model document : String} : Gives source (.add model document) .added
  | fetch {model : String} : Gives source (.fetch model) (.node (source model))
  | compile {mode : Mode} {models : List String} :
      Gives source (.compile mode models) (.components (Walk.inOrder mode source models).outcome)
  | compilePooled {mode : Mode} {models : List String} {es : List Event} {p : Pool}
      {r : Except CompileError (List Component)} :
      (Pool.ofModels models).run (Component.ofSource mode source) es = some p →
      p.isSettled = true → p.Returns r →
      Gives source (.compilePooled mode models) (.components r)
  | compileAlone {mode : Mode} {models : List String} :
      Gives source (.compilePooled mode models)
        (.components (Walk.inOrder mode source models).outcome)
  | generate {mode : Mode} {jobs : Nat} {models : List String} {w : Walk} :
      Walk.Possible mode source jobs models w →
      Gives source (.generate mode jobs models) (.file (w.outcome.map componentsFile))

theorem Gives.congr {source source' : Source} {q : Request} {a : Answer}
    (h : ∀ m ∈ q.models, source m = source' m) (hg : Gives source q a) : Gives source' q a := by
  cases hg with
  | add => exact .add
  | fetch =>
    rw [h _ List.mem_cons_self]
    exact .fetch
  | @compile mode models =>
    have hmodels : ∀ m ∈ models, source m = source' m := h
    rw [Walk.inOrder_congr hmodels]
    exact .compile
  | @compilePooled mode models es p r hrun hs hr =>
    have hmodels : ∀ m ∈ models, source m = source' m := h
    rw [Walk.run_ofModels_congr hmodels] at hrun
    exact .compilePooled hrun hs hr
  | @compileAlone mode models =>
    have hmodels : ∀ m ∈ models, source m = source' m := h
    rw [Walk.inOrder_congr hmodels]
    exact .compileAlone
  | generate hw => exact .generate (hw.congr h)

theorem exists_gives (source : Source) (q : Request) : ∃ a, Gives source q a := by
  cases q with
  | add model document => exact ⟨_, .add⟩
  | fetch model => exact ⟨_, .fetch⟩
  | compile mode models => exact ⟨_, .compile⟩
  | compilePooled mode models =>
    obtain ⟨es, p, hrun, hs, hr⟩ := Walk.exists_run_pooled mode source 1 models
    exact ⟨_, .compilePooled hrun hs hr⟩
  | generate mode jobs models =>
    exact ⟨_, .generate (Walk.possible_withJobs mode source jobs models)⟩

namespace Schema.Store

def take (s : Store) : Request → Store
  | .add model document => s.add model document
  | _ => s

def after (s : Store) (qs : List Request) : Store :=
  qs.foldl take s

inductive Run : Store → List Request → List Answer → Prop where
  | nil {s : Store} : Run s [] []
  | cons {s : Store} {q : Request} {a : Answer} {qs : List Request} {as : List Answer} :
      Gives s.source q a → Run (s.take q) qs as → Run s (q :: qs) (a :: as)

variable {s : Store} {q : Request} {qs before before' later : List Request} {a : Answer}
  {as as' : List Answer} {model d : String}

theorem after_concat (s : Store) (qs : List Request) (q : Request) :
    s.after (qs ++ [q]) = (s.after qs).take q := by
  simp [after]

theorem take_of_reading (h : q.isAddition = false) : s.take q = s := by
  cases q with
  | add model document => cases h
  | fetch model => rfl
  | compile mode models => rfl
  | compilePooled mode models => rfl
  | generate mode jobs models => rfl

theorem exists_run (s : Store) (qs : List Request) : ∃ as, Run s qs as := by
  induction qs generalizing s with
  | nil => exact ⟨[], .nil⟩
  | cons q qs ih =>
    obtain ⟨a, ha⟩ := exists_gives s.source q
    obtain ⟨as, has⟩ := ih (s.take q)
    exact ⟨a :: as, .cons ha has⟩

theorem Run.gives (h : Run s (before ++ q :: later) as) :
    ∃ a, as[before.length]? = some a ∧ Gives (s.after before).source q a := by
  induction before generalizing s as with
  | nil =>
    cases h with
    | cons ha _ => exact ⟨_, rfl, ha⟩
  | cons q' before ih =>
    cases h with
    | cons _ h =>
      obtain ⟨a, ha, hg⟩ := ih h
      exact ⟨a, by rw [List.length_cons, List.getElem?_cons_succ, ha], hg⟩

theorem Run.without (h : Run s (before ++ q :: later) as) (hq : q.isAddition = false) :
    Run s (before ++ later) (as.eraseIdx before.length) := by
  induction before generalizing s as with
  | nil =>
    cases h with
    | cons _ h =>
      rw [take_of_reading hq] at h
      exact h
  | cons q' before ih =>
    cases h with
    | cons ha h => exact .cons ha (ih h)

theorem Run.length_eq (h : Run s qs as) : as.length = qs.length := by
  induction h with
  | nil => rfl
  | cons _ _ ih => rw [List.length_cons, List.length_cons, ih]

theorem Run.last_gives (h : Run s (qs ++ [q]) (as ++ [a])) : Gives (s.after qs).source q a := by
  have hlength : as.length = qs.length := by simpa using h.length_eq
  obtain ⟨a', ha', hg⟩ := h.gives
  rw [← hlength, List.getElem?_concat_length] at ha'
  exact Option.some.inj ha' ▸ hg

theorem Run.concat (h : Run s qs as) (hg : Gives (s.after qs).source q a) :
    Run s (qs ++ [q]) (as ++ [a]) := by
  induction h with
  | nil => exact .cons hg .nil
  | cons ha _ ih => exact .cons ha (ih hg)

def Latest (qs : List Request) (model document : String) : Prop :=
  ∃ before after, qs = before ++ .add model document :: after ∧ ∀ d, .add model d ∉ after

theorem latest_concat_iff : Latest (qs ++ [q]) model d ↔
    q = .add model d ∨ (∀ d', q ≠ .add model d') ∧ Latest qs model d := by
  constructor
  · rintro ⟨before, later, hqs, hlater⟩
    rcases List.eq_nil_or_concat' later with rfl | ⟨later, q', rfl⟩
    · obtain ⟨-, hq⟩ := List.append_inj' hqs rfl
      exact .inl (List.cons.inj hq).1
    · rw [← List.cons_append, ← List.append_assoc] at hqs
      obtain ⟨hinit, hq⟩ := List.append_inj' hqs rfl
      cases hq
      refine .inr ⟨?_, before, later, hinit, ?_⟩
      · rintro d' rfl
        exact hlater d' (by simp)
      · intro d' hd'
        exact hlater d' (List.mem_append_left _ hd')
  · rintro (rfl | ⟨hq, before, later, rfl, hlater⟩)
    · exact ⟨qs, [], rfl, nofun⟩
    · refine ⟨before, later ++ [q], by simp, ?_⟩
      intro d' hd'
      rcases List.mem_append.mp hd' with hd' | hd'
      · exact hlater d' hd'
      · exact hq d' (List.mem_singleton.mp hd').symm

theorem document?_take_iff : (s.take q).document? model = some d ↔
    q = .add model d ∨ (∀ d', q ≠ .add model d') ∧ s.document? model = some d := by
  cases q with
  | add model' document =>
    by_cases hm : model = model'
    · subst hm
      simp [take, document?_add_self]
    · simp [take, document?_add_of_ne s hm, Ne.symm hm]
  | fetch model' => simp [take]
  | compile mode models => simp [take]
  | compilePooled mode models => simp [take]
  | generate mode jobs models => simp [take]

theorem document?_after_iff : (empty.after qs).document? model = some d ↔ Latest qs model d := by
  induction qs using List.reverseRecOn with
  | nil => simp [after, empty, document?, Latest]
  | append_singleton qs q ih => rw [after_concat, document?_take_iff, latest_concat_iff, ih]

theorem exists_latest (h : .add model d ∈ qs) : ∃ d', Latest qs model d' := by
  induction qs using List.reverseRecOn with
  | nil => cases h
  | append_singleton qs q ih =>
    by_cases hq : ∃ d', q = .add model d'
    · obtain ⟨d', hq⟩ := hq
      exact ⟨d', latest_concat_iff.mpr (.inl hq)⟩
    · push Not at hq
      rcases List.mem_append.mp h with h | h
      · obtain ⟨d', hd'⟩ := ih h
        exact ⟨d', latest_concat_iff.mpr (.inr ⟨hq, hd'⟩)⟩
      · exact absurd (List.mem_singleton.mp h).symm (hq d)

inductive Answered (qs : List Request) (model : String) : Except FetchError Node → Prop where
  | latest {d : String} : Latest qs model d →
      Answered qs model ((Node.ofDocument d).mapError .document)
  | missing : (∀ d, .add model d ∉ qs) → Answered qs model (.error .unknownModel)

theorem answered_source (qs : List Request) (model : String) :
    Answered qs model ((empty.after qs).source model) := by
  rw [source]
  cases hd : (empty.after qs).document? model with
  | some d => exact .latest (document?_after_iff.mp hd)
  | none =>
    refine .missing fun d hmem => ?_
    obtain ⟨d', hd'⟩ := exists_latest hmem
    rw [document?_after_iff.mpr hd'] at hd
    cases hd

theorem source_after_congr (h : ∀ d, Latest before model d ↔ Latest before' model d) :
    (empty.after before).source model = (empty.after before').source model := by
  have hd : (empty.after before).document? model = (empty.after before').document? model := by
    apply Option.ext
    intro d
    exact document?_after_iff.trans ((h d).trans document?_after_iff.symm)
  rw [source, source, hd]

theorem run_answers_from_latest :
    (∀ qs, ∃ as, Run empty qs as) ∧
    (∀ before q later as, Run empty (before ++ q :: later) as →
      ∃ a source, as[before.length]? = some a ∧ (∀ model, Answered before model (source model)) ∧
        Gives source q a) ∧
    (∀ before q later as, Run empty (before ++ q :: later) as → q.isAddition = false →
      Run empty (before ++ later) (as.eraseIdx before.length)) ∧
    ∀ before before' as as' q a,
      (∀ model ∈ q.models, ∀ d, Latest before model d ↔ Latest before' model d) →
      Run empty (before ++ [q]) (as ++ [a]) → Run empty before' as' →
      Run empty (before' ++ [q]) (as' ++ [a]) := by
  refine ⟨exists_run empty, ?_, fun _ _ _ _ h hq => h.without hq, ?_⟩
  · intro before q later as h
    obtain ⟨a, ha, hg⟩ := h.gives
    exact ⟨a, _, ha, answered_source before, hg⟩
  · intro before before' as as' q a hlatest h h'
    refine h'.concat (h.last_gives.congr fun model hm => ?_)
    exact source_after_congr (hlatest model hm)

end Schema.Store

end ModelBindings
