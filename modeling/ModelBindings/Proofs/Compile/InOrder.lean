import Mathlib.Data.List.Forall2
import ModelBindings.Compile

/-!
The walk through the models of a manifest. Either every model has its component, or the walk ends at
the first fault; what a source sees of it are the models up to there, each once per entry.
-/

namespace ModelBindings

open Recs (Mode TypeExpr)
open Schema (Node Source FetchError Kind)

namespace Component

variable {mode : Mode} {source : Source} {model : String} {c : Component} {e : CompileError}

inductive Fault (source : Source) (model : String) : CompileError → Prop where
  | fetch {cause : FetchError} :
      source model = .error cause → Fault source model (.fetch model cause)
  | root {n : Node} :
      source model = .ok n → n.kind ≠ .struct → Fault source model (.root model n.kind)

theorem Fault.model_eq (h : Fault source model e) : e.model = model := by
  cases h <;> rfl

theorem ofNode_of_kind_ne {n : Node} (h : n.kind ≠ .struct) :
    ofNode mode model n = .error (.root model n.kind) := by
  cases n with
  | struct name fields => exact absurd rfl h
  | primitive s => rfl
  | enum name => rfl
  | tuple elements => rfl

theorem ofSource_of_error {cause : FetchError} (h : source model = .error cause) :
    ofSource mode source model = .error (.fetch model cause) := by
  rw [ofSource, h]
  rfl

theorem ofSource_of_ok {n : Node} (h : source model = .ok n) :
    ofSource mode source model = ofNode mode model n := by
  rw [ofSource, h]
  rfl

theorem Fault.ofSource_eq (mode : Mode) (h : Fault source model e) :
    ofSource mode source model = .error e := by
  cases h with
  | fetch h => exact ofSource_of_error h
  | root h hk => rw [ofSource_of_ok h, ofNode_of_kind_ne hk]

theorem ofSource_eq_error_iff : ofSource mode source model = .error e ↔ Fault source model e := by
  refine ⟨fun h => ?_, Fault.ofSource_eq mode⟩
  cases hs : source model with
  | error cause =>
    rw [ofSource_of_error hs] at h
    cases h
    exact .fetch hs
  | ok n =>
    rw [ofSource_of_ok hs] at h
    by_cases hk : n.kind = .struct
    · cases n with
      | struct name fields => cases h
      | primitive s => cases hk
      | enum name => cases hk
      | tuple elements => cases hk
    · rw [ofNode_of_kind_ne hk] at h
      cases h
      exact .root hs hk

theorem model_of_ofSource (h : ofSource mode source model = .ok c) : c.model = model := by
  cases hs : source model with
  | error cause => rw [ofSource_of_error hs] at h; cases h
  | ok n =>
    rw [ofSource_of_ok hs] at h
    cases n with
    | struct name fields => cases h; rfl
    | primitive s => cases h
    | enum name => cases h
    | tuple elements => cases h

end Component

def Schema.Source.logged (source : Source) (model : String) :
    StateM (List String) (Except FetchError Node) := do
  modify (· ++ [model])
  return source model

namespace Walk

variable {mode : Mode} {source : Source}

def through {m : Type → Type} [Monad m] (mode : Mode) (ask : String → m (Except FetchError Node)) :
    List String → m (Except CompileError (List Component))
  | [] => return .ok []
  | model :: models => do
      match (← ask model).mapError (.fetch model) >>= Component.ofNode mode model with
      | .error e => return .error e
      | .ok c => return (← through mode ask models).map (c :: ·)

theorem through_logged (models log : List String) :
    (through mode source.logged models).run log =
      ((inOrder mode source models).outcome, log ++ (inOrder mode source models).asked) := by
  induction models generalizing log with
  | nil =>
    simp only [through, inOrder, List.append_nil]
    rfl
  | cons model models ih =>
    have hb : (source model).mapError (.fetch model) >>= Component.ofNode mode model =
        Component.ofSource mode source model := rfl
    cases h : Component.ofSource mode source model with
    | error e =>
      simp only [through, Schema.Source.logged, StateT.run_bind, StateT.run_modify, pure_bind,
        StateT.run_pure, hb, h, inOrder_cons_error h]
      rfl
    | ok c =>
      simp only [through, Schema.Source.logged, StateT.run_bind, StateT.run_modify, pure_bind,
        StateT.run_pure, hb, h, inOrder_cons_ok h, ih, List.append_assoc, List.singleton_append]
      rfl

theorem inOrder_append_of_ok {done : List String} {cs : List Component}
    (h : List.Forall₂ (fun m c => Component.ofSource mode source m = .ok c) done cs)
    (rest : List String) :
    inOrder mode source (done ++ rest) =
      ⟨done ++ (inOrder mode source rest).asked,
        (inOrder mode source rest).outcome.map (cs ++ ·)⟩ := by
  induction h with
  | nil => cases hr : (inOrder mode source rest).outcome <;> simp [Except.map, ← hr]
  | cons hc _ ih =>
    rw [List.cons_append, inOrder_cons_ok hc, ih]
    cases (inOrder mode source rest).outcome <;> rfl

theorem inOrder_of_ok {models : List String} {cs : List Component}
    (h : List.Forall₂ (fun m c => Component.ofSource mode source m = .ok c) models cs) :
    inOrder mode source models = ⟨models, .ok cs⟩ := by
  simpa [inOrder, Except.map] using inOrder_append_of_ok h []

theorem inOrder_of_error {done : List String} {cs : List Component} {model : String}
    {e : CompileError}
    (h : List.Forall₂ (fun m c => Component.ofSource mode source m = .ok c) done cs)
    (he : Component.ofSource mode source model = .error e) (rest : List String) :
    inOrder mode source (done ++ model :: rest) = ⟨done ++ [model], .error e⟩ := by
  rw [inOrder_append_of_ok h, inOrder_cons_error he]
  rfl

theorem map_model_of_ok {models : List String} {cs : List Component}
    (h : List.Forall₂ (fun m c => Component.ofSource mode source m = .ok c) models cs) :
    cs.map Component.model = models := by
  induction h with
  | nil => rfl
  | cons hc _ ih => rw [List.map_cons, ih, Component.model_of_ofSource hc]

theorem exists_components (mode : Mode) {models : List String}
    (h : ∀ m ∈ models, ∀ e, ¬ Component.Fault source m e) :
    ∃ cs, List.Forall₂ (fun m c => Component.ofSource mode source m = .ok c) models cs := by
  induction models with
  | nil => exact ⟨[], .nil⟩
  | cons model models ih =>
    obtain ⟨cs, hcs⟩ := ih fun m hm => h m (List.mem_cons_of_mem _ hm)
    cases hc : Component.ofSource mode source model with
    | ok c => exact ⟨c :: cs, .cons hc hcs⟩
    | error e => exact absurd (Component.ofSource_eq_error_iff.mp hc) (h model (by simp) e)

structure FirstFault (source : Source) (models : List String) (i : Nat) (model : String)
    (e : CompileError) : Prop where
  found : models[i]? = some model
  fault : Component.Fault source model e
  clear : ∀ m ∈ models.take i, ∀ d, ¬ Component.Fault source m d

theorem FirstFault.inOrder_eq {models : List String} {i : Nat} {model : String} {e : CompileError}
    (h : FirstFault source models i model e) :
    inOrder mode source models = ⟨models.take (i + 1), .error e⟩ := by
  obtain ⟨hi, hm⟩ := List.getElem?_eq_some_iff.mp h.found
  obtain ⟨cs, hcs⟩ := exists_components mode h.clear
  have hs : models = models.take i ++ model :: models.drop (i + 1) := by
    rw [← hm, List.getElem_cons_drop, List.take_append_drop]
  have hr := inOrder_of_error hcs (h.fault.ofSource_eq mode) (models.drop (i + 1))
  rw [← hs] at hr
  rw [hr, List.take_succ_eq_append_getElem hi, hm]

theorem exists_firstFault {models : List String} {m : String} {e : CompileError} (hm : m ∈ models)
    (he : Component.Fault source m e) : ∃ i model d, FirstFault source models i model d := by
  induction models with
  | nil => cases hm
  | cons model models ih =>
    by_cases h : ∃ d, Component.Fault source model d
    · obtain ⟨d, hd⟩ := h
      exact ⟨0, model, d, rfl, hd, by simp⟩
    · have ht : m ∈ models := by
        rcases List.mem_cons.mp hm with rfl | ht
        · exact absurd ⟨e, he⟩ h
        · exact ht
      obtain ⟨i, k, d, hf⟩ := ih ht
      refine ⟨i + 1, k, d, by simpa using hf.found, hf.fault, ?_⟩
      intro j hj d' hd'
      rcases List.mem_cons.mp (List.take_succ_cons ▸ hj) with rfl | hj
      · exact h ⟨d', hd'⟩
      · exact hf.clear j hj d' hd'

theorem inOrder_all_or_first_fault (mode : Mode) (source : Source) (models : List String) :
    ((∃ cs, List.Forall₂ (fun m c => Component.ofSource mode source m = .ok c) models cs) ∨
      ∃ i model e, FirstFault source models i model e) ∧
    (∀ cs, List.Forall₂ (fun m c => Component.ofSource mode source m = .ok c) models cs →
      inOrder mode source models = ⟨models, .ok cs⟩ ∧ cs.map Component.model = models) ∧
    (∀ i model e, FirstFault source models i model e →
      inOrder mode source models = ⟨models.take (i + 1), .error e⟩ ∧
        Component.ofSource mode source model = .error e ∧ e.model = model) ∧
    ∀ log, (through mode source.logged models).run log =
      ((inOrder mode source models).outcome, log ++ (inOrder mode source models).asked) := by
  refine ⟨?_, ?_, ?_, through_logged models⟩
  · by_cases h : ∃ m ∈ models, ∃ e, Component.Fault source m e
    · obtain ⟨m, hm, e, he⟩ := h
      exact .inr (exists_firstFault hm he)
    · push Not at h
      exact .inl (exists_components mode h)
  · intro cs h
    exact ⟨inOrder_of_ok h, map_model_of_ok h⟩
  · intro i model e h
    exact ⟨h.inOrder_eq, h.fault.ofSource_eq mode, h.fault.model_eq⟩

end Walk

end ModelBindings
