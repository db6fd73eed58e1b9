import ModelBindings.Proofs.Compile.Schedule

namespace ModelBindings

open Recs (Mode)
open Schema (Source)

namespace Pool

variable {work work' : String → Compiled} {p q : Pool} {e : Event} {es : List Event}

def names (p : Pool) : List String := p.jobs.map Prod.fst

theorem names_ofModels (models : List String) : (ofModels models).names = models := by
  simp [names, ofModels, Function.comp_def]

theorem names_step (hs : p.step work e = some q) : q.names = p.names := by
  rcases step_cases hs with ⟨i, m, -, hi, rfl⟩ | ⟨i, m, -, hi, rfl⟩ | ⟨i, m, -, hi, -, rfl⟩
  · exact map_fst_set hi _
  · exact map_fst_set hi _
  · exact map_fst_set hi _

theorem step_congr (h : ∀ m ∈ p.names, work m = work' m) : p.step work e = p.step work' e := by
  cases e with
  | start i => rfl
  | drop i => rfl
  | finish i =>
    simp only [step]
    split
    · rename_i m hm
      have hmem : m ∈ p.names := List.mem_map_of_mem (List.mem_of_getElem? hm)
      rw [h m hmem]
    · rfl

theorem run_congr (h : ∀ m ∈ p.names, work m = work' m) : p.run work es = p.run work' es := by
  induction es generalizing p with
  | nil => rfl
  | cons e es ih =>
    rw [run, run, step_congr h]
    cases hs : p.step work' e with
    | none => rfl
    | some q =>
      rw [Option.bind_some, Option.bind_some]
      apply ih
      intro m hm
      exact h m (names_step hs ▸ hm)

end Pool

variable {mode : Mode} {source source' : Source} {models : List String} {jobs : Nat}

theorem Component.ofSource_congr {model : String} (h : source model = source' model) :
    ofSource mode source model = ofSource mode source' model := by
  rw [ofSource, ofSource, h]

namespace Walk

theorem inOrder_congr (h : ∀ m ∈ models, source m = source' m) :
    inOrder mode source models = inOrder mode source' models := by
  induction models with
  | nil => rfl
  | cons model models ih =>
    have hmodel : Component.ofSource mode source model = Component.ofSource mode source' model :=
      Component.ofSource_congr (h model List.mem_cons_self)
    have hmodels := ih fun m hm => h m (List.mem_cons_of_mem _ hm)
    rw [inOrder, inOrder, hmodel, hmodels]

theorem run_ofModels_congr (h : ∀ m ∈ models, source m = source' m) (es : List Event) :
    (Pool.ofModels models).run (Component.ofSource mode source) es =
      (Pool.ofModels models).run (Component.ofSource mode source') es := by
  apply Pool.run_congr
  intro m hm
  rw [Pool.names_ofModels] at hm
  exact Component.ofSource_congr (h m hm)

theorem Possible.congr (h : ∀ m ∈ models, source m = source' m) {w : Walk}
    (hw : Possible mode source jobs models w) : Possible mode source' jobs models w := by
  cases hw with
  | alone =>
    rw [inOrder_congr h]
    exact .alone
  | pool hj hrun hs hr =>
    rw [run_ofModels_congr h] at hrun
    exact .pool hj hrun hs hr

end Walk

end ModelBindings
