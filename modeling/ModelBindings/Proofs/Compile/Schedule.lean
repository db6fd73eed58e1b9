import ModelBindings.Proofs.Compile.Pool

namespace ModelBindings

open Recs (Mode)
open Schema (Source)

namespace Job

def hasStarted : Job → Bool
  | .running => true
  | .done _ => true
  | _ => false

end Job

namespace Pool

variable {work : String → Compiled} {models : List String} {p q : Pool} {e : Event}

def started (js : List (String × Job)) : List String :=
  (js.filter fun j => j.2.hasStarted).map Prod.fst

theorem exists_split_set {js : List (String × Job)} {i : Nat} {m : String} {j : Job}
    (h : js[i]? = some (m, j)) (k : Job) :
    ∃ l r, js = l ++ (m, j) :: r ∧ js.set i (m, k) = l ++ (m, k) :: r := by
  obtain ⟨hi, hj⟩ := List.getElem?_eq_some_iff.mp h
  obtain ⟨l, r, hs, -, hset⟩ := List.exists_of_set hi
  exact ⟨l, r, hj ▸ hs, hset⟩

theorem asked_perm_step (h : p.asked.Perm (started p.jobs)) (hs : p.step work e = some q) :
    q.asked.Perm (started q.jobs) := by
  rcases step_cases hs with ⟨i, m, -, hi, rfl⟩ | ⟨i, m, -, hi, rfl⟩ | ⟨i, m, -, hi, -, rfl⟩
  · obtain ⟨l, r, hjs, hset⟩ := exists_split_set hi .running
    rw [hjs] at h
    simp only [hset]
    simp only [started, List.filter_append, List.filter_cons, Job.hasStarted, List.map_append,
      if_true, if_false, List.map_cons, Bool.false_eq_true] at h ⊢
    have hm : (p.asked ++ [m]).Perm (m :: p.asked) := List.perm_append_singleton m p.asked
    exact hm.trans ((h.cons m).trans List.perm_middle.symm)
  · obtain ⟨l, r, hjs, hset⟩ := exists_split_set hi (.done (work m))
    rw [hjs] at h
    simp only [hset]
    simpa [started, Job.hasStarted] using h
  · obtain ⟨l, r, hjs, hset⟩ := exists_split_set hi .dropped
    rw [hjs] at h
    simp only [hset]
    simpa [started, Job.hasStarted] using h

theorem asked_perm_run {es : List Event} (h : p.asked.Perm (started p.jobs))
    (hr : p.run work es = some q) : q.asked.Perm (started q.jobs) := by
  induction es generalizing p with
  | nil => cases hr; exact h
  | cons e es ih =>
    obtain ⟨p', hs, hr⟩ := Option.bind_eq_some_iff.mp hr
    exact ih (asked_perm_step h hs) hr

theorem started_ofModels (models : List String) : started (ofModels models).jobs = [] := by
  simp [started, ofModels, Job.hasStarted]

theorem hasStarted_of_component? {js : List (String × Job)} {cs : List Component}
    (h : (js.mapM fun j => j.2.component?) = some cs) : ∀ j ∈ js, j.2.hasStarted = true := by
  induction js generalizing cs with
  | nil => simp
  | cons j js ih =>
    rw [List.mapM_cons] at h
    obtain ⟨c, hc, h⟩ := Option.bind_eq_some_iff.mp h
    obtain ⟨cs, hcs, -⟩ := Option.bind_eq_some_iff.mp h
    refine List.forall_mem_cons.mpr ⟨?_, ih hcs⟩
    obtain ⟨m, j⟩ := j
    cases j with
    | done r => rfl
    | waiting => cases hc
    | running => cases hc
    | dropped => cases hc

theorem asked_perm_of_success {es : List Event} {cs : List Component}
    (hr : (ofModels models).run work es = some p) (hc : p.components? = some cs) :
    p.asked.Perm models := by
  have hp : p.asked.Perm (started p.jobs) := by
    refine asked_perm_run ?_ hr
    rw [started_ofModels]
    exact .refl []
  have hn := (sound_run (sound_ofModels work models) hr).names
  rwa [started, List.filter_eq_self.mpr (hasStarted_of_component? hc), hn] at hp

end Pool

namespace Walk

variable {mode : Mode} {source : Source} {models : List String} {jobs : Nat} {w : Walk}

inductive Possible (mode : Mode) (source : Source) (jobs : Nat) (models : List String) :
    Walk → Prop where
  | alone : Possible mode source jobs models (Walk.inOrder mode source models)
  | pool {es : List Event} {p : Pool} {r : Except CompileError (List Component)} : 1 < jobs →
      (Pool.ofModels models).run (Component.ofSource mode source) es = some p →
      p.isSettled = true → p.Returns r → Possible mode source jobs models ⟨p.asked, r⟩

theorem Possible.yields (h : Possible mode source jobs models w) :
    Yields mode source models jobs w.outcome := by
  cases h with
  | alone => exact .alone
  | pool hj hrun hs hr => exact .pool hj hrun hs hr

theorem possible_withJobs (mode : Mode) (source : Source) (jobs : Nat) (models : List String) :
    Possible mode source jobs models (withJobs mode source jobs models) := by
  rw [withJobs]
  split
  · obtain ⟨es, p, hrun, hs, hp⟩ := Pool.exists_settled_run (Component.ofSource mode source) models
      (show 0 < max jobs 1 by omega)
    have hr := Pool.returns_outcome (Pool.sound_run (Pool.sound_ofModels _ _) hrun) hs
    have hw : pooled mode source jobs models = ⟨p.asked, p.outcome⟩ := by
      rw [pooled, ← hp]
    rw [hw]
    exact .pool ‹_› hrun hs hr
  · exact .alone

theorem forall₂_of_outcome_ok {cs : List Component}
    (h : (inOrder mode source models).outcome = .ok cs) :
    List.Forall₂ (fun m c => Component.ofSource mode source m = .ok c) models cs := by
  by_cases hf : ∃ m ∈ models, ∃ e, Component.Fault source m e
  · obtain ⟨m, hm, e, he⟩ := hf
    obtain ⟨i, k, d, hfirst⟩ := exists_firstFault hm he
    rw [hfirst.inOrder_eq] at h
    cases h
  · push Not at hf
    obtain ⟨ds, hds⟩ := exists_components mode hf
    rw [inOrder_of_ok hds] at h
    cases h
    exact hds

theorem Possible.outcome_eq_ok_iff (h : Possible mode source jobs models w) {cs : List Component} :
    w.outcome = .ok cs ↔
      List.Forall₂ (fun m c => Component.ofSource mode source m = .ok c) models cs := by
  refine (h.yields.ok_iff cs).trans ⟨forall₂_of_outcome_ok, fun hcs => ?_⟩
  rw [inOrder_of_ok hcs]

theorem Possible.asked_perm (h : Possible mode source jobs models w) {cs : List Component}
    (hw : w.outcome = .ok cs) : w.asked.Perm models := by
  cases h with
  | alone =>
    rw [inOrder_of_ok (forall₂_of_outcome_ok hw)]
  | pool _ hrun _ hr =>
    cases hw
    cases hr with
    | success _ hc => exact Pool.asked_perm_of_success hrun hc

end Walk

end ModelBindings
