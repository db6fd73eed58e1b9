import Mathlib.Data.List.Nodup
import ModelBindings.Compile.Pool
import ModelBindings.Component.File
import ModelBindings.Proofs.Compile.InOrder

namespace ModelBindings

open Recs (Mode)
open Schema (Source)

namespace Pool

variable {work : String → Compiled} {models : List String} {p q : Pool} {e : Event}

structure Sound (work : String → Compiled) (models : List String) (p : Pool) : Prop where
  names : p.jobs.map Prod.fst = models
  result : ∀ m r, (m, Job.done r) ∈ p.jobs → r = work m
  failed : ∀ e ∈ p.failures, ∃ m ∈ models, work m = .error e
  noted : ∀ m e, (m, Job.done (.error e)) ∈ p.jobs → p.failures ≠ []
  dropped : ∀ m, (m, Job.dropped) ∈ p.jobs → p.failures ≠ []

theorem sound_ofModels (work : String → Compiled) (models : List String) :
    Sound work models (ofModels models) where
  names := by simp [ofModels, Function.comp_def]
  result m r h := by simp [ofModels] at h
  failed e h := by simp [ofModels] at h
  noted m e h := by simp [ofModels] at h
  dropped m h := by simp [ofModels] at h

theorem step_cases (h : p.step work e = some q) :
    (∃ i m, e = .start i ∧ p.jobs[i]? = some (m, .waiting) ∧
      q = { p with jobs := p.jobs.set i (m, .running), asked := p.asked ++ [m] }) ∨
    (∃ i m, e = .finish i ∧ p.jobs[i]? = some (m, .running) ∧
      q = { p with
        jobs := p.jobs.set i (m, .done (work m))
        failures := p.failures ++ failuresOf (work m) }) ∨
    (∃ i m, e = .drop i ∧ p.jobs[i]? = some (m, .waiting) ∧ p.failures ≠ [] ∧
      q = { p with jobs := p.jobs.set i (m, .dropped) }) := by
  cases e with
  | start i =>
    simp only [step] at h
    split at h
    · rename_i m hm
      exact .inl ⟨i, m, rfl, hm, by simpa using h.symm⟩
    · cases h
  | finish i =>
    simp only [step] at h
    split at h
    · rename_i m hm
      exact .inr (.inl ⟨i, m, rfl, hm, by simpa using h.symm⟩)
    · cases h
  | drop i =>
    simp only [step] at h
    split at h
    · rename_i m _ _ hm hf
      exact .inr (.inr ⟨i, m, rfl, hm, by simp [hf], by simpa using h.symm⟩)
    · cases h

theorem map_fst_set {js : List (String × Job)} {i : Nat} {m : String} {j : Job}
    (h : js[i]? = some (m, j)) (k : Job) : (js.set i (m, k)).map Prod.fst = js.map Prod.fst := by
  refine List.ext_getElem? fun n => ?_
  by_cases hn : i = n
  · subst hn
    obtain ⟨hi, hj⟩ := List.getElem?_eq_some_iff.mp h
    simp [hi, hj]
  · simp [List.getElem?_set_ne hn]

theorem mem_models {i : Nat} {m : String} {j : Job} (h : Sound work models p)
    (hi : p.jobs[i]? = some (m, j)) : m ∈ models := by
  rw [← h.names]
  exact List.mem_map_of_mem (List.mem_of_getElem? hi)

theorem sound_step (h : Sound work models p) (hs : p.step work e = some q) :
    Sound work models q := by
  rcases step_cases hs with ⟨i, m, -, hi, rfl⟩ | ⟨i, m, -, hi, rfl⟩ | ⟨i, m, -, hi, hf, rfl⟩
  · refine ⟨(map_fst_set hi _).trans h.names, ?_, h.failed, ?_, ?_⟩
    · intro k r hk
      exact h.result k r ((List.mem_or_eq_of_mem_set hk).resolve_right (by simp))
    · intro k d hk
      exact h.noted k d ((List.mem_or_eq_of_mem_set hk).resolve_right (by simp))
    · intro k hk
      exact h.dropped k ((List.mem_or_eq_of_mem_set hk).resolve_right (by simp))
  · refine ⟨(map_fst_set hi _).trans h.names, ?_, ?_, ?_, ?_⟩
    · intro k r hk
      rcases List.mem_or_eq_of_mem_set hk with hk | hk
      · exact h.result k r hk
      · cases hk; rfl
    · intro d hd
      rcases List.mem_append.mp hd with hd | hd
      · exact h.failed d hd
      · cases hw : work m with
        | ok c => simp [hw, failuresOf] at hd
        | error d' =>
          rw [hw] at hd
          exact ⟨m, mem_models h hi, by rw [hw, List.mem_singleton.mp hd]⟩
    · intro k d hk
      rcases List.mem_or_eq_of_mem_set hk with hk | hk
      · simp [h.noted k d hk]
      · simp only [Prod.mk.injEq, Job.done.injEq] at hk
        simp [← hk.2, failuresOf]
    · intro k hk
      simp [h.dropped k ((List.mem_or_eq_of_mem_set hk).resolve_right (by simp))]
  · refine ⟨(map_fst_set hi _).trans h.names, ?_, h.failed, ?_, fun _ _ => hf⟩
    · intro k r hk
      exact h.result k r ((List.mem_or_eq_of_mem_set hk).resolve_right (by simp))
    · intro k d hk
      exact h.noted k d ((List.mem_or_eq_of_mem_set hk).resolve_right (by simp))

theorem sound_run {es : List Event} (h : Sound work models p) (hr : p.run work es = some q) :
    Sound work models q := by
  induction es generalizing p with
  | nil => cases hr; exact h
  | cons e es ih =>
    obtain ⟨p', hs, hr⟩ := Option.bind_eq_some_iff.mp hr
    exact ih (sound_step h hs) hr

theorem exists_components_of_jobs {js : List (String × Job)}
    (h : ∀ j ∈ js, ∃ c, j.2 = .done (.ok c) ∧ work j.1 = .ok c) :
    ∃ cs, (js.mapM fun j => j.2.component?) = some cs ∧
      List.Forall₂ (fun m c => work m = .ok c) (js.map Prod.fst) cs := by
  induction js with
  | nil => exact ⟨[], rfl, .nil⟩
  | cons j js ih =>
    obtain ⟨c, hj, hc⟩ := h j (by simp)
    obtain ⟨cs, hm, hcs⟩ := ih fun k hk => h k (List.mem_cons_of_mem _ hk)
    have hjc : j.2.component? = some c := by rw [hj, Job.component?]
    exact ⟨c :: cs, by simp [hjc, hm], .cons hc hcs⟩

theorem exists_components?_of_settled (h : Sound work models p) (hs : p.isSettled = true)
    (hf : p.failures = []) :
    ∃ cs, p.components? = some cs ∧ List.Forall₂ (fun m c => work m = .ok c) models cs := by
  rw [← h.names]
  refine exists_components_of_jobs fun j hj => ?_
  obtain ⟨m, j⟩ := j
  have hj' := List.all_eq_true.mp hs _ hj
  cases j with
  | waiting => cases hj'
  | running => cases hj'
  | dropped => exact absurd hf (h.dropped m hj)
  | done r =>
    cases r with
    | error e => exact absurd hf (h.noted m e hj)
    | ok c => exact ⟨c, rfl, (h.result m _ hj).symm⟩

theorem returns_outcome (h : Sound work models p) (hs : p.isSettled = true) :
    p.Returns p.outcome := by
  cases hf : p.failures with
  | nil =>
    obtain ⟨cs, hc, -⟩ := exists_components?_of_settled h hs hf
    simpa [outcome, hf, hc] using Returns.success hf hc
  | cons e es => simpa [outcome, hf] using Returns.failure (p := p) (e := e) (by simp [hf])

theorem run_append (es fs : List Event) :
    p.run work (es ++ fs) = (p.run work es).bind fun q => q.run work fs := by
  induction es generalizing p with
  | nil => rfl
  | cons e es ih => simp [run, ih, Option.bind_assoc]

theorem run_append_of_eq_some {es fs : List Event} (h : p.run work es = some q) :
    p.run work (es ++ fs) = q.run work fs := by
  rw [run_append, h, Option.bind_some]

theorem step_start {i : Nat} {m : String} (h : p.jobs[i]? = some (m, .waiting)) :
    p.step work (.start i) =
      some { p with jobs := p.jobs.set i (m, .running), asked := p.asked ++ [m] } := by
  simp [step, h]

theorem step_finish {i : Nat} {m : String} (h : p.jobs[i]? = some (m, .running)) :
    p.step work (.finish i) =
      some { p with
        jobs := p.jobs.set i (m, .done (work m))
        failures := p.failures ++ failuresOf (work m) } := by
  simp [step, h]

theorem step_drop {i : Nat} {m : String} (h : p.jobs[i]? = some (m, .waiting))
    (hf : p.failures ≠ []) :
    p.step work (.drop i) = some { p with jobs := p.jobs.set i (m, .dropped) } := by
  obtain ⟨d, ds, hd⟩ := List.exists_cons_of_ne_nil hf
  simp [step, h, hd]

theorem exists_run_map (work : String → Compiled) (event : Nat → Event)
    (before after : String → Job) (ready : Pool → Prop)
    (hstep : ∀ p i m, ready p → p.jobs[i]? = some (m, before m) →
      ∃ q, p.step work (event i) = some q ∧ ready q ∧ q.jobs = p.jobs.set i (m, after m))
    {batch : List Nat} (hp : ready p) (hn : batch.Nodup)
    (hb : ∀ i ∈ batch, ∃ m, p.jobs[i]? = some (m, before m)) :
    ∃ q, p.run work (batch.map event) = some q ∧ ready q ∧
      (∀ i ∈ batch, ∃ m, q.jobs[i]? = some (m, after m)) ∧
      ∀ i ∉ batch, q.jobs[i]? = p.jobs[i]? := by
  induction batch generalizing p with
  | nil => exact ⟨p, rfl, hp, by simp, by simp⟩
  | cons i batch ih =>
    obtain ⟨hi, hn⟩ := List.nodup_cons.mp hn
    obtain ⟨m, hm⟩ := hb i (by simp)
    obtain ⟨q, hq, hqr, hj⟩ := hstep p i m hp hm
    have hkeep : ∀ k, k ≠ i → q.jobs[k]? = p.jobs[k]? := by
      intro k hk
      rw [hj, List.getElem?_set_ne (Ne.symm hk)]
    obtain ⟨r, hr, hrr, hin, hout⟩ := ih hqr hn fun k hk => by
      rw [hkeep k fun h => hi (h ▸ hk)]
      exact hb k (List.mem_cons_of_mem _ hk)
    refine ⟨r, by rw [List.map_cons, run, hq, Option.bind_some, hr], hrr, ?_, ?_⟩
    · intro k hk
      rcases List.mem_cons.mp hk with rfl | hk
      · refine ⟨m, ?_⟩
        rw [hout k hi, hj, List.getElem?_set_self (List.getElem?_eq_some_iff.mp hm).1]
      · exact hin k hk
    · intro k hk
      rw [List.mem_cons, not_or] at hk
      rw [hout k hk.2, hkeep k hk.1]

theorem exists_run_runBatch (work : String → Compiled) {batch : List Nat} (hn : batch.Nodup)
    (hb : ∀ i ∈ batch, ∃ m, p.jobs[i]? = some (m, .waiting)) :
    ∃ es, p.run work es = some (p.runBatch work batch) ∧
      (∀ i ∈ batch, ∃ j ∈ (p.runBatch work batch).jobs[i]?, j.2.isSettled = true) ∧
      ∀ i ∉ batch, (p.runBatch work batch).jobs[i]? = p.jobs[i]? := by
  by_cases hf : p.failures.isEmpty = true
  · obtain ⟨q, hq, -, hqi, hqo⟩ := exists_run_map work .start (fun _ => .waiting)
      (fun _ => .running) (fun _ => True)
      (fun p i m _ h => ⟨_, step_start h, trivial, rfl⟩) trivial hn hb
    obtain ⟨r, hr, -, hri, hro⟩ := exists_run_map work .finish (fun _ => .running)
      (fun m => .done (work m)) (fun _ => True)
      (fun p i m _ h => ⟨_, step_finish h, trivial, rfl⟩) trivial hn hqi
    have hrun : p.run work (batch.map .start ++ batch.map .finish) = some r := by
      rw [run_append_of_eq_some hq, hr]
    have hbatch : p.runBatch work batch = r := by simp [runBatch, hf, hrun]
    refine ⟨_, hbatch ▸ hrun, ?_, ?_⟩
    · intro i hi
      obtain ⟨m, hm⟩ := hri i hi
      exact ⟨_, hbatch ▸ hm, rfl⟩
    · intro i hi
      rw [hbatch, hro i hi, hqo i hi]
  · obtain ⟨q, hq, -, hqi, hqo⟩ := exists_run_map work .drop (fun _ => .waiting) (fun _ => .dropped)
      (fun p => p.failures ≠ []) (fun p i m hp h => ⟨_, step_drop h hp, hp, rfl⟩)
      (by simpa using hf) hn hb
    have hbatch : p.runBatch work batch = q := by simp [runBatch, hf, hq]
    refine ⟨_, hbatch ▸ hq, ?_, ?_⟩
    · intro i hi
      obtain ⟨m, hm⟩ := hqi i hi
      exact ⟨_, hbatch ▸ hm, rfl⟩
    · intro i hi
      rw [hbatch, hqo i hi]

theorem exists_run_foldl (work : String → Compiled) {bs : List (List Nat)}
    (hn : bs.flatten.Nodup) (hb : ∀ i ∈ bs.flatten, ∃ m, p.jobs[i]? = some (m, .waiting)) :
    ∃ es, p.run work es = some (bs.foldl (runBatch work) p) ∧
      (∀ i ∈ bs.flatten, ∃ j ∈ (bs.foldl (runBatch work) p).jobs[i]?, j.2.isSettled = true) ∧
      ∀ i ∉ bs.flatten, (bs.foldl (runBatch work) p).jobs[i]? = p.jobs[i]? := by
  induction bs generalizing p with
  | nil => exact ⟨[], rfl, by simp, by simp⟩
  | cons b bs ih =>
    obtain ⟨hnb, hnbs, hd⟩ := List.nodup_append'.mp (List.flatten_cons ▸ hn)
    have hmem : ∀ i ∈ bs.flatten, i ∉ b := fun i hi hib => hd hib hi
    simp only [List.flatten_cons, List.mem_append] at hb ⊢
    obtain ⟨es, hes, hin, hout⟩ := exists_run_runBatch work hnb fun i hi => hb i (.inl hi)
    obtain ⟨fs, hfs, hin', hout'⟩ := ih hnbs fun i hi => by
      rw [hout i (hmem i hi)]
      exact hb i (.inr hi)
    refine ⟨es ++ fs, by rw [run_append_of_eq_some hes, hfs, List.foldl_cons], ?_, ?_⟩
    · intro i hi
      by_cases hib : i ∈ bs.flatten
      · exact hin' i hib
      · rw [List.foldl_cons, hout' i hib]
        exact hin i (hi.resolve_right hib)
    · intro i hi
      rw [not_or] at hi
      rw [List.foldl_cons, hout' i hi.2, hout i hi.1]

theorem mem_flatten_batches {size n i : Nat} (hs : 0 < size) :
    i ∈ (batches size n).flatten ↔ i < n := by
  simp only [batches, List.mem_flatten, List.mem_map, List.mem_range]
  constructor
  · rintro ⟨b, ⟨k, -, rfl⟩, hi⟩
    exact List.mem_range.mp (List.mem_filter.mp hi).1
  · intro hi
    refine ⟨_, ⟨i / size, ?_, rfl⟩, by simp [hi]⟩
    refine (Nat.div_lt_iff_lt_mul hs).mpr ?_
    have := Nat.div_add_mod (n + size - 1) size
    have := Nat.mod_lt (n + size - 1) hs
    rw [Nat.mul_comm]
    omega

theorem nodup_flatten_batches (size n : Nat) : (batches size n).flatten.Nodup := by
  refine List.nodup_flatten.mpr ⟨?_, ?_⟩
  · intro b hb
    obtain ⟨k, -, rfl⟩ := List.mem_map.mp hb
    exact List.nodup_range.filter _
  · refine List.pairwise_map.mpr (List.nodup_range.imp ?_)
    intro a b hab i hi hi'
    have ha : i / size = a := by simpa using (List.mem_filter.mp hi).2
    have hb : i / size = b := by simpa using (List.mem_filter.mp hi').2
    exact hab (ha ▸ hb)

theorem exists_settled_run (work : String → Compiled) (models : List String) {size : Nat}
    (hs : 0 < size) :
    ∃ es p, (ofModels models).run work es = some p ∧ p.isSettled = true ∧
      p = (batches size models.length).foldl (runBatch work) (ofModels models) := by
  obtain ⟨es, hes, hin, -⟩ := exists_run_foldl work (p := ofModels models)
    (nodup_flatten_batches size models.length) fun i hi => by
      have hi := (mem_flatten_batches hs).mp hi
      exact ⟨models[i], by simp [ofModels, hi]⟩
  refine ⟨es, _, hes, List.all_eq_true.mpr fun j hj => ?_, rfl⟩
  obtain ⟨i, hi, rfl⟩ := List.mem_iff_getElem.mp hj
  have hl : i < models.length := by
    rw [← (sound_run (sound_ofModels work models) hes).names, List.length_map]
    exact hi
  obtain ⟨k, hk, hks⟩ := hin i ((mem_flatten_batches hs).mpr hl)
  rw [Option.mem_def, List.getElem?_eq_getElem hi, Option.some.injEq] at hk
  rwa [hk]

end Pool

namespace Walk

variable {mode : Mode} {source : Source} {models : List String} {p : Pool}

theorem error_of_mem {m : String} {e : CompileError} (hm : m ∈ models)
    (he : Component.ofSource mode source m = .error e) :
    ∃ i k d, FirstFault source models i k d ∧ (inOrder mode source models).outcome = .error d := by
  obtain ⟨i, k, d, hf⟩ := exists_firstFault hm (Component.ofSource_eq_error_iff.mp he)
  exact ⟨i, k, d, hf, by rw [hf.inOrder_eq]⟩

theorem returns_ok_iff (h : Pool.Sound (Component.ofSource mode source) models p)
    (hs : p.isSettled = true) {r : Except CompileError (List Component)} (hr : p.Returns r)
    (cs : List Component) : r = .ok cs ↔ (inOrder mode source models).outcome = .ok cs := by
  cases hr with
  | failure he =>
    obtain ⟨m, hm, hme⟩ := h.failed _ he
    obtain ⟨_, _, d, -, hd⟩ := error_of_mem hm hme
    simp [hd]
  | success hf hc =>
    obtain ⟨ds, hds, hall⟩ := Pool.exists_components?_of_settled h hs hf
    rw [hc, Option.some.injEq] at hds
    rw [inOrder_of_ok hall, hds]

theorem returns_error (h : Pool.Sound (Component.ofSource mode source) models p) {e : CompileError}
    (hr : p.Returns (.error e)) : ∃ m ∈ models, Component.ofSource mode source m = .error e := by
  cases hr with
  | failure he => exact h.failed e he

theorem returns_eq_of_one_name (h : Pool.Sound (Component.ofSource mode source) models p)
    (hs : p.isSettled = true) {r : Except CompileError (List Component)} (hr : p.Returns r)
    {name : String}
    (hn : ∀ m ∈ models, ∀ e, Component.ofSource mode source m = .error e → m = name) :
    r = (inOrder mode source models).outcome := by
  cases r with
  | ok cs => exact ((returns_ok_iff h hs hr cs).mp rfl).symm
  | error e =>
    obtain ⟨m, hm, hme⟩ := returns_error h hr
    obtain ⟨i, k, d, hf, hd⟩ := error_of_mem hm hme
    have hk : k ∈ models := List.mem_of_getElem? hf.found
    have hkd := hf.fault.ofSource_eq mode
    rw [hn k hk d hkd, ← hn m hm e hme, hme] at hkd
    rw [hd, Except.error.inj hkd]

/-- No pool is used for one query at a time, nor where none can be had. -/
inductive Yields (mode : Mode) (source : Source) (models : List String) (jobs : Nat) :
    Except CompileError (List Component) → Prop where
  | alone : Yields mode source models jobs (Walk.inOrder mode source models).outcome
  | pool {es : List Event} {p : Pool} {r : Except CompileError (List Component)} : 1 < jobs →
      (Pool.ofModels models).run (Component.ofSource mode source) es = some p →
      p.isSettled = true → p.Returns r → Yields mode source models jobs r

theorem Yields.ok_iff {jobs : Nat} {r : Except CompileError (List Component)}
    (h : Yields mode source models jobs r) (cs : List Component) :
    r = .ok cs ↔ (inOrder mode source models).outcome = .ok cs := by
  cases h with
  | alone => exact Iff.rfl
  | pool _ hrun hs hr =>
    exact returns_ok_iff (Pool.sound_run (Pool.sound_ofModels _ _) hrun) hs hr cs

theorem exists_run_pooled (mode : Mode) (source : Source) (jobs : Nat) (models : List String) :
    ∃ es p, (Pool.ofModels models).run (Component.ofSource mode source) es = some p ∧
      p.isSettled = true ∧ p.Returns (pooled mode source jobs models).outcome := by
  obtain ⟨es, p, hrun, hs, hp⟩ := Pool.exists_settled_run (Component.ofSource mode source) models
    (show 0 < max jobs 1 by omega)
  refine ⟨es, p, hrun, hs, ?_⟩
  have hr := Pool.returns_outcome (Pool.sound_run (Pool.sound_ofModels _ _) hrun) hs
  rwa [hp] at hr ⊢

theorem yields_withJobs (mode : Mode) (source : Source) (jobs : Nat) (models : List String) :
    Yields mode source models jobs (withJobs mode source jobs models).outcome := by
  rw [withJobs]
  split
  · obtain ⟨es, p, hrun, hs, hr⟩ := exists_run_pooled mode source jobs models
    exact .pool ‹_› hrun hs hr
  · exact .alone

theorem pool_agrees_with_inOrder (mode : Mode) (source : Source) (models : List String) :
    (∀ es p, (Pool.ofModels models).run (Component.ofSource mode source) es = some p →
      p.isSettled = true → (∃ r, p.Returns r) ∧ ∀ r, p.Returns r →
        (∀ cs, r = .ok cs ↔ (inOrder mode source models).outcome = .ok cs) ∧
        (∀ e, r = .error e → ∃ m ∈ models, Component.ofSource mode source m = .error e) ∧
        ∀ name, (∀ m ∈ models, ∀ e, Component.ofSource mode source m = .error e → m = name) →
          r = (inOrder mode source models).outcome) ∧
    (∀ jobs, ∃ es p, (Pool.ofModels models).run (Component.ofSource mode source) es = some p ∧
      p.isSettled = true ∧ p.Returns (pooled mode source jobs models).outcome) ∧
    (∀ jobs, Yields mode source models jobs (withJobs mode source jobs models).outcome) ∧
    ∀ jobs jobs' r r' text, Yields mode source models jobs r → Yields mode source models jobs' r' →
      r.map componentsFile = .ok text → r'.map componentsFile = .ok text := by
  refine ⟨?_, fun jobs => exists_run_pooled mode source jobs models,
    fun jobs => yields_withJobs mode source jobs models, ?_⟩
  · intro es p hrun hs
    have h := Pool.sound_run (Pool.sound_ofModels _ _) hrun
    refine ⟨⟨_, Pool.returns_outcome h hs⟩, fun r hr => ⟨returns_ok_iff h hs hr, ?_, ?_⟩⟩
    · rintro e rfl
      exact returns_error h hr
    · intro name hn
      exact returns_eq_of_one_name h hs hr hn
  · intro jobs jobs' r r' text h h' ht
    cases r with
    | error e => cases ht
    | ok cs => rw [(h'.ok_iff cs).mpr ((h.ok_iff cs).mp rfl), ht]

end Walk

end ModelBindings
