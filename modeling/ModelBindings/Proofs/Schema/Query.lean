import ModelBindings.Proofs.Json.Lexeme
import ModelBindings.Schema.Query

namespace ModelBindings.Schema

open Files (Failure Route)
open Json (bind_eq_ok_iff mapError_eq_ok_iff)
open Text.Utf8 (byteSize)

structure Passable (s : String) : Prop where
  noNul : '\x00' ∉ s.toList
  size : byteSize s.toList ≤ maxArgument

instance (s : String) : Decidable (Passable s) :=
  decidable_of_iff ('\x00' ∉ s.toList ∧ byteSize s.toList ≤ maxArgument)
    ⟨fun h => ⟨h.1, h.2⟩, fun h => ⟨h.noNul, h.size⟩⟩

namespace Host

variable {h : Host} {program name : String} {last : Failure} {dirs : List String} {tool : Tool}

theorem noNul_of_toolAt? {path : String} (ht : h.toolAt? path = .ok tool) :
    '\x00' ∉ path.toList := by
  intro hnul
  obtain ⟨found, hf, -⟩ := bind_eq_ok_iff.mp ht
  obtain ⟨r, hr, -⟩ := bind_eq_ok_iff.mp hf
  have hnone : Route.ofPath path = .error .nulInPath := by
    rw [Route.ofPath, if_pos (List.contains_iff_mem.mpr hnul)]
  cases hnone.symm.trans hr

theorem exists_of_search (hs : h.search name last dirs = .ok tool) :
    ∃ dir ∈ dirs, h.toolAt? (Files.join dir name) = .ok tool := by
  induction dirs generalizing last with
  | nil => cases hs
  | cons dir dirs ih =>
    rw [search] at hs
    cases hd : h.toolAt? (Files.join dir name) with
    | ok t =>
      rw [hd] at hs
      cases hs
      exact ⟨dir, List.mem_cons_self, hd⟩
    | error f =>
      simp only [hd] at hs
      split at hs
      · obtain ⟨d, hmem, ht⟩ := ih hs
        exact ⟨d, List.mem_cons_of_mem _ hmem, ht⟩
      · cases hs

theorem search_of_first {before after : List String} {dir : String}
    (hbefore : ∀ d ∈ before, ∃ f, h.toolAt? (Files.join d name) = .error f ∧ isPassedOver f = true)
    (hdir : h.toolAt? (Files.join dir name) = .ok tool) :
    h.search name last (before ++ dir :: after) = .ok tool := by
  induction before generalizing last with
  | nil => rw [List.nil_append, search, hdir]
  | cons d before ih =>
    rw [List.forall_mem_cons] at hbefore
    obtain ⟨f, hf, hpassed⟩ := hbefore.1
    rw [List.cons_append, search, hf]
    simp only [hpassed, if_true]
    exact ih hbefore.2

theorem mem_toList_join {c : Char} (directory : String) (hc : c ∈ name.toList) :
    c ∈ (Files.join directory name).toList := by
  rw [Files.join]
  split
  · exact hc
  · split <;> simp [hc]

theorem noNul_of_tool? (ht : h.tool? program = .ok tool) : '\x00' ∉ program.toList := by
  rw [tool?] at ht
  split at ht
  · exact noNul_of_toolAt? ht
  · split at ht
    · cases ht
    · split at ht
      · cases ht
      · obtain ⟨dir, -, hdir⟩ := exists_of_search ht
        exact fun hnul => noNul_of_toolAt? hdir (mem_toList_join dir hnul)

theorem run_eq {arguments : List String} (ht : h.tool? program = .ok tool)
    (ha : ∀ s ∈ arguments, '\x00' ∉ s.toList) :
    h.run program arguments =
      if ∃ s ∈ arguments, maxArgument < byteSize s.toList then .error .argumentTooLong
      else .ok (tool arguments) := by
  have hnul : ((program :: arguments).any fun s => s.toList.contains '\x00') = false := by
    simp only [List.any_eq_false, List.contains_iff_mem, List.forall_mem_cons]
    exact ⟨noNul_of_tool? ht, ha⟩
  rw [run, hnul, if_neg Bool.false_ne_true, ht, Json.ok_bind]
  simp only [List.any_eq_true, decide_eq_true_eq]
  rfl

theorem run_of_passable {arguments : List String} (ht : h.tool? program = .ok tool)
    (ha : ∀ s ∈ arguments, Passable s) : h.run program arguments = .ok (tool arguments) := by
  rw [run_eq ht fun s hs => (ha s hs).noNul, if_neg]
  rintro ⟨s, hs, hsize⟩
  exact Nat.not_lt.mpr (ha s hs).size hsize

end Host

namespace Connection

variable {c : Connection} {h : Host} {model : String}

structure Succeeds (c : Connection) (r : Reply) (text : String) : Prop where
  inTime : ∀ limit, c.timeout = some limit → r.delay < limit
  ending : r.ending = .exit 0
  decodes : Text.Utf8.decode? r.stdout = some text

def Answers (c : Connection) (h : Host) (model : String) (n : Node) : Prop :=
  ∃ reply text,
    h.run c.program
        ["model", "schema", model, "--rpc-url", c.rpcUrl, "--json", "--world", c.world] =
      .ok reply ∧
    c.Succeeds reply text ∧ Node.ofDocument text = .ok n

def Available (c : Connection) (h : Host) : Prop :=
  ∃ reply, h.run c.program ["--version"] = .ok reply ∧ reply.ending = .exit 0

theorem isAvailable_iff : c.isAvailable h = true ↔ c.Available h := by
  rw [isAvailable, Available]
  cases h.run c.program ["--version"] with
  | error f => simp
  | ok reply => simp [Ending.isSuccess]

theorem isLate_eq_false_iff {r : Reply} :
    c.isLate r = false ↔ ∀ limit, c.timeout = some limit → r.delay < limit := by
  rw [isLate]
  cases c.timeout <;> simp

theorem document_eq_ok_iff {r : Reply} {text : String} :
    c.document r = .ok text ↔ c.Succeeds r text := by
  rw [document]
  constructor
  · intro hd
    split at hd
    · cases hd
    · rename_i ht
      split at hd
      · rename_i he
        split at hd
        · cases hd
          rw [Bool.not_eq_true] at ht
          exact ⟨isLate_eq_false_iff.mp ht, by simpa [Ending.isSuccess] using he, ‹_›⟩
        · cases hd
      · cases hd
  · rintro ⟨ht, he, hd⟩
    simp [isLate_eq_false_iff.mpr ht, he, Ending.isSuccess, hd]

theorem answer_eq_ok_iff {text : String} {n : Node} :
    Source.answer text = .ok n ↔ Node.ofDocument text = .ok n :=
  mapError_eq_ok_iff

theorem source_eq_ok_iff {n : Node} : c.source h model = .ok n ↔ c.Answers h model n := by
  rw [source, Answers, ← arguments]
  cases h.run c.program (c.arguments model) with
  | error f => simp
  | ok reply =>
    simp only [bind_eq_ok_iff, answer_eq_ok_iff, document_eq_ok_iff, Except.ok.injEq,
      exists_and_left, exists_eq_left']

theorem Answers.isOk_run {n : Node} (ha : c.Answers h model n) :
    (h.run c.program (c.arguments model)).isOk = true := by
  obtain ⟨reply, text, hr, -⟩ := ha
  rw [arguments, hr]
  rfl

theorem queries_eq_map {asked : List String} (ha : ∀ model ∈ asked, ∃ n, c.Answers h model n) :
    c.queries h asked = asked.map c.arguments := by
  refine List.filter_eq_self.mpr fun args hargs => ?_
  obtain ⟨model, hm, rfl⟩ := List.mem_map.mp hargs
  obtain ⟨n, hn⟩ := ha model hm
  exact hn.isOk_run

end Connection

end ModelBindings.Schema
