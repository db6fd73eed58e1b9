import ModelBindings.Proofs.Files.Publish

/-!
A file is published as a whole or not at all: whatever the tree and the path are, no regular file
but the target and its draft changes, and unless the file is published the target does not either.
-/

namespace ModelBindings.Files.Disk

open Json (bind_eq_ok_iff)
open Text.Utf8 (Bytes encode)

variable {d d' d₁ : Disk} {path name contents : String} {l : Location} {b : Bytes}

def IsDraft (d : Disk) (path : String) (l : Location) : Prop :=
  ∃ name, fileName? path = some name ∧ d.locate (draftPath path name) = l

theorem isDraft_draft (d : Disk) (hname : fileName? path = some name) :
    d.IsDraft path (d.locate path).draft :=
  ⟨name, hname, (locate_draftPath d hname).1⟩

theorem not_isDraft_locate (d : Disk) (path : String) : ¬ d.IsDraft path (d.locate path) := by
  rintro ⟨name, hname, hl⟩
  obtain ⟨hdraft, hne⟩ := locate_draftPath d hname
  exact hne (hdraft.symm.trans hl)

theorem find_of_leads (hp : d.Leads path) (h : d.get? (d.locate path) = none) :
    d.find path = .error .missing := by
  obtain ⟨r, hr, ht, hf⟩ := hp
  simp [find, hr, ht, hf, h]

theorem find_draft (hname : fileName? path = some name)
    (hwrite : d.writeFile (draftPath path name) b = .ok d₁)
    (hmove : d₁.moveFile (draftPath path name) path = .ok d') :
    d'.find (draftPath path name) = .error .missing := by
  obtain ⟨hkeeps, -, -, hmissing, -⟩ := moveFile_draft hwrite hmove hname
  refine find_of_leads (hkeeps.leads (writeFile_eq_ok hwrite).1) ?_
  rw [hkeeps.locate, (locate_draftPath d hname).1, hmissing]

namespace Keeps

theorem get?_of_file? (h : d.Keeps d') (hf : d'.file? l = d.file? l) :
    d'.get? l = d.get? l ∨ d.get? l = none ∧ d'.get? l = some .directory := by
  cases hl : d.get? l with
  | none =>
    cases hl' : d'.get? l with
    | none => exact .inl rfl
    | some i =>
      cases i with
      | directory => exact .inr ⟨rfl, rfl⟩
      | file b =>
        rw [file?_eq_some_iff.mpr hl', eq_comm, file?_eq_some_iff, hl] at hf
        cases hf
  | some i =>
    cases i with
    | directory => exact .inl (h.directories l hl)
    | file b => exact .inl (file?_eq_some_iff.mp (hf.trans (file?_eq_some_iff.mpr hl)))

theorem find (h : d.Keeps d') {i : Item} (hi : d'.get? l = some i)
    (hf : d.find path = .ok (l, i)) : d'.find path = .ok (l, i) := by
  obtain ⟨r, hr, hf⟩ := bind_eq_ok_iff.mp hf
  obtain ⟨m, hm, hf⟩ := bind_eq_ok_iff.mp hf
  have hml : m = l := by
    split at hf
    · exact congrArg Prod.fst (Except.ok.inj hf)
    · cases hf
  subst hml
  have hstart : d'.start r = d.start r := by rw [start_eq hr, start_eq hr, h.home]
  refine bind_eq_ok_iff.mpr ⟨r, hr, bind_eq_ok_iff.mpr ⟨m, hstart ▸ h.follow hm, ?_⟩⟩
  simp only [hi]
  rfl

theorem readFile (h : d.Keeps d') (hf : d'.file? (d.locate path) = d.file? (d.locate path))
    (hb : d.readFile path = .ok b) : d'.readFile path = .ok b := by
  obtain ⟨⟨l, i⟩, hfind, hread⟩ := bind_eq_ok_iff.mp hb
  obtain ⟨rfl, hi⟩ := find_eq_ok hfind
  cases i with
  | directory => cases hread
  | file c =>
    rw [file?_eq_some_iff.mpr hi] at hf
    exact bind_eq_ok_iff.mpr ⟨_, h.find (file?_eq_some_iff.mp hf) hfind, hread⟩

end Keeps

theorem kept (h : d.Keeps d') (hfiles : ∀ l, ¬ d.IsDraft path l → d'.file? l = d.file? l) :
    d'.file? (d.locate path) = d.file? (d.locate path) ∧
    (∀ l, ¬ d.IsDraft path l →
      d'.get? l = d.get? l ∨ d.get? l = none ∧ d'.get? l = some .directory) ∧
    ∀ other b, d.readFile other = .ok b → ¬ d.IsDraft path (d.locate other) →
      d'.readFile other = .ok b :=
  ⟨hfiles _ (not_isDraft_locate d path), fun l hl => h.get?_of_file? (hfiles l hl),
    fun _ _ hb hl => h.readFile (hfiles _ hl) hb⟩

theorem writeFile_draft (hname : fileName? path = some name)
    (hwrite : d.writeFile (draftPath path name) b = .ok d') :
    d.Keeps d' ∧ ∀ l, ¬ d.IsDraft path l → d'.get? l = d.get? l := by
  obtain ⟨-, hfree, rfl⟩ := writeFile_eq_ok hwrite
  exact ⟨keeps_put hfree _, fun l hl => get?_put_of_ne d (fun h => hl ⟨name, hname, h.symm⟩) _⟩

theorem Grows.isDraft_iff (h : d.Grows d') : d'.IsDraft path l ↔ d.IsDraft path l := by
  simp only [IsDraft, h.locate]

theorem publish_all_or_nothing (d : Disk) (path contents : String) :
    match d.publish path contents with
    | (.ok (), d') =>
        d'.readFile path = .ok (encode contents) ∧
        (∃ name, fileName? path = some name ∧ d'.find (draftPath path name) = .error .missing) ∧
        (∀ l, l ≠ d.locate path → ¬ d.IsDraft path l → d'.file? l = d.file? l) ∧
        ∀ other b, d.readFile other = .ok b → d.locate other ≠ d.locate path →
          ¬ d.IsDraft path (d.locate other) → d'.readFile other = .ok b
    | (.error _, d') =>
        d'.file? (d.locate path) = d.file? (d.locate path) ∧
        (∀ l, ¬ d.IsDraft path l →
          d'.get? l = d.get? l ∨ d.get? l = none ∧ d'.get? l = some .directory) ∧
        ∀ other b, d.readFile other = .ok b → ¬ d.IsDraft path (d.locate other) →
          d'.readFile other = .ok b := by
  have hattempt := attempt_publish d path contents
  generalize d.publish path contents = result at hattempt ⊢
  cases hattempt with
  | unwritten hgrows => exact kept hgrows.toKeeps fun l _ => hgrows.files l
  | @unmoved d₁ d' name e hname hgrows hwrite =>
    obtain ⟨hkeeps, hothers⟩ := writeFile_draft hname hwrite
    refine kept (hgrows.toKeeps.trans hkeeps) fun l hl => ?_
    rw [file?_congr (hothers l (mt hgrows.isDraft_iff.mp hl)), hgrows.files l]
  | @moved d₁ d₂ d' name hname hgrows hwrite hmove =>
    -- what moving the draft leaves is said of the disk it was written on, whose home is that of `d`
    obtain ⟨hkeeps, hleads, htarget, -, hothers⟩ := moveFile_draft hwrite hmove hname
    have hkeeps := hgrows.toKeeps.trans hkeeps
    rw [hgrows.locate] at htarget hothers
    have hfiles : ∀ l, l ≠ d.locate path → ¬ d.IsDraft path l → d'.file? l = d.file? l := by
      intro l hl hdraft
      have hne : l ≠ (d.locate path).draft := fun h => hdraft (h ▸ isDraft_draft d hname)
      rw [file?_congr (hothers l hl hne), hgrows.files l]
    refine ⟨readFile_of_leads hleads ?_, ⟨name, hname, find_draft hname hwrite hmove⟩, hfiles,
      fun other b hb hne hdraft => hkeeps.readFile (hfiles _ hne hdraft) hb⟩
    rw [hkeeps.locate, htarget]

end ModelBindings.Files.Disk
