import ModelBindings.Proofs.Files.Locate
import ModelBindings.Proofs.Json.Lexeme

/-!
What publishing leaves on a disk, and what a row of files leaves that are published one after the
other. Each of them passes through the place of its draft, and what stood there is lost.
-/

namespace ModelBindings.Files

open Json (bind_eq_ok_iff pure_eq_ok_iff)
open Text.Utf8 (Bytes encode)

variable {d d' d'' : Disk} {path name : String} {l m : Location} {r : Route}

theorem Route.eq_of_ofPath (h : Route.ofPath path = .ok r) :
    r = ⟨path.toList.head? = some '/', namesFrom [] path.toList,
      path.toList.getLast? = some '/'⟩ := by
  simp only [Route.ofPath] at h
  split at h
  · cases h
  · split at h
    · cases h
    · split at h
      · cases h
      · exact (Except.ok.inj h).symm

namespace Disk

theorem start_eq (h : Route.ofPath path = .ok r) : d.start r = startOf d.home path.toList := by
  rw [Route.eq_of_ofPath h, start, startOf]
  simp only [decide_eq_true_eq]

section Follow

theorem enter_eq_ok (h : d.enter l name = .ok m) :
    d.get? l = some .directory ∧ m = l.enter name := by
  rw [enter] at h
  split at h
  · cases h
  · cases h
  · rename_i hl
    refine ⟨hl, ?_⟩
    rw [Location.enter]
    split at h
    · rw [if_pos ‹_›, Except.ok.inj h]
    · split at h
      · rw [if_neg ‹_›, if_pos ‹_›, Except.ok.inj h]
      · split at h
        · cases h
        · rw [if_neg ‹_›, if_neg ‹_›, Except.ok.inj h]

theorem enter_congr (h : d'.get? l = d.get? l) (name : String) :
    d'.enter l name = d.enter l name := by
  rw [enter, enter, h]

theorem follow_append (d : Disk) (l : Location) (names names' : List String) :
    d.follow l (names ++ names') = d.follow l names >>= fun m => d.follow m names' := by
  induction names generalizing l with
  | nil => rfl
  | cons name names ih =>
    simp only [List.cons_append, follow]
    cases d.enter l name with
    | error e => rfl
    | ok m => exact ih m

theorem follow_eq_ok {names : List String} (h : d.follow l names = .ok m) : m = l.follow names := by
  induction names generalizing l with
  | nil => exact (Except.ok.inj h).symm
  | cons name names ih =>
    obtain ⟨k, hk, hm⟩ := bind_eq_ok_iff.mp h
    rw [ih hm, (enter_eq_ok hk).2, Location.follow_cons]

theorem find_eq_ok {i : Item} (h : d.find path = .ok (l, i)) :
    l = d.locate path ∧ d.get? l = some i := by
  obtain ⟨r, hr, h⟩ := bind_eq_ok_iff.mp h
  obtain ⟨k, hk, h⟩ := bind_eq_ok_iff.mp h
  have hlocate : k = d.locate path := by
    rw [follow_eq_ok hk, Location.follow_append, start_eq hr, Route.eq_of_ofPath hr]
    split <;> rfl
  split at h
  · rename_i hi
    cases h
    exact ⟨hlocate, hi⟩
  · cases h

end Follow

/-- Directories stay, so what could be followed can still be followed. -/
structure Keeps (d d' : Disk) : Prop where
  home : d'.home = d.home
  directories : ∀ l, d.get? l = some .directory → d'.get? l = some .directory

namespace Keeps

theorem refl (d : Disk) : Keeps d d := ⟨rfl, fun _ h => h⟩

theorem trans (h : Keeps d d') (h' : Keeps d' d'') : Keeps d d'' :=
  ⟨h'.home.trans h.home, fun l hl => h'.directories l (h.directories l hl)⟩

theorem locate (h : Keeps d d') (path : String) : d'.locate path = d.locate path :=
  locate_congr h.home path

theorem follow (h : Keeps d d') {names : List String} (hm : d.follow l names = .ok m) :
    d'.follow l names = .ok m := by
  induction names generalizing l with
  | nil => exact hm
  | cons name names ih =>
    obtain ⟨k, hk, hm⟩ := bind_eq_ok_iff.mp hm
    have hdir := (enter_eq_ok hk).1
    refine bind_eq_ok_iff.mpr ⟨k, ?_, ih hm⟩
    rw [enter_congr (hdir ▸ h.directories l hdir), hk]

end Keeps

def Leads (d : Disk) (path : String) : Prop :=
  ∃ r, Route.ofPath path = .ok r ∧ r.trailing = false ∧
    d.follow (d.start r) r.names = .ok (d.locate path)

theorem Keeps.leads (h : Keeps d d') (hp : d.Leads path) : d'.Leads path := by
  obtain ⟨r, hr, ht, hf⟩ := hp
  refine ⟨r, hr, ht, ?_⟩
  rw [h.locate, start_eq hr, h.home, ← start_eq hr]
  exact h.follow hf

theorem readFile_of_leads (hp : d.Leads path) {b : Bytes}
    (hb : d.get? (d.locate path) = some (.file b)) :
    d.readFile path = .ok b := by
  obtain ⟨r, hr, ht, hf⟩ := hp
  have hfind : d.find path = .ok (d.locate path, .file b) := by
    simp [find, hr, ht, hf, hb, pure, Except.pure]
  rw [readFile, hfind]
  rfl

theorem follow_last {dir : Location} (hr : Route.ofPath path = .ok r)
    (hdir : d.directoryOf r = .ok dir) (hname : lastName? r = some name)
    (hl : d.enter dir name = .ok l) :
    d.follow (d.start r) r.names = .ok l ∧ l = d.locate path := by
  obtain ⟨dir', hf, hdir⟩ := bind_eq_ok_iff.mp hdir
  have hdir : dir' = dir := by
    split at hdir
    · exact Except.ok.inj hdir
    · cases hdir
    · cases hdir
  have hnames : r.names.dropLast ++ [name] = r.names := by
    rw [lastName?] at hname
    split at hname
    · rename_i last hlast
      split at hname
      · cases hname
      · obtain ⟨names, hnames⟩ := List.getLast?_eq_some_iff.mp hlast
        rw [hnames, List.dropLast_concat, Option.some.inj hname]
    · cases hname
  have hfollow : d.follow (d.start r) r.names = .ok l := by
    rw [← hnames, follow_append, hf, hdir, Json.ok_bind, follow, hl]
    rfl
  refine ⟨hfollow, ?_⟩
  rw [follow_eq_ok hfollow, start_eq hr, Route.eq_of_ofPath hr]
  rfl

section Operations

variable {b : Bytes} {source target : String}

theorem makeDirectory_eq_ok (h : d.makeDirectory path = .ok d') :
    ∃ l, d.get? l = none ∧ d' = d.put l .directory := by
  obtain ⟨r, hr, h⟩ := bind_eq_ok_iff.mp h
  obtain ⟨dir, hdir, h⟩ := bind_eq_ok_iff.mp h
  split at h
  · cases h
  · obtain ⟨l, hl, h⟩ := bind_eq_ok_iff.mp h
    split at h
    · cases h
    · exact ⟨l, ‹_›, (Except.ok.inj h).symm⟩

theorem writeFile_eq_ok (h : d.writeFile path b = .ok d') :
    d.Leads path ∧ d.get? (d.locate path) ≠ some .directory ∧
      d' = d.put (d.locate path) (.file b) := by
  obtain ⟨r, hr, h⟩ := bind_eq_ok_iff.mp h
  obtain ⟨dir, hdir, h⟩ := bind_eq_ok_iff.mp h
  split at h
  · cases h
  · rename_i name hname
    obtain ⟨l, hl, h⟩ := bind_eq_ok_iff.mp h
    obtain ⟨hfollow, rfl⟩ := follow_last hr hdir hname hl
    split at h
    · cases h
    · rename_i hi
      split at h
      · cases h
      · exact ⟨⟨r, hr, Bool.eq_false_iff.mpr ‹_›, hfollow⟩, by simp [hi], (Except.ok.inj h).symm⟩
    · rename_i hi
      split at h
      · cases h
      · exact ⟨⟨r, hr, Bool.eq_false_iff.mpr ‹_›, hfollow⟩, by simp [hi], (Except.ok.inj h).symm⟩

theorem moveFile_eq_ok (h : d.moveFile source target = .ok d') :
    d.Leads target ∧ d.get? (d.locate target) ≠ some .directory ∧
      ∃ b, d.get? (d.locate source) = some (.file b) ∧
        d' = if d.locate source = d.locate target then d
          else (d.remove (d.locate source)).put (d.locate target) (.file b) := by
  obtain ⟨r, hr, h⟩ := bind_eq_ok_iff.mp h
  obtain ⟨s, hs, h⟩ := bind_eq_ok_iff.mp h
  obtain ⟨dir, hdir, h⟩ := bind_eq_ok_iff.mp h
  obtain ⟨dir', hdir', h⟩ := bind_eq_ok_iff.mp h
  split at h
  · rename_i name name' hname hname'
    obtain ⟨l, hl, h⟩ := bind_eq_ok_iff.mp h
    obtain ⟨l', hl', h⟩ := bind_eq_ok_iff.mp h
    obtain ⟨-, rfl⟩ := follow_last hr hdir hname hl
    obtain ⟨hfollow, rfl⟩ := follow_last hs hdir' hname' hl'
    split at h
    · cases h
    · cases h
    · rename_i b hb
      split at h
      · cases h
      · rename_i htrailing
        split at h
        · cases h
        · rename_i htarget
          have hslash : s.trailing = false := by simpa using fun ht => htrailing (.inr ht)
          refine ⟨⟨s, hs, hslash, hfollow⟩, htarget, b, hb, ?_⟩
          split at h
          · rw [if_pos ‹_›, Except.ok.inj h]
          · rw [if_neg ‹_›, Except.ok.inj h]
  · cases h

end Operations

section Changes

variable {b : Bytes}

theorem ne_nil_of_get? (h : d.get? l ≠ some .directory) : l ≠ [] := by
  rintro rfl
  exact h rfl

theorem file?_eq_some_iff : d.file? l = some b ↔ d.get? l = some (.file b) := by
  rw [file?]
  constructor
  · intro h
    split at h
    · cases h
      assumption
    · cases h
  · intro h
    rw [h]

theorem file?_congr (h : d'.get? l = d.get? l) : d'.file? l = d.file? l := by
  rw [file?, file?, h]

theorem keeps_put (h : d.get? l ≠ some .directory) (i : Item) : d.Keeps (d.put l i) := by
  refine ⟨rfl, fun m hm => ?_⟩
  have hne : m ≠ l := by
    rintro rfl
    exact h hm
  rw [get?_put_of_ne d hne, hm]

theorem keeps_remove (h : d.get? l ≠ some .directory) : d.Keeps (d.remove l) := by
  refine ⟨rfl, fun m hm => ?_⟩
  have hne : m ≠ l := by
    rintro rfl
    exact h hm
  rw [get?_remove_of_ne d hne, hm]

structure Grows (d d' : Disk) : Prop extends Keeps d d' where
  files : ∀ l, d'.file? l = d.file? l

namespace Grows

theorem refl (d : Disk) : Grows d d := ⟨.refl d, fun _ => rfl⟩

theorem trans (h : Grows d d') (h' : Grows d' d'') : Grows d d'' :=
  ⟨h.toKeeps.trans h'.toKeeps, fun l => (h'.files l).trans (h.files l)⟩

end Grows

theorem grows_makeDirectory (h : d.makeDirectory path = .ok d') : d.Grows d' := by
  obtain ⟨l, hl, rfl⟩ := makeDirectory_eq_ok h
  have hdir : d.get? l ≠ some .directory := by simp [hl]
  refine ⟨keeps_put hdir _, fun m => ?_⟩
  by_cases hm : m = l
  · rw [hm, file?, file?, get?_put_self d (ne_nil_of_get? hdir), hl]
  · exact file?_congr (get?_put_of_ne d hm _)

theorem grows_makeDirectories (levels : Nat) (d : Disk) (path : String) :
    d.Grows (d.makeDirectories levels path).2 := by
  fun_induction makeDirectories levels d path with
  | case1 | case2 | case4 | case8 => exact .refl _
  | case3 levels d path hpath d' hmake => exact grows_makeDirectory hmake
  | case5 levels d path hpath hmiss p hp e d' hparent ih => exact hparent ▸ ih
  | case6 levels d path hpath hmiss p hp d' hparent d'' hmake ih =>
    rw [hparent] at ih
    exact ih.trans (grows_makeDirectory hmake)
  | case7 levels d path hpath hmiss p hp d' hparent e hmake ih =>
    rw [hparent] at ih
    exact ih

end Changes

structure Publishes (d : Disk) (path contents : String) (d' : Disk) : Prop extends Keeps d d' where
  leads : d'.Leads path
  target : d'.get? (d.locate path) = some (.file (encode contents))
  draft : d'.get? (d.locate path).draft = none
  others : ∀ l, l ≠ d.locate path → l ≠ (d.locate path).draft → d'.file? l = d.file? l

theorem moveFile_draft {b : Bytes} (hwrite : d.writeFile (draftPath path name) b = .ok d')
    (hmove : d'.moveFile (draftPath path name) path = .ok d'')
    (hname : fileName? path = some name) :
    d.Keeps d'' ∧ d''.Leads path ∧ d''.get? (d.locate path) = some (.file b) ∧
      d''.get? (d.locate path).draft = none ∧
      ∀ l, l ≠ d.locate path → l ≠ (d.locate path).draft → d''.get? l = d.get? l := by
  obtain ⟨hdraft, hne⟩ := locate_draftPath d hname
  obtain ⟨-, hfree, hd'⟩ := writeFile_eq_ok hwrite
  obtain ⟨hleads, hplace, b', hb', hd''⟩ := moveFile_eq_ok hmove
  -- both disks have one home, so both tell the same places
  have hhome : d'.home = d.home := by rw [hd']; rfl
  rw [hdraft] at hfree hd'
  rw [locate_congr hhome] at hplace
  rw [locate_congr hhome, locate_congr hhome, hdraft] at hd''
  rw [locate_congr hhome, hdraft, hd', get?_put_self d (ne_nil_of_get? hfree)] at hb'
  cases hb'
  rw [if_neg hne] at hd''
  have hdraft' : d'.get? (d.locate path).draft ≠ some .directory := by
    rw [hd', get?_put_self d (ne_nil_of_get? hfree)]
    nofun
  have hremoved : (d'.remove (d.locate path).draft).get? (d.locate path) ≠ some .directory := by
    rwa [get?_remove_of_ne d' (Ne.symm hne)]
  have hkeeps' : d.Keeps d' := hd' ▸ keeps_put hfree _
  have hkeeps : d'.Keeps d'' := hd'' ▸ (keeps_remove hdraft').trans (keeps_put hremoved _)
  refine ⟨hkeeps'.trans hkeeps, hkeeps.leads hleads, ?_, ?_, fun l htarget hl => ?_⟩
  · rw [hd'', get?_put_self _ (ne_nil_of_get? hplace)]
  · rw [hd'', get?_put_of_ne _ hne, get?_remove_self d' (ne_nil_of_get? hfree)]
  · rw [hd'', get?_put_of_ne _ htarget, get?_remove_of_ne d' hl, hd', get?_put_of_ne d hl]

/-- The ways in which publishing a file ends: before its draft is written, before the draft is
moved, or with the draft moved to its place. -/
inductive Attempt (d : Disk) (path contents : String) : Except PublishError Unit × Disk → Prop where
  | unwritten {d' : Disk} {e : PublishError} : d.Grows d' → Attempt d path contents (.error e, d')
  | unmoved {d₁ d' : Disk} {name : String} {e : PublishError} : fileName? path = some name →
      d.Grows d₁ → d₁.writeFile (draftPath path name) (encode contents) = .ok d' →
      Attempt d path contents (.error e, d')
  | moved {d₁ d₂ d' : Disk} {name : String} : fileName? path = some name → d.Grows d₁ →
      d₁.writeFile (draftPath path name) (encode contents) = .ok d₂ →
      d₂.moveFile (draftPath path name) path = .ok d' → Attempt d path contents (.ok (), d')

theorem attempt_publish (d : Disk) (path contents : String) :
    Attempt d path contents (d.publish path contents) := by
  have hgrows := grows_makeDirectories (((parent? path).getD "").length + 1) d
    ((parent? path).getD "")
  simp only [publish]
  split
  · rename_i hmake
    rw [hmake] at hgrows
    exact .unwritten hgrows
  · rename_i d₁ hmake
    rw [hmake] at hgrows
    split
    · exact .unwritten hgrows
    · rename_i name hname
      split
      · exact .unwritten hgrows
      · rename_i d₂ hwrite
        split
        · exact .unmoved hname hgrows hwrite
        · rename_i d₃ hmove
          exact .moved hname hgrows hwrite hmove

theorem publishes_of_ok {contents : String} (h : (d.publish path contents).1 = .ok ()) :
    d.Publishes path contents (d.publish path contents).2 := by
  have hattempt := attempt_publish d path contents
  generalize d.publish path contents = result at h hattempt
  cases hattempt with
  | unwritten | unmoved => cases h
  | moved hname hgrows hwrite hmove =>
    obtain ⟨hkeeps, hleads, htarget, hdraft, hothers⟩ := moveFile_draft hwrite hmove hname
    rw [hgrows.locate] at htarget hdraft hothers
    refine ⟨hgrows.toKeeps.trans hkeeps, hleads, htarget, hdraft, fun l hl hl' => ?_⟩
    rw [file?_congr (hothers l hl hl'), hgrows.files l]

inductive Published : Disk → List (String × String) → Disk → Prop where
  | nil {d : Disk} : Published d [] d
  | cons {d d' : Disk} {path contents : String} {ws : List (String × String)} :
      (d.publish path contents).1 = .ok () → Published (d.publish path contents).2 ws d' →
      Published d ((path, contents) :: ws) d'

namespace Published

variable {ws ws' : List (String × String)} {contents : String}

theorem keeps (h : Published d ws d') : d.Keeps d' := by
  induction h with
  | nil => exact .refl _
  | cons hp _ ih => exact (publishes_of_ok hp).toKeeps.trans ih

theorem split (h : Published d (ws ++ (path, contents) :: ws') d') :
    ∃ d₁, d.Keeps d₁ ∧ d₁.file? (d.locate path) = some (encode contents) ∧
      Published d₁ ws' d' := by
  induction ws generalizing d with
  | nil =>
    cases h with
    | cons hp h =>
      have hone := publishes_of_ok hp
      exact ⟨_, hone.toKeeps, file?_eq_some_iff.mpr hone.target, h⟩
  | cons w ws ih =>
    cases h with
    | cons hp h =>
      have hone := publishes_of_ok hp
      obtain ⟨d₁, hkeeps, htarget, h⟩ := ih h
      rw [hone.locate] at htarget
      exact ⟨d₁, hone.toKeeps.trans hkeeps, htarget, h⟩

theorem leads (h : Published d ws d') {w : String × String} (hw : w ∈ ws) : d'.Leads w.1 := by
  induction h with
  | nil => cases hw
  | cons hp h ih =>
    cases hw with
    | head => exact h.keeps.leads (publishes_of_ok hp).leads
    | tail _ hw => exact ih hw

theorem untouched (h : Published d ws d')
    (hl : ∀ w ∈ ws, d.locate w.1 ≠ l ∧ (d.locate w.1).draft ≠ l) : d'.file? l = d.file? l := by
  induction h with
  | nil => rfl
  | @cons d d' path contents ws hp h ih =>
    have hone := publishes_of_ok hp
    obtain ⟨⟨htarget, hdraft⟩, hrest⟩ := List.forall_mem_cons.mp hl
    rw [ih fun w hw => by rw [hone.locate]; exact hrest w hw]
    exact hone.others l (Ne.symm htarget) (Ne.symm hdraft)

theorem absent (h : Published d ws d') (hl : ∀ w ∈ ws, d.locate w.1 ≠ l) (hn : d.file? l = none) :
    d'.file? l = none := by
  induction h with
  | nil => exact hn
  | @cons d d' path contents ws hp h ih =>
    have hone := publishes_of_ok hp
    obtain ⟨htarget, hrest⟩ := List.forall_mem_cons.mp hl
    refine ih (fun w hw => by rw [hone.locate]; exact hrest w hw) ?_
    by_cases hdraft : l = (d.locate path).draft
    · rw [hdraft, file?, hone.draft]
    · rw [hone.others l (Ne.symm htarget) hdraft, hn]

theorem drafted (h : Published d ws d') (hl : ∀ w ∈ ws, d.locate w.1 ≠ l)
    (hw : ∃ w ∈ ws, (d.locate w.1).draft = l) : d'.file? l = none := by
  induction h with
  | nil => simp at hw
  | @cons d d' path contents ws hp h ih =>
    have hone := publishes_of_ok hp
    obtain ⟨htarget, hrest⟩ := List.forall_mem_cons.mp hl
    have hrest : ∀ w ∈ ws, (d.publish path contents).2.locate w.1 ≠ l := fun w hw => by
      rw [hone.locate]
      exact hrest w hw
    obtain ⟨w, hw, hdraft⟩ := hw
    cases hw with
    | head => exact h.absent hrest (by rw [file?, ← hdraft, hone.draft])
    | tail _ hw => exact ih hrest ⟨w, hw, by rw [hone.locate, hdraft]⟩

end Published

theorem exists_last {α : Type} {p : α → Prop} {ws : List α} (h : ∃ w ∈ ws, p w) :
    ∃ before v after, ws = before ++ v :: after ∧ p v ∧ ∀ u ∈ after, ¬ p u := by
  induction ws with
  | nil => simp at h
  | cons w ws ih =>
    by_cases hws : ∃ w ∈ ws, p w
    · obtain ⟨before, v, after, rfl, hv, hafter⟩ := ih hws
      exact ⟨w :: before, v, after, rfl, hv, hafter⟩
    · obtain ⟨v, hv, hpv⟩ := h
      cases hv with
      | head => exact ⟨[], w, ws, rfl, hpv, fun u hu hpu => hws ⟨u, hu, hpu⟩⟩
      | tail _ hv => exact absurd ⟨v, hv, hpv⟩ hws

theorem published_files {ws : List (String × String)} (h : Published d ws d') :
    (∀ w ∈ ws, ∃ before v after, ws = before ++ v :: after ∧ d.locate v.1 = d.locate w.1 ∧
      (∀ u ∈ after, d.locate u.1 ≠ d.locate w.1) ∧
      ((∀ u ∈ after, (d.locate u.1).draft ≠ d.locate w.1) →
        d'.readFile w.1 = .ok (encode v.2)) ∧
      ((∃ u ∈ after, (d.locate u.1).draft = d.locate w.1) →
        d'.file? (d.locate w.1) = none)) ∧
    (∀ l, (∀ w ∈ ws, d.locate w.1 ≠ l) →
      ((∀ w ∈ ws, (d.locate w.1).draft ≠ l) → d'.file? l = d.file? l) ∧
      ((∃ w ∈ ws, (d.locate w.1).draft = l) → d'.file? l = none)) ∧
    ∀ path l i, d'.find path = .ok (l, i) → l = d.locate path := by
  refine ⟨fun w hw => ?_, fun l hl => ⟨fun hl' => ?_, h.drafted hl⟩, fun path l i hf => ?_⟩
  · -- the last file with this target, from which on the place is only passed through
    obtain ⟨before, ⟨path, contents⟩, after, hws, hv, hafter⟩ :=
      exists_last (p := fun v => d.locate v.1 = d.locate w.1) ⟨w, hw, rfl⟩
    have hsplit : Published d (before ++ (path, contents) :: after) d' := hws ▸ h
    obtain ⟨d₁, hkeeps, htarget, hrest⟩ := hsplit.split
    rw [hv] at htarget
    have hafter' : ∀ u ∈ after, d₁.locate u.1 ≠ d.locate w.1 := fun u hu => by
      rw [hkeeps.locate]
      exact hafter u hu
    refine ⟨before, _, after, hws, hv, hafter, fun hsafe => ?_, fun ⟨u, hu, hlost⟩ => ?_⟩
    · refine readFile_of_leads (h.leads hw) ?_
      rw [h.keeps.locate, ← file?_eq_some_iff, ← htarget]
      refine hrest.untouched fun u hu => ⟨hafter' u hu, ?_⟩
      rw [hkeeps.locate]
      exact hsafe u hu
    · exact hrest.drafted hafter' ⟨u, hu, by rw [hkeeps.locate, hlost]⟩
  · exact h.untouched fun w hw => ⟨hl w hw, hl' w hw⟩
  · rw [(find_eq_ok hf).1, h.keeps.locate]

def withFile (path : String) : Disk := ⟨[([path], .file (encode "kept"))], []⟩

theorem published_files_twice :
    ∃ d', Published (withFile "b") [("a", "one"), ("./a", "two")] d' ∧
      d'.readFile "a" = .ok (encode "two") ∧ d'.file? ["b"] = some (encode "kept") := by
  have hp : Published (withFile "b") [("a", "one"), ("./a", "two")] _ :=
    .cons (by decide +kernel) (.cons (by decide +kernel) .nil)
  obtain ⟨hlast, hother, -⟩ := published_files hp
  refine ⟨_, hp, ?_, (hother ["b"] (by decide)).1 (by decide)⟩
  obtain ⟨before, v, after, hws, -, hafter, hread, -⟩ := hlast ("a", "one") List.mem_cons_self
  cases before with
  | nil =>
    cases hws
    exact absurd rfl (hafter ("./a", "two") List.mem_cons_self)
  | cons w before =>
    cases before with
    | nil =>
      cases hws
      exact hread nofun
    | cons w before => simp at hws

theorem published_over_draft :
    (∃ d', Published (withFile "a.tmp") [("a", "new")] d' ∧
      (withFile "a.tmp").locate "a" ≠ ["a.tmp"] ∧
      (withFile "a.tmp").file? ["a.tmp"] = some (encode "kept") ∧
      d'.file? ["a.tmp"] = none) ∧
    ∃ d', Published (withFile "b") [("a.tmp", "one"), ("a", "two")] d' ∧
      (withFile "b").locate "a" ≠ (withFile "b").locate "a.tmp" ∧
      d'.readFile "a.tmp" = .error .missing := by
  refine ⟨⟨_, .cons (by decide +kernel) .nil, by decide, rfl, by decide +kernel⟩, _,
    .cons (by decide +kernel) (.cons (by decide +kernel) .nil), by decide, by decide +kernel⟩

end Disk

end ModelBindings.Files
