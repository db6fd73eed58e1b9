import Mathlib.Data.List.TakeWhile
import ModelBindings.Files.Publish

/-!
Where a path leads, read off its text: as there are no links, this needs no disk but for the place
that relative paths start from. A draft stands in the directory of its file.
-/

namespace ModelBindings.Files

def Location.enter (l : Location) (name : String) : Location :=
  if name = "." then l else if name = ".." then l.dropLast else l ++ [name]

def Location.follow (l : Location) (names : List String) : Location :=
  names.foldl Location.enter l

def Location.draft (l : Location) : Location :=
  match l.getLast? with
  | some name => l.dropLast ++ [name ++ ".tmp"]
  | none => []

def startOf (home : Location) (cs : List Char) : Location :=
  if cs.head? = some '/' then [] else home

def leadsTo (home : Location) (cs : List Char) : Location :=
  (startOf home cs).follow (namesFrom [] cs)

def Disk.locate (d : Disk) (path : String) : Location :=
  leadsTo d.home path.toList

theorem Disk.locate_congr {d d' : Disk} (h : d'.home = d.home) (path : String) :
    d'.locate path = d.locate path := by
  rw [locate, locate, h]

namespace Location

variable {l : Location} {name : String}

@[simp] theorem follow_nil (l : Location) : l.follow [] = l := rfl

@[simp] theorem follow_cons (l : Location) (name : String) (names : List String) :
    l.follow (name :: names) = (l.enter name).follow names := rfl

theorem follow_append (l : Location) (names names' : List String) :
    l.follow (names ++ names') = (l.follow names).follow names' :=
  List.foldl_append

@[simp] theorem enter_dot (l : Location) : l.enter "." = l := rfl

theorem enter_of_ne (h : name ≠ ".") (h' : name ≠ "..") : l.enter name = l ++ [name] := by
  rw [enter, if_neg h, if_neg h']

theorem draft_append (l : Location) (name : String) :
    draft (l ++ [name]) = l ++ [name ++ ".tmp"] := by
  simp [draft]

end Location

section Names

theorem namesFrom_append_slash (name cs ds : List Char) :
    namesFrom name (cs ++ '/' :: ds) = namesFrom name cs ++ namesFrom [] ds := by
  induction cs generalizing name with
  | nil => cases name <;> simp [namesFrom]
  | cons c cs ih =>
    by_cases hc : c = '/'
    · cases name <;> simp [namesFrom, hc, ih]
    · simp [namesFrom, hc, ih]

theorem namesFrom_plain {cs : List Char} (h : '/' ∉ cs) (name : List Char)
    (hne : name.reverse ++ cs ≠ []) :
    namesFrom name cs = [String.ofList (name.reverse ++ cs)] := by
  induction cs generalizing name with
  | nil =>
    have hname : name ≠ [] := by simpa using hne
    simp [namesFrom, hname]
  | cons c cs ih =>
    rw [List.mem_cons, not_or] at h
    rw [namesFrom, if_neg (Ne.symm h.1), ih h.2 (c :: name) (by simp)]
    simp

/-- The text is given from its end on, as `dropIdle` leaves it. -/
theorem namesFrom_reverse {t u : List Char} (ht : '/' ∉ t) (hne : t ≠ [])
    (hu : u = [] ∨ u.head? = some '/') :
    namesFrom [] (t ++ u).reverse = namesFrom [] u.reverse ++ [String.ofList t.reverse] := by
  have hname : namesFrom [] t.reverse = [String.ofList t.reverse] :=
    namesFrom_plain (by simpa using ht) [] (by simpa using hne)
  rcases hu with rfl | hu
  · simp [namesFrom, hname]
  · obtain ⟨u, rfl⟩ := List.head?_eq_some_iff.mp hu
    simp [namesFrom_append_slash, namesFrom, hname]

end Names

section Idle

theorem dropIdle_suffix (cs : List Char) : dropIdle cs <:+ cs := by
  fun_induction dropIdle cs with
  | case1 cs ih => exact ih.trans (List.suffix_cons _ _)
  | case2 => exact List.nil_suffix
  | case3 cs ih => exact (ih.trans (List.suffix_cons _ _)).trans (List.suffix_cons _ _)
  | case4 cs => exact List.suffix_refl cs

theorem follow_dropIdle (l : Location) (cs : List Char) :
    l.follow (namesFrom [] (dropIdle cs).reverse) = l.follow (namesFrom [] cs.reverse) := by
  fun_induction dropIdle cs with
  | case1 cs ih => simp [ih, namesFrom_append_slash, namesFrom]
  | case2 => rfl
  | case3 cs ih =>
    have hdot : namesFrom [] ['.'] = ["."] := rfl
    simp [ih, namesFrom_append_slash, hdot, Location.follow_append]
  | case4 => rfl

theorem takeWhile_dropIdle (cs : List Char) :
    (dropIdle cs).takeWhile (· ≠ '/') ≠ ['.'] ∧
      (dropIdle cs ≠ [] → (dropIdle cs).takeWhile (· ≠ '/') ≠ []) := by
  fun_induction dropIdle cs with
  | case1 cs ih => exact ih
  | case2 => simp
  | case3 cs ih => exact ih
  | case4 cs hslash hdot hdots =>
    cases cs with
    | nil => simp
    | cons c cs =>
      have hc : c ≠ '/' := fun h => hslash cs (by rw [h])
      refine ⟨fun h => ?_, by simp [hc]⟩
      simp only [hc, ne_eq, not_false_eq_true, decide_true, List.takeWhile_cons_of_pos,
        List.cons.injEq] at h
      obtain ⟨rfl, hnil⟩ := h
      cases cs with
      | nil => exact hdot rfl
      | cons c cs =>
        by_cases hslash : c = '/'
        · exact hdots cs (by rw [hslash])
        · simp [hslash] at hnil

end Idle

section Anchor

theorem splitAnchor_cases (cs : List Char) :
    (∃ body, cs = '/' :: body ∧ splitAnchor cs = (['/'], body)) ∨
    (∃ body, cs = '.' :: body ∧ (body = [] ∨ body.head? = some '/') ∧
      splitAnchor cs = (['.'], body)) ∨
    (cs.head? ≠ some '/' ∧ splitAnchor cs = ([], cs)) := by
  fun_cases splitAnchor cs with
  | case1 cs => exact .inl ⟨cs, rfl, rfl⟩
  | case2 => exact .inr (.inl ⟨[], rfl, .inl rfl, rfl⟩)
  | case3 cs => exact .inr (.inl ⟨'/' :: cs, rfl, .inr rfl, rfl⟩)
  | case4 cs hslash hdot hdots =>
    refine .inr (.inr ⟨fun h => ?_, rfl⟩)
    obtain ⟨cs, rfl⟩ := List.head?_eq_some_iff.mp h
    exact hslash cs rfl

variable {cs t : List Char}

theorem leadsTo_anchor (home : Location) (ht : t <+: (splitAnchor cs).2) :
    leadsTo home ((splitAnchor cs).1 ++ t) = (startOf home cs).follow (namesFrom [] t) := by
  obtain ⟨body, rfl, ha⟩ | ⟨body, rfl, hbody, ha⟩ | ⟨hcs, ha⟩ := splitAnchor_cases cs
  · rw [ha]
    rfl
  · rw [ha] at ht ⊢
    have hnames : namesFrom [] ('.' :: t) = "." :: namesFrom [] t := by
      cases t with
      | nil => rfl
      | cons c t =>
        obtain ⟨u, rfl⟩ : c :: t <+: body := ht
        have hc : c = '/' := by simpa using hbody
        rw [hc]
        rfl
    rw [leadsTo, startOf, startOf, List.singleton_append, hnames]
    rfl
  · rw [ha] at ht ⊢
    have hstart : startOf home t = startOf home cs := by
      cases t with
      | nil => simp [startOf, hcs]
      | cons c t =>
        obtain ⟨u, rfl⟩ := ht
        rfl
    rw [List.nil_append, leadsTo, hstart]

end Anchor

theorem splitAnchor_append (cs : List Char) :
    (splitAnchor cs).1 ++ (splitAnchor cs).2 = cs := by
  obtain ⟨body, rfl, ha⟩ | ⟨body, rfl, -, ha⟩ | ⟨-, ha⟩ := splitAnchor_cases cs <;> rw [ha] <;> rfl

section Split

variable {path name : String} {s : Split}

/-- The name `t` and what stands before it, both from the end on. -/
theorem split?_eq_some (h : split? path = some s) :
    ∃ t u, dropIdle (splitAnchor path.toList).2.reverse = t ++ u ∧
      '/' ∉ t ∧ t ≠ [] ∧ t ≠ ['.'] ∧ (u = [] ∨ u.head? = some '/') ∧
      s.name = String.ofList t.reverse ∧
      s.directory = String.ofList ((splitAnchor path.toList).1 ++ (dropIdle u).reverse) := by
  simp only [split?] at h
  obtain ⟨hdot, hends⟩ := takeWhile_dropIdle (splitAnchor path.toList).2.reverse
  generalize dropIdle (splitAnchor path.toList).2.reverse = cs at h hdot hends
  cases cs with
  | nil => cases h
  | cons c cs =>
    cases h
    refine ⟨_, _, List.takeWhile_append_dropWhile.symm, fun hslash => ?_, hends nofun, hdot, ?_,
      rfl, rfl⟩
    · simpa using List.mem_takeWhile_imp hslash
    · have hhead := List.head?_dropWhile_not (· ≠ '/') (c :: cs)
      cases hu : (c :: cs).dropWhile (· ≠ '/') with
      | nil => exact .inl rfl
      | cons c' u =>
        rw [hu] at hhead
        exact .inr (by simpa using hhead)

theorem locate_split (d : Disk) (h : split? path = some s) :
    d.locate path = (d.locate s.directory).enter s.name := by
  obtain ⟨t, u, hcs, ht, hne, -, hu, hname, hdir⟩ := split?_eq_some h
  have hprefix : (dropIdle u).reverse <+: (splitAnchor path.toList).2 := by
    have hsuffix : t ++ u <:+ (splitAnchor path.toList).2.reverse := hcs ▸ dropIdle_suffix _
    have hall := ((dropIdle_suffix u).trans (List.suffix_append t u)).trans hsuffix
    simpa using List.reverse_prefix.mpr hall
  have hlast := follow_dropIdle (startOf d.home path.toList) (splitAnchor path.toList).2.reverse
  rw [hcs, namesFrom_reverse ht hne hu, List.reverse_reverse, Location.follow_append] at hlast
  have hpath := leadsTo_anchor d.home (List.prefix_refl (splitAnchor path.toList).2)
  rw [splitAnchor_append, ← hlast] at hpath
  rw [Disk.locate, Disk.locate, hdir, String.toList_ofList, leadsTo_anchor d.home hprefix,
    follow_dropIdle, hpath, hname]
  rfl

theorem startOf_append (home : Location) {cs : List Char} (h : cs ≠ []) (t : List Char) :
    startOf home (cs ++ t) = startOf home cs := by
  rw [startOf, startOf, List.head?_append, List.head?_eq_some_head h, Option.some_or]

theorem locate_join (d : Disk) (directory : String) (hs : '/' ∉ name.toList) (hn : name ≠ "") :
    d.locate (join directory name) = (d.locate directory).enter name := by
  have hname : namesFrom [] name.toList = [name] := by
    simpa using namesFrom_plain hs [] (by simpa using hn)
  rw [Disk.locate, Disk.locate, leadsTo, leadsTo, join]
  split
  · rename_i hdir
    have hstart : startOf d.home name.toList = d.home :=
      if_neg fun h => hs (List.mem_of_mem_head? h)
    rw [hdir, hname, hstart]
    rfl
  · rename_i hdir
    have hne : directory.toList ≠ [] := by simpa using hdir
    split
    · rename_i hlast
      obtain ⟨cs, hcs⟩ := List.getLast?_eq_some_iff.mp hlast
      rw [String.toList_append, startOf_append d.home hne, hcs, List.append_assoc,
        List.singleton_append, namesFrom_append_slash, namesFrom_append_slash, hname,
        Location.follow_append, Location.follow_append]
      rfl
    · rw [String.toList_append, String.toList_append, List.append_assoc,
        startOf_append d.home hne, show "/".toList = ['/'] from rfl, List.singleton_append,
        namesFrom_append_slash, hname, Location.follow_append]
      rfl

theorem name_split (h : split? path = some s) :
    '/' ∉ s.name.toList ∧ s.name ≠ "" ∧ s.name ≠ "." := by
  obtain ⟨t, u, -, ht, hne, hdot, -, hname, -⟩ := split?_eq_some h
  rw [hname]
  refine ⟨by simpa using ht, by simpa using hne, fun h => hdot ?_⟩
  have hrev : t.reverse = ['.'] := String.ofList_inj.mp h
  simpa using congrArg List.reverse hrev

theorem locate_draftPath (d : Disk) (h : fileName? path = some name) :
    d.locate (Disk.draftPath path name) = (d.locate path).draft ∧
      (d.locate path).draft ≠ d.locate path := by
  rw [fileName?] at h
  cases hs : split? path with
  | none => simp [hs] at h
  | some s =>
    obtain ⟨hslash, hne, hdot⟩ := name_split hs
    simp only [hs, Option.ite_none_left_eq_some, Option.some.injEq] at h
    obtain ⟨hup, rfl⟩ := h
    have hlong : 4 ≤ (s.name ++ ".tmp").length := by
      rw [String.length_append]
      exact Nat.le_add_left 4 _
    have hlocate : d.locate path = d.locate s.directory ++ [s.name] := by
      rw [locate_split d hs, Location.enter_of_ne hdot hup]
    rw [hlocate, Location.draft_append]
    refine ⟨?_, by simp⟩
    rw [Disk.draftPath, parent?, hs, Option.getD_some, locate_join, Location.enter_of_ne]
    · exact fun h => absurd hlong (by rw [h]; decide)
    · exact fun h => absurd hlong (by rw [h]; decide)
    · simpa using hslash
    · exact fun h => absurd hlong (by rw [h]; decide)

end Split

end ModelBindings.Files
