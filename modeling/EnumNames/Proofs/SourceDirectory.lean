import EnumNames.Options
import Mathlib.Data.List.TakeWhile
import Mathlib.Tactic.ByContra

/-!
The directory check. Every file is compared with the first one that has a name,
so the check does what it is for as long as the first file has one: it accepts
exactly the files of one directory, whatever their order. Nameless files at the
front are passed over, and with them the check accepts files of two directories.
-/

namespace EnumNames.Options

def OneDirectory (files : List String) : Prop :=
  ∀ file ∈ files, ∀ other ∈ files, directoryOf file = directoryOf other

theorem oneDirectory_cons {first : String} {files : List String} :
    OneDirectory (first :: files) ↔ ∀ file ∈ files, directoryOf file = directoryOf first := by
  constructor
  · intro h file hfile
    exact h file (List.mem_cons_of_mem first hfile) first List.mem_cons_self
  · intro h
    have hfirst : ∀ file ∈ first :: files, directoryOf file = directoryOf first := by
      intro file hfile
      rcases List.mem_cons.1 hfile with rfl | hfile
      · rfl
      · exact h file hfile
    exact fun file hfile other hother => (hfirst file hfile).trans (hfirst other hother).symm

theorem OneDirectory.mono {files fewer : List String} (h : OneDirectory files)
    (hsub : ∀ file ∈ fewer, file ∈ files) : OneDirectory fewer :=
  fun file hfile other hother => h file (hsub file hfile) other (hsub other hother)

/-- Files without a name are in the current directory. -/
theorem directoryOf_empty : directoryOf "" = "." := by decide +kernel

/-! ## The loop -/

/-- After a file with a name, the first file of another directory is reported. -/
theorem checkDirectories_named {first : String} (hfirst : first ≠ "") (dir : String)
    (files : List String) :
    checkDirectories first dir files =
      match files.find? (directoryOf · != dir) with
      | none => .ok ()
      | some file => .error (.scattered first dir file (directoryOf file)) := by
  have hname : first.isEmpty = false := by simpa using hfirst
  induction files with
  | nil => rfl
  | cons file files ih =>
      rw [checkDirectories, List.find?_cons, hname]
      cases hdir : directoryOf file == dir with
      | true => simpa [bne, hdir] using ih
      | false => simp [bne, hdir]

/-- Before a file with a name, nothing is compared. -/
theorem checkDirectories_nameless (dir : String) (files : List String) :
    checkDirectories "" dir files =
      match files.dropWhile (·.isEmpty) with
      | [] => .ok ()
      | first :: rest => checkDirectories first (directoryOf first) rest := by
  induction files generalizing dir with
  | nil => rfl
  | cons file files ih =>
      have hnext : checkDirectories "" dir (file :: files) =
          checkDirectories file (directoryOf file) files := rfl
      rw [hnext]
      by_cases hname : file = ""
      · subst hname
        exact ih (directoryOf "")
      · rw [List.dropWhile_cons_of_neg (by simpa using hname)]

theorem checkDirectories_ok_iff (dir : String) (files : List String) :
    checkDirectories "" dir files = .ok () ↔ OneDirectory (files.dropWhile (·.isEmpty)) := by
  rw [checkDirectories_nameless]
  cases hnamed : files.dropWhile (·.isEmpty) with
  | nil => exact ⟨fun _ _ hfile => absurd hfile List.not_mem_nil, fun _ => rfl⟩
  | cons first rest =>
      have hfirst : first ≠ "" := by
        have hhead := List.head?_dropWhile_not (·.isEmpty) files
        rw [hnamed] at hhead
        simpa using hhead
      dsimp only
      rw [checkDirectories_named hfirst, oneDirectory_cons]
      cases hfind : rest.find? (directoryOf · != directoryOf first) with
      | none => simpa using hfind
      | some file =>
          have hfile := List.mem_of_find?_eq_some hfind
          have hne := List.find?_some hfind
          simp only [reduceCtorEq, false_iff]
          intro h
          simp [h file hfile] at hne

/-! ## The check -/

theorem check_ok_iff (o : Options) :
    o.check = .ok () ↔
      o.type ≠ "" ∧ o.files ≠ [] ∧ OneDirectory (o.files.dropWhile (·.isEmpty)) := by
  unfold check
  by_cases htype : o.type = ""
  · simp [htype]
  by_cases hfiles : o.files = []
  · simp [htype, hfiles]
  · simp [htype, hfiles, checkDirectories_ok_iff]

/-- Nothing is passed over when the first file has a name. -/
theorem dropWhile_of_named {files : List String} (h : files.head? ≠ some "") :
    files.dropWhile (·.isEmpty) = files := by
  cases files with
  | nil => rfl
  | cons file files =>
      have hname : file ≠ "" := fun heq => h (congrArg some heq)
      exact List.dropWhile_cons_of_neg (by simpa using hname)

theorem eq_empty_or_mem_dropWhile {file : String} {files : List String} (h : file ∈ files) :
    file = "" ∨ file ∈ files.dropWhile (·.isEmpty) := by
  rw [← List.takeWhile_append_dropWhile (p := (·.isEmpty)) (l := files)] at h
  rcases List.mem_append.1 h with hskipped | hnamed
  · exact .inl (by simpa using List.mem_takeWhile_imp hskipped)
  · exact .inr hnamed

/-- Passing over nameless files hides a second directory only if the named ones are in another
directory than the current one. -/
theorem not_oneDirectory_iff {files : List String}
    (h : OneDirectory (files.dropWhile (·.isEmpty))) :
    ¬ OneDirectory files ↔
      files.head? = some "" ∧ ∃ file ∈ files.dropWhile (·.isEmpty), directoryOf file ≠ "." := by
  constructor
  · intro hscattered
    have hhead : files.head? = some "" := by
      by_contra hnamed
      rw [dropWhile_of_named hnamed] at h
      exact hscattered h
    refine ⟨hhead, ?_⟩
    by_contra hnone
    have hcurrent : ∀ file ∈ files, directoryOf file = "." := by
      intro file hfile
      rcases eq_empty_or_mem_dropWhile hfile with rfl | hnamed
      · exact directoryOf_empty
      · by_contra hne
        exact hnone ⟨file, hnamed, hne⟩
    exact hscattered fun file hfile other hother =>
      (hcurrent file hfile).trans (hcurrent other hother).symm
  · rintro ⟨hhead, file, hfile, hne⟩ hone
    have hempty := hone file ((List.dropWhile_suffix _).subset hfile) ""
      (List.mem_of_mem_head? hhead)
    exact hne (hempty.trans directoryOf_empty)

/-- The check accepts a type and files that are in one directory from the first named file on. So
it accepts files of several directories exactly when nameless files stand before files of one
directory that is not the current one. Unless the first file is nameless, it accepts exactly the
files of one directory, and their order and repetitions do not matter. -/
theorem directories_compared_with_first_named (o : Options) :
    (o.check = .ok () ↔
      o.type ≠ "" ∧ o.files ≠ [] ∧ OneDirectory (o.files.dropWhile (·.isEmpty))) ∧
    (o.check = .ok () ∧ ¬ OneDirectory o.files ↔
      o.type ≠ "" ∧ OneDirectory (o.files.dropWhile (·.isEmpty)) ∧ o.files.head? = some "" ∧
        ∃ file ∈ o.files.dropWhile (·.isEmpty), directoryOf file ≠ ".") ∧
    (o.files.head? ≠ some "" →
      (o.check = .ok () ↔ o.type ≠ "" ∧ o.files ≠ [] ∧ OneDirectory o.files) ∧
      ∀ files : List String, files.head? ≠ some "" → (∀ file, file ∈ files ↔ file ∈ o.files) →
        ({ o with files }.check = .ok () ↔ o.check = .ok ())) := by
  refine ⟨check_ok_iff o, ?_, fun hnamed => ?_⟩
  · rw [check_ok_iff]
    constructor
    · rintro ⟨⟨htype, _, hone⟩, hscattered⟩
      exact ⟨htype, hone, (not_oneDirectory_iff hone).1 hscattered⟩
    · rintro ⟨htype, hone, hhead, hother⟩
      refine ⟨⟨htype, ?_, hone⟩, (not_oneDirectory_iff hone).2 ⟨hhead, hother⟩⟩
      exact fun hnil => absurd (hnil ▸ hhead) (by simp)
  · refine ⟨by rw [check_ok_iff, dropWhile_of_named hnamed], fun files hfirst hsame => ?_⟩
    rw [check_ok_iff, check_ok_iff, dropWhile_of_named hnamed, dropWhile_of_named hfirst]
    have hone : OneDirectory files ↔ OneDirectory o.files :=
      ⟨fun h => h.mono fun file => (hsame file).2, fun h => h.mono fun file => (hsame file).1⟩
    have hempty : files ≠ [] ↔ o.files ≠ [] := by
      simp only [ne_eq, List.eq_nil_iff_forall_not_mem, hsame]
    rw [hone, hempty]

/-- Two spellings of one directory, in another order and repeated. -/
theorem repeated_files_accepted :
    ({ type := "T", files := ["pkg/sub/../a.go", "pkg/.//b.go"] } : Options).check = .ok () ∧
      ({ type := "T", files := ["pkg/.//b.go", "pkg/sub/../a.go", "pkg/.//b.go"] } :
        Options).check = .ok () := by
  have hdir : directoryOf "pkg/.//b.go" = directoryOf "pkg/sub/../a.go" := by decide +kernel
  obtain ⟨_, _, hnamed⟩ := directories_compared_with_first_named
    { type := "T", files := ["pkg/sub/../a.go", "pkg/.//b.go"] }
  obtain ⟨haccepted, hreordered⟩ := hnamed (by decide)
  have hcheck := haccepted.2 ⟨by decide, by decide, oneDirectory_cons.2 (by simpa using hdir)⟩
  refine ⟨hcheck, (hreordered _ (by decide) fun file => ?_).2 hcheck⟩
  simp only [List.mem_cons, List.not_mem_nil, or_false]
  constructor
  · rintro (h | h | h)
    · exact .inr h
    · exact .inl h
    · exact .inr h
  · rintro (h | h)
    · exact .inr (.inl h)
    · exact .inl h

/-- A nameless file before a file of another directory is accepted, and after it is refused. -/
theorem nameless_file_hides_directory :
    ({ type := "T", files := ["", "x/a.go"] } : Options).check = .ok () ∧
      directoryOf "" ≠ directoryOf "x/a.go" ∧
      ({ type := "T", files := ["x/a.go", ""] } : Options).check =
        .error (.scattered "x/a.go" "x" "" ".") :=
  ⟨rfl, by decide +kernel, rfl⟩

end EnumNames.Options
