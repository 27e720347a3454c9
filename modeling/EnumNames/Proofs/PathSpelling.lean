import EnumNames.Proofs.Lexemes
import EnumNames.Proofs.SourceDirectory
import Mathlib.Data.List.Forall2

/-!
Spellings of a directory. A path is normalised by walking along its components
with a stack of those that are kept. A component that stands for the same
directory, an empty one, and an ordinary one followed by a parent mark each leave
every stack as it is, so they may be put in wherever a component may start. Only
the slashes at the front of a path are not to be touched, since their number
tells where the walk starts.
-/

namespace EnumNames

open EnumNames.Text

namespace Text

/-- Nothing is dropped beyond a character that stays. -/
theorem dropEndWhile_append {p : Char → Bool} {cs ds : List Char}
    (h : ∀ c ∈ cs.getLast?, p c = false) :
    dropEndWhile p (cs ++ ds) = cs ++ dropEndWhile p ds := by
  have hstays : cs.reverse.dropWhile p = cs.reverse := by
    cases hcs : cs.reverse with
    | nil => rfl
    | cons c rest =>
        have hc := h c (by simp [← List.head?_reverse, hcs])
        exact List.dropWhile_cons_of_neg (by simp [hc])
  rw [dropEndWhile, List.reverse_append, List.dropWhile_append]
  split
  · next hnone =>
      rw [hstays, List.reverse_reverse, dropEndWhile, List.isEmpty_iff.1 hnone, List.reverse_nil,
        List.append_nil]
  · rw [List.reverse_append, List.reverse_reverse, dropEndWhile]

theorem dropEndWhile_eq_nil {p : Char → Bool} {cs : List Char} (h : cs.all p = true) :
    dropEndWhile p cs = [] := by
  rw [dropEndWhile, List.reverse_eq_nil_iff, List.dropWhile_eq_nil_iff]
  intro c hc
  exact List.all_eq_true.1 h c (List.mem_reverse.1 hc)

end Text

namespace Path

/-! ## Walking along components -/

/-- The components that are kept, last first, after going along a path from those kept before. -/
def walk (absolute : Bool) (kept : List (List Char)) (path : List Char) : List (List Char) :=
  (splitAt '/' path).foldl (keepPart absolute) kept

variable {absolute : Bool} {kept : List (List Char)}

theorem walk_append (before after : List Char) :
    walk absolute kept (before ++ '/' :: after) =
      walk absolute (walk absolute kept before) after := by
  rw [walk, splitAt_append_sep, List.foldl_append]
  rfl

theorem walk_part {part : List Char} (h : '/' ∉ part) :
    walk absolute kept part = keepPart absolute kept part := by
  rw [walk, splitAt_of_not_mem h]
  rfl

structure Ordinary (name : List Char) : Prop where
  ne_nil : name ≠ []
  ne_same : name ≠ ['.']
  ne_parent : name ≠ ['.', '.']
  slash : '/' ∉ name

inductive Idle : List Char → Prop
  | empty : Idle []
  | same : Idle ['.']
  | detour {name : List Char} (ordinary : Ordinary name) : Idle (name ++ ['/', '.', '.'])

/-- A name is taken back by the parent mark after it, whatever was kept before. -/
theorem keepPart_parent {name : List Char} (h : Ordinary name) :
    keepPart absolute (keepPart absolute kept name) ['.', '.'] = kept := by
  have hname : keepPart absolute kept name = name :: kept := by
    simp [keepPart, h.ne_nil, h.ne_same, h.ne_parent]
  rw [hname]
  simp [keepPart, h.ne_parent]

theorem Idle.walk_eq {mark : List Char} (h : Idle mark) : walk absolute kept mark = kept := by
  cases h with
  | empty => rfl
  | same => rfl
  | detour ordinary => rw [walk_append, walk_part ordinary.slash, walk_part (by decide),
      keepPart_parent ordinary]

/-! ## Leading slashes -/

/-- Of the slashes at the front only two are told from one. -/
theorem rootSlashes_slashes {slashes rest : List Char} (h : slashes.all (· == '/') = true)
    (hrest : rest.head? ≠ some '/') :
    rootSlashes (slashes ++ rest) = if 2 < slashes.length then 1 else slashes.length := by
  have hslashes : slashes = List.replicate slashes.length '/' :=
    List.eq_replicate_iff.2 ⟨rfl, fun c hc => by simpa using List.all_eq_true.1 h c hc⟩
  rw [hslashes, List.length_replicate]
  have hnone : ∀ more, rest ≠ '/' :: more := fun more heq => hrest (by rw [heq]; rfl)
  match slashes.length with
  | 0 | 1 | 2 => simp [List.replicate_succ, rootSlashes, hnone]
  | n + 3 => simp [List.replicate_succ, rootSlashes]

theorem rootSlashes_append {before : List Char} (h : before.all (· == '/') = false)
    (after : List Char) : rootSlashes (before ++ after) = rootSlashes before := by
  have hslashes : (before.takeWhile (· == '/')).all (· == '/') = true := List.all_takeWhile
  have hrest := List.head?_dropWhile_not (· == '/') before
  have hsplit := List.takeWhile_append_dropWhile (p := (· == '/')) (l := before)
  cases hdrop : before.dropWhile (· == '/') with
  | nil =>
      rw [List.dropWhile_eq_nil_iff, ← List.all_eq_true, h] at hdrop
      cases hdrop
  | cons c rest =>
      rw [hdrop] at hrest hsplit
      have hc : ∀ more, (c :: more).head? ≠ some '/' := fun more => by simpa using hrest
      rw [← hsplit, List.append_assoc, List.cons_append, rootSlashes_slashes hslashes (hc _),
        rootSlashes_slashes hslashes (hc _)]

/-! ## Paths of one meaning -/

/-- Paths that start at the same place and lead the same way. -/
structure Alike (path other : List Char) : Prop where
  root : rootSlashes path = rootSlashes other
  walk : ∀ absolute kept, walk absolute kept path = walk absolute kept other

theorem Alike.normalize_eq {path other : List Char} (h : Alike path other) :
    normalize path = normalize other := by
  have hwalk := h.walk (0 < rootSlashes other) []
  simp only [Path.walk] at hwalk
  simp only [normalize, h.root, hwalk]

/-- Slashes at the end lead nowhere else. -/
theorem walk_append_slashes (path : List Char) {slashes : List Char}
    (h : slashes.all (· == '/') = true) :
    walk absolute kept (path ++ slashes) = walk absolute kept path := by
  induction slashes generalizing path kept with
  | nil => rw [List.append_nil]
  | cons c slashes ih =>
      rw [List.all_cons, Bool.and_eq_true, beq_iff_eq] at h
      obtain ⟨rfl, hslashes⟩ := h
      rw [walk_append]
      exact (ih [] hslashes).trans Idle.empty.walk_eq

theorem alike_dropEndWhile {path : List Char} (h : path.all (· == '/') = false) :
    Alike (dropEndWhile (· == '/') path) path := by
  obtain ⟨⟨dropped, hdropped, hsplit⟩, _⟩ := dropEndWhile_spec (· == '/') path
  have hstays : (dropEndWhile (· == '/') path).all (· == '/') = false := by
    rw [hsplit, List.all_append, hdropped, Bool.and_true] at h
    exact h
  constructor
  · conv_rhs => rw [hsplit]
    rw [rootSlashes_append hstays]
  · intro absolute kept
    conv_rhs => rw [hsplit]
    rw [walk_append_slashes _ hdropped]

def upToSlash (path : List Char) : List Char := dropEndWhile (· != '/') path

/-- The slashes at the end of a directory do not matter for its normal form. -/
theorem normalize_directory (path : List Char) :
    normalize (directory path) = normalize (upToSlash path) := by
  unfold directory
  dsimp only
  split
  · rfl
  · next h => exact (alike_dropEndWhile (Bool.eq_false_iff.2 h)).normalize_eq

def StartsPart (before : List Char) : Prop := before = [] ∨ before.getLast? = some '/'

theorem upToSlash_append {before : List Char} (h : StartsPart before) (after : List Char) :
    upToSlash (before ++ after) = before ++ upToSlash after := by
  refine dropEndWhile_append fun c hc => ?_
  rcases h with rfl | hslash
  · cases hc
  · rw [hslash] at hc
    cases hc
    rfl

theorem upToSlash_of_not_mem {name : List Char} (h : '/' ∉ name) : upToSlash name = [] := by
  refine dropEndWhile_eq_nil (List.all_eq_true.2 fun c hc => bne_iff_ne.2 ?_)
  rintro rfl
  exact h hc

theorem walk_insert {before mark : List Char} (h : StartsPart before) (hmark : Idle mark)
    (after : List Char) :
    walk absolute kept (before ++ (mark ++ '/' :: after)) =
      walk absolute kept (before ++ after) := by
  rcases h with rfl | hslash
  · rw [List.nil_append, List.nil_append, walk_append, hmark.walk_eq]
  · obtain ⟨dir, rfl⟩ := List.getLast?_eq_some_iff.1 hslash
    rw [List.append_assoc, List.append_assoc, List.singleton_append, List.singleton_append,
      walk_append, walk_append, walk_append, hmark.walk_eq]

/-! ## Other spellings -/

/-- No slash at the front of a directory stands after this place. -/
def PastRoot (before after : List Char) : Prop :=
  before.all (· == '/') = false ∨ after.head? ≠ some '/'

/-- A directory with something put into it that leads nowhere else: past the slashes at its front
the component that stands for the same directory or a name with a parent mark, and past the first
name one more slash beside another. -/
inductive Respelled : List Char → List Char → Prop
  | same (before after : List Char) (past : PastRoot before after) (start : StartsPart before) :
      Respelled (before ++ after) (before ++ '.' :: '/' :: after)
  | detour (before name after : List Char) (past : PastRoot before after)
      (start : StartsPart before) (ordinary : Ordinary name) :
      Respelled (before ++ after) (before ++ (name ++ '/' :: '.' :: '.' :: '/' :: after))
  | slash (before after : List Char) (past : before.all (· == '/') = false)
      (beside : before.getLast? = some '/' ∨ after.head? = some '/') :
      Respelled (before ++ after) (before ++ '/' :: after)

theorem Idle.head?_ne {mark : List Char} (h : Idle mark) (rest : List Char) (hne : mark ≠ []) :
    (mark ++ rest).head? ≠ some '/' := by
  cases h with
  | empty => exact absurd rfl hne
  | same => simp
  | detour ordinary =>
      obtain ⟨c, cs, rfl⟩ := List.exists_cons_of_ne_nil ordinary.ne_nil
      intro hhead
      exact ordinary.slash (Option.some.inj hhead ▸ List.mem_cons_self)

theorem head?_upToSlash {after name : List Char} (h : after.head? ≠ some '/') (hname : '/' ∉ name) :
    (upToSlash (after ++ name)).head? ≠ some '/' := by
  obtain ⟨⟨dropped, _, hsplit⟩, _⟩ := dropEndWhile_spec (· != '/') (after ++ name)
  intro hhead
  have hfirst : (after ++ name).head? = some '/' := by
    rw [hsplit, List.head?_append, ← upToSlash, hhead]
    rfl
  cases after with
  | nil => exact hname (List.mem_of_mem_head? hfirst)
  | cons c after => exact h hfirst

theorem rootSlashes_insert {before mark after rest : List Char} (hmark : Idle mark)
    (hpast : before.all (· == '/') = false ∨ mark ≠ [] ∧ after.head? ≠ some '/') :
    rootSlashes (before ++ (mark ++ rest)) = rootSlashes (before ++ after) := by
  cases hbefore : before.all (· == '/') with
  | false => rw [rootSlashes_append hbefore, rootSlashes_append hbefore]
  | true =>
      obtain ⟨hne, hafter⟩ := hpast.resolve_left (by simp [hbefore])
      rw [rootSlashes_slashes hbefore (hmark.head?_ne rest hne), rootSlashes_slashes hbefore hafter]

/-- What leads nowhere else can be put in where a component starts. -/
theorem alike_insert (before after : List Char) {mark name : List Char} (hstart : StartsPart before)
    (hmark : Idle mark)
    (hpast : before.all (· == '/') = false ∨ mark ≠ [] ∧ after.head? ≠ some '/')
    (hname : '/' ∉ name) :
    Alike (upToSlash (before ++ (mark ++ '/' :: (after ++ name))))
      (upToSlash (before ++ (after ++ name))) := by
  have hinserted : StartsPart (before ++ mark ++ ['/']) := .inr (by simp)
  have htext : before ++ (mark ++ '/' :: (after ++ name)) =
      before ++ mark ++ ['/'] ++ (after ++ name) := by simp
  rw [htext, upToSlash_append hinserted, upToSlash_append hstart]
  simp only [List.append_assoc, List.singleton_append]
  refine ⟨rootSlashes_insert hmark ?_, fun absolute kept => walk_insert hstart hmark _⟩
  exact hpast.imp_right fun ⟨hne, hafter⟩ => ⟨hne, head?_upToSlash hafter hname⟩

/-- Spelling a directory differently keeps where it leads. -/
theorem Respelled.normalize_directory_eq {dir other name : List Char} (h : Respelled dir other)
    (hname : '/' ∉ name) :
    normalize (directory (other ++ name)) = normalize (directory (dir ++ name)) := by
  rw [normalize_directory, normalize_directory]
  refine Alike.normalize_eq ?_
  cases h with
  | same before after past start =>
      simpa using alike_insert before after start .same (past.imp_right (⟨by decide, ·⟩)) hname
  | detour before _ after past start ordinary =>
      simpa using alike_insert before after start (.detour ordinary)
        (past.imp_right (⟨by simp, ·⟩)) hname
  | slash before after past beside =>
      rcases beside with hslash | hslash
      · simpa using alike_insert before after (.inr hslash) .empty (.inl past) hname
      · -- The place after the slash gives the same text.
        obtain ⟨rest, rfl⟩ := List.head?_eq_some_iff.1 hslash
        have hnext : (before ++ ['/']).all (· == '/') = false := by simp [past]
        simpa using alike_insert (before ++ ['/']) rest (.inr (by simp)) .empty (.inl hnext) hname

/-! ## A file beside another -/

/-- A directory has no slash at its end, unless it has nothing else. -/
theorem getLast?_directory (path : List Char) :
    (directory path).all (· == '/') = true ∨ (directory path).getLast? ≠ some '/' := by
  unfold directory
  dsimp only
  split
  · next h => exact .inl h
  · right
    intro hslash
    obtain ⟨_, hlast⟩ := dropEndWhile_spec (· == '/') (dropEndWhile (· != '/') path)
    exact absurd (hlast '/' hslash) (by decide)

theorem directory_of_startsPart {dir name : List Char} (h : StartsPart dir) (hname : '/' ∉ name) :
    directory (dir ++ name) =
      if dir.all (· == '/') then dir else dropEndWhile (· == '/') dir := by
  have hhead : dropEndWhile (· != '/') (dir ++ name) = dir := by
    have happend := upToSlash_append h name
    rwa [upToSlash_of_not_mem hname, List.append_nil] at happend
  rw [directory, hhead]

/-- A file that is joined to the directory of a path is in that directory. -/
theorem directory_join {path name : List Char} (hname : '/' ∉ name) :
    directory (join (directory path) name) = directory path := by
  have hdir := getLast?_directory path
  generalize directory path = dir at hdir ⊢
  have habsolute : (name.head? == some '/') = false := by
    refine beq_eq_false_iff_ne.2 fun hhead => ?_
    exact hname (List.mem_of_mem_head? hhead)
  rw [join, habsolute, if_neg Bool.false_ne_true]
  by_cases hslash : dir.getLast? = some '/'
  · have hall : dir.all (· == '/') = true := hdir.resolve_right (not_not.2 hslash)
    rw [if_pos (by simp [hslash]), directory_of_startsPart (.inr hslash) hname, if_pos hall]
  by_cases hnil : dir = []
  · subst hnil
    rw [if_pos (by decide), directory_of_startsPart (.inl rfl) hname, if_pos (by decide)]
  · rw [if_neg (by simp [hslash, hnil])]
    have hall : dir.all (· == '/') = false := by
      refine Bool.eq_false_iff.2 fun hall => hslash ?_
      rw [List.getLast?_eq_some_getLast hnil]
      simpa using List.all_eq_true.1 hall _ (List.getLast_mem hnil)
    have htext : dir ++ '/' :: name = (dir ++ ['/']) ++ name := by simp
    rw [htext, directory_of_startsPart (.inr (by simp)) hname, if_neg (by simp [hall]),
      dropEndWhile_append, dropEndWhile_eq_nil (by decide), List.append_nil]
    intro c hc
    refine beq_eq_false_iff_ne.2 ?_
    rintro rfl
    exact hslash hc

end Path

/-! ## Lower-casing -/

namespace Text

theorem ne_slash_of_ofNat {n : Nat} (h : 47 < n) : Char.ofNat n ≠ '/' := by
  intro heq
  by_cases hvalid : n.isValidChar
  · rw [Char.ofNat, dif_pos hvalid] at heq
    have hvalue : n = 47 := congrArg Char.toNat heq
    omega
  · rw [Char.ofNat, dif_neg hvalid] at heq
    cases heq

/-- Only a slash is lower-cased to a slash. -/
theorem slash_not_mem_lowerAt {before after : List Char} {c : Char} (h : c ≠ '/') :
    '/' ∉ lowerAt before c after := by
  unfold lowerAt
  split
  · next hascii =>
      have hlower := passes_of_ascii (p := fun c => c == '/' || c.toLower != '/')
        (by decide +kernel) hascii
      rw [Bool.or_eq_true, beq_iff_eq, bne_iff_ne] at hlower
      rw [List.mem_singleton]
      exact fun heq => hlower.resolve_left h heq.symm
  split
  · split <;> decide
  split
  · decide
  · rw [List.mem_singleton]
    cases hfound : wideCapitals.findSome? (·.lower? c) with
    | none => exact fun heq => h heq.symm
    | some d =>
        obtain ⟨run, hrun, hd⟩ := List.exists_of_findSome?_eq_some hfound
        have hsmall : wideCapitals.all (fun run => decide (47 < run.small)) = true := by
          decide +kernel
        have hlow := of_decide_eq_true (List.all_eq_true.1 hsmall run hrun)
        unfold CapitalRun.lower? at hd
        split at hd
        · cases hd
          exact fun heq => ne_slash_of_ofNat (by omega) heq.symm
        · cases hd

theorem slash_not_mem_lowerFrom {before cs : List Char} (h : '/' ∉ cs) :
    '/' ∉ lowerFrom before cs := by
  induction cs generalizing before with
  | nil => exact List.not_mem_nil
  | cons c cs ih =>
      rw [List.mem_cons, not_or] at h
      rw [lowerFrom, List.mem_append, not_or]
      exact ⟨slash_not_mem_lowerAt (Ne.symm h.1), ih h.2⟩

end Text

/-! ## The check and the output -/

namespace Options

def Problem.unnamed : Problem → Problem
  | .scattered _ firstDir _ otherDir => .scattered "" firstDir "" otherDir
  | p => p

structure Equated (file other : String) : Prop where
  isEmpty : file.isEmpty = other.isEmpty
  directory : directoryOf file = directoryOf other

theorem Equated.refl (file : String) : Equated file file := ⟨rfl, rfl⟩

theorem equated_of_respelled {dir other name : List Char} (h : Path.Respelled dir other)
    (hne : name ≠ []) (hslash : '/' ∉ name) :
    Equated (String.ofList (dir ++ name)) (String.ofList (other ++ name)) := by
  have hnamed : ∀ cs : List Char, (String.ofList (cs ++ name)).isEmpty = false := by
    intro cs
    simp [hne]
  refine ⟨(hnamed dir).trans (hnamed other).symm, ?_⟩
  rw [directoryOf, directoryOf, String.toList_ofList, String.toList_ofList,
    h.normalize_directory_eq hslash]

theorem checkDirectories_equated {files others : List String}
    (h : List.Forall₂ Equated files others) {first other : String}
    (hfirst : first.isEmpty = other.isEmpty) (dir : String) :
    (checkDirectories first dir files).mapError Problem.unnamed =
      (checkDirectories other dir others).mapError Problem.unnamed := by
  induction h generalizing first other dir with
  | nil => rfl
  | cons hfile _ ih =>
      rw [checkDirectories, checkDirectories, hfirst, hfile.directory]
      split
      · exact ih hfile.isEmpty _
      split
      · exact ih hfirst dir
      · rfl

theorem check_equated {o : Options} {files others : List String}
    (h : List.Forall₂ Equated files others) :
    ({ o with files := files }.check).mapError Problem.unnamed =
      ({ o with files := others }.check).mapError Problem.unnamed := by
  have hempty : files.isEmpty = others.isEmpty := by
    cases h with
    | nil => rfl
    | cons _ _ => rfl
  simp only [check, hempty]
  split
  · rfl
  split
  · rfl
  · exact checkDirectories_equated h rfl ""

theorem slash_not_mem_outputName {type : String} (h : '/' ∉ type.toList) :
    '/' ∉ (lowercase type ++ "_string.go").toList := by
  rw [String.toList_append, List.mem_append, not_or, lowercase, String.toList_ofList]
  exact ⟨slash_not_mem_lowerFrom h, by decide⟩

/-- An output without a name of its own is in the directory of the first file. -/
theorem directoryOf_destination {o : Options} {first : String} {files : List String}
    (hfiles : o.files = first :: files) (houtput : o.output = "") (htype : '/' ∉ o.type.toList) :
    directoryOf o.destination = directoryOf first := by
  have hdestination : o.destination = String.ofList (Path.join (Path.directory first.toList)
      (lowercase o.type ++ "_string.go").toList) := by
    rw [destination, if_pos (by simp [houtput]), sourceDirectory, hfiles]
    dsimp only
    rw [String.toList_ofList]
  rw [hdestination, directoryOf, String.toList_ofList,
    Path.directory_join (slash_not_mem_outputName htype), directoryOf]

/-- Spelling the directory of a file differently changes nothing about the verdict but the name of
the file in a report. The output of an accepted run that names none is in the directory of the
first file. -/
theorem spelling_keeps_verdict (o : Options) :
    (∀ (before after : List String) (dir other name : List Char),
      o.files = before ++ String.ofList (dir ++ name) :: after →
      name ≠ [] → '/' ∉ name → Path.Respelled dir other →
      ({ o with files := before ++ String.ofList (other ++ name) :: after }.check).mapError
        Problem.unnamed = o.check.mapError Problem.unnamed) ∧
    (o.check = .ok () → o.output = "" → '/' ∉ o.type.toList →
      ∃ first, o.files.head? = some first ∧ directoryOf o.destination = directoryOf first) := by
  constructor
  · intro before after dir other name hfiles hne hslash hspelled
    have hequated : List.Forall₂ Equated (before ++ String.ofList (dir ++ name) :: after)
        (before ++ String.ofList (other ++ name) :: after) :=
      List.rel_append (List.forall₂_same.2 fun file _ => .refl file)
        (.cons (equated_of_respelled hspelled hne hslash)
          (List.forall₂_same.2 fun file _ => .refl file))
    rw [← check_equated hequated, ← hfiles]
  · intro haccepted houtput htype
    obtain ⟨_, hfiles, _⟩ := (check_ok_iff o).1 haccepted
    obtain ⟨first, files, hfirst⟩ := List.exists_cons_of_ne_nil hfiles
    exact ⟨first, by rw [hfirst]; rfl, directoryOf_destination hfirst houtput htype⟩

/-- A detour below `pkg`, and the output of the same files. -/
theorem detour_keeps_verdict :
    ({ type := "Hue", files := ["pkg/sub/a.go", "pkg/x/../sub/b.go"] } : Options).check.mapError
        Problem.unnamed =
      ({ type := "Hue", files := ["pkg/sub/a.go", "pkg/sub/b.go"] } : Options).check.mapError
        Problem.unnamed ∧
      ∃ first, ["pkg/sub/a.go", "pkg/sub/b.go"].head? = some first ∧
        directoryOf ({ type := "Hue", files := ["pkg/sub/a.go", "pkg/sub/b.go"] } :
          Options).destination = directoryOf first := by
  obtain ⟨hspelling, houtput⟩ := spelling_keeps_verdict
    { type := "Hue", files := ["pkg/sub/a.go", "pkg/sub/b.go"] }
  have hdetour : Path.Respelled "pkg/sub/".toList "pkg/x/../sub/".toList :=
    .detour "pkg/".toList ['x'] "sub/".toList (.inl (by decide)) (.inr (by decide))
      ⟨by decide, by decide, by decide, by decide⟩
  exact ⟨hspelling ["pkg/sub/a.go"] [] "pkg/sub/".toList "pkg/x/../sub/".toList "b.go".toList rfl
    (by decide) (by decide) hdetour, houtput rfl rfl (by decide)⟩

end Options
end EnumNames
