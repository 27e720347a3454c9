import EnumNames.CommandLine
import EnumNames.Proofs.Sequencing

/-!
Output in one step. The text of a run is written beside its destination and
moved there when it is complete. So at every step the destination has its old
content or the whole new one, and a run that fails leaves the file system as it
found it, whichever step the system fails. This holds of paths without null
characters and of texts that have an encoding; without that the temporary file
is left behind.
-/

namespace EnumNames

/-! ## Files of a tree -/

namespace FileTree

variable {t : FileTree} {p q : Place} {f : StoredFile}

theorem lookup_filter_ne (files : List (Place × StoredFile)) (h : q ≠ p) :
    (files.filter (·.1 != p)).lookup q = files.lookup q := by
  induction files with
  | nil => rfl
  | cons entry files ih =>
      obtain ⟨r, g⟩ := entry
      by_cases hr : r = p
      · subst hr
        simp [ih, List.lookup_cons, beq_false_of_ne h]
      · simp [hr, List.lookup_cons, ih]

theorem file?_put (t : FileTree) (p : Place) (f : StoredFile) (q : Place) :
    (t.put p f).file? q = if q = p then some f else t.file? q := by
  unfold file? put remove
  split
  · next h => simp [h]
  · next h => rw [List.lookup_cons, beq_false_of_ne h, lookup_filter_ne _ h]

theorem remove_eq (h : t.file? p = none) : t.remove p = t := by
  have hfiles : t.files.filter (·.1 != p) = t.files := by
    refine List.filter_eq_self.2 fun entry hentry => bne_iff_ne.2 ?_
    rintro rfl
    have hentry := List.lookup_eq_none_iff.1 h entry hentry
    simp at hentry
  rw [remove, hfiles]

theorem remove_put (h : t.file? p = none) : (t.put p f).remove p = t := by
  have hremove : (t.put p f).remove p = (t.remove p).remove p := by
    simp [put, remove]
  rw [hremove, remove_eq h, remove_eq h]

theorem file?_eq_none_of_find {part : String} (h : t.find p part = .error .notFound)
    (hdir : t.grants .write p = true) : t.file? (p ++ [part]) = none := by
  have hisdir : t.isDirectory p = true := Option.isSome_of_any hdir
  unfold find at h
  rw [hisdir] at h
  split at h
  · next hno => cases hno
  · split at h
    · cases h
    · split at h
      · cases h
      · split at h
        · cases h
        · dsimp only at h
          split at h
          · cases h
          · split at h
            · cases h
            · next hnone => exact hnone

theorem vacancy_eq_ok {path : String} (h : t.vacancy path = .ok p) :
    t.file? p = none ∧ p.getLast? = (parts path).getLast? := by
  unfold vacancy at h
  split at h
  · cases h
  · split at h
    · cases h
    · next last above hparts =>
        obtain ⟨dir, _, h⟩ := ok_of_bind h
        split at h
        · cases h
        · next hfind =>
            split at h
            · next hwrite =>
                cases h
                refine ⟨file?_eq_none_of_find hfind hwrite, ?_⟩
                rw [List.getLast?_concat, ← List.head?_reverse, hparts, List.head?_cons]
            · cases h
        · cases h

end FileTree

namespace Publish

open FileTree

/-! ## Temporary files -/

variable {c : Conditions} {t : FileTree} {p : Place} {f : StoredFile} {dest : String}

theorem splitAt_join (dir : List Char) {name : List Char} (hname : '/' ∉ name) :
    ∃ above, Text.splitAt '/' (Path.join dir name) = above ++ [name] := by
  have hhead : (name.head? == some '/') = false :=
    beq_eq_false_iff_ne.2 fun h => hname (List.mem_of_head? h)
  rw [Path.join, hhead, if_neg (by simp)]
  split
  · next hdir =>
      rcases List.eq_nil_or_concat dir with rfl | ⟨above, c, rfl⟩
      · exact ⟨[], Text.splitAt_of_not_mem hname⟩
      · obtain rfl : c = '/' := by simpa using hdir
        rw [List.concat_eq_append, List.append_assoc, List.singleton_append,
          Text.splitAt_append_sep, Text.splitAt_of_not_mem hname]
        exact ⟨_, rfl⟩
  · rw [Text.splitAt_append_sep, Text.splitAt_of_not_mem hname]
    exact ⟨_, rfl⟩

theorem getLast?_parts_tempPath (dir : List Char) {draw : String} (hdraw : '/' ∉ draw.toList) :
    (parts (tempPath dir (tempName draw))).getLast? = some (tempName draw) := by
  have hname : '/' ∉ (tempName draw).toList := by
    simp [tempName, String.toList_append, hdraw]
  have hkept : ((tempName draw).toList != [] && (tempName draw).toList != ['.']) = true := by
    simp [tempName, String.toList_append]
  obtain ⟨above, hsplit⟩ := splitAt_join dir hname
  rw [parts, tempPath, String.toList_ofList, hsplit, List.filter_append, List.map_append,
    List.filter_singleton, hkept, cond_true, List.map_singleton, List.getLast?_concat,
    String.ofList_toList]

/-- The place of the temporary file of a run. -/
def IsTemp (c : Conditions) (t : FileTree) (dest : String) (p : Place) : Prop :=
  ∃ temp, chooseTemp t dest c.draws = .ok temp ∧ temp.place = p

theorem IsTemp.vacant (h : IsTemp c t dest p) :
    ∃ draw ∈ c.draws,
      t.vacancy (tempPath (directoryOf t.workingPath dest) (tempName draw)) = .ok p := by
  obtain ⟨temp, htemp, rfl⟩ := h
  unfold chooseTemp openTemp at htemp
  dsimp only at htemp
  split at htemp
  · cases htemp
  · split at htemp
    · cases htemp
    · next path hpath =>
        obtain ⟨draw, hdraw, rfl⟩ := List.mem_map.1 (List.mem_of_find?_eq_some hpath)
        split at htemp
        · next place hplace =>
            cases htemp
            exact ⟨draw, hdraw, hplace⟩
        · cases htemp

/-- Whatever is drawn, nothing is at the place that is chosen. -/
theorem IsTemp.unused (h : IsTemp c t dest p) : t.file? p = none := by
  obtain ⟨_, _, hvacant⟩ := h.vacant
  exact (vacancy_eq_ok hvacant).1

theorem IsTemp.named (h : IsTemp c t dest p) (hdraws : ∀ draw ∈ c.draws, '/' ∉ draw.toList) :
    ∃ draw ∈ c.draws, p.getLast? = some (tempName draw) := by
  obtain ⟨draw, hdraw, hvacant⟩ := h.vacant
  refine ⟨draw, hdraw, ?_⟩
  rw [(vacancy_eq_ok hvacant).2, getLast?_parts_tempPath _ (hdraws draw hdraw)]

/-! ## Destinations -/

/-- Files do not count for the way from one directory to the next. -/
theorem find_eq_directory {q next : Place} {part : String} :
    t.find q part = .ok (.directory next) ↔
      t.isDirectory q ∧ t.grants .search q ∧
        if part = ".." then q.dropLast = next
        else part.utf8ByteSize ≤ longestName ∧ t.isDirectory (q ++ [part]) ∧ q ++ [part] = next := by
  unfold FileTree.find
  split
  · simp_all
  · split
    · simp_all
    · split
      · simp_all
      · split
        · next hlong => simp_all [Nat.not_le.2 hlong]
        · dsimp only
          split
          · simp_all
          · split <;> simp_all

theorem enter_eq_ok {q next : Place} {part : String} :
    t.enter q part = .ok next ↔ t.find q part = .ok (.directory next) := by
  unfold FileTree.enter
  split
  · next hfind => simp [hfind]
  · next hfind => simp [hfind]
  · next hfind => simp [hfind]

theorem walk_put {start q : Place} {parts : List String}
    (h : (t.put p f).walk start parts = .ok q) : t.walk start parts = .ok q := by
  induction parts generalizing start with
  | nil => exact h
  | cons part parts ih =>
      unfold FileTree.walk at h ⊢
      rw [List.foldlM_cons] at h ⊢
      obtain ⟨next, hnext, hrest⟩ := ok_of_bind h
      -- The directories of the two trees are the same.
      have hfind : t.find start part = .ok (.directory next) :=
        find_eq_directory.2 (find_eq_directory (t := t.put p f)|>.1 (enter_eq_ok.1 hnext))
      rw [enter_eq_ok.2 hfind, ok_bind]
      exact ih hrest

/-- What is written beside it does not move a destination. -/
theorem target_put {place : Place} (h : target (t.put p f) dest = .ok place) :
    target t dest = .ok place := by
  unfold target at h ⊢
  split at h
  · cases h
  · next hshort =>
      rw [if_neg hshort]
      dsimp only at h ⊢
      split at h
      · cases h
      · next last above hparts =>
          obtain ⟨q, hq, h⟩ := ok_of_bind h
          have hwalk : t.walk (t.origin dest) _ = .ok q := walk_put hq
          rw [hwalk, ok_bind]
          exact h

/-! ## Courses of writing -/

def complete (umask : Nat) (text : String) : StoredFile :=
  ⟨Text.Utf8.encode text, plainFileMode umask⟩

/-- All that writing a text to a path can come to. -/
inductive Course (c : Conditions) (umask : Nat) (t : FileTree) (dest text : String) :
    Trace Place → Prop where
  | unchosen (fault : Fault) (refused : chooseTemp t dest c.draws = .error fault) :
      Course c umask t dest text ⟨[], .error fault⟩
  | uncreated (failure : OsFailure) : Course c umask t dest text ⟨[], .error (.system failure)⟩
  /-- A step failed, and the temporary file was removed. -/
  | undone (temp : Place) (chosen : IsTemp c t dest temp) (drafts : List StoredFile)
      (failure : OsFailure) :
      Course c umask t dest text ⟨drafts.map (t.put temp) ++ [t], .error (.system failure)⟩
  /-- The text could not be passed on, and the temporary file stayed. -/
  | unencodable (temp : Place) (chosen : IsTemp c t dest temp) (drafts : List StoredFile)
      (surrogates : Text.Utf8.Surrogates) (found : c.surrogates = some surrogates) :
      Course c umask t dest text
        ⟨drafts.map (t.put temp), .error (.unencodable surrogates temp)⟩
  /-- The path could not be passed on, and the temporary file stayed. -/
  | unnameable (temp : Place) (chosen : IsTemp c t dest temp) (drafts : List StoredFile)
      (null : Path.hasNull dest.toList = true) :
      Course c umask t dest text ⟨drafts.map (t.put temp), .error (.nullInPath (some temp))⟩
  /-- The complete file was moved to its place. -/
  | done (temp place : Place) (chosen : IsTemp c t dest temp) (drafts : List StoredFile)
      (aimed : target t dest = .ok place) :
      Course c umask t dest text
        ⟨drafts.map (t.put temp) ++ [t.put place (complete umask text)], .ok place⟩

theorem move_course {umask : Nat} {text : String} {temp : Temp}
    (htemp : chooseTemp t dest c.draws = .ok temp) (drafts : List StoredFile) :
    Course c umask t dest text
      ⟨drafts.map (t.put temp.place) ++ (move c t temp (complete umask text) dest).states,
        (move c t temp (complete umask text) dest).result⟩ := by
  have hchosen : IsTemp c t dest temp.place := ⟨temp, htemp, rfl⟩
  have hremove : (t.put temp.place (complete umask text)).remove temp.place = t :=
    remove_put hchosen.unused
  unfold move
  dsimp only
  split
  · next hnull =>
      rw [List.append_nil]
      exact .unnameable temp.place hchosen drafts hnull
  · rw [hremove]
    split
    · exact .undone temp.place hchosen drafts _
    · next place haim =>
        refine .done temp.place place hchosen drafts ?_
        split at haim
        · cases haim
        · exact target_put haim

theorem run_course (c : Conditions) (umask : Nat) (t : FileTree) (dest text : String) :
    Course c umask t dest text (run c umask t dest text) := by
  unfold run
  split
  · next fault hrefused => exact .unchosen fault hrefused
  · next temp htemp =>
      have hchosen : IsTemp c t dest temp.place := ⟨temp, htemp, rfl⟩
      have hremove : ∀ f, (t.put temp.place f).remove temp.place = t := fun _ =>
        remove_put hchosen.unused
      -- One case for each way in which filling the file ends, in the order of its steps.
      unfold fill
      dsimp only
      split
      · exact .uncreated _
      · split
        · next surrogates hfound =>
            exact .unencodable temp.place hchosen [_] surrogates hfound
        · rw [hremove]
          exact .undone temp.place hchosen [_] _
        · split
          · rw [hremove]
            exact .undone temp.place hchosen [_, _] _
          · exact move_course htemp [_, _, _]

end Publish

/-! ## Events -/

namespace Logged

variable {α β : Type}

def Quiet (x : Logged α) : Prop := ∀ d, Event.failed d ∉ x.events

theorem quiet_pure (a : α) : (pure a : Logged α).Quiet := by simp [Quiet]

theorem quiet_ofResult (r : Except Failure α) : (ofResult r).Quiet := by simp [Quiet, ofResult]

theorem quiet_report (d : Diagnostic) : (report d : Logged α).Quiet := by simp [Quiet, report]

theorem quiet_note {e : Event} (h : ∀ d, e ≠ .failed d) : (note e).Quiet := by
  intro d hd
  exact h d (List.mem_singleton.1 hd).symm

theorem Quiet.bind {x : Logged α} {next : α → Logged β} (h : x.Quiet)
    (hnext : ∀ a, x.result = .ok a → (next a).Quiet) : (x >>= next).Quiet := by
  intro d hd
  change Event.failed d ∈ (andThen x next).events at hd
  unfold andThen at hd
  split at hd
  · exact h d hd
  · next a ha =>
      rcases List.mem_append.1 hd with hd | hd
      · exact h d hd
      · exact hnext a ha d hd

theorem quiet_mapM {f : α → Logged β} (h : ∀ a, (f a).Quiet) (as : List α) :
    (as.mapM f).Quiet := by
  suffices hloop : ∀ done, (List.mapM.loop f as done).Quiet from hloop []
  induction as with
  | nil => exact fun _ => quiet_pure _
  | cons a as ih => exact fun done => (h a).bind fun b _ => ih (b :: done)

theorem quiet_foldlM {step : β → α → Logged β} (h : ∀ b a, (step b a).Quiet) (as : List α) (b : β) :
    (as.foldlM step b).Quiet := by
  induction as generalizing b with
  | nil => exact quiet_pure b
  | cons a as ih =>
      rw [List.foldlM_cons]
      exact (h b a).bind fun b' _ => ih b'

theorem quiet_forM {f : α → Logged Unit} (h : ∀ a, (f a).Quiet) (as : List α) :
    (as.forM f).Quiet := by
  induction as with
  | nil => exact quiet_pure _
  | cons a as ih => exact (h a).bind fun _ _ => ih

end Logged

open Logged

theorem quiet_load (opener : Opener) (path : String) : (SourceFile.load opener path).Quiet := by
  unfold SourceFile.load
  split
  · exact quiet_ofResult _
  · split
    · exact quiet_report _
    · exact (quiet_ofResult _).bind fun _ _ => (quiet_note (by simp)).bind fun _ _ => quiet_pure _

theorem quiet_checkTypeSpec (type : String) (s : TypeSpec) : (checkTypeSpec type s).Quiet := by
  unfold checkTypeSpec
  split
  · split
    · exact quiet_note (by simp)
    · exact quiet_report _
  · exact quiet_pure _

theorem quiet_define (o : Options) (s : Resolve.State) (spec : ConstSpec) (name : String) :
    (Resolve.define o s spec name).Quiet := by
  unfold Resolve.define
  split
  · exact quiet_report _
  · refine (quiet_note (by simp)).bind fun _ _ => ?_
    split
    · exact quiet_pure _
    · dsimp only
      split
      · exact (quiet_note (by simp)).bind fun _ _ => quiet_pure _
      · exact quiet_pure _

theorem quiet_step (o : Options) (s : Resolve.State) (spec : ConstSpec) :
    (Resolve.step o s spec).Quiet := by
  unfold Resolve.step
  split
  · split
    · exact quiet_define _ _ _ _
    · exact quiet_report _
  · exact quiet_pure _

/-- What is noted on the way to the code are no failures. -/
theorem quiet_stringify (opener : Opener) (o : Options) : (stringify opener o).Quiet := by
  have hload : (SourceFile.loadAll opener o.files).Quiet :=
    (quiet_mapM (quiet_load opener) _).bind fun _ _ => (quiet_ofResult _).bind fun _ _ =>
      (quiet_note (by simp)).bind fun _ _ => quiet_pure _
  have hresolve : ∀ files, (resolve o files).Quiet := fun files => by
    refine (quiet_foldlM (fun table specs => ?_) _ _).bind fun table _ => ?_
    · exact (quiet_foldlM (quiet_step o) _ _).bind fun _ _ => quiet_pure _
    · split
      · exact quiet_report _
      · exact (quiet_note (by simp)).bind fun _ _ => quiet_pure _
  have hanalyze : (analyze opener o).Quiet :=
    (quiet_ofResult _).bind fun _ _ => hload.bind fun _ _ =>
      (quiet_forM (quiet_checkTypeSpec o.type) _).bind fun _ _ => (hresolve _).bind fun _ _ =>
        quiet_pure _
  exact hanalyze.bind fun _ _ => (quiet_ofResult _).bind fun _ _ =>
    (quiet_note (by simp)).bind fun _ _ => quiet_pure _

/-! ## Runs -/

def Diagnostic.concernsFiles (d : Diagnostic) : Bool :=
  match d.cause with
  | .sourceRead .. | .outputWrite .. => true
  | _ => false

theorem exitCode_eq (d : Diagnostic) : exitCode d = if d.concernsFiles = true then 2 else 1 := by
  unfold exitCode Diagnostic.concernsFiles
  cases d.cause <;> rfl

/-- The file system `s` has at a place what `t` has there, or all of the code for the options. -/
def Holds (umask : Nat) (t : FileTree) (o : Options) (s : FileTree) (p : Place) : Prop :=
  s.file? p = t.file? p ∨ Publish.target t o.destination = .ok p ∧
    ∃ code, (stringify t.open? o).result = .ok code ∧
      s.file? p = some (Publish.complete umask code)

/-- A step that leaves alone all but the temporary file, or puts the code to its destination. -/
def Steady (c : Publish.Conditions) (umask : Nat) (t : FileTree) (o : Options) (s : FileTree) :
    Prop :=
  { s with files := t.files } = t ∧
    ∀ p, ¬ Publish.IsTemp c t o.destination p → Holds umask t o s p

/-- The run changes the file system in one step or not at all, and its exit code tells why it
failed. Nothing was at the place of the temporary file, and its name is one of those drawn; so it is
not the destination unless that is called like one of them. -/
structure Execution.Atomic (c : Publish.Conditions) (umask : Nat) (t : FileTree) (o : Options)
    (x : Execution) : Prop where
  steps : ∀ s ∈ x.trace, Steady c umask t o s
  spare : ∀ p, Publish.IsTemp c t o.destination p → t.file? p = none
  named : (∀ draw ∈ c.draws, '/' ∉ draw.toList) → ∀ p, Publish.IsTemp c t o.destination p →
    ∃ draw ∈ c.draws, p.getLast? = some (Publish.tempName draw)
  failed : x.exit ≠ .ok 0 → x.final t = t
  printed : x.exit = .ok 0 → o.toStandardOutput = true →
    ∃ code, (stringify t.open? o).result = .ok code ∧ x.output = code ∧ x.final t = t
  published : x.exit = .ok 0 → o.toStandardOutput = false →
    ∃ code place, (stringify t.open? o).result = .ok code ∧
      Publish.target t o.destination = .ok place ∧ x.output = "" ∧
      { x.final t with files := t.files } = t ∧
      ∀ p, (x.final t).file? p =
        if p = place then some (Publish.complete umask code) else t.file? p
  files : x.exit = .ok 2 ↔ ∃ d, Event.failed d ∈ x.events ∧ d.concernsFiles = true
  others : x.exit = .ok 1 ↔ ∃ d, Event.failed d ∈ x.events ∧ d.concernsFiles = false

section

variable {c : Publish.Conditions} {umask : Nat} {t : FileTree} {o : Options} {events : List Event}

theorem steady_self : Steady c umask t o t := ⟨rfl, fun _ _ => .inl rfl⟩

theorem steady_draft {temp : Place} (h : Publish.IsTemp c t o.destination temp) (f : StoredFile) :
    Steady c umask t o (t.put temp f) := by
  refine ⟨rfl, fun p hp => .inl ?_⟩
  have hne : p ≠ temp := by
    rintro rfl
    exact hp h
  rw [FileTree.file?_put, if_neg hne]

theorem steady_done {place : Place} {code : String}
    (hcode : (stringify t.open? o).result = .ok code)
    (hplace : Publish.target t o.destination = .ok place) :
    Steady c umask t o (t.put place (Publish.complete umask code)) := by
  refine ⟨rfl, fun p _ => ?_⟩
  by_cases hp : p = place
  · subst hp
    exact .inr ⟨hplace, code, hcode, by simp [FileTree.file?_put]⟩
  · exact .inl (by simp [FileTree.file?_put, hp])

/-- Every step of writing the code is one of these. -/
theorem steady_course {code : String} {trace : Publish.Trace Place}
    (hcode : (stringify t.open? o).result = .ok code)
    (h : Publish.Course c umask t o.destination code trace) :
    ∀ s ∈ trace.states, Steady c umask t o s := by
  have hdrafts : ∀ {temp : Place} {drafts : List StoredFile},
      Publish.IsTemp c t o.destination temp →
      ∀ s ∈ drafts.map (t.put temp), Steady c umask t o s := by
    intro temp drafts htemp s hs
    obtain ⟨f, _, rfl⟩ := List.mem_map.1 hs
    exact steady_draft htemp f
  cases h with
  | unchosen fault refused => simp
  | uncreated failure => simp
  | undone temp chosen drafts failure =>
      intro s hs
      rcases List.mem_append.1 hs with hs | hs
      · exact hdrafts chosen s hs
      · exact List.mem_singleton.1 hs ▸ steady_self
  | unencodable temp chosen drafts surrogates found => exact hdrafts chosen
  | unnameable temp chosen drafts null => exact hdrafts chosen
  | done temp place chosen drafts aimed =>
      intro s hs
      rcases List.mem_append.1 hs with hs | hs
      · exact hdrafts chosen s hs
      · exact List.mem_singleton.1 hs ▸ steady_done hcode aimed

theorem exists_failed_concat (hquiet : ∀ d, Event.failed d ∉ events) (d : Diagnostic)
    (P : Diagnostic → Prop) : (∃ d', Event.failed d' ∈ events ++ [.failed d] ∧ P d') ↔ P d := by
  constructor
  · rintro ⟨d', hmem, hd'⟩
    rcases List.mem_append.1 hmem with hmem | hmem
    · exact absurd hmem (hquiet d')
    · cases List.mem_singleton.1 hmem
      exact hd'
  · exact fun hd => ⟨d, by simp, hd⟩

/-- The exit code of a run that stops is that of the one diagnostic it notes, if it notes any. -/
theorem exit_stopped_iff (hquiet : ∀ d, Event.failed d ∉ events) (trace : List FileTree)
    (f : Failure) {code : Nat} {P : Diagnostic → Prop} (hP : ∀ d, exitCode d = code ↔ P d) :
    (Execution.stopped events trace f).exit = .ok code ↔
      ∃ d, Event.failed d ∈ (Execution.stopped events trace f).events ∧ P d := by
  cases f with
  | diagnostic d =>
      simp only [Execution.stopped, exists_failed_concat hquiet d, Except.ok.injEq]
      exact hP d
  | numeral _ | rune _ | nullInPath | unencodable _ =>
      refine iff_of_false (by simp [Execution.stopped]) ?_
      rintro ⟨d, hd, -⟩
      exact hquiet d hd

/-- A run that stops and has put everything back. -/
theorem atomic_stopped (hquiet : ∀ d, Event.failed d ∉ events) (trace : List FileTree)
    (hsteps : ∀ s ∈ trace, Steady c umask t o s) (hfinal : trace.getLast?.getD t = t)
    (f : Failure) : (Execution.stopped events trace f).Atomic c umask t o := by
  have hexit : (Execution.stopped events trace f).exit ≠ .ok 0 := by
    cases f with
    | diagnostic d =>
        simp only [Execution.stopped, exitCode_eq]
        split <;> simp
    | numeral _ | rune _ | nullInPath | unencodable _ => simp [Execution.stopped]
  have htrace : (Execution.stopped events trace f).trace = trace := by cases f <;> rfl
  refine ⟨htrace.symm ▸ hsteps, fun _ => Publish.IsTemp.unused, fun hdraws _ h => h.named hdraws,
    fun _ => ?_, fun h => absurd h hexit, fun h => absurd h hexit, ?_, ?_⟩
  · rw [Execution.final, htrace, hfinal]
  · exact exit_stopped_iff hquiet trace f fun d => by rw [exitCode_eq]; split <;> simp [*]
  · exact exit_stopped_iff hquiet trace f fun d => by rw [exitCode_eq]; split <;> simp [*]

/-- Nothing is said of the place that is reported. -/
theorem Execution.Atomic.reporting {x : Execution} (h : x.Atomic c umask t o)
    (place : Option Place) : ({ x with written := place } : Execution).Atomic c umask t o :=
  ⟨h.steps, h.spare, h.named, h.failed, h.printed, h.published, h.files, h.others⟩

/-- A run that succeeds notes no failure. -/
theorem atomic_succeeded {x : Execution} (hexit : x.exit = .ok 0)
    (hquiet : ∀ d, Event.failed d ∉ x.events) (hsteps : ∀ s ∈ x.trace, Steady c umask t o s)
    (hprinted : o.toStandardOutput = true →
      ∃ code, (stringify t.open? o).result = .ok code ∧ x.output = code ∧ x.final t = t)
    (hpublished : o.toStandardOutput = false →
      ∃ code place, (stringify t.open? o).result = .ok code ∧
        Publish.target t o.destination = .ok place ∧ x.output = "" ∧
        x.final t = t.put place (Publish.complete umask code)) :
    x.Atomic c umask t o := by
  have hnone : ∀ P : Diagnostic → Prop, ¬ ∃ d, Event.failed d ∈ x.events ∧ P d :=
    fun _ ⟨d, hd, _⟩ => hquiet d hd
  refine ⟨hsteps, fun _ => Publish.IsTemp.unused, fun hdraws _ h => h.named hdraws,
    fun h => absurd hexit h, fun _ => hprinted, fun _ hout => ?_, ?_, ?_⟩
  · obtain ⟨code, place, hcode, hplace, houtput, hfinal⟩ := hpublished hout
    refine ⟨code, place, hcode, hplace, houtput, ?_, fun p => ?_⟩
    · rw [hfinal]
      rfl
    · rw [hfinal, FileTree.file?_put]
  · exact iff_of_false (by simp [hexit]) (hnone _)
  · exact iff_of_false (by simp [hexit]) (hnone _)

theorem conclude_print (hsurrogates : c.surrogates = none) (code : String) :
    conclude c umask t events (.print code) = { exit := .ok 0, output := code, events } := by
  rw [conclude, hsurrogates]

theorem publish_atomic {code : String} (hquiet : ∀ d, Event.failed d ∉ events)
    (hnull : Path.hasNull o.destination.toList = false) (hsurrogates : c.surrogates = none)
    (hcode : (stringify t.open? o).result = .ok code) (hout : o.toStandardOutput = false) :
    (conclude c umask t events (.publish o.destination code)).Atomic c umask t o := by
  have hcourse := Publish.run_course c umask t o.destination code
  have hsteps := steady_course hcode hcourse
  unfold conclude
  dsimp only
  generalize Publish.run c umask t o.destination code = published at hcourse hsteps
  cases hcourse with
  | unchosen fault refused =>
      cases fault with
      | system failure => exact atomic_stopped hquiet [] (by simp) rfl (.diagnostic _)
      | nullInPath leftover =>
          exact (atomic_stopped hquiet [] (by simp) rfl .nullInPath).reporting leftover
      | unencodable surrogates leftover =>
          exact (atomic_stopped hquiet [] (by simp) rfl (.unencodable surrogates)).reporting leftover
  | uncreated failure => exact atomic_stopped hquiet [] (by simp) rfl (.diagnostic _)
  | undone temp chosen drafts failure =>
      exact atomic_stopped hquiet _ hsteps (by simp) (.diagnostic _)
  | unencodable temp chosen drafts surrogates found => exact absurd found (by simp [hsurrogates])
  | unnameable temp chosen drafts null => exact absurd null (by simp [hnull])
  | done temp place chosen drafts aimed =>
      refine atomic_succeeded rfl ?_ hsteps (fun h => absurd h (by simp [hout])) fun _ =>
        ⟨code, place, hcode, aimed, rfl, by simp [Execution.final]⟩
      intro d hd
      rcases List.mem_append.1 hd with hd | hd
      · exact hquiet d hd
      · cases List.mem_singleton.1 hd

end

theorem execute_atomic (c : Publish.Conditions) (umask : Nat) (t : FileTree) (o : Options)
    (hnull : Path.hasNull o.destination.toList = false) (hsurrogates : c.surrogates = none) :
    (execute c umask t o).Atomic c umask t o := by
  have hquiet := quiet_stringify t.open? o
  unfold execute executeWith plan
  dsimp only
  cases hcode : (stringify t.open? o).result with
  | error f => exact atomic_stopped hquiet [] (by simp) rfl f
  | ok code =>
      dsimp only
      cases hout : o.toStandardOutput with
      | true =>
          rw [if_pos rfl, conclude_print hsurrogates]
          exact atomic_succeeded rfl hquiet (by simp) (fun _ => ⟨code, hcode, rfl, rfl⟩)
            fun hfile => absurd hout (by simp [hfile])
      | false =>
          rw [if_neg (by simp)]
          exact publish_atomic hquiet hnull hsurrogates hcode hout

/-- Whatever step fails, the output of a run is all there or not at all, and so is that of the
program with arguments for the same options. Arguments that are refused touch nothing. -/
theorem output_all_or_nothing (c : Publish.Conditions) (umask : Nat) (t : FileTree) (o : Options)
    (hnull : Path.hasNull o.destination.toList = false) (hsurrogates : c.surrogates = none) :
    (execute c umask t o).Atomic c umask t o ∧
      (∀ argv settings, CommandLine.parse argv = .ok settings → settings.options = o →
        (CommandLine.run c umask t argv).exit = (execute c umask t o).exit ∧
        (CommandLine.run c umask t argv).output = (execute c umask t o).output ∧
        (CommandLine.run c umask t argv).trace = (execute c umask t o).trace) ∧
      ∀ argv stop, CommandLine.parse argv = .error stop →
        (CommandLine.run c umask t argv).trace = [] := by
  refine ⟨execute_atomic c umask t o hnull hsurrogates, ?_, ?_⟩
  · rintro argv settings hparse rfl
    simp [CommandLine.run, CommandLine.runWith, execute, hparse]
  · intro argv stop hparse
    cases stop <;>
      simp [CommandLine.run, CommandLine.runWith, hparse, CommandLine.Session.ofStop]

def sampleTree : FileTree :=
  { directories := [(["home"], 0o777), (["home", "go"], 0o755)]
    files := [(["home", "go", "t.go"],
      ⟨Text.Utf8.encode "package p\ntype T int\nconst (\n\tA T = iota\n\tB\n)\n", 0o644⟩)]
    working := ["home", "go"] }

def sampleOptions (output : String) : Options := { type := "T", files := ["t.go"], output }

def chmodDenied : Publish.Conditions :=
  { draws := ["k3_x0q9a"], faults := fun s => if s = .chmod then some .denied else none }

/-- The mode cannot be set of a file that is to go beside the working directory. -/
theorem output_nothing_after_chmod :
    Path.hasNull (sampleOptions "../x.go").destination.toList = false ∧
      (execute chmodDenied 0o022 sampleTree (sampleOptions "../x.go")).exit = .ok 2 ∧
      (execute chmodDenied 0o022 sampleTree (sampleOptions "../x.go")).final sampleTree =
        sampleTree := by
  have hnull : Path.hasNull (sampleOptions "../x.go").destination.toList = false := by
    decide +kernel
  have hexit : (execute chmodDenied 0o022 sampleTree (sampleOptions "../x.go")).exit = .ok 2 := by
    decide +kernel
  refine ⟨hnull, hexit, (output_all_or_nothing _ _ _ _ hnull rfl).1.failed ?_⟩
  rw [hexit]
  decide

/-- A null character in the name of the output breaks a run off when the temporary file is
complete, and a surrogate in the text when it is still empty. The file stays. -/
theorem output_leftover :
    (execute { draws := ["k3_x0q9a"] } 0o022 sampleTree (sampleOptions "../x\x00.go")).exit =
        .error .nullInPath ∧
      (execute { draws := ["k3_x0q9a"] } 0o022 sampleTree (sampleOptions "../x\x00.go")).final
        sampleTree ≠ sampleTree ∧
      (execute { draws := ["k3_x0q9a"], surrogates := some ⟨0, 1, 0xdcff⟩ } 0o022 sampleTree
        (sampleOptions "../x.go")).exit = .error (.unencodable ⟨0, 1, 0xdcff⟩) ∧
      (execute { draws := ["k3_x0q9a"], surrogates := some ⟨0, 1, 0xdcff⟩ } 0o022 sampleTree
        (sampleOptions "../x.go")).final sampleTree =
          sampleTree.put ["home", ".tinystringer-k3_x0q9a.go"] ⟨[], 0o600⟩ := by
  decide +kernel

end EnumNames
