import EnumNames.Proofs.LayoutText
import Mathlib.Data.List.Basic

/-!
Generated code line by line. A layout is printed row by row, and splitting the
text at its line ends gives the rows back when there is no line end in them.
-/

namespace EnumNames

open EnumNames.Text

/-! ## Lines of a text -/

/-- The lines of a text. After a line end at the end there is one more line, which is empty. -/
def linesOf (text : String) : List String :=
  (splitAt '\n' text.toList).map String.ofList

def OneLine (text : String) : Prop := '\n' ∉ text.toList

instance (text : String) : Decidable (OneLine text) :=
  inferInstanceAs (Decidable ('\n' ∉ text.toList))

theorem OneLine.append {s t : String} (hs : OneLine s) (ht : OneLine t) : OneLine (s ++ t) := by
  rw [OneLine, String.toList_append, List.mem_append, not_or]
  exact ⟨hs, ht⟩

theorem linesOf_oneLine {text : String} (h : OneLine text) : linesOf text = [text] := by
  rw [linesOf, splitAt_of_not_mem h, List.map_singleton, String.ofList_toList]

theorem linesOf_append (row rest : String) :
    linesOf (row ++ "\n" ++ rest) = linesOf row ++ linesOf rest := by
  have hend : "\n".toList = ['\n'] := rfl
  rw [linesOf, String.toList_append, String.toList_append, hend, List.append_assoc,
    List.singleton_append, splitAt_append_sep, List.map_append]
  rfl

def stacked (rows : List String) : String := String.join (rows.map (· ++ "\n"))

theorem stacked_cons (row : String) (rows : List String) :
    stacked (row :: rows) = row ++ "\n" ++ stacked rows := by
  rw [stacked, List.map_cons, String.join_cons]
  rfl

theorem stacked_append (rows more : List String) :
    stacked (rows ++ more) = stacked rows ++ stacked more := by
  rw [stacked, List.map_append, String.join_append]
  rfl

theorem linesOf_stacked (rows : List String) :
    linesOf (stacked rows) = rows.flatMap linesOf ++ [""] := by
  induction rows with
  | nil => rfl
  | cons row rows ih => rw [stacked_cons, linesOf_append, ih, List.flatMap_cons, List.append_assoc]

theorem flatMap_linesOf {rows : List String} (h : ∀ row ∈ rows, OneLine row) :
    rows.flatMap linesOf = rows := by
  induction rows with
  | nil => rfl
  | cons row rows ih =>
      rw [List.flatMap_cons, linesOf_oneLine (h row (by simp)), ih fun row hrow => h row (by simp [hrow])]
      rfl

/-! ## Rows of a layout -/

namespace Layout

def row (unit : String) (level : Nat) (text : String) : String :=
  if Emitter.isBlankLine text then "" else Emitter.indentation unit level ++ text

theorem lineAt_eq (unit : String) (level : Nat) (text : String) :
    Emitter.lineAt unit level text = row unit level text ++ "\n" := by
  unfold Emitter.lineAt row
  split
  · rfl
  · rfl

def rows (unit : String) (level : Nat) : Layout → List String
  | .done => []
  | .line text next => row unit level text :: next.rows unit level
  | .comment text next =>
      (Emitter.commentLines text).map (row unit level) ++ next.rows unit level
  | .blank count next => List.replicate count "" ++ next.rows unit level
  | .nested body next => body.rows unit (level + 1) ++ next.rows unit level
  | .block header body footer next =>
      row unit level header ::
        (body.rows unit (level + 1) ++ row unit level footer :: next.rows unit level)

theorem stacked_replicate (count : Nat) :
    stacked (List.replicate count "") = String.ofList (List.replicate count '\n') := by
  induction count with
  | zero => rfl
  | succ count ih =>
      rw [List.replicate_succ, stacked_cons, ih, List.replicate_succ]
      show String.ofList ['\n'] ++ _ = String.ofList (['\n'] ++ _)
      exact String.ofList_append.symm

theorem print_eq (l : Layout) (unit : String) (level : Nat) :
    l.print unit level = stacked (l.rows unit level) := by
  induction l generalizing level with
  | done => rfl
  | line text next ih => rw [print, rows, stacked_cons, lineAt_eq, ih]
  | comment text next ih =>
      have hlines : String.join ((Emitter.commentLines text).map (Emitter.lineAt unit level)) =
          stacked ((Emitter.commentLines text).map (row unit level)) := by
        rw [stacked, List.map_map]
        exact congrArg String.join (List.map_congr_left fun line _ => lineAt_eq unit level line)
      rw [print, rows, stacked_append, hlines, ih]
  | blank count next ih => rw [print, rows, stacked_append, stacked_replicate, ih]
  | nested body next ihb ihn => rw [print, rows, stacked_append, ihb, ihn]
  | block header body footer next ihb ihn =>
      rw [print, rows, stacked_cons, stacked_append, stacked_cons, lineAt_eq, lineAt_eq, ihb, ihn]
      simp only [String.append_assoc]

theorem rows_lines (texts : List String) (next : Layout) (unit : String) (level : Nat) :
    (lines texts next).rows unit level = texts.map (row unit level) ++ next.rows unit level := by
  induction texts with
  | nil => rfl
  | cons text texts ih =>
      show row unit level text :: (lines texts next).rows unit level = _
      rw [ih, List.map_cons, List.cons_append]

theorem row_append {s : String} (t : String) (unit : String) (level : Nat)
    (h : Emitter.isBlankLine s = false) :
    row unit level (s ++ t) = Emitter.indentation unit level ++ s ++ t := by
  have hsolid : Emitter.isBlankLine (s ++ t) = false := by
    rw [Emitter.isBlankLine] at h ⊢
    rw [String.toList_append, List.all_append, h, Bool.false_and]
  rw [row, hsolid, String.append_assoc]
  rfl

theorem row_zero {text : String} (unit : String) (h : Emitter.isBlankLine text = false) :
    row unit 0 text = text := by
  rw [row, h]
  exact String.empty_append

theorem oneLine_row {text : String} (h : OneLine text) (level : Nat) :
    OneLine (row "\t" level text) := by
  have hindent : ∀ level, OneLine (Emitter.indentation "\t" level) := by
    intro level
    induction level with
    | zero => exact (by decide : OneLine "")
    | succ level ih =>
        have htab : OneLine "\t" := by decide
        exact htab.append ih
  unfold row
  split
  · exact (by decide : OneLine "")
  · exact (hindent level).append h

/-- A row below the first level is empty or starts with a tab. -/
theorem head?_row {level : Nat} {text : String} {c : Char}
    (h : c ∈ (row "\t" (level + 1) text).toList.head?) : c = '\t' := by
  unfold row at h
  split at h
  · cases h
  · rw [Emitter.indentation, String.append_assoc, String.toList_append] at h
    exact (Option.some.inj h).symm

end Layout
end EnumNames
