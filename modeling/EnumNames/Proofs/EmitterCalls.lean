import EnumNames.Proofs.LayoutText
import Mathlib.Algebra.Order.Group.Int
import Mathlib.Algebra.Ring.Int.Defs
import Mathlib.Data.List.Infix

/-!
Emitters driven call by call. The calls of a layout, in its order, append the
text of a printer that knows nothing of emitters, and leave the rest of the
emitter as it was. Calls in any other order, with blocks left open or levels
closed that were never opened, only ever append to the code. Their level stays
at zero or above, and where it ends is known from the moves of the calls alone.
-/

namespace EnumNames

open EnumNames.Text

namespace Emitter

/-- What an emitter can be asked to do. `leave` ends the innermost block; to end another one out of
turn is a `dedent` and an `emit` of its footer. -/
inductive Call where
  | emit (line : String)
  | comment (text : String)
  | blank (count : Int)
  | indent
  | dedent
  | enter (header footer : String)
  | leave
  deriving DecidableEq, Repr

def Call.on : Call → Emitter → Emitter
  | .emit line, e => e.emit line
  | .comment text, e => e.comment text
  | .blank count, e => e.blank count
  | .indent, e => e.indent
  | .dedent, e => e.dedent
  | .enter header footer, e => e.enter header footer
  | .leave, e => e.leave

def run (e : Emitter) (calls : List Call) : Emitter := calls.foldl (fun e call => call.on e) e

theorem run_cons (e : Emitter) (call : Call) (calls : List Call) :
    e.run (call :: calls) = (call.on e).run calls := rfl

theorem run_append (e : Emitter) (calls later : List Call) :
    e.run (calls ++ later) = (e.run calls).run later :=
  List.foldl_append

end Emitter

/-! ## Layouts -/

namespace Layout

open Emitter

def calls : Layout → List Call
  | .done => []
  | .line text next => .emit text :: next.calls
  | .comment text next => .comment text :: next.calls
  | .blank count next => .blank count :: next.calls
  | .nested body next => .indent :: (body.calls ++ .dedent :: next.calls)
  | .block header body footer next =>
      .enter header footer :: (body.calls ++ .leave :: next.calls)

theorem run_calls (l : Layout) (e : Emitter) : e.run l.calls = l.write e := by
  induction l generalizing e with
  | done => rfl
  | line text next ih | comment text next ih | blank count next ih => exact ih _
  | nested body next ihb ihn | block header body footer next ihb ihn =>
      rw [calls, run_cons, run_append, ihb, run_cons, ihn]
      rfl

def margin (unit : List Char) (level : Nat) : List Char := (List.replicate level unit).flatten

/-- A line behind its margin. A line of white space is an empty line. -/
def prettyLine (unit : List Char) (level : Nat) (text : List Char) : List Char :=
  if text.all isBlank then ['\n'] else margin unit level ++ text ++ ['\n']

def prettyComment (unit : List Char) (level : Nat) (text : List Char) : List Char :=
  let mark := margin unit level ++ ['/', '/', ' ']
  mark ++ text.flatMap (fun c => if c == '\n' then c :: mark else [c]) ++ ['\n']

/-- The text of a layout, with bodies one level below what is around them. -/
def pretty (unit : List Char) (level : Nat) : Layout → List Char
  | .done => []
  | .line text next => prettyLine unit level text.toList ++ next.pretty unit level
  | .comment text next => prettyComment unit level text.toList ++ next.pretty unit level
  | .blank count next => List.replicate count '\n' ++ next.pretty unit level
  | .nested body next => body.pretty unit (level + 1) ++ next.pretty unit level
  | .block header body footer next =>
      prettyLine unit level header.toList ++ body.pretty unit (level + 1) ++
        prettyLine unit level footer.toList ++ next.pretty unit level

theorem toList_indentation (unit : String) (level : Nat) :
    (indentation unit level).toList = margin unit.toList level := by
  induction level with
  | zero => rfl
  | succ level ih =>
      rw [indentation, String.toList_append, ih, margin, margin, List.replicate_succ,
        List.flatten_cons]

theorem toList_lineAt_eq (unit : String) (level : Nat) (text : String) :
    (lineAt unit level text).toList = prettyLine unit.toList level text.toList := by
  rw [lineAt, prettyLine, isBlankLine]
  split
  · rfl
  · rw [String.toList_append, String.toList_append, toList_indentation]
    rfl

/-- Splitting a text and marking each part is the same as marking the text at its line ends. -/
theorem flatMap_splitAt_mark (mark cs : List Char) :
    (splitAt '\n' cs).flatMap (fun part => mark ++ part ++ ['\n']) =
      mark ++ cs.flatMap (fun c => if c == '\n' then c :: mark else [c]) ++ ['\n'] := by
  induction cs with
  | nil => simp [splitAt]
  | cons c cs ih =>
      rw [splitAt, List.flatMap_cons]
      split
      · next hc =>
          rw [List.flatMap_cons, ih, eq_of_beq hc]
          simp
      · -- The first part takes the character, behind the mark that it has already.
        cases hparts : splitAt '\n' cs with
        | nil => exact absurd hparts (splitAt_ne_nil '\n' cs)
        | cons part parts =>
            rw [hparts] at ih
            simpa using ih

/-- The mark keeps a line of a comment from being empty. -/
theorem toList_commentLine (unit : String) (level : Nat) (part : List Char) :
    (lineAt unit level ("// " ++ String.ofList part)).toList =
      margin unit.toList level ++ ['/', '/', ' '] ++ part ++ ['\n'] := by
  have hslash : isBlank '/' = false := by decide
  have hmark : "// ".toList = ['/', '/', ' '] := rfl
  rw [toList_lineAt_eq, String.toList_append, hmark, String.toList_ofList, prettyLine]
  simp [hslash]

theorem toList_commentLines (unit : String) (level : Nat) (text : String) :
    (String.join ((commentLines text).map (lineAt unit level))).toList =
      prettyComment unit.toList level text.toList := by
  rw [prettyComment, ← flatMap_splitAt_mark, commentLines]
  induction splitAt '\n' text.toList with
  | nil => rfl
  | cons part parts ih =>
      rw [List.map_cons, List.map_cons, String.join_cons, String.toList_append, ih,
        toList_commentLine, List.flatMap_cons]

theorem toList_print (l : Layout) (unit : String) (level : Nat) :
    (l.print unit level).toList = l.pretty unit.toList level := by
  induction l generalizing level with
  | done => rfl
  | line text next ih => rw [print, pretty, String.toList_append, toList_lineAt_eq, ih]
  | comment text next ih => rw [print, pretty, String.toList_append, toList_commentLines, ih]
  | blank count next ih => rw [print, pretty, String.toList_append, String.toList_ofList, ih]
  | nested body next ihb ihn => rw [print, pretty, String.toList_append, ihb, ihn]
  | block header body footer next ihb ihn =>
      rw [print, pretty, String.toList_append, String.toList_append, String.toList_append,
        toList_lineAt_eq, toList_lineAt_eq, ihb, ihn]

end Layout

/-! ## Any calls -/

namespace Emitter

def Call.opened (blocks : Nat) : Call → Nat
  | .enter _ _ => blocks + 1
  | .leave => blocks - 1
  | _ => blocks

/-- How far a call takes the level up, or down where there is room. -/
def Call.move (blocks : Nat) : Call → Int
  | .indent | .enter _ _ => 1
  | .dedent => -1
  | .leave => if blocks = 0 then 0 else -1
  | _ => 0

def moves (blocks : Nat) : List Call → List Int
  | [] => []
  | call :: calls => call.move blocks :: moves (call.opened blocks) calls

/-- The most that a tail of the moves adds up to; the last tail is empty. -/
def climb (moves : List Int) : Int := (moves.tails.map List.sum).foldr max 0

/-- Where moves lead from a level with a floor at zero: as far as all of them lead from the level, or
as far as a tail of them leads from the floor. -/
def height (level : Int) (moves : List Int) : Int := max (level + moves.sum) (climb moves)

theorem climb_cons (m : Int) (ms : List Int) :
    climb (m :: ms) = max (m + ms.sum) (climb ms) := by
  rw [climb, List.tails_cons, List.map_cons, List.foldr_cons, List.sum_cons, climb]

theorem climb_nonneg (ms : List Int) : 0 ≤ climb ms := by
  induction ms with
  | nil => exact Int.le_refl 0
  | cons m ms ih =>
      rw [climb_cons]
      omega

theorem sum_le_climb (ms : List Int) : ms.sum ≤ climb ms := by
  cases ms with
  | nil => exact Int.le_refl 0
  | cons m ms =>
      rw [climb_cons, List.sum_cons]
      omega

/-- One move is floored, and the others start from there. -/
theorem height_cons {level : Int} (h : 0 ≤ level) (m : Int) (ms : List Int) :
    height level (m :: ms) = height (max 0 (level + m)) ms := by
  have hsum := sum_le_climb ms
  rw [height, height, climb_cons, List.sum_cons]
  omega

theorem height_nonneg (level : Int) (ms : List Int) : 0 ≤ height level ms :=
  Int.le_trans (climb_nonneg ms) (Int.le_max_right _ _)

theorem length_footers_on (call : Call) (e : Emitter) :
    (call.on e).footers.length = call.opened e.footers.length := by
  cases call with
  | emit line | blank count | indent | dedent | enter header footer => rfl
  | comment text =>
      rw [Call.on, comment_eq]
      rfl
  | leave =>
      rw [Call.on, leave, Call.opened]
      split <;> simp [*]

/-- A call moves the level, unless that would take it below zero. -/
theorem level_on (call : Call) (e : Emitter) :
    ((call.on e).level : Int) = max 0 (e.level + call.move e.footers.length) := by
  cases call with
  | emit line | blank count => simp [Call.on, Call.move, Emitter.emit, Emitter.blank]
  | comment text => simp [Call.on, Call.move, comment_eq]
  | indent | dedent | enter header footer =>
      simp only [Call.on, Call.move, Emitter.indent, Emitter.dedent, Emitter.enter, Emitter.emit]
      omega
  | leave =>
      rw [Call.on, leave, Call.move]
      split
      · next hnone => simp [hnone]
      · next footer footers hopen =>
          rw [hopen, List.length_cons, if_neg (Nat.succ_ne_zero _)]
          simp only [Emitter.dedent, Emitter.emit]
          omega

theorem code_prefix_on (call : Call) (e : Emitter) : e.code.toList <+: (call.on e).code.toList := by
  cases call with
  | emit line | blank count | enter header footer =>
      exact ⟨_, String.toList_append.symm⟩
  | comment text =>
      rw [Call.on, comment_eq]
      exact ⟨_, String.toList_append.symm⟩
  | indent | dedent => exact List.prefix_rfl
  | leave =>
      rw [Call.on, leave]
      split
      · exact List.prefix_rfl
      · exact ⟨_, String.toList_append.symm⟩

theorem level_run (calls : List Call) (e : Emitter) :
    ((e.run calls).level : Int) = height e.level (moves e.footers.length calls) := by
  induction calls generalizing e with
  | nil => simp [moves, height, climb, run]
  | cons call calls ih =>
      rw [run_cons, ih, level_on, length_footers_on, moves, height_cons (Int.natCast_nonneg _)]

-- What is taken at the floor is lost: the way up does not start below it.
example : (({} : Emitter).run [.dedent, .indent]).level = 1 := rfl

theorem code_prefix_run (calls : List Call) (e : Emitter) :
    e.code.toList <+: (e.run calls).code.toList := by
  induction calls generalizing e with
  | nil => exact List.prefix_rfl
  | cons call calls ih => exact (code_prefix_on call e).trans (ih (call.on e))

/-- The calls of a layout append its text at the level they find, and change nothing else. Whatever
is called, the level is never below zero, and code that is written stays as the start of the code. -/
theorem prints_block_trees (l : Layout) (e : Emitter) (calls later : List Call) :
    e.run l.calls =
        { e with code := e.code ++ String.ofList (l.pretty e.unit.toList e.level) } ∧
      ((e.run calls).level : Int) = height e.level (moves e.footers.length calls) ∧
      0 ≤ height e.level (moves e.footers.length calls) ∧
      (e.run calls).code.toList <+: (e.run (calls ++ later)).code.toList := by
  refine ⟨?_, level_run calls e, height_nonneg _ _, ?_⟩
  · rw [Layout.run_calls, Layout.write_eq, ← Layout.toList_print, String.ofList_toList]
  · rw [run_append]
    exact code_prefix_run later (e.run calls)

end Emitter
end EnumNames
