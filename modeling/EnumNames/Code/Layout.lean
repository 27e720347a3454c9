import EnumNames.Code.Emitter

/-!
Code as nested blocks. A layout can be written through an emitter, which keeps
track of the level, or printed by recursion on its blocks.
-/

namespace EnumNames

/-- A row of lines, comments, runs of empty lines and blocks. `nested` is a block without header
and footer. -/
inductive Layout where
  | done
  | line (text : String) (next : Layout)
  | comment (text : String) (next : Layout)
  | blank (count : Nat) (next : Layout)
  | nested (body next : Layout)
  | block (header : String) (body : Layout) (footer : String) (next : Layout)
  deriving DecidableEq, Repr

namespace Layout

def lines (texts : List String) (next : Layout) : Layout :=
  texts.foldr .line next

def write : Layout → Emitter → Emitter
  | .done, e => e
  | .line text next, e => next.write (e.emit text)
  | .comment text next, e => next.write (e.comment text)
  | .blank count next, e => next.write (e.blank count)
  | .nested body next, e => next.write (body.write e.indent).dedent
  | .block header body footer next, e => next.write (body.write (e.enter header footer)).leave

def print (unit : String) (level : Nat) : Layout → String
  | .done => ""
  | .line text next => Emitter.lineAt unit level text ++ next.print unit level
  | .comment text next =>
      String.join ((Emitter.commentLines text).map (Emitter.lineAt unit level)) ++
        next.print unit level
  | .blank count next => String.ofList (List.replicate count '\n') ++ next.print unit level
  | .nested body next => body.print unit (level + 1) ++ next.print unit level
  | .block header body footer next =>
      Emitter.lineAt unit level header ++ body.print unit (level + 1) ++
        Emitter.lineAt unit level footer ++ next.print unit level

end Layout
end EnumNames
