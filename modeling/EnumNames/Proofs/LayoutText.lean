import EnumNames.Code.Layout

/-!
Writing a layout through an emitter appends what printing it gives at the
emitter's level, and leaves everything else of the emitter as it was.
-/

namespace EnumNames

namespace Emitter

theorem foldl_emit (lines : List String) (e : Emitter) :
    lines.foldl emit e =
      { e with code := e.code ++ String.join (lines.map (lineAt e.unit e.level)) } := by
  induction lines generalizing e with
  | nil => simp
  | cons line lines ih => simp [ih, emit, String.append_assoc]

theorem comment_eq (e : Emitter) (text : String) :
    e.comment text =
      { e with code := e.code ++ String.join ((commentLines text).map (lineAt e.unit e.level)) } :=
  foldl_emit (commentLines text) e

end Emitter

namespace Layout

theorem write_eq (l : Layout) (e : Emitter) :
    l.write e = { e with code := e.code ++ l.print e.unit e.level } := by
  induction l generalizing e with
  | done => simp [write, print]
  | line text next ih => simp [write, print, ih, Emitter.emit, String.append_assoc]
  | comment text next ih => simp [write, print, ih, Emitter.comment_eq, String.append_assoc]
  | blank count next ih => simp [write, print, ih, Emitter.blank, String.append_assoc]
  | nested body next ihb ihn =>
      simp [write, print, ihb, ihn, Emitter.indent, Emitter.dedent, String.append_assoc]
  | block header body footer next ihb ihn =>
      simp [write, print, ihb, ihn, Emitter.enter, Emitter.leave, Emitter.emit, Emitter.indent,
        Emitter.dedent, String.append_assoc]

end Layout
end EnumNames
