import RenderLog.Line

/-!
# Drafts of styled lines

A styled line while it is written. Percent signs of literal text are doubled, so
that only the directives written here consume arguments. A style is held back
until something else follows; styles that meet are joined and take one directive.
-/
namespace RenderLog

structure Draft where
  format : String
  args : Array Arg
  /-- Styles without their directive yet. -/
  held : Option String
  deriving DecidableEq, Repr

namespace Draft

def empty : Draft := ⟨"", #[], none⟩

def escapePercent (cs : List Char) : List Char :=
  cs.flatMap fun c => if c = '%' then ['%', '%'] else [c]

/-- Writes the directive of the styles held back. -/
def flush (d : Draft) : Draft :=
  match d.held with
  | none => d
  | some css => ⟨d.format ++ "%c", d.args.push (.style css), none⟩

def text (d : Draft) (cs : List Char) : Draft :=
  let d := d.flush
  {d with format := d.format ++ String.ofList (escapePercent cs)}

def style (d : Draft) (css : String) : Draft :=
  {d with held := some (d.held.getD "" ++ css)}

def object (d : Draft) (o : Object) : Draft :=
  let d := d.flush
  {d with format := d.format ++ "%o", args := d.args.push (.object o)}

def line (d : Draft) : Line :=
  let d := d.flush
  .styled d.format d.args.toList

end Draft
end RenderLog
