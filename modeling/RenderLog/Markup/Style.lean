import RenderLog.Markup.Lexeme

/-!
# Styles

What can be set off in a line: the text between two marks, and a value that
changed since the render before. For each style the texts that switch it on and
off, as a terminal escape sequence and as console style declarations.

Bold text and code share the terminal's weight, so leaving either restores the
normal weight; a changed value is not shown on a terminal.
-/
namespace RenderLog.Markup

inductive Style where
  | marker (m : Marker)
  | changed
  deriving DecidableEq, Repr

/-- Terminal escape sequence that switches the style. -/
def Style.escape : Style → Bool → String
  | .marker .bold, true => "\x1b[1m"
  | .marker .bold, false => "\x1b[22m"
  | .marker .italic, true => "\x1b[3m"
  | .marker .italic, false => "\x1b[23m"
  | .marker .code, true => "\x1b[96m\x1b[1m"
  | .marker .code, false => "\x1b[39m\x1b[22m"
  | .changed, _ => ""

/-- Console style declarations that switch the style. -/
def Style.css : Style → Bool → String
  | .marker .bold, true => "font-weight: bold;"
  | .marker .bold, false => "font-weight: normal;"
  | .marker .italic, true => "font-style: italic;"
  | .marker .italic, false => "font-style: normal;"
  | .marker .code, true => "background: hsla(0,0%,70%,.3); border-radius:3px; padding: 0 2px;"
  | .marker .code, false => "background: unset;"
  | .changed, true =>
    "text-decoration: underline; text-decoration-color: green; " ++
    "text-decoration-style: wavy; padding-bottom: 1px; text-decoration-skip-ink: none;"
  | .changed, false => "text-decoration: none; padding-bottom: 0;"

end RenderLog.Markup
