/-!
# DynScope.Sink

**Where printed lines go.** Besides being recorded as values, whatever a program prints is
rendered to a line and given to a sink. A sink is a value: it holds the text that it keeps
or the text that is on its way out, and writing that text somewhere is left to the caller.

* `discard` drops every line.
* `capture` keeps the lines until it is cleared.
* `forward` passes the lines on to standard output and keeps nothing.
-/

namespace DynScope

/-- Sinks for printed lines. -/
inductive Sink where
  /-- Drops every line. -/
  | discard
  /-- Keeps lines; `text` is what it has kept. -/
  | capture (text : String)
  /-- Passes lines on; `pending` is what has not been collected yet. -/
  | forward (pending : String)
deriving DecidableEq, Repr, Inhabited

namespace Sink

/-- Give a line to the sink, which ends it. -/
def writeLine (line : String) : Sink → Sink
  | .discard => .discard
  | .capture text => .capture (text ++ line ++ "\n")
  | .forward pending => .forward (pending ++ line ++ "\n")

/-- The text that the sink keeps. -/
def captured : Sink → String
  | .capture text => text
  | .discard | .forward _ => ""

/-- Forget the text that the sink keeps. -/
def clear : Sink → Sink
  | .capture _ => .capture ""
  | s => s

/-- Collect the text that waits for standard output. -/
def collect : Sink → String × Sink
  | .forward pending => (pending, .forward "")
  | s => ("", s)

end Sink

end DynScope
