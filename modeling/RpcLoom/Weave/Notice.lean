/-
RpcLoom/Weave/Notice.lean

What weaving has to say to the user.

Design.  A log is a list of notices in the order they were given.  An error is
said when something is given up, a warning when nothing is.
-/
namespace RpcLoom

/-- How grave a notice is. -/
inductive Severity where
  | warning
  | error
  deriving DecidableEq

/-- One thing said to the user. -/
structure Notice where
  severity : Severity
  text : String
  deriving DecidableEq

/-- Everything said, in order. -/
abbrev Log := List Notice

namespace Log

/-- A log of one error. -/
def error (text : String) : Log := [⟨.error, text⟩]

/-- A log of one warning. -/
def warning (text : String) : Log := [⟨.warning, text⟩]

/-- The errors of a log. -/
def errors (log : Log) : Log := log.filter (·.severity == .error)

/-- The warnings of a log. -/
def warnings (log : Log) : Log := log.filter (·.severity == .warning)

end Log

end RpcLoom
