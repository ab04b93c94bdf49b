/-! Levels of log events, from none at all to everything. -/
namespace Handoff.Log

/-- A filter lets pass what is at most as verbose as itself. -/
inductive Level where
  | off
  | error
  | warn
  | info
  | debug
  | trace
deriving DecidableEq, Repr

namespace Level

def rank : Level → Nat
  | off => 0
  | error => 1
  | warn => 2
  | info => 3
  | debug => 4
  | trace => 5

def max (a b : Level) : Level := if a.rank ≤ b.rank then b else a

def passes (filter event : Level) : Bool := event.rank ≤ filter.rank

def text : Level → String
  | off => "OFF"
  | error => "ERROR"
  | warn => "WARN"
  | info => "INFO"
  | debug => "DEBUG"
  | trace => "TRACE"

def all : List Level := [off, error, warn, info, debug, trace]

def ofText? (s : String) : Option Level := all.find? (·.text == s)

end Level

end Handoff.Log
