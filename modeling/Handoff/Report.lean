/-! Error reports and the payloads of panics, with the texts they are shown by. -/
namespace Handoff

/-- A report is a root message and the messages wrapped around it, outermost last. -/
structure Report where
  root : String
  wraps : List String := []
deriving DecidableEq, Repr, Inhabited

namespace Report

def chain (r : Report) : List String := r.root :: r.wraps

def ofChain? : List String → Option Report
  | [] => none
  | root :: wraps => some ⟨root, wraps⟩

def text (r : Report) : String := r.wraps.getLastD r.root

end Report

/-- What a panic carries: a fixed text, a text made for the occasion, or something without a
text. -/
inductive Payload where
  | fixed (text : String)
  | made (text : String)
  | other
deriving DecidableEq, Repr, Inhabited

namespace Payload

def text? : Payload → Option String
  | fixed s | made s => some s
  | other => none

def message (p : Payload) : String := p.text?.getD "unknown panic payload"

end Payload

end Handoff
