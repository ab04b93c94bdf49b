import Handoff.Event

/-! Journals: the lines by which those who take part in a bridge note what happens. -/
namespace Handoff

inductive Journal.Style where
  /-- A bridge over a script, which notes its own doings. -/
  | script
  | channel
  | producer
  | consumer
  /-- A process that died: what came after the death is left out. -/
  | remains (s : Journal.Style)
deriving DecidableEq, Repr

def Event.isShown : Event → Bool
  | .created | .running | .terminated | .leaving .. | .senderDropped | .dispatchFailed _
  | .joined _ => false
  | _ => true

namespace Journal

def idText (r : Record) : String := toString r.id.toNat

def outcomeLine : Outcome → String
  | .record r => "yield " ++ idText r
  | .endMarker => "end"
  | .failed _ => "fail"
  | .panicked _ => "panic"

def scriptLine? : Event → Option String
  | .starting => some "start"
  | .fetching => some "fetch"
  | .fetched o => some (outcomeLine o)
  | .fetcherDropped .. => some "fetcher dropped"
  | .stopRequested => some "stop"
  | .handling r => some ("handle " ++ idText r)
  | .handled _ => some "handled"
  | .handlerDropped => some "handler dropped"
  | .released r => some ("drop " ++ idText r)
  | .published r => some ("published " ++ idText r)
  | .rejected r => some ("rejected " ++ idText r)
  | .sawStopped b => some ("is_stopped " ++ toString b)
  | .absent => some "absent"
  | .sawLiveness l => some l.text
  | .sawGeneration g => some ("generation " ++ toString g.toNat)
  | .sawClosed l => some ("closed " ++ l.text)
  | .sawJoined l => some ("joined " ++ l.text)
  | .awaitsContext => some "awaits context"
  | .completed => some "completed"
  | .created | .running | .terminated | .leaving .. | .senderDropped | .dispatchFailed _
  | .joined _ => none

def line? : Style → Event → Option String
  | .script, e => scriptLine? e
  | .channel, e => match e with
    | .starting | .fetching | .fetched _ | .fetcherDropped .. | .stopRequested => none
    | e => scriptLine? e
  | .producer, e => match e with
    | .fetcherDropped l _ => some ("fetcher dropped " ++ l.text)
    | .handled _ | .handlerDropped => none
    | e => scriptLine? e
  | .consumer, e => match e with
    | .handling _ | .released _ | .awaitsContext => scriptLine? e
    | _ => none
  | .remains s, e => match e with
    | .handlerDropped | .completed => none
    | e => line? s e

def lines (s : Style) (trace : List Event) : List String := trace.filterMap (line? s)

theorem isShown_of_line? {s : Style} {e : Event} (h : (line? s e).isSome) : e.isShown := by
  induction s with
  | remains s ih => cases e <;> first | rfl | exact ih h
  | script | channel | producer | consumer => cases e <;> first | rfl | cases h

/-- What no journal tells of can be left out. -/
theorem lines_filter_isShown (s : Style) (trace : List Event) :
    lines s (trace.filter Event.isShown) = lines s trace := by
  rw [lines, lines, List.filterMap_filter]
  congr 1
  funext e
  cases hl : line? s e with
  | none => simp
  | some text => simp [isShown_of_line? (s := s) (e := e) (by simp [hl])]

end Journal

end Handoff
