import Handoff.Config
import Handoff.Event
import Handoff.Log.Level
import Handoff.Text.Terminal

/-! Log lines: what the events of a bridge write into its log, and how lines are read back. -/
namespace Handoff

namespace Log

structure Line where
  thread : String
  level : Level
  text : String
deriving DecidableEq, Repr

def mainThread : String := "main"

end Log

def Log.field (name value : String) : String := " " ++ name ++ "=" ++ value

/-- The text of a regular exit; the report of a failed source is left out. -/
def Exit.logText (delivered : Nat) : Exit → String
  | .endOfStream => "EndOfStream \x7b records_delivered: " ++ toString delivered ++ " \x7d"
  | .failed _ => "UpstreamFailed \x7b records_delivered: " ++ toString delivered
  | .panicked _ => ""

def Event.line? (generation : UInt32) (threadName : String) (e : Event) : Option Log.Line :=
  let gen := Log.field "generation" (toString generation.toNat)
  match e with
  | .created => some ⟨Log.mainThread, .debug,
      "bridge: created" ++ gen ++ Log.field "thread_name" threadName⟩
  | .running => some ⟨threadName, .debug, "bridge producer: started" ++ gen⟩
  | .fetched (.failed report) => some ⟨threadName, .debug,
      "bridge producer: upstream failed" ++ gen ++ Log.field "error" report.text⟩
  | .leaving exit n => some ⟨threadName, .debug,
      "bridge producer: releasing queue" ++ gen ++ Log.field "exit" (exit.logText n)⟩
  | .dispatchFailed e => some ⟨threadName, .error,
      "bridge producer: dispatch failed, aborting" ++ gen ++ Log.field "error" e.message⟩
  | .joined isOk => some ⟨Log.mainThread, .debug,
      "bridge finalizer: producer joined" ++ gen ++ Log.field "is_ok" (toString isOk)⟩
  | .stopRequested => some ⟨Log.mainThread, .debug, "bridge: stop requested"⟩
  | _ => none

namespace Log.Line

structure Seen where
  thread : String
  text : String
deriving DecidableEq, Repr

def word (cs : List Char) : List Char × List Char :=
  (cs.takeWhile (· != ' '), (cs.dropWhile (· != ' ')).dropWhile Text.isBlank)

def failureMark : String := "exit=UpstreamFailed"

def reportMark : String := ", report:"

/-- The text of a line about a failed source ends before the report. -/
def cutReport (s : String) : String :=
  if Text.contains failureMark.toList s.toList then
    String.ofList ((Text.before? reportMark.toList s.toList).getD s.toList)
  else s

/-- Times are written with their year first and the sign of universal time last. -/
def isTime (cs : List Char) : Bool := "20".toList.isPrefixOf cs && cs.getLast? == some 'Z'

def generation? (cs : List Char) : Option (List Char × List Char) :=
  let mark := Config.generationMark.toList
  let number := (cs.drop mark.length).takeWhile Char.isDigit
  match cs.drop (mark ++ number).length with
  | ' ' :: rest =>
    if mark.isPrefixOf cs && !number.isEmpty then some (mark ++ number, rest) else none
  | _ => none

def producer? : List Char → Option (List Char × List Char)
  | [] => none
  | c :: rest => match generation? (c :: rest) with
    | some found => some found
    | none => (producer? rest).map fun (name, text) => (c :: name, text)

/-- Cuts off the name of a thread and the one blank after it; further blanks belong to the text. -/
def thread? (cs : List Char) : Option (List Char × List Char) :=
  let main := mainThread.toList
  if (main ++ [' ']).isPrefixOf cs then some (main, cs.drop (main.length + 1)) else producer? cs

/-- A text is a log line if it begins with a time, a level and a thread. -/
def ofText? (s : String) : Option Seen := do
  let (time, rest) := word (Text.shown s).toList
  let (level, rest) := word rest
  let (thread, text) ← thread? rest
  if isTime time then
    some ⟨String.ofList thread, String.ofList level ++ " " ++ cutReport (String.ofList text)⟩
  else none

/-- The log lines in a text; what follows the last line break is a line too. -/
def inText (s : String) : List Seen := (Text.pieces '\n' s).filterMap ofText?

/-- A time that stands for all times, as none is seen when a line is read back. -/
def someTime : String := "20Z"

def written (l : Line) : String :=
  someTime ++ " " ++ l.level.text ++ " " ++ l.thread ++ " " ++ l.text ++ "\n"

def byThread (ls : List Seen) : List (String × List String) :=
  (ls.map (·.thread)).eraseDups.map fun t => (t, (ls.filter (·.thread == t)).map (·.text))

end Log.Line

end Handoff
