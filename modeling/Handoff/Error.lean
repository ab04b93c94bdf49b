import Handoff.Report

/-! The ways in which a bridge fails, and their texts. -/
namespace Handoff

inductive BridgeError where
  | sourceRefused (report : Report)
  | threadRefused (cause : String)
  | sourceFailed (delivered : Nat) (report : Report)
  | producerPanicked (message : String)
  | consumerDropped
deriving DecidableEq, Repr

inductive DispatchError where
  | consumerGone
  | handlerAborted
deriving DecidableEq, Repr

namespace BridgeError

def message : BridgeError → String
  | sourceRefused report => "Failed to start the upstream source: " ++ report.text
  | threadRefused _ => "Failed to spawn the bridge producer thread"
  | sourceFailed n report =>
    "Upstream source failed after " ++ toString n ++ " records: " ++ report.text
  | producerPanicked message => "Bridge producer thread panicked: " ++ message
  | consumerDropped => "Bridge consumer context was dropped before the stream finished"

def code : BridgeError → String
  | sourceRefused _ => "r3bl_thread_bridge::upstream_start"
  | threadRefused _ => "r3bl_thread_bridge::thread_spawn"
  | sourceFailed .. => "r3bl_thread_bridge::upstream_failed"
  | producerPanicked _ => "r3bl_thread_bridge::producer_panicked"
  | consumerDropped => "r3bl_thread_bridge::consumer_dropped"

def help? : BridgeError → Option String
  | threadRefused _ => some <|
    "The system may have reached its thread limit - check `ulimit -u` for per-user limit, " ++
    "`cat /proc/sys/kernel/threads-max` for system-wide limit"
  | producerPanicked _ => some "The upstream source panicked inside `fetch_next()`."
  | consumerDropped => some <|
    "Keep the `LocalSet` that `create_bridge()` was called in running until " ++
    "the completion resolves."
  | sourceRefused _ | sourceFailed .. => none

def cause? : BridgeError → Option String
  | threadRefused cause => some cause
  | _ => none

end BridgeError

namespace DispatchError

def message : DispatchError → String
  | consumerGone => "The consumer side of the safe call queue is gone"
  | handlerAborted => "The handler invocation was dropped before it completed"

def code : DispatchError → String
  | consumerGone => "r3bl_thread_bridge::dispatch::consumer_gone"
  | handlerAborted => "r3bl_thread_bridge::dispatch::handler_aborted"

def fatalText : String := "thread bridge: fatal dispatch failure"

def fatalLine (e : DispatchError) (generation : UInt32) : String :=
  fatalText ++ " (bridge generation " ++ toString generation.toNat ++ "): " ++ e.message

end DispatchError

end Handoff
