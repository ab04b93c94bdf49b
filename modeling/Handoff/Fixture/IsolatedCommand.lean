/-! The command that runs one test in a process of its own. -/
namespace Handoff.Fixture

/-- The variable by which a process knows that it was started to run one test. -/
def isolationVariable : String := "ISOLATED_TEST_RUNNER"

structure IsolatedCommand where
  args : List String
  envs : List (String × String)
  isOwnProgram : Bool
deriving DecidableEq, Repr

namespace IsolatedCommand

def ofTest (name : String) : IsolatedCommand where
  args := ["--exact", "--test-threads", "1", "--nocapture", name]
  envs := [(isolationVariable, "1"), ("RUST_BACKTRACE", "1")]
  isOwnProgram := true

def env? (c : IsolatedCommand) (name : String) : Option String :=
  (c.envs.find? (·.1 == name)).map (·.2)

end IsolatedCommand

def isIsolated (env? : String → Option String) : Bool := (env? isolationVariable).isSome

end Handoff.Fixture
