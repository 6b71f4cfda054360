import RenderLog.Demo

/-!
# Command line

Prints the lines of the demonstration, with the settings of the process's own
variables.
-/

def main : IO UInt32 := do
  let enabled ← IO.getEnv (RenderLog.Variable.name .enabled)
  let medium ← IO.getEnv (RenderLog.Variable.name .medium)
  let sandbox ← IO.getEnv (RenderLog.Variable.name .sandbox)
  let lookup : RenderLog.Variable → Option String
    | .enabled => enabled
    | .medium => medium
    | .sandbox => sandbox
  for line in RenderLog.Demo.output lookup do
    IO.println line
  return 0
