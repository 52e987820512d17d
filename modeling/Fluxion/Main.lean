import Fluxion.CommandLine.Report

/-! The command: reads its arguments, prints the outcome, and exits with its code. -/

def main (arguments : List String) : IO UInt32 := do
  let outcome := Fluxion.CommandLine.run arguments
  (← IO.getStdout).putStr outcome.output
  for line in outcome.errors do
    (← IO.getStderr).putStrLn line
  return outcome.exitCode.toUInt32
