import AggFlatten.CommandLine.Run

/-! The program around `CommandLine.run`: the standard input is read to its end if the
command needs it, and only then. -/

def main (arguments : List String) : IO UInt32 := do
  let stdin ←
    if AggFlatten.CommandLine.readsInput arguments then (← IO.getStdin).readBinToEnd
    else pure ByteArray.empty
  let outcome := AggFlatten.CommandLine.run arguments stdin
  (← IO.getStdout).putStr outcome.stdout
  (← IO.getStderr).putStr outcome.stderr
  return outcome.status.toUInt32
