import PatternSampler.CommandLine

/-!
# The program
-/

namespace PatternSampler

def freshSource : IO Source := do
  let bytes ← IO.getRandomBytes 8
  pure (Source.ofSeed (bytes.foldl (fun seed byte => seed * 256 + byte.toUInt64) 0))

end PatternSampler

open PatternSampler in
def main (args : List String) : IO UInt32 := do
  let (outcome, _) := (CommandLine.run args).run (← freshSource)
  IO.print outcome.stdout
  IO.eprint outcome.stderr
  pure outcome.code.toUInt32
