import DiceAlgebra.CommandLine

/-! The program. The prompt has to be seen before the line is read, so it is printed here; all else is the
report. -/
namespace DiceAlgebra.CommandLine

partial def readLine (stdin : IO.FS.Stream) (line : List UInt8) : IO (List UInt8) := do
  let bytes ← stdin.read 1
  match bytes.toList with
  | [] => return line.reverse
  | byte :: _ => if byte = 10 then return (byte :: line).reverse else readLine stdin (byte :: line)

end DiceAlgebra.CommandLine

open DiceAlgebra.CommandLine in
def main (args : List String) : IO UInt32 := do
  let stdin ← if args.isEmpty then
      IO.print prompt
      (← IO.getStdout).flush
      readLine (← IO.getStdin) []
    else
      pure []
  let seed ← IO.getEnv "DICE_SEED"
  let entropy := (← IO.getRandomBytes 8).toUInt64LE!
  let report := respond ⟨args, stdin, seed, entropy⟩
  IO.print report.stdout
  if let some complaint := report.complaint then
    IO.eprint complaint.text
  return report.exitCode
