import DeskCalculator.CommandLine
/-!
The program.
-/
open DeskCalculator

/-- Answers the lines of the standard input until it or the session ends; gives the exit code. -/
partial def DeskCalculator.answerInput (o : CommandLine.Options) (s : Session) : IO Nat := do
  let line ← (← IO.getStdin).getLine
  if line.isEmpty then return CommandLine.exitCode false
  let r := CommandLine.respond o s line
  if let some text := r.output then IO.println text
  if let some text := r.error then IO.eprintln text
  match r.next with
  | some s => DeskCalculator.answerInput o s
  | none => return CommandLine.exitCode r.brokenOff

def main (args : List String) : IO UInt32 := do
  let random : Random := ⟨(← IO.rand 0 (UInt64.size - 1)).toUInt64⟩
  match CommandLine.parse args with
  | .ok (o, .repl) =>
    let s := Session.ofSettings o.settings random
    IO.println (CommandLine.banner s)
    return (← answerInput o s).toUInt32
  | _ =>
    let r := CommandLine.run random args []
    IO.print r.output
    if let some text := r.error then IO.eprintln s!"Error: {text}"
    return r.exitCode.toUInt32
