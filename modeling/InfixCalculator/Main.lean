import InfixCalculator.CommandLine.Session

namespace InfixCalculator.Program

/-! The program: it reads and prints, line by line, what the library answers. -/

open CommandLine

def usage : String := "Usage: shuntcalc [OPTIONS] [EXPRESSION]\n"

/-- What has been read and the input up to the end of the line, or all of it. -/
partial def readLine (input : IO.FS.Stream) (read : ByteArray) : IO ByteArray := do
  let byte ← input.read 1
  if byte.isEmpty || byte == ⟨#[10]⟩ then return read ++ byte
  readLine input (read ++ byte)

partial def converse (options : Options) (input output : IO.FS.Stream) : IO UInt32 := do
  output.putStr Session.prompt
  output.flush
  let bytes ← readLine input .empty
  match Session.lines bytes.toList with
  | [] =>
      output.putStr Session.farewell
      return 0
  | line :: _ =>
      let reply := Session.reply Calculator.standard options line
      output.putStr reply.output
      match reply.exitCode with
      | some code => return code.toUInt32
      | none => converse options input output

end InfixCalculator.Program

open InfixCalculator CommandLine in
def main (arguments : List String) : IO UInt32 := do
  match Request.ofArguments arguments with
  | .session options =>
      let output ← IO.getStdout
      output.putStr (Session.banner Calculator.standard.table)
      Program.converse options (← IO.getStdin) output
  | .misuse =>
      IO.eprint Program.usage
      return 2
  | _ =>
      let outcome := run Program.usage arguments []
      IO.print outcome.output
      return outcome.exitCode.toUInt32
