import GrammarSampler.Command.Reply

/-!
# The program

Reads the file that the command line names, prints the reply, and ends with its code.
-/

namespace GrammarSampler.Command

def readFile (path : String) : IO (Except FileFault ByteArray) := do
  try
    return .ok (← IO.FS.readBinFile path)
  catch
    | .noFileOrDirectory .. => return .error .missing
    -- A directory can be opened, so that its fault is one of reading and names no path.
    | .inappropriateType none .. => return .error .isDirectory
    | .inappropriateType .. => return .error .notDirectory
    | .invalidArgument .. => return .error .nameTooLong
    | _ => return .error .missing

/-- A source that differs from run to run. -/
def chance : IO Source := do
  let bytes ← IO.getRandomBytes 8
  return .ofSeed (bytes.foldl (fun seed byte => seed <<< 8 ||| byte.toUInt64) 0)

def Request.content (request : Request) : IO (Except FileFault ByteArray) :=
  match request with
  | .sample { file := some path, .. } => readFile path
  | _ => return .error .missing

end GrammarSampler.Command

open GrammarSampler Command in
def main (arguments : List String) : IO UInt32 := do
  match Request.ofArguments? arguments with
  | none =>
    IO.eprint usage
    return 2
  | some request =>
    let content ← request.content
    match request.reply (fun _ => content) (← chance) with
    | none =>
      IO.eprintln "Error: the derivation does not end"
      return 1
    | some reply =>
      IO.print reply.output
      if let some fault := reply.fault then IO.eprintln ("Error: " ++ fault.literal)
      return reply.code.toUInt32
