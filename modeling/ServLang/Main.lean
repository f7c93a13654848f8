/-
  ServLang.Main — the program on a real system: the files its arguments name are read
  first, up to the first that cannot be; what is answered about them is printed.
-/

import ServLang.Command.Run

namespace ServLang.Main

open Command

/-- The system's number for an error; some calls report it negated. -/
def systemNumber (code : UInt32) : Nat := if code < 0x80000000 then code.toNat else (-code).toNat

def systemReason : IO.Error → Nat × String
  | .noFileOrDirectory _ code details | .permissionDenied _ code details
  | .inappropriateType _ code details | .invalidArgument _ code details
  | .hardwareFault code details | .otherError code details => (systemNumber code, details)
  | e => (0, e.toString)

/-- The known reason of a failed call's number, or else the words it came with. -/
def readErrorOf (e : IO.Error) : ReadError :=
  let (number, details) := systemReason e
  (ReadError.all.find? (·.code = number)).getD ⟨details, number⟩

partial def readToEnd (stream : IO.FS.Stream) (read : ByteArray) : IO ByteArray := do
  let chunk ← stream.read 65536
  if chunk.isEmpty then return read else readToEnd stream (read ++ chunk)

def inputPaths : List String := ["-", "/dev/stdin", "/dev/fd/0", "/proc/self/fd/0"]

/-- Files by path, as far as a run reads them, and standard input if it is read. -/
def readFiles : List String → IO (List (String × Except ReadError Content) × ByteArray)
  | [] => return ([], ByteArray.empty)
  | path :: rest => do
    if inputPaths.contains path then
      let input ← readToEnd (← IO.getStdin) ByteArray.empty
      return ((path, .ok .input) :: (← readFiles rest).1, input)
    else
      match ← (IO.FS.readBinFile path).toBaseIO with
      | .ok bytes => do
        let (files, input) ← readFiles rest
        return ((path, .ok (.bytes bytes)) :: files, input)
      | .error e => return ([(path, .error (readErrorOf e))], ByteArray.empty)

def workspaceOf (files : List (String × Except ReadError Content)) (input : ByteArray) : Workspace where
  file path := (files.lookup path).getD (.error .notFound)
  input := input

end ServLang.Main

open ServLang ServLang.Command ServLang.Main in
def main (arguments : List String) : IO UInt32 := do
  let invocation := readArguments arguments
  let (files, input) ← readFiles invocation.files
  let outcome := invocation.run (workspaceOf files input)
  (← IO.getStdout).putStr outcome.stdout
  (← IO.getStderr).putStr outcome.stderr
  return outcome.exit.toUInt32
