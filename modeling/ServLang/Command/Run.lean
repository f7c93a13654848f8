/-
  ServLang.Command.Run — what the program answers: text for standard output and
  standard error, and an exit code. 0 is success; 1 is a file that could not be read
  or is not as it should be; 2 is a command line that makes no sense.

  `check` and `lint` report on one file after the other. A file that does not parse
  is reported like any other mistake and the next one is read; a file that cannot be
  read ends the run, and for `lint` so does one that is not UTF-8.
-/

import ServLang.Command.Arguments
import ServLang.Command.Workspace
import ServLang.Compilation
import ServLang.Document.Printer
import ServLang.Lint

namespace ServLang.Command

structure Outcome where
  exit : Nat
  stdout : String
  stderr : String
deriving DecidableEq, Repr

def unlines (lines : List String) : String := String.join (lines.map (· ++ "\n"))

/-- Why a run ended early: what was being done, and the causes, the nearest first. -/
structure Failure where
  subject : String
  causes : List String
deriving DecidableEq, Repr

namespace Failure

def numbered (n : Nat) : List String → List String
  | [] => []
  | cause :: rest => ("    " ++ n.repr ++ ": " ++ cause) :: numbered (n + 1) rest

def causeLines : List String → List String
  | [cause] => ["    " ++ cause]
  | causes => numbered 0 causes

def text (f : Failure) : String :=
  unlines (("Error: " ++ f.subject) :: "" :: "Caused by:" :: causeLines f.causes)

def outcome (f : Failure) (printed : List String) : Outcome := ⟨1, unlines printed, f.text⟩

end Failure

/-! ## Reading -/

def readSource (w : Workspace) (path : String) : Except Failure ByteArray × Workspace :=
  match w.read path with
  | (.ok bytes, w') => (.ok bytes, w')
  | (.error e, w') => (.error ⟨"reading " ++ path, [e.text]⟩, w')

def readText (w : Workspace) (path : String) : Except Failure String × Workspace :=
  match readSource w path with
  | (.ok bytes, w') =>
    match Source.decode bytes with
    | .ok text => (.ok text, w')
    | .error e => (.error ⟨path, [e.message]⟩, w')
  | (.error f, w') => (.error f, w')

/-! ## Many files -/

structure FileReport where
  lines : List String
  /-- Whether the file holds no document to look at. -/
  broken : Bool
  errors : Nat
  warnings : Nat
deriving DecidableEq, Repr

def checkFile (strict : Bool) (path : String) (bytes : ByteArray) : FileReport :=
  match Document.compile strict bytes with
  | .ok _ => ⟨[], false, 0, 0⟩
  | .error e => ⟨[path ++ ": " ++ e.message], true, 0, 0⟩

def lintText (path : String) (text : String) : FileReport :=
  match Document.parse text with
  | .ok d =>
    ⟨d.lint.map fun f => path ++ ": " ++ f.text, false,
      d.lint.countP (·.severity = .error), d.lint.countP (·.severity = .warning)⟩
  | .error e => ⟨[path ++ ": " ++ e.message], true, 0, 0⟩

/-- Reports on each file up to the first that cannot be read. -/
def reportEach {α : Type} (read : Workspace → String → Except Failure α × Workspace)
    (report : String → α → FileReport) (w : Workspace) : List String → List FileReport × Option Failure
  | [] => ([], none)
  | path :: rest =>
    match read w path with
    | (.ok content, w') =>
      let (reports, failure) := reportEach read report w' rest
      (report path content :: reports, failure)
    | (.error f, _) => ([], some f)

def summary (errors warnings : Nat) : List String :=
  if errors = 0 ∧ warnings = 0 then []
  else ["lint: " ++ errors.repr ++ " error(s), " ++ warnings.repr ++ " warning(s)"]

def Outcome.ofReports (reports : List FileReport) (failure : Option Failure) : Outcome :=
  let lines := reports.flatMap (·.lines)
  let errors := reports.foldr (fun r n => r.errors + n) 0
  let warnings := reports.foldr (fun r n => r.warnings + n) 0
  match failure with
  | some f => f.outcome lines
  | none =>
    ⟨if reports.any (·.broken) || errors != 0 then 1 else 0, unlines lines, unlines (summary errors warnings)⟩

def checkFiles (strict : Bool) (w : Workspace) (files : List String) : Outcome :=
  let (reports, failure) := reportEach readSource (checkFile strict) w files
  .ofReports reports failure

def lintFiles (w : Workspace) (files : List String) : Outcome :=
  let (reports, failure) := reportEach readText lintText w files
  .ofReports reports failure

/-! ## One file -/

def fmtText (path text : String) : Outcome :=
  match Document.parse text with
  | .ok d => ⟨0, d.text, ""⟩
  | .error e => Failure.outcome ⟨path, [e.message, e.cause]⟩ []

def tokenLine (t : Token) : String := t.position.text ++ "\t" ++ t.lexeme.kind ++ "\t" ++ t.lexeme.text

def tokensText (path text : String) : Outcome :=
  let scan := Scan.ofString text
  let lines := scan.tokens.map tokenLine
  match scan.ending with
  | .finished _ => ⟨0, unlines lines, ""⟩
  | .failed e => Failure.outcome ⟨path, [e.message]⟩ lines

def oneFile (answer : String → String → Outcome) (w : Workspace) (path : String) : Outcome :=
  match readText w path with
  | (.ok text, _) => answer path text
  | (.error f, _) => f.outcome []

/-! ## The program -/

def Job.run (j : Job) (w : Workspace) : Outcome :=
  match j with
  | check strict files => checkFiles strict w files
  | lint files => lintFiles w files
  | fmt file => oneFile fmtText w file
  | tokens file => oneFile tokensText w file

/-- What help and refusals say is not the program's own text and left out. -/
def Invocation.run (i : Invocation) (w : Workspace) : Outcome :=
  match i with
  | job j => j.run w
  | version => ⟨0, "servc 0.1.0\n", ""⟩
  | help => ⟨0, "", ""⟩
  | refused => ⟨2, "", ""⟩

def run (arguments : List String) (w : Workspace) : Outcome := (readArguments arguments).run w

end ServLang.Command
