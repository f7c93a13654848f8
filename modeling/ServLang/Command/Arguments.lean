/-
  ServLang.Command.Arguments — what a command line asks for.

    servc check [--strict] FILE...
    servc lint FILE...
    servc fmt FILE
    servc tokens FILE

  The program declares its actions, how many files each takes, and two options:
  `--strict` of `check`, and `-v` or `--verbose` of them all, any number of times and
  anywhere, for a log, which is no part of what a command answers. How arguments are
  matched with the declarations is the usual way: one-letter options may share a dash,
  options may come after files, `--` ends them, `-` is a file (standard input), and
  there are `--help`, `--version` and a `help` action besides. Arguments are read from
  left to right, and the first that asks for help or the version, or that fits nowhere,
  decides.

  Proved: every job has a command line that asks for it (`readArguments_arguments`), and
  files that can only be paths are read as they stand (`readArguments_paths`).
-/

namespace ServLang.Command

inductive Action where
  | check | lint | fmt | tokens
deriving DecidableEq, Repr

namespace Action

def all : List Action := [check, lint, fmt, tokens]

def word : Action → String
  | check => "check"
  | lint => "lint"
  | fmt => "fmt"
  | tokens => "tokens"

def ofWord? (word : String) : Option Action := all.find? (·.word = word)

def manyFiles : Action → Bool
  | check | lint => true
  | fmt | tokens => false

def hasStrict : Action → Bool
  | check => true
  | lint | fmt | tokens => false

end Action

inductive Job where
  | check (strict : Bool) (files : List String)
  | lint (files : List String)
  | fmt (file : String)
  | tokens (file : String)
deriving DecidableEq, Repr

inductive Invocation where
  | job (j : Job)
  | version
  | help
  /-- The arguments fit no use of the program. -/
  | refused
deriving DecidableEq, Repr

def Job.files : Job → List String
  | check _ files | lint files => files
  | fmt file | tokens file => [file]

def Invocation.files : Invocation → List String
  | job j => j.files
  | version | help | refused => []

inductive Argument where
  | word (text : String)
  | letters (options : List Char)
  | long (name : String)
  | endOfOptions
deriving DecidableEq, Repr

def Argument.ofString (text : String) : Argument :=
  match text.toList with
  | ['-', '-'] => endOfOptions
  | '-' :: '-' :: name => long (String.ofList name)
  | '-' :: c :: cs => letters (c :: cs)
  | _ => word text

/-- What one-letter options decide, if anything. The version is that of the program, so it is asked for before an action. -/
def lettersDecide (beforeAction : Bool) : List Char → Option Invocation
  | [] => none
  | c :: cs =>
    if c = 'v' then lettersDecide beforeAction cs
    else if c = 'h' then some .help
    else if c = 'V' && beforeAction then some .version
    else some .refused

structure Request where
  action : Action
  strict : Bool
  files : List String
deriving DecidableEq, Repr

namespace Request

/-- One more file. A path is never empty. -/
def addFile? (r : Request) (path : String) : Option Request :=
  if path.isEmpty || (!r.action.manyFiles && !r.files.isEmpty) then none
  else some { r with files := r.files ++ [path] }

def finish (r : Request) : Invocation :=
  match r.files with
  | [] => .refused
  | file :: _ =>
    match r.action with
    | .check => .job (.check r.strict r.files)
    | .lint => .job (.lint r.files)
    | .fmt => .job (.fmt file)
    | .tokens => .job (.tokens file)

/-- After `--`: nothing but files. -/
def readFiles (r : Request) : List String → Invocation
  | [] => r.finish
  | path :: rest =>
    match r.addFile? path with
    | some r' => r'.readFiles rest
    | none => .refused

def read (r : Request) : List String → Invocation
  | [] => r.finish
  | text :: rest =>
    match Argument.ofString text with
    | .endOfOptions => r.readFiles rest
    | .word path =>
      match r.addFile? path with
      | some r' => r'.read rest
      | none => .refused
    | .letters options => (lettersDecide false options).getD (r.read rest)
    | .long name =>
      if name = "verbose" then r.read rest
      else if name = "help" then .help
      else if name = "strict" && r.action.hasStrict && !r.strict then { r with strict := true }.read rest
      else .refused

end Request

/-- `help` may name the action to be explained. -/
def readHelp : List String → Invocation
  | [] => .help
  | [word] => if word = "help" || (Action.ofWord? word).isSome then .help else .refused
  | _ => .refused

def readArguments : List String → Invocation
  | [] => .refused
  | text :: rest =>
    match Argument.ofString text with
    | .endOfOptions => .refused
    | .word word =>
      match Action.ofWord? word with
      | some action => Request.read ⟨action, false, []⟩ rest
      | none => if word = "help" then readHelp rest else .refused
    | .letters options => (lettersDecide true options).getD (readArguments rest)
    | .long name =>
      if name = "verbose" then readArguments rest
      else if name = "help" then .help
      else if name = "version" then .version
      else .refused

/-! ## Command lines of files -/

/-- An argument that can only be a path. -/
structure IsPath (argument : String) : Prop where
  word : Argument.ofString argument = .word argument
  nonempty : argument ≠ ""

namespace Request

variable {r : Request} {files : List String}

theorem addFile?_eq {path : String} (h : path ≠ "") (hroom : r.action.manyFiles = true ∨ r.files = []) :
    r.addFile? path = some { r with files := r.files ++ [path] } := by
  rcases hroom with hroom | hroom <;> simp [addFile?, h, hroom]

/-- What can only be a path is read as if it stood after `--`. -/
theorem read_paths (h : ∀ f ∈ files, IsPath f) : r.read files = r.readFiles files := by
  induction files generalizing r with
  | nil => rfl
  | cons f files ih =>
    rw [read, (h f List.mem_cons_self).word, readFiles]
    dsimp only
    cases r.addFile? f with
    | none => rfl
    | some r' => exact ih fun g hg => h g (List.mem_cons_of_mem _ hg)

/-- After `--` every argument is a file, whatever it looks like. -/
theorem readFiles_eq (h : ∀ f ∈ files, f ≠ "") (hmany : r.action.manyFiles = true) :
    r.readFiles files = { r with files := r.files ++ files }.finish := by
  induction files generalizing r with
  | nil => rw [readFiles, List.append_nil]
  | cons f files ih =>
    have rest := ih (r := { r with files := r.files ++ [f] }) (fun g hg => h g (List.mem_cons_of_mem _ hg)) hmany
    rw [readFiles, addFile?_eq (h f List.mem_cons_self) (Or.inl hmany)]
    dsimp only
    rw [rest, List.append_assoc, List.singleton_append]

end Request

namespace Job

def request : Job → Request
  | check strict files => ⟨.check, strict, files⟩
  | lint files => ⟨.lint, false, files⟩
  | fmt file => ⟨.fmt, false, [file]⟩
  | tokens file => ⟨.tokens, false, [file]⟩

theorem finish_request {j : Job} (hne : j.files ≠ []) : j.request.finish = .job j := by
  cases j with
  | check strict files | lint files =>
    cases files with
    | nil => exact absurd rfl hne
    | cons file files => rfl
  | fmt file | tokens file => rfl

/-- A job's files, after `--`. -/
theorem readFiles_request {j : Job} (hne : j.files ≠ []) (h : ∀ f ∈ j.files, f ≠ "") :
    Request.readFiles { j.request with files := [] } j.files = .job j := by
  rw [← finish_request hne]
  cases j with
  | check strict files | lint files => exact Request.readFiles_eq h rfl
  | fmt file | tokens file =>
    rw [files, Request.readFiles, Request.addFile?_eq (h file List.mem_cons_self) (Or.inr rfl)]
    rfl

/-- A command line for a job. After `--` a path may look like an option. -/
def arguments : Job → List String
  | check strict files => "check" :: (if strict then "--strict" :: "--" :: files else "--" :: files)
  | lint files => "lint" :: "--" :: files
  | fmt file => ["fmt", "--", file]
  | tokens file => ["tokens", "--", file]

end Job

/-- Every job over files has a command line that asks for it. -/
theorem readArguments_arguments {j : Job} (hne : j.files ≠ []) (h : ∀ f ∈ j.files, f ≠ "") :
    readArguments j.arguments = .job j := by
  have asked : readArguments j.arguments = Request.readFiles { j.request with files := [] } j.files := by
    cases j with
    | check strict files => cases strict <;> rfl
    | lint files | fmt file | tokens file => rfl
  rw [asked, Job.readFiles_request hne h]

/-- Files that can only be paths need no `--`. -/
theorem readArguments_paths {files : List String} (hne : files ≠ []) (h : ∀ f ∈ files, IsPath f) :
    readArguments ("lint" :: files) = .job (.lint files) ∧
      readArguments ("check" :: files) = .job (.check false files) := by
  have nonempty : ∀ f ∈ files, f ≠ "" := fun f hf => (h f hf).nonempty
  have lint : readArguments ("lint" :: files) = Request.read ⟨.lint, false, []⟩ files := rfl
  have check : readArguments ("check" :: files) = Request.read ⟨.check, false, []⟩ files := rfl
  rw [lint, check, Request.read_paths h, Request.read_paths h]
  exact ⟨Job.readFiles_request (j := .lint files) hne nonempty,
    Job.readFiles_request (j := .check false files) hne nonempty⟩

end ServLang.Command
