/-
  ServLang.Command.Workspace — what a command can read: files by the path its
  arguments name them with, and standard input, which can be read to its end once.
-/

namespace ServLang.Command

structure ReadError where
  reason : String
  /-- The system's number for the reason. -/
  code : Nat
deriving DecidableEq, Repr

namespace ReadError

def text (e : ReadError) : String := e.reason ++ " (os error " ++ e.code.repr ++ ")"

def notFound : ReadError := ⟨"No such file or directory", 2⟩
def permissionDenied : ReadError := ⟨"Permission denied", 13⟩
def notADirectory : ReadError := ⟨"Not a directory", 20⟩
def isADirectory : ReadError := ⟨"Is a directory", 21⟩
def nameTooLong : ReadError := ⟨"File name too long", 36⟩

def all : List ReadError := [notFound, permissionDenied, notADirectory, isADirectory, nameTooLong]

end ReadError

/-- What a path names. -/
inductive Content where
  | bytes (b : ByteArray)
  /-- Standard input, under the name of a device. -/
  | input

structure Workspace where
  file : String → Except ReadError Content
  input : ByteArray

/-- The bytes at a path, and the workspace after reading them: reading standard input,
    by whatever name, leaves nothing of it. -/
def Workspace.read (w : Workspace) (path : String) : Except ReadError ByteArray × Workspace :=
  match if path = "-" then .ok .input else w.file path with
  | .ok (.bytes b) => (.ok b, w)
  | .ok .input => (.ok w.input, { w with input := ByteArray.empty })
  | .error e => (.error e, w)

def Workspace.ofFolder (files : List (String × ByteArray)) (input : ByteArray) : Workspace where
  file name := match files.lookup name with
    | some b => .ok (.bytes b)
    | none => .error .notFound
  input := input

end ServLang.Command
