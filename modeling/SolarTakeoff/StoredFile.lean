/-!
# Stored files

What is found where a file is looked for.  Configurations and catalogs are
text; a file is read as a whole before anything is made of it.
-/

namespace SolarTakeoff

inductive StoredFile where
  | absent
  | directory
  | unreadable (reason : String)
  | content (bytes : ByteArray)

/-- Why a file gives no text. -/
inductive FileProblem where
  | absent
  | directory
  | unreadable (reason : String)
  | notText
deriving DecidableEq

def FileProblem.message : FileProblem → String
  | .absent => "No such file or directory (os error 2)"
  | .directory => "Is a directory (os error 21)"
  | .unreadable reason => reason
  | .notText => "stream did not contain valid UTF-8"

namespace StoredFile

def ofText (text : String) : StoredFile :=
  .content text.toUTF8

/-- The text of a file, which has to be UTF-8. -/
def text : StoredFile → Except FileProblem String
  | .absent => .error .absent
  | .directory => .error .directory
  | .unreadable reason => .error (.unreadable reason)
  | .content bytes =>
    match String.fromUTF8? bytes with
    | some text => .ok text
    | none => .error .notText

end StoredFile

end SolarTakeoff
