import GrammarSampler.Grammar.Json
import GrammarSampler.Listing.Parser

/-!
# Files

A path is a row of names between slashes. An empty name and a single dot stay where they are, and
two dots go up. A file whose name ends in `.json` holds a grammar in JSON, and any other file a
listing.
-/

namespace GrammarSampler

namespace File

/-! ## Paths -/

def stays (name : List Char) : Bool := name == [] || name == ['.']

def goesUp (name : List Char) : Bool := name == ['.', '.']

def steps (path : String) : List (List Char) :=
  (Text.split '/' path.toList).filter fun name => !stays name

/-- The name of the file that a path leads to, if it does not end by going up. -/
def fileName? (path : String) : Option (List Char) :=
  (steps path).getLast?.filter fun name => !goesUp name

/-- What follows the last dot of a name that has something before it. -/
def extension? (name : List Char) : Option (List Char) :=
  match Text.split '.' name |>.reverse with
  | last :: [before] => if before = [] then none else some last
  | last :: _ :: _ :: _ => some last
  | _ => none

/-- Whether a path leads to a file whose name ends in `.json`. -/
def isJson (path : String) : Bool :=
  (fileName? path).bind extension? == some ['j', 's', 'o', 'n']

/-!
## Directories

A directory in memory, and where a path leads that starts in it. A path is walked name by name, and
every name on it, also one that stays where it is, has to be looked up in a directory.
-/

inductive Content where
  | file (bytes : ByteArray)
  | directory

/-- What stands below a directory, by the paths to it. Of one path the last entry holds. -/
structure Directory where
  contents : List (String × Content)

inductive Place where
  /-- A directory at the end of `names`, of which the innermost is the first. -/
  | inside (names : List (List Char))
  /-- A directory of which nothing is known but that it is there. -/
  | outside
  | file (bytes : ByteArray)

def nameLimit : Nat := 255

def pathLimit : Nat := 4095

namespace Directory

/-- What stands at the end of `names`, the innermost first; a directory if something is below it. -/
def look (d : Directory) (names : List (List Char)) : Except FileFault Place :=
  match d.contents.findRev? fun e => names.reverse.isPrefixOf (steps e.1) with
  | none => .error .missing
  | some (path, .file bytes) =>
    .ok (if (steps path).length = names.length then .file bytes else .inside names)
  | some (_, .directory) => .ok (.inside names)

def step (d : Directory) (place : Place) (name : List Char) : Except FileFault Place :=
  match place with
  | .file _ => .error .notDirectory
  | .inside names =>
    if stays name then .ok place
    else if goesUp name then .ok (if names.isEmpty then .outside else .inside names.tail)
    else if nameLimit < (String.ofList name).utf8ByteSize then .error .nameTooLong
    else d.look (name :: names)
  | .outside =>
    if stays name || goesUp name then .ok place
    else if nameLimit < (String.ofList name).utf8ByteSize then .error .nameTooLong
    else .error .missing

/-- Where a path leads. One that starts at the root leads outside. -/
def walk (d : Directory) (path : String) : Except FileFault Place :=
  let start : Place := if path.toList.head? = some '/' then .outside else .inside []
  (Text.split '/' path.toList).foldlM d.step start

def read (d : Directory) (path : String) : Except FileFault ByteArray :=
  if path.toList.contains '\x00' then .error .zeroInPath
  else if path.isEmpty then .error .missing
  else if pathLimit < path.utf8ByteSize then .error .nameTooLong
  else match d.walk path with
    | .error fault => .error fault
    | .ok (.file bytes) => .ok bytes
    | .ok _ => .error .isDirectory

end Directory

end File

/-! ## Grammars in files -/

/-- The grammar of the file at `path`, where reading the path gives `content`. -/
def Grammar.ofFile (path : String) (content : Except FileFault ByteArray) : Except Fault Grammar :=
  match content with
  | .error cause => .error (.file cause)
  | .ok bytes =>
    match String.fromUTF8? bytes with
    | none => .error (.file .notUtf8)
    | some source =>
      if File.isJson path then Grammar.ofJsonText source else Grammar.ofListing source

end GrammarSampler
