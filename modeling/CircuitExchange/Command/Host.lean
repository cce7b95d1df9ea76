/-!
What commands need from the system they run on: files and a place to print to. A directory of texts
is the smallest such system; commands run on it without any effect outside.
-/

namespace CircuitExchange

/-- Files by their path, and standard output. A failure is described by its cause. -/
structure Host (m : Type → Type) where
  isThere : String → m Bool
  read : String → m (Except String String)
  write : String → String → m (Except String Unit)
  print : String → m Unit

/-- A directory without other directories in it, and what was printed. -/
structure Directory where
  files : List (String × String)
  printed : String
deriving DecidableEq, Repr

namespace Directory

/-- Why a path cannot be read or written. -/
inductive Refusal where
  | noSuchFile
  | notADirectory
  | isADirectory
  | nameTooLong
deriving DecidableEq, Repr

def Refusal.cause : Refusal → String
  | noSuchFile => "No such file or directory (os error 2)"
  | notADirectory => "Not a directory (os error 20)"
  | isADirectory => "Is a directory (os error 21)"
  | nameTooLong => "File name too long (os error 36)"

/-! ### Paths -/

/-- The most octets of a name within a path. -/
def maxName : Nat := 255

/-- The most octets of a path. -/
def maxPath : Nat := 4095

/-- What a path can come through: the directory itself, the root, the devices below the root, or
another directory above, of which nothing is known but that it is there. -/
inductive Folder where
  | here
  | root
  | devices
  | above
deriving DecidableEq, Repr

def Folder.parent : Folder → Folder
  | here => above
  | root => root
  | devices => root
  | above => above

/-- What a path leads to. -/
inductive Place where
  | directory
  | entry (folder : Folder) (name : String)
  /-- Something below an entry; `isSlash` if only slashes follow the name of the entry. -/
  | below (folder : Folder) (name : String) (isSlash : Bool)
  | nowhere (reason : Refusal)
deriving DecidableEq, Repr

/-- Walks the parts of a path. -/
def walk (folder : Folder) : List String → Place
  | [] => .directory
  | part :: rest =>
    if part == "" || part == "." then walk folder rest
    else if part == ".." then walk folder.parent rest
    else if folder == .root && part == "dev" then walk .devices rest
    else if rest.isEmpty then .entry folder part
    else .below folder part (rest.all (· == ""))

/-- Where a path leads to. -/
def place (path : String) : Place :=
  if maxPath < path.utf8ByteSize then .nowhere .nameTooLong
  else if path.isEmpty then .nowhere .noSuchFile
  else walk (if path.startsWith "/" then .root else .here) (path.splitOn "/")

/-! ### Files -/

/-- What a name can stand for: a file with its text, or the device that is always empty. -/
inductive Entry where
  | file (text : String)
  | null
deriving DecidableEq, Repr

/-- What is there by a name. -/
def find (d : Directory) (folder : Folder) (name : String) : Except Refusal Entry :=
  if maxName < name.utf8ByteSize then .error .nameTooLong
  else
    match folder with
    | .here => ((d.files.lookup name).map fun text => .ok (.file text)).getD (.error .noSuchFile)
    | .devices => if name == "null" then .ok .null else .error .noSuchFile
    | _ => .error .noSuchFile

/-- Why nothing can be below a name: it is no directory, or it is not there. -/
def reasonBelow (d : Directory) (folder : Folder) (name : String) : Refusal :=
  match d.find folder name with
  | .ok _ => .notADirectory
  | .error reason => reason

def read (d : Directory) (path : String) : Except Refusal String :=
  match place path with
  | .directory => .error .isADirectory
  | .entry folder name => do
    match ← d.find folder name with
    | .file text => return text
    | .null => return ""
  | .below folder name _ => .error (d.reasonBelow folder name)
  | .nowhere reason => .error reason

/-- The directory with one of its files written anew. -/
def replace (d : Directory) (name text : String) : Directory :=
  { d with files := (name, text) :: d.files.filter (·.1 != name) }

/-- Writes a file. A name that is not in use is given to a new file, but only in the directory
itself. -/
def write (d : Directory) (path text : String) : Except Refusal Directory :=
  match place path with
  | .directory => .error .isADirectory
  | .entry folder name =>
    match d.find folder name with
    | .ok .null => .ok d
    | .ok (.file _) => .ok (d.replace name text)
    | .error reason =>
      if folder == .here && reason == .noSuchFile then .ok (d.replace name text)
      else .error reason
  | .below folder name isSlash =>
    .error (if isSlash then .isADirectory else d.reasonBelow folder name)
  | .nowhere reason => .error reason

/-- The directory with files that are written one after the other, without those that cannot be. -/
def ofFiles (files : List (String × String)) : Directory :=
  files.foldl (fun d (path, text) => (d.write path text).toOption.getD d) ⟨[], ""⟩

/-- The directory as a system to run commands on. -/
def host : Host (StateM Directory) where
  isThere path := do
    let d ← get
    return match place path with
      | .directory => true
      | .entry folder name => (d.find folder name).isOk
      | _ => false
  read path := do return ((← get).read path).mapError Refusal.cause
  write path text := do
    match (← get).write path text with
    | .ok d =>
      set d
      return .ok ()
    | .error reason => return .error reason.cause
  print text := modify fun d => { d with printed := d.printed ++ text }

end Directory

end CircuitExchange
