import Petscii.Text.Utf8
/-!
# File trees

A file tree holds files and directories around a working directory and below the root. A path leads through
directories, from the root if it starts with a slash: empty parts and `.` stay where they are and `..` goes
up. The root and the directories above the working directory are always there, and hold what has been written
into them; a tree does not say how far above it the root is, so no path from the root leads to a place below
the working directory. Writing makes the file if its directory is there, and replaces what it held before,
unless the place is locked.
-/

namespace Petscii

inductive Node where
  | directory
  | file (data : Bytes)
  deriving DecidableEq, Repr

namespace FileTree

inductive Fault where
  | noEntry
  | isDirectory
  | notDirectory
  | invalid
  | denied
  /-- A reason that only a machine gives. -/
  | other (reason : String)
  deriving DecidableEq, Repr

def Fault.text : Fault → String
  | .noEntry => "no such file or directory"
  | .isDirectory => "is a directory"
  | .notDirectory => "not a directory"
  | .invalid => "invalid argument"
  | .denied => "permission denied"
  | .other reason => reason

inductive Action where
  | opening
  | reading
  deriving DecidableEq, Repr

def Action.text : Action → String
  | .opening => "open"
  | .reading => "read"

end FileTree

/-- A failure on a path, given as it was asked for. -/
structure PathError where
  action : FileTree.Action
  path : String
  fault : FileTree.Fault
  deriving DecidableEq, Repr

def PathError.message (e : PathError) : String :=
  e.action.text ++ " " ++ e.path ++ ": " ++ e.fault.text

/-- The nodes of a tree, by the parts of the shortest path to them: `..` occurs only in front, and an empty
part, in front of all others, stands for the root. -/
structure FileTree where
  nodes : List (List String × Node) := []
  /-- The places where nothing may be written. -/
  locked : List (List String) := []
  deriving DecidableEq, Repr

namespace FileTree

def root : List String := [""]

/-- Whether parts lead to the root, to the working directory or to one above it. -/
def isAbove (parts : List String) : Bool :=
  parts == root || parts.all (· == "..")

/-- The parts of the directory that holds a node. The root holds itself. -/
def parent (parts : List String) : List String :=
  if parts = root then root else if isAbove parts then parts ++ [".."] else parts.dropLast

def node? (t : FileTree) (parts : List String) : Option Node :=
  if isAbove parts then some .directory else t.nodes.lookup parts

/-- The tree with one node put in or replaced. -/
def put (t : FileTree) (parts : List String) (n : Node) : FileTree :=
  if t.nodes.any fun entry => entry.1 = parts then
    { t with nodes := t.nodes.map fun entry => if entry.1 = parts then (parts, n) else entry }
  else { t with nodes := t.nodes ++ [(parts, n)] }

/-- The parts of a path that lead somewhere, in order. -/
def parts (path : String) : List String :=
  (splitParts path.toList).filter (· ≠ "")
where
  /-- The pieces of a text between slashes. -/
  splitParts : List Char → List String
    | [] => [""]
    | c :: rest =>
      match splitParts rest with
      | [] => []
      | piece :: more =>
        if c = '/' then "" :: piece :: more else (String.singleton c ++ piece) :: more

def start (path : String) : List String :=
  if path.toList.head? = some '/' then root else []

/-- Follow parts through directories, from the directory `here`. -/
def walk (t : FileTree) (here : List String) : List String → Except Fault (List String)
  | [] => .ok here
  | part :: rest =>
    if part = "." then t.walk here rest
    else if part = ".." then t.walk (parent here) rest
    else match t.node? (here ++ [part]) with
      | some .directory => t.walk (here ++ [part]) rest
      | some (.file _) => .error .notDirectory
      | none => .error .noEntry

/-- Where a path leads: to a directory, or to a name in one, which may have a slash behind it. -/
inductive Place where
  | directory
  | entry (parts : List String) (slash : Bool)

def resolve (t : FileTree) (path : String) : Except Fault Place :=
  if '\x00' ∈ path.toList then .error .invalid
  else if path = "" then .error .noEntry
  else
    match (parts path).getLast? with
    | none => .ok .directory
    | some last =>
      if last = "." ∨ last = ".." then do
        let _ ← t.walk (start path) (parts path)
        return .directory
      else do
        let here ← t.walk (start path) (parts path).dropLast
        return .entry (here ++ [last]) (path.toList.getLast? = some '/')

/-- The contents of a file. A directory can be opened but not read. -/
def read (t : FileTree) (path : String) : Except PathError Bytes :=
  match t.resolve path with
  | .error fault => .error ⟨.opening, path, fault⟩
  | .ok .directory => .error ⟨.reading, path, .isDirectory⟩
  | .ok (.entry parts slash) =>
    match t.node? parts with
    | none => .error ⟨.opening, path, .noEntry⟩
    | some .directory => .error ⟨.reading, path, .isDirectory⟩
    | some (.file data) => if slash then .error ⟨.opening, path, .notDirectory⟩ else .ok data

/-- Write a file, or leave the tree as it is. -/
def write (t : FileTree) (path : String) (data : Bytes) : FileTree × Except PathError Unit :=
  match t.resolve path with
  | .error fault => (t, .error ⟨.opening, path, fault⟩)
  | .ok .directory => (t, .error ⟨.opening, path, .isDirectory⟩)
  | .ok (.entry parts slash) =>
    if slash ∨ t.node? parts = some .directory then (t, .error ⟨.opening, path, .isDirectory⟩)
    else if parts ∈ t.locked then (t, .error ⟨.opening, path, .denied⟩)
    else (t.put parts (.file data), .ok ())

/-- Where a part leads from a directory, whatever is there. -/
def follow (here : List String) (part : String) : List String :=
  if part = "." then here
  else if part = ".." then parent here
  else here ++ [part]

/-- Follow parts from the directory `here` and make every directory on the way that is not there. -/
def makeAlong (t : FileTree) (here : List String) : List String → FileTree
  | [] => t
  | part :: rest =>
    let there := follow here part
    if (t.node? there).isSome then t.makeAlong there rest
    else (t.put there .directory).makeAlong there rest

def withDirectory (t : FileTree) (path : String) : FileTree :=
  t.makeAlong (start path) (parts path)

def withFile (t : FileTree) (path : String) (data : Bytes) : FileTree :=
  t.put ((parts path).foldl follow (start path)) (.file data)

/-- The files below the working directory that are not in an earlier tree with the same contents, by path,
in order of their paths. -/
def changedSince (before after : FileTree) : List (String × Bytes) :=
  let changed := after.nodes.filterMap fun (parts, n) =>
    match n with
    | .directory => none
    | .file data =>
      if parts.head? = some ".." ∨ parts.head? = some "" ∨ before.node? parts = some (.file data) then none
      else some (String.intercalate "/" parts, data)
  changed.mergeSort fun a b => a.1 ≤ b.1

end FileTree

end Petscii
