import Dealias.OrderedMap
import Dealias.Store.Basic

/-!
# Stored trees on disk

A tree of directories, files and symbolic links as an operating system keeps it.  A path is walked
name by name from the root or from the working directory; a link met on the way is replaced by its
target, at most forty times in one walk.  A refusal carries the number and the wording that the
system gives to its cause.
-/

namespace Dealias

/-! ## Faults -/

/-- Why the system refuses. -/
inductive DiskFault where
  | missing
  | notDirectory
  | isDirectory
  | nameTooLong
  | linkLoop
  | zeroByte
deriving DecidableEq, Repr

/-- The wording of a refusal. -/
def DiskFault.message : DiskFault → String
  | missing => "No such file or directory (os error 2)"
  | notDirectory => "Not a directory (os error 20)"
  | isDirectory => "Is a directory (os error 21)"
  | nameTooLong => "File name too long (os error 36)"
  | linkLoop => "Too many levels of symbolic links (os error 40)"
  | zeroByte => "file name contained an unexpected NUL byte"

/-! ## Trees -/

/-- A place on disk: the names from the root, the last one first. -/
abbrev DiskPlace := List String

/-- What stands at a place. -/
inductive DiskNode where
  | directory
  | file (content : ByteArray)
  | link (target : String)

/-- A tree of places.  The root is always a directory. -/
structure DiskTree where
  workingDirectory : DiskPlace
  nodes : List (DiskPlace × DiskNode)

/-- A path as the system reads it. -/
structure DiskRoute where
  isAbsolute : Bool
  names : List String
  /-- A slash at the end asks for a directory. -/
  endsInSlash : Bool

/-- Read the text of a path. -/
def DiskRoute.ofText (text : String) : DiskRoute where
  isAbsolute := text.toList.head? == some '/'
  names := ((segments text.toList).filter fun segment => segment != []).map String.ofList
  endsInSlash := text.toList.getLast? == some '/'

/-- Why a path is refused before it is walked. -/
def pathFault? (text : String) : Option DiskFault :=
  if text.toList.contains '\x00' then some .zeroByte
  else if text.toList = [] then some .missing
  else if text.utf8ByteSize < 4096 then none
  else some .nameTooLong

/-- What a path is walked for. -/
inductive DiskPurpose where
  /-- To look at what stands there, a link included. -/
  | inspect
  /-- To use what stands there, behind a link. -/
  | use
  /-- To write a file there, behind a link. -/
  | write
deriving DecidableEq, Repr

/-- The names to walk for a route.  A slash at its end stands for one more step to the same
directory.  Nothing can be written there, so a walk to write does not even look at the last name and
ends at the directory above it. -/
def DiskRoute.steps (route : DiskRoute) (purpose : DiskPurpose) : List String :=
  if route.endsInSlash then
    (if purpose = .write then route.names.dropLast else route.names) ++ ["."]
  else route.names

/-- Where a walk ends: at something, or right before something that is missing. -/
inductive DiskEnd where
  | found (place : DiskPlace) (node : DiskNode)
  | vacant (place : DiskPlace)

/-- How far a walk comes without following a link. -/
inductive DiskStage where
  | ended (result : DiskEnd)
  | atLink (directory : DiskPlace) (target : String) (rest : List String)

namespace DiskTree

/-- What stands at a place. -/
def node? (tree : DiskTree) : DiskPlace → Option DiskNode
  | [] => some .directory
  | place => tree.nodes.lookup place

/-- Put something at a place, over what is there. -/
def put (tree : DiskTree) (place : DiskPlace) (node : DiskNode) : DiskTree :=
  { tree with nodes := upsert place node tree.nodes }

/-! ## Walking -/

/-- Walk from a directory up to the end of the names or up to a link.  A link that is the last
name ends the walk if it is walked to inspect it. -/
def advance (tree : DiskTree) (purpose : DiskPurpose) (directory : DiskPlace) :
    List String → Except DiskFault DiskStage
  | [] => .ok (.ended (.found directory .directory))
  | "." :: rest => tree.advance purpose directory rest
  | ".." :: rest => tree.advance purpose directory.tail rest
  | name :: rest =>
    let place := name :: directory
    if 255 < name.utf8ByteSize then .error .nameTooLong
    else
      match tree.node? place with
      | none => if rest = [] then .ok (.ended (.vacant place)) else .error .missing
      | some .directory => tree.advance purpose place rest
      | some (.file content) =>
        if rest = [] then .ok (.ended (.found place (.file content))) else .error .notDirectory
      | some (.link target) =>
        if rest = [] ∧ purpose = .inspect then .ok (.ended (.found place (.link target)))
        else .ok (.atLink directory target rest)

/-- The number of links that one walk follows. -/
def linkLimit : Nat := 40

/-- Walk names, following links. -/
def walk (tree : DiskTree) :
    (links : Nat) → DiskPurpose → DiskPlace → List String → Except DiskFault DiskEnd
  | links, purpose, directory, names =>
    match tree.advance purpose directory names with
    | .error fault => .error fault
    | .ok (.ended result) => .ok result
    | .ok (.atLink directory target rest) =>
      match links with
      | 0 => .error .linkLoop
      | links + 1 =>
        let route := DiskRoute.ofText target
        let start := if route.isAbsolute then [] else directory
        tree.walk links purpose start
          (if rest = [] then route.steps purpose else route.names ++ rest)

/-- Walk a path. -/
def find (tree : DiskTree) (purpose : DiskPurpose) (path : Path) : Except DiskFault DiskEnd :=
  match pathFault? path.text with
  | some fault => .error fault
  | none =>
    let route := DiskRoute.ofText path.text
    tree.walk linkLimit purpose (if route.isAbsolute then [] else tree.workingDirectory)
      (route.steps purpose)

/-- What stands at a path. -/
def nodeAt (tree : DiskTree) (purpose : DiskPurpose) (path : Path) : Except DiskFault DiskNode :=
  match tree.find purpose path with
  | .error fault => .error fault
  | .ok (.vacant _) => .error .missing
  | .ok (.found _ node) => .ok node

/-! ## Operations -/

/-- The content of the file at a path. -/
def contentAt (tree : DiskTree) (path : Path) : Except DiskFault ByteArray :=
  match tree.nodeAt .use path with
  | .error fault => .error fault
  | .ok (.file content) => .ok content
  | .ok _ => .error .isDirectory

/-- Write a file, creating it where its directory exists. -/
def writeFile (tree : DiskTree) (path : Path) (content : ByteArray) : Except DiskFault DiskTree :=
  match tree.find .write path with
  | .error fault => .error fault
  | .ok (.vacant place) => .ok (tree.put place (.file content))
  | .ok (.found place (.file _)) => .ok (tree.put place (.file content))
  | .ok (.found _ _) => .error .isDirectory

/-- The names in the directory at a path. -/
def namesAt (tree : DiskTree) (path : Path) : Except DiskFault (List String) :=
  match tree.find .use path with
  | .error fault => .error fault
  | .ok (.vacant _) => .error .missing
  | .ok (.found place .directory) =>
    .ok (tree.nodes.filterMap fun entry =>
      match entry.1 with
      | name :: directory => if directory = place then some name else none
      | [] => none)
  | .ok (.found _ _) => .error .notDirectory

/-- A refusal as a fault of the store. -/
def storeFault (activity : String) (path : Path) : DiskFault → StoreFault
  | .missing => .notFound path
  | fault => .io ("Failed to " ++ activity ++ " " ++ path.text ++ ": " ++ fault.message)

/-- Read a file. -/
def read (tree : DiskTree) (path : Path) : ReadResult :=
  match tree.contentAt path with
  | .ok content => .content content
  | .error fault => .failed (storeFault "read" path fault)

/-- Write a file.  A missing directory is told like every other refusal. -/
def write (tree : DiskTree) (path : Path) (content : ByteArray) :
    Except StoreFault Unit × DiskTree :=
  match tree.writeFile path content with
  | .ok tree => (.ok (), tree)
  | .error fault =>
    (.error (.io ("Failed to write " ++ path.text ++ ": " ++ fault.message)), tree)

/-- Tell what stands at a path.  A link that leads nowhere is neither file nor directory. -/
def describe (tree : DiskTree) (path : Path) : Except StoreFault Metadata :=
  match tree.nodeAt .inspect path with
  | .error fault => .error (storeFault "get metadata for" path fault)
  | .ok .directory => .ok ⟨true, false, false⟩
  | .ok (.file _) => .ok ⟨false, true, false⟩
  | .ok (.link _) =>
    match tree.nodeAt .use path with
    | .ok .directory => .ok ⟨true, false, true⟩
    | .ok (.file _) => .ok ⟨false, true, true⟩
    | _ => .ok ⟨false, false, true⟩

/-- List the names in a directory. -/
def list (tree : DiskTree) (path : Path) : Except StoreFault (List String) :=
  match tree.namesAt path with
  | .ok names => .ok names
  | .error fault => .error (storeFault "read directory" path fault)

/-- Whether something stands at a path. -/
def isPresent (tree : DiskTree) (path : Path) : Bool :=
  (tree.nodeAt .use path).isOk

/-- Whether a directory stands at a path. -/
def hasDirectory (tree : DiskTree) (path : Path) : Bool :=
  match tree.nodeAt .use path with
  | .ok .directory => true
  | _ => false

/-- Whether a file stands at a path. -/
def hasFile (tree : DiskTree) (path : Path) : Bool :=
  match tree.nodeAt .use path with
  | .ok (.file _) => true
  | _ => false

/-- A walk that follows no links visits every directory at most once. -/
instance : FileStore DiskTree where
  read path tree := (tree.read path, tree)
  write path content tree := tree.write path content
  describe path tree := (tree.describe path, tree)
  list path tree := (tree.list path, tree)
  isPresent path tree := tree.isPresent path
  directoryBound _ tree := tree.nodes.length + 1

/-! ## Building -/

/-- Make one directory if nothing stands there. -/
def makeDirectory (tree : DiskTree) (path : Path) : DiskTree :=
  match tree.find .use path with
  | .ok (.vacant place) => tree.put place .directory
  | _ => tree

/-- Make the directory at a path and all directories above it. -/
def makeDirectories (tree : DiskTree) (path : Path) : DiskTree :=
  (path.location.foldl
    (fun (made : DiskTree × Path) component =>
      let directory := made.2.join ⟨component.text⟩
      (made.1.makeDirectory directory, directory))
    (tree, ⟨""⟩)).1

/-- Make the directories above a path. -/
def makeParents (tree : DiskTree) (path : Path) : DiskTree :=
  match path.parent? with
  | some parent => tree.makeDirectories parent
  | none => tree

/-- Make a link where nothing stands. -/
def makeLink (tree : DiskTree) (path : Path) (target : String) : DiskTree :=
  match tree.find .inspect path with
  | .ok (.vacant place) => tree.put place (.link target)
  | _ => tree

/-! ## The working directory -/

/-- Make the directory at a path the working directory. -/
def enter (tree : DiskTree) (path : Path) : DiskTree :=
  match tree.find .use path with
  | .ok (.found place .directory) => { tree with workingDirectory := place }
  | _ => tree

/-- The path of the working directory from the root, without links. -/
def workingPath (tree : DiskTree) : Path :=
  ⟨"/" ++ String.intercalate "/" tree.workingDirectory.reverse⟩

end DiskTree
end Dealias
