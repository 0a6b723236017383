import PathPatterns.Disk.Basic
import PathPatterns.Lister

/-!
# Following paths on a disk

A path is followed name by name, an absolute one from the root directory and any other one from the
working directory. `.` and empty names stay, `..` goes to the parent, a link is replaced by its
target. Every name must be looked up in a directory, and no path may meet more than forty links.
Paths and names may not be too long. What is made at a path is made where the path leads to.

## Main definitions

* `Disk.follow`, `Disk.resolve`: how the system follows a path that is opened.
* `Disk.create`: how a disk is filled entry by entry.
-/

namespace PathPatterns

namespace Disk

/-- How many links a path may meet, one after the other, before `follow` gives up. -/
def linkLimit : Nat := 40

/-- How many bytes a name may have. A longer one is `ErrorKind.invalidFilename`. -/
def nameLimit : Nat := 255

/-- How many bytes a path may have, before it is looked at any closer. -/
def pathLimit : Nat := 4095

/-- Whether the target of a link starts at the root directory. -/
def isAbsolute (path : String) : Bool :=
  path.toList.head? == some '/'

/-- The real path that some names lead to from the real path `here`, meeting at most `links` links.
Each name but the first is looked up where the names in front of it have led. -/
def follow (disk : Disk) (links : Nat) (here : List DiskName) :
    List DiskName → Except ErrorKind (List DiskName)
  | [] => .ok here
  | name :: rest =>
    if disk.node? here ≠ some .directory then .error .notADirectory
    else if name.isEmpty ∨ name = selfName then disk.follow links here rest
    else if name = parentName then disk.follow links here.dropLast rest
    else if name.length > nameLimit then .error .invalidFilename
    else
      match disk.node? (here ++ [name]) with
      | none => .error .notFound
      | some (.link target) =>
        match links with
        | 0 => .error .filesystemLoop
        | links + 1 =>
          -- the target takes the place of the name, and the rest follows it
          disk.follow links (if isAbsolute target then [] else here) (names target ++ rest)
      | some _ => disk.follow links (here ++ [name]) rest
termination_by todo => (links, todo.length)

/-- The real path from which a path is followed: the root directory if it is absolute, the working
directory if it is not. -/
def origin (disk : Disk) (path : List UInt8) : List DiskName :=
  if path.head? = some separator then [] else disk.start

/-- The real path that a path leads to: what `follow` comes to from its `origin`. Paths that are too
long, hold a zero byte or are empty lead nowhere. -/
def resolve (disk : Disk) (path : List UInt8) : Except ErrorKind (List DiskName) :=
  -- the path as a whole is looked at before it is followed
  if path.contains 0 then .error .invalidInput
  else if path.length > pathLimit then .error .invalidFilename
  -- no path at all is not the working directory
  else if path.isEmpty then .error .notFound
  else disk.follow linkLimit (disk.origin path) (namesOfBytes path)

/-- The real path of the directory that `path` leads to. A file is no directory, whatever leads to
it. -/
def resolveDirectory (disk : Disk) (path : String) : Except ErrorKind (List DiskName) :=
  match disk.resolve (DiskName.ofText path.toList) with
  | .error failure => .error failure
  | .ok real => if disk.node? real = some .directory then .ok real else .error .notADirectory

/-! ## Making entries -/

/-- Puts `node` under a real path, unless something is found there already. -/
def put (disk : Disk) (path : List DiskName) (node : DiskNode) : Disk :=
  if (disk.node? path).isSome then disk
  else { disk with nodes := disk.nodes ++ [(path, node)] }

/-- The names in a path at which something is to be made, without the empty ones and `selfName`,
which stay where they are. -/
def placeNames (path : List DiskName) : List DiskName :=
  path.filter fun name => !(name.isEmpty || name == selfName)

/-- Makes the directories that some names lead to, where there is nothing yet; gives the real path
of the last of them. A link that leads nowhere is in the way. -/
def makeDirectories (disk : Disk) (here : List DiskName) :
    List DiskName → Option (Disk × List DiskName)
  | [] => some (disk, here)
  | name :: rest =>
    match disk.follow linkLimit here [name] with
    | .ok real => disk.makeDirectories real rest
    | .error _ =>
      if disk.node? here = some .directory ∧ disk.node? (here ++ [name]) = none then
        (disk.put (here ++ [name]) .directory).makeDirectories (here ++ [name]) rest
      else none

/-- The real path of the file that a name in a directory stands for: a link stands for the file that
it leads to, which need not exist. -/
def filePlace (disk : Disk) (here : List DiskName) (name : DiskName) :
    (links : Nat) → Option (List DiskName)
  | 0 => none
  | links + 1 =>
    match disk.node? (here ++ [name]) with
    | some (.link target) =>
      let way := placeNames (names target)
      match disk.follow links (if isAbsolute target then [] else here) way.dropLast,
        way.getLast? with
      | .ok directory, some last => disk.filePlace directory last links
      | _, _ => none
    | _ => some (here ++ [name])

/-- Makes a node under some names in the root directory, with the directories above it. A file is
made where a link leads to, a link only where there is nothing yet. Where a node cannot be made, the
disk stays as it is. -/
def create (disk : Disk) (path : List DiskName) (node : DiskNode) : Disk :=
  let way := placeNames path
  let made :=
    match node with
    | .directory => (disk.makeDirectories [] way).map Prod.fst
    | node => do
      let name ← way.getLast?
      let (disk, parent) ← disk.makeDirectories [] way.dropLast
      let place ←
        match node with
        | .file => disk.filePlace parent name (linkLimit + 1)
        | _ => some (parent ++ [name])
      return disk.put place node
  made.getD disk

end Disk

end PathPatterns
