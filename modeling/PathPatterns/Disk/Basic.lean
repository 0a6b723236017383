import PathPatterns.Lister
import PathPatterns.Pieces

/-!
# Disks

A disk holds files, directories and links in a tree. The names on it are bytes, not all of them
text. An entity is found under its real path: the names on the way from the root directory, none
of which is a link. A `Disk` is seen from a process: it has a working directory, `Disk.start`, and
the system has its own words for what goes wrong, `Disk.message`.
-/

namespace PathPatterns

/-- A name on a disk, in bytes. -/
abbrev DiskName := List UInt8

namespace DiskName

/-- The text of `name`, or `none` if its bytes are not valid UTF-8. -/
def text? (name : DiskName) : Option String :=
  String.fromUTF8? name.toByteArray

/-- The bytes of `text` in UTF-8. -/
def ofText (text : List Char) : DiskName :=
  text.flatMap String.utf8EncodeChar

/-- `ofText` gives back the bytes of a name that has a text. -/
theorem ofText_of_text? {name : DiskName} {s : String} (h : name.text? = some s) :
    ofText s.toList = name := by
  unfold text? String.fromUTF8? at h
  split at h
  · have hbytes : s.toList.utf8Encode = name.toByteArray := by
      rw [String.utf8Encode_toList, ← Option.some.inj h]
      rfl
    simpa [List.utf8Encode, ofText] using hbytes
  · simp at h

end DiskName

/-- What a disk holds under a name: a file, a directory or a link. -/
inductive DiskNode
  /-- A file. -/
  | file
  /-- A directory. -/
  | directory
  /-- A link; `target` is a path, read from the directory of the link if it is not absolute. -/
  | link (target : String)
deriving DecidableEq

/-- A tree of files, directories and links, as a process sees it. -/
structure Disk where
  /-- What is found under each real path, apart from the root directory. -/
  nodes : List (List DiskName × DiskNode)
  /-- The real path of the working directory, from which relative paths are read. -/
  start : List DiskName := []
  /-- What the system says about a failure of a kind at a path. -/
  message : ErrorKind → List UInt8 → String := fun _ _ => ""

namespace Disk

/-- The disk with nothing but its root directory, which is the working directory. -/
def empty : Disk where
  nodes := []

/-- What is found under the real path `path`. The root directory has the empty path, and is always
there. -/
def node? (disk : Disk) (path : List DiskName) : Option DiskNode :=
  if path.isEmpty then some .directory else disk.nodes.lookup path

/-- The names in the directory under the real path `path`, each with the node that is found there.
-/
def namesIn (disk : Disk) (path : List DiskName) : List (DiskName × DiskNode) :=
  disk.nodes.filterMap fun (full, node) =>
    match full.getLast? with
    | some name => if full.dropLast = path then some (name, node) else none
    | none => none

/-- The byte that separates the names in a path. -/
def separator : UInt8 := 0x2f

/-- The names in a path that is given in bytes: what stands between the `separator`s, empty names
included. -/
def namesOfBytes (path : List UInt8) : List DiskName :=
  pieces (· == separator) path

/-- The names in a path. On a disk only `/` separates, and `\` is a character of a name. -/
def names (path : String) : List DiskName :=
  namesOfBytes (DiskName.ofText path.toList)

/-- The name `.` of a directory in itself. -/
def selfName : DiskName := [0x2e]

/-- The name `..` of the parent of a directory in it. -/
def parentName : DiskName := [0x2e, 0x2e]

end Disk

end PathPatterns
