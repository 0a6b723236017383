import PathPatterns.Disk.Options
import PathPatterns.Disk.Resolve

/-!
# Listing a disk

A request lists the directory that its path leads to, with the entries reported as the options
say. A path that leads to no directory gives one failure.

## Main definitions

* `Disk.lister`: the operation `enumerate` of an enumerator of the real file system.
-/

namespace PathPatterns

namespace Disk

/-- A failure at a path, with the `message` that the system has for it. -/
def failureAt (disk : Disk) (path : List UInt8) (kind : ErrorKind) : ListingError :=
  ⟨kind, disk.message kind path⟩

/-- The path of the entry `name` in `directory`, in bytes: a separator stands between them exactly
once. -/
def pathIn (directory : String) (name : DiskName) : List UInt8 :=
  let bytes := DiskName.ofText directory.toList
  if bytes.getLast? = some separator then bytes ++ name else bytes ++ separator :: name

/-- The entry that a name in a directory makes. Links are followed from the path under which the
directory was asked for, so the links in that path count. -/
def entryAt (disk : Disk) (directory : String) (name : DiskName) : DiskNode → DirectoryEntry
  | .file => ⟨name, .file⟩
  | .directory => ⟨name, .directory⟩
  | .link _ =>
    match disk.resolve (pathIn directory name) with
    | .ok real => ⟨name, .link (.ok (disk.node? real = some .directory))⟩
    | .error kind => ⟨name, .link (.error (disk.failureAt (pathIn directory name) kind))⟩

/-- The entries of the directory that `directory` leads to, or the kind of failure that
`resolveDirectory` has there. -/
def entriesAt (disk : Disk) (directory : String) : Except ErrorKind (List DirectoryEntry) :=
  return (disk.namesIn (← disk.resolveDirectory directory)).map fun (name, node) =>
    disk.entryAt directory name node

/-- The answer to a request: the `Options.listing` of the entries at its directory, or one failure
if there is no such directory. -/
def entries (disk : Disk) (options : Options) (request : Request) : List Entry :=
  match disk.entriesAt request.directory with
  | .ok entries => options.listing request.kind request.directory entries
  | .error kind => [.error (disk.failureAt (DiskName.ofText request.directory.toList) kind)]

/-- The lister that reads a disk. It does not look back: an answer depends on the request alone. -/
def lister (disk : Disk) (options : Options) : Lister :=
  .ofFunction (disk.entries options)

end Disk

end PathPatterns
