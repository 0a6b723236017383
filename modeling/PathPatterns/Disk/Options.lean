import PathPatterns.Disk.Basic
import PathPatterns.Lister
import PathPatterns.Path

/-!
# How entries of a disk are reported

Entries are files, directories and links. A link is reported as a file, unless links are followed:
then it is reported as what it leads to, and as a file if it leads nowhere. Hidden entries, whose
name starts with a dot, may be left out. Names that are not valid UTF-8 are never reported.

## Main definitions

* `Options`: the configuration of an enumerator; `ofFields?` and `ofValues?` read it, `isDefault` is
  the operation `is_default`.
* `Options.classify`, `Options.report`: the operations `classify` and `entry_to_item`.

## Main results

* `report_of_omits`: nothing is reported of an entry that is left out, failures included.
-/

namespace PathPatterns.Disk

/-- What an entry of a directory is, as far as its directory can tell. -/
inductive EntryType
  /-- A file. -/
  | file
  /-- A directory. -/
  | directory
  /-- A link, and whether it leads to a directory, if following it succeeds. -/
  | link (leadsToDirectory : Except ListingError Bool)

/-- An entry of a directory on a disk. -/
structure DirectoryEntry where
  /-- The name of the entry, in bytes. -/
  name : DiskName
  /-- What the entry is. -/
  type : EntryType

/-- How entries are reported. -/
structure Options where
  /-- Whether a link is reported as what it leads to. -/
  followLinks : Bool := false
  /-- Whether entries are reported whose name starts with a dot. -/
  includeHidden : Bool := true
deriving Repr, DecidableEq

namespace Options

/-- Whether all options have their default values: links are not followed, hidden entries are
reported. -/
def isDefault (options : Options) : Bool :=
  options == {}

/-- The value of a named field that may be absent; a field that is present must be a truth value. -/
def field? (fields : List (String × Option Bool)) (name : String) (default : Bool) : Option Bool :=
  match fields.lookup name with
  | none => some default
  | some value => value

/-- The options that named fields give, where a field without a truth value is given as `none`.
Fields with other names do not count. -/
def ofFields? (fields : List (String × Option Bool)) : Option Options := do
  let followLinks ← field? fields "follow-symlinks" false
  let includeHidden ← field? fields "include-hidden" true
  return { followLinks, includeHidden }

/-- The options that a list of values gives, in the order of the fields; values at the end may be
left out, and there may be none too many. -/
def ofValues? : List (Option Bool) → Option Options
  | [] => some {}
  | [followLinks] => return { followLinks := ← followLinks }
  | [followLinks, includeHidden] =>
    return { followLinks := ← followLinks, includeHidden := ← includeHidden }
  | _ => none

/-- The kind under which an entry is reported, or the failure of following it. A link that leads
nowhere is a file. -/
def classify (options : Options) : EntryType → Except ListingError EntityKind
  | .file => .ok .file
  | .directory => .ok .directory
  | .link leadsToDirectory =>
    if options.followLinks then
      match leadsToDirectory with
      | .ok true => .ok .directory
      | .ok false => .ok .file
      | .error failure => if failure.kind = .notFound then .ok .file else .error failure
    else .ok .file

/-- Whether an entry is left out because of its name: it starts with a dot, and `includeHidden` is
not set. -/
def omits (options : Options) (name : DiskName) : Bool :=
  !options.includeHidden && name.head? == some 0x2e

/-- What is reported of an entry of `directory` when `kind` is asked for: its item, its failure or
nothing. -/
def report (options : Options) (kind : EntityKind) (directory : String) (entry : DirectoryEntry) :
    Option Entry :=
  if options.omits entry.name then none
  else
    -- a failure is reported whatever kind is asked for, and whether or not the name is text
    match options.classify entry.type with
    | .error failure => some (.error failure)
    | .ok entryKind =>
      if kind.accepts entryKind then
        entry.name.text?.map fun name => .ok ⟨Path.join directory name, entryKind⟩
      else none

/-- What is reported of the entries of a directory when `kind` is asked for, each in its place. -/
def listing (options : Options) (kind : EntityKind) (directory : String)
    (entries : List DirectoryEntry) : List Entry :=
  entries.filterMap (options.report kind directory)

/-- `report` gives nothing for an entry that `omits` leaves out, not even the failure of a link that
cannot be followed. -/
theorem report_of_omits {options : Options} {entry : DirectoryEntry}
    (h : options.omits entry.name = true) (kind : EntityKind) (directory : String) :
    options.report kind directory entry = none := by
  simp [report, h]

end Options

end PathPatterns.Disk
