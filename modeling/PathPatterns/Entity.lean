/-!
# Entities

What a lister can be asked for and what it reports: files and directories.

## Main definitions

* `EntityKind.accepts`: the operation `accepts` of an entity kind.
* `Item.file`, `Item.directory`, `Item.isDirectory`: the operations `file`, `directory` and
  `is_directory` of an item.

## Main results

* `accepts_iff`: a request for both accepts everything, any other request its own kind.
-/

namespace PathPatterns

/-- The kind of entity that is asked for, or that is reported. -/
inductive EntityKind
  /-- Anything that is not a directory. -/
  | file
  /-- A directory. -/
  | directory
  /-- Either of them; meant for requests. -/
  | fileOrDirectory
deriving Repr, DecidableEq

namespace EntityKind

/-- Whether an entity of the kind `other` satisfies a request for `kind`. -/
def accepts (kind other : EntityKind) : Bool :=
  match kind with
  | fileOrDirectory => true
  | kind => kind == other

/-- The name of a kind. -/
def name : EntityKind → String
  | file => "file"
  | directory => "directory"
  | fileOrDirectory => "file-or-directory"

/-- The kind with a name, the inverse of `name`; other texts name none. -/
def ofName? : String → Option EntityKind
  | "file" => some file
  | "directory" => some directory
  | "file-or-directory" => some fileOrDirectory
  | _ => none

/-- A request for `fileOrDirectory` accepts everything, any other request its own `kind`. -/
theorem accepts_iff (kind other : EntityKind) :
    kind.accepts other = true ↔ kind = fileOrDirectory ∨ kind = other := by
  cases kind <;> cases other <;> decide

@[simp]
theorem ofName?_name (kind : EntityKind) : ofName? kind.name = some kind := by
  cases kind <;> rfl

end EntityKind

/-- A path and the kind of entity that it leads to. -/
structure Item where
  /-- The whole path. -/
  path : String
  /-- The kind of the entity. -/
  kind : EntityKind
deriving Repr, DecidableEq

namespace Item

/-- A file. -/
def file (path : String) : Item := ⟨path, .file⟩

/-- A directory. -/
def directory (path : String) : Item := ⟨path, .directory⟩

/-- Whether an item is reported as a directory, which is what the stages of a pattern go into. -/
def isDirectory (item : Item) : Bool :=
  item.kind == .directory

end Item

end PathPatterns
