import PathPatterns.Entity

/-!
# Listers

A lister supplies the entries of directories. Its answer to a request is a listing, which may fail
at any place and need not end; it may depend on the requests that were answered before.

## Main definitions

* `Lister.ofFunction`: a lister whose answers depend on the request alone.
* `Lister.ofTable`: a lister that reads its answers off a table.
* `Lister.limit`: a lister that fails after a number of requests.
* `Lister`: an enumerator of a file system, `Listing` what its `enumerate` returns.
-/

namespace PathPatterns

/-- The kinds of failure of a lister: those that a disk, a tree or `limit` gives, and any other. -/
inductive ErrorKind
  /-- There is nothing at the path. -/
  | notFound
  /-- A component of the path that ought to be a directory is none. -/
  | notADirectory
  /-- Following the path meets too many links. -/
  | filesystemLoop
  /-- The path or a name in it is too long. -/
  | invalidFilename
  /-- The path holds a character that no name can have. -/
  | invalidInput
  /-- The lister gave up. -/
  | timedOut
  /-- Any other kind, by its name. -/
  | named (name : String)
deriving Repr, DecidableEq

namespace ErrorKind

/-- The name of a kind of failure. -/
def name : ErrorKind → String
  | notFound => "NotFound"
  | notADirectory => "NotADirectory"
  | filesystemLoop => "FilesystemLoop"
  | invalidFilename => "InvalidFilename"
  | invalidInput => "InvalidInput"
  | timedOut => "TimedOut"
  | named name => name

/-- The kind of failure with a name; every text names one. -/
def ofName : String → ErrorKind
  | "NotFound" => notFound
  | "NotADirectory" => notADirectory
  | "FilesystemLoop" => filesystemLoop
  | "InvalidFilename" => invalidFilename
  | "InvalidInput" => invalidInput
  | "TimedOut" => timedOut
  | name => named name

/-- Every text is the name of the kind that `ofName` gives for it. -/
@[simp]
theorem name_ofName (s : String) : (ofName s).name = s := by
  unfold ofName
  split <;> rfl

end ErrorKind

/-- A failure of a lister, which an enumeration passes on as it is. -/
structure ListingError where
  /-- What kind of failure it is. -/
  kind : ErrorKind
  /-- What the lister says about it. -/
  message : String
deriving Repr, DecidableEq

/-- An entry of a listing: an item or a failure. -/
abbrev Entry := Except ListingError Item

/-- The entries that answer a request, in order. -/
inductive Listing
  /-- Entries that come to an end. -/
  | finite (entries : List Entry)
  /-- Entries that go on for ever. -/
  | endless (entries : Nat → Entry)

namespace Listing

/-- The listing without entries. -/
def nil : Listing := finite []

/-- The first entry of a listing and the rest of it; `none` at the end. -/
def uncons : Listing → Option (Entry × Listing)
  | finite [] => none
  | finite (entry :: rest) => some (entry, finite rest)
  | endless entries => some (entries 0, endless fun n => entries (n + 1))

@[simp]
theorem uncons_nil : nil.uncons = none := rfl

@[simp]
theorem uncons_finite_nil : (finite []).uncons = none := rfl

@[simp]
theorem uncons_finite_cons (entry : Entry) (rest : List Entry) :
    (finite (entry :: rest)).uncons = some (entry, finite rest) := rfl

end Listing

/-- A request for the entries of a directory. -/
structure Request where
  /-- The kind of entity that is asked for. -/
  kind : EntityKind
  /-- The path of the directory. -/
  directory : String
deriving Repr, DecidableEq

/-- A supplier of listings. It sees the requests that were made before, so it may count them. -/
structure Lister where
  /-- The answer to a request, after the requests `earlier`, last first. -/
  answer : (earlier : List Request) → Request → Listing

namespace Lister

/-- The lister whose answers are finite and depend on the request alone. -/
def ofFunction (entries : Request → List Entry) : Lister :=
  ⟨fun _ request => .finite (entries request)⟩

/-- Whether an entry answers a request for `kind`: a failure always does. -/
def admits (kind : EntityKind) : Entry → Bool
  | .ok item => kind.accepts item.kind
  | .error _ => true

/-- The lister that looks its entries up under the path of the directory, and finds nothing under
other paths. With `strict` it leaves out items of a kind that was not asked for. -/
def ofTable (table : List (String × List Entry)) (strict : Bool) : Lister :=
  ofFunction fun request =>
    ((table.lookup request.directory).getD []).filter fun entry =>
      !strict || admits request.kind entry

/-- The lister that answers `count` requests like `lister`, and any further one by a failure. -/
def limit (count : Nat) (lister : Lister) : Lister :=
  ⟨fun earlier request =>
    if earlier.length < count then lister.answer earlier request
    else .finite [.error ⟨.timedOut, "call limit"⟩]⟩

end Lister

end PathPatterns
