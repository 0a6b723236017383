import PathPatterns.Disk.Options
import PathPatterns.Proofs.Lists

/-!
# Listings of each kind

An entry of a directory is looked at in the same way whatever kind is asked for. It is left out if
it is hidden. Otherwise it fails, if it is a link that ought to be followed and cannot be, or it is
an item of one kind, as long as its name is text. The kind that is asked for decides only which of
the items are listed, and failures are listed for every kind.

## Main definitions

* `Options.Hides`: what is left out because of its name.
* `Options.FailsWith`: what cannot be told a file or a directory.
* `Options.kindOf`: what all else is reported as.

## Main results

* `startsWithDot_iff_of_text?`: what starts with a dot in bytes does so as text.
* `listing_eq_filter`: the listing of one kind is part of the listing of both.
* `listing_of_each_kind`: the listings of a directory for all kinds, items and failures.
-/

namespace PathPatterns

namespace DiskName

/-- Whether a name starts with a dot, told of its bytes. -/
def StartsWithDot (name : DiskName) : Prop :=
  ofText ['.'] <+: name

instance (name : DiskName) : Decidable name.StartsWithDot :=
  inferInstanceAs (Decidable (_ <+: _))

/-- The byte of a dot begins the encoding of no other character, as those of other characters have
greater first bytes or differ in their only one. -/
theorem dot_prefix_utf8EncodeChar_iff {c : Char} {rest : List UInt8} :
    ofText ['.'] <+: String.utf8EncodeChar c ++ rest ↔ c = '.' := by
  have hdot : ofText ['.'] = [0x2e] := rfl
  have hc : c = '.' ↔ c.val.toNat = 0x2e := by
    rw [Char.ext_iff, ← UInt32.toNat_inj]
    rfl
  rw [hdot, hc]
  simp only [String.utf8EncodeChar]
  generalize c.val.toNat = n at *
  -- by the length of the encoding: a longer one begins with another byte
  split_ifs <;>
    simp only [List.cons_append, List.cons_prefix_cons, List.nil_prefix, and_true,
      ← UInt8.toNat_inj, UInt8.toNat_ofNat', UInt8.reduceToNat] <;>
    omega

/-- `StartsWithDot` looks at bytes; where a name has a `text`, it holds exactly if the text starts
with a dot. -/
theorem startsWithDot_iff_of_text? {name : DiskName} {text : String} (h : name.text? = some text) :
    name.StartsWithDot ↔ text.toList.head? = some '.' := by
  rw [← ofText_of_text? h, StartsWithDot]
  cases text.toList with
  | nil => simp [ofText]
  | cons c rest =>
    have hcons : ofText (c :: rest) = String.utf8EncodeChar c ++ ofText rest := rfl
    rw [hcons, dot_prefix_utf8EncodeChar_iff, List.head?_cons, Option.some_inj]

end DiskName

namespace Disk

deriving instance DecidableEq for EntryType

/-- The items in a listing, in order, its failures left out. -/
def listedItems (listing : List Entry) : List Item :=
  listing.filterMap fun
    | .ok item => some item
    | .error _ => none

/-- The failures in a listing, in order, its items left out. -/
def listedFailures (listing : List Entry) : List ListingError :=
  listing.filterMap fun
    | .ok _ => none
    | .error failure => some failure

namespace Options

variable {options : Options} {kind : EntityKind} {directory : String} {type : EntryType}
  {entry : DirectoryEntry} {before after entries : List DirectoryEntry} {failure : ListingError}

/-- Whether an entry is left out because of its name: it is hidden, and hidden entries are not to be
reported. -/
def Hides (options : Options) (name : DiskName) : Prop :=
  options.includeHidden = false ∧ name.StartsWithDot

instance (options : Options) (name : DiskName) : Decidable (options.Hides name) :=
  inferInstanceAs (Decidable (_ ∧ _))

/-- Whether an entry cannot be told a file or a directory: it is a link, links are followed, and to
follow it fails otherwise than by leading nowhere. -/
def FailsWith (options : Options) (type : EntryType) (failure : ListingError) : Prop :=
  options.followLinks = true ∧ type = .link (.error failure) ∧ failure.kind ≠ .notFound

/-- Whether an entry fails at all: it has some failure in the sense of `FailsWith`. -/
def Fails (options : Options) (type : EntryType) : Prop :=
  ∃ failure, options.FailsWith type failure

instance (options : Options) : (type : EntryType) → Decidable (options.Fails type)
  | .link (.error failure) =>
    decidable_of_iff (options.followLinks = true ∧ failure.kind ≠ .notFound) (by
      simp [Fails, FailsWith])
  | .file | .directory | .link (.ok _) => .isFalse (by simp [Fails, FailsWith])

/-- Whether an entry is a directory, or a link that is followed and leads to one. -/
def LeadsToDirectory (options : Options) (type : EntryType) : Prop :=
  type = .directory ∨ options.followLinks = true ∧ type = .link (.ok true)

instance (options : Options) (type : EntryType) : Decidable (options.LeadsToDirectory type) :=
  inferInstanceAs (Decidable (_ ∨ _ ∧ _))

/-- The kind of an entry that does not fail: a directory in the sense of `LeadsToDirectory`, or a
file. -/
def kindOf (options : Options) (type : EntryType) : EntityKind :=
  if options.LeadsToDirectory type then .directory else .file

/-- The item that an entry of `directory` makes, if its name is text. -/
def item? (options : Options) (directory : String) (entry : DirectoryEntry) : Option Item :=
  entry.name.text?.map fun name => ⟨Path.join directory name, options.kindOf entry.type⟩

/-! ## One entry -/

/-- A name that is text is hidden exactly if `includeHidden` is off and the text starts with a
dot. -/
theorem hides_iff_of_text? {name : DiskName} {text : String} (h : name.text? = some text) :
    options.Hides name ↔ options.includeHidden = false ∧ text.toList.head? = some '.' := by
  rw [Hides, DiskName.startsWithDot_iff_of_text? h]

/-- `Options.omits`, which looks at the first byte of a name, decides `Hides`. -/
theorem omits_eq_true_iff (name : DiskName) : options.omits name = true ↔ options.Hides name := by
  have hdot : DiskName.ofText ['.'] = [0x2e] := rfl
  rw [omits, Hides, DiskName.StartsWithDot, hdot]
  cases name with
  | nil => simp
  | cons byte rest => simp [List.cons_prefix_cons, eq_comm (a := byte)]

/-- An entry that fails in the sense of `FailsWith` is classified by that failure. -/
theorem classify_of_failsWith (h : options.FailsWith type failure) :
    options.classify type = .error failure := by
  obtain ⟨hfollow, rfl, hkind⟩ := h
  simp [classify, hfollow, hkind]

/-- An entry that does not fail has the kind `kindOf`; in particular, a link that leads nowhere is a
file. -/
theorem classify_of_not_fails (h : ¬ options.Fails type) :
    options.classify type = .ok (options.kindOf type) := by
  rw [kindOf]
  match type with
  | .file => simp [classify, LeadsToDirectory]
  | .directory => simp [classify, LeadsToDirectory]
  | .link (.ok true) => simp [classify, LeadsToDirectory, apply_ite]
  | .link (.ok false) => simp [classify, LeadsToDirectory]
  | .link (.error failure) =>
    have hkind : options.followLinks = true → failure.kind = .notFound := by
      simpa [Fails, FailsWith] using h
    simpa [classify, LeadsToDirectory] using hkind

/-- The failure of an entry that is not hidden is reported whatever `kind` is asked for, whether or
not its name is text. -/
theorem report_of_failsWith (hshown : ¬ options.Hides entry.name)
    (h : options.FailsWith entry.type failure) :
    options.report kind directory entry = some (.error failure) := by
  rw [← omits_eq_true_iff] at hshown
  simp only [report, if_neg hshown, classify_of_failsWith h]

/-- An entry that is not hidden and does not fail is reported as the item that it makes (`item?`),
if both kinds are asked for. -/
theorem report_of_not_fails (hshown : ¬ options.Hides entry.name) (h : ¬ options.Fails entry.type) :
    options.report .fileOrDirectory directory entry =
      (options.item? directory entry).map .ok := by
  rw [← omits_eq_true_iff] at hshown
  simp only [report, if_neg hshown, classify_of_not_fails h, item?, Option.map_map]
  rfl

/-- What `report` gives for one kind is what it gives for both, as far as that is of this kind or a
failure. -/
theorem report_eq_filter (options : Options) (kind : EntityKind) (directory : String)
    (entry : DirectoryEntry) :
    options.report kind directory entry =
      (options.report .fileOrDirectory directory entry).filter (Lister.admits kind) := by
  simp only [report]
  split
  · rfl
  · cases options.classify entry.type with
    | error failure => rfl
    | ok entryKind =>
      have hboth : EntityKind.fileOrDirectory.accepts entryKind = true := rfl
      cases haccepts : kind.accepts entryKind <;> cases entry.name.text? <;>
        simp [hboth, Option.filter, Lister.admits, haccepts]

/-! ## All entries -/

/-- The `listing` of one kind is the part of the listing of both that is of this kind or a
failure. -/
theorem listing_eq_filter (options : Options) (kind : EntityKind) (directory : String)
    (entries : List DirectoryEntry) :
    options.listing kind directory entries =
      (options.listing .fileOrDirectory directory entries).filter (Lister.admits kind) := by
  rw [listing, listing, List.filter_filterMap]
  exact List.filterMap_congr fun entry _ => options.report_eq_filter kind directory entry

/-- Admitting what answers a request for `kind` keeps the items of this kind. -/
theorem listedItems_filter (kind : EntityKind) (listing : List Entry) :
    listedItems (listing.filter (Lister.admits kind)) =
      (listedItems listing).filter fun item => kind.accepts item.kind := by
  rw [listedItems, listedItems, List.filterMap_filter, List.filter_filterMap]
  refine List.filterMap_congr fun entry _ => ?_
  cases entry with
  | error failure => rfl
  | ok item => rfl

/-- If one kind is asked for, the items are those of the listing of both that are of this kind. -/
theorem listedItems_listing_of_ne (h : kind ≠ .fileOrDirectory) :
    listedItems (options.listing kind directory entries) =
      (listedItems (options.listing .fileOrDirectory directory entries)).filter
        fun item => item.kind = kind := by
  rw [listing_eq_filter, listedItems_filter]
  refine List.filter_congr fun item _ => ?_
  rw [Bool.eq_iff_iff, EntityKind.accepts_iff, decide_eq_true_iff]
  simp [h, eq_comm]

/-- Failures are listed whatever `kind` is asked for: `Lister.admits` always admits them. -/
theorem listedFailures_filter (kind : EntityKind) (listing : List Entry) :
    listedFailures (listing.filter (Lister.admits kind)) = listedFailures listing := by
  rw [listedFailures, listedFailures, List.filterMap_filter]
  refine List.filterMap_congr fun entry _ => ?_
  cases entry with
  | error failure => rfl
  | ok item => simp

/-- If both kinds are asked for, each entry that is not hidden and does not fail makes its item. -/
theorem listedItems_listing (options : Options) (directory : String)
    (entries : List DirectoryEntry) :
    listedItems (options.listing .fileOrDirectory directory entries) =
      (entries.filter fun entry =>
        ¬ options.Hides entry.name ∧ ¬ options.Fails entry.type).filterMap
          (options.item? directory) := by
  rw [listedItems, listing, List.filterMap_filterMap, List.filterMap_filter]
  refine List.filterMap_congr fun entry _ => ?_
  by_cases hhides : options.Hides entry.name
  · rw [report_of_omits ((omits_eq_true_iff _).2 hhides)]
    simp [hhides]
  · by_cases hfails : options.Fails entry.type
    · have ⟨failure, hfailure⟩ := hfails
      rw [report_of_failsWith hhides hfailure]
      simp [hfails]
    · rw [report_of_not_fails hhides hfails]
      cases options.item? directory entry <;> simp [hhides, hfails]

/-- Whatever kind is asked for, each entry that is not hidden and fails makes its failure. -/
theorem forall₂_listedFailures_listing (options : Options) (kind : EntityKind) (directory : String)
    (entries : List DirectoryEntry) :
    List.Forall₂ (fun entry failure => options.FailsWith entry.type failure)
      (entries.filter fun entry => ¬ options.Hides entry.name ∧ options.Fails entry.type)
      (listedFailures (options.listing kind directory entries)) := by
  rw [listing_eq_filter, listedFailures_filter, listedFailures, listing, List.filterMap_filterMap]
  refine forall₂_filter_filterMap (fun entry ⟨hshown, failure, hfailure⟩ => ?_)
    fun entry hentry => ?_
  · exact ⟨failure, by rw [report_of_failsWith hshown hfailure]; rfl, hfailure⟩
  · by_cases hhides : options.Hides entry.name
    · rw [report_of_omits ((omits_eq_true_iff _).2 hhides)]
      rfl
    · rw [report_of_not_fails hhides fun hfails => hentry ⟨hhides, hfails⟩]
      cases options.item? directory entry <;> rfl

/-- The failure of an entry stands in the place of the entry: behind the listing of the entries
before it, and in front of the listing of those after it. -/
theorem listing_append_cons_of_failsWith (hshown : ¬ options.Hides entry.name)
    (h : options.FailsWith entry.type failure) :
    options.listing kind directory (before ++ entry :: after) =
      options.listing kind directory before ++
        .error failure :: options.listing kind directory after := by
  rw [listing, List.filterMap_append,
    List.filterMap_cons_some (report_of_failsWith hshown h)]
  rfl

/-- What `options` make of the entries of a directory. If both kinds are asked for, the items of a
listing are, in the order of the entries, those that are not hidden (`Hides`), do not fail (`Fails`)
and have text for a name; each is a directory or a link that is followed to one
(`LeadsToDirectory`), and reported so, or else a file. The items of the listings of one kind are
those of them that are of this kind. Whatever kind is asked for, each entry that fails and is not
hidden, with text for a name or not, makes its failure (`FailsWith`) once, in its place. -/
theorem listing_of_each_kind (options : Options) (directory : String)
    (entries : List DirectoryEntry) :
    (∀ (name : DiskName) text, name.text? = some text →
      (options.Hides name ↔ options.includeHidden = false ∧ text.toList.head? = some '.')) ∧
    listedItems (options.listing .fileOrDirectory directory entries) =
      (entries.filter fun entry =>
        ¬ options.Hides entry.name ∧ ¬ options.Fails entry.type).filterMap (fun entry =>
          entry.name.text?.map fun name => ⟨Path.join directory name,
            if options.LeadsToDirectory entry.type then .directory else .file⟩) ∧
    (∀ kind, kind ≠ .fileOrDirectory →
      listedItems (options.listing kind directory entries) =
        (listedItems (options.listing .fileOrDirectory directory entries)).filter
          fun item => item.kind = kind) ∧
    (listedItems (options.listing .file directory entries)).Disjoint
      (listedItems (options.listing .directory directory entries)) ∧
    ∀ kind,
      List.Forall₂ (fun entry failure => options.FailsWith entry.type failure)
        (entries.filter fun entry => ¬ options.Hides entry.name ∧ options.Fails entry.type)
        (listedFailures (options.listing kind directory entries)) ∧
      ∀ before entry after failure, entries = before ++ entry :: after →
        ¬ options.Hides entry.name → options.FailsWith entry.type failure →
          options.listing kind directory entries =
            options.listing kind directory before ++
              .error failure :: options.listing kind directory after := by
  refine ⟨fun _ _ => hides_iff_of_text?, options.listedItems_listing directory entries,
    fun _ => listedItems_listing_of_ne, ?_,
    fun kind => ⟨options.forall₂_listedFailures_listing kind directory entries, ?_⟩⟩
  · -- an item of both listings would be of both kinds
    intro item hfile hdirectory
    rw [listedItems_listing_of_ne (by decide), List.mem_filter, decide_eq_true_iff] at hfile
    rw [listedItems_listing_of_ne (by decide), List.mem_filter, decide_eq_true_iff, hfile.2]
      at hdirectory
    exact nomatch hdirectory.2
  · rintro before entry after failure rfl hshown hfails
    exact listing_append_cons_of_failsWith hshown hfails

/-- Links are followed, and hidden entries are left out. -/
def followVisible : Options where
  followLinks := true
  includeHidden := false

/-- The failure of a link that leads to itself. -/
def loopFailure : ListingError := ⟨.filesystemLoop, ""⟩

/-- A file, two links that lead to themselves, one under a name that is no text and one hidden, a
link that leads nowhere, and one that leads to a directory. -/
def linkedEntries : List DirectoryEntry :=
  [⟨[0x61], .file⟩, ⟨[0x62, 0xff], .link (.error loopFailure)⟩,
    ⟨[0x2e, 0x63], .link (.error loopFailure)⟩, ⟨[0x64], .link (.error ⟨.notFound, ""⟩)⟩,
    ⟨[0x65], .link (.ok true)⟩]

/-- The listings of `linkedEntries` for each kind: of the two links that lead to themselves only the
one that is not hidden is heard of, and it fails although its name is no text. -/
theorem listing_of_linkedEntries :
    DiskName.text? [0x2e, 0x63] = some ".c" ∧ followVisible.Hides [0x2e, 0x63] ∧
      ¬ followVisible.Hides [0x62, 0xff] ∧
      followVisible.FailsWith (.link (.error loopFailure)) loopFailure ∧
      EntityKind.file ≠ .fileOrDirectory ∧
      listedItems (followVisible.listing .fileOrDirectory "/r" linkedEntries) =
        [.file "/r/a", .file "/r/d", .directory "/r/e"] ∧
      listedItems (followVisible.listing .file "/r" linkedEntries) =
        [.file "/r/a", .file "/r/d"] ∧
      (listedFailures (followVisible.listing .file "/r" linkedEntries)).length = 1 ∧
      followVisible.listing .directory "/r" linkedEntries =
        [.error loopFailure, .ok (.directory "/r/e")] := by
  have htext : DiskName.text? [0x2e, 0x63] = some ".c" := by decide +kernel
  have hshown : ¬ followVisible.Hides [0x62, 0xff] := by decide
  have hfails : followVisible.FailsWith (.link (.error loopFailure)) loopFailure :=
    ⟨rfl, rfl, by decide⟩
  have hone : EntityKind.file ≠ .fileOrDirectory := by decide
  -- only the listing of files and directories is computed; the others are parts of it
  obtain ⟨hhidden, hitems, hkind, -, hfailures⟩ :=
    listing_of_each_kind followVisible "/r" linkedEntries
  have hboth : listedItems (followVisible.listing .fileOrDirectory "/r" linkedEntries) =
      [.file "/r/a", .file "/r/d", .directory "/r/e"] :=
    hitems.trans (by decide +kernel)
  refine ⟨htext, (hhidden _ _ htext).2 ⟨rfl, rfl⟩, hshown, hfails, hone, hboth, ?_, ?_, ?_⟩
  · rw [hkind .file hone, hboth]
    rfl
  · exact (hfailures .file).1.length_eq.symm
  · exact ((hfailures .directory).2 [⟨[0x61], .file⟩] _ _ _ rfl hshown hfails).trans
      (by decide +kernel)

end Options

end Disk

end PathPatterns
