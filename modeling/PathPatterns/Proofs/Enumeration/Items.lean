import Mathlib.Data.Set.Insert
import Mathlib.Logic.Relation
import PathPatterns.Enumeration.Pipeline

/-!
# The items that a pipeline comes to

What a pipeline will yield is determined by what it holds and by the listings that it will be given.
One step of a pipeline yields one of these items or none, and the rest comes to the others.

## Main results

* `meets_step`: a step takes from the items of a pipeline what it yields.
* `items_attach`: the stage of a segment turns the items before it into those behind it.
-/

namespace PathPatterns

namespace Item

@[simp]
theorem isDirectory_directory (path : String) : (directory path).isDirectory = true := rfl

@[simp]
theorem directory_inj {a b : String} : directory a = directory b ↔ a = b := by
  simp [directory]

/-- A directory is the item of a directory at its path. -/
theorem isDirectory_iff {item : Item} : item.isDirectory = true ↔ item = directory item.path := by
  obtain ⟨path, kind⟩ := item
  simp [isDirectory, directory]

end Item

namespace Listing

/-- The items of a listing, without its failures and their places. -/
def items : Listing → Set Item
  | finite entries => {item | .ok item ∈ entries}
  | endless entries => {item | ∃ n, entries n = .ok item}

variable {listing rest : Listing}

@[simp]
theorem items_nil : nil.items = ∅ := by
  ext item
  simp [items, nil]

/-- A listing that `uncons` finds at its end has no items. -/
theorem items_of_uncons_none (h : listing.uncons = none) : listing.items = ∅ := by
  cases listing with
  | finite entries =>
    cases entries with
    | nil => exact items_nil
    | cons entry entries => simp at h
  | endless entries => simp [uncons] at h

/-- The items of a listing are what its first entry brings, and what `rest` brings. -/
theorem mem_items_of_uncons {entry : Entry} (h : listing.uncons = some (entry, rest))
    {item : Item} :
    item ∈ listing.items ↔ .ok item = entry ∨ item ∈ rest.items := by
  cases listing with
  | finite entries =>
    cases entries with
    | nil => simp at h
    | cons first entries =>
      obtain ⟨rfl, rfl⟩ : first = entry ∧ finite entries = rest := by simpa using h
      simp [items]
  | endless entries =>
    obtain ⟨rfl, rfl⟩ : entries 0 = entry ∧ (endless fun n => entries (n + 1)) = rest := by
      simpa [uncons] using h
    show (∃ n, entries n = .ok item) ↔ _
    -- the first entry, or one of the later ones
    rw [← Nat.or_exists_add_one, eq_comm]
    rfl

theorem items_of_uncons_ok {item : Item} (h : listing.uncons = some (.ok item, rest)) :
    listing.items = insert item rest.items := by
  ext other
  simp [mem_items_of_uncons h]

theorem items_of_uncons_error {failure : ListingError}
    (h : listing.uncons = some (.error failure, rest)) : listing.items = rest.items := by
  ext other
  simp [mem_items_of_uncons h]

end Listing

/-! ## Directories -/

section Directories

variable (lists : Request → Set Item)

/-- A directory that is reached from another through directories that are listed, the other
included. -/
def Below : String → String → Prop :=
  Relation.ReflTransGen fun path child => .directory child ∈ lists ⟨.directory, path⟩

/-- The paths of the directories among some items. -/
def directoryPaths (items : Set Item) : Set String :=
  {path | .directory path ∈ items}

/-- What the directories among some items are listed with, if `kind` is asked for. -/
def listed (kind : EntityKind) (items : Set Item) : Set Item :=
  {item | ∃ path ∈ directoryPaths items, item ∈ lists ⟨kind, path⟩}

/-- Some directories and all those below them, as items. -/
def walked (paths : Set String) : Set Item :=
  {item | ∃ start ∈ paths, ∃ path, Below lists start path ∧ item = .directory path}

variable {lists} {items others : Set Item} {paths others : Set String} {kind : EntityKind}

theorem directoryPaths_mono {more : Set Item} (h : items ⊆ more) :
    directoryPaths items ⊆ directoryPaths more :=
  fun _ hpath => h hpath

@[simp]
theorem directoryPaths_empty : directoryPaths ∅ = ∅ := rfl

@[simp]
theorem directoryPaths_insert_directory (path : String) :
    directoryPaths (insert (.directory path) items) = insert path (directoryPaths items) := by
  ext other
  simp [directoryPaths]

/-- An item that is no directory adds nothing to `directoryPaths`. -/
theorem directoryPaths_insert_of_not {item : Item} (h : item.isDirectory = false) :
    directoryPaths (insert item items) = directoryPaths items := by
  ext path
  refine ⟨?_, fun hpath => .inr hpath⟩
  rintro (rfl | hpath)
  · simp at h
  · exact hpath

theorem listed_mono {more : Set Item} (h : items ⊆ more) :
    listed lists kind items ⊆ listed lists kind more := by
  rintro item ⟨path, hpath, hitem⟩
  exact ⟨path, directoryPaths_mono h hpath, hitem⟩

@[simp]
theorem listed_empty : listed lists kind ∅ = ∅ := by
  ext item
  simp [listed]

@[simp]
theorem listed_insert_directory (path : String) :
    listed lists kind (insert (.directory path) items) =
      lists ⟨kind, path⟩ ∪ listed lists kind items := by
  ext item
  simp [listed]

theorem listed_insert_of_not {item : Item} (h : item.isDirectory = false) :
    listed lists kind (insert item items) = listed lists kind items := by
  rw [listed, directoryPaths_insert_of_not h]
  rfl

theorem walked_mono (h : paths ⊆ others) : walked lists paths ⊆ walked lists others := by
  rintro item ⟨start, hstart, hitem⟩
  exact ⟨start, h hstart, hitem⟩

@[simp]
theorem walked_empty : walked lists ∅ = ∅ := by
  ext item
  simp [walked]

/-- What is `walked` from two sets of directories is what is walked from either. -/
theorem walked_union :
    walked lists (paths ∪ others) = walked lists paths ∪ walked lists others := by
  ext item
  simp [walked, or_and_right, exists_or]

/-- To walk below a directory is to come to it and to walk below the directories in it. -/
theorem walked_singleton (path : String) :
    walked lists {path} =
      insert (.directory path) (walked lists (directoryPaths (lists ⟨.directory, path⟩))) := by
  ext item
  simp only [walked, Set.mem_insert_iff]
  refine ⟨?_, ?_⟩
  · rintro ⟨_, rfl, last, hbelow, rfl⟩
    rcases Relation.ReflTransGen.cases_head hbelow with rfl | ⟨child, hchild, hbelow⟩
    · exact .inl rfl
    · exact .inr ⟨child, hchild, last, hbelow, rfl⟩
  · rintro (rfl | ⟨child, hchild, last, hbelow, rfl⟩)
    · exact ⟨path, rfl, path, .refl, rfl⟩
    · exact ⟨path, rfl, last, .head hchild hbelow, rfl⟩

end Directories

namespace Pipeline

/-- The paths that wait in a queue, in whatever order. -/
def queued (queue : Queue String) : Set String :=
  {path | path ∈ queue.toList}

@[simp]
theorem queued_empty : queued .empty = ∅ := by
  ext path
  simp [queued]

/-- The path that `pop?` takes from a queue was waiting, with those that are left. -/
theorem queued_of_pop? {queue rest : Queue String} {path : String}
    (h : queue.pop? = some (path, rest)) : queued queue = insert path (queued rest) := by
  ext other
  simp [queued, Queue.toList_of_pop? h]

/-- Nothing waits in a queue from which `pop?` takes nothing. -/
theorem queued_of_pop?_eq_none {queue : Queue String} (h : queue.pop? = none) :
    queued queue = ∅ := by
  ext path
  simp [queued, Queue.pop?_eq_none_iff.1 h]

/-- By `enqueue` a candidate that is a directory waits with the others, and any other candidate adds
none. -/
theorem queued_enqueue (queue : Queue String) (item : Item) (items : Set Item) :
    queued (enqueue queue item) ∪ directoryPaths items =
      queued queue ∪ directoryPaths (insert item items) := by
  cases hdir : item.isDirectory with
  | true =>
    rw [Item.isDirectory_iff.1 hdir, directoryPaths_insert_directory]
    ext path
    simp [queued, enqueue, Item.directory, Item.isDirectory, or_assoc, or_left_comm]
  | false =>
    rw [directoryPaths_insert_of_not hdir, enqueue, hdir]
    rfl

variable (lists : Request → Set Item)

/-- The items that a pipeline comes to, if requests are answered with the items `lists`. -/
def items : Pipeline → Set Item
  | source pending => {item | .ok item ∈ pending}
  | filtered keep inner => {item | item ∈ items inner ∧ keep item.path = true}
  | extended last inner => insert last (items inner)
  | children kind current inner => current.items ∪ listed lists kind (items inner)
  | gathering queue inner => walked lists (queued queue ∪ directoryPaths (items inner))
  | walking arrived current queue =>
    {item | ∃ path ∈ arrived, item = .directory path} ∪
      walked lists (queued queue ∪ directoryPaths current.items)

end Pipeline

/-! ## Steps -/

namespace Step

variable {σ τ : Type} {lists : Request → Set Item}

/-- A step takes from the expected items what it yields, if `items` gives the items of what is left.
A listing without further items brings none that are not expected, and one without missing items
brings all that are. -/
def Meets (lists : Request → Set Item) (items : σ → Set Item) (expected : Set Item) :
    Step σ → Prop
  | finished => expected = ∅
  | skip rest => expected = items rest
  | yield (.ok item) rest => expected = insert item (items rest)
  | yield (.error _) rest => expected = items rest
  | ask request resume =>
    ∀ listing : Listing,
      (listing.items ⊆ lists request → items (resume listing) ⊆ expected) ∧
        (lists request ⊆ listing.items → expected ⊆ items (resume listing))

/-- A stage meets what `F` makes of the items before it, if it does so at the end (`hfinish`) and
for each item (`hitem`). -/
theorem Meets.through {items : σ → Set Item} {items' : τ → Set Item} {expected : Set Item}
    {step : Step σ} (h : step.Meets lists items expected) {wrap : σ → τ} {finish : Step τ}
    {onItem : Item → σ → Step τ} {F : Set Item → Set Item}
    (hmono : ∀ {some more}, some ⊆ more → F some ⊆ F more)
    (hwrap : ∀ rest, items' (wrap rest) = F (items rest))
    (hfinish : finish.Meets lists items' (F ∅))
    (hitem : ∀ item rest, (onItem item rest).Meets lists items' (F (insert item (items rest)))) :
    (step.through wrap finish onItem).Meets lists items' (F expected) := by
  cases step with
  | finished =>
    rw [show expected = ∅ from h]
    exact hfinish
  | skip rest =>
    rw [show expected = items rest from h]
    exact (hwrap rest).symm
  | yield entry rest =>
    cases entry with
    | ok item =>
      rw [show expected = insert item (items rest) from h]
      exact hitem item rest
    | error failure =>
      rw [show expected = items rest from h]
      exact (hwrap rest).symm
  | ask request resume =>
    intro listing
    rw [hwrap]
    -- whatever the answer is, the stage wraps what is left behind it
    obtain ⟨hsound, hcomplete⟩ := h listing
    exact ⟨fun hl => hmono (hsound hl), fun hl => hmono (hcomplete hl)⟩

end Step

namespace Pipeline

variable {lists : Request → Set Item}

/-- Whether the step of a pipeline takes from its items what it yields, and leaves the others. -/
def StepMeets (lists : Request → Set Item) (pipeline : Pipeline) : Prop :=
  pipeline.step.Meets lists (items lists) (items lists pipeline)

variable {inner : Pipeline}

/-- A `source` yields the items of its list one by one. -/
theorem stepMeets_source (pending : List Entry) : StepMeets lists (source pending) := by
  cases pending with
  | nil => simp [StepMeets, step, Step.Meets, items]
  | cons entry rest =>
    cases entry with
    | ok item =>
      ext other
      simp [items]
    | error failure =>
      ext other
      simp [items]

/-- A filter meets what it makes of its items: it keeps an item or drops it, by its path alone. -/
theorem stepMeets_filtered (keep : String → Bool) (h : StepMeets lists inner) :
    StepMeets lists (filtered keep inner) := by
  refine h.through (F := fun before => {item | item ∈ before ∧ keep item.path = true}) ?_
    (fun _ => rfl) ?_ fun item rest => ?_
  · rintro some more hsub item ⟨hitem, hkeep⟩
    exact ⟨hsub hitem, hkeep⟩
  · ext item
    simp
  · by_cases hkeep : keep item.path = true
    · rw [if_pos hkeep]
      ext other
      show _ ∧ _ ↔ _
      rw [Set.mem_insert_iff, or_and_right, and_iff_left_of_imp (a := other = item)]
      · rfl
      · rintro rfl
        exact hkeep
    · rw [if_neg hkeep]
      ext other
      show _ ∧ _ ↔ _
      rw [Set.mem_insert_iff, or_and_right, or_iff_right]
      · rfl
      · rintro ⟨rfl, h⟩
        exact hkeep h

/-- An extended pipeline meets its items: the one at the end waits until `inner` has ended. -/
theorem stepMeets_extended (last : Item) (h : StepMeets lists inner) :
    StepMeets lists (extended last inner) := by
  refine h.through (F := insert last) (fun hsub => Set.insert_subset_insert hsub)
    (fun _ => rfl) ?_ fun item rest => Set.insert_comm _ _ _
  show insert last ∅ = insert last (items lists (source []))
  ext item
  simp [items]

/-- A stage that lists meets its items: the entries of `current` come first, and then the next
directory is listed. -/
theorem stepMeets_children (kind : EntityKind) (current : Listing) (h : StepMeets lists inner) :
    StepMeets lists (children kind current inner) := by
  rw [StepMeets, step]
  split
  · rename_i entry rest huncons
    cases entry with
    | ok item =>
      show items lists (children kind current inner) = _
      rw [items, Listing.items_of_uncons_ok huncons, Set.insert_union]
      rfl
    | error failure =>
      show items lists (children kind current inner) = _
      rw [items, Listing.items_of_uncons_error huncons]
      rfl
  · rename_i huncons
    rw [items, Listing.items_of_uncons_none huncons, Set.empty_union]
    refine h.through listed_mono (fun _ => ?_) listed_empty fun item rest => ?_
    · rw [items, Listing.items_nil, Set.empty_union]
    · cases hdir : item.isDirectory with
      | true =>
        -- the answer may add to what is listed, and takes nothing from it
        rw [if_pos rfl, Item.isDirectory_iff.1 hdir, listed_insert_directory]
        intro listing
        exact ⟨fun h => Set.union_subset_union_left _ h,
          fun h => Set.union_subset_union_left _ h⟩
      | false =>
        rw [if_neg (by simp), listed_insert_of_not hdir]
        show _ = items lists (children kind .nil rest)
        rw [items, Listing.items_nil, Set.empty_union]

/-- The stage of a `**` meets its items: directories wait in a queue until `inner` has ended, and
then the walk begins. -/
theorem stepMeets_gathering (queue : Queue String) (h : StepMeets lists inner) :
    StepMeets lists (gathering queue inner) := by
  refine h.through
    (F := fun before => walked lists (queued queue ∪ directoryPaths before))
    (fun hsub => walked_mono (Set.union_subset_union_right _ (directoryPaths_mono hsub)))
    (fun _ => rfl) ?_ fun item rest => ?_
  · show _ = items lists (walking none .nil queue)
    simp [items]
  · show _ = items lists (gathering (enqueue queue item) rest)
    rw [items, queued_enqueue]

/-- A walk between two directories comes to what waits in the queue and what `current` lists as
directories, and to all below. -/
theorem items_walking_none (lists : Request → Set Item) (current : Listing)
    (queue : Queue String) :
    items lists (walking none current queue) =
      walked lists (queued queue ∪ directoryPaths current.items) := by
  simp [items]

/-- A walk that has arrived at `path` comes to that as well. -/
theorem items_walking_some (lists : Request → Set Item) (path : String) (current : Listing)
    (queue : Queue String) :
    items lists (walking (some path) current queue) =
      insert (.directory path) (walked lists (queued queue ∪ directoryPaths current.items)) := by
  ext item
  simp [items]

/-- A walk meets its items: it takes the first directory from the queue, and the directories in its
listing join the queue. -/
theorem stepMeets_walking (arrived : Option String) (current : Listing) (queue : Queue String) :
    StepMeets lists (walking arrived current queue) := by
  cases arrived with
  | some path =>
    show items lists (walking (some path) current queue) =
      insert _ (items lists (walking none current queue))
    rw [items_walking_some, items_walking_none]
  | none =>
    rw [StepMeets, items_walking_none, step]
    split
    · rename_i item rest huncons
      rw [Listing.items_of_uncons_ok huncons, ← queued_enqueue]
      exact (items_walking_none _ _ _).symm
    · rename_i failure rest huncons
      rw [Listing.items_of_uncons_error huncons]
      exact (items_walking_none _ _ _).symm
    · rename_i huncons
      rw [Listing.items_of_uncons_none huncons, directoryPaths_empty, Set.union_empty]
      split
      · rename_i hpop
        rw [queued_of_pop?_eq_none hpop]
        exact walked_empty
      · -- what lies below the first directory is below the directories in it
        rename_i path rest hpop
        intro listing
        have hwalked : walked lists (queued queue) =
            insert (.directory path)
              (walked lists (queued rest ∪ directoryPaths (lists ⟨.directory, path⟩))) := by
          rw [queued_of_pop? hpop, Set.insert_eq, walked_union, walked_singleton,
            Set.insert_union, walked_union, Set.union_comm (walked lists (queued rest))]
        rw [hwalked, items_walking_some]
        refine ⟨fun h => ?_, fun h => ?_⟩
        all_goals
          apply Set.insert_subset_insert
          exact walked_mono (Set.union_subset_union_right _ (directoryPaths_mono h))

/-- A step takes from the items of a pipeline what it yields, by induction on the stages:
`StepMeets` holds of every pipeline. -/
theorem meets_step (pipeline : Pipeline) : StepMeets lists pipeline := by
  induction pipeline with
  | source pending => exact stepMeets_source pending
  | filtered keep inner ih => exact stepMeets_filtered keep ih
  | extended last inner ih => exact stepMeets_extended last ih
  | children kind current inner ih => exact stepMeets_children kind current ih
  | gathering queue inner ih => exact stepMeets_gathering queue ih
  | walking arrived current queue => exact stepMeets_walking arrived current queue

end Pipeline

/-! ## Stages -/

/-- What the stage of a segment makes of the items before it, as a set. -/
def Segment.expand (lists : Request → Set Item) (before : Set Item) : Segment → Set Item
  | root => {item | item ∈ before ∧ Path.isRoot item.path = true}
  | device letter => insert (.directory (driveRoot letter)) before
  | component c =>
    {item | item ∈ listed lists .fileOrDirectory before ∧ c.matchesPath item.path = true}
  | anyDirectory => listed lists .directory before
  | recursive => walked lists (directoryPaths before)

variable {lists : Request → Set Item}

/-- The stage of a segment turns the items `before` it into those behind it: `expand` says what
`attach` does. -/
theorem Segment.items_attach (inner : Pipeline) (segment : Segment) :
    Pipeline.items lists (segment.attach inner) = segment.expand lists (inner.items lists) := by
  cases segment <;> simp [attach, expand, Pipeline.items]

/-- What is `safe` of directories in front of a stage, of those that are listed in safe ones, and of
the roots of drives, is so of directories behind the stage. -/
theorem Segment.forall_directoryPaths_expand {safe : String → Prop} {items : Set Item}
    {segment : Segment}
    (hlisted : ∀ kind {path child}, kind ≠ .file → safe path →
      .directory child ∈ lists ⟨kind, path⟩ → safe child)
    (hdevice : ∀ letter, segment = .device letter → safe (driveRoot letter))
    (h : ∀ path ∈ directoryPaths items, safe path) :
    ∀ path ∈ directoryPaths (segment.expand lists items), safe path := by
  have hentries : ∀ kind, kind ≠ .file → ∀ path ∈ directoryPaths (listed lists kind items),
      safe path := by
    rintro kind hkind path ⟨directory, hdirectory, hpath⟩
    exact hlisted kind hkind (h directory hdirectory) hpath
  cases segment with
  | root => exact fun path hpath => h path hpath.1
  | device letter =>
    intro path hpath
    rw [expand, directoryPaths_insert_directory] at hpath
    rcases hpath with rfl | hpath
    · exact hdevice letter rfl
    · exact h path hpath
  | component c => exact fun path hpath => hentries _ (by simp) path hpath.1
  | anyDirectory => exact hentries _ (by simp)
  | recursive =>
    rintro path ⟨start, hstart, last, hbelow, heq⟩
    rw [Item.directory_inj.1 heq]
    clear heq
    -- a walk from a safe directory stays among safe ones
    induction hbelow with
    | refl => exact h start hstart
    | tail _ hchild ih => exact hlisted .directory (by simp) ih hchild

/-- The items of an alternative are its bases, taken through `expand` of one segment after the
other. -/
theorem Alternative.items_pipeline (bases : List String) (segments : List Segment) :
    Pipeline.items lists ((steps segments).pipeline bases) =
      segments.foldl (Segment.expand lists) {item | ∃ base ∈ bases, item = .directory base} := by
  -- stage by stage, from whatever pipeline is in front
  suffices ∀ (segments : List Segment) (inner : Pipeline),
      Pipeline.items lists (segments.foldl Segment.attach inner) =
        segments.foldl (Segment.expand lists) (inner.items lists) by
    rw [pipeline, this]
    congr 1
    ext item
    simp [Pipeline.items, eq_comm]
  intro segments
  induction segments with
  | nil => exact fun _ => rfl
  | cons segment segments ih =>
    intro inner
    rw [List.foldl_cons, ih, Segment.items_attach]
    rfl

end PathPatterns
