import PathPatterns.Proofs.Enumeration.Selection

/-!
# What an enumeration asks for

An enumeration asks for nothing before its first advance. After that it lists only directories that
it knows: its bases, the roots of the drives that the glob names, and what an earlier answer has
listed as a directory. A stage may hold directories for later, but no others.

## Main results

* `draws_step`: a step of a pipeline yields and asks for what the pipeline holds, and comes to hold
  nothing more than what the answer lists.
* `traced_advance`: an advance keeps to known directories.
* `requests_follow_listings`: where each request of an enumeration comes from.
-/

namespace PathPatterns

/-- The items in the answers to some requests, which are given last first. -/
def Lister.returned (lister : Lister) : List Request → Set Item
  | [] => ∅
  | request :: earlier => (lister.answer earlier request).items ∪ returned lister earlier

/-- The directories that are known after some requests: those at the start and those that have been
listed. -/
def Lister.known (lister : Lister) (starts : Set String) (requests : List Request) : Set String :=
  starts ∪ directoryPaths (lister.returned requests)

/-- Whether each of some requests, last first, asks for more than files in a directory that was
known when it was made. -/
inductive Traced (lister : Lister) (starts : Set String) : List Request → Prop
  /-- There are no requests. -/
  | nil : Traced lister starts []
  /-- The last request, and those before it. -/
  | cons {request : Request} {earlier : List Request} (kind : request.kind ≠ .file)
      (directory : request.directory ∈ lister.known starts earlier)
      (rest : Traced lister starts earlier) : Traced lister starts (request :: earlier)

section Traced

variable {lister : Lister} {starts : Set String} {request : Request}
  {requests earlier later : List Request}

/-- One more request makes `known` what its answer lists as directories, and nothing else. -/
theorem Lister.known_cons (lister : Lister) (starts : Set String) (request : Request)
    (earlier : List Request) :
    lister.known starts (request :: earlier) =
      lister.known starts earlier ∪ directoryPaths (lister.answer earlier request).items := by
  ext path
  show _ ∨ _ ∨ _ ↔ (_ ∨ _) ∨ _
  rw [or_assoc, or_comm (a := _ ∈ directoryPaths (lister.returned earlier))]
  rfl

/-- What has been `returned` is in the answer to one of the requests, given those before it. -/
theorem Lister.exists_of_mem_returned {item : Item} (h : item ∈ lister.returned requests) :
    ∃ between asked before, requests = between ++ asked :: before ∧
      item ∈ (lister.answer before asked).items := by
  induction requests with
  | nil => exact absurd h (Set.notMem_empty item)
  | cons last requests ih =>
    rcases h with hlast | hbefore
    · exact ⟨[], last, requests, rfl, hlast⟩
    · obtain ⟨between, asked, before, rfl, hitem⟩ := ih hbefore
      exact ⟨last :: between, asked, before, rfl, hitem⟩

/-- Each of the requests that are `Traced` was made for a directory that was known by then, and not
for files alone. -/
theorem Traced.of_append (h : Traced lister starts (later ++ request :: earlier)) :
    request.kind ≠ .file ∧ request.directory ∈ lister.known starts earlier := by
  induction later with
  | nil =>
    cases h with
    | cons kind directory _ => exact ⟨kind, directory⟩
  | cons last later ih =>
    cases h with
    | cons _ _ rest => exact ih rest

/-- Requests that are `Traced` keep to some directories, if those at the start are among them
(`hstarts`) and what these list are no others (`hclosed`). -/
theorem Traced.directory_mem {directories : Set String} (h : Traced lister starts requests)
    (hstarts : starts ⊆ directories)
    (hclosed : ∀ earlier kind, ∀ path ∈ directories,
      directoryPaths (lister.answer earlier ⟨kind, path⟩).items ⊆ directories) :
    ∀ request ∈ requests, request.directory ∈ directories := by
  -- what is known is among the directories as well
  suffices (∀ request ∈ requests, request.directory ∈ directories) ∧
      lister.known starts requests ⊆ directories from this.1
  induction h with
  | nil =>
    refine ⟨by simp, ?_⟩
    rwa [Lister.known, Lister.returned, directoryPaths_empty, Set.union_empty]
  | cons kind directory _ ih =>
    obtain ⟨hrequests, hknown⟩ := ih
    refine ⟨List.forall_mem_cons.2 ⟨hknown directory, hrequests⟩, ?_⟩
    rw [Lister.known_cons]
    exact Set.union_subset hknown (hclosed _ _ _ (hknown directory))

/-- Where nothing is known at the start, no requests are `Traced`, as only answers make directories
known. -/
theorem Traced.eq_nil (h : Traced lister ∅ requests) : requests = [] := by
  induction h with
  | nil => rfl
  | cons _ directory _ ih =>
    subst ih
    rcases directory with hstart | hlisted
    · exact absurd hstart (Set.notMem_empty _)
    · exact absurd hlisted (Set.notMem_empty _)

end Traced

/-! ## Steps -/

namespace Step

variable {σ τ : Type}

/-- Whether a step draws on known directories: what it yields and what it asks for is among them,
and what is left holds no others but those that the answer lists. -/
def Draws (holds : Set String → σ → Prop) (known : Set String) : Step σ → Prop
  | finished => True
  | skip rest => holds known rest
  | yield entry rest => (∀ path, entry = .ok (.directory path) → path ∈ known) ∧ holds known rest
  | ask request resume =>
    request.kind ≠ .file ∧ request.directory ∈ known ∧
      ∀ listing : Listing, holds (known ∪ directoryPaths listing.items) (resume listing)

/-- A stage draws on what the stage before it draws on, if it does so at the end (`hfinish`) and for
each item (`hitem`). -/
theorem Draws.through {holds : Set String → σ → Prop} {holds' : Set String → τ → Prop}
    {known : Set String} {step : Step σ} (h : step.Draws holds known) {wrap : σ → τ}
    {finish : Step τ} {onItem : Item → σ → Step τ}
    (hwrap : ∀ {more rest}, known ⊆ more → holds more rest → holds' more (wrap rest))
    (hfinish : finish.Draws holds' known)
    (hitem : ∀ item rest, (item.isDirectory = true → item.path ∈ known) → holds known rest →
      (onItem item rest).Draws holds' known) :
    (step.through wrap finish onItem).Draws holds' known := by
  cases step with
  | finished => exact hfinish
  | skip rest => exact hwrap subset_rfl h
  | yield entry rest =>
    obtain ⟨hentry, hrest⟩ := h
    cases entry with
    | ok item =>
      refine hitem item rest (fun hdirectory => hentry item.path ?_) hrest
      exact congrArg Except.ok (Item.isDirectory_iff.1 hdirectory)
    | error failure => exact ⟨by simp, hwrap subset_rfl hrest⟩
  | ask request resume =>
    obtain ⟨hkind, hdirectory, hresume⟩ := h
    exact ⟨hkind, hdirectory, fun listing => hwrap Set.subset_union_left (hresume listing)⟩

end Step

namespace Pipeline

/-- Whether all directories that a pipeline holds are known, and none of its stages asks for files
alone. -/
def Holds (known : Set String) : Pipeline → Prop
  | source pending => ∀ path, .ok (.directory path) ∈ pending → path ∈ known
  | filtered _ inner => inner.Holds known
  | extended last inner => (last.isDirectory = true → last.path ∈ known) ∧ inner.Holds known
  | children kind current inner =>
    kind ≠ .file ∧ directoryPaths current.items ⊆ known ∧ inner.Holds known
  | gathering queue inner => queued queue ⊆ known ∧ inner.Holds known
  | walking arrived current queue =>
    (∀ path ∈ arrived, path ∈ known) ∧ directoryPaths current.items ⊆ known ∧ queued queue ⊆ known

variable {known more : Set String} {inner pipeline : Pipeline} {queue : Queue String}

/-- Where more is known, a pipeline `Holds` known directories as before. -/
theorem Holds.mono (hsub : known ⊆ more) (h : pipeline.Holds known) : pipeline.Holds more := by
  induction pipeline with
  | source pending => exact fun path hpath => hsub (h path hpath)
  | filtered keep inner ih => exact ih h
  | extended last inner ih => exact ⟨fun hlast => hsub (h.1 hlast), ih h.2⟩
  | children kind current inner ih => exact ⟨h.1, h.2.1.trans hsub, ih h.2.2⟩
  | gathering queue inner ih => exact ⟨h.1.trans hsub, ih h.2⟩
  | walking arrived current queue =>
    exact ⟨fun path hpath => hsub (h.1 path hpath), h.2.1.trans hsub, h.2.2.trans hsub⟩

/-- By `enqueue` only a directory joins the queue, so the queue goes on to hold known
directories. -/
theorem queued_enqueue_subset (h : queued queue ⊆ known) {item : Item}
    (hitem : item.isDirectory = true → item.path ∈ known) :
    queued (enqueue queue item) ⊆ known := by
  cases hdirectory : item.isDirectory with
  | true =>
    intro path hpath
    have hcases : path ∈ queue.toList ∨ path = item.path := by
      simpa [queued, enqueue, hdirectory] using hpath
    rcases hcases with hqueue | rfl
    · exact h hqueue
    · exact hitem hdirectory
  | false => rwa [enqueue, hdirectory]

/-- Where all directories of a listing are known, so are that of its first `entry` and those of
`rest`. -/
theorem known_of_uncons {current rest : Listing} {entry : Entry}
    (huncons : current.uncons = some (entry, rest)) (h : directoryPaths current.items ⊆ known) :
    (∀ path, entry = .ok (.directory path) → path ∈ known) ∧ directoryPaths rest.items ⊆ known :=
  ⟨fun _ hentry => h ((Listing.mem_items_of_uncons huncons).2 (.inl hentry.symm)),
    fun _ hpath => h ((Listing.mem_items_of_uncons huncons).2 (.inr hpath))⟩

/-- A stage that lists `Draws` on known directories, if the stage in front does. -/
theorem draws_children {kind : EntityKind} {current : Listing}
    (hinner : inner.Holds known → inner.step.Draws Holds known)
    (h : (children kind current inner).Holds known) :
    (children kind current inner).step.Draws Holds known := by
  obtain ⟨hkind, hcurrent, hholds⟩ := h
  rw [step]
  cases huncons : current.uncons with
  | some first =>
    obtain ⟨hentry, hrest⟩ := known_of_uncons huncons hcurrent
    exact ⟨hentry, hkind, hrest, hholds⟩
  | none =>
    refine (hinner hholds).through (fun _ hrest => ⟨hkind, by simp, hrest⟩) trivial
      fun item rest hitem hrest => ?_
    cases hdirectory : item.isDirectory with
    | true =>
      rw [if_pos rfl]
      -- the directory of the item is listed, and its listing is held from then on
      exact ⟨hkind, hitem hdirectory, fun listing =>
        ⟨hkind, Set.subset_union_right, hrest.mono Set.subset_union_left⟩⟩
    | false =>
      rw [if_neg (by simp)]
      exact ⟨hkind, by simp, hrest⟩

/-- A walk `Draws` on known directories: those in its queue and in the current listing. -/
theorem draws_walking {arrived : Option String} {current : Listing}
    (h : (walking arrived current queue).Holds known) :
    (walking arrived current queue).step.Draws Holds known := by
  obtain ⟨harrived, hcurrent, hqueue⟩ := h
  cases arrived with
  | some path =>
    refine ⟨fun other hother => ?_, by simp, hcurrent, hqueue⟩
    rw [← Item.directory_inj.1 (Except.ok.inj hother)]
    exact harrived path rfl
  | none =>
    rw [step]
    cases huncons : current.uncons with
    | some first =>
      obtain ⟨entry, rest⟩ := first
      obtain ⟨hentry, hrest⟩ := known_of_uncons huncons hcurrent
      cases entry with
      | ok item =>
        refine ⟨by simp, hrest, queued_enqueue_subset hqueue fun hdirectory => ?_⟩
        exact hentry item.path (congrArg Except.ok (Item.isDirectory_iff.1 hdirectory))
      | error failure => exact ⟨hentry, by simp, hrest, hqueue⟩
    | none =>
      cases hpop : queue.pop? with
      | none => trivial
      | some first =>
        obtain ⟨path, rest⟩ := first
        rw [queued_of_pop? hpop] at hqueue
        obtain ⟨hpath, hrest⟩ := Set.insert_subset_iff.1 hqueue
        refine ⟨by simp, hpath, fun listing => ⟨fun other hother => ?_, ?_, ?_⟩⟩
        · -- the directory that has been listed is yielded next
          obtain rfl : path = other := Option.some.inj hother
          exact .inl hpath
        · exact Set.subset_union_right
        · exact hrest.trans Set.subset_union_left

/-- A step of a pipeline draws on the directories that the pipeline `Holds`, by induction on the
stages. -/
theorem draws_step (h : pipeline.Holds known) :
    pipeline.step.Draws Holds known := by
  induction pipeline with
  | source pending =>
    cases pending with
    | nil => trivial
    | cons entry rest =>
      -- of the pending entries the first is yielded, and the others stay
      exact ⟨fun path hentry => h path (by simp [hentry]),
        fun path hpath => h path (List.mem_cons_of_mem _ hpath)⟩
  | filtered keep inner ih =>
    refine (ih h).through (fun _ hrest => hrest) trivial fun item rest hitem hrest => ?_
    by_cases hkeep : keep item.path = true
    · rw [if_pos hkeep]
      refine ⟨fun path hentry => ?_, hrest⟩
      obtain rfl := Except.ok.inj hentry
      exact hitem rfl
    · rw [if_neg hkeep]
      exact hrest
  | extended last inner ih =>
    obtain ⟨hlast, hinner⟩ := h
    refine (ih hinner).through (fun hsub hrest => ⟨fun hdir => hsub (hlast hdir), hrest⟩) ?_ ?_
    · refine ⟨fun path hentry => ?_, by simp [Holds]⟩
      obtain rfl := Except.ok.inj hentry
      exact hlast rfl
    · refine fun item rest hitem hrest => ⟨fun path hentry => ?_, hlast, hrest⟩
      obtain rfl := Except.ok.inj hentry
      exact hitem rfl
  | children kind current inner ih => exact draws_children ih h
  | gathering queue inner ih =>
    obtain ⟨hqueue, hinner⟩ := h
    refine (ih hinner).through (fun hsub hrest => ⟨hqueue.trans hsub, hrest⟩) ?_ ?_
    · exact ⟨by simp, by simp, hqueue⟩
    · exact fun item rest hitem hrest => ⟨queued_enqueue_subset hqueue hitem, hrest⟩
  | walking arrived current queue => exact draws_walking h

end Pipeline

/-! ## Stages -/

/-- The stage of a segment `Holds` what the pipeline before it holds, and the root of its drive. -/
theorem Segment.holds_attach {known : Set String} {inner : Pipeline} (h : inner.Holds known)
    {segment : Segment} (hdevice : ∀ letter, segment = device letter → driveRoot letter ∈ known) :
    (segment.attach inner).Holds known := by
  cases segment with
  | root => exact h
  | device letter => exact ⟨fun _ => hdevice letter rfl, h⟩
  | component c => exact ⟨by simp, by simp, h⟩
  | anyDirectory => exact ⟨by simp, by simp, h⟩
  | recursive => exact ⟨by simp, h⟩

/-- At first, the pipeline of an alternative `Holds` the bases and the roots of its drives. -/
theorem Alternative.holds_pipeline {known : Set String} {bases : List String}
    {segments : List Segment} (hbases : ∀ base ∈ bases, base ∈ known)
    (hdevice : ∀ letter, .device letter ∈ segments → Segment.driveRoot letter ∈ known) :
    ((steps segments).pipeline bases).Holds known := by
  -- stage by stage, from whatever pipeline is in front
  suffices ∀ inner : Pipeline, inner.Holds known →
      (segments.foldl Segment.attach inner).Holds known by
    refine this _ fun path hpath => ?_
    obtain ⟨base, hbase, heq⟩ := List.mem_map.1 hpath
    rw [← Item.directory_inj.1 (Except.ok.inj heq)]
    exact hbases base hbase
  induction segments with
  | nil => exact fun _ h => h
  | cons segment segments ih =>
    intro inner h
    refine ih (fun letter hmem => hdevice letter (List.mem_cons_of_mem _ hmem)) _ ?_
    exact Segment.holds_attach h fun letter heq => hdevice letter (by simp [heq])

theorem Alternative.holds_pipeline_literal (known : Set String) (bases : List String)
    (path : String) : ((literal path).pipeline bases).Holds known := by
  intro other hother
  simp [Item.file, Item.directory] at hother

/-! ## Streams and enumerations -/

/-- Whether the requests of a stream were made for known directories, and it holds no others. -/
structure Stream.IsTraced (lister : Lister) (starts : Set String) (stream : Stream) : Prop where
  /-- The requests were made for known directories. -/
  requests : Traced lister starts stream.requests
  /-- The pipelines hold known directories. -/
  pipelines : ∀ pipeline ∈ stream.pipelines,
    pipeline.Holds (lister.known starts stream.requests)

variable {lister : Lister} {starts : Set String}

/-- A step of a stream that `IsTraced` asks for nothing but a known directory, and goes on to hold
none but these. -/
theorem Stream.isTraced_step {stream : Stream} (h : stream.IsTraced lister starts) :
    match stream.step lister with
    | .finished => True
    | .working rest => rest.IsTraced lister starts
    | .entry _ rest => rest.IsTraced lister starts := by
  obtain ⟨pipelines, requests⟩ := stream
  obtain ⟨hrequests, hpipelines⟩ := h
  cases pipelines with
  | nil => trivial
  | cons pipeline later =>
    obtain ⟨hfirst, hlater⟩ := List.forall_mem_cons.1 hpipelines
    have hdraws := Pipeline.draws_step hfirst
    cases hstep : pipeline.step with
    | finished =>
      rw [step_of_finished hstep]
      exact ⟨hrequests, hlater⟩
    | skip rest =>
      rw [hstep] at hdraws
      rw [step_of_skip hstep]
      exact ⟨hrequests, List.forall_mem_cons.2 ⟨hdraws, hlater⟩⟩
    | yield entry rest =>
      rw [hstep] at hdraws
      rw [step_of_yield hstep]
      exact ⟨hrequests, List.forall_mem_cons.2 ⟨hdraws.2, hlater⟩⟩
    | ask request resume =>
      rw [hstep] at hdraws
      obtain ⟨hkind, hdirectory, hresume⟩ := hdraws
      rw [step_of_ask hstep]
      refine ⟨.cons hkind hdirectory hrequests, ?_⟩
      -- what the answer lists is known from then on
      rw [Lister.known_cons]
      refine List.forall_mem_cons.2 ⟨hresume _, fun other hother => ?_⟩
      exact (hlater other hother).mono Set.subset_union_left

namespace Enumeration

/-- What is left of an enumeration after an advance, whatever it has come to. -/
def Advance.rest : Advance → Enumeration
  | finished rest => rest
  | result _ rest => rest
  | unfinished rest => rest

/-- What becomes of an enumeration by any number of advances, of any number of steps each. -/
inductive Later (lister : Lister) (first : Enumeration) : Enumeration → Prop
  /-- There was no advance. -/
  | refl : Later lister first first
  /-- One more advance. -/
  | advance {state : Enumeration} (before : Later lister first state) (steps : Nat) :
      Later lister first (state.advance lister steps).rest

variable {enumeration : Enumeration}

/-- A step of an enumeration keeps its stream traced. -/
theorem traced_step (h : enumeration.stream.IsTraced lister starts) :
    match enumeration.step lister with
    | .finished rest => rest.stream.IsTraced lister starts
    | .working rest => rest.stream.IsTraced lister starts
    | .result _ rest => rest.stream.IsTraced lister starts := by
  have hstream := Stream.isTraced_step h
  cases hdone : enumeration.done with
  | true =>
    rw [step, if_pos hdone]
    exact h
  | false =>
    obtain ⟨-, hstep⟩ | ⟨_, hentry, hstep⟩ | ⟨_, _, hentry, hstep⟩ |
      ⟨_, _, hentry, -, -, hstep⟩ | ⟨_, _, hentry, -, hstep⟩ := step_cases lister hdone
    · rw [hstep]
      exact h
    -- in all other cases the stream takes a step
    all_goals
      rw [hentry] at hstream
      rw [hstep]
      exact hstream

/-- An `advance` keeps the stream of an enumeration traced, by induction on its steps. -/
theorem traced_advance (steps : Nat) (h : enumeration.stream.IsTraced lister starts) :
    (enumeration.advance lister steps).rest.stream.IsTraced lister starts := by
  induction steps generalizing enumeration with
  | zero => exact h
  | succ steps ih =>
    have hstep := traced_step h
    rw [advance]
    cases hprogress : enumeration.step lister with
    | finished rest =>
      rw [hprogress] at hstep
      exact hstep
    | working rest =>
      rw [hprogress] at hstep
      exact ih hstep
    | result result rest =>
      rw [hprogress] at hstep
      exact hstep

/-- The stream of every state that comes `Later` is traced, by induction on the advances. -/
theorem Later.isTraced {state : Enumeration} (h : enumeration.Later lister state)
    (hfirst : enumeration.stream.IsTraced lister starts) : state.stream.IsTraced lister starts := by
  induction h with
  | refl => exact hfirst
  | advance _ steps ih => exact traced_advance steps ih

/-- At the start, the stream of `Glob.enumerate` is traced: it holds the bases and the roots of the
drives of the glob, and has asked for nothing. -/
theorem isTraced_enumerate (lister : Lister) (glob : Glob) (kind : EntityKind)
    (bases : List String) :
    (glob.enumerate kind bases).stream.IsTraced lister (glob.starts bases) := by
  refine ⟨.nil, fun pipeline hpipeline => ?_⟩
  obtain ⟨alternative, hmem, rfl⟩ := List.mem_map.1 hpipeline
  cases alternative with
  | literal path => exact Alternative.holds_pipeline_literal _ bases path
  | steps segments =>
    refine Alternative.holds_pipeline (fun base hbase => .inl (.inl hbase)) fun letter hletter => ?_
    exact .inl (.inr ⟨_, hmem, letter, hletter, rfl⟩)

/-- The stream of a glob of literal paths is traced with no directory at the start. -/
theorem isTraced_enumerate_literal (lister : Lister) {glob : Glob} (kind : EntityKind)
    (bases : List String)
    (h : ∀ alternative ∈ glob.alternatives, ∃ path, alternative = .literal path) :
    (glob.enumerate kind bases).stream.IsTraced lister ∅ := by
  refine ⟨.nil, fun pipeline hpipeline => ?_⟩
  obtain ⟨alternative, hmem, rfl⟩ := List.mem_map.1 hpipeline
  obtain ⟨path, rfl⟩ := h alternative hmem
  exact Alternative.holds_pipeline_literal _ bases path

/-- Nothing is asked for before the first advance. In each state that comes `Later`, each request
was made for directories, alone or with files, and for a base, for the root of a drive that the glob
names, or for what the answer to an earlier request lists as a directory. A glob of literal paths
asks for nothing. -/
theorem requests_follow_listings (lister : Lister) (glob : Glob) (kind : EntityKind)
    (bases : List String) :
    (glob.enumerate kind bases).stream.requests = [] ∧
    ∀ state, (glob.enumerate kind bases).Later lister state →
      (∀ later request earlier, state.stream.requests = later ++ request :: earlier →
        (request.kind = .directory ∨ request.kind = .fileOrDirectory) ∧
        (request.directory ∈ bases ∨
          (∃ alternative ∈ glob.alternatives, ∃ letter,
            .device letter ∈ alternative.segments ∧
              request.directory = Segment.driveRoot letter) ∨
          ∃ between asked before, earlier = between ++ asked :: before ∧
            .directory request.directory ∈ (lister.answer before asked).items)) ∧
      ((∀ alternative ∈ glob.alternatives, ∃ path, alternative = .literal path) →
        state.stream.requests = []) := by
  refine ⟨rfl, fun state hstate => ⟨fun later request earlier hrequests => ?_, fun hliteral => ?_⟩⟩
  · have htraced := (hstate.isTraced (isTraced_enumerate lister glob kind bases)).requests
    rw [hrequests] at htraced
    obtain ⟨hkind, hdirectory⟩ := htraced.of_append
    constructor
    · -- no stage asks for files alone
      cases hasked : request.kind with
      | file => exact absurd hasked hkind
      | directory => exact .inl rfl
      | fileOrDirectory => exact .inr rfl
    · rcases hdirectory with (hbase | hdrive) | hlisted
      · exact .inl hbase
      · exact .inr (.inl hdrive)
      · exact .inr (.inr (Lister.exists_of_mem_returned hlisted))
  · exact (hstate.isTraced (isTraced_enumerate_literal lister kind bases hliteral)).requests.eq_nil

/-- A state of the enumeration of `namedB` over a tree of two levels, in which the second directory
was asked for after an answer had listed it, as `requests_follow_listings` says. -/
theorem requests_of_twoLevels :
    ∃ state,
      (namedB.enumerate .file ["/w"]).Later
        (.ofFunction fun request => (twoLevels request).map .ok) state ∧
      state.stream.requests =
        [⟨.fileOrDirectory, "/w/a"⟩] ++ ⟨.directory, "/w/a"⟩ ::
          [⟨.fileOrDirectory, "/w"⟩, ⟨.directory, "/w"⟩] ∧
      ∃ between asked before,
        [⟨.fileOrDirectory, "/w"⟩, ⟨.directory, "/w"⟩] = between ++ asked :: before ∧
        .directory "/w/a" ∈ (Listing.finite ((twoLevels asked).map .ok)).items := by
  -- the first advance comes to the file in the upper level, the second to the one in the lower
  obtain ⟨state, hstate, hrequests⟩ : ∃ state,
      (namedB.enumerate .file ["/w"]).Later
        (.ofFunction fun request => (twoLevels request).map .ok) state ∧
      state.stream.requests =
        [⟨.fileOrDirectory, "/w/a"⟩] ++ ⟨.directory, "/w/a"⟩ ::
          [⟨.fileOrDirectory, "/w"⟩, ⟨.directory, "/w"⟩] :=
    ⟨_, .advance (.advance .refl 10) 10, by rfl⟩
  obtain ⟨-, hafter⟩ := requests_follow_listings
    (.ofFunction fun request => (twoLevels request).map .ok) namedB .file ["/w"]
  obtain ⟨-, hbase | ⟨_, hmem, _, hletter, -⟩ | hlisted⟩ := (hafter state hstate).1 _ _ _ hrequests
  · simp at hbase
  · simp [List.mem_singleton.1 hmem, Alternative.segments] at hletter
  · exact ⟨state, hstate, hrequests, hlisted⟩

end Enumeration

end PathPatterns
