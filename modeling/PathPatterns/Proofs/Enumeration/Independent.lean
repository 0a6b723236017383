import PathPatterns.Proofs.Enumeration.BreadthFirst
import PathPatterns.Proofs.Enumeration.Union
import PathPatterns.Proofs.MemoryTree.Regular

/-!
# Bases one by one

A segment that handles candidates one by one replaces each of them by entries that depend on it
alone; failures stay where they are. Such segments do so together, so that the entries below some
base directories are those below the first, then those below the second, and so on. A base that
fails at once therefore ends an enumeration behind all that the bases in front of it give.

## Main definitions

* `Segment.HandlesEach`: the segments that handle candidates one by one.
* `Pipeline.HasEntries`: what a pipeline yields whatever has been asked for before it.

## Main results

* `exists_replacement`, `exists_replacement_foldl`: what segments put in the place of a candidate.
* `resultsOf_append_error_cons`: a failure behind the entries of a complete enumeration.
* `drains_and_completes_base_by_base`: bases do not matter to each other.
-/

namespace PathPatterns

open PathPatterns.Stream

namespace Pipeline

/-- What a pipeline yields up to its end if requests are answered by `answer`. -/
inductive HasEntries (answer : Request → List Entry) : Pipeline → List Entry → Prop
  /-- It has ended. -/
  | finished {pipeline : Pipeline} (h : pipeline.step = .finished) : HasEntries answer pipeline []
  /-- It goes on without an entry. -/
  | skip {pipeline rest : Pipeline} {entries : List Entry} (h : pipeline.step = .skip rest)
      (next : HasEntries answer rest entries) : HasEntries answer pipeline entries
  /-- It yields an entry. -/
  | yield {pipeline rest : Pipeline} {entry : Entry} {entries : List Entry}
      (h : pipeline.step = .yield entry rest) (next : HasEntries answer rest entries) :
      HasEntries answer pipeline (entry :: entries)
  /-- It goes on with the answer to a request. -/
  | ask {pipeline : Pipeline} {request : Request} {resume : Listing → Pipeline}
      {entries : List Entry} (h : pipeline.step = .ask request resume)
      (next : HasEntries answer (resume (.finite (answer request))) entries) :
      HasEntries answer pipeline entries

variable {answer : Request → List Entry} {inner pipeline : Pipeline} {earlier : List Request}
  {entries others candidates : List Entry}

/-- A stream of one pipeline `Drains` with the entries that the pipeline has, whatever has been
asked for `earlier`. -/
theorem HasEntries.drains (h : HasEntries answer pipeline entries) (earlier : List Request) :
    Drains (.ofFunction answer) ⟨[pipeline], earlier⟩ entries := by
  induction h generalizing earlier with
  | finished h => exact ⟨earlier, (yields_iff_of_finished h).2 ⟨rfl, rfl⟩⟩
  | skip h _ ih =>
    obtain ⟨later, hnext⟩ := ih earlier
    exact ⟨later, (yields_iff_of_skip h).2 hnext⟩
  | yield h _ ih =>
    obtain ⟨later, hnext⟩ := ih earlier
    exact ⟨later, (yields_iff_of_yield h).2 ⟨_, rfl, hnext⟩⟩
  | @ask _ request _ _ h _ ih =>
    obtain ⟨later, hnext⟩ := ih (request :: earlier)
    exact ⟨later, (yields_iff_of_ask h).2 hnext⟩

/-- A stream of one pipeline `Drains` with the entries that the pipeline has and with no others. -/
theorem HasEntries.drains_iff (h : HasEntries answer pipeline entries) :
    Drains (.ofFunction answer) ⟨[pipeline], earlier⟩ others ↔ others = entries := by
  refine ⟨fun hothers => ?_, fun heq => heq ▸ h.drains earlier⟩
  obtain ⟨_, hentries⟩ := h.drains earlier
  obtain ⟨rest, rfl, _, hrest⟩ := hentries.exists_append hothers
  rw [(yields_nil_iff.1 hrest).1, List.append_nil]

theorem hasEntries_source (answer : Request → List Entry) (candidates : List Entry) :
    HasEntries answer (source candidates) candidates := by
  induction candidates with
  | nil => exact .finished rfl
  | cons entry candidates ih => exact .yield rfl ih

/-- A stage that passes failures on (`herror`) and puts something in the place of each item
(`hitem`) yields, candidate by candidate, what it puts in their places. -/
theorem HasEntries.through {stage : Pipeline → Pipeline} {onItem : Item → Pipeline → Step Pipeline}
    {replacement : Entry → List Entry}
    (hstage : ∀ inner, (stage inner).step = inner.step.through stage .finished onItem)
    (herror : ∀ failure, replacement (.error failure) = [.error failure])
    (hitem : ∀ item rest entries, HasEntries answer (stage rest) entries →
      ∀ pipeline, pipeline.step = onItem item rest →
        HasEntries answer pipeline (replacement (.ok item) ++ entries))
    (h : HasEntries answer inner candidates) :
    HasEntries answer (stage inner) (candidates.flatMap replacement) := by
  -- on the steps of the stages in front
  induction h with
  | finished h => exact .finished (by rw [hstage, h]; rfl)
  | skip h _ ih => exact .skip (by rw [hstage, h]; rfl) ih
  | ask h _ ih => exact .ask (by rw [hstage, h]; rfl) ih
  | yield h _ ih =>
    rename_i entry _ _
    rw [List.flatMap_cons]
    cases entry with
    | error failure =>
      rw [herror]
      exact .yield (by rw [hstage, h]; rfl) ih
    | ok item => exact hitem item _ _ ih _ (by rw [hstage, h]; rfl)

/-! ## What stands for a candidate -/

/-- What stands for a candidate behind a filter: an item itself if its path is kept, and a failure
for itself. -/
def keptFor (keep : String → Bool) : Entry → List Entry
  | .ok item => if keep item.path then [.ok item] else []
  | .error failure => [.error failure]

/-- What stands for a candidate behind a stage that lists: the entries of a directory, nothing for
another item, and a failure for itself. -/
def listingFor (answer : Request → List Entry) (kind : EntityKind) : Entry → List Entry
  | .ok item => if item.isDirectory then answer ⟨kind, item.path⟩ else []
  | .error failure => [.error failure]

/-- A filter puts `keptFor` in the place of each candidate: the item itself if its path is kept. -/
theorem HasEntries.filtered (h : HasEntries answer inner candidates) (keep : String → Bool) :
    HasEntries answer (filtered keep inner) (candidates.flatMap (keptFor keep)) := by
  refine HasEntries.through (fun _ => rfl) (fun _ => rfl)
    (fun item rest entries hrest next hnext => ?_) h
  rw [keptFor]
  by_cases hkeep : keep item.path = true
  · rw [if_pos hkeep] at hnext ⊢
    exact .yield hnext hrest
  · rw [if_neg hkeep] at hnext ⊢
    exact .skip hnext hrest

/-- The entries of a listing that is held are yielded before the next candidate is taken. -/
theorem HasEntries.children_finite {kind : EntityKind} (listing : List Entry)
    (h : HasEntries answer (children kind .nil inner) entries) :
    HasEntries answer (children kind (.finite listing) inner) (listing ++ entries) := by
  induction listing with
  | nil => exact h
  | cons entry listing ih => exact .yield rfl ih

/-- A stage that lists puts `listingFor` in the place of each candidate: the entries of a
directory. -/
theorem HasEntries.children (h : HasEntries answer inner candidates) (kind : EntityKind) :
    HasEntries answer (children kind .nil inner) (candidates.flatMap (listingFor answer kind)) := by
  refine HasEntries.through (fun inner => by rw [step]; rfl) (fun _ => rfl)
    (fun item rest entries hrest next hnext => ?_) h
  rw [listingFor]
  by_cases hdirectory : item.isDirectory = true
  · rw [if_pos hdirectory] at hnext ⊢
    exact .ask hnext (hrest.children_finite _)
  · rw [if_neg hdirectory] at hnext ⊢
    exact .skip hnext hrest

end Pipeline

/-! ## Segments that handle candidates one by one -/

namespace Segment

open PathPatterns.Pipeline

/-- Whether the stage of a segment handles its candidates one by one. A drive puts its root behind
all candidates, and a `**` takes all of them in before it yields a directory. -/
def HandlesEach : Segment → Prop
  | root => True
  | device _ => False
  | component _ => True
  | anyDirectory => True
  | recursive => False

/-- The stages of some segments behind some candidates, which may be failures. -/
def stages (segments : List Segment) (candidates : List Entry) : Pipeline :=
  segments.foldl attach (.source candidates)

variable {segment : Segment} {segments : List Segment}

/-- The stage of a segment that `HandlesEach` replaces each candidate, by the same entries wherever
it stands. -/
theorem exists_replacement (h : segment.HandlesEach) (answer : Request → List Entry) :
    ∃ replacement : Entry → List Entry, ∀ inner candidates, HasEntries answer inner candidates →
      HasEntries answer (segment.attach inner) (candidates.flatMap replacement) := by
  cases segment with
  | root => exact ⟨keptFor Path.isRoot, fun inner candidates h => h.filtered Path.isRoot⟩
  | device letter => exact h.elim
  | component c =>
    refine ⟨fun candidate => (listingFor answer .fileOrDirectory candidate).flatMap
      (keptFor c.matchesPath), fun inner candidates h => ?_⟩
    rw [← List.flatMap_assoc]
    exact (h.children .fileOrDirectory).filtered c.matchesPath
  | anyDirectory => exact ⟨listingFor answer .directory, fun inner candidates h => h.children _⟩
  | recursive => exact h.elim

/-- Segments of which each `HandlesEach` replace a candidate together, by what they make one after
the other of what stands for it. -/
theorem exists_replacement_foldl (h : ∀ segment ∈ segments, segment.HandlesEach)
    (answer : Request → List Entry) :
    ∃ replacement : Entry → List Entry, ∀ inner candidates, HasEntries answer inner candidates →
      HasEntries answer (segments.foldl attach inner) (candidates.flatMap replacement) := by
  induction segments with
  | nil =>
    refine ⟨fun candidate => [candidate], fun inner candidates h => ?_⟩
    rwa [List.flatMap_singleton']
  | cons segment segments ih =>
    obtain ⟨hsegment, hsegments⟩ := List.forall_mem_cons.1 h
    obtain ⟨first, hfirst⟩ := exists_replacement hsegment answer
    obtain ⟨others, hothers⟩ := ih hsegments
    refine ⟨fun candidate => (first candidate).flatMap others, fun inner candidates h => ?_⟩
    rw [← List.flatMap_assoc]
    exact hothers _ _ (hfirst _ _ h)

end Segment

theorem Alternative.pipeline_steps (segments : List Segment) (bases : List String) :
    (steps segments).pipeline bases =
      Segment.stages segments (bases.map fun base => .ok (.directory base)) := rfl

/-! ## A base behind others -/

/-- Paths in front of a failure are kept by `upToFailure`. -/
theorem upToFailure_map_ok_append {α : Type} (paths : List α)
    (results : List (Except ListingError α)) :
    upToFailure (paths.map .ok ++ results) = paths.map .ok ++ upToFailure results := by
  induction paths with
  | nil => rfl
  | cons path paths ih => rw [List.map_cons, List.cons_append, upToFailure, ih, List.cons_append]

namespace Enumeration

open PathPatterns.Segment

variable {kind : EntityKind} {front : List Entry} {paths : List String} {failure : ListingError}

/-- Behind entries `front` without a failure among their results, a failure is the last result,
whatever comes after it. -/
theorem resultsOf_append_error_cons (h : resultsOf kind front = paths.map .ok) (rest : List Entry) :
    resultsOf kind (front ++ .error failure :: rest) = paths.map .ok ++ [.error failure] := by
  have hfailure : resultsOf kind (.error failure :: rest) = [.error failure] := by
    simp [resultsOf, upToFailure, EntityKind.result?, List.eraseDups_cons]
  -- no path comes twice already
  have hnodup : (paths.map .ok ++ [.error failure] : List (Except ListingError String)).Nodup := by
    have hfront : (paths.map .ok : List (Except ListingError String)).Nodup :=
      h ▸ nodup_eraseDups _
    simpa [List.nodup_append] using hfront
  have hparts := resultsOf_flatten kind [front, .error failure :: rest]
  simp only [List.flatten_cons, List.flatten_nil, List.append_nil, List.map_cons, List.map_nil, h,
    hfailure] at hparts
  rw [hparts, distinctUpToFailure, eraseDups_eq_self hnodup, upToFailure_map_ok_append]
  rfl

/-- Segments that satisfy `HandlesEach`, so without drives and `**`, treat bases one by one. The
entries behind some candidates `first` and then `second` are those behind the ones and then those
behind the others, failures included. In a tree, a base whose first entry is a failure leaves the
results of the bases in front of it as they are and adds the failure. -/
theorem drains_and_completes_base_by_base {segments : List Segment}
    (h : ∀ segment ∈ segments, segment.HandlesEach) :
    (∀ (answer : Request → List Entry) (first second : List Entry), ∃ front back,
      (∀ entries, Drains (.ofFunction answer) ⟨[stages segments first], []⟩ entries ↔
        entries = front) ∧
      (∀ entries, Drains (.ofFunction answer) ⟨[stages segments second], []⟩ entries ↔
        entries = back) ∧
      ∀ entries, Drains (.ofFunction answer) ⟨[stages segments (first ++ second)], []⟩ entries ↔
        entries = front ++ back) ∧
    ∀ (tree : MemoryTree) (text : String) (kind : EntityKind) (bases : List String) (base : String)
      (paths : List String) (failure : ListingError) (stream : Stream),
      Completes tree.lister (Glob.enumerate ⟨text, [.steps segments]⟩ kind bases)
        (paths.map .ok) →
      Yields tree.lister ⟨[(Alternative.steps segments).pipeline [base]], []⟩ [.error failure]
        stream →
      Completes tree.lister (Glob.enumerate ⟨text, [.steps segments]⟩ kind (bases ++ [base]))
        (paths.map .ok ++ [.error failure]) := by
  refine ⟨fun answer first second => ?_, fun tree text kind bases base paths failure stream hbases
    hbase => ?_⟩
  · obtain ⟨replacement, hreplacement⟩ := exists_replacement_foldl h answer
    have hentries : ∀ candidates, Pipeline.HasEntries answer (stages segments candidates)
        (candidates.flatMap replacement) :=
      fun candidates => hreplacement _ _ (Pipeline.hasEntries_source answer candidates)
    refine ⟨first.flatMap replacement, second.flatMap replacement,
      fun _ => (hentries first).drains_iff, fun _ => (hentries second).drains_iff, fun _ => ?_⟩
    rw [← List.flatMap_append]
    exact (hentries _).drains_iff
  · obtain ⟨replacement, hreplacement⟩ := exists_replacement_foldl h tree.entries
    -- the entries below each base are those that replace it
    have hdrains : ∀ bases : List String, Drains tree.lister
        ⟨[(Alternative.steps segments).pipeline bases], []⟩
        ((bases.map fun base => .ok (.directory base)).flatMap replacement) := by
      intro bases
      rw [Alternative.pipeline_steps]
      exact (hreplacement _ _ (Pipeline.hasEntries_source tree.entries _)).drains_iff.2 rfl
    have hcompletes : ∀ bases : List String, Completes tree.lister
        (Glob.enumerate ⟨text, [.steps segments]⟩ kind bases)
        (resultsOf kind ((bases.map fun base => .ok (.directory base)).flatMap replacement)) :=
      fun bases => completes_enumerate (hdrains bases)
    have hpaths := (hcompletes bases).unique hbases
    obtain ⟨rest, hrest, -⟩ := hbase.exists_append (hdrains [base])
    have hall := hcompletes (bases ++ [base])
    rwa [List.map_append, List.flatMap_append, hrest, List.singleton_append,
      resultsOf_append_error_cons hpaths] at hall

/-- The component `*.txt`, which `HandlesEach` holds of. -/
def textNames : Component :=
  ⟨"*.txt", [.anyRun, .char '.', .char 't', .char 'x', .char 't']⟩

/-- In a tree of one file, a base that is missing adds its failure behind the file of the other
base, as `drains_and_completes_base_by_base` tells. -/
theorem completes_missing_base :
    Completes (MemoryTree.insertAll [(.file, "/a/b.txt")]).lister
      (Glob.enumerate ⟨"*.txt", [.steps [.component textNames]]⟩ .file ["/a", "/missing"])
      [.ok "/a/b.txt", .error ⟨.notFound, "directory '/missing' does not exist"⟩] := by
  have heach : ∀ segment ∈ [Segment.component textNames], segment.HandlesEach := by
    simp [HandlesEach]
  -- what one base gives is computed from its listing alone
  have hbelow : ∀ base entries,
      ((MemoryTree.insertAll [(.file, "/a/b.txt")]).entries ⟨.fileOrDirectory, base⟩).flatMap
        (Pipeline.keptFor textNames.matchesPath) = entries →
      Drains (MemoryTree.insertAll [(.file, "/a/b.txt")]).lister
        ⟨[(Alternative.steps [.component textNames]).pipeline [base]], []⟩ entries := by
    rintro base _ rfl
    refine (((Pipeline.hasEntries_source _ _).children _).filtered _).drains_iff.2 ?_
    rw [List.map_singleton, List.flatMap_singleton]
    rfl
  have hfound := hbelow "/a" [.ok (.file "/a/b.txt")] (by decide +kernel)
  obtain ⟨_, hmissing⟩ := hbelow "/missing"
    [.error ⟨.notFound, "directory '/missing' does not exist"⟩] (by decide +kernel)
  have hresults : resultsOf .file [.ok (.file "/a/b.txt")] = [.ok "/a/b.txt"] := by decide +kernel
  refine (drains_and_completes_base_by_base heach).2 _ _ _ ["/a"] "/missing" ["/a/b.txt"] _ _ ?_
    hmissing
  rw [List.map_singleton, ← hresults]
  exact completes_enumerate hfound

end Enumeration

end PathPatterns
