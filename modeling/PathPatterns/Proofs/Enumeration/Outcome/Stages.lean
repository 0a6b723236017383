import PathPatterns.Proofs.Enumeration.Outcome.Basic
import PathPatterns.Proofs.Enumeration.Ends

/-!
# What stages come to

A stage makes what it comes to of what the stages in front of it come to. This is told for listings
that are looked at up to some length and walks that are followed down to some depth, so it can be
told of listings and walks that do not end.

## Main definitions

* `walk`: a walk from some directories, level by level.
* `Segment.outcome`: what a stage makes of the outcome in front of it.
* `Pipeline.HasOutcome`: a pipeline has a given outcome within at least a number of steps.

## Main results

* `hasOutcome_walking`: a walk goes down level by level.
* `hasOutcome_attach`, `hasOutcome_pipeline`: stages come to what their segments make of the bases.
-/

namespace PathPatterns

open Outcome

/-- The outcome of a listing whose first `n` entries are looked at. -/
def Listing.upTo : Nat → Listing → Outcome Item
  | 0, _ => stop .unfinished
  | n + 1, listing =>
    match listing.uncons with
    | none => complete []
    | some (.ok item, rest) => cons item (upTo n rest)
    | some (.error failure, _) => stop (.failed failure)

/-- The paths of the directories among some items, in order. -/
def Item.directories (items : List Item) : List String :=
  (items.filter Item.isDirectory).map Item.path

section Outcomes

variable (answer : Request → Listing) (n depth : Nat)

/-- What a directory is listed with; another item has no entries. -/
def Item.entries (kind : EntityKind) (item : Item) : Outcome Item :=
  if item.isDirectory then (answer ⟨kind, item.path⟩).upTo n else complete []

/-- A directory that a walk comes to, and how its listing ends. -/
def visit (path : String) : Outcome Item :=
  ⟨[.directory path], ((answer ⟨.directory, path⟩).upTo n).ending⟩

/-- The directories in a directory, as far as its listing is looked at. -/
def subdirectories (path : String) : List String :=
  Item.directories ((answer ⟨.directory, path⟩).upTo n).items

/-- The outcome of a walk from some directories, level by level down to a depth. -/
def walk : (depth : Nat) → List String → Outcome Item
  | 0, paths => each (fun _ => stop .unfinished) paths
  | depth + 1, paths =>
    each (visit answer n) paths ++ walk depth (paths.flatMap (subdirectories answer n))

/-- What the stage of a segment makes of the outcome in front of it. -/
def Segment.outcome (front : Outcome Item) : Segment → Outcome Item
  | root => front.filter fun item => Path.isRoot item.path
  | device letter => front ++ complete [.directory (driveRoot letter)]
  | component c =>
    (front.bind (Item.entries answer n .fileOrDirectory)).filter fun item => c.matchesPath item.path
  | anyDirectory => front.bind (Item.entries answer n .directory)
  | recursive => stop front.ending ++ walk answer n depth (Item.directories front.items)

/-- What an alternative makes of its bases, one segment after the other. -/
def Alternative.outcome (bases : List String) : Alternative → Outcome Item
  | literal path => complete [.file path]
  | steps segments =>
    segments.foldl (Segment.outcome answer n depth) (complete (bases.map .directory))

end Outcomes

/-- Where nothing waits, a walk has come to its end. -/
@[simp]
theorem walk_nil (answer : Request → Listing) (limit depth : Nat) :
    walk answer limit depth [] = complete [] := by
  induction depth with
  | zero => rfl
  | succ depth ih =>
    rw [walk, each_nil, List.flatMap_nil, ih, complete_append]
    rfl

namespace Pipeline

/-- A pipeline has an outcome if requests are answered by `answer`. Where the outcome is unfinished,
the pipeline has taken at least `n` steps. -/
inductive HasOutcome (answer : Request → Listing) : (n : Nat) → Pipeline → Outcome Item → Prop
  /-- It is not looked at any further. -/
  | unfinished (pipeline : Pipeline) : HasOutcome answer 0 pipeline (stop .unfinished)
  /-- It has ended. -/
  | finished {n : Nat} {pipeline : Pipeline} (h : pipeline.step = .finished) :
      HasOutcome answer n pipeline (complete [])
  /-- It yields a failure. -/
  | failed {n : Nat} {pipeline rest : Pipeline} {failure : ListingError}
      (h : pipeline.step = .yield (.error failure) rest) :
      HasOutcome answer n pipeline (stop (.failed failure))
  /-- It goes on without an item. -/
  | skip {n m : Nat} {pipeline rest : Pipeline} {outcome : Outcome Item}
      (h : pipeline.step = .skip rest) (next : HasOutcome answer m rest outcome) (hn : n ≤ m + 1) :
      HasOutcome answer n pipeline outcome
  /-- It yields an item. -/
  | yield {n m : Nat} {pipeline rest : Pipeline} {item : Item} {outcome : Outcome Item}
      (h : pipeline.step = .yield (.ok item) rest) (next : HasOutcome answer m rest outcome)
      (hn : n ≤ m + 1) : HasOutcome answer n pipeline (cons item outcome)
  /-- It goes on with the answer to a request. -/
  | ask {n m : Nat} {pipeline : Pipeline} {request : Request} {resume : Listing → Pipeline}
      {outcome : Outcome Item} (h : pipeline.step = .ask request resume)
      (next : HasOutcome answer m (resume (answer request)) outcome) (hn : n ≤ m + 1) :
      HasOutcome answer n pipeline outcome

variable {answer : Request → Listing} {n m depth limit : Nat} {inner pipeline : Pipeline}
  {outcome front back : Outcome Item}

/-- Whoever looks less far (`hm`) sees the same outcome. -/
theorem HasOutcome.mono (h : HasOutcome answer n pipeline outcome) (hm : m ≤ n) :
    HasOutcome answer m pipeline outcome := by
  cases h with
  | unfinished =>
    rw [Nat.le_zero.1 hm]
    exact .unfinished pipeline
  | finished h => exact .finished h
  | failed h => exact .failed h
  | skip h next hn => exact .skip h next (hm.trans hn)
  | yield h next hn => exact .yield h next (hm.trans hn)
  | ask h next hn => exact .ask h next (hm.trans hn)

/-! ## Stages without a walk -/

/-- A `source` of items comes to these, however far one looks. -/
theorem hasOutcome_source (answer : Request → Listing) (n : Nat) (items : List Item) :
    HasOutcome answer n (source (items.map .ok)) (complete items) := by
  induction items generalizing n with
  | nil => exact .finished rfl
  | cons item items ih => exact .yield rfl (ih n) (Nat.le_succ n)

/-- A stage has the outcome that `F` makes of the outcome of the pipeline `inner` in front of it.
Failures, requests and silent steps are passed on, so only what the stage does at the end (`finish`)
and with each item (`onItem`) is left to look at. The stage may change with the items it takes in;
`state` is what it holds. It may be looked at for fewer steps than `inner`, up to a `bound`. -/
theorem HasOutcome.through {State : Type} (stage : State → Pipeline → Pipeline)
    (F : State → Outcome Item → Outcome Item) {bound : Nat} {finish : State → Step Pipeline}
    {onItem : State → Item → Pipeline → Step Pipeline}
    (hstage : ∀ state inner,
      (stage state inner).step = inner.step.through (stage state) (finish state) (onItem state))
    (hstop : ∀ state ending, ending ≠ .complete → F state (stop ending) = stop ending)
    (hfinish : ∀ state pipeline, pipeline.step = finish state →
      HasOutcome answer bound pipeline (F state (complete [])))
    (hitem : ∀ item rest m outcome,
      (∀ state, HasOutcome answer (min m bound) (stage state rest) (F state outcome)) →
        ∀ state pipeline, pipeline.step = onItem state item rest →
          HasOutcome answer (min (m + 1) bound) pipeline (F state (cons item outcome)))
    (h : HasOutcome answer n inner outcome) (state : State) :
    HasOutcome answer (min n bound) (stage state inner) (F state outcome) := by
  -- on the steps of `inner`: each of them is one of the stage
  induction h generalizing state with
  | unfinished =>
    rw [Nat.zero_min, hstop state .unfinished nofun]
    exact .unfinished _
  | finished h => exact (hfinish state _ (by rw [hstage, h]; rfl)).mono (Nat.min_le_right _ bound)
  | @failed _ _ _ failure h =>
    rw [hstop state (.failed failure) nofun]
    exact .failed (by rw [hstage, h]; rfl)
  | skip h _ hn ih => exact .skip (by rw [hstage, h]; rfl) (ih state) (by omega)
  | ask h _ hn ih => exact .ask (by rw [hstage, h]; rfl) (ih state) (by omega)
  | yield h _ hn ih => exact (hitem _ _ _ _ ih state _ (by rw [hstage, h]; rfl)).mono (by omega)

/-- A filter has the items of the outcome of `inner` whose path is kept; an item that is dropped is
a step without an item. -/
theorem hasOutcome_filtered {keep : String → Bool} (h : HasOutcome answer n inner outcome) :
    HasOutcome answer n (filtered keep inner) (outcome.filter fun item => keep item.path) := by
  rw [← Nat.min_self n]
  refine h.through (fun _ : Unit => filtered keep)
    (fun _ outcome => outcome.filter fun item => keep item.path) (fun _ _ => rfl)
    (fun _ _ _ => rfl) (fun _ _ hend => .finished hend)
    (fun item rest m outcome hrest _ next hnext => ?_) ()
  by_cases hkeep : keep item.path = true
  · rw [if_pos hkeep] at hnext
    rw [show (cons item outcome).filter (fun item => keep item.path) =
      cons item (outcome.filter fun item => keep item.path) by simp [Outcome.filter, cons, hkeep]]
    exact .yield hnext (hrest ()) (by omega)
  · rw [if_neg hkeep] at hnext
    rw [show (cons item outcome).filter (fun item => keep item.path) =
      outcome.filter fun item => keep item.path by simp [Outcome.filter, cons, hkeep]]
    exact .skip hnext (hrest ()) (by omega)

/-- An extended pipeline has one more item behind the outcome of `inner`, if this comes to its
end. -/
theorem hasOutcome_extended {last : Item} (h : HasOutcome answer n inner outcome) :
    HasOutcome answer n (extended last inner) (outcome ++ complete [last]) := by
  rw [← Nat.min_self n]
  refine h.through (fun _ : Unit => extended last) (fun _ outcome => outcome ++ complete [last])
    (fun _ _ => rfl) (fun _ _ hending => append_of_not_complete hending _)
    (fun _ _ hend => .yield hend (hasOutcome_source answer n []) (Nat.le_succ n))
    (fun item rest m outcome hrest _ next hnext => ?_) ()
  rw [cons_append]
  exact .yield hnext (hrest ()) (by omega)

/-- Pipelines with one step have the same outcomes, as what comes behind the first step depends on
that step alone. -/
theorem HasOutcome.of_step_eq {other : Pipeline} (h : HasOutcome answer n pipeline outcome)
    (hstep : other.step = pipeline.step) : HasOutcome answer n other outcome := by
  cases h with
  | unfinished => exact .unfinished other
  | finished h => exact .finished (hstep.trans h)
  | failed h => exact .failed (hstep.trans h)
  | skip h next hn => exact .skip (hstep.trans h) next hn
  | yield h next hn => exact .yield (hstep.trans h) next hn
  | ask h next hn => exact .ask (hstep.trans h) next hn

/-- A stage that lists has the entries of the `listing` that it holds before the outcome that it has
with none. -/
theorem hasOutcome_children_of_nil {kind : EntityKind}
    (h : HasOutcome answer n (children kind .nil inner) back) (listing : Listing)
    (hlimit : n ≤ limit) :
    HasOutcome answer n (children kind listing inner) (listing.upTo limit ++ back) := by
  -- on the entries that are looked at: each of them is a step
  induction limit generalizing n listing with
  | zero =>
    rw [Nat.le_zero.1 hlimit]
    exact .unfinished _
  | succ limit ih =>
    rw [Listing.upTo]
    cases huncons : listing.uncons with
    | none =>
      apply h.of_step_eq
      simp only [step, huncons, Listing.uncons_nil]
    | some first =>
      obtain ⟨entry, rest⟩ := first
      have hstep :
          (children kind listing inner).step = .yield entry (children kind rest inner) := by
        simp only [step, huncons]
      cases entry with
      | error failure => exact .failed hstep
      | ok item =>
        rw [cons_append]
        exact .yield hstep (ih (h.mono (Nat.sub_le n 1)) rest (by omega)) (by omega)

/-- Each candidate is replaced by its entries, which are looked at up to `limit`. -/
theorem hasOutcome_children {kind : EntityKind} (limit : Nat)
    (h : HasOutcome answer n inner outcome) :
    HasOutcome answer (min n limit) (children kind .nil inner)
      (outcome.bind (Item.entries answer limit kind)) := by
  refine h.through (fun _ : Unit => children kind .nil)
    (fun _ outcome => outcome.bind (Item.entries answer limit kind)) (fun _ _ => by rw [step]; rfl)
    (fun _ _ _ => rfl) (fun _ _ hend => .finished hend)
    (fun item rest m outcome hrest _ next hnext => ?_) ()
  -- a file is passed over, and a directory asked for its entries, which come first
  rw [cons_bind, Item.entries]
  by_cases hdir : item.isDirectory = true
  · rw [if_pos hdir] at hnext ⊢
    exact .ask hnext (hasOutcome_children_of_nil (hrest ()) _ (Nat.min_le_right m limit)) (by omega)
  · rw [if_neg hdir] at hnext ⊢
    exact .skip hnext (hrest ()) (by omega)

/-! ## Walks -/

/-- A walk with a listing has the outcome that it has without one, once the directories in the
listing have joined the queue. -/
theorem hasOutcome_walking_of_joined {queue : Queue String} (listing : Listing) (hlimit : n ≤ limit)
    (h : ∀ joined : Queue String,
      joined.toList = queue.toList ++ Item.directories (listing.upTo limit).items →
        HasOutcome answer n (walking none .nil joined) back) :
    HasOutcome answer n (walking none listing queue)
      (stop (listing.upTo limit).ending ++ back) := by
  -- on the entries that are looked at: each of them is a step of the walk
  induction limit generalizing n listing queue with
  | zero =>
    rw [Nat.le_zero.1 hlimit]
    exact .unfinished _
  | succ limit ih =>
    rw [Listing.upTo] at h ⊢
    cases huncons : listing.uncons with
    | none =>
      rw [huncons] at h
      refine (h queue (by simp [complete, Item.directories])).of_step_eq ?_
      simp only [step, huncons, Listing.uncons_nil]
    | some first =>
      obtain ⟨entry, rest⟩ := first
      cases entry with
      | error failure =>
        have hstep : (walking none listing queue).step =
            .yield (.error failure) (walking none rest queue) := by
          simp only [step, huncons]
        exact .failed hstep
      | ok item =>
        rw [huncons] at h
        have hstep : (walking none listing queue).step =
            .skip (walking none rest (enqueue queue item)) := by
          simp only [step, huncons]
        refine .skip hstep (m := n - 1) (ih rest (by omega) fun joined hjoined => ?_) (by omega)
        refine (h joined ?_).mono (Nat.sub_le n 1)
        rw [hjoined, enqueue]
        cases hdir : item.isDirectory with
        | true => simp [cons, Item.directories, hdir]
        | false => simp [cons, Item.directories, hdir]

/-- Walks down one level: the directories in `front` are visited, and those in them wait behind
`back`. -/
theorem hasOutcome_walking_of_level
    (hnext : ∀ queue : Queue String,
      HasOutcome answer n (walking none .nil queue) (walk answer limit depth queue.toList))
    {queue : Queue String} {front back : List String} (hqueue : queue.toList = front ++ back) :
    HasOutcome answer (min (n + front.length) limit) (walking none .nil queue)
      (each (visit answer limit) front ++
        walk answer limit depth (back ++ front.flatMap (subdirectories answer limit))) := by
  induction front generalizing queue back with
  | nil =>
    rw [each_nil, List.flatMap_nil, List.append_nil, ← List.nil_append back, ← hqueue]
    exact (hnext queue).mono (Nat.min_le_left n limit)
  | cons path front ih =>
    rw [List.cons_append] at hqueue
    obtain ⟨rest, hpop, hrest⟩ := Queue.exists_pop?_of_toList hqueue
    -- the directory is yielded, then its failure if there is one
    have hvisit : ∀ others : Outcome Item, visit answer limit path ++ others =
        cons (.directory path)
          (stop ((answer ⟨.directory, path⟩).upTo limit).ending ++ others) :=
      fun others => (cons_append _ (stop _) others).symm ▸ rfl
    rw [each_cons, append_assoc, hvisit, List.flatMap_cons, ← List.append_assoc]
    refine .ask (step_walking_of_pop? hpop) (.yield rfl
      (hasOutcome_walking_of_joined _ (Nat.min_le_right _ _) fun joined hjoined => ih ?_)
      (Nat.le_succ _)) (by rw [List.length_cons]; omega)
    rw [hjoined, hrest, List.append_assoc]
    rfl

/-- A walk for whose queue nothing waits comes to its end at once. -/
theorem hasOutcome_walking_nil {queue : Queue String} (h : queue.toList = []) :
    HasOutcome answer n (walking none .nil queue) (complete []) :=
  .finished (step_walking_of_toList_eq_nil h)

/-- The outcome of a walk is `walk`, level by level, by induction on the depth. -/
theorem hasOutcome_walking (answer : Request → Listing) (limit depth : Nat) (queue : Queue String) :
    HasOutcome answer (min depth limit) (walking none .nil queue)
      (walk answer limit depth queue.toList) := by
  induction depth generalizing queue with
  | zero =>
    cases hpaths : queue.toList with
    | nil => exact hasOutcome_walking_nil hpaths
    | cons path paths =>
      rw [Nat.zero_min]
      exact .unfinished _
  | succ depth ih =>
    have hlevel := hasOutcome_walking_of_level ih (List.append_nil queue.toList).symm
    cases hpaths : queue.toList with
    | nil =>
      rw [walk_nil]
      exact hasOutcome_walking_nil hpaths
    | cons path paths =>
      -- there is at least one directory to visit, and so at least one step
      rw [List.nil_append, hpaths] at hlevel
      exact hlevel.mono (by rw [List.length_cons]; omega)

/-- The stage of a `**` gathers directories until `inner` has ended, and then walks. Nothing is
yielded before that, so a walk starts only where the outcome of `inner` comes to its end. -/
theorem hasOutcome_gathering (limit depth : Nat) (h : HasOutcome answer n inner outcome)
    (queue : Queue String) :
    HasOutcome answer (min n (min depth limit)) (gathering queue inner)
      (stop outcome.ending ++
        walk answer limit depth (queue.toList ++ Item.directories outcome.items)) := by
  refine h.through gathering
    (fun queue outcome => stop outcome.ending ++
      walk answer limit depth (queue.toList ++ Item.directories outcome.items))
    (fun _ _ => rfl) (fun _ _ hending => append_of_not_complete hending _)
    (fun queue _ hend => ?_) (fun item rest m outcome hrest queue next hnext => ?_) queue
  · simp only [complete, Item.directories, List.filter_nil, List.map_nil, List.append_nil]
    exact .skip hend (hasOutcome_walking answer limit depth queue) (by omega)
  · -- a directory waits in the queue, where before it was among the items
    have hqueue : (enqueue queue item).toList ++ Item.directories outcome.items =
        queue.toList ++ Item.directories (item :: outcome.items) := by
      rw [enqueue]
      cases hdir : item.isDirectory with
      | true => simp [Item.directories, hdir]
      | false => simp [Item.directories, hdir]
    have hwalk := hrest (enqueue queue item)
    rw [hqueue] at hwalk
    exact .skip hnext hwalk (by omega)

/-! ## Stages -/

/-- The stage of a segment comes to what `Segment.outcome` makes of the outcome in front of it. -/
theorem hasOutcome_attach (limit depth : Nat) (h : HasOutcome answer n inner outcome)
    (segment : Segment) :
    HasOutcome answer (min n (min depth limit)) (segment.attach inner)
      (segment.outcome answer limit depth outcome) := by
  cases segment with
  | root => exact (hasOutcome_filtered h).mono (by omega)
  | device letter => exact (hasOutcome_extended h).mono (by omega)
  | component c => exact (hasOutcome_filtered (hasOutcome_children limit h)).mono (by omega)
  | anyDirectory => exact (hasOutcome_children limit h).mono (by omega)
  | recursive => exact hasOutcome_gathering limit depth h .empty

/-- The pipeline of an alternative comes to what `Alternative.outcome` makes of the bases. -/
theorem hasOutcome_pipeline (answer : Request → Listing) (limit depth : Nat) (bases : List String)
    (alternative : Alternative) :
    HasOutcome answer (min depth limit) (alternative.pipeline bases)
      (alternative.outcome answer limit depth bases) := by
  cases alternative with
  | literal path => exact hasOutcome_source answer _ [.file path]
  | steps segments =>
    have hsource : HasOutcome answer (min depth limit)
        (source (bases.map fun base => .ok (.directory base)))
        (complete (bases.map .directory)) := by
      rw [show (bases.map fun base => (.ok (.directory base) : Entry)) =
        (bases.map Item.directory).map .ok by rw [List.map_map]; rfl]
      exact hasOutcome_source answer _ _
    rw [Alternative.pipeline, Alternative.outcome]
    -- along the segments, with any stages in front of those that are left
    generalize source (bases.map fun base => .ok (.directory base)) = inner at hsource ⊢
    generalize complete (bases.map Item.directory) = front at hsource ⊢
    induction segments generalizing inner front with
    | nil => exact hsource
    | cons segment segments ih =>
      exact ih _ _ ((hasOutcome_attach limit depth hsource segment).mono (by omega))

end Pipeline

end PathPatterns
