import Mathlib.Data.List.Forall2
import PathPatterns.Proofs.Enumeration.Outcome.Results

/-!
# Directories with several paths

Two paths may lead to one directory. If whatever is listed for one is listed for the other, stages
make the same of both, except that the paths themselves may be yielded: by a walk, or by a stage
that only passes them on. Behind the first stage that yields entries, nothing is left of the
difference.

## Main definitions

* `Outcome.Alike`: the items of two outcomes correspond, and they end in the same way, up to the
  message of a failure.
* `Aliases`: a relation of paths that are listed alike.

## Main results

* `Aliases.alike_outcome`: stages make corresponding items of corresponding items.
* `Aliases.alike_eq_foldl`: stages make equal items of them if one of these yields entries.
* `forall₂_resultsOf`: outcomes with equal items give the same results, up to the message of a
  failure.
-/

namespace PathPatterns

/-- Two endings of one kind, up to the message of a failure. -/
def Ending.Alike : Ending → Ending → Prop
  | failed failure, failed other => other.kind = failure.kind
  | complete, complete => True
  | unfinished, unfinished => True
  | _, _ => False

namespace Ending

variable {ending other : Ending}

theorem Alike.refl (ending : Ending) : ending.Alike ending := by
  cases ending <;> simp [Alike]

theorem Alike.complete_iff (h : ending.Alike other) : ending = .complete ↔ other = .complete := by
  cases ending <;> cases other <;> simp_all [Alike]

theorem Alike.unfinished_iff (h : ending.Alike other) :
    ending = .unfinished ↔ other = .unfinished := by
  cases ending <;> cases other <;> simp_all [Alike]

/-- An ending that is `Alike` to a failure is a failure of the same kind. -/
theorem Alike.exists_failed {failure : ListingError} (h : (failed failure).Alike other) :
    ∃ second, other = .failed second ∧ second.kind = failure.kind := by
  cases other with
  | failed second => exact ⟨second, rfl, h⟩
  | _ => exact h.elim

end Ending

namespace Outcome

variable {α β : Type} {R : α → α → Prop} {S : β → β → Prop} {as bs : List α}
  {front back front' back' : Outcome α} {f g : α → Outcome β}

/-- The items of two outcomes correspond by `R`, and they end in the same way. -/
structure Alike (R : α → α → Prop) (front back : Outcome α) : Prop where
  /-- The items correspond one by one. -/
  items : List.Forall₂ R front.items back.items
  /-- The endings are of one kind. -/
  ending : front.ending.Alike back.ending

theorem Alike.refl (hrefl : ∀ a, R a a) (outcome : Outcome α) : Alike R outcome outcome :=
  ⟨List.forall₂_same.2 fun a _ => hrefl a, .refl _⟩

theorem Alike.ended_iff (h : Alike R front back) : front.Ended ↔ back.Ended :=
  h.ending.unfinished_iff.not

theorem Alike.mono {R' : α → α → Prop} (h : Alike R front back) (hR : ∀ a b, R a b → R' a b) :
    Alike R' front back :=
  ⟨h.items.imp hR, h.ending⟩

theorem Alike.items_eq (h : Alike Eq front back) : front.items = back.items :=
  List.forall₂_eq_eq_eq ▸ h.items

/-- Outcomes that are `Alike` may be put one behind the other, and the results are. -/
theorem Alike.append (hfront : Alike R front front') (hback : Alike R back back') :
    Alike R (front ++ back) (front' ++ back') := by
  -- both go on, or neither does
  have hiff := hfront.ending.complete_iff
  by_cases h : front.ending = .complete
  · rw [append_of_complete h, append_of_complete (hiff.1 h)]
    exact ⟨List.rel_append hfront.items hback.items, hback.ending⟩
  · rw [append_of_not_complete h, append_of_not_complete (hiff.not.1 h)]
    exact hfront

/-- What `each` puts together for corresponding elements corresponds. -/
theorem Alike.each (h : List.Forall₂ R as bs) (hfg : ∀ a b, R a b → Alike S (f a) (g b)) :
    Alike S (each f as) (each g bs) := by
  induction h with
  | nil => exact ⟨.nil, trivial⟩
  | cons first _ ih => exact (hfg _ _ first).append ih

theorem Alike.bind (h : Alike R front back) (hfg : ∀ a b, R a b → Alike S (f a) (g b)) :
    Alike S (front.bind f) (back.bind g) :=
  (Alike.each h.items hfg).append ⟨.nil, h.ending⟩

/-- A filter that does not tell corresponding items apart (`hkeep`) keeps outcomes `Alike`. -/
theorem Alike.filter {keep : α → Bool} (h : Alike R front back)
    (hkeep : ∀ a b, R a b → keep b = keep a) : Alike R (front.filter keep) (back.filter keep) :=
  ⟨List.rel_filter (fun {a b} hab => by simp only [hkeep a b hab]) h.items, h.ending⟩

end Outcome

open Outcome

/-- Two items of one kind with paths that correspond by `S`. -/
def Item.Alike (S : String → String → Prop) (item other : Item) : Prop :=
  other.kind = item.kind ∧ S item.path other.path

/-- A relation of paths that are listed alike, and that are roots alike. -/
structure Aliases (answer : Request → Listing) (limit : Nat) (S : String → String → Prop) : Prop
    where
  /-- Each path is an alias of itself. -/
  refl : ∀ path, S path path
  /-- Only roots are aliases of roots. -/
  isRoot_eq : ∀ path other, S path other → Path.isRoot other = Path.isRoot path
  /-- What is listed for one of them is listed for the other. -/
  listed : ∀ kind path other, S path other →
    Alike Eq ((answer ⟨kind, path⟩).upTo limit) ((answer ⟨kind, other⟩).upTo limit)

variable {answer : Request → Listing} {limit : Nat} {S : String → String → Prop}
  {front back : Outcome Item} {segment : Segment} {segments : List Segment}

/-- Equality relates nothing but a path and itself, so `Aliases` holds of it. -/
theorem aliases_eq (answer : Request → Listing) (limit : Nat) : Aliases answer limit Eq where
  refl _ := rfl
  isRoot_eq _ _ h := by rw [h]
  listed kind path other h := by
    rw [h]
    exact .refl (fun _ => rfl) _

/-- Items with equal paths and kinds are equal. -/
theorem Item.Alike.eq {item other : Item} (h : item.Alike Eq other) : item = other := by
  cases item
  cases other
  obtain ⟨hkind, hpath⟩ := h
  rw [Item.mk.injEq]
  exact ⟨hpath, hkind.symm⟩

/-- Whether the stage of a segment yields entries of directories and nothing else. -/
def Segment.yieldsEntries : Segment → Bool
  | component _ | anyDirectory => true
  | _ => false

namespace Aliases

variable (hS : Aliases answer limit S) (depth : Nat)

include hS

/-- Items that correspond have the same `entries`, up to the message of a failure. -/
theorem alike_entries (kind : EntityKind) {item other : Item} (h : item.Alike S other) :
    Alike Eq (item.entries answer limit kind) (other.entries answer limit kind) := by
  obtain ⟨hkind, hpath⟩ := h
  have hdir : other.isDirectory = item.isDirectory := by rw [Item.isDirectory, hkind]; rfl
  rw [Item.entries, Item.entries, hdir]
  split
  · exact hS.listed kind _ _ hpath
  · exact .refl (fun _ => rfl) _

/-- A `walk` from corresponding directories comes to corresponding ones, level by level. -/
theorem alike_walk {paths others : List String} (h : List.Forall₂ S paths others) :
    Alike (Item.Alike S) (walk answer limit depth paths) (walk answer limit depth others) := by
  induction depth generalizing paths others with
  | zero => exact Alike.each h fun _ _ _ => .refl (fun item => ⟨rfl, hS.refl item.path⟩) _
  | succ depth ih =>
    -- one level down there is no difference left, as the directories there have been listed
    have hchildren : paths.flatMap (subdirectories answer limit) =
        others.flatMap (subdirectories answer limit) := by
      induction h with
      | nil => rfl
      | cons first _ ih =>
        rw [List.flatMap_cons, List.flatMap_cons, ih, subdirectories, subdirectories,
          (hS.listed .directory _ _ first).items_eq]
    refine Alike.append (Alike.each h fun path other hpath => ?_) (ih ?_)
    · exact ⟨.cons ⟨rfl, hpath⟩ .nil, (hS.listed .directory path other hpath).ending⟩
    · rw [hchildren]
      exact List.forall₂_same.2 fun path _ => hS.refl path

/-- A stage that `yieldsEntries` makes the same items of corresponding items. -/
theorem alike_eq_outcome (h : Alike (Item.Alike S) front back) (hentries : segment.yieldsEntries) :
    Alike Eq (segment.outcome answer limit depth front)
      (segment.outcome answer limit depth back) := by
  have hbind := fun kind => h.bind fun _ _ => hS.alike_entries kind
  cases segment with
  | component c => exact (hbind .fileOrDirectory).filter fun item other heq => by rw [heq]
  | anyDirectory => exact hbind .directory
  | _ => simp [Segment.yieldsEntries] at hentries

/-- A stage makes corresponding items of corresponding items, whichever `segment` it is of. -/
theorem alike_outcome (h : Alike (Item.Alike S) front back) (segment : Segment) :
    Alike (Item.Alike S) (segment.outcome answer limit depth front)
      (segment.outcome answer limit depth back) := by
  have hrefl : ∀ item, Item.Alike S item item := fun item => ⟨rfl, hS.refl item.path⟩
  have hentries : segment.yieldsEntries → Alike (Item.Alike S)
      (segment.outcome answer limit depth front) (segment.outcome answer limit depth back) :=
    fun hentries => (hS.alike_eq_outcome depth h hentries).mono fun item _ heq => heq ▸ hrefl item
  cases segment with
  | root => exact h.filter fun item other hitem => hS.isRoot_eq _ _ hitem.2
  | device letter => exact h.append (.refl hrefl _)
  | component c => exact hentries rfl
  | anyDirectory => exact hentries rfl
  | recursive =>
    -- failures in front come first, and the directories in front are walked
    refine Alike.append ⟨.nil, h.ending⟩ (hS.alike_walk depth ?_)
    rw [Item.directories, Item.directories, List.forall₂_map_left_iff, List.forall₂_map_right_iff]
    refine (List.rel_filter (fun {item other} hitem => ?_) h.items).imp fun _ _ hitem => hitem.2
    simp only [Item.isDirectory, hitem.1]

/-- Stages one after the other make corresponding items of corresponding items. -/
theorem alike_foldl (h : Alike (Item.Alike S) front back) (segments : List Segment) :
    Alike (Item.Alike S) (segments.foldl (Segment.outcome answer limit depth) front)
      (segments.foldl (Segment.outcome answer limit depth) back) := by
  induction segments generalizing front back with
  | nil => exact h
  | cons segment segments ih => exact ih (hS.alike_outcome depth h segment)

/-- Behind the first stage that `yieldsEntries`, nothing is left of the difference. -/
theorem alike_eq_foldl (h : Alike (Item.Alike S) front back)
    (hentries : ∃ segment ∈ segments, segment.yieldsEntries) :
    Alike Eq (segments.foldl (Segment.outcome answer limit depth) front)
      (segments.foldl (Segment.outcome answer limit depth) back) := by
  obtain ⟨segment, hmem, hentries⟩ := hentries
  obtain ⟨before, after, rfl⟩ := List.append_of_mem hmem
  rw [List.foldl_append, List.foldl_append, List.foldl_cons, List.foldl_cons]
  have hstage := hS.alike_eq_outcome depth (hS.alike_foldl depth h before) hentries
  -- from here on both come to the same paths
  have hafter := (aliases_eq answer limit).alike_foldl depth
    (hstage.mono fun item _ heq => heq ▸ ⟨rfl, rfl⟩) after
  exact hafter.mono fun _ _ hitem => hitem.eq

variable {bases others : List String} {glob : Glob}

/-- A glob makes the same items of `bases` and `others` that correspond, if each alternative looks
for entries below them or does not look at them (`hentries`). -/
theorem alike_glob_outcome (hbases : List.Forall₂ S bases others)
    (hentries : ∀ segments, .steps segments ∈ glob.alternatives →
      ∃ segment ∈ segments, segment.yieldsEntries) :
    Alike Eq (glob.outcome answer limit depth bases) (glob.outcome answer limit depth others) := by
  refine Alike.each (R := fun alternative other =>
    alternative = other ∧ alternative ∈ glob.alternatives) ?_ ?_
  · exact List.forall₂_same.2 fun alternative hmem => ⟨rfl, hmem⟩
  · rintro alternative _ ⟨rfl, hmem⟩
    cases alternative with
    | literal path => exact .refl (fun _ => rfl) _
    | steps segments =>
      refine hS.alike_eq_foldl depth ⟨?_, trivial⟩ (hentries segments hmem)
      rw [complete, complete, List.forall₂_map_left_iff, List.forall₂_map_right_iff]
      exact hbases.imp fun _ _ hpath => ⟨rfl, hpath⟩

end Aliases

/-! ## Results -/

/-- Two results of one kind: the same path, or failures that differ only in their messages. -/
def AlikeResult : Except ListingError String → Except ListingError String → Prop
  | .ok path, .ok other => other = path
  | .error failure, .error other => other.kind = failure.kind
  | _, _ => False

theorem AlikeResult.refl (result : Except ListingError String) : AlikeResult result result := by
  cases result <;> rfl

namespace Enumeration

/-- If an outcome ends in a `failure`, this comes once among its results, behind the paths. -/
theorem resultsOf_entries_of_failed {failure : ListingError} (h : front.ending = .failed failure)
    (kind : EntityKind) : resultsOf kind front.entries =
      (front.items.filterMap fun item => kind.result? (.ok item)).eraseDups ++
        [.error failure] := by
  have hnot : .error failure ∉ front.items.filterMap fun item => kind.result? (.ok item) := by
    simp [EntityKind.result?]
  have hkept : [.error failure].removeAll
      (front.items.filterMap fun item => kind.result? (.ok item)) = [.error failure] :=
    List.filter_eq_self.2 fun result hmem => by
      rw [List.mem_singleton.1 hmem]
      simpa using hnot
  rw [resultsOf_entries, h, Ending.failures, List.eraseDups_append, hkept]
  rfl

/-- Outcomes with the same items, and endings of one kind, give results that are `AlikeResult` one
by one. -/
theorem forall₂_resultsOf (h : Alike Eq front back) (kind : EntityKind) :
    List.Forall₂ AlikeResult (resultsOf kind front.entries) (resultsOf kind back.entries) := by
  have hpaths : List.Forall₂ AlikeResult
      (front.items.filterMap fun item => kind.result? (.ok item)).eraseDups
      (back.items.filterMap fun item => kind.result? (.ok item)).eraseDups := by
    rw [h.items_eq]
    exact List.forall₂_same.2 fun result _ => .refl result
  cases hfront : front.ending with
  | failed failure =>
    obtain ⟨other, hback, hkind⟩ := (hfront ▸ h.ending).exists_failed
    rw [resultsOf_entries_of_failed hfront, resultsOf_entries_of_failed hback]
    exact List.rel_append hpaths (.cons hkind .nil)
  | complete =>
    have hback := h.ending.complete_iff.1 hfront
    simpa [resultsOf_entries, hfront, hback, Ending.failures] using hpaths
  | unfinished =>
    have hback := h.ending.unfinished_iff.1 hfront
    simpa [resultsOf_entries, hfront, hback, Ending.failures] using hpaths

end Enumeration

end PathPatterns
