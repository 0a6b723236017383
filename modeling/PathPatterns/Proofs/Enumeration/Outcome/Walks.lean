import PathPatterns.Proofs.Enumeration.Outcome.Repeats

/-!
# Walks that come to their ends

A walk that comes to its end, far enough down and with all listings long enough, is the same however
much further one looks. It has come to all directories below those that it visits, so that walks
from all of them together come to no others.

## Main results

* `walk_eq_of_complete`: to look further does not change a walk that has come to its end.
* `walk_complete_of_forall`: walks that come to their ends one by one do so together.
* `distinct_walk_walkedTo`: a walk from all directories of a walk comes to these, each where it
  comes first, before it comes to any of them again.
-/

namespace PathPatterns

namespace Outcome

variable {α β : Type} {a : α} {as : List α} {b : β} {front back : Outcome α} {f : α → Outcome β}

/-- Two outcomes one behind the other are `complete` exactly if both are. -/
theorem append_complete_iff : (front ++ back).ending = .complete ↔
    front.ending = .complete ∧ back.ending = .complete := by
  by_cases h : front.ending = .complete
  · simp [append_of_complete h, h]
  · simp [append_of_not_complete h, h]

/-- What `each` puts together is `complete` exactly if it is for each element. -/
theorem each_complete_iff :
    (each f as).ending = .complete ↔ ∀ a ∈ as, (f a).ending = .complete := by
  induction as with
  | nil => simp [complete]
  | cons a as ih => simp [append_complete_iff, ih]

/-- An item of two outcomes one behind the other is one of `front` or of `back`. -/
theorem mem_of_mem_append (h : a ∈ (front ++ back).items) : a ∈ front.items ∨ a ∈ back.items := by
  by_cases hfront : front.ending = .complete
  · rw [append_of_complete hfront] at h
    exact List.mem_append.1 h
  · rw [append_of_not_complete hfront] at h
    exact .inl h

/-- An item of what `each` puts together stands for one of the elements. -/
theorem exists_of_mem_each (h : b ∈ (each f as).items) : ∃ a ∈ as, b ∈ (f a).items := by
  induction as with
  | nil => simp [complete] at h
  | cons a as ih =>
    rcases mem_of_mem_append h with hfirst | hothers
    · exact ⟨a, by simp, hfirst⟩
    · obtain ⟨other, hmem, hother⟩ := ih hothers
      exact ⟨other, by simp [hmem], hother⟩

/-- What `each` puts together depends only on what stands for the elements of the list. -/
theorem each_congr {g : α → Outcome β} (h : ∀ a ∈ as, f a = g a) : each f as = each g as := by
  induction as with
  | nil => rfl
  | cons a as ih =>
    obtain ⟨hfirst, hothers⟩ := List.forall_mem_cons.1 h
    rw [each_cons, each_cons, hfirst, ih hothers]

end Outcome

open Outcome

/-- A listing that is `complete` up to some length is the same however much further one looks. -/
theorem Listing.upTo_eq_of_complete {n m : Nat} {listing : Listing}
    (h : (listing.upTo n).ending = .complete) (hm : n ≤ m) : listing.upTo m = listing.upTo n := by
  induction n generalizing m listing with
  | zero => simp [upTo, stop] at h
  | succ n ih =>
    obtain ⟨m, rfl⟩ : ∃ more, m = more + 1 := ⟨m - 1, by omega⟩
    cases huncons : listing.uncons with
    | none => simp only [upTo, huncons]
    | some first =>
      obtain ⟨entry, rest⟩ := first
      cases entry with
      | error failure => simp only [upTo, huncons]
      | ok item =>
        simp only [upTo, huncons] at h ⊢
        rw [ih h (by omega)]

variable {answer : Request → Listing} {limit depth more deeper : Nat} {path : String}
  {paths others : List String}

/-- A `walk` that has further to go comes to its end if the listings do and the next level does. -/
theorem walk_succ_complete_iff :
    (walk answer limit (depth + 1) paths).ending = .complete ↔
      (∀ path ∈ paths, ((answer ⟨.directory, path⟩).upTo limit).ending = .complete) ∧
        (walk answer limit depth (paths.flatMap (subdirectories answer limit))).ending =
          .complete := by
  rw [walk, append_complete_iff, each_complete_iff]
  rfl

theorem walk_zero_complete_iff : (walk answer limit 0 paths).ending = .complete ↔ paths = [] := by
  rw [walk, each_complete_iff]
  simp [stop, List.eq_nil_iff_forall_not_mem]

/-- A `walk` from two lists of directories comes to its end exactly if the walks from both do. -/
theorem walk_append_complete_iff :
    (walk answer limit depth (paths ++ others)).ending = .complete ↔
      (walk answer limit depth paths).ending = .complete ∧
        (walk answer limit depth others).ending = .complete := by
  induction depth generalizing paths others with
  | zero => rw [walk, each_append, append_complete_iff]; rfl
  | succ depth ih =>
    simp only [walk_succ_complete_iff, List.forall_mem_append, List.flatMap_append, ih]
    tauto

/-- To look further, at listings up to `more` or at levels down to `deeper`, does not change a walk
that has come to its end. -/
theorem walk_eq_of_complete (h : (walk answer limit depth paths).ending = .complete)
    (hlimit : limit ≤ more) (hdepth : depth ≤ deeper) :
    walk answer more deeper paths = walk answer limit depth paths := by
  induction depth generalizing paths deeper with
  | zero =>
    -- nothing waits where the walk may not go down at all
    rw [walk_zero_complete_iff.1 h, walk_nil, walk_nil]
  | succ depth ih =>
    obtain ⟨deeper, rfl⟩ : ∃ further, deeper = further + 1 := ⟨deeper - 1, by omega⟩
    obtain ⟨hlistings, hbelow⟩ := walk_succ_complete_iff.1 h
    have hvisit : each (visit answer more) paths = each (visit answer limit) paths :=
      each_congr fun path hpath => by
        rw [visit, visit, Listing.upTo_eq_of_complete (hlistings path hpath) hlimit]
    have hsub : paths.flatMap (subdirectories answer more) =
        paths.flatMap (subdirectories answer limit) :=
      List.flatMap_congr fun path hpath => by
        rw [subdirectories, subdirectories,
          Listing.upTo_eq_of_complete (hlistings path hpath) hlimit]
    simp only [walk, hvisit, hsub, ih hbelow (Nat.le_of_succ_le_succ hdepth)]

/-- Walks that come to their ends one by one (`h`) do so together, far enough down. -/
theorem walk_complete_of_forall
    (h : ∀ path ∈ paths, ∃ n, (walk answer n n [path]).ending = .complete) (m : Nat) :
    ∃ n ≥ m, (walk answer n n paths).ending = .complete := by
  induction paths with
  | nil => exact ⟨m, le_rfl, by simp [complete]⟩
  | cons path paths ih =>
    obtain ⟨⟨first, hfirst⟩, hothers⟩ := List.forall_mem_cons.1 h
    obtain ⟨n, hm, hn⟩ := ih hothers
    refine ⟨max first n, by omega, ?_⟩
    rw [← List.singleton_append, walk_append_complete_iff,
      walk_eq_of_complete hfirst (by omega) (by omega),
      walk_eq_of_complete hn (by omega) (by omega)]
    exact ⟨hfirst, hn⟩

/-! ## The directories of a walk -/

/-- The paths of some directories are the ones that they were made of. -/
theorem Item.directories_map_directory (paths : List String) :
    Item.directories (paths.map .directory) = paths := by
  induction paths with
  | nil => rfl
  | cons path paths ih => exact congrArg (path :: ·) ih

/-- The directories that a walk comes to, in order and with repeats. -/
def walkedTo (answer : Request → Listing) (limit depth : Nat) (paths : List String) : List String :=
  Item.directories (walk answer limit depth paths).items

/-- A walk comes to nothing but directories, and stays in a set `S` of directories that lead to no
others. -/
theorem exists_of_mem_walk {S : Set String}
    (hS : ∀ path ∈ S, ∀ child ∈ subdirectories answer limit path, child ∈ S)
    (hpaths : ∀ path ∈ paths, path ∈ S) {item : Item}
    (h : item ∈ (walk answer limit depth paths).items) : ∃ path ∈ S, item = .directory path := by
  induction depth generalizing paths with
  | zero =>
    obtain ⟨path, -, hitem⟩ := exists_of_mem_each h
    simp [stop] at hitem
  | succ depth ih =>
    rcases mem_of_mem_append h with hvisit | hbelow
    · obtain ⟨path, hpath, hitem⟩ := exists_of_mem_each hvisit
      exact ⟨path, hpaths path hpath, List.mem_singleton.1 hitem⟩
    · refine ih (fun child hchild => ?_) hbelow
      obtain ⟨path, hpath, hchild⟩ := List.mem_flatMap.1 hchild
      exact hS path (hpaths path hpath) child hchild

/-- All items of a walk are directories, those of `walkedTo`. -/
theorem items_walk (answer : Request → Listing) (limit depth : Nat) (paths : List String) :
    (walk answer limit depth paths).items = (walkedTo answer limit depth paths).map .directory := by
  have hall : ∀ item ∈ (walk answer limit depth paths).items, ∃ path, item = .directory path :=
    fun item hitem =>
      let ⟨path, _, heq⟩ := exists_of_mem_walk (S := Set.univ) (fun _ _ _ _ => trivial)
        (fun _ _ => trivial) hitem
      ⟨path, heq⟩
  rw [walkedTo]
  generalize (walk answer limit depth paths).items = items at hall
  induction items with
  | nil => rfl
  | cons item items ih =>
    obtain ⟨⟨path, rfl⟩, hothers⟩ := List.forall_mem_cons.1 hall
    exact congrArg (Item.directory path :: ·) (ih hothers)

/-- Level by level, a walk comes to the directories that it starts from and then to those in their
`subdirectories`. -/
theorem walkedTo_succ (h : (walk answer limit (depth + 1) paths).ending = .complete) :
    walkedTo answer limit (depth + 1) paths =
      paths ++ walkedTo answer limit depth (paths.flatMap (subdirectories answer limit)) := by
  obtain ⟨hlistings, -⟩ := walk_succ_complete_iff.1 h
  -- no listing stops the walk on this level
  have hvisit : each (visit answer limit) paths = complete (paths.map .directory) := by
    rw [List.map_eq_flatMap, ← each_complete]
    exact each_congr fun path hpath => by
      rw [visit, hlistings path hpath]
      rfl
  have hpaths := Item.directories_map_directory paths
  rw [walkedTo, walk, hvisit, complete_append]
  simp only [Item.directories, List.filter_append, List.map_append] at hpaths ⊢
  rw [hpaths]
  rfl

/-- A walk that has come to its end may go one level further down behind the first, and `walkedTo`
is the same. -/
theorem walkedTo_eq_append (h : (walk answer limit depth paths).ending = .complete) :
    walkedTo answer limit depth paths =
      paths ++ walkedTo answer limit depth (paths.flatMap (subdirectories answer limit)) := by
  have hdeeper := walk_eq_of_complete h le_rfl (Nat.le_succ depth)
  rw [← walkedTo_succ (by rwa [hdeeper]), walkedTo, ← hdeeper, walkedTo]

/-- A walk that has come to its end has come to the `subdirectories` of all directories that it has
come to. -/
theorem mem_walkedTo_of_mem_subdirectories
    (h : (walk answer limit depth paths).ending = .complete) {child : String}
    (hpath : path ∈ walkedTo answer limit depth paths)
    (hchild : child ∈ subdirectories answer limit path) :
    child ∈ walkedTo answer limit depth paths := by
  induction depth generalizing paths with
  | zero =>
    obtain rfl := walk_zero_complete_iff.1 h
    exact absurd hpath List.not_mem_nil
  | succ depth ih =>
    obtain ⟨-, hbelow⟩ := walk_succ_complete_iff.1 h
    rw [walkedTo_succ h, List.mem_append] at hpath ⊢
    rcases hpath with hpath | hpath
    -- what is in a directory of this level begins the next one
    · rw [walkedTo_eq_append hbelow]
      exact .inr (List.mem_append_left _ (List.mem_flatMap.2 ⟨path, hpath, hchild⟩))
    · exact .inr (ih hbelow hpath)

/-- A walk from all directories that a walk has `walkedTo` comes to its end as well, if that has. -/
theorem walk_walkedTo_complete (h : (walk answer limit depth paths).ending = .complete) :
    (walk answer limit depth (walkedTo answer limit depth paths)).ending = .complete := by
  induction depth generalizing paths with
  | zero =>
    obtain rfl := walk_zero_complete_iff.1 h
    exact h
  | succ depth ih =>
    obtain ⟨-, hbelow⟩ := walk_succ_complete_iff.1 h
    rw [walkedTo_succ h, walk_append_complete_iff,
      walk_eq_of_complete (ih hbelow) le_rfl (Nat.le_succ depth)]
    exact ⟨h, ih hbelow⟩

/-- A walk from all directories that a walk has `walkedTo` comes to these before it comes to any of
them again, and to no others. -/
theorem distinct_walk_walkedTo (h : (walk answer limit depth paths).ending = .complete) :
    (walk answer limit depth (walkedTo answer limit depth paths)).distinct =
      (walk answer limit depth paths).distinct := by
  have hagain := walk_walkedTo_complete h
  have hchildren : ∀ path ∈ walkedTo answer limit depth paths,
      ∀ child ∈ subdirectories answer limit path, child ∈ walkedTo answer limit depth paths :=
    fun _ hpath _ hchild => mem_walkedTo_of_mem_subdirectories h hpath hchild
  -- what comes behind the directories themselves is among them
  have hold : (walkedTo answer limit depth ((walkedTo answer limit depth paths).flatMap
      (subdirectories answer limit))).map Item.directory ⊆
        (walkedTo answer limit depth paths).map Item.directory := by
    intro item hitem
    rw [← items_walk] at hitem
    have hstarts : ∀ child ∈ (walkedTo answer limit depth paths).flatMap
        (subdirectories answer limit), child ∈ walkedTo answer limit depth paths := by
      intro child hchild
      obtain ⟨path, hpath, hchild⟩ := List.mem_flatMap.1 hchild
      exact hchildren path hpath child hchild
    obtain ⟨path, hpath, rfl⟩ := exists_of_mem_walk
      (S := {path | path ∈ walkedTo answer limit depth paths}) hchildren hstarts hitem
    exact List.mem_map_of_mem hpath
  rw [distinct, distinct, hagain, h, items_walk, items_walk, walkedTo_eq_append hagain,
    List.map_append, eraseDups_append_of_subset hold]

end PathPatterns
