import PathPatterns.Proofs.Registry.Coherent

/-!
# Runs of a registry

A run does one thing after the other with the handles of a registry: it reads patterns, takes the
universal glob, copies handles and combines them. Whatever has been done, an instance stands for one
glob, and which instance an action leads to follows from its operands: a pattern that is read gets
an instance that no handle leads to, and so does a union, unless one that is there can serve.

## Main results

* `arises_run`: what a run leads to has come about by its actions.
* `isNew_fresh`: the instance that is made next is a new one.
* `combine_cases_of_held`: which instance a union leads to.
* `instances_of_run`: all of this along every run.
-/

namespace PathPatterns

namespace Handle

variable {a b : Handle}

theorem same_iff : a.same b = true ↔ a.identity = b.identity := by
  simp [same]

/-- Handles that lead to the same instance form classes, since `same` is an equivalence. -/
theorem equivalence_same : Equivalence fun a b : Handle => a.same b = true where
  refl _ := same_iff.2 rfl
  symm h := same_iff.2 (same_iff.1 h).symm
  trans h h' := same_iff.2 ((same_iff.1 h).trans (same_iff.1 h'))

/-- Whether the universal glob absorbs some operands: there are none, or one of them has its
text. -/
def Absorbed (operands : List Handle) : Prop :=
  operands = [] ∨ ∃ operand ∈ operands, operand.glob.text = Glob.anything.text

/-- Whether all of some operands lead to one instance; no operands do. -/
def Shared (operands : List Handle) : Prop :=
  ∀ a ∈ operands, ∀ b ∈ operands, a.same b = true

variable {operands : List Handle}

/-- Where the operands are `Absorbed`, the universal glob is their union. -/
theorem combine_of_absorbed (fresh : Identity) (h : Absorbed operands) :
    combine fresh operands = anything := by
  cases operands with
  | nil => rfl
  | cons first rest =>
    rw [combine, if_pos]
    obtain ⟨operand, hmem, htext⟩ := h.resolve_left (List.cons_ne_nil first rest)
    exact List.any_eq_true.2 ⟨operand, hmem, beq_iff_eq.2 htext⟩

/-- Where it does not, the operands lead to the instance of the union, if they are `Shared`, or else
it is made for them. -/
theorem combine_of_not_absorbed (fresh : Identity) (h : ¬ Absorbed operands) :
    (Shared operands ∧ combine fresh operands ∈ operands) ∨
      ¬ Shared operands ∧
        combine fresh operands = ⟨fresh, .join (operands.map Handle.glob)⟩ := by
  cases operands with
  | nil => exact absurd (.inl rfl) h
  | cons first rest =>
    rw [combine, if_neg]
    · by_cases hshared : (first :: rest).all first.same = true
      · -- all lead to the instance of the first, so any two lead to the same
        rw [if_pos hshared]
        rw [List.all_eq_true] at hshared
        refine .inl ⟨fun a ha b hb => ?_, List.mem_cons_self⟩
        exact equivalence_same.trans (equivalence_same.symm (hshared a ha)) (hshared b hb)
      · rw [if_neg hshared]
        refine .inr ⟨fun hall => hshared (List.all_eq_true.2 ?_), rfl⟩
        exact hall first List.mem_cons_self
    · intro hany
      obtain ⟨operand, hmem, htext⟩ := List.any_eq_true.1 hany
      exact h (.inr ⟨operand, hmem, beq_iff_eq.1 htext⟩)

end Handle

/-- What can be done with the handles of a registry. -/
inductive Action
  /-- Reads a pattern into a slot, in an environment. -/
  | parse (env : Environment) (slot text : String)
  /-- Takes the universal glob into a slot. -/
  | anything (slot : String)
  /-- Copies the handle in another slot into a slot. -/
  | copy (slot source : String)
  /-- Combines the handles in some slots into a slot. -/
  | combine (slot : String) (sources : List String)

namespace Registry

/-- The handles in the slots `sources`, if all of them are taken. -/
def operands? (registry : Registry) (sources : List String) : Option (List Handle) :=
  if sources.all fun source => (registry.get? source).isSome then
    some (sources.filterMap registry.get?)
  else none

/-- Does one thing. A pattern that is rejected changes nothing, and neither does an action on a slot
that is not taken. -/
def perform (registry : Registry) : Action → Registry
  | .parse env slot text =>
    match registry.parse env slot text with
    | .ok next => next
    | .error _ => registry
  | .anything slot => registry.anything slot
  | .copy slot source =>
    match registry.get? source with
    | some handle => registry.put slot handle
    | none => registry
  | .combine slot sources =>
    match registry.operands? sources with
    | some operands => registry.combine slot operands
    | none => registry

/-- Does one thing after the other, from the registry without handles on. -/
def run (actions : List Action) : Registry :=
  actions.foldl perform empty

/-- Whether a handle leads to an instance of its own: neither to the universal one nor to that of a
handle in a slot. -/
def IsNew (registry : Registry) (handle : Handle) : Prop :=
  handle.same .anything = false ∧
    ∀ slot held, registry.get? slot = some held → handle.same held = false

variable {registry : Registry} {operands : List Handle} {sources : List String} {slot : String}

/-- One more action is performed on what `run` has led to. -/
theorem run_append_singleton (actions : List Action) (action : Action) :
    run (actions ++ [action]) = (run actions).perform action := by
  rw [run, List.foldl_append, List.foldl_cons, List.foldl_nil, run]

/-- Each operand that `operands?` gives is in one of the slots. -/
theorem exists_source_of_operands? (h : registry.operands? sources = some operands) :
    ∀ operand ∈ operands, ∃ source, registry.get? source = some operand := by
  rw [operands?] at h
  split at h
  · obtain rfl := Option.some.inj h
    intro operand hmem
    obtain ⟨source, -, hsource⟩ := List.mem_filterMap.1 hmem
    exact ⟨source, hsource⟩
  · simp at h

/-- An action keeps a registry among those of which `Arises` holds. -/
theorem arises_perform (h : Arises registry) (action : Action) :
    Arises (registry.perform action) := by
  cases action with
  | parse env slot text =>
    simp only [perform]
    split
    · rename_i hread
      exact h.parse hread
    · exact h
  | anything slot => exact h.anything slot
  | copy slot source =>
    simp only [perform]
    split
    · rename_i hheld
      exact h.copy slot hheld
    · exact h
  | combine slot sources =>
    simp only [perform]
    split
    · rename_i hoperands
      exact h.combine slot (exists_source_of_operands? hoperands)
    · exact h

/-- What a `run` leads to `Arises`, by induction on its actions. -/
theorem arises_run (actions : List Action) : Arises (run actions) := by
  induction actions using List.reverseRecOn with
  | nil => exact .empty
  | append_singleton actions action ih =>
    rw [run_append_singleton]
    exact arises_perform ih action

/-- The instance `fresh` of a registry that `Arises` is a new one, as those that handles lead to
have been numbered before. -/
theorem isNew_fresh (h : Arises registry) (glob : Glob) :
    registry.IsNew ⟨registry.fresh, glob⟩ := by
  obtain ⟨instances, hcoherent⟩ := h.exists_coherent
  refine ⟨rfl, fun slot held hget => ?_⟩
  rw [← Bool.not_eq_true, Handle.same_iff]
  intro heq
  exact Nat.lt_irrefl _ ((hcoherent.leadsTo hget).numbered registry.issued heq.symm)

/-- A handle that leads to the universal instance has the universal text. -/
theorem text_eq_of_same_anything (h : Arises registry) {handle : Handle}
    (hget : registry.get? slot = some handle) (hsame : handle.same .anything = true) :
    handle.glob.text = Glob.anything.text := by
  -- the instance stands for one glob, and that is the universal one
  obtain ⟨instances, hcoherent⟩ := h.exists_coherent
  rw [(hcoherent.leadsTo hget).glob_eq, Handle.same_iff.1 hsame]
  exact congrArg Glob.text hcoherent.universal

/-- A union of operands that are held leads to the universal instance if they are `Absorbed`, else
to the instance of all operands if they are `Shared`, and else to a new one. -/
theorem combine_cases_of_held (h : Arises registry)
    (hheld : ∀ operand ∈ operands, ∃ source, registry.get? source = some operand) :
    ((Handle.combine registry.fresh operands).same .anything = true ↔
        Handle.Absorbed operands) ∧
      (¬ Handle.Absorbed operands →
        ((∀ operand ∈ operands,
            (Handle.combine registry.fresh operands).same operand = true) ↔
          Handle.Shared operands) ∧
        (¬ Handle.Shared operands →
          registry.IsNew (Handle.combine registry.fresh operands))) := by
  refine ⟨⟨fun hsame => ?_, fun habsorbed => ?_⟩, fun habsorbed => ?_⟩
  · by_contra habsorbed
    rcases Handle.combine_of_not_absorbed registry.fresh habsorbed with
      ⟨-, hmem⟩ | ⟨-, hunion⟩
    · -- an operand of the universal instance would have its text
      obtain ⟨source, hsource⟩ := hheld _ hmem
      exact habsorbed (.inr ⟨_, hmem, text_eq_of_same_anything h hsource hsame⟩)
    · rw [hunion, (isNew_fresh h _).1] at hsame
      contradiction
  · rw [Handle.combine_of_absorbed registry.fresh habsorbed]
    exact Handle.equivalence_same.refl _
  · rcases Handle.combine_of_not_absorbed registry.fresh habsorbed with
      ⟨hshared, hmem⟩ | ⟨hshared, hunion⟩
    · exact ⟨iff_of_true (fun operand hoperand => hshared _ hmem operand hoperand) hshared,
        fun hnot => absurd hshared hnot⟩
    · have hnew := isNew_fresh h (.join (operands.map Handle.glob))
      rw [hunion]
      refine ⟨iff_of_false (fun hall => ?_) hshared, fun _ => hnew⟩
      -- there is an operand, and none leads to the new instance
      obtain ⟨operand, hoperand⟩ :=
        List.exists_mem_of_ne_nil operands fun hnil => habsorbed (.inl hnil)
      obtain ⟨source, hsource⟩ := hheld operand hoperand
      simpa [hnew.2 source operand hsource] using hall operand hoperand

/-- Instances along a `run` of any actions. To lead to the same instance is an equivalence, and
handles that do have one text and one list of alternatives. A pattern that is rejected changes
nothing; one that is read gets a new instance. A union leads to the universal instance exactly if
its operands are `Absorbed`: there are none or one has the universal text; else to that of the
operands exactly if they are `Shared`; else to a new one. -/
theorem instances_of_run (actions : List Action) :
    Equivalence (fun a b : Handle => a.same b = true) ∧
    (∀ slot other a b, (run actions).get? slot = some a → (run actions).get? other = some b →
      a.same b = true → a.glob.text = b.glob.text ∧ a.glob.alternatives = b.glob.alternatives) ∧
    (∀ env slot text,
      (∀ error, Glob.parse env text = .error error →
        run (actions ++ [.parse env slot text]) = run actions) ∧
      ∀ glob, Glob.parse env text = .ok glob → ∃ handle, handle.glob = glob ∧
        (run actions).IsNew handle ∧
        ∀ other, (run (actions ++ [.parse env slot text])).get? other =
          if slot = other then some handle else (run actions).get? other) ∧
    ∀ slot sources operands, (run actions).operands? sources = some operands → ∃ union,
      (∀ other, (run (actions ++ [.combine slot sources])).get? other =
        if slot = other then some union else (run actions).get? other) ∧
      (union.same .anything = true ↔ Handle.Absorbed operands) ∧
      (¬ Handle.Absorbed operands →
        ((∀ operand ∈ operands, union.same operand = true) ↔ Handle.Shared operands) ∧
        (¬ Handle.Shared operands → (run actions).IsNew union)) := by
  have harises := arises_run actions
  -- actions give registries that arise, so what holds of these holds along a run
  refine ⟨Handle.equivalence_same, ?_, fun env slot text => ⟨?_, ?_⟩, ?_⟩
  · intro slot other a b ha hb hsame
    rw [harises.glob_eq_of_same ha hb hsame]
    exact ⟨rfl, rfl⟩
  · intro error hparse
    rw [run_append_singleton, perform, Registry.parse, hparse]
    rfl
  · intro glob hparse
    refine ⟨⟨(run actions).fresh, glob⟩, rfl, isNew_fresh harises glob, fun other => ?_⟩
    rw [run_append_singleton, perform, parse_eq_ok_iff.2 ⟨glob, hparse, rfl⟩]
    exact get?_issue _ _ _ _
  · intro slot sources operands hoperands
    refine ⟨_, fun other => ?_,
      combine_cases_of_held harises (exists_source_of_operands? hoperands)⟩
    rw [run_append_singleton, perform, hoperands]
    exact get?_issue _ _ _ _

/-- A run that reads the universal text and the text `x`, and copies the second handle. -/
def spelledOut : List Action :=
  [.parse .empty "all" "**/*.*", .parse .empty "x" "x", .copy "again" "x"]

/-- After the run `spelledOut`, the universal text leads to an instance of its own, a union with it
to the universal instance, and a union of copies to the instance that they share. -/
theorem instances_of_spelledOut :
    ∃ all x, (run spelledOut).get? "all" = some all ∧ (run spelledOut).get? "x" = some x ∧
      all.same .anything = false ∧ all.same x = false ∧
      (∃ union, (run (spelledOut ++ [.combine "u" ["x", "again"]])).get? "u" = some union ∧
        union.same x = true) ∧
      ∃ union, (run (spelledOut ++ [.combine "u" ["x", "all"]])).get? "u" = some union ∧
        union.same .anything = true := by
  let all : Handle := ⟨.created 0, .anything⟩
  let x : Handle := ⟨.created 1, ⟨"x", [.steps [.component ⟨"x", [.char 'x']⟩]]⟩⟩
  have hall : Glob.parse .empty "**/*.*" = .ok all.glob := Glob.parse_anything .empty
  have hx : Glob.parse .empty "x" = .ok x.glob := by decide +kernel
  have hrun : run spelledOut = ((empty.issue "all" all).issue "x" x).put "again" x := by
    have hfirst : empty.parse .empty "all" "**/*.*" = .ok (empty.issue "all" all) :=
      parse_eq_ok_iff.2 ⟨_, hall, rfl⟩
    have hsecond : (empty.issue "all" all).parse .empty "x" "x" =
        .ok ((empty.issue "all" all).issue "x" x) := parse_eq_ok_iff.2 ⟨_, hx, rfl⟩
    simp [run, spelledOut, perform, hfirst, hsecond, get?_issue]
  have hgetall : (run spelledOut).get? "all" = some all := by
    simp [hrun, get?_put, get?_issue]
  have hgetx : (run spelledOut).get? "x" = some x := by
    simp [hrun, get?_put, get?_issue]
  have hgetagain : (run spelledOut).get? "again" = some x := by
    simp [hrun, get?_put]
  obtain ⟨-, -, -, hcombine⟩ := instances_of_run spelledOut
  refine ⟨all, x, hgetall, hgetx, rfl, rfl, ?_, ?_⟩
  · -- both operands lead to one instance
    obtain ⟨union, hget, -, hunion⟩ := hcombine "u" ["x", "again"] [x, x]
      (by simp [operands?, hgetx, hgetagain])
    obtain ⟨hshared, -⟩ := hunion (by simp [Handle.Absorbed, x, Glob.anything])
    refine ⟨union, by simpa using hget "u", hshared.2 ?_ x (by simp)⟩
    simp [Handle.Shared, Handle.same_iff]
  · -- one operand has the universal text, though not the instance
    obtain ⟨union, hget, hunion, -⟩ := hcombine "u" ["x", "all"] [x, all]
      (by simp [operands?, hgetx, hgetall])
    exact ⟨union, by simpa using hget "u", hunion.2 (.inr ⟨all, by simp, rfl⟩)⟩

end Registry

end PathPatterns
