import PathPatterns.Proofs.Environment.Joined
import PathPatterns.Registry

/-!
# The text of a glob determines its meaning

Globs are compared by their texts, and written and read as texts. In a fixed environment that loses
nothing: however a glob has come about, by reading, copying or combining, its text is read into the
glob again. Combining reads no text, it puts the alternatives of its operands together; they are
what the joined text would be read into.

## Main results

* `parse_combine`: combining keeps that texts can be read again.
* `parse_text_of_reachable`: every glob that can be reached is what its text is read into.
-/

namespace PathPatterns

variable {env : Environment}

/-- The text `**/*.*` is read into the universal glob, whatever the environment is. -/
theorem Glob.parse_anything (env : Environment) : parse env anything.text = .ok anything := by
  rw [parse_eq_ok_iff]
  have hexpand : Template.expand env anything.text = anything.text := rfl
  refine ⟨rfl, ?_⟩
  rw [hexpand]
  decide +kernel

/-- If the text of every operand is read into its glob, the text of `combine` is read into that of
the union, in each of its branches. -/
theorem Handle.parse_combine {fresh : Identity} {operands : List Handle}
    (h : ∀ operand ∈ operands, Glob.parse env operand.glob.text = .ok operand.glob) :
    Glob.parse env (combine fresh operands).glob.text = .ok (combine fresh operands).glob := by
  cases operands with
  | nil => exact Glob.parse_anything env
  | cons first rest =>
    rw [combine]
    split
    · exact Glob.parse_anything env
    · split
      · exact h first (by simp)
      · -- the operands differ, and their texts are joined
        apply Glob.parse_join (by simp)
        intro glob hglob
        obtain ⟨operand, hoperand, rfl⟩ := List.mem_map.1 hglob
        exact h operand hoperand

namespace Registry

/-- The registries that come about in a fixed environment, by reading patterns, taking the universal
glob, and copying and combining handles that are there. -/
inductive Reachable (env : Environment) : Registry → Prop
  /-- At first there are no handles. -/
  | empty : Reachable env .empty
  /-- A pattern is read. -/
  | parse {registry next : Registry} {slot text : String} (before : Reachable env registry)
      (read : registry.parse env slot text = .ok next) : Reachable env next
  /-- The universal glob is taken. -/
  | anything {registry : Registry} (slot : String) (before : Reachable env registry) :
      Reachable env (registry.anything slot)
  /-- A handle is copied. -/
  | copy {registry : Registry} {source : String} {handle : Handle} (slot : String)
      (before : Reachable env registry) (held : registry.get? source = some handle) :
      Reachable env (registry.put slot handle)
  /-- Handles are combined. -/
  | combine {registry : Registry} {operands : List Handle} (slot : String)
      (before : Reachable env registry)
      (held : ∀ operand ∈ operands, ∃ source, registry.get? source = some operand) :
      Reachable env (registry.combine slot operands)

/-- `Registry.parse` succeeds exactly if `Glob.parse` does, and issues the glob that is read. -/
theorem parse_eq_ok_iff {registry next : Registry} {slot text : String} :
    registry.parse env slot text = .ok next ↔
      ∃ glob, Glob.parse env text = .ok glob ∧
        next = registry.issue slot ⟨registry.fresh, glob⟩ := by
  rw [Registry.parse]
  cases Glob.parse env text with
  | error failure => simp [bind, Except.bind]
  | ok glob => simp [bind, Except.bind, pure, Except.pure, eq_comm]

/-- After `combine`, the slot holds the union of the operands. -/
theorem get?_combine (registry : Registry) (slot : String) (operands : List Handle) :
    (registry.combine slot operands).get? slot =
      some (.combine registry.fresh operands) := by
  rw [Registry.combine, get?_issue, if_pos rfl]

/-- A pattern that `Glob.parse` reads may be read into any slot. -/
theorem Reachable.issue {registry : Registry} (h : Reachable env registry) (slot : String)
    {text : String} {glob : Glob} (hparse : Glob.parse env text = .ok glob) :
    Reachable env (registry.issue slot ⟨registry.fresh, glob⟩) :=
  h.parse (parse_eq_ok_iff.2 ⟨glob, hparse, rfl⟩)

/-- Every handle of a `Reachable` registry holds the glob that its text is read into, by induction
on the action that came last. -/
theorem Reachable.parse_text {registry : Registry} (h : Reachable env registry) {slot : String}
    {handle : Handle} (hget : registry.get? slot = some handle) :
    Glob.parse env handle.glob.text = .ok handle.glob := by
  -- along the history of the registry: a slot holds what was put there last
  induction h generalizing slot handle with
  | empty => simp [get?, Registry.empty] at hget
  | @parse registry next target text _ read ih =>
    obtain ⟨glob, hparse, rfl⟩ := parse_eq_ok_iff.1 read
    rw [get?_issue] at hget
    split at hget
    · obtain rfl := Option.some.inj hget
      show Glob.parse env glob.text = .ok glob
      rw [(Glob.parse_eq_ok_iff.1 hparse).1]
      exact hparse
    · exact ih hget
  | anything target _ ih =>
    rw [Registry.anything, get?_put] at hget
    split at hget
    · obtain rfl := Option.some.inj hget
      exact Glob.parse_anything env
    · exact ih hget
  | copy target _ held ih =>
    rw [get?_put] at hget
    split at hget
    · obtain rfl := Option.some.inj hget
      exact ih held
    · exact ih hget
  | combine target _ held ih =>
    rw [Registry.combine, get?_issue] at hget
    split at hget
    · obtain rfl := Option.some.inj hget
      apply Handle.parse_combine
      intro operand hoperand
      obtain ⟨source, hsource⟩ := held operand hoperand
      exact ih hsource
    · exact ih hget

/-- In a fixed environment the text of a glob determines its meaning, for the handles of registries
that are `Reachable` in it. The text is read into the glob again by `Glob.parse`, globs with the
`sameText` have the same alternatives and one expression, and the text of a union is read into the
union. -/
theorem parse_text_of_reachable {first second : Registry} (hfirst : Reachable env first)
    (hsecond : Reachable env second) {slot other : String} {a b : Handle}
    (ha : first.get? slot = some a) (hb : second.get? other = some b) :
    Glob.parse env a.glob.text = .ok a.glob ∧
      (a.glob.sameText b.glob = true →
        a.glob.alternatives = b.glob.alternatives ∧ a.glob.regexSource = b.glob.regexSource) ∧
      ∀ operands : List Handle,
        (∀ operand ∈ operands, ∃ source, first.get? source = some operand) →
          Glob.parse env (Handle.combine first.fresh operands).glob.text =
            .ok (Handle.combine first.fresh operands).glob := by
  have hread := hfirst.parse_text ha
  refine ⟨hread, fun hsame => ?_, fun operands hoperands => ?_⟩
  · have htext : a.glob.text = b.glob.text := by simpa [Glob.sameText] using hsame
    -- one text is read into one glob
    rw [htext, hsecond.parse_text hb] at hread
    rw [Except.ok.inj hread]
    exact ⟨rfl, rfl⟩
  · apply Handle.parse_combine
    intro operand hmem
    obtain ⟨source, hsource⟩ := hoperands operand hmem
    exact hfirst.parse_text hsource

/-- An environment in which the variable `A` stands for two alternatives. -/
def twoAlternatives : Environment :=
  .ofList [("A", "x;y".toUTF8)]

/-- In `twoAlternatives`, the union of `%A%` and `z` has three alternatives, and
`parse_text_of_reachable` reads its text into these. -/
theorem parse_text_of_union :
    ∃ registry handle, Reachable twoAlternatives registry ∧
      registry.get? "union" = some handle ∧ handle.glob.alternatives.length = 3 ∧
        Glob.parse twoAlternatives "%A%;z" = .ok handle.glob := by
  have hfirst : Glob.parse twoAlternatives "%A%" = .ok ⟨"%A%",
      [.steps [.component ⟨"x", [.char 'x']⟩], .steps [.component ⟨"y", [.char 'y']⟩]]⟩ := by
    decide +kernel
  have hsecond : Glob.parse twoAlternatives "z" = .ok ⟨"z",
      [.steps [.component ⟨"z", [.char 'z']⟩]]⟩ := by decide +kernel
  have hone := Reachable.issue .empty "first" hfirst
  have htwo := Reachable.issue hone "second" hsecond
  -- both operands are still in their slots
  have hunion := Reachable.combine "union" htwo (List.forall_mem_cons.2
    ⟨⟨"first", by simp [get?_issue]; rfl⟩,
      List.forall_mem_singleton.2 ⟨"second", by simp [get?_issue]; rfl⟩⟩)
  refine ⟨_, _, hunion, get?_combine _ _ _, rfl, ?_⟩
  exact (parse_text_of_reachable hunion hunion (get?_combine _ _ _) (get?_combine _ _ _)).1

end Registry

end PathPatterns
