import Mathlib.Logic.Function.Basic
import PathPatterns.Proofs.Registry.Reachable

/-!
# Instances are shared

Handles that lead to one instance hold one glob. That is what allows a union to give back the
instance of its operands where they all share it. It holds because an instance is numbered when it
is made, and no number is given twice; it does not matter in which environments patterns are read.

## Main results

* `Arises.exists_coherent`: along every history, there is one glob for each instance.
* `Arises.glob_eq_of_same`: handles that lead to one instance hold one glob.
-/

namespace PathPatterns

/-- The `join` of well-formed globs is well-formed, if there is one of them. -/
theorem Glob.wellFormed_join {globs : List Glob} (hne : globs ≠ [])
    (h : ∀ glob ∈ globs, glob.WellFormed) : (join globs).WellFormed := by
  refine ⟨fun hnil => ?_, fun alternative hmem => ?_⟩
  · obtain ⟨first, rest, rfl⟩ := List.exists_cons_of_ne_nil hne
    have hfirst := List.flatMap_eq_nil_iff.1 hnil first (by simp)
    exact (h first (by simp)).1 hfirst
  · obtain ⟨glob, hglob, hmem⟩ := List.mem_flatMap.1 hmem
    exact (h glob hglob).2 alternative hmem

theorem Glob.wellFormed_anything : anything.WellFormed :=
  wellFormed_of_parse (parse_anything .empty)

namespace Handle

/-- Whether a handle leads to one of the instances that have been numbered, of which `instances`
tells the globs, and holds the glob of it. -/
structure LeadsTo (instances : Identity → Glob) (issued : Nat) (handle : Handle) : Prop where
  /-- The glob is the one of the instance. -/
  glob_eq : handle.glob = instances handle.identity
  /-- The glob can have been read. -/
  wellFormed : handle.glob.WellFormed
  /-- The instance has been numbered, unless it is the universal one. -/
  numbered : ∀ serial, handle.identity = .created serial → serial < issued

variable {instances : Identity → Glob} {issued more : Nat} {handle : Handle}

/-- More instances may be numbered without a change for the handles that are there. -/
theorem LeadsTo.mono (h : handle.LeadsTo instances issued) (hle : issued ≤ more) :
    handle.LeadsTo instances more where
  glob_eq := h.glob_eq
  wellFormed := h.wellFormed
  numbered serial hserial := Nat.lt_of_lt_of_le (h.numbered serial hserial) hle

/-- An instance that gets the number `issued` is none that a handle leads to, so `instances` may be
updated there. -/
theorem LeadsTo.update (h : handle.LeadsTo instances issued) (glob : Glob) :
    handle.LeadsTo (Function.update instances (.created issued) glob) issued where
  glob_eq := by
    have hne : handle.identity ≠ .created issued :=
      fun heq => Nat.lt_irrefl issued (h.numbered issued heq)
    rw [Function.update_of_ne hne, h.glob_eq]
  wellFormed := h.wellFormed
  numbered := h.numbered

/-- A handle of the instance that gets the number `issued` leads to the glob for which it is
made. -/
theorem leadsTo_created {glob : Glob} (h : glob.WellFormed) :
    LeadsTo (Function.update instances (.created issued) glob) (issued + 1)
      ⟨.created issued, glob⟩ where
  glob_eq := by simp
  wellFormed := h
  numbered := by simp

/-- The universal glob leads to the universal instance, which has no number. -/
theorem leadsTo_anything (h : instances .universal = .anything) :
    anything.LeadsTo instances issued where
  glob_eq := h.symm
  wellFormed := Glob.wellFormed_anything
  numbered := by simp [anything]

/-- A union is the universal glob, one of its operands, or a new instance of their `join`. -/
theorem combine_cases (fresh : Identity) (operands : List Handle) :
    combine fresh operands = anything ∨ combine fresh operands ∈ operands ∨
      operands ≠ [] ∧ combine fresh operands = ⟨fresh, .join (operands.map Handle.glob)⟩ := by
  cases operands with
  | nil => exact .inl rfl
  | cons first rest =>
    rw [combine]
    split
    · exact .inl rfl
    · split
      · exact .inr (.inl (List.mem_cons_self ..))
      · exact .inr (.inr ⟨List.cons_ne_nil _ _, rfl⟩)

end Handle

namespace Registry

/-- The registries that come about by reading patterns, each in an environment of its own, by taking
the universal glob, and by copying and combining handles that are there. -/
inductive Arises : Registry → Prop
  /-- At first there are no handles. -/
  | empty : Arises .empty
  /-- A pattern is read. -/
  | parse {env : Environment} {registry next : Registry} {slot text : String}
      (before : Arises registry) (read : registry.parse env slot text = .ok next) : Arises next
  /-- The universal glob is taken. -/
  | anything {registry : Registry} (slot : String) (before : Arises registry) :
      Arises (registry.anything slot)
  /-- A handle is copied. -/
  | copy {registry : Registry} {source : String} {handle : Handle} (slot : String)
      (before : Arises registry) (held : registry.get? source = some handle) :
      Arises (registry.put slot handle)
  /-- Handles are combined. -/
  | combine {registry : Registry} {operands : List Handle} (slot : String)
      (before : Arises registry)
      (held : ∀ operand ∈ operands, ∃ source, registry.get? source = some operand) :
      Arises (registry.combine slot operands)

/-- A registry that is `Reachable` in a fixed environment `Arises`, as all its patterns are read in
that one. -/
theorem Reachable.arises {env : Environment} {registry : Registry} (h : Reachable env registry) :
    Arises registry := by
  induction h with
  | empty => exact .empty
  | parse _ read ih => exact ih.parse read
  | anything slot _ ih => exact ih.anything slot
  | copy slot _ held ih => exact ih.copy slot held
  | combine slot _ held ih => exact ih.combine slot held

/-- Whether all handles of a registry lead to instances of which `instances` tells the globs. -/
structure Coherent (instances : Identity → Glob) (registry : Registry) : Prop where
  /-- The universal instance holds the universal glob. -/
  universal : instances .universal = .anything
  /-- Handles hold the globs of their instances. -/
  leadsTo : ∀ {slot handle}, registry.get? slot = some handle →
    handle.LeadsTo instances registry.issued

variable {instances : Identity → Glob} {registry : Registry} {handle : Handle}

/-- `put` keeps a registry coherent, if the handle leads to an instance that is there. -/
theorem Coherent.put (h : Coherent instances registry) (slot : String)
    (hhandle : handle.LeadsTo instances registry.issued) :
    Coherent instances (registry.put slot handle) where
  universal := h.universal
  leadsTo {other held} hget := by
    rw [get?_put] at hget
    split at hget
    · obtain rfl := Option.some.inj hget
      exact hhandle
    · exact h.leadsTo hget

/-- `issue` keeps a registry coherent, too; the number of the handle may be left unused. -/
theorem Coherent.issue (h : Coherent instances registry) (slot : String)
    (hhandle : handle.LeadsTo instances registry.issued) :
    Coherent instances (registry.issue slot handle) where
  universal := h.universal
  leadsTo {other held} hget := by
    rw [get?_issue] at hget
    split at hget
    · obtain rfl := Option.some.inj hget
      exact hhandle.mono (Nat.le_succ _)
    · exact (h.leadsTo hget).mono (Nat.le_succ _)

/-- Where `issue` makes a new instance, it gets the next number, which no other has; so `instances`
may be updated there. -/
theorem Coherent.issue_fresh (h : Coherent instances registry) (slot : String) {glob : Glob}
    (hglob : glob.WellFormed) :
    Coherent (Function.update instances registry.fresh glob)
      (registry.issue slot ⟨registry.fresh, glob⟩) where
  universal := by
    rw [Function.update_of_ne (by simp [fresh]), h.universal]
  leadsTo {other held} hget := by
    rw [get?_issue] at hget
    split at hget
    · obtain rfl := Option.some.inj hget
      exact Handle.leadsTo_created hglob
    · exact ((h.leadsTo hget).update glob).mono (Nat.le_succ _)

/-- Along every history there are `instances` with one glob for each, by induction on the action
that came last. -/
theorem Arises.exists_coherent (h : Arises registry) :
    ∃ instances, Coherent instances registry := by
  induction h with
  | empty => exact ⟨fun _ => .anything, rfl, fun hget => by simp [get?, Registry.empty] at hget⟩
  | parse _ read ih =>
    obtain ⟨instances, hcoherent⟩ := ih
    obtain ⟨glob, hparse, rfl⟩ := parse_eq_ok_iff.1 read
    exact ⟨_, hcoherent.issue_fresh _ (Glob.wellFormed_of_parse hparse)⟩
  | anything slot _ ih =>
    obtain ⟨instances, hcoherent⟩ := ih
    exact ⟨instances, hcoherent.put slot (Handle.leadsTo_anything hcoherent.universal)⟩
  | copy slot _ held ih =>
    obtain ⟨instances, hcoherent⟩ := ih
    exact ⟨instances, hcoherent.put slot (hcoherent.leadsTo held)⟩
  | @combine registry operands slot _ held ih =>
    obtain ⟨instances, hcoherent⟩ := ih
    have hoperands : ∀ operand ∈ operands, operand.LeadsTo instances registry.issued := by
      intro operand hmem
      obtain ⟨source, hsource⟩ := held operand hmem
      exact hcoherent.leadsTo hsource
    -- the universal instance, that of the operands, or a new one
    rw [Registry.combine]
    obtain hunion | hunion | ⟨hne, hunion⟩ := Handle.combine_cases registry.fresh operands
    · rw [hunion]
      exact ⟨instances, hcoherent.issue slot (Handle.leadsTo_anything hcoherent.universal)⟩
    · exact ⟨instances, hcoherent.issue slot (hoperands _ hunion)⟩
    · rw [hunion]
      refine ⟨_, hcoherent.issue_fresh slot (Glob.wellFormed_join (by simpa using hne) ?_)⟩
      intro glob hglob
      obtain ⟨operand, hmem, rfl⟩ := List.mem_map.1 hglob
      exact (hoperands operand hmem).wellFormed

/-- Every handle of a registry that `Arises` holds a glob that can have been read. -/
theorem Arises.wellFormed (h : Arises registry) {slot : String}
    (hget : registry.get? slot = some handle) : handle.glob.WellFormed := by
  obtain ⟨instances, hcoherent⟩ := h.exists_coherent
  exact (hcoherent.leadsTo hget).wellFormed

/-- Handles of a registry that `Arises` hold one glob if they lead to one instance. -/
theorem Arises.glob_eq_of_same (h : Arises registry) {slot other : String} {a b : Handle}
    (ha : registry.get? slot = some a) (hb : registry.get? other = some b)
    (hsame : a.same b = true) : a.glob = b.glob := by
  obtain ⟨instances, hcoherent⟩ := h.exists_coherent
  have hidentity : a.identity = b.identity := by simpa [Handle.same] using hsame
  rw [(hcoherent.leadsTo ha).glob_eq, (hcoherent.leadsTo hb).glob_eq, hidentity]

end Registry

end PathPatterns
