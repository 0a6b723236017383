import Mathlib.Data.List.Nodup
import PathPatterns.Disk.Lister

/-!
# Paths into a directory of a disk

Following a path that is longer goes on where following the shorter one has come to. So the path of
a real directory in a directory leads to this directory, whatever links have been met on the way to
the one that holds it, unless the path or the name has become too long.

## Main definitions

* `Disk.WellFormed`: nothing is found twice under one path, and names lead down.

## Main results

* `follow_append_cases`: following goes on behind a path, or has failed before.
* `resolveDirectory_join`: where the path of a real directory leads.
* `exists_of_directory_mem_entries`: what is listed as a directory is a real one, if links are not
  followed.
-/

namespace PathPatterns

namespace Disk

/-- Whether a name can be written in a path and leads down from the directory that holds it: `names`
reads it back as one name, and `follow` goes down with it. -/
structure IsName (name : DiskName) : Prop where
  /-- A name is not empty. -/
  ne_nil : name ≠ []
  /-- No name holds a separator. -/
  separator_notMem : separator ∉ name
  /-- `.` stays. -/
  ne_selfName : name ≠ selfName
  /-- `..` goes up. -/
  ne_parentName : name ≠ parentName

instance (name : DiskName) : Decidable (IsName name) :=
  decidable_of_iff (name ≠ [] ∧ separator ∉ name ∧ name ≠ selfName ∧ name ≠ parentName)
    ⟨fun ⟨h₁, h₂, h₃, h₄⟩ => ⟨h₁, h₂, h₃, h₄⟩, fun ⟨h₁, h₂, h₃, h₄⟩ => ⟨h₁, h₂, h₃, h₄⟩⟩

/-- Whether each node of a disk has a path of its own, made of names. Links may lead anywhere, and
need not lead to anything. -/
structure WellFormed (disk : Disk) : Prop where
  /-- Nothing is found twice under one path. -/
  nodup : (disk.nodes.map Prod.fst).Nodup
  /-- Paths are made of names. -/
  isName : ∀ entry ∈ disk.nodes, ∀ name ∈ entry.1, IsName name

instance (disk : Disk) : Decidable disk.WellFormed :=
  decidable_of_iff ((disk.nodes.map Prod.fst).Nodup ∧
      ∀ entry ∈ disk.nodes, ∀ name ∈ entry.1, IsName name)
    ⟨fun ⟨h₁, h₂⟩ => ⟨h₁, h₂⟩, fun ⟨h₁, h₂⟩ => ⟨h₁, h₂⟩⟩

variable {disk : Disk} {path real other : List DiskName} {name : DiskName} {node : DiskNode}

/-! ## What is found -/

/-- What `nodes` holds under a path is found there by `node?`, as a well-formed disk holds no second
node under this path. -/
theorem WellFormed.node?_eq (hwf : disk.WellFormed) (hpath : path ≠ [])
    (h : (path, node) ∈ disk.nodes) : disk.node? path = some node := by
  rw [node?, if_neg (by simpa using hpath), List.lookup_eq_some_iff]
  obtain ⟨before, after, hnodes⟩ := List.append_of_mem h
  refine ⟨before, after, hnodes, fun entry hentry => ?_⟩
  have hnodup := hwf.nodup
  rw [hnodes, List.map_append, List.map_cons, List.nodup_middle, List.nodup_cons] at hnodup
  rw [bne_iff_ne]
  intro heq
  exact hnodup.1 (List.mem_append_left _ (List.mem_map.2 ⟨entry, hentry, heq.symm⟩))

/-- `namesIn` gives the names of a directory whose paths are one name longer, with the nodes under
these paths. -/
theorem mem_namesIn_iff :
    (name, node) ∈ disk.namesIn path ↔ (path ++ [name], node) ∈ disk.nodes := by
  rw [namesIn, List.mem_filterMap]
  constructor
  · rintro ⟨⟨full, found⟩, hmem, hname⟩
    cases hlast : full.getLast? with
    | none => simp [hlast] at hname
    | some last =>
      simp only [hlast, Option.ite_none_right_eq_some, Option.some.injEq, Prod.mk.injEq] at hname
      obtain ⟨rfl, rfl, rfl⟩ := hname
      rwa [List.dropLast_append_getLast? last hlast]
  · intro h
    exact ⟨_, h, by simp⟩

/-! ## Following a path -/

/-- `follow` goes on behind the names `front` from the real path that they lead to, with the links
that are left, or it has failed before. Which of the two it is does not depend on the names `back`
behind them. -/
theorem follow_append_cases (disk : Disk) (links : Nat) (here front : List DiskName) :
    (∃ left real, ∀ back, disk.follow links here (front ++ back) = disk.follow left real back) ∨
      ∃ failure, ∀ back, disk.follow links here (front ++ back) = .error failure := by
  -- name by name; a step is the same whatever names come behind
  fun_induction disk.follow links here front with
  | case1 links here => exact .inl ⟨links, here, fun _ => rfl⟩
  | case2 links here name rest hhere =>
    refine .inr ⟨.notADirectory, fun back => ?_⟩
    rw [List.cons_append, follow, if_pos hhere]
  | case3 links here name rest hhere hself ih =>
    have hstep : ∀ back, disk.follow links here (name :: rest ++ back) =
        disk.follow links here (rest ++ back) := fun back => by
      rw [List.cons_append, follow, if_neg hhere, if_pos hself]
    simpa only [hstep] using ih
  | case4 links here rest hhere hself ih =>
    have hstep : ∀ back, disk.follow links here (parentName :: rest ++ back) =
        disk.follow links here.dropLast (rest ++ back) := fun back => by
      rw [List.cons_append, follow, if_neg hhere, if_neg hself, if_pos rfl]
    simpa only [hstep] using ih
  | case5 links here name rest hhere hself hparent hlong =>
    refine .inr ⟨.invalidFilename, fun back => ?_⟩
    rw [List.cons_append, follow, if_neg hhere, if_neg hself, if_neg hparent, if_pos hlong]
  | case6 links here name rest hhere hself hparent hlong hnode =>
    refine .inr ⟨.notFound, fun back => ?_⟩
    rw [List.cons_append, follow, if_neg hhere, if_neg hself, if_neg hparent, if_neg hlong]
    simp only [hnode]
  | case7 here name rest hhere hself hparent hlong target hnode =>
    refine .inr ⟨.filesystemLoop, fun back => ?_⟩
    rw [List.cons_append, follow, if_neg hhere, if_neg hself, if_neg hparent, if_neg hlong]
    simp only [hnode]
  | case8 here name rest hhere hself hparent hlong target hnode links ih =>
    -- what a link leads to comes before the names behind it
    have hstep : ∀ back, disk.follow (links + 1) here (name :: rest ++ back) =
        disk.follow links (if isAbsolute target then [] else here)
          (names target ++ rest ++ back) := fun back => by
      rw [List.cons_append, follow, if_neg hhere, if_neg hself, if_neg hparent, if_neg hlong]
      simp only [hnode, List.append_assoc]
    simpa only [hstep, dite_eq_ite] using ih
  | case9 links here name rest hhere hself hparent hlong node hlink hnode ih =>
    have hstep : ∀ back, disk.follow links here (name :: rest ++ back) =
        disk.follow links (here ++ [name]) (rest ++ back) := fun back => by
      rw [List.cons_append, follow, if_neg hhere, if_neg hself, if_neg hparent, if_neg hlong]
      simp only [hnode]
    simpa only [hstep] using ih

variable {links : Nat} {here front : List DiskName}

/-- An empty name behind a path stays where `front` leads, so `front` alone leads there too. -/
theorem follow_of_append_nil (h : disk.follow links here (front ++ [[]]) = .ok real) :
    disk.follow links here front = .ok real := by
  rcases disk.follow_append_cases links here front with ⟨left, last, hgoes⟩ | ⟨failure, hfails⟩
  · have hlast : disk.follow links here front = .ok last := by
      rw [← List.append_nil front, hgoes, follow]
    rw [hgoes, follow] at h
    by_cases hdirectory : disk.node? last = some .directory
    · rwa [if_neg (not_not.2 hdirectory), if_pos (.inl rfl), follow, ← hlast] at h
    · rw [if_pos hdirectory] at h
      cases h
  · rw [hfails] at h
    cases h

/-- The name of a directory leads from the directory that holds it to this one: if `front` leads to
`real`, which holds a directory under `name`, then one more name leads to `real ++ [name]`, unless
it leads nowhere because the name is too long. -/
theorem follow_append_singleton (hname : IsName name)
    (hnode : disk.node? (real ++ [name]) = some .directory)
    (h : disk.follow links here front = .ok real)
    (hother : disk.follow links here (front ++ [name]) = .ok other) : other = real ++ [name] := by
  rcases disk.follow_append_cases links here front with ⟨left, last, hgoes⟩ | ⟨failure, hfails⟩
  · have hlast := hgoes []
    rw [List.append_nil, h, follow] at hlast
    obtain rfl := Except.ok.inj hlast
    -- one more name: it does not stay, does not go up and is no link, so it goes down
    have hstays : ¬ (name.isEmpty = true ∨ name = selfName) := by
      simp [hname.ne_nil, hname.ne_selfName]
    rw [hgoes, follow] at hother
    by_cases hdirectory : disk.node? real = some .directory
    · rw [if_neg (not_not.2 hdirectory), if_neg hstays, if_neg hname.ne_parentName] at hother
      by_cases hlong : name.length > nameLimit
      · rw [if_pos hlong] at hother
        cases hother
      · simp only [if_neg hlong, hnode, follow] at hother
        exact (Except.ok.inj hother).symm
    · rw [if_pos hdirectory] at hother
      cases hother
  · have herror := hfails []
    rw [List.append_nil, h] at herror
    cases herror

/-! ## The path of a directory in another -/

theorem ofText_append (text more : List Char) :
    DiskName.ofText (text ++ more) = DiskName.ofText text ++ DiskName.ofText more :=
  List.flatMap_append

@[simp]
theorem ofText_separator_cons (text : List Char) :
    DiskName.ofText ('/' :: text) = separator :: DiskName.ofText text := rfl

/-- A path and the paths that `Path.join` makes of it begin with the same `stem`, behind which one
separator stands before the name. The path itself is the stem, or ends in that separator. -/
theorem exists_ofText_join {directory : String} (h : directory.toList ≠ []) :
    ∃ stem, (DiskName.ofText directory.toList = stem ∨
        DiskName.ofText directory.toList = stem ++ [separator]) ∧
      ∀ name : String, DiskName.ofText (Path.join directory name).toList =
        stem ++ separator :: DiskName.ofText name.toList := by
  rcases List.eq_nil_or_concat directory.toList with hnil | ⟨front, last, hdirectory⟩
  · exact absurd hnil h
  have hlast : directory.toList.getLast? = some last := by rw [hdirectory]; simp
  -- a path that ends in a separator gets no other one
  by_cases hsep : last = '/'
  · subst hsep
    have hends : DiskName.ofText directory.toList = DiskName.ofText front ++ [separator] := by
      rw [hdirectory, List.concat_eq_append, ofText_append]
      rfl
    refine ⟨DiskName.ofText front, .inr hends, fun name => ?_⟩
    rw [Path.join, hlast]
    simp [ofText_append, hends]
  · refine ⟨DiskName.ofText directory.toList, .inl rfl, fun name => ?_⟩
    rw [Path.join, hlast]
    simp [ofText_append]

theorem namesOfBytes_append_separator (front back : List UInt8) :
    namesOfBytes (front ++ separator :: back) = namesOfBytes front ++ namesOfBytes back :=
  pieces_append_cons (by simp) front back

/-- The bytes of a name are read as this one name, as no separator is among them. -/
theorem namesOfBytes_of_isName (h : IsName name) : namesOfBytes name = [name] := by
  refine pieces_of_forall_not fun byte hbyte => ?_
  rw [beq_eq_false_iff_ne]
  rintro rfl
  exact h.separator_notMem hbyte

/-- A path that leads anywhere is followed from its `origin`, and is not empty. -/
theorem follow_of_resolve {bytes : List UInt8} (h : disk.resolve bytes = .ok real) :
    bytes ≠ [] ∧ disk.follow linkLimit (disk.origin bytes) (namesOfBytes bytes) = .ok real := by
  unfold resolve at h
  split at h
  · cases h
  split at h
  · cases h
  split at h
  · cases h
  · rename_i hempty
    exact ⟨by simpa using hempty, h⟩

/-- The path of what is in a directory has the `origin` of the path of the directory: `Path.join`
changes no path at its head. -/
theorem origin_join (disk : Disk) {directory : String}
    (h : DiskName.ofText directory.toList ≠ []) (name : String) :
    disk.origin (DiskName.ofText (Path.join directory name).toList) =
      disk.origin (DiskName.ofText directory.toList) := by
  have hdirectory : directory.toList ≠ [] := fun hnil => h (by rw [hnil]; rfl)
  obtain ⟨stem, hstem, hjoin⟩ := exists_ofText_join hdirectory
  rw [hjoin, origin, origin]
  rcases hstem with hsame | hends
  · -- a path that is not empty keeps its head
    obtain ⟨byte, rest, rfl⟩ := List.exists_cons_of_ne_nil (hsame ▸ h)
    rw [hsame, List.cons_append, List.head?_cons, List.head?_cons]
  · rw [hends]
    cases stem <;> rfl

/-- `resolveDirectory` leads to a real path exactly if `resolve` does and finds a directory there.
-/
theorem resolveDirectory_eq_ok_iff {directory : String} :
    disk.resolveDirectory directory = .ok real ↔
      disk.resolve (DiskName.ofText directory.toList) = .ok real ∧
        disk.node? real = some .directory := by
  unfold resolveDirectory
  cases disk.resolve (DiskName.ofText directory.toList) with
  | error failure => simp
  | ok found =>
    by_cases hfound : disk.node? found = some .directory
    · simp only [hfound, if_true, Except.ok.injEq]
      constructor
      · rintro rfl
        exact ⟨rfl, hfound⟩
      · exact And.left
    · simp only [hfound, if_false, Except.ok.injEq]
      constructor
      · exact nofun
      · rintro ⟨rfl, hdirectory⟩
        exact absurd hdirectory hfound

/-- The path of a real directory in a directory leads to it, if it leads anywhere. The links on the
way to `directory` do not matter; only the length of the path or of the name can keep it from
leading there. -/
theorem resolveDirectory_join {directory name : String}
    (hname : IsName (DiskName.ofText name.toList))
    (hnode : disk.node? (real ++ [DiskName.ofText name.toList]) = some .directory)
    (h : disk.resolveDirectory directory = .ok real)
    (hother : disk.resolveDirectory (Path.join directory name) = .ok other) :
    other = real ++ [DiskName.ofText name.toList] := by
  obtain ⟨hne, hreal⟩ := follow_of_resolve (resolveDirectory_eq_ok_iff.1 h).1
  obtain ⟨-, hjoined⟩ := follow_of_resolve (resolveDirectory_eq_ok_iff.1 hother).1
  have hdirectory : directory.toList ≠ [] := fun hnil => hne (by rw [hnil]; rfl)
  obtain ⟨stem, hstem, hjoin⟩ := exists_ofText_join hdirectory
  rw [origin_join disk hne, hjoin, namesOfBytes_append_separator,
    namesOfBytes_of_isName hname] at hjoined
  -- a separator at the end of the directory is one more name, an empty one, which stays
  have hfront : disk.follow linkLimit (disk.origin (DiskName.ofText directory.toList))
      (namesOfBytes stem) = .ok real := by
    rcases hstem with hsame | hends
    · rwa [hsame] at hreal ⊢
    · rw [hends, namesOfBytes_append_separator] at hreal
      rw [hends]
      exact follow_of_append_nil hreal
  exact follow_append_singleton hname hnode hfront hjoined

/-! ## Listings -/

/-- An entry has the name under which its directory holds it, whatever following it comes to. -/
@[simp]
theorem name_entryAt (disk : Disk) (directory : String) (name : DiskName) (node : DiskNode) :
    (disk.entryAt directory name node).name = name := by
  cases node with
  | link target =>
    rw [entryAt]
    cases disk.resolve (pathIn directory name) <;> rfl
  | _ => rfl

section Listings

variable {options : Options} (hoptions : options.followLinks = false)

include hoptions

/-- If links are not followed (`hoptions`), they are files, wherever they lead, and following them
never fails. -/
theorem classify_entryAt (disk : Disk) (directory : String) (name : DiskName) (node : DiskNode) :
    options.classify (disk.entryAt directory name node).type =
      .ok (if node = .directory then .directory else .file) := by
  cases node with
  | file => rfl
  | directory => rfl
  | link target =>
    rw [entryAt]
    cases disk.resolve (pathIn directory name) <;> simp [Options.classify, hoptions]

/-- If links are not followed, an item that is reported as a directory was made by a directory, and
its path ends in the text of the name. -/
theorem exists_of_report_eq_directory {kind : EntityKind} {directory child : String}
    (h : options.report kind directory (disk.entryAt directory name node) =
      some (.ok (.directory child))) :
    node = .directory ∧ ∃ text, name.text? = some text ∧ child = Path.join directory text := by
  rw [Options.report, classify_entryAt hoptions] at h
  simp only [Option.ite_none_left_eq_some, Option.ite_none_right_eq_some, Option.map_eq_some_iff,
    name_entryAt] at h
  obtain ⟨-, -, text, htext, hitem⟩ := h
  obtain ⟨rfl, hkind⟩ := Item.mk.inj (Except.ok.inj hitem)
  by_cases hnode : node = .directory
  · exact ⟨hnode, text, htext, rfl⟩
  · rw [if_neg hnode] at hkind
    cases hkind

/-- If links are not followed, what is listed as a directory is a directory that the disk holds: it
is found in `nodes`, below the real path of the directory that was asked for. -/
theorem exists_of_directory_mem_entries {request : Request} {child : String}
    (h : .ok (.directory child) ∈ disk.entries options request) :
    ∃ real, ∃ name : String, disk.resolveDirectory request.directory = .ok real ∧
      (real ++ [DiskName.ofText name.toList], .directory) ∈ disk.nodes ∧
        child = Path.join request.directory name := by
  unfold entries entriesAt at h
  cases hreal : disk.resolveDirectory request.directory with
  | error failure => simp [hreal, bind, Except.bind] at h
  | ok real =>
    simp only [hreal, bind, Except.bind, pure, Except.pure, Options.listing, List.mem_filterMap,
      List.mem_map] at h
    obtain ⟨_, ⟨⟨bytes, node⟩, hmem, rfl⟩, hreport⟩ := h
    obtain ⟨rfl, text, htext, rfl⟩ := exists_of_report_eq_directory hoptions hreport
    refine ⟨real, text, rfl, ?_, rfl⟩
    rw [DiskName.ofText_of_text? htext]
    exact mem_namesIn_iff.1 hmem

end Listings

end Disk

end PathPatterns
