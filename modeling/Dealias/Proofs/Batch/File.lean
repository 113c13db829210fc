import Dealias.Proofs.Resolution

/-!
# The work on one file among others

What the work on a file comes to is a function of the tree at the start: the report about the file
(`RunConfig.reportIn`) and the content that it gets, if any (`RunConfig.newContent?`).  Both rewire
the content that the file has at the start, alone and with an empty cache.

`RunConfig.ensures_isolateFile` says that the work on a discovered file ends there, whatever the
workers on other files do between its requests, and `World.Agrees.view_answer` that it changes no
other file.
-/

namespace Dealias

/-! ## The function -/

/-- The content that is written for a rewired file, if it is written. -/
def RunConfig.writtenContent? (config : RunConfig) (tree : MemoryTree) (file : Path)
    (rewired : Rewired) : Option ByteArray :=
  if rewired.isChanged ∧ ¬ config.dryRun ∧ file.location ∉ tree.failingWrites then
    some rewired.code.toUTF8
  else none

/-- The outcome for a rewired file. -/
def RunConfig.outcomeOf (config : RunConfig) (tree : MemoryTree) (file : Path)
    (rewired : Rewired) : FileOutcome :=
  if ¬ rewired.isChanged then .unchanged
  else if config.dryRun then .replaced rewired.replaced
  else if file.location ∈ tree.failingWrites then
    .failed (.unwritable file (MemoryTree.writeFault file))
  else .replaced rewired.replaced

/-- The content that the work on a file gives it, if any: the file can be read, its content is text,
something in the text is replaced, the run is not a dry one, and the file can be written. -/
def RunConfig.newContent? (config : RunConfig) (tree : MemoryTree) (file : Path) :
    Option ByteArray :=
  match (tree.read file).1 with
  | .content bytes =>
    match String.fromUTF8? bytes with
    | some text =>
      config.writtenContent? tree file
        ((config.aliases.rewire text file).run (World.start tree)).1
    | none => none
  | _ => none

/-- The report about a file. -/
def RunConfig.reportIn (config : RunConfig) (tree : MemoryTree) (file : Path) : FileReport :=
  match (tree.read file).1 with
  | .crashed message => ⟨file, .failed (.crashed file message), []⟩
  | .failed cause => ⟨file, .failed (.unreadable file cause), []⟩
  | .content bytes =>
    match String.fromUTF8? bytes with
    | none => ⟨file, .failed (.notText file), []⟩
    | some text =>
      let rewired := ((config.aliases.rewire text file).run (World.start tree)).1
      ⟨file, config.outcomeOf tree file rewired, rewired.unresolved⟩

@[simp] theorem RunConfig.path_reportIn (config : RunConfig) (tree : MemoryTree) (file : Path) :
    (config.reportIn tree file).path = file := by
  unfold RunConfig.reportIn
  split
  · rfl
  · rfl
  · split <;> rfl

namespace MemoryTree

/-- The view of a file after a content has been written, or after none has. -/
def viewAfter (tree : MemoryTree) (file : Path) : Option ByteArray → View
  | none => tree.view file.location
  | some content => ⟨some content, file :: (tree.view file.location).writes⟩

/-- A write leaves the views of other places alone. -/
theorem view_write_of_ne {tree : MemoryTree} {file : Path} (hplain : tree.IsPlain file.location)
    (content : ByteArray) {place : Location} (hplace : place ≠ file.location) :
    (tree.write file content).2.view place = tree.view place := by
  cases hfailing : tree.failingWrites.contains file.location with
  | true => rw [write_of_failing hfailing]
  | false =>
      rw [write_of_isPlain hplain hfailing, view, view]
      congr 1
      · exact (content?_putFile ⟨file, rfl⟩ content place).trans (if_neg hplace)
      · exact List.filter_cons_of_neg (by simpa using hplace.symm)

/-- A write that does not fail is seen. -/
theorem view_write_self {tree : MemoryTree} {file : Path} (hplain : tree.IsPlain file.location)
    (hfailing : file.location ∉ tree.failingWrites) (content : ByteArray) :
    (tree.write file content).2.view file.location = tree.viewAfter file (some content) := by
  rw [write_of_isPlain hplain (by simpa using hfailing), view, viewAfter]
  congr 1
  · exact (content?_putFile ⟨file, rfl⟩ content file.location).trans (if_pos rfl)
  · exact List.filter_cons_of_pos (by simp)

end MemoryTree

/-! ## Frames -/

/-- The work on one file changes no view of another place. -/
theorem World.Agrees.view_answer {tree : MemoryTree} {world : World MemoryTree}
    (hagrees : world.Agrees tree) {file : Path} (hplain : tree.IsPlain file.location)
    {request : Request} (hrequest : request = .read file ∨ request.Settles file)
    {place : Location} (hplace : place ≠ file.location) :
    (world.answer request).2.store.view place = world.store.view place := by
  rcases hrequest with rfl | hlook | ⟨content, rfl⟩
  · rfl
  · cases request with
    | describe path => rfl
    | lookupProbe candidate => rfl
    | storeProbe candidate found => rfl
    | lookupSpecifier target directory => rfl
    | storeSpecifier target directory specifier => rfl
    | emit event => rfl
    | _ => cases hlook
  · exact MemoryTree.view_write_of_ne (hagrees.store.isPlain_iff.mpr hplain) content hplace

/-! ## The programs -/

namespace RunConfig

variable {tree : MemoryTree} {file : Path}

/-- Reading a file that nobody has written answers as in the tree at the start. -/
theorem ensures_read (hplain : tree.IsPlain file.location) :
    (Program.request (.read file)).Ensures tree file.location
      (fun now reply => now = tree.view file.location ∧ reply = (tree.read file).1)
      (tree.view file.location) := by
  intro world hagrees hview
  refine ⟨hagrees.of_store ⟨rfl, rfl, rfl, rfl, rfl, rfl⟩ rfl rfl (List.suffix_refl _), hview, ?_⟩
  exact hagrees.store.read_eq hplain (congrArg MemoryTree.View.content hview)

theorem ensures_write (hplain : tree.IsPlain file.location)
    (hfile : tree.hasFile file.location = true) (content : ByteArray) :
    (Program.request (.write file content)).Ensures tree file.location
      (fun now reply =>
        file.location ∈ tree.failingWrites ∧ now = tree.viewAfter file none ∧
            reply = .error (MemoryTree.writeFault file) ∨
          file.location ∉ tree.failingWrites ∧ now = tree.viewAfter file (some content) ∧
            reply = .ok ())
      (tree.view file.location) := by
  intro world hagrees hview
  have hplain' := hagrees.store.isPlain_iff.mpr hplain
  have hfile' := (hagrees.store.hasFile_eq _).trans hfile
  have hfailing' := hagrees.store.failingWrites
  refine ⟨hagrees.of_store (MemoryTree.resembles_write hplain' hfile' content) rfl rfl ?_, ?_⟩
  · change _ <:+ (world.store.write file content).2.writes
    by_cases hfailing : file.location ∈ tree.failingWrites
    · have hsame : (world.store.write file content).2 = world.store := by
        rw [MemoryTree.write_of_failing (by simpa [hfailing'] using hfailing)]
      exact ⟨[], congrArg MemoryTree.writes hsame.symm⟩
    · rw [MemoryTree.write_of_isPlain hplain' (by simpa [hfailing'] using hfailing)]
      exact List.suffix_cons ..
  · by_cases hfailing : file.location ∈ tree.failingWrites
    · refine .inl ⟨hfailing, ?_⟩
      change (world.store.write file content).2.view _ = _ ∧ (world.store.write file content).1 = _
      rw [MemoryTree.write_of_failing (by simpa [hfailing'] using hfailing)]
      exact ⟨hview, rfl⟩
    · refine .inr ⟨hfailing, ?_⟩
      have hseen := MemoryTree.view_write_self hplain' (hfailing' ▸ hfailing) content
      rw [MemoryTree.viewAfter, hview] at hseen
      refine ⟨hseen, ?_⟩
      change (world.store.write file content).1 = _
      rw [MemoryTree.write_of_isPlain hplain' (by simpa [hfailing'] using hfailing)]

theorem finds_fail (fault : FileFault) :
    (Program.fail fault).Finds tree (· = .failed fault) :=
  (Program.finds_emit _).bind fun _ _ => Program.finds_pure rfl

/-- Writing back a rewired file. -/
theorem ensures_settle (config : RunConfig) (hplain : tree.IsPlain file.location)
    (hfile : tree.hasFile file.location = true) (rewired : Rewired) :
    (config.settle file rewired).Ensures tree file.location
      (fun now outcome => now = tree.viewAfter file (config.writtenContent? tree file rewired) ∧
        outcome = config.outcomeOf tree file rewired)
      (tree.view file.location) := by
  unfold settle writtenContent? outcomeOf
  cases hchanged : rewired.isChanged with
  | false => exact ⟨rfl, rfl⟩
  | true =>
      cases hdry : config.dryRun with
      | true => exact ⟨rfl, rfl⟩
      | false =>
          refine (ensures_write hplain hfile _).bind ?_
          rintro _ _ (⟨hfailing, rfl, rfl⟩ | ⟨hfailing, rfl, rfl⟩)
          · refine (finds_fail _ _ _).mono ?_
            rintro _ _ ⟨rfl, rfl⟩
            simp [hfailing]
          · refine ⟨?_, ?_⟩ <;> simp [hfailing]

/-- Rewiring the content of a file and writing it back. -/
theorem ensures_processContent (config : RunConfig) (hplain : tree.IsPlain file.location)
    (hfile : tree.hasFile file.location = true) {bytes : ByteArray}
    (hread : (tree.read file).1 = .content bytes) :
    (config.processContent file bytes).Ensures tree file.location
      (fun now report => now = tree.viewAfter file (config.newContent? tree file) ∧
        report = config.reportIn tree file)
      (tree.view file.location) := by
  unfold newContent? reportIn processContent
  rw [hread]
  dsimp only
  cases String.fromUTF8? bytes with
  | none =>
      refine (finds_fail _ _ _).bind ?_
      rintro _ _ ⟨rfl, rfl⟩
      exact ⟨rfl, rfl⟩
  | some text =>
      simp only [config.aliases.run_rewire]
      refine (config.aliases.finds_rewire text file _ _).bind ?_
      rintro _ _ ⟨rfl, rfl⟩
      refine (config.ensures_settle hplain hfile _).bind ?_
      rintro _ _ ⟨rfl, rfl⟩
      exact ⟨rfl, rfl⟩

/-- **The work on one file.**  Whatever others do between its requests, as long as they leave the
file alone, it makes the report and the content that the tree at the start gives. -/
theorem ensures_isolateFile (config : RunConfig) (hplain : tree.IsPlain file.location)
    (hfile : tree.hasFile file.location = true) :
    (config.isolateFile file).Ensures tree file.location
      (fun now taskEnd => now = tree.viewAfter file (config.newContent? tree file) ∧
        taskEnd = .ok (config.reportIn tree file))
      (tree.view file.location) := by
  unfold isolateFile processFile
  cases hread : (tree.read file).1 with
  | content bytes =>
      refine ((ensures_read hplain).bind ?_).bind fun _ _ h => h
      rintro _ _ ⟨rfl, rfl⟩
      rw [hread]
      refine (config.ensures_processContent hplain hfile hread).bind ?_
      rintro _ _ ⟨rfl, rfl⟩
      exact ⟨rfl, rfl⟩
  | failed cause =>
      refine ((ensures_read hplain).bind ?_).bind fun _ _ h => h
      rintro _ _ ⟨rfl, rfl⟩
      rw [hread]
      refine (finds_fail _ _ _).bind ?_
      rintro _ _ ⟨rfl, rfl⟩
      unfold newContent? reportIn
      rw [hread]
      exact ⟨rfl, rfl⟩
  | crashed message =>
      refine ((ensures_read hplain).bind ?_).bind fun _ _ h => h
      rintro _ _ ⟨rfl, rfl⟩
      rw [hread]
      refine (finds_fail _ _ _).bind ?_
      rintro _ _ ⟨rfl, rfl⟩
      unfold newContent? reportIn
      rw [hread]
      exact ⟨rfl, rfl⟩

end RunConfig
end Dealias
