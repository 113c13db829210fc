import Dealias.Proofs.Alias.Table
import Dealias.Proofs.Run
import Dealias.Proofs.Source.Edit

/-!
# A second run is idle

What a run puts into a file addresses a file directly, so no alias matches it any more, not even the
catch-all.  When the options are written without quotes, nor does it upset the scan of the text
around it.  A run on the tree that a run left behind therefore finds the same imports with nothing
to replace in them.

* `AliasTable.IsQuoteFree.rewiredIn_code`: rewiring a rewired text changes nothing in it.
* `RunConfig.settled`: what a second run does with one file.
* `RunOptions.second_run_idle`: what it does with a tree.
-/

namespace Dealias

variable {table : AliasTable} {tree other : MemoryTree} {file : Path}

/-! ## Specifiers -/

theorem AliasTable.isFileAddress_of_resolved {specifier address : String}
    (hresolved : table.resolutionIn tree specifier file = .resolved address) :
    isFileAddress address = true := by
  obtain ⟨_, _, _, _, -, -, -, -, haddress⟩ := chosen?_of_resolved hresolved
  obtain ⟨path, -, rfl⟩ := Option.map_eq_some_iff.mp haddress
  exact isFileAddress_ensureDotted path.text

/-- No quote is put in place of a specifier. -/
theorem AliasTable.IsQuoteFree.address (htable : table.IsQuoteFree) (tree : MemoryTree)
    (file : Path) {specifier : String} (hspecifier : Dealias.IsQuoteFree specifier.toList) :
    Dealias.IsQuoteFree
      ((table.resolutionIn tree specifier file).address specifier).toList := by
  cases hresolution : table.resolutionIn tree specifier file with
  | notAliased => exact hspecifier
  | unresolved pattern => exact hspecifier
  | resolved address =>
      -- the address is made of the candidate, which is made of the target and the specifier
      obtain ⟨entry, remainder, -, target, htarget, hmatch, -, -, haddress⟩ :=
        chosen?_of_resolved hresolution
      exact (htable.candidate hspecifier hmatch htarget).relativeSpecifier? haddress

/-- What becomes of the specifier that has been put in place of another one. -/
theorem AliasTable.resolutionIn_address (table : AliasTable) (tree : MemoryTree) (file : Path)
    (specifier : String) :
    table.resolutionIn tree ((table.resolutionIn tree specifier file).address specifier) file =
      match table.resolutionIn tree specifier file with
      | .resolved _ => .notAliased
      | kept => kept := by
  cases hresolution : table.resolutionIn tree specifier file with
  | notAliased => exact hresolution
  | unresolved pattern => exact hresolution
  | resolved address =>
      change table.resolutionIn tree address file = .notAliased
      rw [resolutionIn, match?_of_isFileAddress (isFileAddress_of_resolved hresolution)]

/-! ## Texts -/

/-- Rewiring the rewired text, when an address that has been put in place stays where it is. -/
theorem Rewired.ofFindings_code {resolution : String → Resolution}
    (hquoteFree : ∀ specifier : String, IsQuoteFree specifier.toList →
      IsQuoteFree ((resolution specifier).address specifier).toList)
    (hagain : ∀ specifier, resolution ((resolution specifier).address specifier) =
      match resolution specifier with
      | .resolved _ => .notAliased
      | kept => kept)
    {text code : String} {first second : Rewired}
    (hfirst : first = ofFindings text (findingsOf resolution (occurrences text)))
    (hcode : code = first.code)
    (hsecond : second = ofFindings code (findingsOf resolution (occurrences code))) :
    second.replaced = 0 ∧ second.unresolved = first.unresolved := by
  subst hfirst hcode hsecond
  constructor
  · rw [replaced_ofFindings, specifiers_code hquoteFree, List.countP_map, List.countP_eq_zero]
    intro occurrence _
    simp only [Function.comp_apply, hagain, decide_eq_true_eq, ne_eq, not_not]
    cases resolution occurrence.specifier <;> rfl
  · rw [unresolved_ofFindings, specifiers_code hquoteFree, unresolved_ofFindings,
      List.filterMap_map, List.filterMap_map]
    refine congrArg (List.filterMap · (occurrences text)) (funext fun occurrence => ?_)
    simp only [Function.comp_apply, hagain]
    cases resolution occurrence.specifier <;> rfl

/-- **Rewiring again.**  Nothing is replaced in a rewired text, and what led nowhere still does. -/
theorem AliasTable.IsQuoteFree.rewiredIn_code (htable : table.IsQuoteFree) (tree : MemoryTree)
    (text : String) (file : Path) :
    (table.rewiredIn tree (table.rewiredIn tree text file).code file).replaced = 0 ∧
      (table.rewiredIn tree (table.rewiredIn tree text file).code file).unresolved =
        (table.rewiredIn tree text file).unresolved :=
  Rewired.ofFindings_code (fun _ => htable.address tree file)
    (table.resolutionIn_address tree file) rfl rfl rfl

/-! ## Files -/

theorem fromUTF8?_toUTF8 (text : String) : String.fromUTF8? text.toUTF8 = some text := by
  rw [String.fromUTF8?, String.toUTF8_eq_toByteArray, dif_pos text.isValidUTF8]
  rfl

variable {config : RunConfig}

theorem RunConfig.unchanged_of_replaced_eq_zero (config : RunConfig) (tree : MemoryTree)
    (file : Path) {rewired : Rewired} (hreplaced : rewired.replaced = 0) :
    config.writtenContent? tree file rewired = none ∧
      config.outcomeOf tree file rewired = .unchanged := by
  simp [writtenContent?, outcomeOf, Rewired.isChanged, hreplaced]

/-- The content that a file gets is the text that its own content is rewired to. -/
theorem RunConfig.exists_of_newContent? {content : ByteArray}
    (hnew : config.newContent? tree file = some content) :
    ∃ bytes text, (tree.read file).1 = .content bytes ∧ String.fromUTF8? bytes = some text ∧
      content = (config.aliases.rewiredIn tree text file).code.toUTF8 := by
  unfold newContent? at hnew
  split at hnew
  · rename_i bytes hread
    split at hnew
    · rename_i text htext
      rw [config.aliases.run_rewire, writtenContent?] at hnew
      split at hnew
      · exact ⟨bytes, text, hread, htext, (Option.some.inj hnew).symm⟩
      · cases hnew
    · cases hnew
  · cases hnew

/-- A file that gets no content although the run is not a dry one is not reported as replaced. -/
theorem RunConfig.isReplaced_reportIn (hdryRun : config.dryRun = false)
    (hnone : config.newContent? tree file = none) :
    (config.reportIn tree file).outcome.isReplaced = false := by
  unfold newContent? at hnone
  unfold reportIn
  split
  · rfl
  · rfl
  · rename_i bytes hread
    rw [hread] at hnone
    dsimp only at hnone
    split
    · rfl
    · rename_i text htext
      rw [htext] at hnone
      dsimp only [outcomeOf, writtenContent?] at hnone ⊢
      cases hchanged :
          ((config.aliases.rewire text file).run (World.start tree)).1.isChanged with
      | false => rfl
      | true =>
          have hfailing : file.location ∈ tree.failingWrites := by
            simpa [hchanged, hdryRun] using hnone
          simp [hdryRun, hfailing, FileOutcome.isReplaced]

/-- A file with the same content gets the same content and the same report. -/
theorem RunConfig.newContent?_congr (config : RunConfig) (hresembles : tree.Resembles other)
    (hplain : tree.IsPlain file.location)
    (hcontent : other.content? file.location = tree.content? file.location) :
    config.newContent? other file = config.newContent? tree file ∧
      config.reportIn other file = config.reportIn tree file := by
  unfold newContent? reportIn writtenContent? outcomeOf
  simp only [config.aliases.run_rewire, AliasTable.rewiredIn_congr hresembles,
    hresembles.read_eq hplain hcontent, hresembles.failingWrites, and_self]

/-- **A settled file.**  When a file is left as a run leaves it, the next run gives it no content,
does not report it as replaced, and finds the same imports unresolved. -/
theorem RunConfig.settled (hdryRun : config.dryRun = false) (htable : config.aliases.IsQuoteFree)
    (hresembles : tree.Resembles other) (hplain : tree.IsPlain file.location)
    (hview : other.view file.location = tree.viewAfter file (config.newContent? tree file)) :
    config.newContent? other file = none ∧
      (config.reportIn other file).outcome.isReplaced = false ∧
      (config.reportIn other file).unresolved = (config.reportIn tree file).unresolved := by
  have hcontent : other.content? file.location = (tree.viewAfter file _).content :=
    congrArg MemoryTree.View.content hview
  cases hnew : config.newContent? tree file with
  | none =>
      -- the file is as it was, so everything is found again
      rw [hnew] at hcontent
      obtain ⟨hsame, hreport⟩ := config.newContent?_congr hresembles hplain hcontent
      have hnone := hsame.trans hnew
      exact ⟨hnone, isReplaced_reportIn hdryRun hnone, by rw [hreport]⟩
  | some content =>
      -- the file holds the rewired text, in which nothing is replaced
      rw [hnew] at hcontent
      obtain ⟨bytes, text, hread, htext, rfl⟩ := exists_of_newContent? hnew
      obtain ⟨hreplaced, hunresolved⟩ := htable.rewiredIn_code tree text file
      have hagain := hresembles.read_content hplain hread hcontent
      obtain ⟨hnone, houtcome⟩ := config.unchanged_of_replaced_eq_zero other file hreplaced
      unfold newContent? reportIn
      simp only [hread, hagain, htext, fromUTF8?_toUTF8, config.aliases.run_rewire,
        AliasTable.rewiredIn_congr hresembles]
      exact ⟨hnone, by rw [houtcome]; rfl, hunresolved⟩

/-! ## Runs -/

theorem MemoryTree.eq_of_view_eq {tree other : MemoryTree} (hresembles : tree.Resembles other)
    (hwrites : tree.writes <:+ other.writes) (hview : ∀ place, other.view place = tree.view place) :
    other.files = tree.files ∧ other.writes = tree.writes := by
  constructor
  · exact eq_of_lookup_eq hresembles.places other.distinct fun place =>
      congrArg View.content (hview place)
  · obtain ⟨added, hadded⟩ := hwrites
    cases added with
    | nil => exact hadded.symm
    | cons path added =>
        -- the write of a path would be seen at the place that the path names
        have hsame := congrArg (fun view => view.writes.length) (hview path.location)
        simp [view, ← hadded] at hsame
        omega

section Runs

variable {budget : Nat} {files : List Path} {report : RunReport} {world : World MemoryTree}

/-- A world that a run leaves behind answers the questions of the next run as the tree did. -/
theorem RunConfig.Ran.agrees_next (hran : config.Ran tree files report world) :
    (World.start world.store).Agrees tree :=
  World.agrees_start hran.agrees.store hran.agrees.writes

theorem RunConfig.Ran.prepare_next (hran : config.Ran tree files report world) :
    ((config.prepare budget).run (World.start world.store)).1 =
      ((config.prepare budget).run (World.start tree)).1 :=
  (((config.onlyAsks_prepare budget).finds (World.agrees_start (.refl tree)
    (List.suffix_refl _))).run hran.agrees_next).2.1

theorem RunConfig.Ran.worksOn_next (hran : config.Ran tree files report world)
    {files' : List Path} (hfiles : config.WorksOn budget tree files)
    (hnext : config.WorksOn budget world.store files') : files' = files := by
  unfold RunConfig.WorksOn at hfiles hnext
  split at hfiles
  · rw [if_pos ‹_›] at hnext
    exact hnext.trans hfiles.symm
  · rw [if_neg ‹_›] at hnext
    have hsame := (((onlyAsks_discover budget config.outDir).finds (World.agrees_start (.refl tree)
      (List.suffix_refl _))).run hran.agrees_next).2.1
    have hfound : (Except.ok files' : Except StoreFault (List Path)) = .ok files :=
      calc Except.ok files'
          = ((discover budget config.outDir).run (World.start world.store)).1 := hnext.symm
        _ = ((discover budget config.outDir).run (World.start tree)).1 := hsame
        _ = .ok files := hfiles
    exact Except.ok.inj hfound

/-- The next run is not refused either. -/
theorem RunConfig.Ran.exists_ok_next (hran : config.Ran tree files report world)
    {schedule schedule' : List Nat}
    (hrun : config.runScheduled budget schedule tree = some (.ok report, world))
    {result : Except RunFault RunReport} {world' : World MemoryTree}
    (hnext : config.runScheduled budget schedule' world.store = some (result, world')) :
    ∃ report', result = .ok report' := by
  rcases RunConfig.runScheduled_cases hnext with ⟨fault, hprepare, -⟩ | ⟨-, hresult, -⟩ |
    ⟨_, _, -, -, -, hresult, -⟩
  · rw [hran.prepare_next] at hprepare
    rcases RunConfig.runScheduled_cases hrun with ⟨fault', -, hresult, -⟩ | ⟨hprepare', -⟩ |
      ⟨_, _, hprepare', -⟩
    · cases hresult
    · cases hprepare.symm.trans hprepare'
    · cases hprepare.symm.trans hprepare'
  · exact ⟨_, hresult⟩
  · exact ⟨_, hresult⟩

/-- **The next run.**  What the next run leaves behind is what it found. -/
theorem RunConfig.Ran.idle (hran : config.Ran tree files report world)
    (hdryRun : config.dryRun = false) (htable : config.aliases.IsQuoteFree)
    {report' : RunReport} {world' : World MemoryTree}
    (hnext : config.Ran world.store files report' world') :
    world'.store.files = world.store.files ∧ world'.store.writes = world.store.writes ∧
      (∀ entry ∈ report'.files, entry.outcome.isReplaced = false) ∧
      report'.files.map (fun entry => (entry.path, entry.unresolved)) =
        report.files.map fun entry => (entry.path, entry.unresolved) := by
  have hsettled := fun file hfile => RunConfig.settled hdryRun htable hran.agrees.store
    (hran.discovered.plain file hfile) (hran.view file hfile)
  -- no place is written: a discovered file is settled, and no other is worked on
  have hview : ∀ place, world'.store.view place = world.store.view place := by
    intro place
    by_cases hplace : ∀ file ∈ files, file.location ≠ place
    · exact hnext.others place hplace
    · simp only [not_forall, not_not] at hplace
      obtain ⟨file, hfile, rfl⟩ := hplace
      rw [hnext.view file hfile, (hsettled file hfile).1]
      rfl
  obtain ⟨hfiles, hwrites⟩ :=
    MemoryTree.eq_of_view_eq hnext.agrees.store hnext.agrees.writes hview
  refine ⟨hfiles, hwrites, ?_, ?_⟩
  · rw [hnext.reports, List.forall_mem_map]
    exact fun file hfile => (hsettled file hfile).2.1
  · rw [hnext.reports, hran.reports, List.map_map, List.map_map]
    refine List.map_congr_left fun file hfile => ?_
    simp [(hsettled file hfile).2.2]

end Runs

/-- Whether directories and alias targets are written without quotes. -/
structure RunOptions.IsQuoteFree (options : RunOptions) : Prop where
  projectDir : options.projectDir.IsQuoteFree
  outDir : options.outDir.IsQuoteFree
  baseUrl : ∀ baseUrl, options.baseUrl = some baseUrl → baseUrl.IsQuoteFree
  targets : ∀ entry ∈ options.paths.entries, ∀ target ∈ entry.2,
    Dealias.IsQuoteFree target.toList

theorem RunOptions.IsQuoteFree.aliases {options : RunOptions} (hoptions : options.IsQuoteFree)
    (hconfigure : options.configure = .ok config) : config.aliases.IsQuoteFree := by
  obtain ⟨houtDir, hbuild, -⟩ := RunOptions.configure_ok hconfigure
  refine AliasTable.isQuoteFree_build hbuild ?_ ?_ hoptions.targets
  · exact houtDir ▸ hoptions.outDir.anchor hoptions.projectDir
  · cases hbaseUrl : options.baseUrl with
    | some baseUrl => exact hoptions.baseUrl baseUrl hbaseUrl
    | none => decide

/-- **A second run is idle.**  When no link is the output directory or an ancestor of it, and the
directories and targets of the options are written without quotes, a run that is not a dry one
leaves a tree on which no run with the same options is refused, whatever its schedule: it writes
nothing, all files stay as they are, no file is reported as replaced, and the same imports are
unresolved. -/
theorem RunOptions.second_run_idle (options : RunOptions) (schedule : List Nat) (tree : MemoryTree)
    (report : RunReport) (world : World MemoryTree) (hquoteFree : options.IsQuoteFree)
    (hdryRun : options.dryRun = false)
    (hplain : ∀ link ∈ tree.links,
      ¬ link.1 <+: (options.outDir.anchor options.projectDir).location)
    (hrun : options.runScheduled schedule tree = some (.ok report, world)) :
    (∃ schedule', (options.runScheduled schedule' world.store).isSome) ∧
      ∀ schedule' result world',
        options.runScheduled schedule' world.store = some (result, world') →
          ∃ report', result = .ok report' ∧
            world'.store.writes = world.store.writes ∧
            world'.store.files = world.store.files ∧
            world'.store.links = world.store.links ∧
            (∀ entry ∈ report'.files, ∀ count, entry.outcome ≠ .replaced count) ∧
            report'.files.map (fun entry => (entry.path, entry.unresolved)) =
              report.files.map fun entry => (entry.path, entry.unresolved) := by
  obtain ⟨config, files, hconfigure, hfiles, hran⟩ := RunOptions.ran_of_runScheduled hplain hrun
  obtain ⟨-, -, hconfigDryRun⟩ := RunOptions.configure_ok hconfigure
  have hbound : options.directoryBound world.store = options.directoryBound tree :=
    hran.agrees.store.directoryBound_eq _
  constructor
  · obtain ⟨schedule', hschedule'⟩ := options.exists_runScheduled world.store
    exact ⟨schedule', hschedule' ▸ rfl⟩
  · intro schedule' result world' hrun'
    have hagain := hrun'
    rw [RunOptions.runScheduled_of_configure hconfigure] at hrun hagain
    rw [hbound] at hagain
    -- the second run prepares itself as the first one did
    obtain ⟨report', rfl⟩ := hran.exists_ok_next hrun hagain
    obtain ⟨config', files', hconfigure', hfiles', hnext⟩ :=
      RunOptions.ran_of_runScheduled (hran.agrees.store.isPlain_iff.mpr hplain) hrun'
    obtain rfl := Except.ok.inj (hconfigure.symm.trans hconfigure')
    obtain rfl := hran.worksOn_next hfiles (hbound ▸ hfiles')
    obtain ⟨hstored, hwrites, hreplaced, hunresolved⟩ :=
      hran.idle (hconfigDryRun.trans hdryRun) (hquoteFree.aliases hconfigure) hnext
    refine ⟨report', rfl, hwrites, hstored, hnext.agrees.store.links, ?_, hunresolved⟩
    intro entry hentry count houtcome
    simpa [houtcome, FileOutcome.isReplaced] using hreplaced entry hentry

/-- After the two workers have replaced the alias, a second run replaces nothing. -/
theorem RunOptions.second_run_idle_sample :
    ∃ report world schedule' report' world',
      RunOptions.sample.runScheduled RunOptions.sampleSchedule MemoryTree.sample =
        some (.ok report, world) ∧
      RunOptions.sample.runScheduled schedule' world.store = some (.ok report', world') ∧
      world'.store.files = world.store.files ∧
      ∀ entry ∈ report'.files, ∀ count, entry.outcome ≠ .replaced count := by
  obtain ⟨report, world, hrun⟩ := RunOptions.exists_runScheduled_sample
  have hquoteFree : RunOptions.sample.IsQuoteFree := by
    refine ⟨by decide, by decide, nofun, ?_⟩
    have htargets : ∀ entry ∈ RunOptions.sample.paths.entries, ∀ target ∈ entry.2,
        Dealias.IsQuoteFree target.toList := by decide +kernel
    exact htargets
  obtain ⟨⟨schedule', hsome⟩, hnext⟩ := RunOptions.second_run_idle RunOptions.sample
    RunOptions.sampleSchedule MemoryTree.sample report world hquoteFree rfl nofun hrun
  obtain ⟨⟨result, world'⟩, hresult⟩ := Option.isSome_iff_exists.mp hsome
  obtain ⟨report', rfl, -, hfiles, -, hreplaced, -⟩ := hnext schedule' result world' hresult
  exact ⟨report, world, schedule', report', world', hrun, hresult, hfiles, hreplaced⟩

end Dealias
