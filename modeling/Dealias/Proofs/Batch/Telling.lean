import Dealias.Proofs.Program

/-!
# What the work on a file tells

The warnings about imports that lead nowhere are told while a file is rewired, and those about a
fault where it happens.  The report is put together from the results.  Whatever the requests are
answered, the two go together: the events that the work on a file tells are those that its report
gives (`FileReport.events`), in that order.

* `RunConfig.tells_isolateFile`: the work on one file tells the events of the report that it ends
  in, and an import is in that report only if an alias other than the catch-all one speaks about it.

## Strategy

`Program.Tells goal` says that on every branch `goal` holds of the events told and of the result.
It is composed along programs by `Program.Tells.bind`, where what comes first is told first.
Everything that resolution asks before it gives up is a probe, and a probe tells nothing
(`Program.OnlyProbes.bind_tells`).
-/

namespace Dealias

/-! ## Events of programs -/

namespace Program

variable {First Second : Type}

/-- Whether on every branch the events told and the result satisfy a condition. -/
def Tells : (List Event → First → Prop) → Program First → Prop
  | goal, done result => goal [] result
  | goal, ask request next =>
    ∀ reply, (next reply).Tells fun later result => goal (request.told ++ later) result

variable {goal : List Event → First → Prop}

theorem Tells.mono {goal' : List Event → First → Prop} {program : Program First}
    (hprogram : program.Tells goal) (hgoal : ∀ told result, goal told result → goal' told result) :
    program.Tells goal' := by
  induction program generalizing goal goal' with
  | done result => exact hgoal _ _ hprogram
  | ask request next ih =>
      exact fun reply => ih reply (hprogram reply) fun later result => hgoal _ result

/-- A program that goes on from the result of another tells what that one tells first. -/
theorem Tells.bind {program : Program First} (hprogram : program.Tells goal)
    {next : First → Program Second} {goal' : List Event → Second → Prop}
    (hnext : ∀ told result, goal told result →
      (next result).Tells fun later => goal' (told ++ later)) :
    (program >>= next).Tells goal' := by
  induction program generalizing goal goal' with
  | done result => exact hnext [] result hprogram
  | ask request rest ih =>
      refine fun reply => ih reply (hprogram reply) fun told result hgoal => ?_
      simpa only [List.append_assoc] using hnext _ result hgoal

/-- Nothing is told before a program that comes behind probes. -/
theorem OnlyProbes.bind_tells {program : Program First} (hprobes : program.OnlyProbes)
    {next : First → Program Second} {goal' : List Event → Second → Prop}
    (hnext : ∀ result, (next result).Tells goal') : (program >>= next).Tells goal' := by
  induction program with
  | done result => exact hnext result
  | ask request rest ih =>
      intro reply
      rw [Request.told_of_isProbe hprobes.1]
      exact ih reply (hprobes.2 reply)

/-- Nothing is told behind a program that goes on without requests. -/
theorem Tells.map {program : Program First} (hprogram : program.Tells goal)
    {change : First → Second} {goal' : List Event → Second → Prop}
    (hgoal : ∀ told result, goal told result → goal' told (change result)) :
    (program >>= fun result => pure (change result)).Tells goal' := by
  refine hprogram.bind fun told result hresult => ?_
  show goal' (told ++ []) (change result)
  rw [List.append_nil]
  exact hgoal told result hresult

end Program

/-! ## Resolution -/

/-- Whether an import is one that an alias other than the catch-all one speaks about, with the
pattern of that alias. -/
def AliasTable.Misses (table : AliasTable) (missing : UnresolvedImport) : Prop :=
  ∃ entry remainder, table.match? missing.specifier = some (entry, remainder) ∧
    entry.isCatchAll = false ∧ entry.pattern = missing.pattern

/-- The warnings about imports of a file that lead nowhere. -/
def unresolvedEvents (file : Path) (missing : List UnresolvedImport) : List Event :=
  missing.map fun missing => unresolvedEvent missing.specifier file

/-- What becomes of a specifier is told when it leads nowhere. -/
theorem AliasTable.tells_resolve (table : AliasTable) (occurrence : Occurrence) (file : Path) :
    (table.resolve occurrence.specifier file).Tells fun told resolution =>
      told = unresolvedEvents file (occurrence.unresolved? resolution).toList ∧
        ∀ missing ∈ occurrence.unresolved? resolution, table.Misses missing := by
  unfold AliasTable.resolve
  cases hmatch : table.match? occurrence.specifier with
  | none => exact ⟨rfl, nofun⟩
  | some found =>
      refine (Program.onlyProbes_firstReachable _ _).bind_tells fun reached => ?_
      cases reached with
      | some relative => exact ⟨rfl, nofun⟩
      | none =>
          dsimp only
          split
          · exact ⟨rfl, nofun⟩
          · rename_i hcatchAll
            refine fun _ => ⟨rfl, fun missing hmissing => ?_⟩
            obtain rfl := Option.some.inj hmissing
            exact ⟨found.1, found.2, hmatch, eq_false_of_ne_true hcatchAll, rfl⟩

theorem AliasTable.tells_resolveAll (table : AliasTable) (file : Path)
    (occurrences : List Occurrence) :
    (table.resolveAll file occurrences).Tells fun told findings =>
      let missing := findings.filterMap fun finding => finding.1.unresolved? finding.2
      told = unresolvedEvents file missing ∧ ∀ missed ∈ missing, table.Misses missed := by
  induction occurrences with
  | nil => exact ⟨rfl, nofun⟩
  | cons occurrence others ih =>
      refine (table.tells_resolve occurrence file).bind ?_
      rintro _ resolution ⟨rfl, hfirst⟩
      refine ih.map ?_
      rintro _ findings ⟨rfl, hothers⟩
      dsimp only at hothers ⊢
      rw [List.filterMap_cons]
      cases hunresolved : occurrence.unresolved? resolution with
      | none => exact ⟨rfl, hothers⟩
      | some missing =>
          exact ⟨rfl, List.forall_mem_cons.mpr ⟨hfirst missing hunresolved, hothers⟩⟩

theorem AliasTable.tells_rewire (table : AliasTable) (text : String) (file : Path) :
    (table.rewire text file).Tells fun told rewired =>
      told = unresolvedEvents file rewired.unresolved ∧
        ∀ missing ∈ rewired.unresolved, table.Misses missing :=
  (table.tells_resolveAll file (occurrences text)).map fun _ _ => id

/-! ## The work on one file -/

/-- The warning or the failure about what became of a file, if it failed. -/
def FileOutcome.events (outcome : FileOutcome) : List Event :=
  outcome.fault?.toList.map FileFault.event

/-- The events that go with a report: one for each unresolved import, then the one about the
fault. -/
def FileReport.events (report : FileReport) : List Event :=
  unresolvedEvents report.path report.unresolved ++ report.outcome.events

/-- Whether all unresolved imports of a report are missed by an alias other than the catch-all
one. -/
def FileReport.IsMissed (table : AliasTable) (report : FileReport) : Prop :=
  ∀ missing ∈ report.unresolved, table.Misses missing

theorem Program.tells_fail (fault : FileFault) :
    (Program.fail fault).Tells fun told outcome => told = outcome.events :=
  fun _ => rfl

/-- A fault that ends the work before any import is resolved. -/
theorem Program.tells_fail_report (table : AliasTable) (path : Path) (fault : FileFault) :
    (Program.fail fault >>= fun outcome => pure (⟨path, outcome, []⟩ : FileReport)).Tells
      fun told report => told = report.events ∧ report.IsMissed table :=
  (Program.tells_fail fault).map fun _ _ htold => ⟨htold, nofun⟩

namespace RunConfig

variable (config : RunConfig) (path : Path)

theorem tells_settle (rewired : Rewired) :
    (config.settle path rewired).Tells fun told outcome => told = outcome.events := by
  unfold settle
  split
  · exact rfl
  split
  · exact rfl
  intro reply
  cases reply with
  | ok => exact rfl
  | error cause => exact Program.tells_fail _

theorem tells_processContent (content : ByteArray) :
    (config.processContent path content).Tells fun told report =>
      told = report.events ∧ report.IsMissed config.aliases := by
  unfold processContent
  split
  · exact Program.tells_fail_report config.aliases path _
  · rename_i text _
    refine (config.aliases.tells_rewire text path).bind ?_
    rintro _ rewired ⟨rfl, hmissed⟩
    refine (config.tells_settle path rewired).map ?_
    rintro _ outcome rfl
    exact ⟨rfl, hmissed⟩

theorem tells_processFile :
    (config.processFile path).Tells fun told taskEnd =>
      match taskEnd with
      | .ok report => told = report.events ∧ report.IsMissed config.aliases
      | .error _ => told = [] := by
  intro reply
  cases reply with
  | content content => exact (config.tells_processContent path content).map fun _ _ => id
  | failed cause => exact (Program.tells_fail _).map fun _ _ htold => ⟨htold, nofun⟩
  | crashed message => exact rfl

/-- **What the work on a file tells.**  Whatever its requests are answered, it tells the events of
the report that it ends in. -/
theorem tells_isolateFile :
    (config.isolateFile path).Tells fun told taskEnd =>
      ∃ report, taskEnd = .ok report ∧ told = report.events ∧
        report.IsMissed config.aliases := by
  refine (config.tells_processFile path).bind fun told taskEnd hprocessed => ?_
  cases taskEnd with
  | ok report =>
      obtain ⟨rfl, hmissed⟩ := hprocessed
      exact ⟨report, rfl, List.append_nil _, hmissed⟩
  | error message =>
      obtain rfl : told = [] := hprocessed
      exact (Program.tells_fail _).map fun _ outcome htold => ⟨_, rfl, htold, nofun⟩

end RunConfig
end Dealias
