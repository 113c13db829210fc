import Dealias.Batch
import Mathlib.Data.List.Basic

/-!
# What programs ask

A program is a finite tree of requests.  `Program.Within asks ends` says that every request on every
branch satisfies `asks` and that every result satisfies `ends`, whatever the replies are.  It is
proved along the tree and composed with `Program.Within.bind`.

The programs of resolution only look (`Request.isLook`): they describe paths, use the cache and tell
events; those that only describe and use the cache (`Request.isProbe`) tell nothing.  From that,
`RunConfig.isolateFile_eq` gives the form of the work on one file: a read of that file, and behind
it nothing but looks and writes of that file, which end in a report about it, also when the read
crashes.
-/

namespace Dealias
namespace Program

variable {First Second : Type}

theorem bind_eq (program : Program First) (next : First → Program Second) :
    program >>= next = program.bind next := rfl

theorem pure_eq (result : First) : (pure result : Program First) = done result := rfl

/-- Running programs one after the other. -/
theorem run_bind {Store : Type} [FileStore Store] (program : Program First)
    (next : First → Program Second) (world : World Store) :
    (program.bind next).run world = (next (program.run world).1).run (program.run world).2 := by
  induction program generalizing world with
  | done result => rfl
  | ask request rest ih => exact ih _ _

/-- Running a single request. -/
theorem run_request {Store : Type} [FileStore Store] (request : Request) (world : World Store) :
    (Program.request request).run world = world.answer request := rfl

end Program

/-! ## Events -/

/-- The events that a request tells. -/
def Request.told : Request → List Event
  | emit event => [event]
  | _ => []

/-- A request tells its events and leaves the log alone otherwise. -/
theorem World.log_answer {Store : Type} [FileStore Store] (world : World Store)
    (request : Request) : (world.answer request).2.log = request.told ++ world.log := by
  cases request <;> rfl

namespace Program

variable {First Second : Type}

/-! ## Requests and results -/

/-- Whether all requests of a program satisfy one condition and all its results another, whatever
the replies are. -/
def Within (asks : Request → Prop) (ends : First → Prop) : Program First → Prop
  | done result => ends result
  | ask request next => asks request ∧ ∀ reply, (next reply).Within asks ends

variable {asks : Request → Prop} {ends : First → Prop}

theorem Within.mono {asks' : Request → Prop} {ends' : First → Prop} {program : Program First}
    (hprogram : program.Within asks ends) (hasks : ∀ request, asks request → asks' request)
    (hends : ∀ result, ends result → ends' result) : program.Within asks' ends' := by
  induction program with
  | done result => exact hends result hprogram
  | ask request next ih =>
      exact ⟨hasks request hprogram.1, fun reply => ih reply (hprogram.2 reply)⟩

/-- A program that goes on from the result of another. -/
theorem Within.bind {program : Program First} (hprogram : program.Within asks ends)
    {next : First → Program Second} {ends' : Second → Prop}
    (hnext : ∀ result, ends result → (next result).Within asks ends') :
    (program >>= next).Within asks ends' := by
  induction program with
  | done result => exact hnext result hprogram
  | ask request rest ih => exact ⟨hprogram.1, fun reply => ih reply (hprogram.2 reply)⟩

/-- What is said of all results of a program is said of the one that it runs to. -/
theorem Within.run {Store : Type} [FileStore Store] {program : Program First}
    (hprogram : program.Within asks ends) (world : World Store) : ends (program.run world).1 := by
  induction program generalizing world with
  | done result => exact hprogram
  | ask request next ih => exact ih _ (hprogram.2 _) _

/-- What is said of all requests of a program is said of the events that it tells. -/
theorem Within.log_run {Store : Type} [FileStore Store] {holds : Event → Prop}
    {program : Program First}
    (hprogram : program.Within (fun request => ∀ event ∈ request.told, holds event) ends)
    (world : World Store) :
    ∃ told, (program.run world).2.log = told ++ world.log ∧ ∀ event ∈ told, holds event := by
  induction program generalizing world with
  | done result => exact ⟨[], rfl, nofun⟩
  | ask request next ih =>
      obtain ⟨later, hlog, hlater⟩ := ih _ (hprogram.2 _) (world.answer request).2
      rw [World.log_answer, ← List.append_assoc] at hlog
      exact ⟨later ++ request.told, hlog, List.forall_mem_append.mpr ⟨hlater, hprogram.1⟩⟩

theorem within_request {request : Request} (hrequest : asks request) :
    (Program.request request).Within asks fun _ => True :=
  ⟨hrequest, fun _ => trivial⟩

end Program

/-! ## The programs of resolution -/

/-- Whether a request only looks: it describes a path, uses the cache or tells an event. -/
def Request.isLook : Request → Bool
  | describe _ => true
  | lookupProbe _ => true
  | storeProbe _ _ => true
  | lookupSpecifier _ _ => true
  | storeSpecifier _ _ _ => true
  | emit _ => true
  | _ => false

/-- Whether a request only probes: it looks and tells nothing. -/
def Request.isProbe : Request → Bool
  | emit _ => false
  | request => request.isLook

theorem Request.isLook_of_isProbe {request : Request} (hprobe : request.isProbe = true) :
    request.isLook = true := by
  cases request <;> first | rfl | exact hprobe

theorem Request.told_of_isProbe {request : Request} (hprobe : request.isProbe = true) :
    request.told = [] := by
  cases request <;> first | rfl | cases hprobe

namespace Program

/-- Whether a program only looks. -/
abbrev OnlyLooks {Result : Type} (program : Program Result) : Prop :=
  program.Within (fun request => request.isLook = true) fun _ => True

/-- Whether a program only probes. -/
abbrev OnlyProbes {Result : Type} (program : Program Result) : Prop :=
  program.Within (fun request => request.isProbe = true) fun _ => True

theorem onlyLooks_request {request : Request} (hlook : request.isLook = true) :
    (Program.request request).OnlyLooks :=
  within_request hlook

theorem onlyProbes_request {request : Request} (hprobe : request.isProbe = true) :
    (Program.request request).OnlyProbes :=
  within_request hprobe

theorem onlyProbes_isFile (path : Path) : (isFile path).OnlyProbes := by
  refine (onlyProbes_request rfl).bind fun reply _ => ?_
  cases reply <;> exact trivial

theorem onlyProbes_firstFile (paths : List Path) : (firstFile paths).OnlyProbes := by
  induction paths with
  | nil => exact trivial
  | cons path others ih =>
      refine (onlyProbes_isFile path).bind fun found _ => ?_
      cases found
      · exact ih
      · exact trivial

theorem onlyProbes_locate (candidate : Path) : (locate candidate).OnlyProbes := by
  refine (onlyProbes_request rfl).bind fun reply _ => ?_
  cases reply with
  | some found => exact trivial
  | none =>
      exact (onlyProbes_firstFile _).bind fun _ _ =>
        (onlyProbes_request rfl).bind fun _ _ => trivial

theorem onlyProbes_specifierFrom (directory target : Path) :
    (specifierFrom directory target).OnlyProbes := by
  refine (onlyProbes_request rfl).bind fun reply _ => ?_
  cases reply with
  | some specifier => exact trivial
  | none =>
      cases hspecifier : relativeSpecifier? directory target with
      | none => exact trivial
      | some specifier => exact (onlyProbes_request rfl).bind fun _ _ => trivial

theorem onlyProbes_firstReachable (directory : Path) (candidates : List Path) :
    (firstReachable directory candidates).OnlyProbes := by
  induction candidates with
  | nil => exact trivial
  | cons candidate others ih =>
      refine (onlyProbes_locate candidate).bind fun found _ => ?_
      cases found with
      | none => exact ih
      | some located =>
          refine (onlyProbes_specifierFrom directory candidate).bind fun specifier _ => ?_
          cases specifier
          · exact ih
          · exact trivial

theorem OnlyProbes.onlyLooks {Result : Type} {program : Program Result}
    (hprobes : program.OnlyProbes) : program.OnlyLooks :=
  hprobes.mono (fun _ => Request.isLook_of_isProbe) fun _ => id

end Program

theorem AliasTable.onlyLooks_resolve (table : AliasTable) (specifier : String) (file : Path) :
    (table.resolve specifier file).OnlyLooks := by
  unfold AliasTable.resolve
  cases table.match? specifier with
  | none => exact trivial
  | some found =>
      refine (Program.onlyProbes_firstReachable _ _).onlyLooks.bind fun reached _ => ?_
      cases reached with
      | some relative => exact trivial
      | none =>
          dsimp only
          split
          · exact trivial
          · exact (Program.onlyLooks_request rfl).bind fun _ _ => trivial

theorem AliasTable.onlyLooks_resolveAll (table : AliasTable) (file : Path)
    (occurrences : List Occurrence) : (table.resolveAll file occurrences).OnlyLooks := by
  induction occurrences with
  | nil => exact trivial
  | cons occurrence others ih =>
      exact (table.onlyLooks_resolve _ _).bind fun _ _ => ih.bind fun _ _ => trivial

theorem AliasTable.onlyLooks_rewire (table : AliasTable) (text : String) (file : Path) :
    (table.rewire text file).OnlyLooks :=
  (table.onlyLooks_resolveAll file _).bind fun _ _ => trivial

/-! ## The work on one file -/

/-- Whether a request belongs to the work on a file whose content is known: it looks, or it writes
that file. -/
def Request.Settles (path : Path) (request : Request) : Prop :=
  request.isLook = true ∨ ∃ content, request = .write path content

theorem Program.OnlyLooks.settles {Result : Type} {program : Program Result}
    (hlooks : program.OnlyLooks) (path : Path) :
    program.Within (Request.Settles path) fun _ => True :=
  hlooks.mono (fun _ => .inl) fun _ => id

theorem Program.within_fail (path : Path) (fault : FileFault) :
    (Program.fail fault).Within (Request.Settles path) (· = .failed fault) :=
  ⟨.inl rfl, fun _ => rfl⟩

theorem RunConfig.within_settle (config : RunConfig) (path : Path) (rewired : Rewired) :
    (config.settle path rewired).Within (Request.Settles path) fun _ => True := by
  unfold RunConfig.settle
  split
  · exact trivial
  split
  · exact trivial
  refine (Program.within_request (.inr ⟨_, rfl⟩)).bind fun reply _ => ?_
  cases reply with
  | ok => exact trivial
  | error cause => exact (Program.within_fail path _).mono (fun _ => id) fun _ _ => trivial

theorem RunConfig.within_processContent (config : RunConfig) (path : Path) (content : ByteArray) :
    (config.processContent path content).Within (Request.Settles path) (·.path = path) := by
  unfold RunConfig.processContent
  split
  · exact (Program.within_fail path _).bind fun _ _ => rfl
  · exact ((config.aliases.onlyLooks_rewire _ path).settles path).bind fun _ _ =>
      (config.within_settle path _).bind fun _ _ => rfl

/-- **The form of the work on one file.**  It reads the file.  Behind the read it asks nothing but
what settles that file, and it ends in a report about the file; if the read crashes, in the report
that the file crashed. -/
theorem RunConfig.isolateFile_eq (config : RunConfig) (path : Path) :
    ∃ next : ReadResult → Program TaskEnd, config.isolateFile path = .ask (.read path) next ∧
      (∀ reply, (next reply).Within (Request.Settles path)
        fun taskEnd => ∃ report, taskEnd = .ok report ∧ report.path = path) ∧
      ∀ message, (next (.crashed message)).Within (Request.Settles path)
        (· = .ok ⟨path, .failed (.crashed path message), []⟩) := by
  have hcrash : ∀ message, (Program.fail (.crashed path message) >>= fun outcome =>
      (pure (.ok ⟨path, outcome, []⟩) : Program TaskEnd)).Within (Request.Settles path)
        (· = .ok ⟨path, .failed (.crashed path message), []⟩) := by
    intro message
    refine (Program.within_fail path _).bind ?_
    rintro _ rfl
    exact rfl
  refine ⟨_, rfl, fun reply => ?_, hcrash⟩
  cases reply with
  | content content =>
      have hcontent : (config.processContent path content >>= fun report =>
          (pure (.ok report) : Program TaskEnd)).Within (Request.Settles path)
            fun taskEnd => ∃ report, taskEnd = .ok report ∧ report.path = path :=
        (config.within_processContent path content).bind fun report hreport =>
          ⟨report, rfl, hreport⟩
      refine hcontent.bind ?_
      rintro _ ⟨report, rfl, hreport⟩
      exact ⟨report, rfl, hreport⟩
  | failed cause =>
      exact ⟨.inl rfl, fun _ => ⟨_, rfl, rfl⟩⟩
  | crashed message =>
      exact (hcrash message).mono (fun _ => id) fun _ hend => ⟨_, hend, rfl⟩

/-- The work on one file ends in a report. -/
theorem RunConfig.run_isolateFile {Store : Type} [FileStore Store] (config : RunConfig)
    (path : Path) (world : World Store) :
    ∃ report, ((config.isolateFile path).run world).1 = .ok report := by
  obtain ⟨next, heq, hends, -⟩ := config.isolateFile_eq path
  rw [heq]
  obtain ⟨report, hreport, -⟩ :=
    (hends (world.answer (.read path)).1).run (world.answer (.read path)).2
  exact ⟨report, hreport⟩

end Dealias
