import Dealias.Options.Json
import Dealias.Proofs.Json.Printing

/-!
# Run options through JSON

Run options that are written as JSON are read back as they were, and what is read of any text can
be written and read again.

## Strategy

Every field has a reader that takes back what is written of its values; only the concurrency has a
bound, for a number is read if it fits 64 bits.  The members stand in the order of the fields, so
the fields are taken one after the other (`RunOptions.readMembers_toValue`).

The bound is kept by whatever is read, from an object or from an array
(`RunOptions.concurrency_le_of_ofText`), so what was read can be written and read again.
-/

namespace Dealias

open Json

/-! ## The fields -/

theorem inverts_path : Reader.Inverts Json.path fun path => .text path.text := by
  intro path
  exact map_eq_ok_iff.mpr ⟨path.text, inverts_text path.text, rfl⟩

theorem inverts_optionalPath : Reader.Inverts (optional Json.path) optionalPathValue := by
  intro path
  cases path with
  | none => rfl
  | some path => exact map_eq_ok_iff.mpr ⟨path, inverts_path path, rfl⟩

theorem inverts_aliasMap : Reader.Inverts aliasMap aliasMapValue :=
  inverts_text.list.dictionary

theorem RunOptions.isRegular_read : Reader.IsRegular RunOptions.shape.read := by
  have hoptional := isRegular_optional isRegular_path
  have hpaths := isRegular_dictionary (isRegular_list isRegular_text)
  apply RecordShape.isRegular_read
  intro field hfield
  simp only [RunOptions.shape, RunOptionsDraft.fields, List.mem_cons, List.not_mem_nil, or_false]
    at hfield
  rcases hfield with rfl | rfl | rfl | rfl | rfl | rfl | rfl
  · exact Field.isRegular_make isRegular_path _ _ _ _
  · exact Field.isRegular_make isRegular_path _ _ _ _
  · exact Field.isRegular_make hoptional _ _ _ _
  · exact Field.isRegular_make hoptional _ _ _ _
  · exact Field.isRegular_make hpaths _ _ _ _
  · exact Field.isRegular_make isRegular_natural _ _ _ _
  · exact Field.isRegular_make isRegular_flag _ _ _ _

/-! ## Reading what was written -/

/-- The draft of run options when all fields are read. -/
def RunOptionsDraft.full (options : RunOptions) : RunOptionsDraft where
  projectDir := some options.projectDir
  outDir := some options.outDir
  baseUrl := some options.baseUrl
  rootDir := some options.rootDir
  paths := some options.paths
  concurrency := some options.concurrency
  dryRun := some options.dryRun

/-- The members that are written are taken by the fields, one after the other. -/
theorem RunOptions.readMembers_toValue {options : RunOptions}
    (hconcurrency : options.concurrency ≤ maxNatural) :
    ∃ members, options.toValue = .record members ∧
      RunOptions.shape.readMembers (memberTrees members) RunOptionsDraft.blank =
        .ok (RunOptionsDraft.full options) := by
  refine ⟨_, rfl, ?_⟩
  apply RecordShape.readMembers_memberTrees rfl rfl (inverts_path options.projectDir)
  apply RecordShape.readMembers_memberTrees rfl rfl (inverts_path options.outDir)
  apply RecordShape.readMembers_memberTrees rfl rfl (inverts_optionalPath options.baseUrl)
  apply RecordShape.readMembers_memberTrees rfl rfl (inverts_optionalPath options.rootDir)
  apply RecordShape.readMembers_memberTrees rfl rfl (inverts_aliasMap options.paths)
  apply RecordShape.readMembers_memberTrees rfl rfl (natural_tree hconcurrency)
  apply RecordShape.readMembers_memberTrees rfl rfl (inverts_flag options.dryRun)
  rfl

theorem RunOptions.ofText_toText_of_le {options : RunOptions}
    (hconcurrency : options.concurrency ≤ maxNatural) :
    RunOptions.ofText options.toText = .ok options := by
  obtain ⟨members, hvalue, hmembers⟩ := readMembers_toValue hconcurrency
  have hread : RunOptions.shape.read options.toValue.tree.node = .ok options := by
    rw [hvalue]
    apply RecordShape.read_object_eq_ok_iff.mpr
    exact ⟨RunOptionsDraft.full options, hmembers, rfl⟩
  exact (readText_compact RunOptions.isRegular_read options.toValue).mpr hread

/-! ## The bound -/

/-- Whether the concurrency, if it is there, fits 64 bits. -/
def RunOptionsDraft.IsBounded (draft : RunOptionsDraft) : Prop :=
  ∀ concurrency, draft.concurrency = some concurrency → concurrency ≤ maxNatural

theorem RunOptionsDraft.keeps_isBounded :
    ∀ field ∈ RunOptions.shape.fields, RecordShape.Keeps RunOptionsDraft.IsBounded field := by
  intro field hfield node before behind hread hbefore
  simp only [RunOptions.shape, RunOptionsDraft.fields, List.mem_cons, List.not_mem_nil, or_false]
    at hfield
  rcases hfield with rfl | rfl | rfl | rfl | rfl | rfl | rfl
  case inr.inr.inr.inr.inr.inl =>
      obtain ⟨value, hvalue, hset⟩ := map_eq_ok_iff.mp hread
      intro concurrency hconcurrency
      rw [← hset] at hconcurrency
      exact Option.some.inj hconcurrency ▸ le_of_natural hvalue
  -- the other fields leave the concurrency as it is
  all_goals
    obtain ⟨value, -, hset⟩ := map_eq_ok_iff.mp hread
    rw [← hset]
    exact hbefore

theorem RunOptionsDraft.concurrency_of_complete? {draft : RunOptionsDraft} {options : RunOptions}
    (hcomplete : draft.complete? = some options) :
    draft.concurrency = some options.concurrency := by
  simp only [complete?, Option.bind_eq_bind, Option.bind_eq_some_iff] at hcomplete
  obtain ⟨projectDir, -, outDir, -, paths, -, concurrency, hconcurrency, dryRun, -, hoptions⟩ :=
    hcomplete
  rw [hconcurrency, ← Option.some.inj hoptions]

/-- A concurrency that is read fits 64 bits. -/
theorem RunOptions.concurrency_le_of_ofText {text : String} {options : RunOptions}
    (hread : RunOptions.ofText text = .ok options) : options.concurrency ≤ maxNatural := by
  have hblank : RunOptionsDraft.IsBounded RunOptionsDraft.blank := nofun
  have hroot : RunOptions.shape.read (Document.ofText text).root = .ok options :=
    (Document.read_eq_ok_iff.mp hread).1
  obtain ⟨draft, hdraft, hcomplete⟩ :=
    RecordShape.exists_of_read RunOptionsDraft.keeps_isBounded hblank hroot
  exact hdraft options.concurrency (RunOptionsDraft.concurrency_of_complete? hcomplete)

/-! ## There and back -/

/-- **Run options survive JSON.**  Run options whose concurrency fits 64 bits, and no others, are
read back from what is written of them: every text with each of its characters, what is set and
what is not, and the alias map with its patterns and targets in their order.  What is read of any
text, whatever the order of its members and however it spells them, is the same when it is written
and read again. -/
theorem RunOptions.ofText_toText :
    (∀ options : RunOptions, RunOptions.ofText options.toText = .ok options ↔
      options.concurrency ≤ maxNatural) ∧
    ∀ text options, RunOptions.ofText text = .ok options →
      RunOptions.ofText options.toText = .ok options := by
  constructor
  · intro options
    constructor
    · intro hread
      exact concurrency_le_of_ofText hread
    · intro hconcurrency
      exact ofText_toText_of_le hconcurrency
  · intro text options hread
    have hconcurrency := concurrency_le_of_ofText hread
    exact ofText_toText_of_le hconcurrency

/-- Run options with members in another order, a member that no field is for, a pattern that comes
twice, and escapes of all kinds. -/
def RunOptions.textSample : String :=
  "\x7b\"outDir\":\"dist\",\"other\":[null],\"projectDir\":\"/p \\\"\\\\\\n\\u0001\\u00e9\"," ++
    "\"paths\":\x7b\"b*\":[\"x\"],\"a\":[],\"b*\":[\"y\",\"\\ud83d\\ude00\"]\x7d," ++
    "\"concurrency\": 18446744073709551615, \"dryRun\":true\x7d"

/-- The same run options as they are written. -/
def RunOptions.writtenSample : String :=
  "\x7b\"projectDir\":\"/p \\\"\\\\\\n\\u0001é\",\"outDir\":\"dist\",\"baseUrl\":null," ++
    "\"rootDir\":null,\"paths\":\x7b\"b*\":[\"y\",\"😀\"],\"a\":[]\x7d," ++
    "\"concurrency\":18446744073709551615,\"dryRun\":true\x7d"

/-- Run options are read, written and read again; with one more than the largest number they are
not. -/
theorem RunOptions.ofText_toText_sample :
    ∃ options, RunOptions.ofText RunOptions.textSample = .ok options ∧
      options.toText = RunOptions.writtenSample ∧
      RunOptions.ofText RunOptions.writtenSample = .ok options ∧
      RunOptions.ofText ({ options with concurrency := maxNatural + 1 }).toText ≠
        .ok { options with concurrency := maxNatural + 1 } := by
  have hsample : (RunOptions.ofText RunOptions.textSample).toOption.map RunOptions.toText =
      some RunOptions.writtenSample := by
    decide +kernel
  obtain ⟨options, hread, hwritten⟩ := exists_of_map_toOption hsample
  have hagain := RunOptions.ofText_toText.2 RunOptions.textSample options hread
  have hlarge := RunOptions.ofText_toText.1 { options with concurrency := maxNatural + 1 }
  refine ⟨options, hread, hwritten, hwritten ▸ hagain, fun hlargeRead => ?_⟩
  have hle : maxNatural + 1 ≤ maxNatural := hlarge.mp hlargeRead
  omega

end Dealias
