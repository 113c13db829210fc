import Dealias.Proofs.Json.Records
import Dealias.Proofs.OrderedMap
import Dealias.Proofs.Project.Relaxed

/-!
# Members of project files

A project file is a record with a record within: the compiler options.  In both only the members
that fields are for count, and neither order nor other members change what is read.  The alias map
in the compiler options has the keys as they were written first, with the targets written last.

* `Project.readMembers_of_extends`: what is the same for the fields is read alike.
* `CompilerOptions.exists_paths`: what is read of an alias map.
* `Project.ofText_members`: both, said of texts.
-/

namespace Dealias

open Json

/-! ## The fields -/

theorem CompilerOptions.isIndependent : CompilerOptions.shape.IsIndependent where
  isKept := by
    intro field hfield
    simp only [CompilerOptions.shape, CompilerOptionsDraft.fields, List.mem_cons,
      List.not_mem_nil, or_false] at hfield
    rcases hfield with rfl | rfl | rfl | rfl <;> exact Field.isKept_make fun _ _ => rfl
  commutes := by
    intro first hfirst second hsecond hname
    simp only [CompilerOptions.shape, CompilerOptionsDraft.fields, List.mem_cons,
      List.not_mem_nil, or_false] at hfirst hsecond
    rcases hfirst with rfl | rfl | rfl | rfl <;> rcases hsecond with rfl | rfl | rfl | rfl <;>
      first
        | exact absurd rfl hname
        | exact Field.commutes_make (fun _ _ => rfl) (fun _ _ => rfl) fun _ _ _ => rfl

theorem CompilerOptions.holds_paths :
    CompilerOptions.shape.Holds "paths" (optional aliasMap) CompilerOptionsDraft.paths := by
  refine RecordShape.holds_make rfl (fun _ _ => rfl) ?_
  intro field hfield hname node before behind htakes
  simp only [CompilerOptions.shape, CompilerOptionsDraft.fields, List.mem_cons,
    List.not_mem_nil, or_false] at hfield
  rcases hfield with rfl | rfl | rfl | rfl
  · obtain ⟨-, _, -, rfl⟩ := Field.takes_make_iff.mp htakes
    rfl
  · obtain ⟨-, _, -, rfl⟩ := Field.takes_make_iff.mp htakes
    rfl
  · obtain ⟨-, _, -, rfl⟩ := Field.takes_make_iff.mp htakes
    rfl
  · exact absurd rfl hname

theorem Project.isIndependent : Project.shape.IsIndependent where
  isKept := by
    intro field hfield
    simp only [Project.shape, ProjectDraft.fields, List.mem_cons, List.not_mem_nil, or_false]
      at hfield
    rcases hfield with rfl | rfl <;> exact Field.isKept_make fun _ _ => rfl
  commutes := by
    intro first hfirst second hsecond hname
    simp only [Project.shape, ProjectDraft.fields, List.mem_cons, List.not_mem_nil, or_false]
      at hfirst hsecond
    rcases hfirst with rfl | rfl <;> rcases hsecond with rfl | rfl <;>
      first
        | exact absurd rfl hname
        | exact Field.commutes_make (fun _ _ => rfl) (fun _ _ => rfl) fun _ _ _ => rfl

theorem Project.holds_compilerOptions :
    Project.shape.Holds "compilerOptions" CompilerOptions.shape.read
      ProjectDraft.compilerOptions := by
  refine RecordShape.holds_make rfl (fun _ _ => rfl) ?_
  intro field hfield hname node before behind htakes
  simp only [Project.shape, ProjectDraft.fields, List.mem_cons, List.not_mem_nil, or_false]
    at hfield
  rcases hfield with rfl | rfl
  · exact absurd rfl hname
  · obtain ⟨-, _, -, rfl⟩ := Field.takes_make_iff.mp htakes
    rfl

/-! ## Alias maps -/

/-- Whether an entry of an alias map is written with a pattern and its targets. -/
def IsAliasEntry (entry : Literal × Tree) (pair : String × List String) : Prop :=
  entry.1.reading = .ok pair.1 ∧ ∃ items hasComma, entry.2 = .array items hasComma ∧
    List.Forall₂ (fun item target => ∃ literal, item = .scalar (.text literal) ∧
      literal.reading = .ok target) items pair.2

theorem exists_of_text_node {tree : Tree} {target : String} (hread : Json.text tree.node = .ok target) :
    ∃ literal, tree = .scalar (.text literal) ∧ literal.reading = .ok target := by
  cases tree with
  | array | object => cases hread
  | scalar value =>
      cases value with
      | text literal => exact ⟨literal, rfl, hread⟩
      | _ => cases hread

theorem isAliasEntry_of_entry {member : Literal × Tree} {pair : String × List String}
    (hread : entry (list Json.text) (⟨member.1.reading, 0⟩, member.2.node) = .ok pair) :
    IsAliasEntry member pair := by
  obtain ⟨key, hkey, hread⟩ := bind_eq_ok_iff.mp hread
  obtain ⟨targets, htargets, hread⟩ := bind_eq_ok_iff.mp hread
  cases hread
  refine ⟨hkey, ?_⟩
  cases hvalue : member.2 with
  | scalar value =>
      rw [hvalue] at htargets
      cases value <;> cases htargets
  | object members hasComma =>
      rw [hvalue] at htargets
      cases htargets
  | array items hasComma =>
      rw [hvalue] at htargets
      obtain ⟨values, hvalues, hread⟩ := bind_eq_ok_iff.mp htargets
      cases hread
      rw [itemNodes_eq_map, mapM_eq_ok_iff, List.forall₂_map_left_iff] at hvalues
      exact ⟨items, hasComma, rfl, hvalues.imp fun _ _ => exists_of_text_node⟩

/-- An alias map has the entries that are written, each pattern with its last targets and at its
first place. -/
theorem exists_entries {entries : List (Literal × Tree)} {hasComma : Bool}
    {map : OrderedMap (List String)}
    (hread : aliasMap (Tree.object entries hasComma).node = .ok map) :
    ∃ pairs, List.Forall₂ IsAliasEntry entries pairs ∧
      map.keys = (pairs.map Prod.fst).eraseDups ∧
      ∀ key, map.get? key = pairs.reverse.lookup key := by
  obtain ⟨pairs, hpairs, hread⟩ := bind_eq_ok_iff.mp hread
  cases hread
  rw [memberNodes_eq_map, mapM_eq_ok_iff, List.forall₂_map_left_iff] at hpairs
  exact ⟨pairs, hpairs.imp fun _ _ => isAliasEntry_of_entry, OrderedMap.keys_ofList pairs,
    OrderedMap.get?_ofList pairs⟩

/-- Whether a member is the alias map of compiler options, with the given entries. -/
def CompilerOptions.HasPaths (members entries : List (Literal × Tree)) : Prop :=
  ∃ key hasComma, (key, Tree.object entries hasComma) ∈ members ∧ key.reading = .ok "paths"

/-- Whether a project file has an alias map, with the given entries. -/
def Project.HasPaths (members entries : List (Literal × Tree)) : Prop :=
  ∃ key options hasComma, (key, Tree.object options hasComma) ∈ members ∧
    key.reading = .ok "compilerOptions" ∧ CompilerOptions.HasPaths options entries

theorem CompilerOptions.exists_paths {members entries : List (Literal × Tree)} {hasComma : Bool}
    {options : CompilerOptions}
    (hread : CompilerOptions.shape.read (Tree.object members hasComma).node = .ok options)
    (hpaths : CompilerOptions.HasPaths members entries) :
    ∃ map entriesComma, options.paths = some map ∧
      aliasMap (Tree.object entries entriesComma).node = .ok map := by
  obtain ⟨draft, hdraft, hcomplete⟩ := RecordShape.read_object_eq_ok_iff.mp hread
  obtain ⟨key, entriesComma, hmember, hkey⟩ := hpaths
  obtain ⟨held, hheld, hget⟩ :=
    CompilerOptions.holds_paths.exists_of_mem rfl hdraft hmember hkey
  obtain ⟨map, hmap, rfl⟩ := map_eq_ok_iff.mp hheld
  obtain rfl := Option.some.inj hcomplete
  refine ⟨map, entriesComma, ?_, hmap⟩
  change draft.paths.join = some map
  rw [hget]
  rfl

theorem Project.exists_paths {members entries : List (Literal × Tree)} {hasComma : Bool}
    {project : Project} (hread : Project.shape.read (Tree.object members hasComma).node = .ok project)
    (hpaths : Project.HasPaths members entries) :
    ∃ map pairs, project.compilerOptions.paths = some map ∧
      List.Forall₂ IsAliasEntry entries pairs ∧ map.keys = (pairs.map Prod.fst).eraseDups ∧
      ∀ key, map.get? key = pairs.reverse.lookup key := by
  obtain ⟨draft, hdraft, hcomplete⟩ := RecordShape.read_object_eq_ok_iff.mp hread
  obtain ⟨key, options, optionsComma, hmember, hkey, hpaths⟩ := hpaths
  obtain ⟨held, hheld, hget⟩ :=
    Project.holds_compilerOptions.exists_of_mem rfl hdraft hmember hkey
  obtain ⟨map, entriesComma, hmap, hentries⟩ := CompilerOptions.exists_paths hheld hpaths
  obtain ⟨pairs, hpairs, hkeys, hvalues⟩ := exists_entries hentries
  obtain rfl := Option.some.inj hcomplete
  refine ⟨map, pairs, ?_, hpairs, hkeys, hvalues⟩
  change (draft.compilerOptions.getD .empty).paths = some map
  rw [hget]
  exact hmap

/-! ## Files that are the same for the fields -/

/-- Whether members have the same key, and the same value or compiler options that are the same for
the fields but for what is added. -/
def Project.AlikeMember (member other : Literal × Tree) : Prop :=
  member.1 = other.1 ∧ (member.2 = other.2 ∨
    member.1.reading = .ok "compilerOptions" ∧ ∃ options others hasComma otherComma,
      member.2 = .object options hasComma ∧ other.2 = .object others otherComma ∧
        CompilerOptions.shape.Extends options others)

/-- Whether members of a project file are given ones in any order, and others that no field is for;
and so within compiler options. -/
def Project.Extends (members others : List (Literal × Tree)) : Prop :=
  ∃ middle, List.Forall₂ Project.AlikeMember members middle ∧ Project.shape.Extends middle others

theorem Project.AlikeMember.readMember_iff {member other : Literal × Tree}
    (halike : Project.AlikeMember member other) (before behind : ProjectDraft) :
    Project.shape.readMember before (⟨member.1.reading, 0⟩, member.2.node) = .ok behind ↔
      Project.shape.readMember before (⟨other.1.reading, 0⟩, other.2.node) = .ok behind := by
  obtain ⟨hkey, hsame | ⟨hoptions, options, others, hasComma, otherComma, hmember, hother,
    hextends⟩⟩ := halike
  · rw [hkey, hsame]
  · rw [← hkey]
    apply RecordShape.readMember_iff_of_alike
    · rw [member.2.fault?_node, other.2.fault?_node]
    · intro name field hname hfield before behind
      obtain rfl : "compilerOptions" = name := Except.ok.inj (hoptions.symm.trans hname)
      obtain rfl := Option.some.inj hfield
      have hread (value : CompilerOptions) :
          CompilerOptions.shape.read member.2.node = .ok value ↔
            CompilerOptions.shape.read other.2.node = .ok value := by
        rw [hmember, hother]
        exact hextends.read_eq_ok_iff CompilerOptions.isIndependent
      change (CompilerOptions.shape.read member.2.node).map _ = _ ↔
        (CompilerOptions.shape.read other.2.node).map _ = _
      rw [map_eq_ok_iff, map_eq_ok_iff]
      simp only [hread]

theorem Project.Extends.read_eq_ok_iff {members others : List (Literal × Tree)}
    (hextends : Project.Extends members others) {hasComma otherComma : Bool} {project : Project} :
    Project.shape.read (Tree.object members hasComma).node = .ok project ↔
      Project.shape.read (Tree.object others otherComma).node = .ok project := by
  obtain ⟨middle, halike, hextends⟩ := hextends
  have hmiddle (draft : ProjectDraft) :
      Project.shape.readMembers members Project.shape.blank = .ok draft ↔
        Project.shape.readMembers middle Project.shape.blank = .ok draft := by
    rw [RecordShape.readMembers, RecordShape.readMembers, memberNodes_eq_map, memberNodes_eq_map]
    apply foldlM_eq_ok_iff_of_forall₂
    rw [List.forall₂_map_left_iff, List.forall₂_map_right_iff]
    exact halike.imp fun _ _ hmember => hmember.readMember_iff
  calc Project.shape.read (Tree.object members hasComma).node = .ok project
      ↔ Project.shape.read (Tree.object middle hasComma).node = .ok project := by
        rw [RecordShape.read_object_eq_ok_iff, RecordShape.read_object_eq_ok_iff]
        simp only [hmiddle]
    _ ↔ Project.shape.read (Tree.object others otherComma).node = .ok project :=
        hextends.read_eq_ok_iff Project.isIndependent

/-! ## Texts -/

/-- A loose text is read as the tree that it is written for. -/
theorem Project.ofText_eq_ok_iff_read {tree : Tree} {text : String} (hloose : IsLooseJson tree text)
    {origin : Path} {project : Project} :
    Project.ofText text origin = .ok project ↔ Project.shape.read tree.node = .ok project := by
  rw [Project.ofText_eq_ok_iff]
  exact hloose.isJson_strictText.readText_eq_ok_iff Project.isRegular_read

namespace Json

theorem isLooseJson_of_eq {tree : Tree} {text : String}
    (htext : text.toList = tree.symbols.flatMap Symbol.characters) : IsLooseJson tree text := by
  rw [IsLooseJson, htext]
  exact (written_flatMap _).relaxed_of_strict.loose_of_relaxed

end Json

/-- **Only fields count.**  Neither the order of members nor members that no field is for, at the
top or within the compiler options, change what a project file is read as or that it is refused.
What is read of its alias map are all patterns in the order in which they came first, each with the
targets that came last, in their order. -/
theorem Project.ofText_members {members others : List (Literal × Tree)} {hasComma otherComma : Bool}
    {text other : String} (htext : IsLooseJson (.object members hasComma) text)
    (hother : IsLooseJson (.object others otherComma) other)
    (hextends : Project.Extends members others) (origin : Path) (project : Project) :
    (Project.ofText text origin = .ok project ↔ Project.ofText other origin = .ok project) ∧
      ∀ entries, Project.HasPaths members entries → Project.ofText text origin = .ok project →
        ∃ map pairs, project.compilerOptions.paths = some map ∧
          List.Forall₂ IsAliasEntry entries pairs ∧ map.keys = (pairs.map Prod.fst).eraseDups ∧
          ∀ key, map.get? key = pairs.reverse.lookup key := by
  constructor
  · rw [Project.ofText_eq_ok_iff_read htext, Project.ofText_eq_ok_iff_read hother]
    exact hextends.read_eq_ok_iff
  · intro entries hpaths hread
    exact Project.exists_paths ((Project.ofText_eq_ok_iff_read htext).mp hread) hpaths

namespace Json

/-- Whether a character may stand between quotes as it is. -/
def isPlainCharacter (character : Char) : Bool :=
  character != '"' && character != '\\' && 0x20 ≤ character.toNat

theorem IsBody.of_plain {body : List Char} (hbody : body.all isPlainCharacter = true) :
    IsBody body := by
  induction body with
  | nil => exact .nil
  | cons character body ih =>
      rw [List.all_cons, Bool.and_eq_true] at hbody
      obtain ⟨hcharacter, hbody⟩ := hbody
      simp only [isPlainCharacter, Bool.and_eq_true, bne_iff_ne, decide_eq_true_eq] at hcharacter
      exact .plain hcharacter.1.1 hcharacter.1.2 hcharacter.2 (ih hbody)

/-- A text without escapes. -/
def Literal.plain (body : List Char) (hbody : body.all isPlainCharacter = true := by decide) :
    Literal where
  body := body
  isBody := .of_plain hbody

/-- The key of compiler options. -/
def Literal.compilerOptions : Literal :=
  .plain ['c', 'o', 'm', 'p', 'i', 'l', 'e', 'r', 'O', 'p', 't', 'i', 'o', 'n', 's']

/-- A key that no field is for. -/
def Literal.other : Literal :=
  .plain ['z']

theorem Literal.reading_compilerOptions : Literal.compilerOptions.reading = .ok "compilerOptions" := by
  rfl

theorem Literal.reading_other : Literal.other.reading = .ok "z" := by
  rfl

/-- Compiler options with an alias map of two patterns, one of which comes twice. -/
def optionsSample : List (Literal × Tree) := [
  (.plain ['p', 'a', 't', 'h', 's'], .object [
    (.plain ['a'], .array [.scalar (.text (.plain ['x']))] false),
    (.plain ['b'], .array [] false),
    (.plain ['a'], .array [.scalar (.text (.plain ['y']))] false)] false)]

/-- A half of a pair of code units. -/
def Literal.surrogate : Literal where
  body := ['\\', 'u', 'd', '8', '0', '0']
  isBody := .code (isHexDigit_of_isSome rfl) (isHexDigit_of_isSome rfl) (isHexDigit_of_isSome rfl)
    (isHexDigit_of_isSome rfl) .nil

end Json

/-- Members that no field is for, before the compiler options and in them. -/
theorem Project.ofText_members_sample :
    ∃ project,
      Project.ofText ("\x7b\"compilerOptions\":\x7b" ++
        "\"paths\":\x7b\"a\":[\"x\"],\"b\":[],\"a\":[\"y\"]\x7d\x7d\x7d")
        ⟨"tsconfig.json"⟩ = .ok project ∧
      Project.ofText ("\x7b\"z\":[null],\"compilerOptions\":\x7b\"z\":\x7b\x7d,\"z\":true," ++
        "\"paths\":\x7b\"a\":[\"x\"],\"b\":[],\"a\":[\"y\"]\x7d\x7d\x7d")
        ⟨"tsconfig.json"⟩ = .ok project ∧
      project.compilerOptions.paths.map OrderedMap.keys = some ["a", "b"] := by
  have hread : (Project.ofText ("\x7b\"compilerOptions\":\x7b" ++
      "\"paths\":\x7b\"a\":[\"x\"],\"b\":[],\"a\":[\"y\"]\x7d\x7d\x7d")
      ⟨"tsconfig.json"⟩).toOption.map (fun project =>
        project.compilerOptions.paths.map OrderedMap.keys) = some (some ["a", "b"]) := by
    decide +kernel
  obtain ⟨project, hproject, hkeys⟩ := exists_of_map_toOption hread
  have htext : IsLooseJson (.object [(.compilerOptions, .object optionsSample false)] false)
      ("\x7b\"compilerOptions\":\x7b" ++
        "\"paths\":\x7b\"a\":[\"x\"],\"b\":[],\"a\":[\"y\"]\x7d\x7d\x7d") :=
    isLooseJson_of_eq (by decide +kernel)
  have hother : IsLooseJson (.object [(.other, .array [.scalar .null] false),
      (.compilerOptions, .object ([(.other, .object [] false), (.other, .scalar (.flag true))] ++
        optionsSample) false)] false)
      ("\x7b\"z\":[null],\"compilerOptions\":\x7b\"z\":\x7b\x7d,\"z\":true," ++
        "\"paths\":\x7b\"a\":[\"x\"],\"b\":[],\"a\":[\"y\"]\x7d\x7d\x7d") :=
    isLooseJson_of_eq (by decide +kernel)
  have hextends : Project.Extends [(.compilerOptions, .object optionsSample false)]
      [(.other, .array [.scalar .null] false),
        (.compilerOptions, .object ([(.other, .object [] false), (.other, .scalar (.flag true))] ++
          optionsSample) false)] := by
    have hoptions : CompilerOptions.shape.Extends optionsSample
        ([(.other, .object [] false), (.other, .scalar (.flag true))] ++ optionsSample) := by
      refine ⟨_, List.perm_append_comm, ?_⟩
      simp [RecordShape.Ignores, Literal.reading_other, CompilerOptions.shape,
        CompilerOptionsDraft.fields, Field.make]
    have halike : Project.AlikeMember (.compilerOptions, .object optionsSample false)
        (.compilerOptions, .object
          ([(.other, .object [] false), (.other, .scalar (.flag true))] ++ optionsSample) false) :=
      ⟨rfl, .inr ⟨Literal.reading_compilerOptions, _, _, _, _, rfl, rfl, hoptions⟩⟩
    refine ⟨_, .cons halike .nil, [(.other, .array [.scalar .null] false)], List.Perm.swap .., ?_⟩
    simp [RecordShape.Ignores, Literal.reading_other, Project.shape, ProjectDraft.fields, Field.make]
  obtain ⟨hsame, -⟩ := Project.ofText_members htext hother hextends ⟨"tsconfig.json"⟩ project
  exact ⟨project, hproject, hsame.mp hproject, hkeys⟩

/-- A key that is no text is refused, although no field is for it. -/
theorem Project.ofText_members_surrogate_sample :
    (∃ project, Project.ofText "\x7b\x7d" ⟨"tsconfig.json"⟩ = .ok project) ∧
      IsJson (.object [] false) "\x7b\x7d" ∧
      IsJson (.object [(.surrogate, .scalar .null)] false) "\x7b\"\\ud800\":null\x7d" ∧
      (∀ name, Literal.surrogate.reading ≠ .ok name) ∧
      ∀ project, Project.ofText "\x7b\"\\ud800\":null\x7d" ⟨"tsconfig.json"⟩ ≠ .ok project := by
  have hread : ((Project.ofText "\x7b\x7d" ⟨"tsconfig.json"⟩).toOption.map fun _ => ()) =
      some () := by
    decide +kernel
  have hrefused : ((Project.ofText "\x7b\"\\ud800\":null\x7d"
      ⟨"tsconfig.json"⟩).toOption.map fun _ => ()) = none := by
    decide +kernel
  obtain ⟨project, hproject, -⟩ := exists_of_map_toOption hread
  refine ⟨⟨project, hproject⟩, isJson_of_eq (by decide +kernel), isJson_of_eq (by decide +kernel),
    ?_, ?_⟩
  · intro name hname
    have hreading : Literal.surrogate.reading.toOption = none := by decide +kernel
    rw [hname] at hreading
    cases hreading
  · intro other hother
    rw [hother] at hrefused
    cases hrefused

end Dealias
