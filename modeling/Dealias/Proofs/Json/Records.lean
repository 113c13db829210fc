import Dealias.Proofs.Json.Building

/-!
# Members of records

Of an object that is read as a record only those members count whose keys are names of fields, and
their order does not matter.  What a field takes is kept until the end, for no other field changes
it and the field itself is taken once only.

* `Field.commutes_make`: fields that are held apart can be taken in any order.
* `RecordShape.swap_readMember`: so can members, whatever their keys are.
* `RecordShape.read_object_eq_ok_iff`: reading does not see order nor members that no field is for.
* `RecordShape.exists_of_mem`: what a field's member is read as is what the draft holds in the end.
* `RecordShape.exists_of_read`: what no field breaks holds in the end.
-/

namespace Dealias.Json

/-! ## Parts of trees -/

theorem itemNodes_eq_map (items : List Tree) : itemNodes items = items.map Tree.node := by
  induction items with
  | nil => rfl
  | cons item items ih => rw [itemNodes, ih, List.map_cons]

theorem memberNodes_eq_map (members : List (Literal × Tree)) :
    memberNodes members = members.map fun member => (⟨member.1.reading, 0⟩, member.2.node) := by
  induction members with
  | nil => rfl
  | cons member members ih =>
      rw [memberNodes, ih]
      rfl

/-! ## Taking fields -/

namespace Field

variable {Draft : Type}

/-- Whether a field that is not set yet is read from a value. -/
def Takes (field : Field Draft) (node : Node) (before behind : Draft) : Prop :=
  field.isSet before = false ∧ field.read before node = .ok behind

/-- Whether a field that was taken is set. -/
def IsKept (field : Field Draft) : Prop :=
  ∀ node before behind, field.Takes node before behind → field.isSet behind = true

/-- Whether two fields can be taken in any order. -/
def Commutes (first second : Field Draft) : Prop :=
  ∀ node other before middle behind, first.Takes node before middle →
    second.Takes other middle behind →
      ∃ between, second.Takes other before between ∧ first.Takes node between behind

section

variable {First Second : Type} {read : Reader First} {other : Reader Second} {name : String}
  {hasDefault : Bool} {get : Draft → Option First} {set : Draft → First → Draft}

theorem takes_make_iff {node : Node} {before behind : Draft} :
    (make name hasDefault read get set).Takes node before behind ↔
      get before = none ∧ ∃ value, read node = .ok value ∧ set before value = behind := by
  rw [Takes, make, map_eq_ok_iff, Option.isSome_eq_false_iff, Option.isNone_iff_eq_none]

theorem isKept_make (hget : ∀ draft value, get (set draft value) = some value) :
    (make name hasDefault read get set).IsKept := by
  intro node before behind htakes
  obtain ⟨-, value, -, rfl⟩ := takes_make_iff.mp htakes
  change (get (set before value)).isSome = true
  rw [hget, Option.isSome_some]

/-- Fields that are held apart can be taken in any order. -/
theorem commutes_make {otherName : String} {otherDefault : Bool} {otherGet : Draft → Option Second}
    {otherSet : Draft → Second → Draft}
    (hget : ∀ draft value, get (otherSet draft value) = get draft)
    (hother : ∀ draft value, otherGet (set draft value) = otherGet draft)
    (hset : ∀ draft first second,
      otherSet (set draft first) second = set (otherSet draft second) first) :
    (make name hasDefault read get set).Commutes
      (make otherName otherDefault other otherGet otherSet) := by
  intro node node' before middle behind hfirst hsecond
  obtain ⟨hfree, first, hvalue, rfl⟩ := takes_make_iff.mp hfirst
  obtain ⟨hfree', second, hvalue', rfl⟩ := takes_make_iff.mp hsecond
  refine ⟨otherSet before second, takes_make_iff.mpr ⟨?_, second, hvalue', rfl⟩,
    takes_make_iff.mpr ⟨?_, first, hvalue, ?_⟩⟩
  · rw [← hother before first, hfree']
  · rw [hget, hfree]
  · rw [hset]

end

end Field

/-! ## Reading members -/

namespace RecordShape

variable {Draft Value : Type} {shape : RecordShape Draft Value}

/-- Whether fields of different names are held apart. -/
structure IsIndependent (shape : RecordShape Draft Value) : Prop where
  isKept : ∀ field ∈ shape.fields, field.IsKept
  commutes : ∀ first ∈ shape.fields, ∀ second ∈ shape.fields, first.name ≠ second.name →
    first.Commutes second

/-- The field for a key. -/
def field? (shape : RecordShape Draft Value) (key : String) : Option (Field Draft) :=
  shape.fields.find? fun field => field.name == key

theorem mem_of_field? {key : String} {field : Field Draft}
    (hfield : shape.field? key = some field) : field ∈ shape.fields ∧ field.name = key :=
  ⟨List.mem_of_find?_eq_some hfield, by simpa using List.find?_some hfield⟩

/-- A member is skipped, or its field is taken. -/
theorem readMember_eq_ok_iff {before behind : Draft} {member : Key × Node} :
    shape.readMember before member = .ok behind ↔
      ∃ key, member.1.reading = .ok key ∧
        ((shape.field? key = none ∧ member.2.fault? = none ∧ behind = before) ∨
          ∃ field, shape.field? key = some field ∧ field.Takes member.2 before behind) := by
  rw [readMember, bind_eq_ok_iff]
  refine exists_congr fun key => and_congr_right fun hkey => ?_
  have hfind : (shape.fields.find? fun field => field.name == key) = shape.field? key := rfl
  rw [hfind]
  cases hfield : shape.field? key with
  | none =>
      have hskip := @skip_eq_ok_iff member.2
      constructor
      · intro hread
        obtain ⟨_, hfault, hread⟩ := bind_eq_ok_iff.mp hread
        cases hread
        exact .inl ⟨rfl, hskip.mp hfault, rfl⟩
      · rintro (⟨-, hfault, rfl⟩ | ⟨field, hnone, -⟩)
        · exact bind_eq_ok_iff.mpr ⟨(), hskip.mpr hfault, rfl⟩
        · cases hnone
  | some field =>
      constructor
      · intro hread
        dsimp only at hread
        split at hread
        case isTrue => cases hread
        case isFalse hfree => exact .inr ⟨field, rfl, Bool.eq_false_iff.mpr hfree, hread⟩
      · rintro (⟨hnone, -⟩ | ⟨found, hfound, hfree, hread⟩)
        · cases hnone
        · obtain rfl := Option.some.inj hfound
          simp only [hfree]
          exact hread

/-- Two members can be read the other way round. -/
theorem IsIndependent.swap_readMember (hshape : shape.IsIndependent) (before : Draft)
    (first second : Key × Node) (middle behind : Draft)
    (hfirst : shape.readMember before first = .ok middle)
    (hsecond : shape.readMember middle second = .ok behind) :
    ∃ other, shape.readMember before second = .ok other ∧
      shape.readMember other first = .ok behind := by
  obtain ⟨key, hkey, ⟨hnone, hfault, rfl⟩ | ⟨field, hfield, htakes⟩⟩ :=
    readMember_eq_ok_iff.mp hfirst
  · refine ⟨behind, hsecond, readMember_eq_ok_iff.mpr ⟨key, hkey, .inl ⟨hnone, hfault, rfl⟩⟩⟩
  · obtain ⟨key', hkey', ⟨hnone', hfault', rfl⟩ | ⟨field', hfield', htakes'⟩⟩ :=
      readMember_eq_ok_iff.mp hsecond
    · exact ⟨before, readMember_eq_ok_iff.mpr ⟨key', hkey', .inl ⟨hnone', hfault', rfl⟩⟩, hfirst⟩
    · obtain ⟨hmem, hname⟩ := mem_of_field? hfield
      obtain ⟨hmem', hname'⟩ := mem_of_field? hfield'
      by_cases hsame : field.name = field'.name
      · -- a field is not taken twice
        obtain rfl : key = key' := hname.symm.trans (hsame.trans hname')
        obtain rfl := Option.some.inj (hfield.symm.trans hfield')
        have hset := hshape.isKept field hmem _ _ _ htakes
        rw [htakes'.1] at hset
        cases hset
      · obtain ⟨other, hother, hbehind⟩ :=
          hshape.commutes field hmem field' hmem' hsame _ _ _ _ _ htakes htakes'
        exact ⟨other, readMember_eq_ok_iff.mpr ⟨key', hkey', .inr ⟨field', hfield', hother⟩⟩,
          readMember_eq_ok_iff.mpr ⟨key, hkey, .inr ⟨field, hfield, hbehind⟩⟩⟩

/-- Two values of one key are taken alike where its field reads them alike. -/
theorem readMember_iff_of_alike {key : Key} {node other : Node}
    (hfault : node.fault? = none ↔ other.fault? = none)
    (hread : ∀ name field, key.reading = .ok name → shape.field? name = some field →
      ∀ before behind, field.read before node = .ok behind ↔ field.read before other = .ok behind)
    (before behind : Draft) :
    shape.readMember before (key, node) = .ok behind ↔
      shape.readMember before (key, other) = .ok behind := by
  rw [readMember_eq_ok_iff, readMember_eq_ok_iff]
  refine exists_congr fun name => and_congr_right fun hname => ?_
  rw [hfault]
  refine or_congr_right (exists_congr fun field => and_congr_right fun hfield => ?_)
  exact and_congr_right fun _ => hread name field hname hfield before behind

/-! ## Objects -/

/-- Whether no field is for a member.  Its key is a text nevertheless. -/
def Ignores (shape : RecordShape Draft Value) (member : Literal × Tree) : Prop :=
  ∃ key, member.1.reading = .ok key ∧ ∀ field ∈ shape.fields, field.name ≠ key

/-- Whether members are given ones in any order, and others that no field is for. -/
def Extends (shape : RecordShape Draft Value) (members others : List (Literal × Tree)) : Prop :=
  ∃ added, others.Perm (members ++ added) ∧ ∀ member ∈ added, shape.Ignores member

/-- Read members into a draft, from the first one on. -/
def readMembers (shape : RecordShape Draft Value) (members : List (Literal × Tree))
    (draft : Draft) : Except Fault Draft :=
  (memberNodes members).foldlM shape.readMember draft

theorem finish_eq_ok_iff {draft : Draft} {line : Nat} {value : Value} :
    shape.finish draft line = .ok value ↔ shape.complete? draft = some value := by
  unfold finish
  cases shape.complete? draft <;> simp

theorem read_object_eq_ok_iff {members : List (Literal × Tree)} {hasComma : Bool} {value : Value} :
    shape.read (Tree.object members hasComma).node = .ok value ↔
      ∃ draft, shape.readMembers members shape.blank = .ok draft ∧
        shape.complete? draft = some value := by
  rw [Tree.node, read, bind_eq_ok_iff]
  exact exists_congr fun draft => and_congr_right fun _ => finish_eq_ok_iff

theorem readMembers_append_eq_ok_iff {members others : List (Literal × Tree)}
    {before behind : Draft} :
    shape.readMembers (members ++ others) before = .ok behind ↔
      ∃ between, shape.readMembers members before = .ok between ∧
        shape.readMembers others between = .ok behind := by
  simp only [readMembers, memberNodes_eq_map, List.map_append]
  exact foldlM_append_eq_ok_iff

/-- Members that no field is for leave the draft as it is. -/
theorem readMembers_of_ignores {members : List (Literal × Tree)}
    (hmembers : ∀ member ∈ members, shape.Ignores member) (draft : Draft) :
    shape.readMembers members draft = .ok draft := by
  induction members with
  | nil => rfl
  | cons member members ih =>
      obtain ⟨⟨key, hkey, hname⟩, hmembers⟩ := List.forall_mem_cons.mp hmembers
      have hfield : shape.field? key = none := by
        rw [field?, List.find?_eq_none]
        simpa using hname
      have hmember : shape.readMember draft (⟨member.1.reading, 0⟩, member.2.node) = .ok draft :=
        readMember_eq_ok_iff.mpr ⟨key, hkey, .inl ⟨hfield, member.2.fault?_node, rfl⟩⟩
      exact foldlM_cons_eq_ok_iff.mpr ⟨draft, hmember, ih hmembers⟩

theorem IsIndependent.readMembers_of_perm (hshape : shape.IsIndependent)
    {members others : List (Literal × Tree)} (hperm : members.Perm others) {before behind : Draft}
    (hread : shape.readMembers members before = .ok behind) :
    shape.readMembers others before = .ok behind := by
  rw [readMembers, memberNodes_eq_map] at hread ⊢
  exact foldlM_of_perm hshape.swap_readMember (hperm.map _) hread

/-- **Only fields count.**  Neither the order of members nor members that no field is for change
what an object is read as. -/
theorem Extends.read_eq_ok_iff {members others : List (Literal × Tree)}
    (hextends : shape.Extends members others) (hshape : shape.IsIndependent)
    {hasComma otherComma : Bool} {value : Value} :
    shape.read (Tree.object members hasComma).node = .ok value ↔
      shape.read (Tree.object others otherComma).node = .ok value := by
  obtain ⟨added, hperm, hadded⟩ := hextends
  have hmembers (draft : Draft) : shape.readMembers members shape.blank = .ok draft ↔
      shape.readMembers others shape.blank = .ok draft := by
    constructor
    · intro hread
      apply hshape.readMembers_of_perm hperm.symm
      exact readMembers_append_eq_ok_iff.mpr ⟨draft, hread, readMembers_of_ignores hadded draft⟩
    · intro hread
      obtain ⟨between, hread, hrest⟩ :=
        readMembers_append_eq_ok_iff.mp (hshape.readMembers_of_perm hperm hread)
      rw [readMembers_of_ignores hadded] at hrest
      rw [hread, Except.ok.inj hrest]
  rw [read_object_eq_ok_iff, read_object_eq_ok_iff]
  simp only [hmembers]

/-! ## What fields hold in the end -/

/-- Whether a draft holds what the field of a name is read as. -/
structure Holds {Held : Type} (shape : RecordShape Draft Value) (name : String)
    (read : Reader Held) (get : Draft → Option Held) : Prop where
  taken : ∀ field node before behind, shape.field? name = some field →
    field.Takes node before behind → ∃ held, read node = .ok held ∧ get behind = some held
  isSet : ∀ field draft, shape.field? name = some field → (get draft).isSome = true →
    field.isSet draft = true
  others : ∀ field ∈ shape.fields, field.name ≠ name → ∀ node before behind,
    field.Takes node before behind → get behind = get before

theorem holds_make {Held : Type} {name : String} {hasDefault : Bool} {read : Reader Held}
    {get : Draft → Option Held} {set : Draft → Held → Draft}
    (hfield : shape.field? name = some (.make name hasDefault read get set))
    (hget : ∀ draft held, get (set draft held) = some held)
    (hothers : ∀ field ∈ shape.fields, field.name ≠ name → ∀ node before behind,
      field.Takes node before behind → get behind = get before) :
    shape.Holds name read get where
  taken := by
    intro field node before behind hfound htakes
    obtain rfl := Option.some.inj (hfield.symm.trans hfound)
    obtain ⟨-, held, hheld, rfl⟩ := Field.takes_make_iff.mp htakes
    exact ⟨held, hheld, hget before held⟩
  isSet := by
    intro field draft hfound hset
    obtain rfl := Option.some.inj (hfield.symm.trans hfound)
    exact hset
  others := hothers

/-- What is held stays. -/
theorem Holds.get_eq {Held : Type} {name : String} {read : Reader Held}
    {get : Draft → Option Held} (hholds : shape.Holds name read get) {member : Key × Node}
    {before behind : Draft} {held : Held} (hread : shape.readMember before member = .ok behind)
    (hheld : get before = some held) : get behind = some held := by
  obtain ⟨key, hkey, ⟨-, -, rfl⟩ | ⟨field, hfield, htakes⟩⟩ := readMember_eq_ok_iff.mp hread
  · exact hheld
  · obtain ⟨hmem, rfl⟩ := mem_of_field? hfield
    by_cases hname : field.name = name
    · have hset := hholds.isSet field before (hname ▸ hfield) (by rw [hheld]; rfl)
      rw [htakes.1] at hset
      cases hset
    · rw [hholds.others field hmem hname _ _ _ htakes, hheld]

/-- The member of a field is what the draft holds. -/
theorem Holds.exists_of_mem {Held : Type} {name : String} {read : Reader Held}
    {get : Draft → Option Held} (hholds : shape.Holds name read get)
    (hfield : (shape.field? name).isSome = true) {members : List (Literal × Tree)}
    {before behind : Draft} (hread : shape.readMembers members before = .ok behind)
    {key : Literal} {value : Tree} (hmember : (key, value) ∈ members)
    (hkey : key.reading = .ok name) :
    ∃ held, read value.node = .ok held ∧ get behind = some held := by
  obtain ⟨field, hfield⟩ := Option.isSome_iff_exists.mp hfield
  induction members generalizing before with
  | nil => cases hmember
  | cons member members ih =>
      obtain ⟨next, hnext, hlater⟩ := foldlM_cons_eq_ok_iff.mp hread
      rcases List.mem_cons.mp hmember with rfl | hmember
      · obtain ⟨found, hfound, hmatch⟩ := readMember_eq_ok_iff.mp hnext
        obtain rfl : found = name := Except.ok.inj (hfound.symm.trans hkey)
        rcases hmatch with ⟨hnone, -⟩ | ⟨taken, htaken, htakes⟩
        · rw [hfield] at hnone
          cases hnone
        · obtain ⟨held, hvalue, hheld⟩ := hholds.taken taken _ _ _ htaken htakes
          refine ⟨held, hvalue, ?_⟩
          refine foldlM_invariant (fun draft => get draft = some held) ?_ hlater hheld
          intro before member behind hstep hbefore
          exact hholds.get_eq hstep hbefore
      · exact ih hlater hmember

/-! ## What every draft keeps -/

/-- Whether reading a field keeps a property of drafts. -/
def Keeps (property : Draft → Prop) (field : Field Draft) : Prop :=
  ∀ node before behind, field.read before node = .ok behind → property before → property behind

theorem readMember_keeps {property : Draft → Prop}
    (hfields : ∀ field ∈ shape.fields, Keeps property field) {before behind : Draft}
    {member : Key × Node} (hread : shape.readMember before member = .ok behind)
    (hbefore : property before) : property behind := by
  obtain ⟨key, -, ⟨-, -, hsame⟩ | ⟨field, hfield, -, htaken⟩⟩ := readMember_eq_ok_iff.mp hread
  · rw [hsame]
    exact hbefore
  · obtain ⟨hmember, -⟩ := mem_of_field? hfield
    exact hfields field hmember member.2 before behind htaken hbefore

theorem readItems_keeps {property : Draft → Prop} {ending : Except Faults Nat}
    {fields : List (Field Draft)} (hfields : ∀ field ∈ fields, Keeps property field)
    {before behind : Draft} {items : List Node}
    (hread : readItems ending fields before items = .ok behind) (hbefore : property before) :
    property behind := by
  induction fields generalizing before items with
  | nil =>
      cases items with
      | nil =>
          obtain ⟨line, -, hread⟩ := bind_eq_ok_iff.mp hread
          exact Except.ok.inj hread ▸ hbefore
      | cons item items => cases hread
  | cons field fields ih =>
      obtain ⟨hfield, hfields⟩ := List.forall_mem_cons.mp hfields
      cases items with
      | nil =>
          obtain ⟨line, -, hread⟩ := bind_eq_ok_iff.mp hread
          by_cases hdefault : field.hasDefault = true
          · rw [if_pos hdefault] at hread
            exact ih hfields hread hbefore
          · rw [if_neg hdefault] at hread
            cases hread
      | cons item items =>
          obtain ⟨next, hitem, hread⟩ := bind_eq_ok_iff.mp hread
          exact ih hfields hread (hfield item before next hitem hbefore)

/-- What no field breaks holds of the draft that becomes the value. -/
theorem exists_of_read {property : Draft → Prop}
    (hfields : ∀ field ∈ shape.fields, Keeps property field) (hblank : property shape.blank)
    {node : Node} {value : Value} (hread : shape.read node = .ok value) :
    ∃ draft, property draft ∧ shape.complete? draft = some value := by
  cases node with
  | object line members ending =>
      obtain ⟨draft, hmembers, hread⟩ := bind_eq_ok_iff.mp hread
      obtain ⟨line, -, hvalue⟩ := bind_eq_ok_iff.mp hread
      have hdraft : property draft :=
        foldlM_invariant property (fun _ _ _ => readMember_keeps hfields) hmembers hblank
      exact ⟨draft, hdraft, finish_eq_ok_iff.mp hvalue⟩
  | array line items ending =>
      obtain ⟨draft, hitems, hvalue⟩ := bind_eq_ok_iff.mp hread
      exact ⟨draft, readItems_keeps hfields hitems hblank, finish_eq_ok_iff.mp hvalue⟩
  | _ => cases hread

end RecordShape

end Dealias.Json
