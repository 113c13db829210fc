import Mathlib.Data.Option.Basic
import Dealias.Json.Decode
import Dealias.Proofs.Json.Lines
import Dealias.Proofs.Outcome

/-!
# What readers have in common

A reader carries lines to faults and does nothing else with them, and it takes no value that holds a
fault which skipping would find.  Both hold of the simple readers, and the readers of containers and
records hand them on.

* `Reader.IsRegular`: the two properties.
* `RecordShape.isRegular_read`: records with regular fields are read regularly.
-/

namespace Dealias.Json

/-- What readers have in common. -/
structure Reader.IsRegular {Value : Type} (read : Reader Value) : Prop where
  /-- Lines are only carried to faults. -/
  relabel : ∀ (label : Nat → Nat) (node : Node),
    read (node.relabel label) = relabelReading label (read node)
  /-- A value is gone through to its end. -/
  thorough : ∀ (node : Node) (value : Value), read node = .ok value → node.fault? = none

/-! ## Readings one behind the other -/

section

variable (label : Nat → Nat) {First Second : Type}

@[simp]
theorem relabelReading_ok (value : First) :
    relabelReading label (.ok value : Except Fault First) = .ok value := rfl

@[simp]
theorem relabelReading_error (fault : Fault) :
    relabelReading label (.error fault : Except Fault First) = .error (fault.relabel label) := rfl

theorem relabelReading_bind (reading : Except Fault First)
    (next : First → Except Fault Second) :
    relabelReading label (reading >>= next) =
      relabelReading label reading >>= fun value => relabelReading label (next value) := by
  cases reading <;> rfl

theorem relabelReading_map (reading : Except Fault First) (change : First → Second) :
    relabelReading label (reading.map change) = (relabelReading label reading).map change := by
  cases reading <;> rfl

theorem mapM_relabel {read : First → Except Fault Second} {rename : First → First}
    (hread : ∀ value, read (rename value) = relabelReading label (read value))
    (values : List First) :
    (values.map rename).mapM read = relabelReading label (values.mapM read) := by
  induction values with
  | nil => rfl
  | cons value values ih =>
      rw [List.map_cons, List.mapM_cons, List.mapM_cons, hread, ih]
      simp only [relabelReading_bind]
      rfl

theorem foldlM_relabel {read : Second → First → Except Fault Second} {rename : First → First}
    (hread : ∀ draft value, read draft (rename value) = relabelReading label (read draft value))
    (values : List First) (draft : Second) :
    (values.map rename).foldlM read draft = relabelReading label (values.foldlM read draft) := by
  induction values generalizing draft with
  | nil => rfl
  | cons value values ih =>
      rw [List.map_cons, List.foldlM_cons, List.foldlM_cons, hread, relabelReading_bind]
      simp only [ih]

end

/-! ## Skipping -/

section

variable (label : Nat → Nat)

theorem map_orElse {First Second : Type} (change : First → Second) (first second : Option First) :
    (first <|> second).map change = (first.map change <|> second.map change) := by
  cases first <;> rfl

theorem closeFault?_relabel (ending : Except Faults Nat) :
    closeFault? (relabelClose label ending) = (closeFault? ending).map (Fault.relabel label) := by
  cases ending <;> rfl

mutual

theorem Node.fault?_relabel :
    (node : Node) → (node.relabel label).fault? = node.fault?.map (Fault.relabel label)
  | .null _ => rfl
  | .flag _ _ => rfl
  | .number _ _ => rfl
  | .text _ _ => rfl
  | .array _ items ending => by
      rw [Node.relabel, Node.fault?, Node.fault?, itemsFault?_relabel items, closeFault?_relabel,
        map_orElse]
  | .object _ members ending => by
      rw [Node.relabel, Node.fault?, Node.fault?, membersFault?_relabel members,
        closeFault?_relabel, map_orElse]
  | .broken _ _ => rfl

theorem itemsFault?_relabel : (items : List Node) →
    itemsFault? (relabelItems label items) = (itemsFault? items).map (Fault.relabel label)
  | [] => rfl
  | item :: items => by
      rw [relabelItems, itemsFault?, itemsFault?, item.fault?_relabel, itemsFault?_relabel items,
        map_orElse]

theorem membersFault?_relabel : (members : List (Key × Node)) →
    membersFault? (relabelMembers label members) =
      (membersFault? members).map (Fault.relabel label)
  | [] => rfl
  | (_, value) :: members => by
      rw [relabelMembers, membersFault?, membersFault?, value.fault?_relabel,
        membersFault?_relabel members, map_orElse]

end

end

theorem itemsFault?_eq_none_iff {items : List Node} :
    itemsFault? items = none ↔ ∀ item ∈ items, item.fault? = none := by
  induction items with
  | nil => simp [itemsFault?]
  | cons item items ih =>
      rw [itemsFault?, Option.orElse_eq_none, ih, List.forall_mem_cons]

theorem membersFault?_eq_none_iff {members : List (Key × Node)} :
    membersFault? members = none ↔ ∀ member ∈ members, member.2.fault? = none := by
  induction members with
  | nil => simp [membersFault?]
  | cons member members ih =>
      obtain ⟨key, value⟩ := member
      rw [membersFault?, Option.orElse_eq_none, ih, List.forall_mem_cons]

theorem closeFault?_of_close_eq_ok {ending : Except Faults Nat} {line : Nat}
    (hclose : close ending = .ok line) : closeFault? ending = none := by
  cases ending with
  | ok line => rfl
  | error faults => cases hclose

theorem skip_eq_ok_iff {node : Node} : skip node = .ok () ↔ node.fault? = none := by
  unfold skip
  cases node.fault? <;> simp

theorem isRegular_skip : Reader.IsRegular skip where
  relabel label node := by
    rw [skip, skip, node.fault?_relabel]
    cases node.fault? <;> rfl
  thorough _ _ := skip_eq_ok_iff.mp

/-! ## Simple values -/

theorem Node.mismatch_relabel (label : Nat → Nat) (node : Node) :
    (node.relabel label).mismatch = node.mismatch.relabel label := by
  cases node with
  | text line reading => cases reading <;> rfl
  | _ => rfl

theorem isRegular_text : Reader.IsRegular text where
  relabel label node := by
    cases node with
    | text line reading => rfl
    | _ => exact congrArg Except.error (Node.mismatch_relabel label _)
  thorough node value hread := by
    cases node with
    | text line reading => rfl
    | _ => cases hread

theorem isRegular_flag : Reader.IsRegular flag where
  relabel label node := by
    cases node with
    | flag line value => rfl
    | _ => exact congrArg Except.error (Node.mismatch_relabel label _)
  thorough node value hread := by
    cases node with
    | flag line value => rfl
    | _ => cases hread

theorem isRegular_natural : Reader.IsRegular natural where
  relabel label node := by
    cases node with
    | number line numeral =>
        rw [Node.relabel, natural, natural]
        cases numeral.natural? <;> rfl
    | _ => exact congrArg Except.error (Node.mismatch_relabel label _)
  thorough node value hread := by
    cases node with
    | number line numeral => rfl
    | _ => cases hread

theorem isRegular_optional {Value : Type} {read : Reader Value} (hread : Reader.IsRegular read) :
    Reader.IsRegular (optional read) where
  relabel label node := by
    have hmap := congrArg (Except.map some) (hread.relabel label node)
    rw [← relabelReading_map] at hmap
    cases node with
    | null line => rfl
    | _ => exact hmap
  thorough node value hvalue := by
    cases node with
    | null line => rfl
    | _ =>
        obtain ⟨inner, hinner⟩ := exists_of_map_eq_ok hvalue
        exact hread.thorough _ inner hinner

theorem isRegular_map {First Second : Type} {read : Reader First} (hread : Reader.IsRegular read)
    (change : First → Second) : Reader.IsRegular fun node => (read node).map change where
  relabel label node := by rw [hread.relabel, relabelReading_map]
  thorough node value hvalue := by
    obtain ⟨inner, hinner⟩ := exists_of_map_eq_ok hvalue
    exact hread.thorough node inner hinner

/-! ## Containers -/

theorem isRegular_list {Value : Type} {read : Reader Value} (hread : Reader.IsRegular read) :
    Reader.IsRegular (list read) where
  relabel label node := by
    cases node with
    | array line items ending =>
        rw [Node.relabel, relabelItems_eq_map, list, list, relabelReading_bind,
          mapM_relabel label (hread.relabel label)]
        cases ending <;> rfl
    | _ => exact congrArg Except.error (Node.mismatch_relabel label _)
  thorough node value hvalue := by
    cases node with
    | array line items ending =>
        obtain ⟨values, hvalues, hclose⟩ := bind_eq_ok_iff.mp hvalue
        obtain ⟨line, hclose, -⟩ := bind_eq_ok_iff.mp hclose
        rw [Node.fault?, Option.orElse_eq_none, itemsFault?_eq_none_iff]
        refine ⟨fun item hitem => ?_, closeFault?_of_close_eq_ok hclose⟩
        obtain ⟨result, hresult⟩ := exists_of_mapM_eq_ok hvalues item hitem
        exact hread.thorough item result hresult
    | _ => cases hvalue

theorem isRegular_dictionary {Value : Type} {read : Reader Value}
    (hread : Reader.IsRegular read) : Reader.IsRegular (dictionary read) where
  relabel label node := by
    have hentry (member : Key × Node) :
        entry read (relabelMember label member) = relabelReading label (entry read member) := by
      rw [entry, entry, relabelReading_bind]
      simp only [relabelReading_bind, relabelMember, Key.relabel, hread.relabel]
      rfl
    cases node with
    | object line members ending =>
        rw [Node.relabel, relabelMembers_eq_map, dictionary, dictionary, relabelReading_bind,
          mapM_relabel label hentry]
        cases ending <;> rfl
    | _ => exact congrArg Except.error (Node.mismatch_relabel label _)
  thorough node value hvalue := by
    cases node with
    | object line members ending =>
        obtain ⟨values, hvalues, hclose⟩ := bind_eq_ok_iff.mp hvalue
        obtain ⟨line, hclose, -⟩ := bind_eq_ok_iff.mp hclose
        rw [Node.fault?, Option.orElse_eq_none, membersFault?_eq_none_iff]
        refine ⟨fun member hmember => ?_, closeFault?_of_close_eq_ok hclose⟩
        obtain ⟨result, hresult⟩ := exists_of_mapM_eq_ok hvalues member hmember
        obtain ⟨key, -, hresult⟩ := bind_eq_ok_iff.mp hresult
        obtain ⟨inner, hinner, -⟩ := bind_eq_ok_iff.mp hresult
        exact hread.thorough member.2 inner hinner
    | _ => cases hvalue

/-! ## Records -/

/-- Whether a field is read regularly into every draft. -/
def Field.IsRegular {Draft : Type} (field : Field Draft) : Prop :=
  ∀ draft, Reader.IsRegular (field.read draft)

theorem Field.isRegular_make {Draft Value : Type} {reader : Reader Value}
    (hreader : Reader.IsRegular reader) (name : String) (hasDefault : Bool)
    (get : Draft → Option Value) (set : Draft → Value → Draft) :
    (Field.make name hasDefault reader get set).IsRegular :=
  fun draft => isRegular_map hreader (set draft)

namespace RecordShape

variable {Draft Value : Type} {shape : RecordShape Draft Value}

theorem readMember_relabel (hfields : ∀ field ∈ shape.fields, field.IsRegular)
    (label : Nat → Nat) (draft : Draft) (member : Key × Node) :
    shape.readMember draft (relabelMember label member) =
      relabelReading label (shape.readMember draft member) := by
  rw [readMember, readMember, relabelReading_bind]
  refine congrArg (relabelReading label member.1.reading >>= ·) (funext fun key => ?_)
  cases hfind : shape.fields.find? fun field => field.name == key with
  | none =>
      simp only [relabelMember, isRegular_skip.relabel, relabelReading_bind]
      rfl
  | some field =>
      have hread := (hfields field (List.mem_of_find?_eq_some hfind) draft).relabel label member.2
      simp only [relabelMember, hread]
      split <;> rfl

theorem readMember_thorough (hfields : ∀ field ∈ shape.fields, field.IsRegular)
    {before behind : Draft} {member : Key × Node}
    (hread : shape.readMember before member = .ok behind) : member.2.fault? = none := by
  obtain ⟨key, -, hread⟩ := bind_eq_ok_iff.mp hread
  cases hfind : shape.fields.find? fun field => field.name == key with
  | none =>
      simp only [hfind] at hread
      obtain ⟨_, hskip, -⟩ := bind_eq_ok_iff.mp hread
      exact skip_eq_ok_iff.mp hskip
  | some field =>
      simp only [hfind] at hread
      split at hread
      · cases hread
      · exact (hfields field (List.mem_of_find?_eq_some hfind) before).thorough _ _ hread

theorem readItems_relabel (label : Nat → Nat) (ending : Except Faults Nat)
    {fields : List (Field Draft)} (hfields : ∀ field ∈ fields, field.IsRegular) (draft : Draft)
    (items : List Node) :
    readItems (relabelClose label ending) fields draft (items.map (Node.relabel label)) =
      relabelReading label (readItems ending fields draft items) := by
  induction fields generalizing draft items with
  | nil =>
      cases items with
      | nil => cases ending <;> rfl
      | cons item items =>
          rw [List.map_cons, readItems, item.line_relabel]
          rfl
  | cons field fields ih =>
      obtain ⟨hfield, hfields⟩ := List.forall_mem_cons.mp hfields
      cases items with
      | nil =>
          have hrest := ih hfields draft []
          cases ending with
          | error faults => rfl
          | ok line =>
              simp only [List.map_nil, readItems] at hrest ⊢
              change (if field.hasDefault then _ else _) =
                relabelReading label (if field.hasDefault then _ else _)
              split
              · exact hrest
              · rfl
      | cons item items =>
          rw [List.map_cons, readItems, readItems, (hfield draft).relabel, relabelReading_bind]
          simp only [ih hfields]

theorem readItems_thorough {ending : Except Faults Nat} {fields : List (Field Draft)}
    (hfields : ∀ field ∈ fields, field.IsRegular) {draft result : Draft} {items : List Node}
    (hread : readItems ending fields draft items = .ok result) :
    itemsFault? items = none ∧ closeFault? ending = none := by
  induction fields generalizing draft items with
  | nil =>
      cases items with
      | nil =>
          obtain ⟨line, hclose, -⟩ := bind_eq_ok_iff.mp hread
          exact ⟨rfl, closeFault?_of_close_eq_ok hclose⟩
      | cons item items => cases hread
  | cons field fields ih =>
      obtain ⟨hfield, hfields⟩ := List.forall_mem_cons.mp hfields
      cases items with
      | nil =>
          obtain ⟨line, hclose, -⟩ := bind_eq_ok_iff.mp hread
          exact ⟨rfl, closeFault?_of_close_eq_ok hclose⟩
      | cons item items =>
          obtain ⟨next, hitem, hread⟩ := bind_eq_ok_iff.mp hread
          obtain ⟨hitems, hclose⟩ := ih hfields hread
          refine ⟨?_, hclose⟩
          rw [itemsFault?, (hfield draft).thorough item next hitem, hitems]
          rfl

theorem finish_relabel (label : Nat → Nat) (draft : Draft) (line : Nat) :
    shape.finish draft (label line) = relabelReading label (shape.finish draft line) := by
  unfold finish
  cases shape.complete? draft <;> rfl

/-- **Records.**  Records with regular fields are read regularly. -/
theorem isRegular_read (hfields : ∀ field ∈ shape.fields, field.IsRegular) :
    Reader.IsRegular shape.read where
  relabel label node := by
    cases node with
    | object line members ending =>
        rw [Node.relabel, relabelMembers_eq_map, read, read, relabelReading_bind,
          foldlM_relabel label (readMember_relabel hfields label)]
        refine congrArg (relabelReading label _ >>= ·) (funext fun draft => ?_)
        cases ending with
        | ok line => exact finish_relabel label draft line
        | error faults => rfl
    | array line items ending =>
        rw [Node.relabel, relabelItems_eq_map, read, read, relabelReading_bind,
          readItems_relabel label ending hfields]
        refine congrArg (relabelReading label _ >>= ·) (funext fun draft => ?_)
        exact finish_relabel label draft line
    | _ => exact congrArg Except.error (Node.mismatch_relabel label _)
  thorough node value hvalue := by
    cases node with
    | object line members ending =>
        obtain ⟨draft, hmembers, hclose⟩ := bind_eq_ok_iff.mp hvalue
        obtain ⟨line, hclose, -⟩ := bind_eq_ok_iff.mp hclose
        rw [Node.fault?, Option.orElse_eq_none, membersFault?_eq_none_iff]
        refine ⟨fun member hmember => ?_, closeFault?_of_close_eq_ok hclose⟩
        obtain ⟨before, behind, hread⟩ := exists_of_foldlM_eq_ok hmembers member hmember
        exact readMember_thorough hfields hread
    | array line items ending =>
        obtain ⟨draft, hitems, -⟩ := bind_eq_ok_iff.mp hvalue
        rw [Node.fault?, Option.orElse_eq_none]
        exact readItems_thorough hfields hitems
    | _ => cases hvalue

end RecordShape

/-! ## Documents -/

/-- Read a document. -/
def Document.read {Value : Type} (read : Reader Value) (document : Document) :
    Except Fault Value := do
  let value ← read document.root
  match document.trailing with
  | none => return value
  | some line => throw ⟨.malformed, line⟩

section

variable {Value : Type} {read : Reader Value}

theorem readText_eq (text : String) : readText read text = (Document.ofText text).read read := rfl

theorem Document.read_eq_ok_iff {document : Document} {value : Value} :
    document.read read = .ok value ↔
      read document.root = .ok value ∧ document.trailing = none := by
  obtain ⟨root, trailing⟩ := document
  unfold Document.read
  cases read root with
  | error fault => exact iff_of_false nofun fun hboth => nomatch hboth.1
  | ok result =>
      cases trailing with
      | none => exact (and_iff_left rfl).symm
      | some line => exact iff_of_false nofun fun hboth => nomatch hboth.2

theorem Document.read_relabel (hread : Reader.IsRegular read) (label : Nat → Nat)
    (document : Document) :
    (document.relabel label).read read = relabelReading label (document.read read) := by
  obtain ⟨root, trailing⟩ := document
  rw [Document.read, Document.read, relabelReading_bind]
  refine (congrArg (· >>= _) (hread.relabel label root)).trans ?_
  cases trailing <;> rfl

end

end Dealias.Json
