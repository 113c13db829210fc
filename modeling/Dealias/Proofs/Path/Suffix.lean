import Dealias.Proofs.Path.Normalize
import Dealias.Proofs.Path.Quotes

/-!
# A text right behind a path

A text that is put behind the text of a path lengthens the last segment, up to the first slash of
the text, and its other segments are further steps.

* `Path.normalize_append_eq_iff`: a text without dots changes where the path leads unless it
  consists of slashes.

## Strategy

What is read in front of the last segment does not depend on how that segment goes on
(`exists_stack_of_segment`).  A text without dots can only name something: lengthened by it, the
last segment stands as a name on that stack (`Location.eq_of_absorb_eq`), and so it is not
lengthened where the path leads to the same place.
-/

namespace Dealias

/-! ## Texts without dots -/

theorem isName_of_mem_stepsOf {text : List Char} (hdots : '.' ∉ text) {component : Component}
    (hmem : component ∈ stepsOf (segments text)) : component.IsName := by
  refine ⟨isStep_of_mem_stepsOf hmem, ?_⟩
  rintro rfl
  obtain ⟨segment, hsegment, hsome⟩ := List.mem_filterMap.mp hmem
  have htext : ['.', '.'] = segment := text_of_ofSegment? hsome
  exact hdots (mem_of_mem_segments hsegment (htext ▸ List.mem_cons_self ..))

theorem ofSegment?_of_mem {segment : List Char} {character : Char} (hmem : character ∈ segment)
    (hdot : character ≠ '.') :
    Component.ofSegment? segment = some (.name (String.ofList segment)) := by
  unfold Component.ofSegment?
  split <;> simp_all

/-- A text without dots names nothing only if it consists of slashes. -/
theorem eq_slash_of_stepsOf_eq_nil {text : List Char} (hdots : '.' ∉ text)
    (hsteps : stepsOf (segments text) = []) : ∀ character ∈ text, character = '/' := by
  induction text with
  | nil => simp
  | cons character rest ih =>
      obtain ⟨hdot, hrest⟩ := List.ne_and_not_mem_of_not_mem_cons hdots
      by_cases hslash : character = '/'
      · subst hslash
        rw [segments_slash, stepsOf_empty_cons] at hsteps
        exact List.forall_mem_cons.mpr ⟨rfl, ih hrest hsteps⟩
      · obtain ⟨first, others, hsegments⟩ := List.exists_cons_of_ne_nil (segments_ne_nil rest)
        have hname := ofSegment?_of_mem (List.mem_cons_self (a := character) (l := first)) hdot.symm
        rw [segments_cons hslash hsegments, stepsOf, List.filterMap_cons_some hname] at hsteps
        cases hsteps

/-! ## The last segment -/

/-- What stands in front of the last segment of a text is read in the same way whatever that segment
is. -/
theorem exists_stack_of_segment (text : List Char) :
    ∃ front last read, text = front ++ last ∧ '/' ∉ last ∧
      ∀ segment, '/' ∉ segment →
        (locationOf (front ++ segment)).foldl Location.absorb [] =
          (stepsOf [segment]).foldl Location.absorb read := by
  by_cases hslash : '/' ∈ text
  · obtain ⟨last, front, hreverse, hlast⟩ :=
      List.eq_append_cons_of_mem (List.mem_reverse.mpr hslash)
    have htext : text = (front.reverse ++ ['/']) ++ last.reverse := by
      rw [← List.reverse_reverse text, hreverse]
      simp
    refine ⟨_, _, (locationOf (front.reverse ++ ['/'])).foldl Location.absorb [], htext,
      by simpa using hlast, fun segment hsegment => ?_⟩
    rw [List.append_assoc, List.singleton_append, locationOf_append_slash,
      segments_of_notMem hsegment, List.foldl_append]
  · refine ⟨[], text, [], rfl, hslash, fun segment hsegment => ?_⟩
    rw [List.nil_append, locationOf_eq, segments_of_notMem hsegment, List.foldl_append]
    -- a dot in front is read without effect
    rcases leading_cases [segment] with hleading | hleading | hleading
    · rw [hleading]
      rfl
    · unfold leading at hleading
      split at hleading <;> simp_all
    · rw [hleading]
      rfl

/-- A component that is read is put on the components before it, unless it takes one back or says
nothing. -/
theorem Location.absorb_eq_or_length_le (read : List Component) (component : Component) :
    absorb read component = component :: read ∨
      (absorb read component).length ≤ read.length := by
  cases component with
  | root => exact .inl rfl
  | current => exact .inr le_rfl
  | name text => exact .inl rfl
  | parent =>
      cases read with
      | nil => exact .inl rfl
      | cons last before =>
          cases last with
          | root => exact .inr le_rfl
          | name text => exact .inr (Nat.le_succ _)
          | current => exact .inl rfl
          | parent => exact .inl rfl

/-- Only a name itself comes to stand as that name on the same components. -/
theorem Location.eq_of_absorb_eq {read above : List Component} {component : Component}
    {text : String} (habsorb : absorb read component = above ++ .name text :: read) :
    above = [] ∧ component = .name text := by
  rcases absorb_eq_or_length_le read component with hput | hlength
  · rw [hput] at habsorb
    obtain rfl : above = [] := by
      have hsame := congrArg List.length habsorb
      rw [List.length_append, List.length_cons, List.length_cons] at hsame
      exact List.length_eq_zero_iff.mp (by omega)
    exact ⟨rfl, (List.cons.inj habsorb).1⟩
  · rw [habsorb, List.length_append, List.length_cons] at hlength
    omega

/-! ## Longer texts -/

/-- A path whose text goes on with slashes names the same components. -/
theorem locationOf_append_slashes {text : List Char} (htext : text ≠ []) {suffix : List Char}
    (hsuffix : ∀ character ∈ suffix, character = '/') :
    locationOf (text ++ suffix) = locationOf text := by
  induction suffix generalizing text with
  | nil => rw [List.append_nil]
  | cons character suffix ih =>
      obtain ⟨rfl, hothers⟩ := List.forall_mem_cons.mp hsuffix
      rw [← List.singleton_append, ← List.append_assoc, ih (by simp) hothers,
        locationOf_snoc_slash htext]

/-- A text without dots and slashes, right behind a path, changes where the path leads, whatever
names come behind. -/
theorem normalize_append_segment_ne (text : List Char) {segment : List Char}
    (hsegment : segment ≠ []) (hdots : '.' ∉ segment) (hslash : '/' ∉ segment) {names : Location} :
    (locationOf (text ++ segment)).normalize ++ names ≠ (locationOf text).normalize := by
  obtain ⟨front, last, read, rfl, hlast, hread⟩ := exists_stack_of_segment text
  obtain ⟨character, others, hfirst⟩ := List.exists_cons_of_ne_nil hsegment
  have hname : Component.ofSegment? (last ++ segment) =
      some (.name (String.ofList (last ++ segment))) :=
    ofSegment?_of_mem (List.mem_append_right _ (hfirst ▸ List.mem_cons_self ..))
      fun hdot => hdots (hfirst ▸ hdot ▸ List.mem_cons_self ..)
  have hlonger := hread (last ++ segment) (by simp [hlast, hslash])
  have hshorter := hread last hlast
  have hput : (stepsOf [last ++ segment]).foldl Location.absorb read =
      .name (String.ofList (last ++ segment)) :: read := by
    rw [stepsOf, List.filterMap_cons_some hname]
    rfl
  rw [List.append_assoc, Location.normalize, Location.normalize, hlonger, hshorter, hput]
  intro hsame
  have hstack := congrArg List.reverse hsame
  rw [List.reverse_append, List.reverse_reverse, List.reverse_reverse] at hstack
  cases hcomponent : Component.ofSegment? last with
  | none =>
      rw [stepsOf, List.filterMap_cons_none hcomponent] at hstack
      have hlength := congrArg List.length hstack
      rw [List.length_append, List.length_cons] at hlength
      change _ = read.length at hlength
      omega
  | some component =>
      rw [stepsOf, List.filterMap_cons_some hcomponent] at hstack
      obtain ⟨-, rfl⟩ := Location.eq_of_absorb_eq hstack.symm
      have htext := text_of_ofSegment? hcomponent
      rw [Component.text, String.toList_ofList] at htext
      exact hsegment (List.append_right_eq_self.mp htext)

/-- **A text behind a path.**  A text without dots that is put right behind a path leaves it where
it leads only if it consists of slashes. -/
theorem Path.normalize_append_eq_iff {path : Path} (hpath : path.text ≠ "") {suffix : String}
    (hdots : '.' ∉ suffix.toList) :
    Path.normalize ⟨path.text ++ suffix⟩ = path.normalize ↔
      ∀ character ∈ suffix.toList, character = '/' := by
  have htext : path.text.toList ≠ [] := by simpa using hpath
  rw [normalize_eq_normalize_iff, location, location, String.toList_append]
  constructor
  · intro hsame
    by_cases hslash : '/' ∈ suffix.toList
    · obtain ⟨segment, others, hsplit, hsegment⟩ := List.eq_append_cons_of_mem hslash
      rw [hsplit] at hdots hsame ⊢
      have hothers : '.' ∉ others := fun h => hdots (by simp [h])
      have hnames : ∀ name ∈ stepsOf (segments others), name.IsName :=
        fun _ hname => isName_of_mem_stepsOf hothers hname
      have hfront : path.text.toList ++ segment ≠ [] := by simp [htext]
      rw [← List.append_assoc, locationOf_append_slash, locationOf_snoc_slash hfront,
        Location.normalize_append_names _ hnames] at hsame
      by_cases hempty : segment = []
      · subst hempty
        rw [List.append_nil, List.append_right_eq_self] at hsame
        exact List.forall_mem_cons.mpr ⟨rfl, eq_slash_of_stepsOf_eq_nil hothers hsame⟩
      · exact absurd hsame (normalize_append_segment_ne _ hempty (fun h => hdots (by simp [h]))
          hsegment)
    · by_cases hempty : suffix.toList = []
      · simp [hempty]
      · have hsame' := (List.append_nil _).trans hsame
        exact absurd hsame' (normalize_append_segment_ne _ hempty hdots hslash)
  · intro hslashes
    rw [locationOf_append_slashes htext hslashes]

end Dealias
