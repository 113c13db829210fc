import Dealias.Proofs.Path.Relative
import Dealias.Proofs.Source.Scan

/-!
# Paths without quotes

Joining, normalizing and addressing paths puts nothing into their texts but slashes and dots, so
what is made of texts without quotes has none.
-/

namespace Dealias

/-- Whether no component is spelled with a quote. -/
def Location.IsQuoteFree (place : Location) : Prop :=
  ∀ component ∈ place, Dealias.IsQuoteFree component.text.toList

/-- Whether a path is written without quotes. -/
def Path.IsQuoteFree (path : Path) : Prop :=
  Dealias.IsQuoteFree path.text.toList

instance (path : Path) : Decidable path.IsQuoteFree :=
  inferInstanceAs (Decidable (Dealias.IsQuoteFree path.text.toList))

theorem mem_of_mem_segments {text segment : List Char} (hsegment : segment ∈ segments text)
    {character : Char} (hcharacter : character ∈ segment) : character ∈ text := by
  induction text generalizing segment with
  | nil => simp_all [segments]
  | cons first rest ih =>
      by_cases hslash : first = '/'
      · subst hslash
        rw [segments_slash, List.mem_cons] at hsegment
        rcases hsegment with rfl | hsegment
        · cases hcharacter
        · exact List.mem_cons_of_mem _ (ih hsegment hcharacter)
      · obtain ⟨segment', others, hrest⟩ := List.exists_cons_of_ne_nil (segments_ne_nil rest)
        rw [segments_cons hslash hrest, List.mem_cons] at hsegment
        rcases hsegment with rfl | hsegment
        · rcases List.mem_cons.mp hcharacter with rfl | hcharacter
          · exact List.mem_cons_self ..
          · exact List.mem_cons_of_mem _ (ih (by simp [hrest]) hcharacter)
        · exact List.mem_cons_of_mem _ (ih (by simp [hrest, hsegment]) hcharacter)

theorem Path.IsQuoteFree.location {path : Path} (hpath : path.IsQuoteFree) :
    path.location.IsQuoteFree := by
  intro component hcomponent
  rw [Path.location, locationOf_eq, List.mem_append] at hcomponent
  rcases hcomponent with hleading | hstep
  · rcases leading_cases (segments path.text.toList) with h | h | h
    · simp [h] at hleading
    · obtain rfl : component = .root := by simpa [h] using hleading
      decide
    · obtain rfl : component = .current := by simpa [h] using hleading
      decide
  · obtain ⟨segment, hsegment, hsome⟩ := List.mem_filterMap.mp hstep
    rw [text_of_ofSegment? hsome]
    exact fun character hmem => hpath character (mem_of_mem_segments hsegment hmem)

theorem Path.IsQuoteFree.join {base tail : Path} (hbase : base.IsQuoteFree)
    (htail : tail.IsQuoteFree) : (base.join tail).IsQuoteFree := by
  have hslash : Dealias.IsQuoteFree "/".toList := by decide
  unfold Path.join
  split
  · exact htail
  split
  · rw [Path.IsQuoteFree, String.toList_append]
    exact isQuoteFree_append.mpr ⟨hbase, htail⟩
  · rw [Path.IsQuoteFree, String.toList_append, String.toList_append]
    exact isQuoteFree_append.mpr ⟨isQuoteFree_append.mpr ⟨hbase, hslash⟩, htail⟩

theorem Location.IsQuoteFree.ofLocation {place : Location} (hplace : place.IsQuoteFree) :
    (Path.ofLocation place).IsQuoteFree := by
  have hfold : ∀ path : Path, path.IsQuoteFree →
      (place.foldl (fun path component => path.join ⟨component.text⟩) path).IsQuoteFree := by
    induction place with
    | nil => exact fun _ h => h
    | cons component place ih =>
        obtain ⟨hcomponent, hplace⟩ := List.forall_mem_cons.mp hplace
        exact fun path hpath => ih hplace _ (hpath.join hcomponent)
  exact hfold ⟨""⟩ (by simp [Path.IsQuoteFree, Dealias.IsQuoteFree])

/-- The normal form has no component that is not in the location. -/
theorem Location.mem_of_mem_normalize {place : Location} {component : Component}
    (hcomponent : component ∈ place.normalize) : component ∈ place := by
  have habsorb : ∀ (read : List Component) (next : Component),
      component ∈ absorb read next → component = next ∨ component ∈ read := by
    intro read next hmem
    unfold absorb at hmem
    split at hmem
    · exact .inr hmem
    · split at hmem
      · exact .inr hmem
      · exact .inr (List.mem_cons_of_mem _ hmem)
      · exact List.mem_cons.mp hmem
    · exact List.mem_cons.mp hmem
  have hfold : ∀ read : List Component, component ∈ place.foldl absorb read →
      component ∈ place ∨ component ∈ read := by
    clear hcomponent
    induction place with
    | nil => exact fun _ => .inr
    | cons next place ih =>
        intro read hmem
        rcases ih _ hmem with h | h
        · exact .inl (List.mem_cons_of_mem _ h)
        · rcases habsorb read next h with rfl | h
          · exact .inl (List.mem_cons_self ..)
          · exact .inr h
  rcases hfold [] (List.mem_reverse.mp hcomponent) with h | h
  · exact h
  · cases h

theorem Path.IsQuoteFree.normalize {path : Path} (hpath : path.IsQuoteFree) :
    path.normalize.IsQuoteFree := by
  by_cases hplace : path.location.normalize = []
  · rw [Path.normalize, hplace]
    decide
  · rw [Path.normalize_of_ne_nil hplace]
    exact Location.IsQuoteFree.ofLocation fun component hcomponent =>
      hpath.location component (Location.mem_of_mem_normalize hcomponent)

theorem Path.IsQuoteFree.anchor {path base : Path} (hpath : path.IsQuoteFree)
    (hbase : base.IsQuoteFree) : (path.anchor base).IsQuoteFree := by
  unfold Path.anchor
  split
  · exact hpath.normalize
  · exact (hbase.join hpath).normalize

/-- A target without quotes is addressed without quotes. -/
theorem Path.IsQuoteFree.relativeSpecifier? {directory target : Path} (htarget : target.IsQuoteFree)
    {specifier : String} (hspecifier : relativeSpecifier? directory target = some specifier) :
    Dealias.IsQuoteFree specifier.toList := by
  obtain ⟨path, hpath, rfl⟩ := Option.map_eq_some_iff.mp hspecifier
  have hpathFree : path.IsQuoteFree := by
    unfold Path.relativeTo? at hpath
    split at hpath
    · obtain ⟨steps, hsteps, rfl⟩ := Option.map_eq_some_iff.mp hpath
      refine Location.IsQuoteFree.ofLocation fun component hcomponent => ?_
      rcases Location.mem_of_mem_steps? hsteps hcomponent with rfl | hmem
      · decide
      · exact htarget.location component hmem
    · split at hpath
      · exact Option.some.inj hpath ▸ htarget
      · cases hpath
  unfold ensureDotted
  split
  · exact hpathFree
  · exact hpathFree
  · rw [String.toList_append]
    exact isQuoteFree_append.mpr ⟨by decide, hpathFree⟩

end Dealias
