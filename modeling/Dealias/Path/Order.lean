import Dealias.Path.Basic

/-!
# The order of places

Components are ordered by kind and then by text, and places component by component.  The order is
lawful: it is transitive, and only equal places compare as equal.
-/

namespace Dealias

/-- Components are compared by their ranks and then by their texts. -/
theorem Component.compare_eq :
    Component.compare = compareLex (compareOn Component.rank) (compareOn Component.text) := by
  funext first second
  cases first <;> cases second <;> rfl

instance : Std.TransCmp Component.compare :=
  Component.compare_eq ▸ inferInstance

instance : Std.LawfulEqCmp Component.compare where
  eq_of_compare {first second} hequal := by
    rw [Component.compare_eq, compareLex_eq_eq] at hequal
    obtain ⟨hrank, htext⟩ := hequal
    have htext : first.text = second.text := Std.LawfulEqCmp.eq_of_compare htext
    have hrank : first.rank = second.rank := Std.LawfulEqCmp.eq_of_compare hrank
    cases first <;> cases second <;> simp_all [Component.rank, Component.text]

instance : Std.TransCmp Location.compare :=
  inferInstanceAs (Std.TransCmp (List.compareLex Component.compare))

instance : Std.LawfulEqCmp Location.compare :=
  inferInstanceAs (Std.LawfulEqCmp (List.compareLex Component.compare))

/-- A place comes before all that lie below it. -/
theorem Location.compare_append (place : Location) (component : Component) (rest : Location) :
    Location.compare place (place ++ component :: rest) = .lt := by
  induction place with
  | nil => rfl
  | cons first place ih =>
      have hself : Component.compare first first = .eq := Std.ReflCmp.compare_self
      rw [Location.compare, List.cons_append, List.compareLex_cons_cons, hself]
      exact ih

end Dealias
