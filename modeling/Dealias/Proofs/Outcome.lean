import Mathlib.Data.List.Forall2

/-!
# Outcomes one behind the other

Steps that can fail are done one behind the other, and the first fault ends them.  So what comes of
all of them comes of each, whether they are written out (`bind_eq_ok_iff`) or done for the members
of a list (`mapM_eq_ok_iff`, `exists_of_foldlM_eq_ok`).
-/

namespace Dealias

variable {Fault First Second : Type}

/-! ## Two steps -/

/-- A result of two steps is the second one's, for a result of the first. -/
theorem bind_eq_ok_iff {outcome : Except Fault First} {next : First → Except Fault Second}
    {result : Second} :
    outcome >>= next = .ok result ↔ ∃ value, outcome = .ok value ∧ next value = .ok result := by
  cases outcome with
  | error fault =>
      constructor
      · intro hbind
        cases hbind
      · rintro ⟨value, hvalue, -⟩
        cases hvalue
  | ok value =>
      constructor
      · intro hbind
        exact ⟨value, rfl, hbind⟩
      · rintro ⟨value, hvalue, hnext⟩
        cases hvalue
        exact hnext

/-- A fault of two steps is the first one's, or the second one's for a result of the first. -/
theorem bind_eq_error_iff {outcome : Except Fault First} {next : First → Except Fault Second}
    {fault : Fault} :
    outcome >>= next = .error fault ↔
      outcome = .error fault ∨ ∃ value, outcome = .ok value ∧ next value = .error fault := by
  cases outcome with
  | error first =>
      constructor
      · intro hbind
        cases hbind
        exact .inl rfl
      · rintro (hfirst | ⟨value, hvalue, -⟩)
        · cases hfirst
          rfl
        · cases hvalue
  | ok value =>
      constructor
      · intro hbind
        exact .inr ⟨value, rfl, hbind⟩
      · rintro (hfirst | ⟨value, hvalue, hnext⟩)
        · cases hfirst
        · cases hvalue
          exact hnext

theorem map_eq_ok_iff {outcome : Except Fault First} {change : First → Second} {result : Second} :
    outcome.map change = .ok result ↔ ∃ value, outcome = .ok value ∧ change value = result := by
  cases outcome with
  | error fault =>
      constructor
      · intro hmap
        cases hmap
      · rintro ⟨value, hvalue, -⟩
        cases hvalue
  | ok value =>
      constructor
      · intro hmap
        exact ⟨value, rfl, Except.ok.inj hmap⟩
      · rintro ⟨value, hvalue, rfl⟩
        cases hvalue
        rfl

theorem map_eq_error_iff {outcome : Except Fault First} {change : First → Second} {fault : Fault} :
    outcome.map change = .error fault ↔ outcome = .error fault := by
  cases outcome with
  | error first =>
      show Except.error first = .error fault ↔ Except.error first = .error fault
      rw [Except.error.injEq, Except.error.injEq]
  | ok value => exact ⟨nofun, nofun⟩

theorem exists_of_map_eq_ok {outcome : Except Fault First} {change : First → Second}
    {result : Second} (hmap : outcome.map change = .ok result) :
    ∃ value, outcome = .ok value := by
  obtain ⟨value, hvalue, -⟩ := map_eq_ok_iff.mp hmap
  exact ⟨value, hvalue⟩

/-- What is seen of a result is seen of the value that comes. -/
theorem exists_of_map_toOption {outcome : Except Fault First} {view : First → Second}
    {seen : Second} (hseen : outcome.toOption.map view = some seen) :
    ∃ value, outcome = .ok value ∧ view value = seen := by
  cases outcome with
  | error fault => cases hseen
  | ok value => exact ⟨value, rfl, Option.some.inj hseen⟩

/-! ## One step for each member of a list -/

/-- All steps succeed when each of them does. -/
theorem mapM_eq_ok_iff {step : First → Except Fault Second} {inputs : List First}
    {results : List Second} :
    inputs.mapM step = .ok results ↔
      List.Forall₂ (fun input result => step input = .ok result) inputs results := by
  induction inputs generalizing results with
  | nil =>
      rw [List.forall₂_nil_left_iff, List.mapM_nil]
      exact ⟨fun hresults => (Except.ok.inj hresults).symm, fun hresults => hresults ▸ rfl⟩
  | cons input inputs ih =>
      rw [List.forall₂_cons_left_iff, List.mapM_cons]
      constructor
      · intro hresults
        obtain ⟨first, hfirst, hresults⟩ := bind_eq_ok_iff.mp hresults
        obtain ⟨others, hothers, hresults⟩ := bind_eq_ok_iff.mp hresults
        exact ⟨first, others, hfirst, ih.mp hothers, (Except.ok.inj hresults).symm⟩
      · rintro ⟨first, others, hfirst, hothers, rfl⟩
        rw [hfirst, ih.mpr hothers]
        rfl

/-- The steps fail with the fault of the first one that does. -/
theorem mapM_eq_error_iff {step : First → Except Fault Second} {inputs : List First}
    {fault : Fault} :
    inputs.mapM step = .error fault ↔
      ∃ front input back, inputs = front ++ input :: back ∧
        (∀ earlier ∈ front, ∃ result, step earlier = .ok result) ∧ step input = .error fault := by
  induction inputs with
  | nil =>
      rw [List.mapM_nil]
      constructor
      · intro hfault
        cases hfault
      · rintro ⟨front, input, back, hnil, -⟩
        cases front <;> cases hnil
  | cons first inputs ih =>
      rw [List.mapM_cons, bind_eq_error_iff]
      constructor
      · rintro (hfirst | ⟨result, hfirst, hrest⟩)
        · exact ⟨[], first, inputs, rfl, nofun, hfirst⟩
        · rcases bind_eq_error_iff.mp hrest with hrest | ⟨results, -, hpure⟩
          · obtain ⟨front, input, back, rfl, hfront, hinput⟩ := ih.mp hrest
            have hearlier := List.forall_mem_cons.mpr ⟨⟨result, hfirst⟩, hfront⟩
            exact ⟨first :: front, input, back, rfl, hearlier, hinput⟩
          · cases hpure
      · rintro ⟨front, input, back, hinputs, hfront, hinput⟩
        cases front with
        | nil =>
            obtain ⟨rfl, rfl⟩ := List.cons.inj hinputs
            exact .inl hinput
        | cons earlier front =>
            obtain ⟨rfl, rfl⟩ := List.cons.inj hinputs
            obtain ⟨⟨result, hfirst⟩, hfront⟩ := List.forall_mem_cons.mp hfront
            have hrest := ih.mpr ⟨front, input, back, rfl, hfront, hinput⟩
            exact .inr ⟨result, hfirst, bind_eq_error_iff.mpr (.inl hrest)⟩

/-- What comes of a list comes of one of its members. -/
theorem exists_of_mem_mapM {step : First → Except Fault Second} {inputs : List First}
    {results : List Second} (hresults : inputs.mapM step = .ok results) {result : Second}
    (hresult : result ∈ results) : ∃ input ∈ inputs, step input = .ok result := by
  induction mapM_eq_ok_iff.mp hresults with
  | nil => cases hresult
  | @cons input first inputs results hstep hothers ih =>
      rcases List.mem_cons.mp hresult with rfl | hresult
      · exact ⟨input, List.mem_cons_self .., hstep⟩
      · obtain ⟨other, hother, hstep⟩ := ih (mapM_eq_ok_iff.mpr hothers) hresult
        exact ⟨other, List.mem_cons_of_mem _ hother, hstep⟩

/-- Each member of a list comes to something. -/
theorem exists_of_mapM_eq_ok {step : First → Except Fault Second} {inputs : List First}
    {results : List Second} (hresults : inputs.mapM step = .ok results) :
    ∀ input ∈ inputs, ∃ result, step input = .ok result := by
  induction mapM_eq_ok_iff.mp hresults with
  | nil => nofun
  | @cons input first inputs results hstep hothers ih =>
      exact List.forall_mem_cons.mpr ⟨⟨first, hstep⟩, ih (mapM_eq_ok_iff.mpr hothers)⟩

theorem exists_of_foldlM_eq_ok {step : Second → First → Except Fault Second} {inputs : List First}
    {start result : Second} (hresult : inputs.foldlM step start = .ok result) :
    ∀ input ∈ inputs, ∃ before behind, step before input = .ok behind := by
  induction inputs generalizing start with
  | nil => nofun
  | cons input inputs ih =>
      rw [List.foldlM_cons] at hresult
      obtain ⟨behind, hinput, hresult⟩ := bind_eq_ok_iff.mp hresult
      exact List.forall_mem_cons.mpr ⟨⟨start, behind, hinput⟩, ih hresult⟩

/-! ## Steps through a list -/

section

variable {State Input : Type} {step : State → Input → Except Fault State} {start result : State}

theorem foldlM_cons_eq_ok_iff {input : Input} {inputs : List Input} :
    (input :: inputs).foldlM step start = .ok result ↔
      ∃ next, step start input = .ok next ∧ inputs.foldlM step next = .ok result := by
  rw [List.foldlM_cons, bind_eq_ok_iff]

theorem foldlM_append_eq_ok_iff {inputs others : List Input} :
    (inputs ++ others).foldlM step start = .ok result ↔
      ∃ next, inputs.foldlM step start = .ok next ∧ others.foldlM step next = .ok result := by
  rw [List.foldlM_append, bind_eq_ok_iff]

/-- What each step keeps is kept. -/
theorem foldlM_invariant (property : State → Prop) {inputs : List Input}
    (hstep : ∀ before input behind, step before input = .ok behind → property before →
      property behind)
    (hresult : inputs.foldlM step start = .ok result) (hstart : property start) :
    property result := by
  induction inputs generalizing start with
  | nil =>
      cases hresult
      exact hstart
  | cons input inputs ih =>
      obtain ⟨next, hnext, hresult⟩ := foldlM_cons_eq_ok_iff.mp hresult
      exact ih hresult (hstep start input next hnext hstart)

/-- Where two steps may be done the other way round, all may be done in any order. -/
theorem foldlM_of_perm
    (hswap : ∀ before first second middle behind, step before first = .ok middle →
      step middle second = .ok behind →
        ∃ other, step before second = .ok other ∧ step other first = .ok behind)
    {inputs others : List Input} (hperm : inputs.Perm others)
    (hresult : inputs.foldlM step start = .ok result) :
    others.foldlM step start = .ok result := by
  induction hperm generalizing start with
  | nil => exact hresult
  | cons input hperm ih =>
      obtain ⟨next, hnext, hresult⟩ := foldlM_cons_eq_ok_iff.mp hresult
      exact foldlM_cons_eq_ok_iff.mpr ⟨next, hnext, ih hresult⟩
  | swap first second inputs =>
      obtain ⟨middle, hmiddle, hresult⟩ := foldlM_cons_eq_ok_iff.mp hresult
      obtain ⟨behind, hbehind, hresult⟩ := foldlM_cons_eq_ok_iff.mp hresult
      obtain ⟨other, hother, hlast⟩ := hswap start second first middle behind hmiddle hbehind
      exact foldlM_cons_eq_ok_iff.mpr ⟨other, hother,
        foldlM_cons_eq_ok_iff.mpr ⟨behind, hlast, hresult⟩⟩
  | trans hfirst hsecond ihfirst ihsecond => exact ihsecond (ihfirst hresult)

/-- Steps that come to the same one by one come to the same. -/
theorem foldlM_eq_ok_iff_of_forall₂ {inputs others : List Input}
    (hsame : List.Forall₂ (fun input other =>
      ∀ before behind, step before input = .ok behind ↔ step before other = .ok behind)
      inputs others) :
    inputs.foldlM step start = .ok result ↔ others.foldlM step start = .ok result := by
  induction hsame generalizing start with
  | nil => exact Iff.rfl
  | @cons input other inputs others hsame hrest ih =>
      rw [foldlM_cons_eq_ok_iff, foldlM_cons_eq_ok_iff]
      simp only [hsame, ih]

end

end Dealias
