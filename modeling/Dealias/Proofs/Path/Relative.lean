import Dealias.Path.Relative
import Dealias.Proofs.Path.Normalize

/-!
# The way to a target

The specifier from a directory to a target climbs out of the directory to the last common ancestor
and names what is left of the target.  A module behind the target is reached by a text behind the
specifier, and that text belongs to the last step of the way.

* `Location.exists_of_steps?`: the way in terms of the common part and the two rests.
* `Location.foldl_absorb_climbs`: going down a way and climbing as often as it has steps leads back,
  except that each `..` on the way takes two steps of what was there before.
* `relativeSpecifier?_reaches_iff`: when the specifier with a text behind it reaches the target with
  that text behind it.
-/

namespace Dealias

/-! ## The steps -/

theorem Location.steps?_nil_right (differs : Bool) (base : Location) :
    steps? differs base [] = some (base.map fun _ => .parent) := by
  induction base generalizing differs with
  | nil => rfl
  | cons component base ih => rw [steps?, ih, Option.map_some, List.map_cons]

/-- The way from a directory to a target: out of what the directory has behind the common part, and
into what the target has behind it. -/
theorem Location.exists_of_steps? {base target steps : Location} (hbase : .current ∉ base)
    (hsteps : steps? false base target = some steps) :
    ∃ common out down, base = common ++ out ∧ target = common ++ down ∧
      (∀ component ∈ out.head?, component ∉ down.head?) ∧
      steps = out.map (fun _ => .parent) ++ down := by
  induction base generalizing target with
  | nil =>
      obtain rfl := Option.some.inj ((steps?.eq_1 ..).symm.trans hsteps)
      exact ⟨[], [], target, rfl, rfl, by simp, rfl⟩
  | cons baseHead base ih =>
      obtain ⟨hcurrent, hrest⟩ := List.ne_and_not_mem_of_not_mem_cons hbase
      cases target with
      | nil =>
          rw [steps?_nil_right] at hsteps
          obtain rfl := Option.some.inj hsteps
          exact ⟨[], baseHead :: base, [], rfl, rfl, by simp, by simp⟩
      | cons targetHead target =>
          by_cases hsame : targetHead = baseHead
          · subst hsame
            rw [steps?, if_pos ⟨rfl, rfl⟩] at hsteps
            obtain ⟨common, out, down, rfl, rfl, hheads, rfl⟩ := ih hrest hsteps
            exact ⟨targetHead :: common, out, down, rfl, rfl, hheads, rfl⟩
          · rw [steps?, if_neg fun h => hsame h.2, if_neg (Ne.symm hcurrent)] at hsteps
            split at hsteps
            · cases hsteps
            · obtain rfl := Option.some.inj hsteps
              refine ⟨[], baseHead :: base, targetHead :: target, rfl, rfl, ?_, rfl⟩
              simpa using hsame

/-- The way to a target climbs, and then names components of the target. -/
theorem Location.mem_of_mem_steps? {differs : Bool} {base target steps : Location}
    (hsteps : Location.steps? differs base target = some steps) {component : Component}
    (hcomponent : component ∈ steps) : component = .parent ∨ component ∈ target := by
  induction differs, base, target using Location.steps?.induct generalizing steps with
  | case1 differs target =>
      obtain rfl := Option.some.inj ((Location.steps?.eq_1 ..).symm.trans hsteps)
      exact .inr hcomponent
  | case2 differs head base ih =>
      rw [Location.steps?] at hsteps
      obtain ⟨rest, hrest, rfl⟩ := Option.map_eq_some_iff.mp hsteps
      rcases List.mem_cons.mp hcomponent with rfl | hcomponent
      · exact .inl rfl
      · exact ih hrest hcomponent
  | case3 differs baseHead base targetHead target hskip ih =>
      rw [Location.steps?, if_pos hskip] at hsteps
      exact (ih hsteps hcomponent).imp_right (List.mem_cons_of_mem _)
  | case4 differs base targetHead target hskip ih =>
      rw [Location.steps?, if_neg hskip, if_pos rfl] at hsteps
      obtain ⟨rest, hrest, rfl⟩ := Option.map_eq_some_iff.mp hsteps
      rcases List.mem_cons.mp hcomponent with rfl | hcomponent
      · exact .inr (List.mem_cons_self ..)
      · exact (ih hrest hcomponent).imp_right (List.mem_cons_of_mem _)
  | case5 differs base targetHead target hskip hcurrent =>
      rw [Location.steps?, if_neg hskip, if_neg hcurrent, if_pos rfl] at hsteps
      cases hsteps
  | case6 differs baseHead base targetHead target hskip hcurrent hparent =>
      rw [Location.steps?, if_neg hskip, if_neg hcurrent, if_neg hparent] at hsteps
      obtain rfl := Option.some.inj hsteps
      simp only [List.cons_append, List.mem_cons, List.mem_append, List.mem_map] at hcomponent
      rcases hcomponent with h | ⟨-, -, h⟩ | h
      · exact .inl h
      · exact .inl h.symm
      · exact .inr (List.mem_cons.mpr h)

/-! ## Going down and climbing back -/

/-- Going down a way and climbing as often as it has steps comes to climbing twice for each `..` on
the way. -/
theorem Location.foldl_absorb_climbs (read : List Component) {out : Location}
    (hout : ∀ step ∈ out, step.IsStep) :
    (out ++ out.map fun _ => Component.parent).foldl absorb read =
      (List.replicate (2 * out.count .parent) .parent).foldl absorb read := by
  induction out generalizing read with
  | nil => rfl
  | cons step out ih =>
      obtain ⟨hstep, hothers⟩ := List.forall_mem_cons.mp hout
      -- the climbs are all alike, so the one for this step can be the last of them
      have hclimb : (step :: out).map (fun _ => Component.parent) =
          out.map (fun _ => .parent) ++ [.parent] := by
        simp only [List.map_const', List.length_cons, List.replicate_succ']
      rw [hclimb, List.cons_append, ← List.append_assoc, List.foldl_cons, List.foldl_append,
        ih _ hothers, ← List.foldl_append, ← List.replicate_succ']
      by_cases hparent : step = .parent
      · subst hparent
        rw [← List.foldl_cons, ← List.replicate_succ, List.count_cons_self]
        rfl
      · have hname : step.IsName := ⟨hstep, hparent⟩
        rw [List.replicate_succ, List.foldl_cons, absorb_name hname, absorb_parent_of_name hname,
          List.count_cons_of_ne hparent]

/-- Climbing takes names off a stack of names over the root. -/
theorem Location.foldl_absorb_replicate {names : List Component}
    (hnames : ∀ name ∈ names, name.IsName) (count : Nat) :
    (List.replicate count .parent).foldl absorb (names ++ [.root]) =
      names.drop count ++ [.root] := by
  induction count generalizing names with
  | zero => rfl
  | succ count ih =>
      rw [List.replicate_succ, List.foldl_cons]
      cases names with
      | nil =>
          -- there is no way up from the root
          have hroot : absorb ([] ++ [.root]) .parent = [.root] := rfl
          rw [hroot]
          simpa using ih hnames
      | cons name names =>
          obtain ⟨hname, hothers⟩ := List.forall_mem_cons.mp hnames
          rw [List.cons_append, absorb_parent_of_name hname]
          exact ih hothers

/-- Going a way from where it starts. -/
theorem Location.normalize_way {names out down : Location} (hnames : ∀ name ∈ names, name.IsName)
    (hout : ∀ step ∈ out, step.IsStep) (hdown : ∀ name ∈ down, name.IsName) :
    normalize (.root :: names ++ out ++ (out.map (fun _ => .parent) ++ down)) =
      .root :: names.take (names.length - 2 * out.count .parent) ++ down := by
  have hreversed : ∀ name ∈ names.reverse, name.IsName := by simpa using hnames
  -- the stack over the root when the way has been gone out and back
  have hstack : List.foldl absorb [] (.root :: names ++ (out ++ out.map fun _ => .parent)) =
      (names.take (names.length - 2 * out.count .parent)).reverse ++ [.root] :=
    calc List.foldl absorb [] (.root :: names ++ (out ++ out.map fun _ => .parent))
        = List.foldl absorb (names.foldl absorb [.root]) (out ++ out.map fun _ => .parent) := by
          rw [List.foldl_append, List.foldl_cons]
          rfl
      _ = List.foldl absorb (names.reverse ++ [.root]) (out ++ out.map fun _ => .parent) := by
          rw [foldl_absorb_names _ hnames]
      _ = names.reverse.drop (2 * out.count .parent) ++ [.root] := by
          rw [foldl_absorb_climbs _ hout, foldl_absorb_replicate hreversed]
      _ = (names.take (names.length - 2 * out.count .parent)).reverse ++ [.root] := by
          rw [List.drop_reverse]
  rw [← List.append_assoc, normalize_append_names _ hdown, List.append_assoc, normalize, hstack,
    List.reverse_append, List.reverse_reverse]
  rfl

/-! ## A text behind a path -/

/-- The steps with a text behind the last one. -/
def Location.extend (steps : Location) (suffix : String) : Location :=
  match steps.getLast? with
  | none => [.name suffix]
  | some last => steps.dropLast ++ [.name (last.text ++ suffix)]

@[simp] theorem Location.extend_nil (suffix : String) : extend [] suffix = [.name suffix] := rfl

@[simp] theorem Location.extend_concat (front : Location) (last : Component) (suffix : String) :
    extend (front ++ [last]) suffix = front ++ [.name (last.text ++ suffix)] := by
  simp [extend]

theorem Location.extend_append (front : Location) {steps : Location} (hsteps : steps ≠ [])
    (suffix : String) : extend (front ++ steps) suffix = front ++ steps.extend suffix := by
  obtain ⟨others, last, rfl⟩ := (List.eq_nil_or_concat' steps).resolve_left hsteps
  rw [← List.append_assoc, extend_concat, extend_concat, List.append_assoc]

/-- Whether a text completes every text without a slash to a name. -/
def EndsName (suffix : String) : Prop :=
  '/' ∉ suffix.toList ∧ suffix.toList.getLast? ≠ none ∧ suffix.toList.getLast? ≠ some '.'

instance (suffix : String) : Decidable (EndsName suffix) :=
  inferInstanceAs (Decidable ('/' ∉ suffix.toList ∧ suffix.toList.getLast? ≠ none ∧
    suffix.toList.getLast? ≠ some '.'))

theorem EndsName.isName {suffix : String} (hsuffix : EndsName suffix) (text : String)
    (htext : '/' ∉ text.toList) : (Component.name (text ++ suffix)).IsName := by
  obtain ⟨hslash, hsome, hdot⟩ := hsuffix
  have hlast : (text ++ suffix).toList.getLast? = suffix.toList.getLast? := by
    rw [String.toList_append, List.getLast?_append_of_ne_nil]
    simpa using hsome
  have hnameSlash : '/' ∉ (text ++ suffix).toList := by
    rw [String.toList_append, List.mem_append]
    exact fun h => h.elim htext hslash
  refine ⟨⟨hnameSlash, ?_⟩, nofun⟩
  change Component.ofSegment? (text ++ suffix).toList = _
  unfold Component.ofSegment?
  split
  · rename_i hempty
    rw [hempty] at hlast
    exact absurd hlast.symm hsome
  · rename_i hone
    rw [hone] at hlast
    exact absurd hlast.symm hdot
  · rename_i htwo
    rw [htwo] at hlast
    exact absurd hlast.symm hdot
  · rw [String.ofList_toList]

/-- The last of the extended steps is a name. -/
theorem Location.forall_mem_extend {holds : Component → Prop} {steps : Location}
    (hsteps : ∀ step ∈ steps, step.IsStep ∧ holds step) {suffix : String}
    (hsuffix : EndsName suffix) (hnames : ∀ name : Component, name.IsName → holds name) :
    ∀ step ∈ steps.extend suffix, holds step := by
  rcases List.eq_nil_or_concat' steps with rfl | ⟨front, last, rfl⟩
  · simpa using hnames _ (hsuffix.isName "" (by simp))
  · obtain ⟨hfront, hlast⟩ := List.forall_mem_append.mp hsteps
    rw [extend_concat, List.forall_mem_append]
    refine ⟨fun step hstep => (hfront step hstep).2, ?_⟩
    simpa using hnames _ (hsuffix.isName _ (hlast last (List.mem_singleton_self _)).1.1)

theorem Path.join_text_append (base : Path) {tail : String} (htail : tail.toList ≠ [])
    (suffix : String) :
    Path.mk ((base.join ⟨tail⟩).text ++ suffix) = base.join ⟨tail ++ suffix⟩ := by
  have habsolute : (Path.mk (tail ++ suffix)).isAbsolute = (Path.mk tail).isAbsolute := by
    rw [isAbsolute, isAbsolute, String.toList_append, List.head?_append_of_ne_nil _ htail]
  unfold join
  rw [habsolute]
  split
  · rfl
  split <;> simp [String.append_assoc]

theorem Path.ofLocation_concat (place : Location) (component : Component) :
    ofLocation (place ++ [component]) = (ofLocation place).join ⟨component.text⟩ :=
  List.foldl_append

/-- A text behind the text of a path is behind its last step. -/
theorem Path.ofLocation_text_append (front : Location) {steps : Location}
    (hfront : front = [] ∨ front = [.root]) (hsteps : ∀ step ∈ steps, step.IsStep)
    {suffix : String} (hslash : '/' ∉ suffix.toList) :
    Path.mk ((ofLocation (front ++ steps)).text ++ suffix) =
      ofLocation (front ++ steps.extend suffix) := by
  rcases List.eq_nil_or_concat' steps with rfl | ⟨others, last, rfl⟩
  · have hrelative : (Path.mk suffix).isAbsolute = false := by
      cases htext : suffix.toList with
      | nil => simp [isAbsolute, htext]
      | cons character rest =>
          simp only [isAbsolute, htext, List.head?_cons, beq_eq_false_iff_ne, ne_eq,
            Option.some.injEq]
          rintro rfl
          exact hslash (htext ▸ List.mem_cons_self ..)
    have hjoin : ofLocation (front ++ Location.extend [] suffix) =
        (ofLocation front).join ⟨suffix⟩ :=
      ofLocation_concat front _
    rw [hjoin, List.append_nil, join, hrelative]
    rcases hfront with rfl | rfl
    · rfl
    · rfl
  · obtain ⟨-, hlast⟩ := List.forall_mem_append.mp hsteps
    have htext : last.text.toList ≠ [] := by
      intro hempty
      have hsome := (hlast last (List.mem_singleton_self last)).2
      rw [hempty] at hsome
      cases hsome
    rw [Location.extend_concat, ← List.append_assoc, ← List.append_assoc, ofLocation_concat,
      ofLocation_concat]
    exact Path.join_text_append _ htext suffix

/-! ## The marked specifier -/

theorem ensureDotted_eq (specifier : String) :
    ensureDotted specifier =
      if "./".toList <+: specifier.toList ∨ "../".toList <+: specifier.toList then specifier
      else "./" ++ specifier := by
  have hone : "./".toList = ['.', '/'] := rfl
  have htwo : "../".toList = ['.', '.', '/'] := rfl
  rw [hone, htwo]
  unfold ensureDotted
  split
  · rename_i htext
    simp [htext]
  · rename_i htext
    simp [htext]
  · rename_i hone htwo
    rw [if_neg]
    rintro (⟨rest, hrest⟩ | ⟨rest, hrest⟩)
    · exact hone rest hrest.symm
    · exact htwo rest hrest.symm

/-- A specifier is marked in front. -/
theorem ensureDotted_dotted (specifier : String) :
    "./".toList <+: (ensureDotted specifier).toList ∨
      "../".toList <+: (ensureDotted specifier).toList := by
  rw [ensureDotted_eq]
  split
  · assumption
  · exact .inl (String.toList_append ▸ List.prefix_append ..)

/-- A text that does not hold the last character of a mark does not complete it. -/
theorem prefix_append_iff_of_notMem {mark front back : List Char} {character : Char}
    (hlast : mark.getLast? = some character) (hback : character ∉ back) :
    mark <+: front ++ back ↔ mark <+: front := by
  refine ⟨fun hprefix => ?_, fun hprefix => hprefix.trans (List.prefix_append ..)⟩
  rcases List.prefix_or_prefix_of_prefix hprefix (List.prefix_append front back) with h | h
  · exact h
  · obtain ⟨rest, rfl⟩ := h
    cases rest with
    | nil => simp
    | cons first rest =>
        rw [List.getLast?_append_of_ne_nil _ (by simp)] at hlast
        obtain ⟨others, hothers⟩ := (List.prefix_append_right_inj front).mp hprefix
        exact absurd (hothers ▸ List.mem_append_left _ (List.mem_of_getLast? hlast)) hback

theorem ensureDotted_append (specifier : String) {suffix : String}
    (hslash : '/' ∉ suffix.toList) :
    ensureDotted specifier ++ suffix = ensureDotted (specifier ++ suffix) := by
  have hmark : ∀ mark : List Char, mark.getLast? = some '/' →
      (mark <+: specifier.toList ++ suffix.toList ↔ mark <+: specifier.toList) :=
    fun mark hlast => prefix_append_iff_of_notMem hlast hslash
  have hone := hmark "./".toList rfl
  have htwo := hmark "../".toList rfl
  simp only [ensureDotted_eq, String.toList_append, hone, htwo]
  split
  · rfl
  · rw [String.append_assoc]

/-- The components of a marked specifier: there may be a `.` in front of those of the path. -/
theorem Path.location_ensureDotted {path : Path} (hrelative : path.isAbsolute = false) :
    (Path.mk (ensureDotted path.text)).location = path.location ∨
      (Path.mk (ensureDotted path.text)).location = Location.join [.current] path.location := by
  rw [ensureDotted_eq]
  split
  · exact .inl rfl
  · have hmark : Path.mk ("./" ++ path.text) = (Path.mk ".").join path := by
      have hdot : ¬ (".".toList = [] ∨ ".".toList.getLast? = some '/') := by decide
      rw [join, hrelative]
      simp only [Bool.false_eq_true, if_false, hdot]
      rfl
    rw [hmark, location_join]
    exact .inr rfl

/-- A mark in front changes nothing where there is something to start from. -/
theorem Path.location_join_ensureDotted {directory : Path} (hdirectory : directory.location ≠ [])
    {path : Path} (hpath : ∀ step ∈ path.location, step.IsStep) :
    (directory.join ⟨ensureDotted path.text⟩).location = directory.location ++ path.location := by
  rw [location_join]
  have hrelative : path.isAbsolute = false :=
    isAbsolute_eq_false_iff.mpr fun hmem => (hpath _ hmem).ne_root rfl
  rcases location_ensureDotted hrelative with hmarked | hmarked
  · rw [hmarked, Location.join_steps _ hpath]
  · rw [hmarked, Location.join_steps [.current] hpath, List.singleton_append,
      Location.join_current, if_neg hdirectory]

/-! ## Reaching the target -/

/-- What a directory and a target have in common behind the root, and what each has behind that. -/
structure Location.Fork (directory target : Location) (names out down : Location) : Prop where
  directory_eq : directory = .root :: names ++ out
  target_eq : target = .root :: names ++ down
  apart : ∀ component ∈ out.head?, component ∉ down.head?
  names : ∀ name ∈ names, name.IsName
  out : ∀ step ∈ out, step.IsStep
  down : ∀ name ∈ down, name.IsName

/-- Whether two places have nothing in common behind the root. -/
def Location.MeetAtRoot (first second : Location) : Prop :=
  ∀ component, [.root, component] <+: first → ¬ [.root, component] <+: second

namespace Location.Fork

variable {directory target names out down : Location}

theorem prefix_iff (hfork : Fork directory target names out down) :
    target <+: directory ↔ down = [] := by
  rw [hfork.directory_eq, hfork.target_eq, List.prefix_append_right_inj]
  refine ⟨fun hprefix => ?_, fun hdown => hdown ▸ List.nil_prefix⟩
  cases hdown : down with
  | nil => rfl
  | cons component rest =>
      obtain ⟨others, hothers⟩ := hdown ▸ hprefix
      exact absurd (by simp [hdown]) (hfork.apart component (by simp [← hothers]))

theorem eq_root_iff (hfork : Fork directory target names out down) :
    directory = [.root] ↔ names = [] ∧ out = [] := by
  rw [hfork.directory_eq]
  simp

theorem parent_mem_iff (hfork : Fork directory target names out down) :
    .parent ∈ directory ↔ out.count .parent ≠ 0 := by
  have hnames : .parent ∉ names := fun hmem => (hfork.names _ hmem).2 rfl
  rw [hfork.directory_eq, ne_eq, List.count_eq_zero, not_not]
  simp [hnames]

theorem meetAtRoot_iff (hfork : Fork directory target names out down) :
    MeetAtRoot directory target ↔ names = [] := by
  rw [hfork.directory_eq, hfork.target_eq, MeetAtRoot]
  constructor
  · intro hmeet
    cases names with
    | nil => rfl
    | cons name rest => exact absurd (by simp) (hmeet name (by simp))
  · rintro rfl component ⟨front, hfront⟩ ⟨back, hback⟩
    simp only [List.cons_append, List.nil_append, List.cons.injEq, true_and] at hfront hback
    exact hfork.apart component (by simp [← hfront]) (by simp [← hback])

/-- The way out and in leads where the target is unless it climbs too far. -/
theorem normalize_eq_iff (hfork : Fork directory target names out down) {down' : Location}
    (hdown' : ∀ name ∈ down', name.IsName) :
    normalize (directory ++ (out.map (fun _ => .parent) ++ down')) = .root :: (names ++ down') ↔
      .parent ∉ directory ∨ MeetAtRoot directory target := by
  -- a climb too far takes names of the common part, if there are any
  have htake : names.take (names.length - 2 * out.count .parent) = names ↔
      out.count .parent = 0 ∨ names = [] := by
    rw [← List.length_eq_zero_iff]
    constructor
    · intro hsame
      have hlength := congrArg List.length hsame
      rw [List.length_take] at hlength
      omega
    · exact fun hnone => List.take_of_length_le (by omega)
  rw [hfork.parent_mem_iff, hfork.meetAtRoot_iff, hfork.directory_eq,
    normalize_way hfork.names hfork.out hdown', List.cons_append, List.cons.injEq,
    List.append_left_inj, htake, not_not]
  exact and_iff_right rfl

/-- A text behind the way to an ancestor, or to the directory itself, does not belong to a name of
the ancestor. -/
theorem normalize_ne (hfork : Fork directory target names out []) (hroot : directory ≠ [.root])
    {suffix : String} (hsuffix : EndsName suffix) :
    normalize (directory ++ extend (out.map fun _ => .parent) suffix) ≠
      .root :: extend names suffix := by
  intro hsame
  rcases List.eq_nil_or_concat' out with rfl | ⟨climbed, last, rfl⟩
  · -- the text stands as a name of its own below the directory
    have hname : ∀ name ∈ [Component.name suffix], name.IsName := by
      simpa using hsuffix.isName "" (by simp)
    have hbelow := (hfork.normalize_eq_iff hname).mpr
      (.inl fun hparent => hfork.parent_mem_iff.mp hparent rfl)
    have hextend := (List.cons.inj (hbelow.symm.trans hsame)).2
    rcases List.eq_nil_or_concat' names with rfl | ⟨front, name, rfl⟩
    · exact hroot (hfork.eq_root_iff.mpr ⟨rfl, rfl⟩)
    · have hlength := congrArg List.length hextend
      simp at hlength
  · -- the text stands behind the last step out, which is no name
    have hclimb : (climbed ++ [last]).map (fun _ => Component.parent) =
        climbed.map (fun _ => .parent) ++ [.parent] := by simp
    have hname : ∀ name ∈ [Component.name (Component.parent.text ++ suffix)], name.IsName := by
      simpa using hsuffix.isName Component.parent.text (by decide)
    have hnamed : ∃ front text, extend names suffix = front ++ [.name (text ++ suffix)] ∧
        text ≠ Component.parent.text := by
      rcases List.eq_nil_or_concat' names with rfl | ⟨front, name, rfl⟩
      · exact ⟨[], "", by simp, by decide⟩
      · refine ⟨front, name.text, by simp, fun htext => ?_⟩
        have hlast := hfork.names name (List.mem_append_right _ (List.mem_singleton_self _))
        have hsome := hlast.1.2
        rw [htext] at hsome
        exact hlast.2 (Option.some.inj hsome).symm
    obtain ⟨front, text, hextend, htext⟩ := hnamed
    rw [hclimb, extend_concat, ← List.append_assoc, normalize_append_names _ hname, hextend,
      ← List.cons_append] at hsame
    have hlast := (List.append_inj' hsame rfl).2
    exact htext ((String.append_left_inj suffix).mp
      (Component.name.inj (List.cons.inj hlast).1)).symm

/-- The way with a text behind it leads to the target with that text behind it, unless there is no
name of the target on the way or the way climbs too far. -/
theorem normalize_extend_eq_iff (hfork : Fork directory target names out down) {suffix : String}
    (hsuffix : EndsName suffix) :
    normalize (directory ++ extend (out.map (fun _ => .parent) ++ down) suffix) =
        .root :: extend (names ++ down) suffix ↔
      (¬ target <+: directory ∨ directory = [.root]) ∧
        (.parent ∉ directory ∨ MeetAtRoot directory target) := by
  have hextended : ∀ name ∈ extend down suffix, name.IsName :=
    forall_mem_extend (fun name hname => ⟨(hfork.down name hname).1, hfork.down name hname⟩)
      hsuffix fun _ => id
  have hreaches := hfork.normalize_eq_iff hextended
  by_cases hbelow : down = []
  · -- the text belongs to no name of the target, unless nothing is climbed and nothing is named
    subst hbelow
    rw [List.append_nil, List.append_nil]
    by_cases hroot : directory = [.root]
    · obtain ⟨rfl, rfl⟩ := hfork.eq_root_iff.mp hroot
      rw [hroot] at hreaches ⊢
      exact hreaches.trans (and_iff_right (Or.inr rfl)).symm
    · simp only [hfork.normalize_ne hroot hsuffix, hfork.prefix_iff.mpr rfl, hroot, not_true,
        or_self, false_and]
  · -- the text belongs to the last name below the common part
    rw [extend_append _ hbelow, extend_append _ hbelow, hreaches]
    exact (and_iff_right (Or.inl (mt hfork.prefix_iff.mp hbelow))).symm

end Location.Fork

theorem Path.exists_steps_of_isAbsolute {path : Path} (habsolute : path.isAbsolute = true) :
    ∃ steps, path.location = .root :: steps ∧ ∀ step ∈ steps, step.IsStep := by
  obtain ⟨steps, hsteps⟩ := isAbsolute_iff.mp habsolute
  obtain ⟨front, others, hlocation, hfront, hothers⟩ := path.location_eq
  rw [hlocation] at hsteps
  rcases hfront with rfl | rfl | rfl
  · rw [List.nil_append] at hsteps
    exact absurd rfl (hothers .root (hsteps ▸ List.mem_cons_self ..)).ne_root
  · exact ⟨others, hlocation, hothers⟩
  · cases hsteps

/-- The normal form of an absolute path is spelled with the root and names. -/
theorem Path.exists_names_of_isAbsolute {path : Path} (habsolute : path.isAbsolute = true) :
    ∃ names, path.normalize = ofLocation (.root :: names) ∧ ∀ name ∈ names, name.IsName := by
  obtain ⟨steps, hlocation, hsteps⟩ := exists_steps_of_isAbsolute habsolute
  obtain ⟨names, hnormal, hnames⟩ := Location.normalize_absolute hsteps
  refine ⟨names, ?_, hnames⟩
  rw [normalize_of_ne_nil (by simp [hlocation, hnormal]), hlocation, hnormal]

theorem Path.location_ofLocation_root {steps : Location} (hsteps : ∀ step ∈ steps, step.IsStep) :
    (ofLocation (.root :: steps)).location = .root :: steps := by
  have hnames : Names ([.root] ++ steps) := names_append (.inr (.inl rfl)) hsteps
  exact location_ofLocation hnames

theorem Path.location_ofLocation_steps {steps : Location} (hsteps : ∀ step ∈ steps, step.IsStep) :
    (ofLocation steps).location = steps := by
  have hnames : Names ([] ++ steps) := names_append (.inl rfl) hsteps
  exact location_ofLocation hnames

section Reaching

variable {directory target : Path} {names : Location} {specifier suffix : String}

/-- Following a marked specifier is going its steps. -/
theorem normalize_join_eq_iff (hdirectory : directory.isAbsolute = true) {steps : Location}
    (hsteps : ∀ step ∈ steps, step.IsStep) (hnames : ∀ name ∈ names, name.IsName) :
    (directory.join ⟨ensureDotted (Path.ofLocation steps).text⟩).normalize =
        Path.ofLocation (.root :: names) ↔
      Location.normalize (directory.location ++ steps) = .root :: names := by
  obtain ⟨way, hlocation, hway⟩ := Path.exists_steps_of_isAbsolute hdirectory
  have hjoin : (directory.join ⟨ensureDotted (Path.ofLocation steps).text⟩).location =
      directory.location ++ steps := by
    rw [Path.location_join_ensureDotted (by simp [hlocation]) (by
      rwa [Path.location_ofLocation_steps hsteps]), Path.location_ofLocation_steps hsteps]
  obtain ⟨names', hnormal, hnames'⟩ :=
    Location.normalize_absolute (List.forall_mem_append.mpr ⟨hway, hsteps⟩)
  rw [← List.cons_append, ← hlocation] at hnormal
  rw [Path.normalize_of_ne_nil (by simp [hjoin, hnormal]), hjoin, hnormal]
  refine ⟨fun hsame => ?_, fun hsame => by rw [hsame]⟩
  have hplaces := congrArg Path.location hsame
  rwa [Path.location_ofLocation_root fun name hname => (hnames' name hname).1,
    Path.location_ofLocation_root fun name hname => (hnames name hname).1] at hplaces

/-- A specifier is the marked way from a directory to a target. -/
theorem exists_fork (hdirectory : directory.isAbsolute = true)
    (htarget : target = Path.ofLocation (.root :: names)) (hnames : ∀ name ∈ names, name.IsName)
    (hspecifier : relativeSpecifier? directory target = some specifier) :
    ∃ common out down, Location.Fork directory.location (.root :: names) common out down ∧
      specifier = ensureDotted (Path.ofLocation (out.map (fun _ => .parent) ++ down)).text := by
  obtain ⟨way, hlocation, hway⟩ := Path.exists_steps_of_isAbsolute hdirectory
  have hplace : target.location = .root :: names :=
    htarget ▸ Path.location_ofLocation_root fun name hname => (hnames name hname).1
  have habsolute : target.isAbsolute = directory.isAbsolute :=
    (Path.isAbsolute_iff.mpr ⟨_, hplace⟩).trans hdirectory.symm
  obtain ⟨path, hpath, rfl⟩ := Option.map_eq_some_iff.mp hspecifier
  rw [Path.relativeTo?, if_pos habsolute] at hpath
  obtain ⟨steps, hsteps, rfl⟩ := Option.map_eq_some_iff.mp hpath
  have hcurrent : Component.current ∉ directory.location := by
    rw [hlocation, List.mem_cons, not_or]
    exact ⟨nofun, fun hmem => (hway _ hmem).ne_current rfl⟩
  obtain ⟨common, out, down, hout, hdown, hapart, rfl⟩ :=
    Location.exists_of_steps? hcurrent hsteps
  -- both begin with the root, so the common part does
  cases common with
  | nil =>
      rw [List.nil_append] at hout hdown
      exact absurd (by simp [← hdown, hplace]) (hapart .root (by simp [← hout, hlocation]))
  | cons first common =>
      rw [hlocation, List.cons_append, List.cons.injEq] at hout
      rw [hplace, List.cons_append, List.cons.injEq] at hdown
      obtain ⟨rfl, rfl⟩ := hout
      obtain ⟨-, rfl⟩ := hdown
      obtain ⟨hcommon, hdownNames⟩ := List.forall_mem_append.mp hnames
      exact ⟨common, out, down, ⟨hlocation, rfl, hapart, hcommon,
        (List.forall_mem_append.mp hway).2, hdownNames⟩, rfl⟩

/-- **Reaching the target.**  The specifier of a target with a text behind it, seen from the
directory, is the target with that text behind it, in these cases and no others.  There has to be a
name of the target on the way for the text to belong to, unless the way starts from the root; and
the directory is not to be spelled with a `..` unless it meets the target only at the root. -/
theorem relativeSpecifier?_reaches_iff (hdirectory : directory.isAbsolute = true)
    (htarget : target = Path.ofLocation (.root :: names)) (hnames : ∀ name ∈ names, name.IsName)
    (hsuffix : suffix = "" ∨ EndsName suffix)
    (hspecifier : relativeSpecifier? directory target = some specifier) :
    (directory.join ⟨specifier ++ suffix⟩).normalize = ⟨target.text ++ suffix⟩ ↔
      (suffix = "" ∨ ¬ target.location <+: directory.location ∨ directory.location = [.root]) ∧
        (.parent ∉ directory.location ∨
          Location.MeetAtRoot directory.location target.location) := by
  have hplace : target.location = .root :: names :=
    htarget ▸ Path.location_ofLocation_root fun name hname => (hnames name hname).1
  obtain ⟨common, out, down, hfork, rfl⟩ :=
    exists_fork hdirectory htarget hnames hspecifier
  obtain rfl : names = common ++ down := (List.cons.inj hfork.target_eq).2
  have hclimb : ∀ step ∈ out.map fun _ => Component.parent, step.IsStep :=
    List.forall_mem_map.mpr fun _ _ => Component.isStep_parent
  have hdown : ∀ step ∈ down, step.IsStep := fun step hstep => (hfork.down step hstep).1
  have hsteps := List.forall_mem_append.mpr ⟨hclimb, hdown⟩
  rw [hplace]
  rcases hsuffix with rfl | hsuffix
  · rw [String.append_empty, String.append_empty, htarget,
      normalize_join_eq_iff hdirectory hsteps hnames, hfork.normalize_eq_iff hfork.down]
    simp
  · have hnonempty : suffix ≠ "" := by
      rintro rfl
      exact hsuffix.2.1 rfl
    have htargetText : (⟨target.text ++ suffix⟩ : Path) =
        Path.ofLocation (.root :: Location.extend (common ++ down) suffix) :=
      htarget ▸ Path.ofLocation_text_append [.root] (.inr rfl)
        (fun name hname => (hnames name hname).1) hsuffix.1
    have hspecifierText : ensureDotted
        (Path.ofLocation (out.map (fun _ => .parent) ++ down)).text ++ suffix =
          ensureDotted (Path.ofLocation
            (Location.extend (out.map (fun _ => .parent) ++ down) suffix)).text := by
      rw [ensureDotted_append _ hsuffix.1]
      exact congrArg (ensureDotted ·.text)
        (Path.ofLocation_text_append [] (.inl rfl) hsteps hsuffix.1)
    have hstepsExtended := Location.forall_mem_extend
      (fun step hstep => ⟨hsteps step hstep, hsteps step hstep⟩) hsuffix fun _ hname => hname.1
    have hnamesExtended := Location.forall_mem_extend
      (fun name hname => ⟨(hnames name hname).1, hnames name hname⟩) hsuffix fun _ => id
    rw [htargetText, hspecifierText,
      normalize_join_eq_iff hdirectory hstepsExtended hnamesExtended,
      hfork.normalize_extend_eq_iff hsuffix]
    simp only [hnonempty, false_or]

end Reaching

end Dealias
