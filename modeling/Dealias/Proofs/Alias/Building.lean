import Dealias.Proofs.Alias.Substitution

/-!
# Alias maps that make a table

Some alias maps make no table: a pattern or a target in them has two wildcards, a pattern goes on
behind its wildcard, or it has no targets.  All others make one, and nothing of them is lost.

* `AliasTable.build_exact`: which maps make no table and which fault they are refused with, and the
  table that each of the others makes.

## Strategy

Reading a pattern, a target and an entry of the map each has two lemmas, one for what it gives
(`readPattern_eq_ok_iff`) and one for what it refuses (`readPattern_eq_error_iff`).  The entries are
read in declared order up to the first fault (`mapM_eq_error_iff`).

The table is sorted afterwards, by an order in which aliases can tie.  Aliases that tie stay as they
were declared (`Alias.pairwise_goesBefore_mergeSort`), and then their order is settled: two lists of
the same aliases that are both in this order are equal (`Alias.eq_of_pairwise_goesBefore`).
-/

namespace Dealias

/-! ## Faults -/

/-- Whether an alias pattern has two wildcards, or goes on behind its wildcard. -/
def IsBadPattern (pattern : String) : Prop :=
  1 < pattern.toList.count '*' ∨ ∃ front back, pattern = front ++ "*" ++ back ∧ back ≠ ""

/-- Whether an entry of an alias map is refused: for its pattern, because it has no targets, or for
a target with two wildcards. -/
def IsBadEntry (entry : String × List String) : Prop :=
  IsBadPattern entry.1 ∨ entry.2 = [] ∨ ∃ target ∈ entry.2, 1 < target.toList.count '*'

/-- The first fault of an entry: that of its pattern, then that it has no targets, then that of its
first bad target. -/
inductive IsFirstFault (pattern : String) (targets : List String) : AliasFault → Prop
  | twoWildcards (hcount : 1 < pattern.toList.count '*') :
      IsFirstFault pattern targets (.invalidPattern pattern "only one wildcard is allowed")
  | innerWildcard (front back : String) (hpattern : pattern = front ++ "*" ++ back)
      (hback : back ≠ "") (hcount : pattern.toList.count '*' = 1) :
      IsFirstFault pattern targets
        (.invalidPattern pattern "the wildcard must be the last character")
  | noTargets (hpattern : ¬ IsBadPattern pattern) (hnone : targets = []) :
      IsFirstFault pattern targets (.noTargets pattern)
  | badTarget (front : List String) (target : String) (back : List String)
      (hpattern : ¬ IsBadPattern pattern) (htargets : targets = front ++ target :: back)
      (hfront : ∀ earlier ∈ front, earlier.toList.count '*' ≤ 1)
      (hcount : 1 < target.toList.count '*') :
      IsFirstFault pattern targets (.invalidPattern target "only one wildcard is allowed")

/-! ## What is read -/

/-- Whether a target stands for a target pattern: cut at its wildcard, if it has one, with the front
seen from the anchor. -/
def AliasTarget.StandsFor (anchor : Path) (text : String) (target : AliasTarget) : Prop :=
  (∃ front back, text = front ++ "*" ++ back ∧ '*' ∉ front.toList ∧ '*' ∉ back.toList ∧
      target = ⟨anchor.join ⟨front⟩, back⟩) ∨
    '*' ∉ text.toList ∧ target = ⟨anchor.join ⟨text⟩, ""⟩

namespace Alias

/-- Whether an alias stands for an entry of an alias map: named by the pattern, which is its literal
part, with a wildcard behind it unless the alias is exact, and with all targets in their order. -/
structure StandsFor (anchor : Path) (source : String × List String) (entry : Alias) : Prop where
  pattern : entry.pattern = source.1
  named : entry.IsNamed
  literal : '*' ∉ entry.literal.toList
  targets : List.Forall₂ (AliasTarget.StandsFor anchor) source.2 entry.targets

/-- Whether an alias goes before another one: it outranks the other, or they tie and `patterns` has
it first. -/
def GoesBefore (patterns : List String) (entry other : Alias) : Prop :=
  entry.Outranks other ∨
    (entry.literal.utf8ByteSize = other.literal.utf8ByteSize ∧ entry.kind = other.kind ∧
      [entry.pattern, other.pattern].Sublist patterns)

instance (patterns : List String) (entry other : Alias) :
    Decidable (entry.GoesBefore patterns other) :=
  inferInstanceAs (Decidable (_ ∨ _))

end Alias

/-! ## Texts with wildcards -/

theorem toList_around_wildcard (front back : String) :
    (front ++ "*" ++ back).toList = front.toList ++ '*' :: back.toList := by
  rw [String.toList_append, String.toList_append, List.append_assoc]
  rfl

theorem count_around_wildcard (front back : String) :
    (front ++ "*" ++ back).toList.count '*' =
      front.toList.count '*' + back.toList.count '*' + 1 := by
  rw [toList_around_wildcard, List.count_append, List.count_cons_self, ← Nat.add_assoc]

/-- A text with a wildcard in it is cut at the first one. -/
theorem exists_around_wildcard {text : String} (hmem : '*' ∈ text.toList) :
    ∃ front back, text = front ++ "*" ++ back ∧ '*' ∉ front.toList := by
  obtain ⟨front, back, htext, hfront⟩ := List.eq_append_cons_of_mem hmem
  refine ⟨String.ofList front, String.ofList back, ?_, ?_⟩
  · rw [← String.toList_inj, toList_around_wildcard, String.toList_ofList, String.toList_ofList,
      htext]
  · rw [String.toList_ofList]
    exact hfront

/-! ## Reading a pattern -/

theorem readPattern_of_notMem {pattern : String} (hnone : '*' ∉ pattern.toList) :
    readPattern pattern = .ok (pattern, .exact) := by
  have hcount : pattern.toList.count wildcard = 0 := List.count_eq_zero.mpr hnone
  simp only [readPattern, hcount]

theorem readPattern_of_leading {literal : String} (hnone : '*' ∉ literal.toList) :
    readPattern (literal ++ "*") = .ok (literal, .leading) := by
  have htext : (literal ++ "*").toList = literal.toList ++ [wildcard] := String.toList_append ..
  have hnone : literal.toList.count wildcard = 0 := List.count_eq_zero.mpr hnone
  have hcount : (literal.toList ++ [wildcard]).count wildcard = 1 := by
    rw [List.count_append, hnone, List.count_singleton_self]
  have hsplit := splitAtWildcard_append (List.count_eq_zero.mp hnone) []
  simp only [readPattern, htext, hcount, hsplit, List.getLast?_concat, if_pos, String.ofList_toList]

theorem readPattern_of_twoWildcards {pattern : String} (hcount : 1 < pattern.toList.count '*') :
    readPattern pattern = .error (.invalidPattern pattern oneWildcardReason) := by
  have hmany : 1 < pattern.toList.count wildcard := hcount
  unfold readPattern
  dsimp only
  split <;> first | omega | rfl

theorem readPattern_of_innerWildcard {front back : String} (hback : back ≠ "")
    (hcount : (front ++ "*" ++ back).toList.count '*' = 1) :
    readPattern (front ++ "*" ++ back) =
      .error (.invalidPattern (front ++ "*" ++ back) lastWildcardReason) := by
  have hnone : '*' ∉ back.toList := by
    rw [count_around_wildcard] at hcount
    exact List.count_eq_zero.mp (by omega)
  have hlast : (front ++ "*" ++ back).toList.getLast? ≠ some wildcard := by
    rw [String.toList_append, List.getLast?_append_of_ne_nil _ (by simpa using hback)]
    exact fun hlast => hnone (List.mem_of_getLast? hlast)
  have hone : (front ++ "*" ++ back).toList.count wildcard = 1 := hcount
  simp only [readPattern, hone, if_neg hlast]

theorem readPattern_pattern {kind : AliasKind} {literal : String} (hnone : '*' ∉ literal.toList) :
    readPattern (kind.pattern literal) = .ok (literal, kind) := by
  cases kind with
  | leading => exact readPattern_of_leading hnone
  | exact => exact readPattern_of_notMem hnone

/-- A pattern has two wildcards, or goes on behind its wildcard, or is made of a literal part. -/
theorem pattern_cases (pattern : String) :
    1 < pattern.toList.count '*' ∨
      (∃ front back, pattern = front ++ "*" ++ back ∧ back ≠ "" ∧
        pattern.toList.count '*' = 1) ∨
      ∃ (kind : AliasKind) (literal : String),
        pattern = kind.pattern literal ∧ '*' ∉ literal.toList := by
  by_cases hmem : '*' ∈ pattern.toList
  · obtain ⟨front, back, rfl, hfront⟩ := exists_around_wildcard hmem
    by_cases hback : back = ""
    · subst hback
      exact .inr (.inr ⟨.leading, front, String.append_empty, hfront⟩)
    · have hcount := count_around_wildcard front back
      by_cases hmany : 1 < (front ++ "*" ++ back).toList.count '*'
      · exact .inl hmany
      · exact .inr (.inl ⟨front, back, rfl, hback, by omega⟩)
  · exact .inr (.inr ⟨.exact, pattern, rfl, hmem⟩)

theorem readPattern_eq_ok_iff {pattern literal : String} {kind : AliasKind} :
    readPattern pattern = .ok (literal, kind) ↔
      pattern = kind.pattern literal ∧ '*' ∉ literal.toList := by
  constructor
  · intro hread
    rcases pattern_cases pattern with hmany | ⟨front, back, rfl, hback, hcount⟩ |
      ⟨kind', literal', rfl, hnone⟩
    · rw [readPattern_of_twoWildcards hmany] at hread
      cases hread
    · rw [readPattern_of_innerWildcard hback hcount] at hread
      cases hread
    · rw [readPattern_pattern hnone] at hread
      obtain ⟨rfl, rfl⟩ := Prod.mk.inj (Except.ok.inj hread)
      exact ⟨rfl, hnone⟩
  · rintro ⟨rfl, hnone⟩
    exact readPattern_pattern hnone

theorem readPattern_eq_error_iff {pattern : String} {fault : AliasFault} :
    readPattern pattern = .error fault ↔
      (1 < pattern.toList.count '*' ∧ fault = .invalidPattern pattern oneWildcardReason) ∨
      ((∃ front back, pattern = front ++ "*" ++ back ∧ back ≠ "" ∧
          pattern.toList.count '*' = 1) ∧
        fault = .invalidPattern pattern lastWildcardReason) := by
  constructor
  · intro hread
    rcases pattern_cases pattern with hmany | ⟨front, back, rfl, hback, hcount⟩ |
      ⟨kind, literal, rfl, hnone⟩
    · rw [readPattern_of_twoWildcards hmany] at hread
      exact .inl ⟨hmany, (Except.error.inj hread).symm⟩
    · rw [readPattern_of_innerWildcard hback hcount] at hread
      exact .inr ⟨⟨front, back, rfl, hback, hcount⟩, (Except.error.inj hread).symm⟩
    · rw [readPattern_pattern hnone] at hread
      cases hread
  · rintro (⟨hmany, rfl⟩ | ⟨⟨front, back, rfl, hback, hcount⟩, rfl⟩)
    · exact readPattern_of_twoWildcards hmany
    · exact readPattern_of_innerWildcard hback hcount

theorem isBadPattern_iff {pattern : String} :
    IsBadPattern pattern ↔ ∃ fault, readPattern pattern = .error fault := by
  constructor
  · intro hbad
    by_cases hmany : 1 < pattern.toList.count '*'
    · exact ⟨_, readPattern_of_twoWildcards hmany⟩
    · obtain ⟨front, back, rfl, hback⟩ := hbad.resolve_left hmany
      have hcount := count_around_wildcard front back
      exact ⟨_, readPattern_of_innerWildcard hback (by omega)⟩
  · intro hfault
    obtain ⟨fault, hread⟩ := hfault
    rcases readPattern_eq_error_iff.mp hread with
      ⟨hmany, -⟩ | ⟨⟨front, back, hpattern, hback, -⟩, -⟩
    · exact .inl hmany
    · exact .inr ⟨front, back, hpattern, hback⟩

theorem not_isBadPattern_iff {pattern : String} :
    ¬ IsBadPattern pattern ↔ ∃ part, readPattern pattern = .ok part := by
  rw [isBadPattern_iff]
  cases readPattern pattern <;> simp

/-! ## Reading a target -/

namespace AliasTarget

variable {anchor : Path} {text : String} {target : AliasTarget} {fault : AliasFault}

theorem exists_read_of_count (anchor : Path) (hcount : text.toList.count '*' ≤ 1) :
    ∃ target, read anchor text = .ok target :=
  ⟨_, if_pos hcount⟩

theorem read_of_twoWildcards (anchor : Path) (hcount : 1 < text.toList.count '*') :
    read anchor text = .error (.invalidPattern text oneWildcardReason) :=
  if_neg (Nat.not_le_of_lt hcount)

theorem exists_read_iff :
    (∃ target, read anchor text = .ok target) ↔ text.toList.count '*' ≤ 1 := by
  constructor
  · intro hread
    obtain ⟨target, hread⟩ := hread
    by_contra hmany
    rw [read_of_twoWildcards anchor (by omega)] at hread
    cases hread
  · exact exists_read_of_count anchor

theorem read_eq_error_iff :
    read anchor text = .error fault ↔
      1 < text.toList.count '*' ∧ fault = .invalidPattern text oneWildcardReason := by
  by_cases hcount : text.toList.count '*' ≤ 1
  · obtain ⟨target, hread⟩ := exists_read_of_count anchor hcount
    rw [hread]
    exact ⟨nofun, fun hmany => absurd hmany.1 (by omega)⟩
  · rw [read_of_twoWildcards anchor (by omega), Except.error.injEq, eq_comm,
      and_iff_right (by omega)]

/-- Cutting at the only wildcard, or not at all. -/
theorem read_eq_ok_iff : read anchor text = .ok target ↔ StandsFor anchor text target := by
  constructor
  · intro hread
    by_cases hmem : '*' ∈ text.toList
    · obtain ⟨front, back, rfl, hfront⟩ := exists_around_wildcard hmem
      have hcount := exists_read_iff.mp ⟨target, hread⟩
      rw [count_around_wildcard] at hcount
      have hback : '*' ∉ back.toList := List.count_eq_zero.mp (by omega)
      exact .inl ⟨front, back, rfl, hfront, hback, eq_of_read_wildcard hread⟩
    · exact .inr ⟨hmem, eq_of_read_plain hmem hread⟩
  · rintro (⟨front, back, rfl, hfront, hback, rfl⟩ | ⟨hnone, rfl⟩)
    · have hcount : (front ++ "*" ++ back).toList.count '*' ≤ 1 := by
        rw [count_around_wildcard, List.count_eq_zero.mpr hfront, List.count_eq_zero.mpr hback]
      obtain ⟨target, hread⟩ := exists_read_of_count anchor hcount
      rw [hread, eq_of_read_wildcard hread]
    · obtain ⟨target, hread⟩ := exists_read_of_count anchor
        ((List.count_eq_zero.mpr hnone).trans_le (Nat.zero_le 1))
      rw [hread, eq_of_read_plain hnone hread]

end AliasTarget

/-! ## Reading an entry -/

namespace Alias

variable {anchor : Path} {pattern : String} {targets : List String}

theorem read_of_readPattern_error {fault : AliasFault}
    (hpattern : readPattern pattern = .error fault) :
    Alias.read anchor pattern targets = .error fault := by
  unfold Alias.read
  rw [hpattern]
  rfl

theorem read_of_readPattern_ok {part : String × AliasKind}
    (hpattern : readPattern pattern = .ok part) :
    Alias.read anchor pattern targets =
      if targets = [] then .error (.noTargets pattern)
      else (targets.mapM (AliasTarget.read anchor)).map fun read =>
        ⟨pattern, part.1, part.2, read⟩ := by
  unfold Alias.read
  rw [hpattern]
  cases targets with
  | nil => rfl
  | cons target targets => cases hread : (target :: targets).mapM (AliasTarget.read anchor) <;> rfl

theorem read_eq_ok_iff {entry : Alias} :
    Alias.read anchor pattern targets = .ok entry ↔
      targets ≠ [] ∧ StandsFor anchor (pattern, targets) entry := by
  constructor
  · intro hread
    obtain ⟨hpattern, hnamed⟩ := isNamed_of_read hread
    have htargets := forall₂_targets hread
    cases hpart : readPattern pattern with
    | error fault =>
        rw [read_of_readPattern_error hpart] at hread
        cases hread
    | ok part =>
        rw [read_of_readPattern_ok hpart] at hread
        split at hread
        · cases hread
        · rename_i hsome
          obtain ⟨read, -, rfl⟩ := map_eq_ok_iff.mp hread
          have hliteral : '*' ∉ part.1.toList := (readPattern_eq_ok_iff.mp hpart).2
          have htargets := htargets.imp fun _ _ => AliasTarget.read_eq_ok_iff.mp
          exact ⟨hsome, hpattern, hnamed, hliteral, htargets⟩
  · rintro ⟨hsome, hpattern, hnamed, hliteral, htargets⟩
    obtain rfl : entry.pattern = pattern := hpattern
    have hpart : readPattern entry.pattern = .ok (entry.literal, entry.kind) :=
      readPattern_eq_ok_iff.mpr ⟨hnamed, hliteral⟩
    have hread : targets.mapM (AliasTarget.read anchor) = .ok entry.targets :=
      mapM_eq_ok_iff.mpr (htargets.imp fun _ _ => AliasTarget.read_eq_ok_iff.mpr)
    rw [read_of_readPattern_ok hpart, if_neg hsome, hread]
    rfl

theorem isFirstFault_iff_of_bad {fault : AliasFault} (hbad : readPattern pattern = .error fault)
    {other : AliasFault} : IsFirstFault pattern targets other ↔ fault = other := by
  have hpattern : IsBadPattern pattern := isBadPattern_iff.mpr ⟨fault, hbad⟩
  constructor
  · intro hfirst
    cases hfirst with
    | twoWildcards hmany =>
        rw [readPattern_of_twoWildcards hmany] at hbad
        exact (Except.error.inj hbad).symm
    | innerWildcard front back hcut hback hcount =>
        subst hcut
        rw [readPattern_of_innerWildcard hback hcount] at hbad
        exact (Except.error.inj hbad).symm
    | noTargets hgood => exact absurd hpattern hgood
    | badTarget _ _ _ hgood => exact absurd hpattern hgood
  · rintro rfl
    rcases readPattern_eq_error_iff.mp hbad with
      ⟨hmany, rfl⟩ | ⟨⟨front, back, hcut, hback, hcount⟩, rfl⟩
    · exact .twoWildcards hmany
    · exact .innerWildcard front back hcut hback hcount

theorem isFirstFault_iff_of_good (hgood : ¬ IsBadPattern pattern) {fault : AliasFault} :
    IsFirstFault pattern targets fault ↔
      (targets = [] ∧ fault = .noTargets pattern) ∨
      ∃ front target back, targets = front ++ target :: back ∧
        (∀ earlier ∈ front, earlier.toList.count '*' ≤ 1) ∧
        1 < target.toList.count '*' ∧ fault = .invalidPattern target oneWildcardReason := by
  constructor
  · intro hfirst
    cases hfirst with
    | twoWildcards hmany => exact absurd (.inl hmany) hgood
    | innerWildcard front back hcut hback => exact absurd (.inr ⟨front, back, hcut, hback⟩) hgood
    | noTargets _ hnone => exact .inl ⟨hnone, rfl⟩
    | badTarget front target back _ htargets hfront hcount =>
        exact .inr ⟨front, target, back, htargets, hfront, hcount, rfl⟩
  · rintro (⟨hnone, rfl⟩ | ⟨front, target, back, htargets, hfront, hcount, rfl⟩)
    · exact .noTargets hgood hnone
    · exact .badTarget front target back hgood htargets hfront hcount

/-- An entry is refused with its first fault. -/
theorem read_eq_error_iff {fault : AliasFault} :
    Alias.read anchor pattern targets = .error fault ↔ IsFirstFault pattern targets fault := by
  cases hpart : readPattern pattern with
  | error first =>
      rw [read_of_readPattern_error hpart, Except.error.injEq, isFirstFault_iff_of_bad hpart]
  | ok part =>
      rw [read_of_readPattern_ok hpart, isFirstFault_iff_of_good
        (not_isBadPattern_iff.mpr ⟨part, hpart⟩)]
      split
      · rename_i hnone
        subst hnone
        rw [Except.error.injEq, eq_comm]
        constructor
        · exact fun hfault => .inl ⟨rfl, hfault⟩
        · rintro (⟨-, hfault⟩ | ⟨front, target, back, hnil, -⟩)
          · exact hfault
          · simp at hnil
      · rename_i hsome
        simp only [map_eq_error_iff, mapM_eq_error_iff, AliasTarget.exists_read_iff,
          AliasTarget.read_eq_error_iff, hsome, false_and, false_or]

theorem isBadEntry_of_isFirstFault {fault : AliasFault}
    (hfirst : IsFirstFault pattern targets fault) : IsBadEntry (pattern, targets) := by
  cases hfirst with
  | twoWildcards hcount => exact .inl (.inl hcount)
  | innerWildcard front back hcut hback => exact .inl (.inr ⟨front, back, hcut, hback⟩)
  | noTargets _ hnone => exact .inr (.inl hnone)
  | badTarget front target back _ htargets _ hcount =>
      refine .inr (.inr ⟨target, ?_, hcount⟩)
      show target ∈ targets
      rw [htargets]
      exact List.mem_append_cons_self

theorem not_isBadEntry_of_read {entry : Alias}
    (hread : Alias.read anchor pattern targets = .ok entry) : ¬ IsBadEntry (pattern, targets) := by
  obtain ⟨hsome, hpattern, hnamed, hliteral, -⟩ := read_eq_ok_iff.mp hread
  have hpart : readPattern pattern = .ok (entry.literal, entry.kind) :=
    readPattern_eq_ok_iff.mpr ⟨hpattern.symm.trans hnamed, hliteral⟩
  rintro (hbad | hnone | ⟨target, htarget, hcount⟩)
  · exact not_isBadPattern_iff.mpr ⟨_, hpart⟩ hbad
  · exact hsome hnone
  · have htargets := exists_of_mapM_eq_ok (mapM_eq_ok_iff.mpr (forall₂_targets hread))
    have hcount' := AliasTarget.exists_read_iff.mp (htargets target htarget)
    omega

theorem isBadEntry_iff (anchor : Path) :
    IsBadEntry (pattern, targets) ↔ ∃ fault, Alias.read anchor pattern targets = .error fault := by
  cases hread : Alias.read anchor pattern targets with
  | ok entry => exact ⟨fun hbad => absurd hbad (not_isBadEntry_of_read hread), nofun⟩
  | error fault =>
      have hbad := isBadEntry_of_isFirstFault (read_eq_error_iff.mp hread)
      exact ⟨fun _ => ⟨fault, rfl⟩, fun _ => hbad⟩

theorem not_isBadEntry_iff (anchor : Path) :
    ¬ IsBadEntry (pattern, targets) ↔ ∃ entry, Alias.read anchor pattern targets = .ok entry := by
  rw [isBadEntry_iff anchor]
  cases Alias.read anchor pattern targets <;> simp

end Alias

/-! ## Ties -/

/-- Of two members of a list one is in front of the other. -/
theorem pair_sublist_or_of_mem {Member : Type} {members : List Member} {first second : Member}
    (hfirst : first ∈ members) (hsecond : second ∈ members) (hne : first ≠ second) :
    [first, second].Sublist members ∨ [second, first].Sublist members := by
  obtain ⟨front, back, rfl⟩ := List.append_of_mem hfirst
  rcases List.mem_append.mp hsecond with hfront | hback
  · right
    exact (List.singleton_sublist.mpr hfront).append
      (List.singleton_sublist.mpr (List.mem_cons_self ..))
  · left
    have hback := (List.mem_cons.mp hback).resolve_left hne.symm
    exact ((List.singleton_sublist.mpr hback).cons_cons first).trans
      (List.sublist_append_right ..)

/-- No member of a list without repetitions is both in front of another one and behind it. -/
theorem not_pair_sublist_of_nodup {Member : Type} {members : List Member} {first second : Member}
    (hnodup : members.Nodup) (hpair : [first, second].Sublist members) :
    ¬ [second, first].Sublist members := by
  induction members with
  | nil => cases hpair
  | cons member members ih =>
      obtain ⟨hmember, hnodup⟩ := List.nodup_cons.mp hnodup
      intro hpair'
      cases hpair with
      | cons _ hpair =>
          cases hpair' with
          | cons _ hpair' => exact ih hnodup hpair hpair'
          | cons_cons _ hfirst => exact hmember (hpair.subset (by simp))
      | cons_cons _ hsecond =>
          cases hpair' with
          | cons _ hpair' => exact hmember (hpair'.subset (by simp))
          | cons_cons _ hfirst => exact hmember (hfirst.subset (by simp))

namespace Alias

theorem not_outranks_of_tie {entry other : Alias}
    (hsize : entry.literal.utf8ByteSize = other.literal.utf8ByteSize)
    (hkind : entry.kind = other.kind) : ¬ entry.Outranks other := by
  rintro (hlonger | ⟨-, hexact, hleading⟩)
  · omega
  · rw [hkind, hleading] at hexact
    cases hexact

theorem GoesBefore.asymm {patterns : List String} (hpatterns : patterns.Nodup)
    {entry other : Alias} (hbefore : entry.GoesBefore patterns other) :
    ¬ other.GoesBefore patterns entry := by
  intro hbehind
  rcases hbefore with houtranks | ⟨hsize, hkind, hpair⟩
  · rcases hbehind with houtranks' | ⟨hsize, hkind, -⟩
    · exact houtranks.asymm houtranks'
    · exact not_outranks_of_tie hsize.symm hkind.symm houtranks
  · rcases hbehind with houtranks | ⟨-, -, hpair'⟩
    · exact not_outranks_of_tie hsize.symm hkind.symm houtranks
    · exact not_pair_sublist_of_nodup hpatterns hpair hpair'

/-- The same aliases in the same order. -/
theorem eq_of_pairwise_goesBefore {patterns : List String} (hpatterns : patterns.Nodup)
    {entries others : List Alias} (hentries : entries.Pairwise (GoesBefore patterns))
    (hothers : others.Pairwise (GoesBefore patterns)) (hperm : entries.Perm others) :
    entries = others :=
  List.Perm.eq_of_pairwise
    (fun _ _ _ _ hbefore hbehind => absurd hbehind (hbefore.asymm hpatterns)) hentries hothers hperm

/-- Sorting leaves aliases that tie as they were. -/
theorem pairwise_goesBefore_mergeSort {entries : List Alias}
    (hpatterns : (entries.map Alias.pattern).Nodup) :
    (entries.mergeSort precedes).Pairwise (GoesBefore (entries.map Alias.pattern)) := by
  have hnodup : (entries.mergeSort precedes).Nodup :=
    (List.mergeSort_perm ..).nodup_iff.mpr (List.Nodup.of_map _ hpatterns)
  have hsorted := List.pairwise_mergeSort precedes_trans precedes_total entries
  rw [List.pairwise_iff_forall_sublist] at hsorted ⊢
  intro first second hpair
  have hne : first ≠ second := by
    rintro rfl
    exact List.nodup_iff_sublist.mp hnodup first hpair
  rcases precedes_iff.mp (hsorted hpair) with hlonger | ⟨hsize, hkinds⟩
  · exact .inl (.inl hlonger)
  · by_cases hkind : first.kind = second.kind
    · refine .inr ⟨hsize.symm, hkind, ?_⟩
      have hbehind : second.precedes first = true := by
        rw [precedes_iff, hkind]
        exact .inr ⟨hsize.symm, by cases second.kind <;> simp⟩
      have hmem : ∀ entry ∈ [first, second], entry ∈ entries := fun entry hentry =>
        (List.mergeSort_perm ..).mem_iff.mp (hpair.subset hentry)
      -- the other way round, the sort would have kept them the other way round
      rcases pair_sublist_or_of_mem (hmem first (by simp)) (hmem second (by simp)) hne with
        horder | horder
      · exact horder.map Alias.pattern
      · exact absurd (List.pair_sublist_mergeSort precedes_trans precedes_total hbehind horder)
          (not_pair_sublist_of_nodup hnodup hpair)
    · refine .inl (.inr ⟨hsize, ?_⟩)
      cases hfirst : first.kind <;> cases hsecond : second.kind <;> simp_all

end Alias

/-! ## Tables -/

namespace AliasTable

variable {paths : OrderedMap (List String)} {outDir baseUrl : Path}

theorem build_eq (paths : OrderedMap (List String)) (outDir baseUrl : Path) :
    build paths outDir baseUrl =
      (paths.entries.mapM fun entry => Alias.read (baseUrl.anchor outDir) entry.1 entry.2).map
        fun entries => ⟨entries.mergeSort Alias.precedes⟩ := by
  unfold build
  dsimp only
  cases paths.entries.mapM fun entry => Alias.read (baseUrl.anchor outDir) entry.1 entry.2 <;> rfl

/-- A map is refused with the first fault of its first bad entry. -/
theorem build_eq_error_iff {fault : AliasFault} :
    build paths outDir baseUrl = .error fault ↔
      ∃ front pattern targets back, paths.entries = front ++ (pattern, targets) :: back ∧
        (∀ earlier ∈ front, ¬ IsBadEntry earlier) ∧ IsFirstFault pattern targets fault := by
  have hgood : ∀ entry : String × List String, (∃ result,
      Alias.read (baseUrl.anchor outDir) entry.1 entry.2 = .ok result) ↔ ¬ IsBadEntry entry :=
    fun _ => (Alias.not_isBadEntry_iff _).symm
  simp only [build_eq, map_eq_error_iff, mapM_eq_error_iff, hgood, Alias.read_eq_error_iff,
    Prod.exists]

theorem exists_isBadEntry {fault : AliasFault}
    (hbuild : build paths outDir baseUrl = .error fault) :
    ∃ entry ∈ paths.entries, IsBadEntry entry := by
  obtain ⟨front, pattern, targets, back, hentries, -, hfirst⟩ := build_eq_error_iff.mp hbuild
  refine ⟨(pattern, targets), ?_, Alias.isBadEntry_of_isFirstFault hfirst⟩
  rw [hentries]
  exact List.mem_append_cons_self

/-- A map without bad entries makes a table. -/
theorem exists_build_iff :
    (∃ table, build paths outDir baseUrl = .ok table) ↔
      ∀ entry ∈ paths.entries, ¬ IsBadEntry entry := by
  constructor
  · intro hbuild
    obtain ⟨table, hbuild⟩ := hbuild
    obtain ⟨entries, hentries, -⟩ := exists_of_build hbuild
    intro entry hentry
    exact (Alias.not_isBadEntry_iff _).mpr
      (exists_of_mapM_eq_ok (mapM_eq_ok_iff.mpr hentries) entry hentry)
  · intro hgood
    cases hbuild : build paths outDir baseUrl with
    | ok table => exact ⟨table, rfl⟩
    | error fault =>
        obtain ⟨entry, hentry, hbad⟩ := exists_isBadEntry hbuild
        exact absurd hbad (hgood entry hentry)

/-- A map with a bad entry makes none. -/
theorem exists_fault_iff :
    (∃ fault, build paths outDir baseUrl = .error fault) ↔
      ∃ entry ∈ paths.entries, IsBadEntry entry := by
  constructor
  · intro hbuild
    obtain ⟨fault, hbuild⟩ := hbuild
    exact exists_isBadEntry hbuild
  · intro hbad
    obtain ⟨entry, hentry, hbad⟩ := hbad
    cases hbuild : build paths outDir baseUrl with
    | ok table => exact absurd hbad (exists_build_iff.mp ⟨table, hbuild⟩ entry hentry)
    | error fault => exact ⟨fault, rfl⟩

theorem patterns_of_standsFor {anchor : Path} {sources : List (String × List String)}
    {entries : List Alias} (hstands : List.Forall₂ (Alias.StandsFor anchor) sources entries) :
    entries.map Alias.pattern = sources.map Prod.fst := by
  rw [← List.forall₂_eq_eq_eq, List.forall₂_map_left_iff, List.forall₂_map_right_iff]
  exact hstands.flip.imp fun _ _ hstands => hstands.pattern

/-- The table that is made of the aliases that stand for the entries of a map. -/
theorem build_eq_ok_iff {table : AliasTable} :
    build paths outDir baseUrl = .ok table ↔
      (∀ entry ∈ paths.entries, ¬ IsBadEntry entry) ∧
      table.entries.Pairwise (Alias.GoesBefore (paths.entries.map Prod.fst)) ∧
      ∃ declared, List.Forall₂ (Alias.StandsFor (baseUrl.anchor outDir)) paths.entries declared ∧
        table.entries.Perm declared := by
  have hsorted : ∀ declared,
      List.Forall₂ (Alias.StandsFor (baseUrl.anchor outDir)) paths.entries declared →
        (declared.mergeSort Alias.precedes).Pairwise
          (Alias.GoesBefore (paths.entries.map Prod.fst)) := by
    intro declared hstands
    rw [← patterns_of_standsFor hstands]
    exact Alias.pairwise_goesBefore_mergeSort (patterns_of_standsFor hstands ▸ paths.distinct)
  constructor
  · intro hbuild
    obtain ⟨declared, hread, rfl⟩ := exists_of_build hbuild
    have hstands := hread.imp fun _ _ hread => (Alias.read_eq_ok_iff.mp hread).2
    exact ⟨exists_build_iff.mp ⟨_, hbuild⟩, hsorted declared hstands, declared, hstands,
      List.mergeSort_perm ..⟩
  · rintro ⟨hgood, hordered, declared, hstands, hperm⟩
    have hread : (paths.entries.mapM fun entry =>
        Alias.read (baseUrl.anchor outDir) entry.1 entry.2) = .ok declared := by
      refine mapM_eq_ok_iff.mpr (List.forall₂_iff_get.mpr ⟨hstands.length_eq, ?_⟩)
      intro place hsource hentry
      have hsome : (paths.entries.get ⟨place, hsource⟩).2 ≠ [] := fun hnone =>
        hgood _ (List.get_mem ..) (.inr (.inl hnone))
      exact Alias.read_eq_ok_iff.mpr
        ⟨hsome, (List.forall₂_iff_get.mp hstands).2 place hsource hentry⟩
    have hentries : declared.mergeSort Alias.precedes = table.entries :=
      Alias.eq_of_pairwise_goesBefore paths.distinct (hsorted declared hstands) hordered
        ((List.mergeSort_perm ..).trans hperm.symm)
    rw [build_eq, hread]
    exact congrArg (fun entries => Except.ok (AliasTable.mk entries)) hentries

/-- **Construction of alias tables.**  A map makes no table just when one of its entries is bad, and
the fault is then the first one of the first bad entry in declared order.  A table is what a map
makes just when no entry is bad, the table has exactly the aliases that stand for the entries, each
with all its targets in declared order, and the aliases go from longer to shorter literal parts,
exact ones first where the lengths are equal, and as declared where the kinds are equal too.  So
there is one alias for each key. -/
theorem build_exact (paths : OrderedMap (List String)) (outDir baseUrl : Path) :
    ((∃ fault, build paths outDir baseUrl = .error fault) ↔
      ∃ entry ∈ paths.entries, IsBadEntry entry) ∧
    (∀ fault, build paths outDir baseUrl = .error fault ↔
      ∃ front pattern targets back, paths.entries = front ++ (pattern, targets) :: back ∧
        (∀ earlier ∈ front, ¬ IsBadEntry earlier) ∧ IsFirstFault pattern targets fault) ∧
    ∀ table, build paths outDir baseUrl = .ok table ↔
      (∀ entry ∈ paths.entries, ¬ IsBadEntry entry) ∧
      table.entries.Pairwise (Alias.GoesBefore (paths.entries.map Prod.fst)) ∧
      (∃ declared, List.Forall₂ (Alias.StandsFor (baseUrl.anchor outDir)) paths.entries declared ∧
        table.entries.Perm declared) ∧
      (table.entries.map Alias.pattern).Perm (paths.entries.map Prod.fst) ∧
      (table.entries.map Alias.pattern).Nodup ∧
      table.entries.length = paths.entries.length := by
  refine ⟨exists_fault_iff, fun fault => build_eq_error_iff, fun table => ?_⟩
  rw [build_eq_ok_iff]
  constructor
  · intro hbuild
    obtain ⟨hgood, hordered, declared, hstands, hperm⟩ := hbuild
    have hpatterns : (table.entries.map Alias.pattern).Perm (paths.entries.map Prod.fst) := by
      rw [← patterns_of_standsFor hstands]
      exact hperm.map _
    exact ⟨hgood, hordered, ⟨declared, hstands, hperm⟩, hpatterns,
      hpatterns.nodup_iff.mpr paths.distinct, hperm.length_eq.trans hstands.length_eq.symm⟩
  · intro htable
    obtain ⟨hgood, hordered, hstands, -⟩ := htable
    exact ⟨hgood, hordered, hstands⟩

/-- An alias map with two keys that tie, declared before a longer text that is no longer without
its wildcard. -/
def tiedPaths : OrderedMap (List String) where
  entries := [("b/*", ["x/*/y", "z"]), ("a/*", ["z"]), ("c/", ["z"])]
  distinct := by decide

/-- Its aliases, as declared. -/
def tied : List Alias :=
  [⟨"b/*", "b/", .leading, [⟨⟨"/p/dist/x/"⟩, "/y"⟩, ⟨⟨"/p/dist/z"⟩, ""⟩]⟩,
    ⟨"a/*", "a/", .leading, [⟨⟨"/p/dist/z"⟩, ""⟩]⟩,
    ⟨"c/", "c/", .exact, [⟨⟨"/p/dist/z"⟩, ""⟩]⟩]

/-- A map with a second key that is bad in two ways and a third that is bad in another way, and a
map whose aliases are not tried as they are declared. -/
theorem build_exact_sample :
    build (.ofList [("@/*", ["src/*"]), ("a*b", []), ("c", ["*/*"])]) ⟨"/p/dist"⟩ ⟨"."⟩ =
        .error (.invalidPattern "a*b" "the wildcard must be the last character") ∧
      build tiedPaths ⟨"/p/dist"⟩ ⟨"."⟩ = .ok ⟨tied.drop 2 ++ tied.take 2⟩ := by
  have hanchor : (⟨"."⟩ : Path).anchor ⟨"/p/dist"⟩ = ⟨"/p/dist"⟩ := by decide +kernel
  constructor
  · refine ((build_exact _ _ _).2.1 _).mpr ⟨[("@/*", ["src/*"])], "a*b", [], [("c", ["*/*"])],
      rfl, fun earlier hearlier => ?_, .innerWildcard "a" "b" rfl (by decide) (by decide)⟩
    obtain rfl := List.mem_singleton.mp hearlier
    exact (Alias.not_isBadEntry_iff ⟨"/p/dist"⟩).mpr ⟨_, rfl⟩
  · have hread : (tiedPaths.entries.mapM fun entry =>
        Alias.read ⟨"/p/dist"⟩ entry.1 entry.2) = .ok tied := rfl
    refine ((build_exact _ _ _).2.2 _).mpr ⟨fun entry hentry => ?_, by decide,
      ⟨tied, ?_, List.perm_append_comm⟩, by decide, by decide, rfl⟩
    · exact (Alias.not_isBadEntry_iff ⟨"/p/dist"⟩).mpr (exists_of_mapM_eq_ok hread entry hentry)
    · rw [hanchor]
      exact (mapM_eq_ok_iff.mp hread).imp fun _ _ hread => (Alias.read_eq_ok_iff.mp hread).2

end AliasTable

end Dealias
