import Dealias.Proofs.Alias.Precedence
import Dealias.Proofs.Path.Suffix

/-!
# What the targets of an alias name

A target pattern is cut at its wildcard, and the text in front is joined to the anchor.  The text
under the wildcard of the alias is put between the two parts, whatever slashes it has.

* `AliasTable.candidate_eq`: the candidates of a table that is built, in terms of the map that it is
  built from.

A target without a wildcard is not taken as it is: the text under the wildcard of the alias is put
behind it.  `AliasTable.candidate_lengthened_sample` is such a case.
-/

namespace Dealias

/-! ## Targets -/

theorem splitAtWildcard_of_notMem {text : List Char} (hnone : wildcard ∉ text) :
    splitAtWildcard text = (text, []) := by
  induction text with
  | nil => rfl
  | cons first rest ih =>
      rw [List.mem_cons, not_or] at hnone
      rw [splitAtWildcard, if_neg (Ne.symm hnone.1), ih hnone.2]

/-- A target with a wildcard is cut there. -/
theorem AliasTarget.eq_of_read_wildcard {anchor : Path} {front back : String} {target : AliasTarget}
    (hread : read anchor (front ++ "*" ++ back) = .ok target) :
    target = ⟨anchor.join ⟨front⟩, back⟩ := by
  have htext : (front ++ "*" ++ back).toList = front.toList ++ wildcard :: back.toList := by
    rw [String.toList_append, String.toList_append, List.append_assoc]
    rfl
  unfold read at hread
  dsimp only at hread
  rw [htext] at hread
  split at hread
  · rename_i hcount
    have hfront : wildcard ∉ front.toList := by
      rw [List.count_append, List.count_cons_self] at hcount
      exact List.count_eq_zero.mp (by omega)
    rw [splitAtWildcard_append hfront, String.ofList_toList, String.ofList_toList] at hread
    exact (Except.ok.inj hread).symm
  · cases hread

/-- A target without a wildcard is the text in front. -/
theorem AliasTarget.eq_of_read_plain {anchor : Path} {text : String} {target : AliasTarget}
    (hnone : wildcard ∉ text.toList) (hread : read anchor text = .ok target) :
    target = ⟨anchor.join ⟨text⟩, ""⟩ := by
  unfold read at hread
  dsimp only at hread
  rw [List.count_eq_zero.mpr hnone, splitAtWildcard_of_notMem hnone, String.ofList_toList] at hread
  exact (Except.ok.inj hread).symm

/-! ## Candidates -/

theorem Path.text_join_anchor_ne (path base tail : Path) :
    ((path.anchor base).join tail).text ≠ "" := by
  have hanchor : (path.anchor base).text ≠ "" := fun hempty =>
    path.location_anchor_ne_nil base (location_eq_nil_iff.mpr (by simp [hempty]))
  unfold join
  split
  · rename_i habsolute
    intro hempty
    simp [isAbsolute, hempty] at habsolute
  · split <;> simp [hanchor]

/-- **Substitution.**  Each alias of a table that is built has one target for each of its target
patterns.  The candidate of a pattern with a wildcard is the normal form of the part in front of it,
seen from the anchor, with the text under the alias's wildcard and the part behind it put right
behind.  The candidate of a pattern without a wildcard also has the text under the alias's wildcard
behind it, and if that text has no dots, the candidate is what the pattern itself names only when
the text consists of slashes. -/
theorem AliasTable.candidate_eq {paths : OrderedMap (List String)} {outDir baseUrl : Path}
    {table : AliasTable} (hbuild : build paths outDir baseUrl = .ok table) {entry : Alias}
    (hentry : entry ∈ table.entries) :
    let anchor := baseUrl.anchor outDir
    ∃ texts, (entry.pattern, texts) ∈ paths.entries ∧
      List.Forall₂ (fun (text : String) (target : AliasTarget) => ∀ remainder : String,
        (∀ front back : String, text = front ++ "*" ++ back →
          target.candidate remainder =
            Path.normalize ⟨(anchor.join ⟨front⟩).text ++ remainder ++ back⟩) ∧
        ('*' ∉ text.toList →
          target.candidate remainder = Path.normalize ⟨(anchor.join ⟨text⟩).text ++ remainder⟩ ∧
          ('.' ∉ remainder.toList →
            (target.candidate remainder = (anchor.join ⟨text⟩).normalize ↔
              ∀ character ∈ remainder.toList, character = '/')))) texts entry.targets := by
  intro anchor
  obtain ⟨⟨pattern, texts⟩, hsource, hread⟩ := exists_of_mem_build hbuild hentry
  obtain rfl := (Alias.isNamed_of_read hread).1
  refine ⟨texts, hsource, (Alias.forall₂_targets hread).imp fun text target htarget remainder => ?_⟩
  constructor
  · rintro front back rfl
    rw [AliasTarget.eq_of_read_wildcard htarget]
    rfl
  · intro hnone
    have hcandidate : target.candidate remainder =
        Path.normalize ⟨(anchor.join ⟨text⟩).text ++ remainder⟩ := by
      rw [AliasTarget.eq_of_read_plain hnone htarget, AliasTarget.candidate, String.append_empty]
    refine ⟨hcandidate, fun hdots => ?_⟩
    rw [hcandidate]
    exact Path.normalize_append_eq_iff (Path.text_join_anchor_ne baseUrl outDir ⟨text⟩) hdots

/-- One target with a wildcard in the middle, and one without a wildcard. -/
theorem AliasTable.candidate_eq_sample :
    ∃ table entry first second,
      build (.ofList [("@pkg/*", ["packages/*/src", "lib"])]) ⟨"/p/dist"⟩ ⟨"."⟩ = .ok table ∧
      entry ∈ table.entries ∧ entry.targets = [first, second] ∧
      first.candidate "ui" = ⟨"/p/dist/packages/ui/src"⟩ ∧
      second.candidate "" = ⟨"/p/dist/lib"⟩ := by
  have hanchor : (⟨"."⟩ : Path).anchor ⟨"/p/dist"⟩ = ⟨"/p/dist"⟩ := by decide +kernel
  have hbuild : build (.ofList [("@pkg/*", ["packages/*/src", "lib"])]) ⟨"/p/dist"⟩ ⟨"."⟩ =
      .ok ⟨[⟨"@pkg/*", "@pkg/", .leading,
        [⟨⟨"/p/dist/packages/"⟩, "/src"⟩, ⟨⟨"/p/dist/lib"⟩, ""⟩]⟩]⟩ :=
    build_singleton (by rw [hanchor]; rfl)
  obtain ⟨texts, htexts, htargets⟩ := candidate_eq hbuild (List.mem_singleton_self _)
  obtain rfl : texts = ["packages/*/src", "lib"] :=
    (Prod.mk.inj (List.mem_singleton.mp htexts)).2
  rw [hanchor] at htargets
  obtain ⟨hfirst, htargets⟩ := List.forall₂_cons.mp htargets
  obtain ⟨hsecond, -⟩ := List.forall₂_cons.mp htargets
  refine ⟨_, _, _, _, hbuild, List.mem_singleton_self _, rfl, ?_, ?_⟩
  · rw [(hfirst "ui").1 "packages/" "/src" (by decide)]
    decide +kernel
  · rw [(((hsecond "").2 (by decide)).2 (by decide)).mpr (by simp)]
    decide +kernel

/-- The text under the wildcard of the alias gets behind a target that has none. -/
theorem AliasTable.candidate_lengthened_sample :
    ∃ table entry target, build (.ofList [("@/*", ["lib/index"])]) ⟨"/p/dist"⟩ ⟨"."⟩ =
        .ok table ∧
      table.match? "@/foo" = some (entry, "foo") ∧ entry.targets = [target] ∧
      target.candidate "foo" = ⟨"/p/dist/lib/indexfoo"⟩ ∧
      (((⟨"."⟩ : Path).anchor ⟨"/p/dist"⟩).join ⟨"lib/index"⟩).normalize =
        ⟨"/p/dist/lib/index"⟩ := by
  have hanchor : (⟨"."⟩ : Path).anchor ⟨"/p/dist"⟩ = ⟨"/p/dist"⟩ := by decide +kernel
  have hbuild : build (.ofList [("@/*", ["lib/index"])]) ⟨"/p/dist"⟩ ⟨"."⟩ =
      .ok ⟨[⟨"@/*", "@/", .leading, [⟨⟨"/p/dist/lib/index"⟩, ""⟩]⟩]⟩ :=
    build_singleton (by rw [hanchor]; rfl)
  exact ⟨_, ⟨"@/*", "@/", .leading, [⟨⟨"/p/dist/lib/index"⟩, ""⟩]⟩, ⟨⟨"/p/dist/lib/index"⟩, ""⟩,
    hbuild, by decide +kernel, rfl, by decide +kernel, by decide +kernel⟩

end Dealias
