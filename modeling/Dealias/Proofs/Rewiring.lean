import Dealias.Proofs.SecondRun
import Dealias.Proofs.Source.Change

/-!
# What rewiring a file does

A specifier that is resolved was a name, and its address is the address of a file.  So the text of a
file is changed as soon as one of its specifiers is resolved, and only where these stand.  Whether
the imports of the file can still be read afterwards is another matter: quotes end a specifier, and
nothing keeps them out of an address but the way in which the targets are written.

* `AliasTable.rewire_exact`: what is changed, counted and reported.
* `AliasTable.rewire_shapes_iff`: when scanning finds the same imports around the new specifiers.
-/

namespace Dealias

variable {table : AliasTable} {tree : MemoryTree} {file : Path}

/-- A specifier that addresses a file is not resolved. -/
theorem AliasTable.isFileAddress_eq_false_of_resolved {specifier address : String}
    (hresolved : table.resolutionIn tree specifier file = .resolved address) :
    isFileAddress specifier = false := by
  by_contra hspecifier
  rw [Bool.not_eq_false] at hspecifier
  rw [resolutionIn, match?_of_isFileAddress hspecifier] at hresolved
  cases hresolved

section World

variable {world : World MemoryTree} (hagrees : world.Agrees tree)
include hagrees

theorem AliasTable.run_resolve (specifier : String) :
    ((table.resolve specifier file).run world).1 = table.resolutionIn tree specifier file :=
  ((table.finds_resolve specifier file).run hagrees).2.1

/-- The requests for one specifier do not change what is found for the next ones. -/
theorem AliasTable.run_rewire_eq (text : String) :
    ((table.rewire text file).run world).1 = Rewired.ofFindings text
      (findingsOf (fun specifier => ((table.resolve specifier file).run world).1)
        (occurrences text)) := by
  simp only [run_resolve hagrees]
  exact ((table.finds_rewire text file).run hagrees).2.1

end World

/-! ## Changes -/

/-- **Rewiring.**  In any world that agrees with a tree, whatever its cache holds, rewiring a text
exchanges the specifiers of just those occurrences that are resolved, each at its place, and keeps
everything else; it counts them, and it reports those that lead nowhere, in text order.  The text
counts as changed when something is replaced, and that is when it is another text. -/
theorem AliasTable.rewire_exact (table : AliasTable) (tree : MemoryTree) (text : String)
    (file : Path) (world : World MemoryTree) (hagrees : world.Agrees tree) :
    let rewired := ((table.rewire text file).run world).1
    let resolution := fun specifier => ((table.resolve specifier file).run world).1
    let exchanges := (occurrences text).filterMap fun occurrence =>
      occurrence.exchange? (resolution occurrence.specifier)
    Spliced 0 exchanges text.toList rewired.code.toList ∧
      rewired.replaced = exchanges.length ∧
      rewired.unresolved = (occurrences text).filterMap (fun occurrence =>
        occurrence.unresolved? (resolution occurrence.specifier)) ∧
      (rewired.isChanged = true ↔ 0 < rewired.replaced) ∧
      (rewired.code ≠ text ↔ 0 < rewired.replaced) := by
  intro rewired resolution exchanges
  have hrewired : rewired = Rewired.ofFindings text (findingsOf resolution (occurrences text)) :=
    run_rewire_eq hagrees text
  have hexchanges : exchanges = exchangesOf (findingsOf resolution (occurrences text)) := by
    rw [exchangesOf, List.filterMap_map]
    rfl
  have hunresolved : (Rewired.ofFindings text
      (findingsOf resolution (occurrences text))).unresolved =
        (occurrences text).filterMap fun occurrence =>
          occurrence.unresolved? (resolution occurrence.specifier) := by
    simp only [Rewired.ofFindings, List.filterMap_map]
    rfl
  have hdirect : ∀ specifier address, resolution specifier = .resolved address →
      isFileAddress address = true ∧ isFileAddress specifier = false := by
    intro specifier address hresolved
    have hresolutionIn : table.resolutionIn tree specifier file = .resolved address :=
      (run_resolve hagrees specifier).symm.trans hresolved
    exact ⟨isFileAddress_of_resolved hresolutionIn,
      isFileAddress_eq_false_of_resolved hresolutionIn⟩
  rw [hrewired, hexchanges]
  refine ⟨Rewired.spliced_ofFindings resolution text, ?_, hunresolved, ?_,
    Rewired.code_ne_iff hdirect text⟩
  · refine Rewired.replaced_eq_length (fun specifier address hresolved hsame => ?_) text
    obtain ⟨haddress, hspecifier⟩ := hdirect specifier address hresolved
    rw [hsame, hspecifier] at haddress
    cases haddress
  · rw [Rewired.isChanged, bne_iff_ne, Nat.pos_iff_ne_zero]

/-- A statement that stands twice is changed twice. -/
theorem AliasTable.rewire_exact_sample :
    let rewired := ((RunConfig.sample.aliases.rewire "import '@/b';import '@/b'"
      ⟨"/p/dist/a.js"⟩).run (World.start MemoryTree.sample)).1
    rewired.replaced = 2 ∧ rewired.code ≠ "import '@/b';import '@/b'" := by
  intro rewired
  obtain ⟨-, hreplaced, -, -, hchanged⟩ := RunConfig.sample.aliases.rewire_exact MemoryTree.sample
    "import '@/b';import '@/b'" ⟨"/p/dist/a.js"⟩ (World.start MemoryTree.sample)
      (World.agrees_start (.refl _) (List.suffix_refl _))
  have htwo : rewired.replaced = 2 := hreplaced.trans (by decide +kernel)
  exact ⟨htwo, hchanged.mpr (by rw [htwo]; decide)⟩

/-! ## Imports -/

/-- **Imports of a rewired text.**  In any world that agrees with a tree, whatever its cache holds,
scanning the rewired text finds the keywords, quotes and parentheses of the text before, in the same
order and around the specifiers or the addresses that have taken their place, exactly when none of
these has a quote.  So it is for every text when the targets of the aliases are written without
quotes. -/
theorem AliasTable.rewire_shapes_iff (table : AliasTable) (tree : MemoryTree) (text : String)
    (file : Path) (world : World MemoryTree) (hagrees : world.Agrees tree) :
    let rewired := ((table.rewire text file).run world).1
    let address := fun specifier =>
      (((table.resolve specifier file).run world).1).address specifier
    (shapesIn rewired.code = (shapesIn text).map (Shape.replace address) ↔
        ∀ occurrence ∈ occurrences text,
          Dealias.IsQuoteFree (address occurrence.specifier).toList) ∧
      (table.IsQuoteFree →
        shapesIn rewired.code = (shapesIn text).map (Shape.replace address)) := by
  intro rewired address
  have hiff : shapesIn rewired.code = (shapesIn text).map (Shape.replace address) ↔
      ∀ occurrence ∈ occurrences text,
        Dealias.IsQuoteFree (address occurrence.specifier).toList := by
    rw [show rewired = _ from run_rewire_eq hagrees text]
    exact Rewired.shapes_ofFindings_iff _ text
  refine ⟨hiff, fun htable => hiff.mpr fun occurrence hoccurrence => ?_⟩
  dsimp only [address]
  rw [run_resolve hagrees]
  exact htable.address tree file (isQuoteFree_of_mem_occurrences hoccurrence)

/-- An import whose address has no quote. -/
theorem AliasTable.rewire_shapes_sample :
    let rewired := ((RunConfig.sample.aliases.rewire "require(\"@/b\")" ⟨"/p/dist/a.js"⟩).run
      (World.start MemoryTree.sample)).1
    (shapesIn rewired.code).map Shape.text = ["require(\"./b\")".toList] := by
  intro rewired
  obtain ⟨hiff, -⟩ := RunConfig.sample.aliases.rewire_shapes_iff MemoryTree.sample
    "require(\"@/b\")" ⟨"/p/dist/a.js"⟩ (World.start MemoryTree.sample)
      (World.agrees_start (.refl _) (List.suffix_refl _))
  rw [hiff.mpr (by decide +kernel)]
  decide +kernel

/-- A module in a directory that has a quote in its name. -/
def MemoryTree.quotedSample : MemoryTree :=
  (MemoryTree.empty ⟨"/"⟩).putFile [.root, .name "p", .name "dist", .name "it's", .name "a.js"]
    "".toUTF8

/-- The quote of a directory gets into an import and ends its specifier early. -/
theorem AliasTable.rewire_cuts_specifier_sample :
    ∃ table, build (.ofList [("@/*", ["it's/*"])]) ⟨"/p/dist"⟩ ⟨"."⟩ = .ok table ∧
      ((table.resolve "@/a" ⟨"/p/dist/x.js"⟩).run (World.start MemoryTree.quotedSample)).1 =
        .resolved "./it's/a" ∧
      let rewired := ((table.rewire "import '@/a'" ⟨"/p/dist/x.js"⟩).run
        (World.start MemoryTree.quotedSample)).1
      rewired.replaced = 1 ∧ rewired.code = "import './it's/a'" ∧
        (occurrences rewired.code).map Occurrence.specifier = ["./it"] := by
  have hanchor : (⟨"."⟩ : Path).anchor ⟨"/p/dist"⟩ = ⟨"/p/dist"⟩ := by decide +kernel
  have hbuild : build (.ofList [("@/*", ["it's/*"])]) ⟨"/p/dist"⟩ ⟨"."⟩ =
      .ok ⟨[⟨"@/*", "@/", .leading, [⟨⟨"/p/dist/it's/"⟩, ""⟩]⟩]⟩ :=
    build_singleton (by rw [hanchor]; rfl)
  exact ⟨_, hbuild, by decide +kernel, by decide +kernel, by decide +kernel, by decide +kernel⟩

end Dealias
