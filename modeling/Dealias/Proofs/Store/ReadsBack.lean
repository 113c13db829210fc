import Dealias.Proofs.Store.Links

/-!
# What is written is read back

A write and a read follow links each for themselves.  When the links behind a path come to an end,
both come to the same place (`MemoryTree.write_of_resolve?`), and links never lead to a place that
no path names (`MemoryTree.names_of_follow`), so the content that is stored there is what the next
read of the path answers.

When the links have no end, the write falls back to the path as it is given.  Nothing can be read
from there: every path with such a location runs into the same loop.  So
`MemoryTree.reads_back_iff` has two sides.  All other paths are read as before, whether or not
there is a loop, but a path is read back exactly when it is resolved.

## Strategy

The answer of a read is a function of the contents (`MemoryTree.read_eq_of_content?`): the links
and the places that are set to fail are the same after a write.  What remains is one question, at
which place the content changed.  In a loop it changed at a place with a link at it or above it,
and no path is resolved to such a place (`MemoryTree.not_prefix_of_follow`).
-/

namespace Dealias
namespace MemoryTree

variable {links : List (Location × Location)} {place next real : Location} {steps : Nat}

/-! ## Links lead to places that paths name -/

theorem names_of_hop? (htargets : ∀ link ∈ links, Path.Names link.2) (hplace : Path.Names place)
    (hhop : hop? links place = some next) : Path.Names next := by
  obtain ⟨link, hlink, rest, rfl, rfl⟩ := exists_of_hop? hhop
  exact (htargets link hlink).join hplace.right

theorem names_of_follow (htargets : ∀ link ∈ links, Path.Names link.2)
    (hplace : Path.Names place) (hfollow : follow links steps place = some real) :
    Path.Names real := by
  induction steps generalizing place with
  | zero => cases hfollow
  | succ steps ih =>
      rw [follow] at hfollow
      split at hfollow
      · obtain rfl := Option.some.inj hfollow
        exact hplace
      · rename_i next hhop
        exact ih (names_of_hop? htargets hplace hhop) hfollow

variable {tree after : MemoryTree} {path : Path} {content : ByteArray}

theorem names_of_resolve? (hreal : tree.resolve? path = some real) : Path.Names real :=
  names_of_follow
    (fun link hlink => tree.named link.2
      (List.mem_append_right _ (List.mem_map_of_mem hlink)))
    ⟨path, rfl⟩ hreal

/-! ## A write -/

/-- The place where a write puts a file. -/
def writePlace (tree : MemoryTree) (path : Path) : Location :=
  (tree.resolve? path).getD path.location

theorem names_writePlace : Path.Names (tree.writePlace path) := by
  unfold writePlace
  cases hreal : tree.resolve? path with
  | none => exact ⟨path, rfl⟩
  | some real => exact names_of_resolve? hreal

/-- What a write can do: it refuses and changes nothing, or it puts the content at one place. -/
theorem write_cases (tree : MemoryTree) (path : Path) (content : ByteArray) :
    tree.write path content = (.error (writeFault path), tree) ∨
      tree.write path content =
        (.ok (), { tree.putFile (tree.writePlace path) content with
          writes := path :: tree.writes }) := by
  by_cases hfailing : tree.failingWrites.contains path.location = true
  · exact .inl (write_of_failing hfailing content)
  · refine .inr ?_
    rw [write, if_neg hfailing]
    rfl

/-- After a write the content is at one place, and everything else that a read looks at is as
before. -/
theorem content?_of_write (hwrite : tree.write path content = (.ok (), after)) (other : Location) :
    after.content? other =
      if other = tree.writePlace path then some content else tree.content? other := by
  rcases write_cases tree path content with hrefused | hput
  · cases hwrite.symm.trans hrefused
  · cases hwrite.symm.trans hput
    exact content?_putFile names_writePlace content other

theorem resolve?_of_write {written : Except StoreFault Unit}
    (hwrite : tree.write path content = (written, after)) (other : Path) :
    after.resolve? other = tree.resolve? other := by
  rcases write_cases tree path content with hcase | hcase <;> cases hwrite.symm.trans hcase <;> rfl

theorem faults_of_write {written : Except StoreFault Unit}
    (hwrite : tree.write path content = (written, after)) :
    after.crashingReads = tree.crashingReads ∧ after.failingReads = tree.failingReads := by
  rcases write_cases tree path content with hcase | hcase <;> cases hwrite.symm.trans hcase <;>
    exact ⟨rfl, rfl⟩

/-! ## A read after a write -/

/-- A read answers what it answered before unless the content changed where its path leads. -/
theorem read_eq_of_content? {written : Except StoreFault Unit}
    (hwrite : tree.write path content = (written, after)) {other : Path}
    (hcontent : ∀ real, tree.resolve? other = some real →
      after.content? real = tree.content? real) :
    (after.read other).1 = (tree.read other).1 := by
  obtain ⟨hcrashing, hfailing⟩ := faults_of_write hwrite
  simp only [read, hcrashing, hfailing, resolve?_of_write hwrite other]
  cases hreal : tree.resolve? other with
  | none => rfl
  | some real => simp only [hcontent real hreal]

/-- What is read of a path after it was written, unless a read of it is set to go wrong. -/
theorem read_of_write (hwrite : tree.write path content = (.ok (), after))
    (hcrashing : path.location ∉ tree.crashingReads)
    (hfailing : path.location ∉ tree.failingReads) :
    (after.read path).1 =
      if (tree.resolve? path).isSome then .content content
      else .failed (.io ("Too many levels of symbolic links: " ++ path.text)) := by
  obtain ⟨hcrashing', hfailing'⟩ := faults_of_write hwrite
  simp only [read, hcrashing', hfailing', List.contains_iff_mem, hcrashing, hfailing, if_false,
    resolve?_of_write hwrite path]
  cases hreal : tree.resolve? path with
  | none => rfl
  | some real =>
      have hplace : real = tree.writePlace path := by rw [writePlace, hreal, Option.getD_some]
      simp only [content?_of_write hwrite real, if_pos hplace, Option.isSome_some, if_true]

/-- Where a path is resolved to, a write of another path puts something only if that is resolved to
the same place. -/
theorem content?_of_write_of_ne (hwrite : tree.write path content = (.ok (), after)) {other : Path}
    (hother : ∀ real, tree.resolve? path = some real → tree.resolve? other ≠ some real)
    (hreal : tree.resolve? other = some real) : after.content? real = tree.content? real := by
  refine (content?_of_write hwrite real).trans (if_neg ?_)
  rintro rfl
  unfold writePlace at hreal
  cases hresolve : tree.resolve? path with
  | none =>
      -- a path that is its own end has no link at it or above it, so it is resolved
      rw [hresolve, Option.getD_none] at hreal
      have hplain : tree.IsPlain path.location := isPlain_of_resolve? hreal
      rw [hplain.resolve?_eq] at hresolve
      cases hresolve
  | some place =>
      rw [hresolve, Option.getD_some] at hreal
      exact hother place hresolve hreal

/-- **A store, but for loops.**  A write that is refused leaves the tree as it is.  After any other
write a path that is not resolved to the same place is read as before, and the path itself, unless
it is set to fail or to crash, is read back exactly when its links come to an end. -/
theorem reads_back_iff {written : Except StoreFault Unit}
    (hwrite : tree.write path content = (written, after)) :
    (∀ fault, written = .error fault → after = tree) ∧
      (written = .ok () →
        (path.location ∉ tree.crashingReads → path.location ∉ tree.failingReads →
          ((after.read path).1 = .content content ↔ (tree.resolve? path).isSome = true)) ∧
        ∀ other : Path,
          (∀ real, tree.resolve? path = some real → tree.resolve? other ≠ some real) →
            (after.read other).1 = (tree.read other).1) := by
  refine ⟨?_, ?_⟩
  · rintro fault rfl
    rcases write_cases tree path content with hrefused | hput
    · exact (Prod.mk.inj (hwrite.symm.trans hrefused)).2
    · cases hwrite.symm.trans hput
  · rintro rfl
    refine ⟨fun hcrashing hfailing => ?_, fun other hother => ?_⟩
    · rw [read_of_write hwrite hcrashing hfailing]
      split <;> simp_all
    · exact read_eq_of_content? hwrite fun real => content?_of_write_of_ne hwrite hother

/-- Two files in a directory that a link leads to. -/
def linkedPair : MemoryTree :=
  (((empty ⟨"/"⟩).putFile [.root, .name "real", .name "a.js"] "a".toUTF8).putFile
    [.root, .name "real", .name "b.js"] "b".toUTF8).putLink
      [.root, .name "out"] [.root, .name "real"]

/-- What is written through the link is read back through it, and the other file stays. -/
theorem reads_back_sample :
    ∃ after, linkedPair.write ⟨"/out/a.js"⟩ "c".toUTF8 = (.ok (), after) ∧
      (after.read ⟨"/out/a.js"⟩).1 = .content "c".toUTF8 ∧
      (after.read ⟨"/real/b.js"⟩).1 = (linkedPair.read ⟨"/real/b.js"⟩).1 := by
  have hwrite : linkedPair.write ⟨"/out/a.js"⟩ "c".toUTF8 = (.ok (), _) := rfl
  obtain ⟨hself, hother⟩ := (reads_back_iff hwrite).2 rfl
  have hreal : linkedPair.resolve? ⟨"/out/a.js"⟩ = some [.root, .name "real", .name "a.js"] := by
    decide +kernel
  refine ⟨_, hwrite, (hself (by decide +kernel) (by decide +kernel)).mpr (by rw [hreal]; rfl),
    hother _ fun real hresolve => ?_⟩
  obtain rfl := Option.some.inj (hreal.symm.trans hresolve)
  decide +kernel

/-- A link that leads to itself. -/
def selfLinked : MemoryTree :=
  (empty ⟨"/"⟩).putLink [.root, .name "a"] [.root, .name "a"]

/-- A write below the link stores the content, and the next read does not find it. -/
theorem written_into_loop_sample :
    ∃ after, selfLinked.write ⟨"/a/x.js"⟩ "c".toUTF8 = (.ok (), after) ∧
      (Path.mk "/a/x.js").location ∉ selfLinked.crashingReads ∧
      (Path.mk "/a/x.js").location ∉ selfLinked.failingReads ∧
      after.content? (Path.mk "/a/x.js").location = some "c".toUTF8 ∧
      (after.read ⟨"/a/x.js"⟩).1 ≠ .content "c".toUTF8 := by
  have hwrite : selfLinked.write ⟨"/a/x.js"⟩ "c".toUTF8 = (.ok (), _) := rfl
  have hloop : selfLinked.resolve? ⟨"/a/x.js"⟩ = none := by decide +kernel
  have hcrashing : (Path.mk "/a/x.js").location ∉ selfLinked.crashingReads := by decide +kernel
  have hfailing : (Path.mk "/a/x.js").location ∉ selfLinked.failingReads := by decide +kernel
  refine ⟨_, hwrite, hcrashing, hfailing, ?_, ?_⟩
  · rw [content?_of_write hwrite, writePlace, hloop, Option.getD_none, if_pos rfl]
  · rw [read_of_write hwrite hcrashing hfailing, hloop]
    simp

end MemoryTree
end Dealias
