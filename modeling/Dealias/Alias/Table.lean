import Dealias.OrderedMap
import Dealias.Path.Normalize

/-!
# Alias tables

An alias pattern is a text that stands for itself, or a text that ends in one wildcard and stands
for every specifier that begins with the text before it.  Each pattern has target patterns, in
which the part of the specifier under the wildcard takes the place of the target's own wildcard.

The table keeps its aliases in the order in which they are tried: longer literal parts first, and
at equal length an exact alias first.  Relative and absolute specifiers never match.
-/

namespace Dealias

/-- How an alias matches specifiers. -/
inductive AliasKind where
  /-- The specifier begins with the literal part. -/
  | leading
  /-- The specifier is the literal part. -/
  | exact
deriving DecidableEq, Repr

/-- A target pattern, anchored: the text before the wildcard, and the text after it. -/
structure AliasTarget where
  base : Path
  suffix : String
deriving DecidableEq, Repr

/-- One alias.  `literal` is the pattern without its wildcard. -/
structure Alias where
  pattern : String
  literal : String
  kind : AliasKind
  targets : List AliasTarget
deriving DecidableEq, Repr

/-- Why an alias map makes no table.  One reason is left out: where the literal parts of all aliases
are compiled into a single expression, the size of that expression has a limit, and maps with
megabytes of pattern text are refused. -/
inductive AliasFault where
  | invalidPattern (pattern reason : String)
  | noTargets (pattern : String)
deriving DecidableEq, Repr

/-- The wording of a fault. -/
def AliasFault.message : AliasFault → String
  | invalidPattern pattern reason => "Invalid path pattern '" ++ pattern ++ "': " ++ reason
  | noTargets pattern => "Path alias '" ++ pattern ++ "' has no targets"

/-! ## Patterns -/

/-- The sign that stands for any text. -/
def wildcard : Char := '*'

/-- The reason given when a pattern has two wildcards. -/
def oneWildcardReason : String := "only one wildcard is allowed"

/-- The reason given when text follows the wildcard of an alias pattern. -/
def lastWildcardReason : String := "the wildcard must be the last character"

/-- The texts before and after the first wildcard.  Without a wildcard nothing comes after. -/
def splitAtWildcard : List Char → List Char × List Char
  | [] => ([], [])
  | character :: rest =>
    if character = wildcard then ([], rest)
    else
      let split := splitAtWildcard rest
      (character :: split.1, split.2)

/-- The literal part and the kind of an alias pattern. -/
def readPattern (pattern : String) : Except AliasFault (String × AliasKind) :=
  let characters := pattern.toList
  let literal := String.ofList (splitAtWildcard characters).1
  match characters.count wildcard with
  | 0 => .ok (pattern, .exact)
  | 1 =>
    if characters.getLast? = some wildcard then .ok (literal, .leading)
    else .error (.invalidPattern pattern lastWildcardReason)
  | _ => .error (.invalidPattern pattern oneWildcardReason)

/-- A target pattern seen from the anchor. -/
def AliasTarget.read (anchor : Path) (target : String) : Except AliasFault AliasTarget :=
  let characters := target.toList
  if characters.count wildcard ≤ 1 then
    let split := splitAtWildcard characters
    .ok ⟨anchor.join ⟨String.ofList split.1⟩, String.ofList split.2⟩
  else .error (.invalidPattern target oneWildcardReason)

/-- The place that a target names for the text under the alias's wildcard. -/
def AliasTarget.candidate (target : AliasTarget) (remainder : String) : Path :=
  Path.normalize ⟨target.base.text ++ remainder ++ target.suffix⟩

/-! ## Aliases -/

/-- Read one entry of an alias map: its pattern, then whether it has targets, then each target. -/
def Alias.read (anchor : Path) (pattern : String) (targets : List String) :
    Except AliasFault Alias := do
  let (literal, kind) ← readPattern pattern
  if targets.isEmpty then throw (.noTargets pattern)
  let targets ← targets.mapM (AliasTarget.read anchor)
  return { pattern, literal, kind, targets }

/-- The alias `*`, which takes every bare specifier. -/
def Alias.isCatchAll (entry : Alias) : Bool :=
  entry.kind == .leading && entry.literal.toList.isEmpty

/-- The text under the wildcard, if the alias matches the specifier. -/
def Alias.remainder? (entry : Alias) (specifier : String) : Option String :=
  match entry.kind with
  | .leading =>
    (entry.literal.toList.isPrefixOf? specifier.toList).map String.ofList
  | .exact => if specifier = entry.literal then some "" else none

/-- Whether `first` is tried no later than `second`. -/
def Alias.precedes (first second : Alias) : Bool :=
  if first.literal.utf8ByteSize = second.literal.utf8ByteSize then
    first.kind == .exact || second.kind == .leading
  else second.literal.utf8ByteSize < first.literal.utf8ByteSize

/-! ## Tables -/

/-- The aliases of a run in the order in which they are tried. -/
structure AliasTable where
  entries : List Alias
deriving Repr

namespace AliasTable

/-- Read an alias map in declared order.  Targets are anchored at `baseUrl` seen from `outDir`.
Once every entry is read there is a table, however much pattern text it has. -/
def build (paths : OrderedMap (List String)) (outDir baseUrl : Path) :
    Except AliasFault AliasTable := do
  let anchor := baseUrl.anchor outDir
  let entries ← paths.entries.mapM fun entry => Alias.read anchor entry.1 entry.2
  return ⟨entries.mergeSort Alias.precedes⟩

/-- Whether a specifier addresses a file directly. -/
def isFileAddress (specifier : String) : Bool :=
  match specifier.toList with
  | ['.'] => true
  | ['.', '.'] => true
  | '.' :: '/' :: _ => true
  | '.' :: '.' :: '/' :: _ => true
  | '/' :: _ => true
  | _ => false

/-- The first alias that matches a specifier, with the text under its wildcard. -/
def match? (table : AliasTable) (specifier : String) : Option (Alias × String) :=
  if isFileAddress specifier then none
  else
    table.entries.findSome? fun entry =>
      (entry.remainder? specifier).map fun remainder => (entry, remainder)

end AliasTable
end Dealias
