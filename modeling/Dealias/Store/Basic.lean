import Dealias.Path.Basic

/-!
# Stores

A store holds files and answers five questions about paths.  Reading can fail, and it can crash,
which is told apart from failing because a crash gives no answer to the caller.
-/

namespace Dealias

/-- Why a store refuses. -/
inductive StoreFault where
  | notFound (path : Path)
  | io (detail : String)
  | other (detail : String)
deriving DecidableEq, Repr

/-- The wording of a refusal. -/
def StoreFault.message : StoreFault → String
  | notFound path => "File not found: " ++ path.text
  | io detail => "I/O error: " ++ detail
  | other detail => "Runtime error: " ++ detail

/-- What stands at a path.  For a link the first two tell about its target. -/
structure Metadata where
  isDirectory : Bool
  isFile : Bool
  isLink : Bool
deriving DecidableEq, Repr

/-- How a read ends. -/
inductive ReadResult where
  | content (bytes : ByteArray)
  | failed (fault : StoreFault)
  | crashed (message : String)

/-- The operations of a store.  Each may leave traces in the store, such as call counts. -/
class FileStore (Store : Type) where
  read : Path → Store → ReadResult × Store
  write : Path → ByteArray → Store → Except StoreFault Unit × Store
  describe : Path → Store → Except StoreFault Metadata × Store
  list : Path → Store → Except StoreFault (List String) × Store
  isPresent : Path → Store → Bool
  /-- A bound on the number of directories that a walk from a path can visit, if it comes to an
  end. -/
  directoryBound : Path → Store → Nat

end Dealias
