import Dealias.Cache
import Dealias.Event
import Dealias.Store.Basic

/-!
# Action programs

The work on a file is a program: a tree of requests to the store, the cache and the log, each with
the program that goes on from its reply.  A program can be run in one go, or one request at a time
among the requests of other programs.  Both ways use the one function that answers a request.
-/

namespace Dealias

/-! ## Requests -/

/-- One indivisible action. -/
inductive Request where
  | read (path : Path)
  | write (path : Path) (content : ByteArray)
  | describe (path : Path)
  | list (path : Path)
  | isPresent (path : Path)
  | lookupProbe (candidate : Path)
  | storeProbe (candidate : Path) (found : Option Path)
  | lookupSpecifier (target directory : Path)
  | storeSpecifier (target directory : Path) (specifier : String)
  | emit (event : Event)
  | cacheCounts

/-- What a request is answered with. -/
@[reducible] def Request.Reply : Request → Type
  | read _ => ReadResult
  | write _ _ => Except StoreFault Unit
  | describe _ => Except StoreFault Metadata
  | list _ => Except StoreFault (List String)
  | isPresent _ => Bool
  | lookupProbe _ => Option (Option Path)
  | storeProbe _ _ => Unit
  | lookupSpecifier _ _ => Option String
  | storeSpecifier _ _ _ => Unit
  | emit _ => Unit
  | cacheCounts => CacheCounts

/-! ## Programs -/

/-- A finite tree of requests that ends in results. -/
inductive Program (Result : Type) where
  | done (result : Result)
  | ask (request : Request) (next : request.Reply → Program Result)

namespace Program

variable {First Second : Type}

/-- Go on with a program that depends on the result. -/
def bind : Program First → (First → Program Second) → Program Second
  | done result, next => next result
  | ask request rest, next => ask request fun reply => (rest reply).bind next

instance : Monad Program where
  pure := done
  bind := bind

/-- Ask one request. -/
def request (request : Request) : Program request.Reply :=
  ask request done

/-- Run a program where requests are answered by actions of another monad. -/
def runIn {Context : Type → Type} [Monad Context]
    (answer : (request : Request) → Context request.Reply) : Program First → Context First
  | done result => pure result
  | ask request next => answer request >>= fun reply => runIn answer (next reply)

end Program

/-! ## Worlds -/

/-- What requests act on.  The log holds the latest event first. -/
structure World (Store : Type) where
  store : Store
  cache : Cache
  log : List Event

namespace World

/-- The world at the start of a run. -/
def start {Store : Type} (store : Store) : World Store where
  store := store
  cache := .empty
  log := []

variable {Store : Type} [FileStore Store]

/-- Answer one request. -/
def answer (world : World Store) : (request : Request) → request.Reply × World Store
  | .read path =>
    let (reply, store) := FileStore.read path world.store
    (reply, { world with store })
  | .write path content =>
    let (reply, store) := FileStore.write path content world.store
    (reply, { world with store })
  | .describe path =>
    let (reply, store) := FileStore.describe path world.store
    (reply, { world with store })
  | .list path =>
    let (reply, store) := FileStore.list path world.store
    (reply, { world with store })
  | .isPresent path => (FileStore.isPresent path world.store, world)
  | .lookupProbe candidate =>
    let (reply, cache) := world.cache.lookupProbe candidate
    (reply, { world with cache })
  | .storeProbe candidate found =>
    ((), { world with cache := world.cache.storeProbe candidate found })
  | .lookupSpecifier target directory =>
    let (reply, cache) := world.cache.lookupSpecifier target directory
    (reply, { world with cache })
  | .storeSpecifier target directory specifier =>
    ((), { world with cache := world.cache.storeSpecifier target directory specifier })
  | .emit event => ((), { world with log := event :: world.log })
  | .cacheCounts => (world.cache.counts, world)

end World

/-- Run a program in one go. -/
def Program.run {Store Result : Type} [FileStore Store] :
    Program Result → World Store → Result × World Store
  | done result, world => (result, world)
  | ask request next, world =>
    let (reply, world) := world.answer request
    (next reply).run world

end Dealias
