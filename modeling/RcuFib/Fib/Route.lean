import RcuFib.Trie.Writer

/-! Routes, next-hops and the forwarding entries derived from them (`include/rcufib/route.hpp`), and
    the calls every forwarding table takes (`include/rcufib/fib.hpp`). -/

namespace RcuFib
open RadixTrie

inductive Protocol where
  | connected | isLocal | staticRoute | isis | ospf | bgp
  deriving DecidableEq, Repr

/-- `administrative_distance(source)`: the smaller one wins. -/
def administrativeDistance : Protocol → UInt8
  | .connected => 0
  | .isLocal => 0
  | .staticRoute => 1
  | .isis => 115
  | .ospf => 110
  | .bgp => 200

structure NextHop where
  gateway : UInt32
  interface : UInt32
  label : UInt32
  metric : UInt16
  deriving DecidableEq, Repr

structure FibEntry where
  hop : NextHop
  source : Protocol
  generation : UInt64
  deriving DecidableEq, Repr

/-- `fib_entry{}`. -/
def FibEntry.zero : FibEntry := ⟨⟨0, 0, 0, 0⟩, .bgp, 0⟩

/-- `basic_route`. -/
structure Route (w : Width) where
  pfx : Prefix w
  hop : NextHop
  source : Protocol
  metric : UInt32
  deriving DecidableEq

namespace Route
variable {w : Width}

def distance (r : Route w) : UInt8 := administrativeDistance r.source

/-- `preferred_over(other)`: administrative distance first, then the protocol's metric. -/
def preferredOver (r other : Route w) : Bool :=
  if r.distance ≠ other.distance then r.distance < other.distance else r.metric < other.metric

end Route

inductive UpdateKind where
  | add | remove
  deriving DecidableEq, Repr

/-- `basic_fib_update`. -/
structure FibUpdate (w : Width) where
  pfx : Prefix w
  entry : FibEntry
  kind : UpdateKind

variable {w : Width}

/-- What `apply` does for one update of its batch. -/
def FibUpdate.update (u : FibUpdate w) : Update w FibEntry :=
  match u.kind with
  | .add => .add u.pfx u.entry
  | .remove => .withdraw u.pfx

/-- The mutating calls of a forwarding table. -/
inductive FibCall (w : Width) where
  | insert (p : Prefix w) (entry : FibEntry)
  | erase (p : Prefix w)
  | apply (updates : List (FibUpdate w))

/-- What a call does to the trie, in order. -/
def FibCall.updates : FibCall w → List (Update w FibEntry)
  | insert p entry => [.add p entry]
  | erase p => [.withdraw p]
  | apply updates => updates.map FibUpdate.update

/-- A call's effect on the contents of the table. -/
def FibCall.effect (C : Prefix w → Option FibEntry) (c : FibCall w) : Prefix w → Option FibEntry :=
  c.updates.foldl (fun C u => u.effect C) C

/-- The contents after calls on an empty table. -/
def programmed (calls : List (FibCall w)) : Prefix w → Option FibEntry :=
  calls.foldl (fun C c => c.effect C) fun _ => none

theorem programmed_snoc (calls : List (FibCall w)) (c : FibCall w) :
    programmed (calls ++ [c]) = c.effect (programmed calls) := by
  rw [programmed, List.foldl_append, List.foldl_cons, List.foldl_nil, programmed]

end RcuFib
