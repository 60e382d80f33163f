import LSMIO.Library.Decimal
import LSMIO.Memtable

namespace LSMIO

inductive MutationType
  | put
  | del
  deriving DecidableEq

/-- The virtual operations of a store over its states, with the `bool` each
returns. A `get` that returns `false` leaves the string of its caller as it was. -/
structure LSMIOStore (σ : Type*) where
  get (s : σ) (key : Key) : Option Value
  getPrefix (s : σ) (key : Key) : Bool × List (Key × Value)
  batchMutation (s : σ) (mType : MutationType) (key : Key) (value : Value) (flush : Bool) : Bool × σ
  readBarrier (s : σ) : Bool × σ
  writeBarrier (s : σ) : Bool × σ

namespace LSMIOStore

def metaPrefix : Bytes := ascii "__lsmio_md::"

section Operations

variable {σ : Type*} (store : LSMIOStore σ)

def put (s : σ) (key : Key) (value : Value) (flush : Bool) : Bool × σ := store.batchMutation s .put key value flush

def del (s : σ) (key : Key) (flush : Bool) : Bool × σ := store.batchMutation s .del key [] flush

def metaGet (s : σ) (key : Key) : Option Value := store.get s (metaPrefix ++ key)

def metaGetAll (s : σ) (inFix : Bytes) : Bool × List (Key × Value) := store.getPrefix s (metaPrefix ++ inFix)

def metaPut (s : σ) (key : Key) (value : Value) (flush : Bool) : Bool × σ := store.put s (metaPrefix ++ key) value flush

end Operations

abbrev StoreMap := Std.ExtTreeMap Key Value

/-- The store that is a map and applies each operation at once. -/
def ofMap : LSMIOStore StoreMap where
  get map key := map[key]?
  getPrefix map key := (true, map.toList.filter fun entry => key <+: entry.1)
  batchMutation map mType key value _ := (true, match mType with
    | .put => map.insert key value
    | .del => map.erase key)
  readBarrier map := (true, map)
  writeBarrier map := (true, map)

end LSMIOStore

end LSMIO
