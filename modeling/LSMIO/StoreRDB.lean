import LSMIO.BackendPrefixes

namespace LSMIO

/-- The RocksDB store between two calls. -/
structure StoreRDB where
  db : Db

namespace StoreRDB

def get (s : StoreRDB) (key : Key) : Option Value := s.db[key]?

def getPrefix (s : StoreRDB) (key : Key) : Bool × List (Key × Value) :=
  (true, (s.db.toList.dropWhile fun entry => compare entry.1 key = .lt).takeWhile fun entry => key.isPrefixOf entry.1)

/-- A mutation goes to the database at once; `flush` is not applicable. -/
def batchMutation (s : StoreRDB) (m : Mutation) (_flush ok : Bool) : Bool × StoreRDB :=
  (ok, { s with db := if ok then m.apply s.db else s.db })

def readBarrier (s : StoreRDB) : Bool × StoreRDB := (true, s)

/-- `Flush` moves entries within the database. -/
def writeBarrier (s : StoreRDB) (ok : Bool) : Bool × StoreRDB := (ok, s)

/-- The RocksDB store, every write of the database going through. -/
def store : LSMIOStore StoreRDB where
  get := get
  getPrefix := getPrefix
  batchMutation s mType key value flush := s.batchMutation ⟨mType, key, value⟩ flush true
  readBarrier := readBarrier
  writeBarrier s := s.writeBarrier true

theorem getPrefix_eq (s : StoreRDB) (key : Key) : s.getPrefix key = LSMIOStore.ofMap.getPrefix s.db key :=
  (StoreLDB.openStore 0 0 s.db).getPrefix_eq key

end StoreRDB

end LSMIO
