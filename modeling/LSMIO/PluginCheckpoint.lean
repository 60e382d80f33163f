import LSMIO.PluginCatalog

namespace LSMIO.LsmioPlugin

open LSMIOStore (metaPrefix)

variable {opening closing : UInt8} {stdType : Bytes → Bool} {size rank : Nat} {alwaysFlush : Bool}
    {calls : List EngineCall}

/-- The engines of a group over LevelDB settle what they write, whatever its limits. -/
theorem engineHistory_levelDb (clean : ∀ c ∈ calls, c.Clean size) (maxBatchSize maxBatchBytes : Int) :
    ∃ s, engineHistory StoreLDB.store opening closing stdType size alwaysFlush
      (.openStore maxBatchSize maxBatchBytes ∅) calls = some s ∧
      (s.close true).db = engineStore opening closing stdType size calls := by
  have settled := engineHistory_settled opening closing stdType size alwaysFlush StoreLDB.deferring
    (.openStore maxBatchSize maxBatchBytes ∅) calls
  have empty : (StoreLDB.openStore maxBatchSize maxBatchBytes ∅).settled = ∅ := rfl
  rw [empty, engineHistory_eq clean] at settled
  obtain ⟨s, history, whole⟩ := Option.map_eq_some_iff.mp settled
  exact ⟨s, history, s.stopBatch_settles.2.trans whole⟩

/-- A checkpoint over LevelDB is restored: what the engines of a group write, in whatever order and in whatever batches,
they read when the database has been closed and is opened again, with other limits or the same. Each rank reads of its
variables the text it put last, and lists the last records of the ranks that it finds, each once. -/
theorem checkpoint_restored (outer : opening ≠ 59 ∧ opening ≠ 10) (outer' : closing ≠ 59 ∧ closing ≠ 10)
    (clean : ∀ c ∈ calls, c.Clean size) (inside : rank < size) (maxBatchSize maxBatchBytes : Int) :
    ∃ s, engineHistory StoreLDB.store opening closing stdType size alwaysFlush
      (.openStore maxBatchSize maxBatchBytes ∅) calls = some s ∧
      ∀ maxBatchSize' maxBatchBytes' : Int,
        (∀ name text value, lastValue (engineTexts stdType rank calls) name = some text →
          (LSMIOManager.ofRank size rank).get StoreLDB.store alwaysFlush
          (.openStore maxBatchSize' maxBatchBytes' (s.close true).db)
            name value = some (true, text)) ∧
        ∃ retValue found, (LSMIOManager.ofRank size rank).metaGetAll StoreLDB.store alwaysFlush
            (.openStore maxBatchSize' maxBatchBytes' (s.close true).db) [] [] = some (retValue, found) ∧
          found.Pairwise (fun a b => compare a.1 b.1 = .lt) ∧
          ∀ entry, entry ∈ found ↔
            ∃ q < size, Finds rank q ∧ ∃ name v, lastValue (engineRecords stdType q calls) name = some v ∧
            entry = (metaPrefix ++ (LSMIOManager.ofRank size q).aggregator.rankedKey q name,
              writeVariableInfo opening closing v) := by
  obtain ⟨s, history, closed⟩ : ∃ s, engineHistory StoreLDB.store opening closing stdType size alwaysFlush
      (.openStore maxBatchSize maxBatchBytes ∅) calls = some s ∧
        (s.close true).db = engineStore opening closing stdType size calls :=
    engineHistory_levelDb clean maxBatchSize maxBatchBytes
  refine ⟨s, history, fun maxBatchSize' maxBatchBytes' => ⟨fun name text value last => ?_, ?_⟩⟩
  · rw [LSMIOManager.get_shown StoreLDB.deferring]
    exact closed ▸ get_engineStore inside clean last value
  · obtain ⟨retValue, answer⟩ : ∃ retValue, (LSMIOManager.ofRank size rank).metaGetAll .ofMap alwaysFlush
        (engineStore opening closing stdType size calls) [] [] = some
          (retValue, listing opening closing stdType size rank calls) :=
      metaGetAll_engineStore clean outer outer' inside alwaysFlush
    refine ⟨retValue, _, ?_, listing_ascending, fun entry => mem_listing_iff inside clean⟩
    rw [LSMIOManager.metaGetAll_shown StoreLDB.deferring]
    exact closed ▸ answer

/-- A text that a client has put and that still is in the batch is there after the database was closed. -/
theorem checkpoint_restored_deferred : ∃ s : StoreLDB, s.db = ∅ ∧
    (LSMIOManager.ofRank 2 1).get StoreLDB.store false (.openStore 512 1000 (s.close true).db) (ascii "x") [] =
      some (true, ascii "1,2") := by
  have clean : ∀ c ∈ [EngineCall.put 1 (ascii "x") (ascii "1,2") false], EngineCall.Clean 2 c := by decide +kernel
  obtain ⟨s, history, restored⟩ :=
    @checkpoint_restored 123 125 (fun _ => true) 2 1 false _ (by decide) (by decide) clean
    (by decide) 512 1000
  have deferred : (engineHistory StoreLDB.store 123 125 (fun _ => true) 2 false (.openStore 512 1000 ∅)
      [.put 1 (ascii "x") (ascii "1,2") false]).map StoreLDB.db = some ∅ := by decide +kernel
  rw [history] at deferred
  exact ⟨s, Option.some.inj deferred, (restored 512 1000).1 _ _ _ (by decide +kernel)⟩

end LSMIO.LsmioPlugin
