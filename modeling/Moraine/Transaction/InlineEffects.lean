-- SUMMARY: What every call stages of inline records, and what the store holds once a commit has landed them.
import Moraine.Transaction.InlineStaging
import Moraine.Transaction.TableRows

/-!
# Inline records along calls and commits

Of all verbs only three stage inline operations, and a call that fails may have staged them too. What a closure has
staged is well formed: its chunks and drains carry the snapshot that the closure mints, and its chunks have sequence
numbers of their own (`InlineStaged`). On a store whose chunks are older the landed chunks are then those that were
stored and are not drained, and those the closure inserted.
-/

namespace Moraine

open Std (ExtTreeMap ExtTreeSet)
open OrdMap Results CatalogSnapshot Transaction

/-! ## What calls stage -/

/-- What a call does to the staged inline operations. -/
inductive InlineEffect (tx : Transaction) : Call → Transaction → Prop where
  | quiet {call : Call} {tx' : Transaction} (ops : tx'.inlineOps = tx.inlineOps) (seqs : tx'.chunkSeqs = tx.chunkSeqs)
      (snapshot : tx'.newSnapshotId = tx.newSnapshotId) : InlineEffect tx call tx'
  | insert {t : Nat} {chunk : InlineChunk} {entries : List FileIndexEntry} {tstat : TableStatsValue} {tx' : Transaction}
      (stats : tx.state.tableStats[t]? = some tstat)
      (ops : tx'.inlineOps = tx.inlineOps ++ [.schema t chunk.schemaVersion chunk.arrowSchema,
        .insert t chunk.schemaVersion tx.newSnapshotId (tx.chunkSeqs.getD (t, chunk.schemaVersion) 0) tstat.nextRowId
          chunk.rowCount chunk.arrowBody])
      (seqs : tx'.chunkSeqs =
        tx.chunkSeqs.insert (t, chunk.schemaVersion) (tx.chunkSeqs.getD (t, chunk.schemaVersion) 0 + 1))
      (snapshot : tx'.newSnapshotId = tx.newSnapshotId) : InlineEffect tx (.inlineInsert t chunk entries) tx'
  | delete {t rowId : Nat} {entries : List FileIndexRemoval} {tx' : Transaction}
      (ops : tx'.inlineOps = tx.inlineOps ++ [.tombstone t rowId tx.newSnapshotId])
      (seqs : tx'.chunkSeqs = tx.chunkSeqs)
      (snapshot : tx'.newSnapshotId = tx.newSnapshotId) : InlineEffect tx (.inlineDelete t rowId entries) tx'
  | flush {t schemaVersion : Nat} {flushed : List FlushedDataFile} {tx' : Transaction}
      (ops : tx'.inlineOps = tx.inlineOps ++ [.flush t schemaVersion tx.newSnapshotId])
      (seqs : tx'.chunkSeqs = tx.chunkSeqs) (snapshot : tx'.newSnapshotId = tx.newSnapshotId) :
      InlineEffect tx (.flushInlinedData t schemaVersion flushed) tx'

theorem RowsEffect.inline {tx tx' : Transaction} {call : Call} (h : RowsEffect tx call tx') :
    InlineEffect tx call tx' := by
  cases h with
  | insert live rows counted stats files ops seqs snapshot => exact .insert counted ops seqs snapshot
  | delete stats files ops seqs snapshot => exact .delete ops seqs snapshot
  | flush live counted registers first state nextFileId ops seqs snapshot =>
    rcases ops with ops | ⟨-, ops⟩
    · exact .quiet ops seqs snapshot
    · exact .flush ops seqs snapshot
  | quiet stats files kept | create stats files kept | drop stats files kept | orphan uncounted stats files kept
  | register live counted stats files kept | expire live counted stats files kept
  | recount counted stats files kept => exact .quiet kept.ops kept.seqs kept.snapshot

/-- What every closure has staged: chunks and drains of the snapshot it mints, each chunk under a sequence number of its
    own. -/
structure InlineStaged (tx : Transaction) : Prop where
  inserts : ∀ {t v n q start count body}, .insert t v n q start count body ∈ tx.inlineOps →
    n = tx.newSnapshotId ∧ q < tx.chunkSeqs.getD (t, v) 0
  distinct : tx.inlineOps.Pairwise InlineStage.Apart
  flushes : ∀ {t v n}, .flush t v n ∈ tx.inlineOps → n = tx.newSnapshotId

theorem inlineStaged_new (view : CatalogSnapshot) (n : Nat) : InlineStaged (.new view n) :=
  ⟨by simp [Transaction.new], by simp [Transaction.new], by simp [Transaction.new]⟩

/-- A call that stages `added`: its chunks take sequence numbers from where those of the closure end. -/
theorem InlineStaged.append {tx tx' : Transaction} (h : InlineStaged tx) {added : List InlineStage}
    (hops : tx'.inlineOps = tx.inlineOps ++ added) (hsnapshot : tx'.newSnapshotId = tx.newSnapshotId)
    (hseqs : ∀ key, tx.chunkSeqs.getD key 0 ≤ tx'.chunkSeqs.getD key 0)
    (hinserts : ∀ {t v n q start count body}, .insert t v n q start count body ∈ added →
      n = tx.newSnapshotId ∧ tx.chunkSeqs.getD (t, v) 0 ≤ q ∧ q < tx'.chunkSeqs.getD (t, v) 0)
    (hdistinct : added.Pairwise InlineStage.Apart)
    (hflushes : ∀ {t v n}, .flush t v n ∈ added → n = tx.newSnapshotId) : InlineStaged tx' := by
  constructor
  · intro t v n q start count body hop
    rw [hops, List.mem_append] at hop
    rcases hop with hop | hop
    · obtain ⟨hn, hq⟩ := h.inserts hop
      exact ⟨hn.trans hsnapshot.symm, hq.trans_le (hseqs _)⟩
    · obtain ⟨hn, -, hq⟩ := hinserts hop
      exact ⟨hn.trans hsnapshot.symm, hq⟩
  · rw [hops, List.pairwise_append]
    refine ⟨h.distinct, hdistinct, fun op hop op' hop' key hkey hkey' => ?_⟩
    -- two inserts under one key would have one sequence number, below and not below the old end
    cases op <;> cases op' <;> simp only [InlineStage.chunkKey, reduceCtorEq, Option.some.injEq] at hkey hkey'
    obtain rfl := hkey
    simp only [Prod.mk.injEq] at hkey'
    obtain ⟨rfl, rfl, -, rfl⟩ := hkey'
    exact absurd (h.inserts hop).2 (Nat.not_lt.mpr (hinserts hop').2.1)
  · intro t v n hop
    rw [hops, List.mem_append] at hop
    rw [hsnapshot]
    exact hop.elim h.flushes hflushes

theorem InlineStaged.effect {tx tx' : Transaction} {call : Call} (h : InlineStaged tx)
    (heffect : InlineEffect tx call tx') :
    InlineStaged tx' := by
  cases heffect with
  | quiet ops seqs snapshot =>
    have hops : tx'.inlineOps = tx.inlineOps ++ [] := by rw [ops, List.append_nil]
    exact h.append hops snapshot (fun _ => by rw [seqs]) nofun .nil nofun
  | @insert t chunk entries tstat _ stats ops seqs snapshot =>
    refine h.append ops snapshot (fun key => ?_) ?_ (by simp [InlineStage.Apart, InlineStage.chunkKey]) (by simp)
    · rw [seqs, ExtTreeMap.getD_insert]
      split
      next heq =>
        obtain rfl := Std.LawfulEqCmp.compare_eq_iff_eq.mp heq
        exact Nat.le_succ _
      · exact le_rfl
    · intro t' v n q start count body hop
      simp only [List.mem_cons, reduceCtorEq, InlineStage.insert.injEq, List.not_mem_nil, or_false, false_or] at hop
      obtain ⟨rfl, rfl, rfl, rfl, -⟩ := hop
      refine ⟨rfl, le_rfl, ?_⟩
      rw [seqs, ExtTreeMap.getD_insert_self]
      exact Nat.lt_succ_self _
  | delete ops seqs snapshot =>
    exact h.append ops snapshot (fun _ => by rw [seqs]) (by simp) (List.pairwise_singleton _ _) (by simp)
  | flush ops seqs snapshot =>
    exact h.append ops snapshot (fun _ => by rw [seqs]) (by simp) (List.pairwise_singleton _ _) (by simp)

/-! ## What a commit lands -/

/-- The stored chunks are older than the snapshot that is being minted. -/
def InlineStore.Before (s : InlineStore ArrowRow) (n : Nat) : Prop :=
  ∀ (t : Nat) (key : InsertKey), (s.table t).rows.chunks[key]? ≠ none → key.beginSnapshot < n

/-- One insert puts a chunk. -/
theorem InlineStaged.insert_unique {tx : Transaction} (h : InlineStaged tx) {t v n q start count start' count' : Nat}
    {body body' : List UInt8} (hop : .insert t v n q start count body ∈ tx.inlineOps)
    (hop' : .insert t v n q start' count' body' ∈ tx.inlineOps) : start = start' ∧ count = count' ∧ body = body' := by
  by_contra hne
  refine h.distinct.forall hop hop' (fun heq => hne ?_) (t, v, n, q) rfl rfl
  cases heq
  exact ⟨rfl, rfl, rfl⟩

section Landed

variable {tx : Transaction} (h : InlineStaged tx) {s : InlineStore ArrowRow} (hs : s.Before tx.newSnapshotId)
  {writes : List (InlineStoreWrite ArrowRow)} (hwrites : s.stageInlineWrites tx.inlineOps = .ok writes)

include h hs

/-- Nothing is stored under the key of a chunk the closure inserts. -/
theorem InlineStaged.chunk_fresh {t start count : Nat} {key : InsertKey} {body : List UInt8}
    (hop : .insert t key.1 key.2.1 key.2.2 start count body ∈ tx.inlineOps) :
    (s.table t).rows.chunks[key]? = none := by
  by_contra hstored
  have hlt := hs t key hstored
  rw [InsertKey.beginSnapshot, (h.inserts hop).1] at hlt
  exact lt_irrefl _ hlt

include hwrites

/-- The chunks of a table after a commit: those that were stored and are not drained, and those the closure inserted. -/
theorem chunk_landed (t : Nat) (key : InsertKey) (chunk : InlineChunkValue ArrowRow) :
    ((s.applyAll writes).table t).rows.chunks[key]? = some chunk ↔
      ((s.table t).rows.chunks[key]? = some chunk ∧ ∀ n, .flush t key.1 n ∉ tx.inlineOps) ∨
      ∃ start count body, .insert t key.1 key.2.1 key.2.2 start count body ∈ tx.inlineOps ∧
        chunk = ⟨start, arrowRows body count⟩ := by
  have hmem := InlineStore.mem_stageInlineWritesFrom hwrites t key
  by_cases hnew : ∃ start count body, .insert t key.1 key.2.1 key.2.2 start count body ∈ tx.inlineOps
  · obtain ⟨start, count, body, hop⟩ := hnew
    have hfresh := h.chunk_fresh hs hop
    have hput : ((s.applyAll writes).table t).rows.chunks[key]? = some ⟨start, arrowRows body count⟩ := by
      refine InlineStore.applyAll_chunk_of_put (.inl ((hmem _).mpr (.inl ⟨start, count, body, hop, rfl⟩)))
        fun value hvalue => ?_
      rcases (hmem value).mp hvalue with ⟨start', count', body', hop', rfl⟩ | ⟨_, _, -, -, hstored, -⟩
      · obtain ⟨rfl, rfl, rfl⟩ := h.insert_unique hop hop'
        rfl
      · exact absurd hfresh hstored
    rw [hput, Option.some.injEq, hfresh]
    constructor
    · rintro rfl
      exact .inr ⟨start, count, body, hop, rfl⟩
    · rintro (⟨hstored, -⟩ | ⟨start', count', body', hop', rfl⟩)
      · cases hstored
      · obtain ⟨rfl, rfl, rfl⟩ := h.insert_unique hop hop'
        rfl
  · have hputs : ∀ value, (t, .rows (.chunk key (some value))) ∉ writes := by
      intro value hvalue
      rcases (hmem _).mp hvalue with ⟨start, count, body, hop, -⟩ | ⟨_, _, -, hnone, -⟩
      · exact hnew ⟨start, count, body, hop⟩
      · cases hnone
    rw [InlineStore.applyAll_chunk hputs]
    refine (and_congr_right fun hstored => ?_).trans (or_iff_left ?_).symm
    · rw [hmem]
      have hbefore := hs t key (by rw [hstored]; simp)
      constructor
      · intro hkept n hop
        refine hkept (.inr ⟨key.1, n, hop, rfl, by rw [hstored]; simp, ?_⟩)
        rw [h.flushes hop]
        simpa [InsertKey.drained] using hbefore.le
      · rintro hkept (⟨_, _, _, -, hvalue⟩ | ⟨v, n, hop, -, -, hdrained⟩)
        · cases hvalue
        · simp only [InsertKey.drained, Bool.and_eq_true, decide_eq_true_eq] at hdrained
          exact hkept n (hdrained.1 ▸ hop)
    · rintro ⟨start, count, body, hop, -⟩
      exact hnew ⟨start, count, body, hop⟩

/-- The chunks a commit lands are of its snapshot or older. -/
theorem before_landed : (s.applyAll writes).Before (tx.newSnapshotId + 1) := by
  intro t key hstored
  obtain ⟨chunk, hchunk⟩ := Option.ne_none_iff_exists'.mp hstored
  rcases (chunk_landed h hs hwrites t key chunk).mp hchunk with ⟨hold, -⟩ | ⟨start, count, body, hop, -⟩
  · exact (hs t key (by rw [hold]; simp)).trans (Nat.lt_succ_self _)
  · rw [InsertKey.beginSnapshot, (h.inserts hop).1]
    exact Nat.lt_succ_self _

end Landed

end Moraine
