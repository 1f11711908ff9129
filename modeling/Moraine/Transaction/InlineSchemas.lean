-- SUMMARY: Under which schema the stored chunks decode, and which commits keep it the one they were written with.
import Moraine.Transaction.InlineEffects
import Moraine.Transaction.Ledgers

/-!
# Schemas of inlined chunks

Each call that inlines a chunk supplies the Arrow schema its body is written with, and each version of a table records
one. A commit records the schema of the first chunk it inlines into a version, or checks it against the recorded one.
The schemas of the later chunks are not looked at: a chunk whose schema is another one is stored, and decodes wrongly.

`chunks_decode_iff` says for which runs this never happens: those whose commits supply one schema for all chunks they
inline into one version of a table.
-/

namespace Moraine

open Std (ExtTreeMap ExtTreeSet)
open OrdMap Results

/-! ## The schema a commit records -/

/-- The schema an operation supplies for a version of a table. -/
def InlineStage.schemaFor (table schemaVersion : Nat) : InlineStage → Option (List UInt8)
  | .schema t v arrowSchema => if t = table ∧ v = schemaVersion then some arrowSchema else none
  | _ => none

/-- The schema that is supplied first. -/
def firstSchema (ops : List InlineStage) (table schemaVersion : Nat) : Option (List UInt8) :=
  ops.findSome? (InlineStage.schemaFor table schemaVersion)

theorem firstSchema_cons {op : InlineStage} {t v : Nat} (h : op.schemaFor t v = none) (ops : List InlineStage) :
    firstSchema (op :: ops) t v = firstSchema ops t v := by
  rw [firstSchema, List.findSome?_cons, h, firstSchema]

theorem mem_of_firstSchema {ops : List InlineStage} {t v : Nat} {arrowSchema : List UInt8}
    (h : firstSchema ops t v = some arrowSchema) : .schema t v arrowSchema ∈ ops := by
  obtain ⟨op, hop, hschema⟩ := List.exists_of_findSome?_eq_some h
  cases op with
  | schema t' v' a =>
    obtain ⟨⟨rfl, rfl⟩, heq⟩ := Option.ite_none_right_eq_some.mp hschema
    exact Option.some.inj heq ▸ hop
  | _ => cases hschema

theorem exists_firstSchema {ops : List InlineStage} {t v : Nat} {arrowSchema : List UInt8}
    (h : .schema t v arrowSchema ∈ ops) : ∃ first, firstSchema ops t v = some first := by
  refine Option.isSome_iff_exists.mp (List.findSome?_isSome_iff.mpr ⟨_, h, ?_⟩)
  simp [InlineStage.schemaFor]

namespace InlineStore

section Schemas

variable {s : InlineStore ArrowRow} {all ops : List InlineStage} {settled : ExtTreeSet (Nat × Nat)}
  {ws : List (InlineStoreWrite ArrowRow)} {t v : Nat}

/-- The first schema of a version is written if none is recorded. -/
theorem mem_schemaWriteIfNew {arrowSchema : List UInt8} {write : List (InlineStoreWrite ArrowRow)}
    (h : s.schemaWriteIfNew t v arrowSchema = .ok write) :
    ((s.table t).schemas[v]? = none ∧ write = [(t, .schema v (some arrowSchema))]) ∨
      ((s.table t).schemas[v]? = some arrowSchema ∧ write = []) := by
  unfold schemaWriteIfNew at h
  split at h
  next recorded hrecorded =>
    split at h
    next heq => exact .inr ⟨heq ▸ hrecorded, (Except.ok.inj h).symm⟩
    · cases h
  next hnone => exact .inl ⟨hnone, (Except.ok.inj h).symm⟩

/-- A version not yet settled is given its first schema, unless that is the one it has. -/
theorem schema_stageInlineWritesFrom (h : s.stageInlineWritesFrom all settled ops = .ok ws) :
    (∀ value, (t, .schema v value) ∈ ws ↔
      (t, v) ∉ settled ∧ (s.table t).schemas[v]? = none ∧ value.isSome ∧ value = firstSchema ops t v) ∧
    ((t, v) ∉ settled → ∀ recorded first, (s.table t).schemas[v]? = some recorded → firstSchema ops t v = some first →
      recorded = first) := by
  induction ops generalizing settled ws with
  | nil =>
    cases h
    simp +contextual [firstSchema, Option.isSome_iff_exists]
  | cons op ops ih =>
    cases op with
    | schema t' v' arrowSchema =>
      rw [stageInlineWritesFrom] at h
      by_cases hversion : t' = t ∧ v' = v
      · obtain ⟨rfl, rfl⟩ := hversion
        have hfirst : firstSchema (.schema t' v' arrowSchema :: ops) t' v' = some arrowSchema := by
          simp [firstSchema, InlineStage.schemaFor]
        split at h
        next hsettled =>
          have hin : (t', v') ∈ settled := ExtTreeSet.contains_iff_mem.mp hsettled
          simpa [hin] using (ih h).1
        next hsettled =>
          have hout : (t', v') ∉ settled := fun hin => hsettled (ExtTreeSet.contains_iff_mem.mpr hin)
          obtain ⟨write, hwrite, h⟩ := bind_eq_ok.mp h
          obtain ⟨writes, hrest, h⟩ := bind_eq_ok.mp h
          obtain rfl := Except.ok.inj h
          -- the rest finds the version settled
          have hnone : ∀ value, (t', .schema v' value) ∉ writes := by
            intro value hvalue
            exact (((ih hrest).1 value).mp hvalue).1 ExtTreeSet.mem_insert_self
          simp only [List.mem_append, hnone, or_false, hfirst, hout, not_false_eq_true, true_and]
          rcases mem_schemaWriteIfNew hwrite with ⟨hnew, rfl⟩ | ⟨hrecorded, rfl⟩
          · simp +contextual [hnew]
          · simp [hrecorded]
      · have hfirst : firstSchema (.schema t' v' arrowSchema :: ops) t v = firstSchema ops t v :=
          firstSchema_cons (by rw [InlineStage.schemaFor, if_neg hversion]) ops
        rw [hfirst]
        split at h
        · exact ih h
        · obtain ⟨write, hwrite, h⟩ := bind_eq_ok.mp h
          obtain ⟨writes, hrest, h⟩ := bind_eq_ok.mp h
          obtain rfl := Except.ok.inj h
          have hmem : (t, v) ∈ settled.insert (t', v') ↔ (t, v) ∈ settled := by
            simp [ExtTreeSet.mem_insert, hversion]
          have hother : ∀ value, (t, .schema v value) ∉ write := by
            rcases mem_schemaWriteIfNew hwrite with ⟨-, rfl⟩ | ⟨-, rfl⟩
            · intro value hvalue
              simp only [List.mem_singleton, Prod.mk.injEq, TableInlineWrite.schema.injEq] at hvalue
              exact hversion ⟨hvalue.1.symm, hvalue.2.1.symm⟩
            · simp
          have hrest := ih hrest
          rw [hmem] at hrest
          simpa only [List.mem_append, hother, false_or] using hrest
    | insert t' v' b q rowIdStart rowCount arrowBody =>
      obtain ⟨writes, hrest, h⟩ := bind_eq_ok.mp h
      obtain rfl := Except.ok.inj h
      rw [firstSchema_cons rfl]
      simpa using ih hrest
    | tombstone t' rowId e =>
      obtain ⟨writes, hrest, h⟩ := bind_eq_ok.mp h
      obtain rfl := Except.ok.inj h
      rw [firstSchema_cons rfl]
      simpa using ih hrest
    | flush t' v' n =>
      obtain ⟨_, -, h⟩ := bind_eq_ok.mp h
      obtain ⟨writes, hrest, h⟩ := bind_eq_ok.mp h
      obtain rfl := Except.ok.inj h
      rw [firstSchema_cons rfl]
      simpa using ih hrest

/-- A commit leaves a version its schema, which the first supplied one agrees with, or records the first one. -/
theorem schema_landed (h : s.stageInlineWrites ops = .ok ws) (t v : Nat) :
    ((s.applyAll ws).table t).schemas[v]? = (s.table t).schemas[v]?.or (firstSchema ops t v) ∧
      ∀ recorded first, (s.table t).schemas[v]? = some recorded → firstSchema ops t v = some first →
        recorded = first := by
  obtain ⟨hmem, hsame⟩ := schema_stageInlineWritesFrom (t := t) (v := v) h
  refine ⟨?_, hsame ExtTreeSet.not_mem_empty⟩
  simp only [ExtTreeSet.not_mem_empty, not_false_eq_true, true_and] at hmem
  ext arrowSchema
  have honly : ∀ value, (t, .schema v value) ∈ ws → value = some ((firstSchema ops t v).getD []) := by
    intro value hvalue
    obtain ⟨-, hsome, rfl⟩ := (hmem value).mp hvalue
    obtain ⟨first, hfirst⟩ := Option.isSome_iff_exists.mp hsome
    rw [hfirst, Option.getD_some]
  rw [applyAll_schema honly, hmem]
  cases (s.table t).schemas[v]? <;> cases firstSchema ops t v <;> simp [eq_comm]

end Schemas

end InlineStore

/-! ## Accounts of the supplied schemas -/

/-- The schema each chunk was supplied with, by its table and key. -/
abbrev SchemaAccount := Nat × InsertKey → Option (List UInt8)

/-- A call that inlines a chunk supplies its schema. -/
def SchemaAccount.supply (tx : Transaction) (call : Call) (account : SchemaAccount) : SchemaAccount :=
  match call with
  | .inlineInsert table chunk _ => Function.update account
      (table, chunk.schemaVersion, tx.newSnapshotId, tx.chunkSeqs.getD (table, chunk.schemaVersion) 0)
      (some chunk.arrowSchema)
  | _ => account

/-- Every stored chunk's version records the schema that was supplied with the chunk. -/
def InlineStore.Decodes (s : InlineStore ArrowRow) (account : SchemaAccount) : Prop :=
  ∀ (t : Nat) (key : InsertKey), (s.table t).rows.chunks[key]? ≠ none →
    ∃ arrowSchema, (s.table t).schemas[key.1]? = some arrowSchema ∧ account (t, key) = some arrowSchema

/-- The operations supply one schema at most for each version of a table. -/
def AgreeSchemas (ops : List InlineStage) : Prop :=
  ∀ t v a a', .schema t v a ∈ ops → .schema t v a' ∈ ops → a = a'

/-- No schema the operations supply differs from the recorded one of its version, or from another one supplied. -/
def InlineStore.Settles (s : InlineStore ArrowRow) (ops : List InlineStage) : Prop :=
  ∀ t v a a', .schema t v a ∈ ops → (s.table t).schemas[v]? = some a' ∨ .schema t v a' ∈ ops → a = a'

/-- Of a commit that is not refused the supplied schemas are those recorded if they agree with one another. -/
theorem InlineStore.settles_iff {s : InlineStore ArrowRow} {ops : List InlineStage}
    {writes : List (InlineStoreWrite ArrowRow)} (h : s.stageInlineWrites ops = .ok writes) :
    s.Settles ops ↔ AgreeSchemas ops := by
  refine ⟨fun hsettles t v a a' ha ha' => hsettles t v a a' ha (.inr ha'), fun hagree t v a a' ha ha' => ?_⟩
  rcases ha' with hrecorded | ha'
  · obtain ⟨first, hfirst⟩ := exists_firstSchema ha
    have hsame := (schema_landed h t v).2 a' first hrecorded hfirst
    rw [hsame]
    exact hagree t v a first ha (mem_of_firstSchema hfirst)
  · exact hagree t v a a' ha ha'

/-- A closure and the account of the schemas its calls have supplied. -/
structure Supplied (tx : Transaction) (s : InlineStore ArrowRow) (account : SchemaAccount) : Prop where
  staged : InlineStaged tx
  before : s.Before tx.newSnapshotId
  stored : s.Decodes account
  inserts : ∀ {t v n q start count body}, .insert t v n q start count body ∈ tx.inlineOps →
    ∃ arrowSchema, account (t, v, n, q) = some arrowSchema ∧ .schema t v arrowSchema ∈ tx.inlineOps
  schemas : ∀ {t v arrowSchema}, .schema t v arrowSchema ∈ tx.inlineOps →
    ∃ n q start count body, .insert t v n q start count body ∈ tx.inlineOps ∧
      account (t, v, n, q) = some arrowSchema

section Supplied

variable {tx tx' : Transaction} {s : InlineStore ArrowRow} {account account' : SchemaAccount} {call : Call}

theorem supplied_new {view : CatalogSnapshot} {n : Nat} (hbefore : s.Before n) (h : s.Decodes account) :
    Supplied (.new view n) s account :=
  ⟨inlineStaged_new view n, hbefore, h, by simp [Transaction.new], by simp [Transaction.new]⟩

/-- What a call supplies is for a key that no stored chunk and no earlier insert has. -/
theorem Supplied.supply_stored (h : Supplied tx s account) {t : Nat} {key : InsertKey}
    (hstored : (s.table t).rows.chunks[key]? ≠ none) : account.supply tx call (t, key) = account (t, key) := by
  unfold SchemaAccount.supply
  split
  next table chunk entries =>
    refine Function.update_of_ne (fun heq => ?_) _ _
    obtain ⟨rfl, rfl⟩ := Prod.mk.injEq .. ▸ heq
    exact lt_irrefl _ (h.before _ _ hstored)
  · rfl

theorem Supplied.supply_insert (h : Supplied tx s account) {t v n q start count : Nat} {body : List UInt8}
    (hop : .insert t v n q start count body ∈ tx.inlineOps) :
    account.supply tx call (t, v, n, q) = account (t, v, n, q) := by
  unfold SchemaAccount.supply
  split
  next table chunk entries =>
    refine Function.update_of_ne (fun heq => ?_) _ _
    simp only [Prod.mk.injEq] at heq
    obtain ⟨rfl, rfl, -, rfl⟩ := heq
    exact lt_irrefl _ (h.staged.inserts hop).2
  · rfl

/-- A call keeps the account of what it has staged before. -/
theorem Supplied.supply (h : Supplied tx s account) (heffect : InlineEffect tx call tx') :
    Supplied tx' s (account.supply tx call) := by
  have hstored : s.Decodes (account.supply tx call) := by
    intro t key hkey
    rw [h.supply_stored hkey]
    exact h.stored t key hkey
  have hstaged := h.staged.effect heffect
  -- a call that supplies no schema
  have hquiet {added : List InlineStage} (ops : tx'.inlineOps = tx.inlineOps ++ added)
      (snapshot : tx'.newSnapshotId = tx.newSnapshotId)
      (hinsert : ∀ {t v n q start count body}, .insert t v n q start count body ∉ added)
      (hschema : ∀ {t v a}, .schema t v a ∉ added) : Supplied tx' s (account.supply tx call) := by
    refine ⟨hstaged, snapshot ▸ h.before, hstored, fun hop => ?_, fun hop => ?_⟩
    all_goals
      simp only [ops, List.mem_append, hinsert, hschema, or_false] at hop ⊢
    · rw [h.supply_insert hop]
      exact h.inserts hop
    · obtain ⟨n, q, start, count, body, hinsert, haccount⟩ := h.schemas hop
      exact ⟨n, q, start, count, body, hinsert, by rw [h.supply_insert hinsert, haccount]⟩
  cases heffect with
  | quiet ops seqs snapshot =>
    have hops : tx'.inlineOps = tx.inlineOps ++ [] := by rw [ops, List.append_nil]
    exact hquiet hops snapshot (by simp) (by simp)
  | @insert t chunk entries tstat _ stats ops seqs snapshot =>
    have hnew : account.supply tx (.inlineInsert t chunk entries)
        (t, chunk.schemaVersion, tx.newSnapshotId, tx.chunkSeqs.getD (t, chunk.schemaVersion) 0) =
          some chunk.arrowSchema := Function.update_self ..
    refine ⟨hstaged, snapshot ▸ h.before, hstored, fun {t' v n q start count body} hop => ?_,
      fun {t' v arrowSchema} hop => ?_⟩
    · simp only [ops, List.mem_append, List.mem_cons, reduceCtorEq, InlineStage.insert.injEq, List.not_mem_nil,
        or_false, false_or] at hop
      rcases hop with hop | ⟨rfl, rfl, rfl, rfl, -⟩
      · obtain ⟨arrowSchema, haccount, hschema⟩ := h.inserts hop
        exact ⟨arrowSchema, by rw [h.supply_insert hop, haccount], by rw [ops]; exact List.mem_append_left _ hschema⟩
      · exact ⟨chunk.arrowSchema, hnew, by simp [ops]⟩
    · simp only [ops, List.mem_append, List.mem_cons, reduceCtorEq, InlineStage.schema.injEq, List.not_mem_nil,
        or_false] at hop
      rcases hop with hop | ⟨rfl, rfl, rfl⟩
      · obtain ⟨n, q, start, count, body, hinsert, haccount⟩ := h.schemas hop
        exact ⟨n, q, start, count, body, by rw [ops]; exact List.mem_append_left _ hinsert, by
          rw [h.supply_insert hinsert, haccount]⟩
      · exact ⟨_, _, tstat.nextRowId, chunk.rowCount, chunk.arrowBody, by simp [ops], hnew⟩
  | delete ops seqs snapshot => exact hquiet ops snapshot (by simp) (by simp)
  | flush ops seqs snapshot => exact hquiet ops snapshot (by simp) (by simp)

/-- After a commit all chunks decode exactly if the schemas supplied for one version agree. -/
theorem Supplied.decodes_landed_iff (h : Supplied tx s account) {writes : List (InlineStoreWrite ArrowRow)}
    (hwrites : s.stageInlineWrites tx.inlineOps = .ok writes) :
    (s.applyAll writes).Decodes account ↔ AgreeSchemas tx.inlineOps := by
  have hlanded {t v n q start count : Nat} {body : List UInt8}
      (hop : .insert t v n q start count body ∈ tx.inlineOps) :
      ((s.applyAll writes).table t).rows.chunks[((v, n, q) : InsertKey)]? ≠ none := by
    have := (chunk_landed h.staged h.before hwrites t (v, n, q) _).mpr (.inr ⟨start, count, body, hop, rfl⟩)
    simp [this]
  constructor
  · intro hdecodes t v a a' ha ha'
    obtain ⟨n, q, _, _, _, hop, haccount⟩ := h.schemas ha
    obtain ⟨n', q', _, _, _, hop', haccount'⟩ := h.schemas ha'
    obtain ⟨recorded, hrecorded, hsupplied⟩ := hdecodes t (v, n, q) (hlanded hop)
    obtain ⟨recorded', hrecorded', hsupplied'⟩ := hdecodes t (v, n', q') (hlanded hop')
    have hsame : recorded = recorded' := Option.some.inj (hrecorded.symm.trans hrecorded')
    have hfirst : a = recorded := Option.some.inj (haccount.symm.trans hsupplied)
    have hsecond : a' = recorded' := Option.some.inj (haccount'.symm.trans hsupplied')
    rw [hfirst, hsame, hsecond]
  · intro hagree t key hstored
    obtain ⟨chunk, hchunk⟩ := Option.ne_none_iff_exists'.mp hstored
    obtain ⟨hschemas, hsame⟩ := InlineStore.schema_landed hwrites t key.1
    rw [hschemas]
    rcases (chunk_landed h.staged h.before hwrites t key chunk).mp hchunk with ⟨hold, -⟩ | ⟨_, _, _, hop, -⟩
    · obtain ⟨recorded, hrecorded, hsupplied⟩ := h.stored t key (by rw [hold]; simp)
      exact ⟨recorded, by rw [hrecorded, Option.some_or], hsupplied⟩
    · obtain ⟨arrowSchema, hsupplied, hop'⟩ := h.inserts hop
      obtain ⟨first, hfirst⟩ := exists_firstSchema hop'
      obtain rfl : arrowSchema = first := hagree _ _ _ _ hop' (mem_of_firstSchema hfirst)
      refine ⟨arrowSchema, ?_, hsupplied⟩
      cases hrecorded : (s.table t).schemas[key.1]? with
      | none => rw [Option.none_or, hfirst]
      | some recorded => rw [Option.some_or, hsame recorded arrowSchema hrecorded hfirst]

end Supplied

/-! ## Runs -/

/-- A ledger of the supplied schemas; commits leave the account as the calls have entered it. -/
abbrev schemaStep (changes : List Operation → String × List Nat) :
    Ledger SchemaAccount → SessionEvent → Option (Ledger SchemaAccount) :=
  Ledger.step changes SchemaAccount.supply fun _ _ account => account

section Runs

variable (changes : List Operation → String × List Nat) (micros : Int) (uuid : String) (encrypted : Bool)
  (dataPath : Option String) (events : List SessionEvent)

/-- In all states of a run the stored chunks decode exactly if the schemas of each commit agree. -/
theorem always_decodes_iff :
    Runs.Always (schemaStep changes) (Ledger.Stands fun standing account => standing.inline.Decodes account)
        (Ledger.start micros uuid encrypted dataPath fun _ => none) events ↔
      Runs.Throughout (schemaStep changes)
        (fun s event => ∀ micros, event = .commit micros → s.session.joins changes micros →
          AgreeSchemas s.session.tx.inlineOps)
        (Ledger.start micros uuid encrypted dataPath fun _ => none) events := by
  refine Ledger.always_stands_iff (T := Supplied)
    (V := fun standing account => standing.inline.Before (standing.head + 1) ∧ standing.inline.Decodes account)
    (c := fun s => AgreeSchemas s.session.tx.inlineOps) (fun h => h.2) ?_ ?_ ?_ ?_ ?_ micros uuid encrypted dataPath ?_
    (Runs.throughout_of_forall fun _ _ => trivial)
  · intro a b account hpasses h
    rw [hpasses.inline, hpasses.head]
    exact h
  · intro a b account hpasses h
    rw [← hpasses.inline]
    exact h
  · rintro db view account ⟨hbefore, hdecodes⟩
    exact supplied_new hbefore hdecodes
  · intro s call _ _ h
    exact h.supply (rowsEffect_after _ _).inline
  · intro s micros writes _ _ _ hwrites h
    have hiff := h.decodes_landed_iff hwrites
    exact ⟨fun hagree => ⟨before_landed h.staged h.before hwrites, hiff.mpr hagree⟩, hiff.mp⟩
  · exact ⟨fun t key hstored => absurd rfl hstored, fun t key hstored => absurd rfl hstored⟩

/-- No commit of a run passes with a schema that is not the recorded or staged one exactly if those of each agree. -/
theorem throughout_settles_iff :
    Runs.Throughout (schemaStep changes)
        (fun s event => ∀ micros, event = .commit micros → s.session.joins changes micros →
          s.session.batch.db.inline.Settles s.session.tx.inlineOps)
        (Ledger.start micros uuid encrypted dataPath fun _ => none) events ↔
      Runs.Throughout (schemaStep changes)
        (fun s event => ∀ micros, event = .commit micros → s.session.joins changes micros →
          AgreeSchemas s.session.tx.inlineOps)
        (Ledger.start micros uuid encrypted dataPath fun _ => none) events := by
  refine Runs.throughout_iff_of_inv (I := fun s => s.session.Inv) Ledger.inv_step ?_ (Session.inv_start _ _ _ _)
  intro s event s' hinv hstep
  refine forall_congr' fun micros => forall₂_congr fun hevent hjoins => ?_
  subst hevent
  obtain ⟨session, hsession, -⟩ := Option.map_eq_some_iff.mp hstep
  have hstands := Session.commit_stands hinv hsession
  rw [if_pos hjoins] at hstands
  obtain ⟨writes, hwrites, -⟩ := hstands
  exact InlineStore.settles_iff hwrites

/-- In a run all stored chunks decode under the schema they were supplied with, in every state, and no commit passes
    that supplies a schema other than the recorded or staged one, exactly if each commit that joins the batch supplies
    one schema for all chunks it inlines into one version of a table. -/
theorem chunks_decode_iff :
    Runs.Always (schemaStep changes) (Ledger.Stands fun standing account => standing.inline.Decodes account)
        (Ledger.start micros uuid encrypted dataPath fun _ => none) events ∧
      Runs.Throughout (schemaStep changes)
        (fun s event => ∀ micros, event = .commit micros → s.session.joins changes micros →
          s.session.batch.db.inline.Settles s.session.tx.inlineOps)
        (Ledger.start micros uuid encrypted dataPath fun _ => none) events ↔
      Runs.Throughout (schemaStep changes)
        (fun s event => ∀ micros, event = .commit micros → s.session.joins changes micros →
          AgreeSchemas s.session.tx.inlineOps)
        (Ledger.start micros uuid encrypted dataPath fun _ => none) events := by
  rw [always_decodes_iff, throughout_settles_iff, and_self]

end Runs

namespace MixedSchemas

/-- A table, and one commit that inlines two chunks into its version 0, each with a schema of its own. -/
def events : List SessionEvent :=
  [.call (.createTable 0 "t" [⟨"a", "int64", true, none, []⟩] "uuid"), .commit 1,
   .call (.inlineInsert 1 ⟨0, [1], [10], 1⟩ []), .call (.inlineInsert 1 ⟨0, [2], [20], 1⟩ []), .commit 2]

/-- Whether the second chunk is stored, the schema its version records, and the one it was supplied with. -/
def second (s : Ledger SchemaAccount) : Bool × Option (List UInt8) × Option (List UInt8) :=
  let table := s.session.batch.db.inline.table 1
  (table.rows.chunks[((0, 2, 1) : InsertKey)]?.isSome, table.schemas[0]?, s.batch (1, 0, 2, 1))

/-- The second chunk is stored under the first one's schema. -/
theorem chunk_stored_under_other_schema :
    ¬ Runs.Always (schemaStep fun _ => ("", [])) (Ledger.Stands fun standing account => standing.inline.Decodes account)
      (Ledger.start 0 "" false none fun _ => none) events := by
  have hsecond : (Runs.run (schemaStep fun _ => ("", [])) (Ledger.start 0 "" false none fun _ => none) events).map
      second = some (true, some [1], some [2]) := by
    decide +kernel
  intro halways
  obtain ⟨s, hs, hsecond⟩ := Option.map_eq_some_iff.mp hsecond
  obtain ⟨hstored, hrecorded, hsupplied⟩ := Prod.mk.injEq .. ▸ Prod.mk.injEq .. ▸ hsecond
  obtain ⟨arrowSchema, hschema, haccount⟩ := (halways.run hs).1 1 (0, 2, 1) (Option.isSome_iff_ne_none.mp hstored)
  cases (hschema.symm.trans hrecorded)
  cases (haccount.symm.trans hsupplied)

end MixedSchemas

end Moraine
