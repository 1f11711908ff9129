-- SUMMARY: Conflicts of commits in terms of the operations they recorded: symmetric, monotone, none where apart.
import Moraine.Transaction.ChangeSet

/-!
# Conflicts of operations

Conflict detection compares change sets. Every part of a set comes from one of the operations it was built from, and
every rule asks for the presence of something, never for its absence. So what conflicts with a part of a commit
conflicts with the whole.
-/

namespace Moraine

open Std (ExtTreeMap ExtTreeSet)
open OrdMap ChangeSet

/-! ## What operations touch -/

namespace Operation

/-- The table or view an operation touches. Both have their ids from one counter. -/
def relation : Operation → Option Nat
  | .createTable _ id _ _ | .alterTable id | .alterTableSorting id | .advanceIndexBuild id
  | .finishIndexMaintenance id | .dropTable id | .registerDataFile id | .registerDeleteFile id _ | .expireDataFile id
  | .expireDeleteFile id | .updateStats id | .inlineInsert id | .inlineDelete id | .flushInlinedData id
  | .createView _ id _ _ | .alterView id | .dropView id => some id
  | .createSchema .. | .dropSchema _ | .alterSchema _ | .createMacro .. | .dropMacro .. => none

/-- The data file an operation deletes from. -/
def dataFile : Operation → Option Nat
  | .registerDeleteFile _ id => some id
  | _ => none

/-- An operation that creates or drops a schema. -/
def changesSchemas : Operation → Bool
  | .createSchema .. | .dropSchema _ => true
  | _ => false

/-- The schema in which an operation creates an object. -/
def createdIn : Operation → Option Nat
  | .createTable schemaId .. | .createView schemaId .. | .createMacro schemaId .. => some schemaId
  | _ => none

end Operation

/-- One commit creates an object in a schema that the other drops. -/
def CreatesInDropped (ours theirs : List Operation) : Prop :=
  ∃ schemaId, (∃ op ∈ ours, op.createdIn = some schemaId) ∧ .dropSchema schemaId ∈ theirs

theorem CreatesInDropped.mono {ours theirs ours' theirs' : List Operation} (hours : ours ⊆ ours')
    (htheirs : theirs ⊆ theirs') (h : CreatesInDropped ours theirs) : CreatesInDropped ours' theirs' := by
  obtain ⟨schemaId, ⟨op, hop, hcreated⟩, hdropped⟩ := h
  exact ⟨schemaId, ⟨op, hours hop, hcreated⟩, htheirs hdropped⟩

/-! ## What a change set holds -/

namespace ChangeSet

section Record

variable (set : ChangeSet) (op : Operation)

theorem mem_ids_record (kind : IdKind) (n : Nat) :
    n ∈ (set.record op).ids kind ↔ n ∈ set.ids kind ∨ op.idEntry = some (kind, n) := by
  rw [ids_record]
  cases hentry : op.idEntry with
  | none => simp
  | some entry =>
    obtain ⟨k, m⟩ := entry
    simp only [Option.some.injEq, Prod.mk.injEq]
    split
    next heq => rw [mem_insert_set, or_comm, heq, eq_comm (a := n)]; simp
    next hne => simp [Ne.symm hne]

theorem mem_deletedDataFileIds_record (f : Nat) :
    f ∈ (set.record op).deletedDataFileIds ↔ f ∈ set.deletedDataFileIds ∨ op.dataFile = some f := by
  cases op <;> simp only [record, Operation.dataFile] <;> (try split) <;> simp [or_comm]

theorem touchesSchemaList_record :
    (set.record op).touchesSchemaList = true ↔ set.touchesSchemaList = true ∨ op.changesSchemas = true := by
  cases op <;> simp only [record, Operation.changesSchemas, touchesSchemaList] <;> (try split) <;> simp

theorem createsTableIn_record (schemaId : Nat) :
    (set.record op).createsTableIn schemaId = true ↔
      set.createsTableIn schemaId = true ∨ op.createdIn = some schemaId := by
  cases op <;> simp only [record, Operation.createdIn, createsTableIn] <;> (try split) <;> simp <;> tauto

end Record

section FromOperations

variable {operations more ours theirs ours' theirs' : List Operation}

theorem mem_ids_fromOperations (kind : IdKind) {n : Nat} :
    n ∈ (fromOperations operations).ids kind ↔ ∃ op ∈ operations, op.idEntry = some (kind, n) :=
  fromOperations_iff operations (P := fun set => n ∈ set.ids kind) (fun set op => mem_ids_record set op kind n)
    (by cases kind <;> simp [ids])

theorem mem_deletedDataFileIds_fromOperations {f : Nat} :
    f ∈ (fromOperations operations).deletedDataFileIds ↔ ∃ op ∈ operations, op.dataFile = some f :=
  fromOperations_iff operations (P := fun set => f ∈ set.deletedDataFileIds)
    (fun set op => mem_deletedDataFileIds_record set op f) (by simp)

theorem touchesSchemaList_fromOperations :
    (fromOperations operations).touchesSchemaList = true ↔ ∃ op ∈ operations, op.changesSchemas = true :=
  fromOperations_iff operations (P := fun set => set.touchesSchemaList = true) touchesSchemaList_record
    (by simp [touchesSchemaList])

theorem createsTableIn_fromOperations {schemaId : Nat} :
    (fromOperations operations).createsTableIn schemaId = true ↔ ∃ op ∈ operations, op.createdIn = some schemaId :=
  fromOperations_iff operations (P := fun set => set.createsTableIn schemaId = true)
    (fun set op => createsTableIn_record set op schemaId) (by simp [createsTableIn])

theorem createdInDropped_fromOperations :
    createdInDropped (fromOperations ours) (fromOperations theirs) = true ↔ CreatesInDropped ours theirs := by
  have hdropped {schemaId : Nat} :
      schemaId ∈ (fromOperations theirs).droppedSchemas ↔ .dropSchema schemaId ∈ theirs := by
    refine (mem_ids_fromOperations .droppedSchema).trans ⟨?_, fun h => ⟨_, h, rfl⟩⟩
    rintro ⟨op, hop, hentry⟩
    cases op with
    | dropSchema id =>
      obtain rfl : id = schemaId := by simpa [Operation.idEntry] using hentry
      exact hop
    | dropMacro id macroType =>
      simp only [Operation.idEntry, Option.some.injEq, Prod.mk.injEq] at hentry
      split at hentry <;> cases hentry.1
    | _ => simp [Operation.idEntry] at hentry
  simp only [createdInDropped, List.any_eq_true, ExtTreeSet.mem_toList, hdropped, createsTableIn_fromOperations,
    CreatesInDropped]
  exact exists_congr fun _ => and_comm

/-! ## More operations -/

/-- Everything a commit has done to a table, another has done too. -/
structure TableKinds.Le (a b : TableKinds) : Prop where
  inserted : a.inserted = true → b.inserted = true
  deleted : a.deleted = true → b.deleted = true
  altered : a.altered = true → b.altered = true
  dropped : a.dropped = true → b.dropped = true
  compacted : a.compacted = true → b.compacted = true

theorem kindsConflictOneWay_mono {a a' b b' : TableKinds} (ha : a.Le a') (hb : b.Le b')
    (h : kindsConflictOneWay a b = true) : kindsConflictOneWay a' b' = true := by
  simp only [kindsConflictOneWay, Bool.or_eq_true, Bool.and_eq_true] at h ⊢
  refine h.imp (Or.imp (Or.imp ?_ ?_) ?_) ?_
  · exact And.imp ha.inserted (Or.imp (Or.imp hb.altered hb.deleted) hb.dropped)
  · exact And.imp ha.deleted (Or.imp (Or.imp (Or.imp hb.altered hb.compacted) hb.dropped) hb.inserted)
  · exact And.imp ha.altered (Or.imp hb.altered hb.dropped)
  · exact And.imp ha.compacted (Or.imp (Or.imp hb.deleted hb.dropped) hb.compacted)

theorem kindsConflict_mono {a a' b b' : TableKinds} (ha : a.Le a') (hb : b.Le b') (h : kindsConflict a b = true) :
    kindsConflict a' b' = true := by
  rw [kindsConflict, Bool.or_eq_true] at h ⊢
  exact h.imp (kindsConflictOneWay_mono ha hb) (kindsConflictOneWay_mono hb ha)

theorem ids_mono (kind : IdKind) (h : operations ⊆ more) {n : Nat} (hn : n ∈ (fromOperations operations).ids kind) :
    n ∈ (fromOperations more).ids kind := by
  obtain ⟨op, hop, hentry⟩ := (mem_ids_fromOperations kind).mp hn
  exact (mem_ids_fromOperations kind).mpr ⟨op, h hop, hentry⟩

theorem kindsOf_mono (h : operations ⊆ more) (t : Nat) :
    ((fromOperations operations).kindsOf t).Le ((fromOperations more).kindsOf t) := by
  constructor <;> simp only [kindsOf, decide_eq_true_eq]
  · exact ids_mono .insertedIntoTable h
  · exact ids_mono .deletedFromTable h
  · exact Or.imp (ids_mono .alteredTable h) (ids_mono .alteredView h)
  · exact Or.imp (ids_mono .droppedTable h) (ids_mono .droppedView h)
  · exact Or.imp (Or.imp (ids_mono .mergeAdjacent h) (ids_mono .rewriteDelete h)) (ids_mono .compactedTable h)

theorem deleteDeleteConflicts_mono (hours : ours ⊆ ours') (htheirs : theirs ⊆ theirs')
    (h : deleteDeleteConflicts (fromOperations ours) (fromOperations theirs) = true) :
    deleteDeleteConflicts (fromOperations ours') (fromOperations theirs') = true := by
  simp only [deleteDeleteConflicts_iff, deletesUntargetedFiles_fromOperations,
    mem_deletedDataFileIds_fromOperations] at h ⊢
  refine h.imp (Or.imp ?_ ?_) ?_
  · exact fun ⟨t, hop⟩ => ⟨t, hours hop⟩
  · exact fun ⟨t, hop⟩ => ⟨t, htheirs hop⟩
  · exact fun ⟨f, ⟨op, hop, hfile⟩, op', hop', hfile'⟩ => ⟨f, ⟨op, hours hop, hfile⟩, op', htheirs hop', hfile'⟩

theorem MeetOn.mono {t : Nat} (hours : ours ⊆ ours') (htheirs : theirs ⊆ theirs')
    (h : MeetOn (fromOperations ours) (fromOperations theirs) t) :
    MeetOn (fromOperations ours') (fromOperations theirs') t := by
  refine h.imp (kindsConflict_mono (kindsOf_mono hours t) (kindsOf_mono htheirs t)) ?_
  rintro ⟨hdeleted, hdeleted', hmeet⟩
  exact ⟨ids_mono .deletedFromTable hours hdeleted, ids_mono .deletedFromTable htheirs hdeleted',
    deleteDeleteConflicts_mono hours htheirs hmeet⟩

/-- The conflict rules in terms of the operations. -/
theorem conflicts_fromOperations_iff :
    conflicts (fromOperations ours) (fromOperations theirs) = true ↔
      ((∃ op ∈ ours, op.changesSchemas = true) ∧ ∃ op ∈ theirs, op.changesSchemas = true) ∨
      (∃ t, MeetOn (fromOperations ours) (fromOperations theirs) t) ∨
      CreatesInDropped ours theirs ∨ CreatesInDropped theirs ours := by
  rw [conflicts_iff, ConflictApart, (fromOperations_known ours).1, (fromOperations_known theirs).1,
    touchesSchemaList_fromOperations, touchesSchemaList_fromOperations, createdInDropped_fromOperations,
    createdInDropped_fromOperations]
  simp [or_assoc]

theorem conflicts_mono (hours : ours ⊆ ours') (htheirs : theirs ⊆ theirs')
    (h : conflicts (fromOperations ours) (fromOperations theirs) = true) :
    conflicts (fromOperations ours') (fromOperations theirs') = true := by
  rw [conflicts_fromOperations_iff] at h ⊢
  refine h.imp (And.imp ?_ ?_) (Or.imp ?_ (Or.imp (.mono hours htheirs) (.mono htheirs hours)))
  · exact fun ⟨op, hop, hchanges⟩ => ⟨op, hours hop, hchanges⟩
  · exact fun ⟨op, hop, hchanges⟩ => ⟨op, htheirs hop, hchanges⟩
  · exact fun ⟨t, hmeet⟩ => ⟨t, hmeet.mono hours htheirs⟩

/-! ## Commits apart -/

theorem relation_of_idEntry {op : Operation} {kind : IdKind} {t : Nat} (h : op.idEntry = some (kind, t))
    (hschema : kind ≠ .droppedSchema) (hscalar : kind ≠ .droppedScalarMacro) (htable : kind ≠ .droppedTableMacro) :
    op.relation = some t := by
  cases op with
  | dropMacro id macroType =>
    simp only [Operation.idEntry, Option.some.injEq, Prod.mk.injEq] at h
    split at h
    · exact absurd h.1.symm htable
    · exact absurd h.1.symm hscalar
  | dropSchema id =>
    simp only [Operation.idEntry, Option.some.injEq, Prod.mk.injEq] at h
    exact absurd h.1.symm hschema
  | _ => simp_all [Operation.idEntry, Operation.relation]

/-- A table of which a set knows anything is one that an operation touches. -/
theorem relation_of_kindsOf {t : Nat} (h : (fromOperations operations).kindsOf t ≠ {}) :
    ∃ op ∈ operations, op.relation = some t := by
  by_contra hnone
  push Not at hnone
  have hid (kind : IdKind) (hschema : kind ≠ .droppedSchema) (hscalar : kind ≠ .droppedScalarMacro)
      (htable : kind ≠ .droppedTableMacro) : t ∉ (fromOperations operations).ids kind := by
    intro hmem
    obtain ⟨op, hop, hentry⟩ := (mem_ids_fromOperations kind).mp hmem
    exact hnone op hop (relation_of_idEntry hentry hschema hscalar htable)
  refine h ?_
  have hinserted := hid .insertedIntoTable nofun nofun nofun
  have hdeleted := hid .deletedFromTable nofun nofun nofun
  have haltered := hid .alteredTable nofun nofun nofun
  have hview := hid .alteredView nofun nofun nofun
  have hdropped := hid .droppedTable nofun nofun nofun
  have hdroppedView := hid .droppedView nofun nofun nofun
  have hmerged := hid .mergeAdjacent nofun nofun nofun
  have hrewritten := hid .rewriteDelete nofun nofun nofun
  have hcompacted := hid .compactedTable nofun nofun nofun
  simp only [ids] at hinserted hdeleted haltered hview hdropped hdroppedView hmerged hrewritten hcompacted
  simp [kindsOf, *]

/-- Commits that meet on a table both touch it. -/
theorem MeetOn.relation {t : Nat} (h : MeetOn (fromOperations ours) (fromOperations theirs) t) :
    (∃ op ∈ ours, op.relation = some t) ∧ ∃ op ∈ theirs, op.relation = some t := by
  constructor
  · refine relation_of_kindsOf fun hempty => ?_
    rcases h with hkinds | ⟨hdeleted, -, -⟩
    · rw [hempty, (not_kindsConflict_empty _).2] at hkinds
      cases hkinds
    · have hflag := congrArg TableKinds.deleted hempty
      simp [kindsOf, hdeleted] at hflag
  · refine relation_of_kindsOf fun hempty => ?_
    rcases h with hkinds | ⟨-, hdeleted, -⟩
    · rw [hempty, (not_kindsConflict_empty _).1] at hkinds
      cases hkinds
    · have hflag := congrArg TableKinds.deleted hempty
      simp [kindsOf, hdeleted] at hflag

end FromOperations

/-- Conflicts are symmetric; operations appended to either list keep a conflict; and two lists that touch no common
    table or view, of which at most one creates or drops schemas, conflict only if one creates an object in a schema
    that the other drops. -/
theorem conflicts_symmetric_and_monotone (ours theirs : List Operation) :
    (conflicts (fromOperations ours) (fromOperations theirs) = true ↔
      conflicts (fromOperations theirs) (fromOperations ours) = true) ∧
    (conflicts (fromOperations ours) (fromOperations theirs) = true → ∀ ourMore theirMore,
      conflicts (fromOperations (ours ++ ourMore)) (fromOperations (theirs ++ theirMore)) = true) ∧
    ((∀ op ∈ ours, ∀ op' ∈ theirs, ∀ t, op.relation = some t → op'.relation ≠ some t) →
      ¬ ((∃ op ∈ ours, op.changesSchemas = true) ∧ ∃ op ∈ theirs, op.changesSchemas = true) →
      conflicts (fromOperations ours) (fromOperations theirs) = true →
      CreatesInDropped ours theirs ∨ CreatesInDropped theirs ours) := by
  refine ⟨by rw [conflicts_comm], fun h ourMore theirMore => ?_, fun hdisjoint hschemas h => ?_⟩
  · exact conflicts_mono (List.subset_append_left ours ourMore) (List.subset_append_left theirs theirMore) h
  · rcases conflicts_fromOperations_iff.mp h with hboth | ⟨t, hmeet⟩ | hcreates
    · exact absurd hboth hschemas
    · obtain ⟨⟨op, hop, ht⟩, op', hop', ht'⟩ := hmeet.relation
      exact absurd ht' (hdisjoint op hop op' hop' t ht)
    · exact hcreates

/-- Two deletes from one file conflict, also after an insert into another table; and a table created in a schema that
    is dropped conflicts with the drop. -/
theorem conflicts_symmetric_and_monotone_deletes :
    conflicts (fromOperations ([.registerDeleteFile 1 10] ++ [.inlineInsert 2]))
      (fromOperations ([.registerDeleteFile 1 10] ++ [])) = true ∧
    (CreatesInDropped [.createTable 3 4 "s" "t"] [.dropSchema 3] ∨
      CreatesInDropped [.dropSchema 3] [.createTable 3 4 "s" "t"]) := by
  refine ⟨(conflicts_symmetric_and_monotone [.registerDeleteFile 1 10] [.registerDeleteFile 1 10]).2.1
    (by decide +kernel) [.inlineInsert 2] [], ?_⟩
  refine (conflicts_symmetric_and_monotone [.createTable 3 4 "s" "t"] [.dropSchema 3]).2.2 ?_ ?_ (by decide +kernel)
  · simp [Operation.relation]
  · simp [Operation.changesSchemas]

end ChangeSet

end Moraine
