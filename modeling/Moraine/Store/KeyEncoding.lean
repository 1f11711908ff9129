-- SUMMARY: The byte form of store keys: it decodes back, sorts like the fields, and its prefixes name their keys.
import Moraine.Store.IndexOrder

/-!
# Key encoding

A key is a tree of enums over numbers and byte strings. It is written as one discriminant byte per enum level, every
number as eight big-endian bytes and every byte string escaped and terminated, in field order. What may follow a field
is fixed by the discriminants before it, so two keys agree on the kind of a field up to the first field they differ
in, and the order of the bytes is the order of the fields.
-/

namespace Moraine

open OrderCode

/-! ## Keys -/

/-- Store-level singletons. -/
inductive SysKey where
  | format | head | migration
  deriving DecidableEq

/-- An inlined-data record, in live or archived form. -/
inductive InlineRecordKey where
  | insert (tableId schemaVersion beginSnapshot chunkSeq : Nat)
  | inlineDelete (tableId rowId : Nat)
  | fileDelete (tableId dataFileId rowId : Nat)
  deriving DecidableEq

inductive InlineKey where
  | schema (tableId schemaVersion : Nat)
  | live (record : InlineRecordKey)
  | arch (record : InlineRecordKey)
  | fileDeleteTable (tableId : Nat)
  deriving DecidableEq

/-- An index entry. A unique entry is keyed by its value alone, any other by the value and the row id. -/
inductive IndexKey where
  | unique (indexId : Nat) (key : CanonicalKey)
  | multi (indexId : Nat) (key : CanonicalKey) (rowId : Nat)
  deriving DecidableEq

/-- A store key. Each constructor is a subspace. -/
inductive Key where
  | sys (key : SysKey)
  | snapshot (snapshotId : Nat)
  | current (key : CurrentKey)
  | history (key : HistoryKey)
  | inline (key : InlineKey)
  | index (key : IndexKey)
  | schemaVersion (tableId beginSnapshot : Nat)
  | changelog (snapshotId : Nat)

/-- A field as it is written: which constructor of an enum, a `u64`, or a byte string. -/
inductive Field where
  | tag (index : Nat)
  | number (n : Nat)
  | text (bytes : List UInt8)
  deriving DecidableEq

/-- The discriminant byte of a constructor is its declaration index and two. -/
def Field.encode : Field → List UInt8
  | .tag index => [UInt8.ofNat (index + 2)]
  | .number n => beBytes n 8
  | .text bytes => frameBytes bytes

def EntityKey.fields : EntityKey → List Field
  | .schema s => [.tag 0, .number s]
  | .table t => [.tag 1, .number t]
  | .view v => [.tag 2, .number v]
  | .column t c => [.tag 3, .number t, .number c]
  | .partition t p => [.tag 4, .number t, .number p]
  | .file t f => [.tag 5, .number t, .number f]
  | .deleteFile t d => [.tag 6, .number t, .number d]
  | .fileColumnStats t f c => [.tag 7, .number t, .number f, .number c]
  | .tableStats t => [.tag 8, .number t]
  | .tableColumnStats t c => [.tag 9, .number t, .number c]
  | .tag o => [.tag 10, .number o]
  | .option k s => [.tag 11, .number k, .number s]
  | .sort t s => [.tag 12, .number t, .number s]
  | .macroDef m => [.tag 13, .number m]
  | .mapping t m => [.tag 14, .number t, .number m]
  | .index t i => [.tag 15, .number t, .number i]

def SysKey.fields : SysKey → List Field
  | .format => [.tag 0]
  | .head => [.tag 1]
  | .migration => [.tag 2]

def CurrentKey.fields : CurrentKey → List Field
  | .entity key => .tag 0 :: key.fields
  | .gcFile f => [.tag 1, .number f]

def InlineRecordKey.fields : InlineRecordKey → List Field
  | .insert t v b c => [.tag 0, .number t, .number v, .number b, .number c]
  | .inlineDelete t r => [.tag 1, .number t, .number r]
  | .fileDelete t f r => [.tag 2, .number t, .number f, .number r]

def InlineKey.fields : InlineKey → List Field
  | .schema t v => [.tag 0, .number t, .number v]
  | .live record => .tag 1 :: record.fields
  | .arch record => .tag 2 :: record.fields
  | .fileDeleteTable t => [.tag 3, .number t]

def IndexKey.fields : IndexKey → List Field
  | .unique i key => [.tag 0, .number i, .text key]
  | .multi i key r => [.tag 1, .number i, .text key, .number r]

namespace Key

/-- The fields of a key in the order they are written. -/
def fields : Key → List Field
  | .sys key => .tag 0 :: key.fields
  | .snapshot s => [.tag 1, .number s]
  | .current key => .tag 2 :: key.fields
  | .history key => .tag 3 :: (key.entity.fields ++ [.number key.endSnapshot])
  | .inline key => .tag 4 :: key.fields
  | .index key => .tag 5 :: key.fields
  | .schemaVersion t b => [.tag 6, .number t, .number b]
  | .changelog s => [.tag 7, .number s]

def encode (k : Key) : List UInt8 := k.fields.flatMap Field.encode

/-- The numbers of a key are `u64`s. -/
def Fits (k : Key) : Prop := ∀ n, .number n ∈ k.fields → n < 2 ^ 64

end Key

/-! ## Reading a key back -/

/-- A reader takes what it needs off the front of the bytes, or fails. -/
abbrev ByteReader := StateT (List UInt8) Option

/-- The constructor the discriminant byte stands for. -/
def readTag : ByteReader Nat
  | [] => none
  | b :: bs => if b < 2 then none else some (b.toNat - 2, bs)

/-- The number big-endian bytes hold. -/
def beValue (bs : List UInt8) : Nat := bs.foldl (fun n b => n * 256 + b.toNat) 0

def readU64 : ByteReader Nat := fun bs =>
  if bs.length < 8 then none else some (beValue (bs.take 8), bs.drop 8)

/-- A byte string up to its terminator, the byte after an escape taken as it is. -/
def readVec : ByteReader (List UInt8)
  | [] => none
  | 0x00 :: bs => some ([], bs)
  | 0x01 :: b :: bs => (readVec bs).map fun (v, rest) => (b :: v, rest)
  | 0x01 :: [] => none
  | b :: bs => (readVec bs).map fun (v, rest) => (b :: v, rest)

def readEntityKey : ByteReader EntityKey := do
  match ← readTag with
  | 0 => return .schema (← readU64)
  | 1 => return .table (← readU64)
  | 2 => return .view (← readU64)
  | 3 => return .column (← readU64) (← readU64)
  | 4 => return .partition (← readU64) (← readU64)
  | 5 => return .file (← readU64) (← readU64)
  | 6 => return .deleteFile (← readU64) (← readU64)
  | 7 => return .fileColumnStats (← readU64) (← readU64) (← readU64)
  | 8 => return .tableStats (← readU64)
  | 9 => return .tableColumnStats (← readU64) (← readU64)
  | 10 => return .tag (← readU64)
  | 11 => return .option (← readU64) (← readU64)
  | 12 => return .sort (← readU64) (← readU64)
  | 13 => return .macroDef (← readU64)
  | 14 => return .mapping (← readU64) (← readU64)
  | 15 => return .index (← readU64) (← readU64)
  | _ => failure

def readSysKey : ByteReader SysKey := do
  match ← readTag with
  | 0 => return .format
  | 1 => return .head
  | 2 => return .migration
  | _ => failure

def readCurrentKey : ByteReader CurrentKey := do
  match ← readTag with
  | 0 => return .entity (← readEntityKey)
  | 1 => return .gcFile (← readU64)
  | _ => failure

def readInlineRecordKey : ByteReader InlineRecordKey := do
  match ← readTag with
  | 0 => return .insert (← readU64) (← readU64) (← readU64) (← readU64)
  | 1 => return .inlineDelete (← readU64) (← readU64)
  | 2 => return .fileDelete (← readU64) (← readU64) (← readU64)
  | _ => failure

def readInlineKey : ByteReader InlineKey := do
  match ← readTag with
  | 0 => return .schema (← readU64) (← readU64)
  | 1 => return .live (← readInlineRecordKey)
  | 2 => return .arch (← readInlineRecordKey)
  | 3 => return .fileDeleteTable (← readU64)
  | _ => failure

def readIndexKey : ByteReader IndexKey := do
  match ← readTag with
  | 0 => return .unique (← readU64) (← readVec)
  | 1 => return .multi (← readU64) (← readVec) (← readU64)
  | _ => failure

def readKey : ByteReader Key := do
  match ← readTag with
  | 0 => return .sys (← readSysKey)
  | 1 => return .snapshot (← readU64)
  | 2 => return .current (← readCurrentKey)
  | 3 => return .history ⟨← readEntityKey, ← readU64⟩
  | 4 => return .inline (← readInlineKey)
  | 5 => return .index (← readIndexKey)
  | 6 => return .schemaVersion (← readU64) (← readU64)
  | 7 => return .changelog (← readU64)
  | _ => failure

/-- Decodes a key, or fails on an unknown discriminant, a missing field or bytes left over. -/
def Key.decode (bytes : List UInt8) : Option Key :=
  match readKey bytes with
  | some (k, []) => some k
  | _ => none

/-! ## Round trip -/

/-- The reader takes a value off the front of its bytes and leaves what follows. -/
def Reads {α : Type} (reader : ByteReader α) (a : α) (bytes : List UInt8) : Prop :=
  ∀ s, reader (bytes ++ s) = some (a, s)

namespace Reads

theorem pure {α : Type} (a : α) : Reads (Pure.pure a) a [] := fun _ => rfl

theorem bind {α β : Type} {reader : ByteReader α} {next : α → ByteReader β} {a : α} {b : β} {xs ys : List UInt8}
    (h : Reads reader a xs) (hnext : Reads (next a) b ys) : Reads (reader >>= next) b (xs ++ ys) := fun s => by
  change (reader (xs ++ ys ++ s)).bind _ = _
  rw [List.append_assoc, h]
  exact hnext s

theorem map {α β : Type} {reader : ByteReader α} {f : α → β} {a : α} {xs : List UInt8} (h : Reads reader a xs) :
    Reads (reader >>= fun a => Pure.pure (f a)) (f a) xs := fun s => by
  change (reader (xs ++ s)).bind _ = _
  rw [h]
  rfl

end Reads

theorem reads_tag {i : Nat} (h : i < 254) : Reads readTag i (Field.tag i).encode := fun s => by
  have hi : (UInt8.ofNat (i + 2)).toNat = i + 2 := by
    rw [UInt8.toNat_ofNat']
    omega
  have hlow : ¬ UInt8.ofNat (i + 2) < 2 := by
    rw [UInt8.lt_iff_toNat_lt, hi]
    simp
  change (if UInt8.ofNat (i + 2) < 2 then none else some ((UInt8.ofNat (i + 2)).toNat - 2, s)) = _
  rw [if_neg hlow, hi, Nat.add_sub_cancel]

theorem beValue_append (as bs : List UInt8) : beValue (as ++ bs) = beValue as * 256 ^ bs.length + beValue bs := by
  induction bs using List.reverseRecOn with
  | nil => simp [beValue]
  | append_singleton bs b ih =>
    have hsnoc : ∀ xs, beValue (xs ++ [b]) = beValue xs * 256 + b.toNat := fun xs => by simp [beValue]
    rw [← List.append_assoc, hsnoc, hsnoc, ih, List.length_append, List.length_singleton]
    ring

theorem beValue_beBytes (n w : Nat) : beValue (beBytes n w) = n % 256 ^ w := by
  induction w with
  | zero => simp [beBytes, beValue, Nat.mod_one]
  | succ w ih =>
    rw [beBytes, ← List.singleton_append, beValue_append, ih, length_beBytes, mod_pow_succ]
    simp [beValue]

theorem reads_number {n : Nat} (h : n < 2 ^ 64) : Reads readU64 n (Field.number n).encode := fun s => by
  have hlen : ¬ (beBytes n 8 ++ s).length < 8 := by simp
  rw [Field.encode, readU64, if_neg hlen, List.take_left' (length_beBytes n 8), List.drop_left' (length_beBytes n 8),
    beValue_beBytes, Nat.mod_eq_of_lt (by omega)]

theorem reads_text (bytes : List UInt8) : Reads readVec bytes (Field.text bytes).encode := fun s => by
  induction bytes with
  | nil => rfl
  | cons b bytes ih =>
    rw [Field.encode] at ih ⊢
    by_cases hb : b ≤ 1
    · have hframe : frameBytes (b :: bytes) ++ s = 0x01 :: b :: (frameBytes bytes ++ s) := by
        simp [frameBytes, hb]
      rw [hframe, readVec, ih]
      rfl
    · have hframe : frameBytes (b :: bytes) ++ s = b :: (frameBytes bytes ++ s) := by
        simp [frameBytes, hb]
      have hzero : b ≠ 0 := by rintro rfl; exact hb (by decide)
      have hone : b ≠ 1 := by rintro rfl; exact hb (by decide)
      rw [hframe, readVec, ih]
      · rfl
      · exact hzero
      · exact fun _ _ heq _ => hone heq
      · exact fun heq _ => hone heq

theorem reads_entityKey {k : EntityKey} (h : ∀ n, .number n ∈ k.fields → n < 2 ^ 64) :
    Reads readEntityKey k (k.fields.flatMap Field.encode) := by
  unfold readEntityKey
  cases k <;> simp only [EntityKey.fields, List.flatMap_cons, List.flatMap_nil] at h ⊢ <;>
    refine (reads_tag (by decide)).bind ?_ <;>
    (repeat refine (reads_number (h _ (by simp))).bind ?_) <;> exact .pure _

theorem reads_sysKey (k : SysKey) : Reads readSysKey k (k.fields.flatMap Field.encode) := by
  unfold readSysKey
  cases k <;> exact (reads_tag (by decide)).bind (.pure _)

theorem reads_currentKey {k : CurrentKey} (h : ∀ n, .number n ∈ k.fields → n < 2 ^ 64) :
    Reads readCurrentKey k (k.fields.flatMap Field.encode) := by
  unfold readCurrentKey
  cases k with
  | entity key =>
    have hkey := reads_entityKey fun n hn => h n (List.mem_cons_of_mem _ hn)
    exact (reads_tag (by decide)).bind hkey.map
  | gcFile file => exact (reads_tag (by decide)).bind (reads_number (h file (by simp [CurrentKey.fields]))).map

theorem reads_inlineRecordKey {k : InlineRecordKey} (h : ∀ n, .number n ∈ k.fields → n < 2 ^ 64) :
    Reads readInlineRecordKey k (k.fields.flatMap Field.encode) := by
  unfold readInlineRecordKey
  cases k <;> simp only [InlineRecordKey.fields, List.flatMap_cons, List.flatMap_nil] at h ⊢ <;>
    refine (reads_tag (by decide)).bind ?_ <;>
    (repeat refine (reads_number (h _ (by simp))).bind ?_) <;> exact .pure _

theorem reads_inlineKey {k : InlineKey} (h : ∀ n, .number n ∈ k.fields → n < 2 ^ 64) :
    Reads readInlineKey k (k.fields.flatMap Field.encode) := by
  unfold readInlineKey
  cases k with
  | schema t v =>
    simp only [InlineKey.fields, List.flatMap_cons, List.flatMap_nil] at h ⊢
    exact (reads_tag (by decide)).bind
      ((reads_number (h t (by simp))).bind ((reads_number (h v (by simp))).bind (.pure _)))
  | live record =>
    have hrecord := reads_inlineRecordKey fun n hn => h n (List.mem_cons_of_mem _ hn)
    exact (reads_tag (by decide)).bind hrecord.map
  | arch record =>
    have hrecord := reads_inlineRecordKey fun n hn => h n (List.mem_cons_of_mem _ hn)
    exact (reads_tag (by decide)).bind hrecord.map
  | fileDeleteTable t => exact (reads_tag (by decide)).bind (reads_number (h t (by simp [InlineKey.fields]))).map

theorem reads_indexKey {k : IndexKey} (h : ∀ n, .number n ∈ k.fields → n < 2 ^ 64) :
    Reads readIndexKey k (k.fields.flatMap Field.encode) := by
  unfold readIndexKey
  cases k with
  | unique i key =>
    simp only [IndexKey.fields, List.flatMap_cons, List.flatMap_nil] at h ⊢
    exact (reads_tag (by decide)).bind ((reads_number (h i (by simp))).bind ((reads_text key).bind (.pure _)))
  | multi i key row =>
    simp only [IndexKey.fields, List.flatMap_cons, List.flatMap_nil] at h ⊢
    exact (reads_tag (by decide)).bind ((reads_number (h i (by simp))).bind ((reads_text key).bind
      ((reads_number (h row (by simp))).bind (.pure _))))

/-- A key is read back from the front of its encoding, whatever follows. -/
theorem reads_key {k : Key} (h : k.Fits) : Reads readKey k k.encode := by
  unfold readKey Key.encode
  cases k with
  | sys key => exact (reads_tag (by decide)).bind (reads_sysKey key).map
  | snapshot s => exact (reads_tag (by decide)).bind (reads_number (h s (by simp [Key.fields]))).map
  | current key =>
    have hkey := reads_currentKey fun n hn => h n (List.mem_cons_of_mem _ hn)
    exact (reads_tag (by decide)).bind hkey.map
  | history key =>
    have hentity : Reads readEntityKey key.entity _ :=
      reads_entityKey fun n hn => h n (List.mem_cons_of_mem _ (List.mem_append_left _ hn))
    have hend := reads_number (h key.endSnapshot (by simp [Key.fields]))
    rw [Key.fields, List.flatMap_cons, List.flatMap_append, List.flatMap_cons, List.flatMap_nil]
    exact (reads_tag (by decide)).bind (hentity.bind (hend.bind (.pure _)))
  | inline key =>
    have hkey := reads_inlineKey fun n hn => h n (List.mem_cons_of_mem _ hn)
    exact (reads_tag (by decide)).bind hkey.map
  | index key =>
    have hkey := reads_indexKey fun n hn => h n (List.mem_cons_of_mem _ hn)
    exact (reads_tag (by decide)).bind hkey.map
  | schemaVersion t b =>
    simp only [Key.Fits, Key.fields, List.flatMap_cons, List.flatMap_nil] at h ⊢
    exact (reads_tag (by decide)).bind
      ((reads_number (h t (by simp))).bind ((reads_number (h b (by simp))).bind (.pure _)))
  | changelog s => exact (reads_tag (by decide)).bind (reads_number (h s (by simp [Key.fields]))).map

theorem Key.decode_encode {k : Key} (h : k.Fits) : decode k.encode = some k := by
  have := reads_key h []
  rw [List.append_nil] at this
  rw [decode, this]

/-- No encoding begins another. -/
theorem Key.eq_of_prefix_encode {k l : Key} (hk : k.Fits) (hl : l.Fits) (h : k.encode <+: l.encode) : k = l := by
  obtain ⟨s, hs⟩ := h
  have hread := reads_key hl []
  rw [List.append_nil, ← hs, reads_key hk s] at hread
  exact (Prod.mk.inj (Option.some.inj hread)).1

/-! ## Order -/

/-- Fields of one kind compare as what they hold. -/
def Field.compare : Field → Field → Ordering
  | .tag i, .tag j => Ord.compare i j
  | .number m, .number n => Ord.compare m n
  | .text a, .text b => Ord.compare a b
  | .tag _, _ | .number _, .text _ => .lt
  | _, _ => .gt

instance : Std.LawfulEqCmp Field.compare where
  compare_self {a} := by cases a <;> exact Std.compare_self
  eq_of_compare {a b} h := by
    cases a <;> cases b <;> simp only [Field.compare, Std.LawfulEqOrd.compare_eq_iff_eq, reduceCtorEq] at h <;> rw [h]

/-- What may follow: nothing, a number or a byte string and then more, or a discriminant that chooses. -/
inductive Layout where
  | stop
  | number (next : Layout)
  | text (next : Layout)
  | choice (branch : Nat → Layout)

/-- The fields are laid out so. -/
inductive Conforms : Layout → List Field → Prop
  | stop : Conforms .stop []
  | number {next : Layout} {n : Nat} {fs : List Field} (bound : n < 2 ^ 64) (rest : Conforms next fs) :
    Conforms (.number next) (.number n :: fs)
  | text {next : Layout} {bytes : List UInt8} {fs : List Field} (rest : Conforms next fs) :
    Conforms (.text next) (.text bytes :: fs)
  | choice {branch : Nat → Layout} {i : Nat} {fs : List Field} (bound : i < 254) (rest : Conforms (branch i) fs) :
    Conforms (.choice branch) (.tag i :: fs)

theorem decides_tag {i j : Nat} (hi : i < 254) (hj : j < 254) :
    Decides (compare i j) (Field.tag i).encode (Field.tag j).encode := by
  have hbyte : ∀ n < 254, (UInt8.ofNat (n + 2)).toNat = n + 2 := fun n hn => by
    rw [UInt8.toNat_ofNat']
    omega
  have hshift : compare (i + 2) (j + 2) = compare i j := by
    simp only [Nat.compare_eq_ite_lt, Nat.add_lt_add_iff_right]
  have := Decides.letter (UInt8.ofNat (i + 2)) (UInt8.ofNat (j + 2))
  rwa [UInt8.compare_eq_toNat_compare_toNat, hbyte i hi, hbyte j hj, hshift] at this

/-- Two lists of fields of one layout decide field by field: they are of one kind up to the first that differ. -/
theorem Conforms.coherent {layout : Layout} {fs gs : List Field} (hf : Conforms layout fs) (hg : Conforms layout gs) :
    Coherent Field.compare Field.encode fs gs := by
  induction hf generalizing gs with
  | stop =>
    cases hg
    exact .nil
  | number bound _ ih =>
    cases hg with
    | number bound' rest =>
      refine .cons (decides_beBytes_of_lt ?_ ?_) fun _ => ih rest <;> omega
  | text _ ih =>
    cases hg with
    | text rest => exact .cons (decides_frameBytes _ _) fun _ => ih rest
  | @choice branch i fs bound _ ih =>
    cases hg with
    | @choice _ j gs bound' rest =>
      refine .cons (decides_tag bound bound') fun heq => ih ?_
      obtain rfl : i = j := Nat.compare_eq_eq.mp heq
      exact rest

/-- `n` numbers and then more. -/
def Layout.numbers : Nat → Layout → Layout
  | 0, next => next
  | n + 1, next => .number (numbers n next)

def entityLayout (next : Layout) : Layout := .choice fun
  | 0 | 1 | 2 | 8 | 10 | 13 => .numbers 1 next
  | 7 => .numbers 3 next
  | _ => .numbers 2 next

def inlineRecordLayout : Layout := .choice fun
  | 0 => .numbers 4 .stop
  | 1 => .numbers 2 .stop
  | _ => .numbers 3 .stop

def keyLayout : Layout := .choice fun
  | 0 => .choice fun _ => .stop
  | 2 => .choice fun
    | 0 => entityLayout .stop
    | _ => .numbers 1 .stop
  | 3 => entityLayout (.number .stop)
  | 4 => .choice fun
    | 0 => .numbers 2 .stop
    | 3 => .numbers 1 .stop
    | _ => inlineRecordLayout
  | 5 => .choice fun
    | 0 => .number (.text .stop)
    | _ => .number (.text (.number .stop))
  | 6 => .numbers 2 .stop
  | _ => .numbers 1 .stop

theorem conforms_entityKey {k : EntityKey} {next : Layout} {fs : List Field}
    (h : ∀ n, .number n ∈ k.fields → n < 2 ^ 64) (hfs : Conforms next fs) :
    Conforms (entityLayout next) (k.fields ++ fs) := by
  cases k <;> refine .choice (by decide) ?_ <;>
    (repeat refine .number (h _ (by simp [EntityKey.fields])) ?_) <;> exact hfs

theorem conforms_inlineRecordKey {k : InlineRecordKey} (h : ∀ n, .number n ∈ k.fields → n < 2 ^ 64) :
    Conforms inlineRecordLayout k.fields := by
  cases k <;> refine .choice (by decide) ?_ <;>
    (repeat refine .number (h _ (by simp [InlineRecordKey.fields])) ?_) <;> exact .stop

/-- Every key is laid out as a key. -/
theorem Key.Fits.conforms {k : Key} (h : k.Fits) : Conforms keyLayout k.fields := by
  cases k with
  | sys key => cases key <;> exact .choice (by decide) (.choice (by decide) .stop)
  | snapshot s => exact .choice (by decide) (.number (h s (by simp [fields])) .stop)
  | current key =>
    refine .choice (by decide) ?_
    cases key with
    | entity key =>
      have := conforms_entityKey (k := key) (fun n hn => h n (by simp [fields, CurrentKey.fields, hn])) .stop
      rw [List.append_nil] at this
      exact .choice (by decide) this
    | gcFile f => exact .choice (by decide) (.number (h f (by simp [fields, CurrentKey.fields])) .stop)
  | history key =>
    have hend := h key.endSnapshot (by simp [fields])
    exact .choice (by decide) (conforms_entityKey (fun n hn => h n (by simp [fields, hn])) (.number hend .stop))
  | inline key =>
    refine .choice (by decide) ?_
    cases key with
    | schema t v =>
      exact .choice (by decide) (.number (h t (by simp [fields, InlineKey.fields]))
        (.number (h v (by simp [fields, InlineKey.fields])) .stop))
    | live record =>
      exact .choice (by decide) (conforms_inlineRecordKey fun n hn => h n (by simp [fields, InlineKey.fields, hn]))
    | arch record =>
      exact .choice (by decide) (conforms_inlineRecordKey fun n hn => h n (by simp [fields, InlineKey.fields, hn]))
    | fileDeleteTable t => exact .choice (by decide) (.number (h t (by simp [fields, InlineKey.fields])) .stop)
  | index key =>
    refine .choice (by decide) ?_
    cases key with
    | unique i key => exact .choice (by decide) (.number (h i (by simp [fields, IndexKey.fields])) (.text .stop))
    | multi i key r =>
      exact .choice (by decide) (.number (h i (by simp [fields, IndexKey.fields]))
        (.text (.number (h r (by simp [fields, IndexKey.fields])) .stop)))
  | schemaVersion t b =>
    exact .choice (by decide) (.number (h t (by simp [fields])) (.number (h b (by simp [fields])) .stop))
  | changelog s => exact .choice (by decide) (.number (h s (by simp [fields])) .stop)

/-- The order of the encodings is the lexicographic order of the fields. -/
theorem Key.compare_encode {k l : Key} (hk : k.Fits) (hl : l.Fits) :
    compare k.encode l.encode = List.compareLex Field.compare k.fields l.fields :=
  (hk.conforms.coherent hl.conforms).decides.compare_eq

/-- The bytes of the first `n` fields of a key begin exactly the keys that have the same first fields. -/
theorem Key.prefix_iff {sample k : Key} (hs : sample.Fits) (hk : k.Fits) (n : Nat) :
    (sample.fields.take n).flatMap Field.encode <+: k.encode ↔ sample.fields.take n = k.fields.take n := by
  rw [Key.encode, (hs.conforms.coherent hk.conforms).prefix_iff, Std.LawfulEqCmp.compare_eq_iff_eq]

/-! ## Prefixes -/

def TAG_PREFIX_LEN : Nat := 1

/-- Discriminants before an entity's components in a live key. -/
def CUR_KIND_PREFIX_LEN : Nat := 3

/-- Discriminants before a live inline record's components. -/
def INLINE_LIVE_KIND_PREFIX_LEN : Nat := 3

def INLINE_SCHEMA_PREFIX_LEN : Nat := 2

def INDEX_KIND_PREFIX_LEN : Nat := 2

/-- Bytes before an index entry's value. -/
def INDEX_ENTRY_PREFIX_LEN : Nat := INDEX_KIND_PREFIX_LEN + 8

inductive Subspace where
  | system | snapshot | current | history | inline | index | schemaVersion | changelog
  deriving DecidableEq

/-- A key of the subspace. -/
def Subspace.sample : Subspace → Key
  | .system => .sys .format
  | .snapshot => .snapshot 0
  | .current => .current (.entity (.schema 0))
  | .history => .history ⟨.schema 0, 0⟩
  | .inline => .inline (.schema 0 0)
  | .index => .index (.unique 0 [])
  | .schemaVersion => .schemaVersion 0 0
  | .changelog => .changelog 0

/-- The kinds whose live keys start with a table id. -/
inductive TableScopedKind where
  | column | partition | file | deleteFile | fileColumnStats | tableStats | tableColumnStats | sort | mapping | index
  deriving DecidableEq

def TableScopedKind.sample (kind : TableScopedKind) (tableId : Nat) : EntityKey :=
  match kind with
  | .column => .column tableId 0
  | .partition => .partition tableId 0
  | .file => .file tableId 0
  | .deleteFile => .deleteFile tableId 0
  | .fileColumnStats => .fileColumnStats tableId 0 0
  | .tableStats => .tableStats tableId
  | .tableColumnStats => .tableColumnStats tableId 0
  | .sort => .sort tableId 0
  | .mapping => .mapping tableId 0
  | .index => .index tableId 0

inductive InlineOperationKind where
  | insert | inlineDelete | fileDelete
  deriving DecidableEq

def InlineOperationKind.sample (kind : InlineOperationKind) (tableId : Nat) : InlineRecordKey :=
  match kind with
  | .insert => .insert tableId 0 0 0
  | .inlineDelete => .inlineDelete tableId 0
  | .fileDelete => .fileDelete tableId 0 0

inductive IndexKind where
  | unique | multi
  deriving DecidableEq

def IndexKind.sample (kind : IndexKind) (indexId : Nat) : IndexKey :=
  match kind with
  | .unique => .unique indexId []
  | .multi => .multi indexId [] 0

/-- The first `len` bytes of a key. -/
def prefixOf (key : Key) (len : Nat) : List UInt8 := key.encode.take len

def subspacePrefix (subspace : Subspace) : List UInt8 := prefixOf subspace.sample TAG_PREFIX_LEN

def currentTablePrefix (kind : TableScopedKind) (tableId : Nat) : List UInt8 :=
  prefixOf (.current (.entity (kind.sample tableId))) (CUR_KIND_PREFIX_LEN + 8)

def inlineLiveTablePrefix (kind : InlineOperationKind) (tableId : Nat) : List UInt8 :=
  prefixOf (.inline (.live (kind.sample tableId))) (INLINE_LIVE_KIND_PREFIX_LEN + 8)

def inlineSchemaTablePrefix (tableId : Nat) : List UInt8 :=
  prefixOf (.inline (.schema tableId 0)) (INLINE_SCHEMA_PREFIX_LEN + 8)

def inlineSchemaPrefix : List UInt8 := prefixOf (.inline (.schema 0 0)) INLINE_SCHEMA_PREFIX_LEN

def indexKindPrefix (kind : IndexKind) : List UInt8 := prefixOf (.index (kind.sample 0)) INDEX_KIND_PREFIX_LEN

def indexIndexPrefix (kind : IndexKind) (indexId : Nat) : List UInt8 :=
  prefixOf (.index (kind.sample indexId)) INDEX_ENTRY_PREFIX_LEN

/-- A non-unique entry without its row id. -/
def indexMultiValuePrefix (indexId : Nat) (value : CanonicalKey) : List UInt8 :=
  let bytes := Key.encode (.index (.multi indexId value 0))
  bytes.take (bytes.length - 8)

/-- The first `len` bytes of a key are those of its first fields. -/
theorem prefixOf_eq {key : Key} {len : Nat} (n : Nat) (h : ((key.fields.take n).flatMap Field.encode).length = len) :
    prefixOf key len = (key.fields.take n).flatMap Field.encode := by
  have hsplit : key.encode = (key.fields.take n).flatMap Field.encode ++ (key.fields.drop n).flatMap Field.encode := by
    rw [Key.encode, ← List.flatMap_append, List.take_append_drop]
  rw [prefixOf, hsplit, List.take_left' h]

/-- The subspace a key is in. -/
def Key.subspace : Key → Subspace
  | .sys _ => .system
  | .snapshot _ => .snapshot
  | .current _ => .current
  | .history _ => .history
  | .inline _ => .inline
  | .index _ => .index
  | .schemaVersion .. => .schemaVersion
  | .changelog _ => .changelog

/-- The kind and the table of a live key that starts with a table id. -/
def EntityKey.tableScope : EntityKey → Option (TableScopedKind × Nat)
  | .column t _ => some (.column, t)
  | .partition t _ => some (.partition, t)
  | .file t _ => some (.file, t)
  | .deleteFile t _ => some (.deleteFile, t)
  | .fileColumnStats t _ _ => some (.fileColumnStats, t)
  | .tableStats t => some (.tableStats, t)
  | .tableColumnStats t _ => some (.tableColumnStats, t)
  | .sort t _ => some (.sort, t)
  | .mapping t _ => some (.mapping, t)
  | .index t _ => some (.index, t)
  | .schema _ | .table _ | .view _ | .tag _ | .option .. | .macroDef _ => none

def InlineRecordKey.kind : InlineRecordKey → InlineOperationKind
  | .insert .. => .insert
  | .inlineDelete .. => .inlineDelete
  | .fileDelete .. => .fileDelete

def InlineRecordKey.tableId : InlineRecordKey → Nat
  | .insert t .. | .inlineDelete t _ | .fileDelete t .. => t

def IndexKey.kind : IndexKey → IndexKind
  | .unique .. => .unique
  | .multi .. => .multi

def IndexKey.indexId : IndexKey → Nat
  | .unique i _ | .multi i .. => i

section Names

variable {k : Key} (hk : k.Fits)

include hk

theorem subspacePrefix_iff (subspace : Subspace) : subspacePrefix subspace <+: k.encode ↔ k.subspace = subspace := by
  have hs : subspace.sample.Fits := by
    cases subspace <;> simp [Key.Fits, Subspace.sample, Key.fields, SysKey.fields, CurrentKey.fields, EntityKey.fields,
      InlineKey.fields, IndexKey.fields]
  rw [subspacePrefix, prefixOf_eq 1 (by cases subspace <;> rfl), Key.prefix_iff hs hk]
  cases subspace <;> cases k <;> simp [Subspace.sample, Key.fields, Key.subspace]

theorem currentTablePrefix_iff (kind : TableScopedKind) {tableId : Nat} (h : tableId < 2 ^ 64) :
    currentTablePrefix kind tableId <+: k.encode ↔
      ∃ entity, k = .current (.entity entity) ∧ entity.tableScope = some (kind, tableId) := by
  have hs : Key.Fits (.current (.entity (kind.sample tableId))) := by
    cases kind <;> simpa [Key.Fits, Key.fields, CurrentKey.fields, EntityKey.fields, TableScopedKind.sample] using h
  rw [currentTablePrefix, prefixOf_eq 4 (by cases kind <;> rfl), Key.prefix_iff hs hk]
  rcases k with _ | _ | (entity | _) | _ | _ | _ | _ | _ <;>
    try simp [Key.fields, CurrentKey.fields]
  cases kind <;> cases entity <;>
    simp [TableScopedKind.sample, EntityKey.fields, EntityKey.tableScope, eq_comm]

theorem inlineLiveTablePrefix_iff (kind : InlineOperationKind) {tableId : Nat} (h : tableId < 2 ^ 64) :
    inlineLiveTablePrefix kind tableId <+: k.encode ↔
      ∃ record, k = .inline (.live record) ∧ record.kind = kind ∧ record.tableId = tableId := by
  have hs : Key.Fits (.inline (.live (kind.sample tableId))) := by
    cases kind <;>
      simpa [Key.Fits, Key.fields, InlineKey.fields, InlineRecordKey.fields, InlineOperationKind.sample] using h
  rw [inlineLiveTablePrefix, prefixOf_eq 4 (by cases kind <;> rfl), Key.prefix_iff hs hk]
  rcases k with _ | _ | _ | _ | (_ | record | _ | _) | _ | _ | _ <;>
    try simp [Key.fields, InlineKey.fields]
  cases kind <;> cases record <;>
    simp [InlineOperationKind.sample, InlineRecordKey.fields, InlineRecordKey.kind, InlineRecordKey.tableId, eq_comm]

theorem inlineSchemaTablePrefix_iff {tableId : Nat} (h : tableId < 2 ^ 64) :
    inlineSchemaTablePrefix tableId <+: k.encode ↔ ∃ version, k = .inline (.schema tableId version) := by
  have hs : Key.Fits (.inline (.schema tableId 0)) := by simpa [Key.Fits, Key.fields, InlineKey.fields] using h
  rw [inlineSchemaTablePrefix, prefixOf_eq 3 (by rfl), Key.prefix_iff hs hk]
  rcases k with _ | _ | _ | _ | (_ | _ | _ | _) | _ | _ | _ <;> simp [Key.fields, InlineKey.fields, eq_comm]

theorem inlineSchemaPrefix_iff : inlineSchemaPrefix <+: k.encode ↔ ∃ t v, k = .inline (.schema t v) := by
  have hs : Key.Fits (.inline (.schema 0 0)) := by simp [Key.Fits, Key.fields, InlineKey.fields]
  rw [inlineSchemaPrefix, prefixOf_eq 2 (by rfl), Key.prefix_iff hs hk]
  rcases k with _ | _ | _ | _ | (_ | _ | _ | _) | _ | _ | _ <;> simp [Key.fields, InlineKey.fields]

theorem indexKindPrefix_iff (kind : IndexKind) :
    indexKindPrefix kind <+: k.encode ↔ ∃ key, k = .index key ∧ key.kind = kind := by
  have hs : Key.Fits (.index (kind.sample 0)) := by
    cases kind <;> simp [Key.Fits, Key.fields, IndexKey.fields, IndexKind.sample]
  rw [indexKindPrefix, prefixOf_eq 2 (by cases kind <;> rfl), Key.prefix_iff hs hk]
  rcases k with _ | _ | _ | _ | _ | (_ | _) | _ | _ <;> cases kind <;>
    simp [Key.fields, IndexKey.fields, IndexKind.sample, IndexKey.kind]

theorem indexIndexPrefix_iff (kind : IndexKind) {indexId : Nat} (h : indexId < 2 ^ 64) :
    indexIndexPrefix kind indexId <+: k.encode ↔ ∃ key, k = .index key ∧ key.kind = kind ∧ key.indexId = indexId := by
  have hs : Key.Fits (.index (kind.sample indexId)) := by
    cases kind <;> simpa [Key.Fits, Key.fields, IndexKey.fields, IndexKind.sample] using h
  rw [indexIndexPrefix, prefixOf_eq 3 (by cases kind <;> rfl), Key.prefix_iff hs hk]
  rcases k with _ | _ | _ | _ | _ | (_ | _) | _ | _ <;> cases kind <;>
    simp [Key.fields, IndexKey.fields, IndexKind.sample, IndexKey.kind, IndexKey.indexId, eq_comm]

theorem indexMultiValuePrefix_iff {indexId : Nat} (h : indexId < 2 ^ 64) (value : CanonicalKey) :
    indexMultiValuePrefix indexId value <+: k.encode ↔ ∃ row, k = .index (.multi indexId value row) := by
  have hs : Key.Fits (.index (.multi indexId value 0)) := by simpa [Key.Fits, Key.fields, IndexKey.fields] using h
  have hcut : indexMultiValuePrefix indexId value = prefixOf (.index (.multi indexId value 0))
      ((Key.encode (.index (.multi indexId value 0))).length - 8) := rfl
  have hlen : (((Key.index (.multi indexId value 0)).fields.take 4).flatMap Field.encode).length =
      (Key.encode (.index (.multi indexId value 0))).length - 8 := by
    simp [Key.encode, Key.fields, IndexKey.fields, Field.encode]
    omega
  rw [hcut, prefixOf_eq 4 hlen, Key.prefix_iff hs hk]
  rcases k with _ | _ | _ | _ | _ | (_ | ⟨i, v, _⟩) | _ | _ <;> simp [Key.fields, IndexKey.fields]
  rw [eq_comm (a := indexId), eq_comm (a := value)]

end Names

/-- Store keys round trip, sort and partition: a key decodes from its encoding, no encoding is or begins another key's,
    encodings sort as the fields do, and each prefix begins exactly the encodings of the keys it is built for. -/
theorem keys_round_trip_sort_and_partition (k l : Key) (hk : k.Fits) (hl : l.Fits) :
    Key.decode k.encode = some k ∧
    (k ≠ l → k.encode ≠ l.encode ∧ ¬ k.encode <+: l.encode) ∧
    compare k.encode l.encode = List.compareLex Field.compare k.fields l.fields ∧
    (∀ subspace, subspacePrefix subspace <+: k.encode ↔ k.subspace = subspace) ∧
    (∀ kind, ∀ table < 2 ^ 64, currentTablePrefix kind table <+: k.encode ↔
      ∃ entity, k = .current (.entity entity) ∧ entity.tableScope = some (kind, table)) ∧
    (∀ kind, ∀ table < 2 ^ 64, inlineLiveTablePrefix kind table <+: k.encode ↔
      ∃ record, k = .inline (.live record) ∧ record.kind = kind ∧ record.tableId = table) ∧
    (∀ table < 2 ^ 64, inlineSchemaTablePrefix table <+: k.encode ↔ ∃ version, k = .inline (.schema table version)) ∧
    (inlineSchemaPrefix <+: k.encode ↔ ∃ table version, k = .inline (.schema table version)) ∧
    (∀ kind, indexKindPrefix kind <+: k.encode ↔ ∃ key, k = .index key ∧ key.kind = kind) ∧
    (∀ kind, ∀ index < 2 ^ 64, indexIndexPrefix kind index <+: k.encode ↔
      ∃ key, k = .index key ∧ key.kind = kind ∧ key.indexId = index) ∧
    ∀ index < 2 ^ 64, ∀ value, indexMultiValuePrefix index value <+: k.encode ↔
      ∃ row, k = .index (.multi index value row) := by
  refine ⟨Key.decode_encode hk, fun hne => ⟨fun heq => hne ?_, fun hpre => hne (Key.eq_of_prefix_encode hk hl hpre)⟩,
    Key.compare_encode hk hl, subspacePrefix_iff hk, fun kind _ h => currentTablePrefix_iff hk kind h,
    fun kind _ h => inlineLiveTablePrefix_iff hk kind h, fun _ h => inlineSchemaTablePrefix_iff hk h,
    inlineSchemaPrefix_iff hk, indexKindPrefix_iff hk, fun kind _ h => indexIndexPrefix_iff hk kind h,
    fun _ h value => indexMultiValuePrefix_iff hk h value⟩
  exact Key.eq_of_prefix_encode hk hl (heq ▸ List.prefix_rfl)

/-- A row id that starts with the escape byte, after a value that ends with the terminator's byte, is read back. -/
theorem escaped_row_id_round_trips :
    Key.decode (Key.encode (.index (.multi 1 [0x00] (2 ^ 56)))) = some (.index (.multi 1 [0x00] (2 ^ 56))) :=
  (keys_round_trip_sort_and_partition (.index (.multi 1 [0x00] (2 ^ 56))) (.sys .head)
    (by simp [Key.Fits, Key.fields, IndexKey.fields]) (by simp [Key.Fits, Key.fields, SysKey.fields])).1

end Moraine
