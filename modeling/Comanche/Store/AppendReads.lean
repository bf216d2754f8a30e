import Comanche.Store.AppendStore
import Mathlib.Data.List.Nodup

/-!
# Reads of the append store

An object is read by its key, by the number of its row, or through an iterator.
-/

namespace Comanche.Store.Append

open Lib Lib.SqlText

structure IoBuffer where
  size : Nat
  bytes : Memory
  lt : size < 2 ^ 64

inductive ReadResult where
  | ok (bytes : Memory)
  | insufficientSpace
  | throws
  | aborts
  | overrun
  | done

structure Record where
  lba : Nat
  len : Nat
  row : Nat
  deriving DecidableEq

structure Iterator where
  records : List Record
  currentIdx : Nat
  deriving DecidableEq

inductive SplitResult where
  | parts (iterators : List Iterator)
  | throws
  | hangs

/-- The test of `get`: `get_size(iob) - offset` is computed without sign. -/
def TooSmall (size offset need : Nat) : Prop := (size + 2 ^ 64 - offset) % 2 ^ 64 < need % 2 ^ 64

instance (size offset need : Nat) : Decidable (TooSmall size offset need) := inferInstanceAs (Decidable (_ < _))

def distribute (ways : Nat) : List Record → Nat → List (List Record) → List (List Record)
  | [], _, iv => iv
  | r :: rs, j, iv => distribute ways rs (j + 1) (iv.modify (j % ways) (· ++ [r]))

def splitIterator (it : Iterator) (ways : Nat) : SplitResult :=
  if ways < 2 then .throws
  else if 2 ^ 32 ≤ ways ∨ 2 ^ 32 ≤ it.records.length then .hangs
  else .parts ((distribute ways it.records 0 (List.replicate ways [])).map (⟨·, 0⟩))

namespace AppendStore

def read (s : AppendStore) (iob : IoBuffer) (offset lba count : Nat) : ReadResult :=
  if offset + count * s.vol.blockSize ≤ iob.size then
    .ok (iob.bytes.blit offset s.disk (lba * s.vol.blockSize) (count * s.vol.blockSize))
  else .overrun

/-- The common end of both `get` functions. The columns of a row that is not there read as 0. -/
def deliver (s : AppendStore) (iob : IoBuffer) (offset : Nat) (row : Option Row) : ReadResult :=
  let dataLba := (row.map Row.lba).getD 0
  let dataLen := (row.map Row.nBlocks).getD 0
  if TooSmall iob.size offset (dataLen * s.vol.blockSize) then .insufficientSpace
  else if dataLen = 0 then .aborts
  else s.read iob offset dataLba dataLen

def rowAt (s : AppendStore) (rowid : Nat) : Option Row := if rowid = 0 then none else s.rows[rowid - 1]?

def getRow (s : AppendStore) (rowid : Nat) (iob : IoBuffer) (offset : Nat) : ReadResult :=
  if offset % s.vol.blockSize ≠ 0 then .throws else s.deliver iob offset (s.rowAt rowid)

def getKey (s : AppendStore) (key : List Char) (iob : IoBuffer) (offset : Nat) : ReadResult :=
  if offset % s.vol.blockSize ≠ 0 then .throws else s.deliver iob offset (selected s.rows (selectText key))

def openIterator (s : AppendStore) (condition : Nat → Row → Bool) : Iterator :=
  ⟨(s.rows.zipIdx.filter fun (r, j) => condition (j + 1) r).map fun (r, j) => ⟨r.lba, r.nBlocks, j⟩, 0⟩

/-- `iterator_get`, into a buffer of the caller or one of the size of the record. -/
def iteratorGet (s : AppendStore) (it : Iterator) (iob : IoBuffer) (offset : Nat) : ReadResult × Iterator :=
  match it.records[it.currentIdx]? with
  | none => (.done, it)
  | some record =>
    if iob.size < record.len then (.throws, it)
    else
      match s.read iob offset record.lba record.len with
      | .ok bytes => (.ok bytes, { it with currentIdx := it.currentIdx + 1 })
      | result => (result, it)

end AppendStore

/-- Data that is put: the io memory that holds it. It is in memory, and so smaller than `2 ^ 63` bytes. -/
structure Data where
  len : Nat
  iob : Memory
  pos : 0 < len
  lt : len < 2 ^ 63

def Data.bytes (d : Data) : Bytes := d.iob.slice 0 d.len

def Data.payload (d : Data) : Payload := ⟨d.len, some d.iob, d.pos, d.lt.trans (by decide)⟩

structure Put where
  key : List Char
  bytes : Bytes

structure State where
  store : AppendStore
  puts : List Put
  iterators : List Iterator

inductive Call where
  | put (key metadata : List Char) (data : Data)
  | getKey (key : List Char) (iob : IoBuffer) (offset : Nat)
  | getRow (rowid : Nat) (iob : IoBuffer) (offset : Nat)
  | openIterator (condition : Nat → Row → Bool)
  | iteratorGet (i : Nat) (iob : IoBuffer) (offset : Nat)
  | splitIterator (i ways : Nat)
  | resetIterator (i : Nat)

namespace State

def format (vol : Volume) (disk : Memory) : State := ⟨.format vol disk, [], []⟩

def record (s : State) (p : Put) : PutResult × AppendStore → State
  | (.ok, store) => { s with store, puts := s.puts ++ [p] }
  | (.throws, store) => { s with store }

def step (s : State) : Call → Option State
  | .put key metadata data => some (s.record ⟨key, data.bytes⟩ (s.store.put key metadata data.payload))
  | .getKey _ _ _ | .getRow _ _ _ => some s
  | .openIterator condition => some { s with iterators := s.iterators ++ [s.store.openIterator condition] }
  | .iteratorGet i iob offset =>
    match s.iterators[i]? with
    | none => some s
    | some it => some { s with iterators := s.iterators.set i (s.store.iteratorGet it iob offset).2 }
  | .splitIterator i ways =>
    match s.iterators[i]? with
    | none => some s
    | some it =>
      match Append.splitIterator it ways with
      | .parts parts => some { s with iterators := s.iterators.eraseIdx i ++ parts }
      | .throws => some s
      | .hangs => none
  | .resetIterator i =>
    match s.iterators[i]? with
    | none => some s
    | some it => some { s with iterators := s.iterators.set i { it with currentIdx := 0 } }

end State

def ReadResult.Refused : ReadResult → Prop
  | .insufficientSpace | .throws => True
  | _ => False

instance : DecidablePred ReadResult.Refused
  | .insufficientSpace | .throws => isTrue trivial
  | .ok _ | .aborts | .overrun | .done => isFalse id

def ReadResult.Delivers (res : ReadResult) (offset : Nat) (bytes : Bytes) : Prop :=
  ∃ m, res = .ok m ∧ m.slice offset bytes.length = bytes

def IoBuffer.Room (iob : IoBuffer) (vol : Volume) (offset len : Nat) : Prop :=
  offset + vol.blocksFor len * vol.blockSize ≤ iob.size

instance (iob : IoBuffer) (vol : Volume) (offset len : Nat) : Decidable (iob.Room vol offset len) :=
  inferInstanceAs (Decidable (_ ≤ _))

def State.Reads (s : State) (res : ReadResult) (iob : IoBuffer) (offset : Nat) (p : Put) : Prop :=
  (iob.Room s.store.vol offset p.bytes.length → res.Delivers offset p.bytes) ∧
    (¬ iob.Room s.store.vol offset p.bytes.length → res.Refused)

def State.Holds (s : State) : Call → Prop
  | .put _ _ _ | .openIterator _ | .resetIterator _ => True
  | .getKey key iob offset => offset % s.store.vol.blockSize = 0 →
      (∀ p ∈ s.puts, p.key = key → s.Reads (s.store.getKey key iob offset) iob offset p) ∧
        ((∀ p ∈ s.puts, p.key ≠ key) → (s.store.getKey key iob offset).Refused)
  | .getRow rowid iob offset => offset % s.store.vol.blockSize = 0 →
      (∀ p, 0 < rowid → s.puts[rowid - 1]? = some p → s.Reads (s.store.getRow rowid iob offset) iob offset p) ∧
        (rowid = 0 ∨ s.puts.length < rowid → (s.store.getRow rowid iob offset).Refused)
  | .iteratorGet i iob offset => offset % s.store.vol.blockSize = 0 → ∀ it ∈ s.iterators[i]?,
      ∀ record ∈ it.records[it.currentIdx]?, ∀ p ∈ s.puts[record.row]?,
        s.Reads (s.store.iteratorGet it iob offset).1 iob offset p
  | .splitIterator i ways => 2 ≤ ways → ∀ it ∈ s.iterators[i]?, ∃ parts,
      Append.splitIterator it ways = .parts parts ∧ (parts.flatMap Iterator.records).Perm it.records ∧
        ∀ part ∈ parts, part.currentIdx = 0

/-- Quotes in strings put are written twice. Objects read by key and row exist, with an offset in the buffer; the buffer
of `iterator_get` has fewer bytes than the record has blocks, or room for them; indices split are below `2 ^ 32`. -/
def State.Sound (s : State) : Call → Prop
  | .put key metadata _ => (∃ id, key = escape id) ∧ ∃ m, metadata = escape m
  | .getKey key iob offset => (∃ p ∈ s.puts, p.key = key) ∧ offset ≤ iob.size
  | .getRow rowid iob offset => 0 < rowid ∧ rowid ≤ s.puts.length ∧ offset ≤ iob.size
  | .openIterator _ | .resetIterator _ => True
  | .iteratorGet i iob offset => ∀ it ∈ s.iterators[i]?, ∀ record ∈ it.records[it.currentIdx]?,
      iob.size < record.len ∨ offset + record.len * s.store.vol.blockSize ≤ iob.size
  | .splitIterator i ways => ways < 2 ^ 32 ∧ ∀ it ∈ s.iterators[i]?, it.records.length < 2 ^ 32

structure Row.Stores (r : Row) (s : AppendStore) (p : Put) : Prop where
  key : p.key = escape r.id
  pos : 0 < p.bytes.length
  lt : p.bytes.length < 2 ^ 63
  blocks : r.nBlocks = s.vol.blocksFor p.bytes.length
  bytes : s.disk.slice (r.lba * s.vol.blockSize) p.bytes.length = p.bytes
  before : r.lba + r.nBlocks ≤ s.header.nextFreeLba

def Iterator.Of (it : Iterator) (rows : List Row) : Prop :=
  ∀ record ∈ it.records, ∃ r, rows[record.row]? = some r ∧ r.lba = record.lba ∧ r.nBlocks = record.len

structure ReadInv (s : State) : Prop where
  header : s.store.header.Fits s.store.vol
  length : s.store.rows.length = s.puts.length
  ids : (s.store.rows.map Row.id).Nodup
  rows : ∀ (j : Nat) (r : Row) (p : Put), s.store.rows[j]? = some r → s.puts[j]? = some p → r.Stores s.store p
  iterators : ∀ it ∈ s.iterators, it.Of s.store.rows

section Reads

variable {s : State} {vol : Volume} {store : AppendStore} {r : Row} {p : Put} {iob : IoBuffer} {offset len : Nat}
  {it : Iterator} {rows : List Row}

theorem Volume.le_blocksFor (hlen : len < 2 ^ 63) : len ≤ vol.blocksFor len * vol.blockSize := by
  have hpos := vol.blockSize_pos
  have hsum : (len + vol.blockSize - 1) % 2 ^ 64 = len + vol.blockSize - 1 := by
    obtain h | h := vol.block.1 <;> omega
  have hmod := Nat.mod_lt (len + vol.blockSize - 1) hpos
  have hdiv := Nat.div_add_mod' (len + vol.blockSize - 1) vol.blockSize
  unfold Volume.blocksFor
  rw [hsum]
  omega

theorem Row.Stores.blocks_pos (h : r.Stores store p) : 0 < r.nBlocks := by
  have hle := store.vol.le_blocksFor h.lt
  rw [← h.blocks] at hle
  have hpos := h.pos
  by_contra hzero
  rw [Nat.eq_zero_of_not_pos hzero, Nat.zero_mul] at hle
  omega

theorem tooSmall_iff {size need : Nat} (hsize : size < 2 ^ 64) (hneed : need < 2 ^ 64) (hoffset : offset ≤ size) :
    TooSmall size offset need ↔ ¬ offset + need ≤ size := by
  unfold TooSmall
  omega

theorem Row.Stores.need_lt (h : r.Stores store p) (hfits : store.header.Fits store.vol) :
    r.nBlocks * store.vol.blockSize < 2 ^ 64 := by
  have hbefore := h.before
  have hle := hfits.le
  exact (Nat.mul_le_mul_right _ (by omega)).trans_lt store.vol.lt

theorem Row.Stores.read (h : r.Stores store p) (hroom : iob.Room store.vol offset p.bytes.length) :
    (store.read iob offset r.lba r.nBlocks).Delivers offset p.bytes := by
  have hle := store.vol.le_blocksFor h.lt
  unfold IoBuffer.Room at hroom
  unfold AppendStore.read
  rw [h.blocks, if_pos hroom]
  refine ⟨_, rfl, ?_⟩
  have hin : 0 + p.bytes.length ≤ store.vol.blocksFor p.bytes.length * store.vol.blockSize := by omega
  exact (Memory.slice_blit hin).trans h.bytes

theorem Row.Stores.deliver (h : r.Stores s.store p) (hfits : s.store.header.Fits s.store.vol)
    (hoffset : offset ≤ iob.size) : s.Reads (s.store.deliver iob offset (some r)) iob offset p := by
  have hsmall := tooSmall_iff iob.lt (h.need_lt hfits) hoffset
  have hroom : iob.Room s.store.vol offset p.bytes.length ↔ offset + r.nBlocks * s.store.vol.blockSize ≤ iob.size := by
    unfold IoBuffer.Room
    rw [h.blocks]
  unfold AppendStore.deliver
  simp only [Option.map_some, Option.getD_some]
  refine ⟨fun hyes => ?_, fun hno => ?_⟩
  · rw [if_neg (fun hlt => hsmall.mp hlt (hroom.mp hyes)), if_neg (Nat.ne_of_gt h.blocks_pos)]
    exact h.read hyes
  · rw [if_pos (hsmall.mpr fun hle => hno (hroom.mpr hle))]
    trivial

theorem Iterator.Of.append (h : it.Of rows) (r : Row) : it.Of (rows ++ [r]) := by
  intro record hrecord
  obtain ⟨r', hr', hlba, hlen⟩ := h record hrecord
  refine ⟨r', ?_, hlba, hlen⟩
  rw [List.getElem?_append_left (List.getElem?_eq_some_iff.mp hr').1, hr']

theorem Row.Stores.later (h : r.Stores store p) {header : Header} {iob : Memory} {k : Nat} (rows : List Row)
    (hnext : store.header.nextFreeLba ≤ header.nextFreeLba) :
    r.Stores { store with
      header := header
      disk := store.disk.blit (store.header.nextFreeLba * store.vol.blockSize) iob 0 k
      rows := rows } p := by
  refine { h with bytes := ?_, before := h.before.trans hnext }
  refine (Memory.slice_blit_of_apart (Or.inr ?_)).trans h.bytes
  have hle := store.vol.le_blocksFor h.lt
  rw [← h.blocks] at hle
  calc r.lba * store.vol.blockSize + p.bytes.length
      ≤ r.lba * store.vol.blockSize + r.nBlocks * store.vol.blockSize := Nat.add_le_add_left hle _
    _ = (r.lba + r.nBlocks) * store.vol.blockSize := (Nat.add_mul ..).symm
    _ ≤ store.header.nextFreeLba * store.vol.blockSize := Nat.mul_le_mul_right _ h.before

theorem Data.stores (d : Data) {id m : List Char} {header : Header} {rows : List Row}
    (hnext : header.nextFreeLba = store.header.nextFreeLba + store.vol.blocksFor d.len) :
    Row.Stores ⟨id, store.header.nextFreeLba, store.vol.blocksFor d.len, m⟩ { store with
      header := header
      disk := store.disk.blit (store.header.nextFreeLba * store.vol.blockSize) d.iob 0
        (store.vol.blocksFor d.len * store.vol.blockSize)
      rows := rows } ⟨escape id, d.bytes⟩ := by
  have hlen : d.bytes.length = d.len := Memory.length_slice
  refine ⟨rfl, hlen ▸ d.pos, hlen ▸ d.lt, congrArg store.vol.blocksFor hlen.symm, ?_, hnext.ge⟩
  have hin : 0 + d.bytes.length ≤ store.vol.blocksFor d.len * store.vol.blockSize := by
    rw [hlen, Nat.zero_add]
    exact store.vol.le_blocksFor d.lt
  refine (Memory.slice_blit hin).trans ?_
  rw [hlen]
  rfl

@[simp] theorem Data.payload_len (d : Data) : d.payload.len = d.len := rfl

@[simp] theorem Data.payload_written (d : Data) (disk : Memory) (a k : Nat) :
    d.payload.written disk a k = disk.blit a d.iob 0 k := rfl

theorem ReadInv.taken (hinv : ReadInv s) (data : Data) {header : Header} (hfits : header.Fits s.store.vol)
    (hnext : header.nextFreeLba = s.store.header.nextFreeLba + s.store.vol.blocksFor data.len) {k : Nat} :
    ReadInv { s with store := { s.store with
      header := header
      disk := s.store.disk.blit (s.store.header.nextFreeLba * s.store.vol.blockSize) data.iob 0 k } } :=
  { hinv with
    header := hfits
    rows j r p hr hp := (hinv.rows j r p hr hp).later s.store.rows (hnext ▸ Nat.le_add_right ..) }

theorem ReadInv.added (hinv : ReadInv s) (data : Data) {header : Header} (hfits : header.Fits s.store.vol)
    (hnext : header.nextFreeLba = s.store.header.nextFreeLba + s.store.vol.blocksFor data.len)
    {id m : List Char} (hid : id ∉ s.store.rows.map Row.id) :
    ReadInv { s with
      store := { s.store with
        header := header
        disk := s.store.disk.blit (s.store.header.nextFreeLba * s.store.vol.blockSize) data.iob 0
          (s.store.vol.blocksFor data.len * s.store.vol.blockSize)
        rows := s.store.rows ++ [⟨id, s.store.header.nextFreeLba, s.store.vol.blocksFor data.len, m⟩] }
      puts := s.puts ++ [⟨escape id, data.bytes⟩] } where
  header := hfits
  length := by
    rw [List.length_append, List.length_append, hinv.length]
    rfl
  ids := by
    rw [List.map_append]
    exact List.Nodup.append hinv.ids (List.nodup_singleton _) (List.disjoint_singleton.mpr hid)
  rows j r p hr hp := by
    dsimp only at hr hp
    by_cases hj : j < s.store.rows.length
    · rw [List.getElem?_append_left hj] at hr
      rw [List.getElem?_append_left (hinv.length ▸ hj)] at hp
      exact (hinv.rows j r p hr hp).later _ (hnext ▸ Nat.le_add_right ..)
    · -- The last row is the one of this put.
      rw [List.getElem?_append_right (Nat.le_of_not_lt hj)] at hr
      rw [List.getElem?_append_right (hinv.length ▸ Nat.le_of_not_lt hj), ← hinv.length] at hp
      obtain ⟨hlt, -⟩ := List.getElem?_eq_some_iff.mp hr
      have hzero : j - s.store.rows.length = 0 := Nat.lt_one_iff.mp hlt
      rw [hzero] at hr hp
      cases hr
      cases hp
      exact data.stores hnext
  iterators it hit := (hinv.iterators it hit).append _

theorem ReadInv.put (hinv : ReadInv s) {id m : List Char} (data : Data) :
    ReadInv (s.record ⟨escape id, data.bytes⟩ (s.store.put (escape id) (escape m) data.payload)) := by
  obtain hput | ⟨header, disk, hfits, hnext, hdisk, hput | ⟨hid, hput⟩⟩ :=
    s.store.put_cases hinv.header data.payload
  · rw [hput]
    exact hinv
  · rw [Data.payload_len] at hnext hdisk
    rw [Data.payload_written] at hdisk
    rw [hput, hdisk]
    exact hinv.taken data hfits hnext
  · rw [Data.payload_len] at hnext hdisk hput
    rw [Data.payload_written] at hdisk
    rw [hput, hdisk]
    exact hinv.added data hfits hnext hid

theorem ReadInv.row (hinv : ReadInv s) {j : Nat} (hp : s.puts[j]? = some p) :
    ∃ r, s.store.rows[j]? = some r ∧ r.Stores s.store p := by
  have hj : j < s.store.rows.length := hinv.length ▸ (List.getElem?_eq_some_iff.mp hp).1
  have hr := List.getElem?_eq_getElem hj
  exact ⟨_, hr, hinv.rows j _ p hr hp⟩

theorem find_row (hids : (rows.map Row.id).Nodup) (hr : r ∈ rows) : rows.find? (·.id = r.id) = some r := by
  cases hfind : rows.find? (·.id = r.id) with
  | none => exact absurd (List.find?_eq_none.mp hfind r hr) (by simp)
  | some r' =>
    have hid : r'.id = r.id := by simpa using List.find?_some hfind
    rw [List.inj_on_of_nodup_map hids (List.mem_of_find?_eq_some hfind) hr hid]

theorem ReadInv.getKey (hinv : ReadInv s) (halign : offset % s.store.vol.blockSize = 0) (hp : p ∈ s.puts)
    (hoffset : offset ≤ iob.size) : s.Reads (s.store.getKey p.key iob offset) iob offset p := by
  obtain ⟨j, hj⟩ := List.getElem?_of_mem hp
  obtain ⟨r, hr, hstores⟩ := hinv.row hj
  unfold AppendStore.getKey
  rw [if_neg (not_not_intro halign), hstores.key, selected_selectText, find_row hinv.ids (List.mem_of_getElem? hr)]
  exact hstores.deliver hinv.header hoffset

theorem ReadInv.getRow (hinv : ReadInv s) (halign : offset % s.store.vol.blockSize = 0) {rowid : Nat}
    (hpos : 0 < rowid) (hp : s.puts[rowid - 1]? = some p) (hoffset : offset ≤ iob.size) :
    s.Reads (s.store.getRow rowid iob offset) iob offset p := by
  obtain ⟨r, hr, hstores⟩ := hinv.row hp
  unfold AppendStore.getRow AppendStore.rowAt
  rw [if_neg (not_not_intro halign), if_neg (Nat.ne_of_gt hpos), hr]
  exact hstores.deliver hinv.header hoffset

theorem ReadInv.iteratorGet (hinv : ReadInv s) (hit : it ∈ s.iterators) {record : Record}
    (hrecord : it.records[it.currentIdx]? = some record) (hp : s.puts[record.row]? = some p)
    (hroom : iob.size < record.len ∨ offset + record.len * s.store.vol.blockSize ≤ iob.size) :
    s.Reads (s.store.iteratorGet it iob offset).1 iob offset p := by
  obtain ⟨r, hr, hlba, hlen⟩ := hinv.iterators it hit record (List.mem_of_getElem? hrecord)
  have hstores := hinv.rows _ r p hr hp
  have hiff : iob.Room s.store.vol offset p.bytes.length ↔ offset + record.len * s.store.vol.blockSize ≤ iob.size := by
    unfold IoBuffer.Room
    rw [← hstores.blocks, hlen]
  have hsize : record.len ≤ record.len * s.store.vol.blockSize :=
    Nat.le_mul_of_pos_right _ s.store.vol.blockSize_pos
  unfold AppendStore.iteratorGet
  rw [hrecord]
  dsimp only
  refine ⟨fun hyes => ?_, fun hno => ?_⟩
  · have hle := hiff.mp hyes
    obtain ⟨m, hm, hslice⟩ := hstores.read hyes
    rw [hlba, hlen] at hm
    rw [if_neg (by omega), hm]
    exact ⟨m, rfl, hslice⟩
  · rw [if_pos (hroom.resolve_right fun hle => hno (hiff.mpr hle))]
    trivial

theorem modify_perm {iv : List (List Record)} {k : Nat} (hk : k < iv.length) (record : Record) :
    (iv.modify k (· ++ [record])).flatten.Perm (iv.flatten ++ [record]) := by
  induction iv generalizing k with
  | nil => cases hk
  | cons part iv ih =>
    cases k with
    | zero =>
      simp only [List.modify_zero_cons, List.flatten_cons, List.append_assoc]
      exact List.perm_append_comm.append_left part
    | succ k =>
      simp only [List.modify_succ_cons, List.flatten_cons, List.append_assoc]
      exact (ih (Nat.lt_of_succ_lt_succ hk)).append_left part

theorem distribute_perm {ways j : Nat} {records : List Record} {iv : List (List Record)} (hways : 0 < ways)
    (hiv : iv.length = ways) : (distribute ways records j iv).flatten.Perm (iv.flatten ++ records) := by
  induction records generalizing j iv with
  | nil =>
    rw [List.append_nil]
    rfl
  | cons record records ih =>
    have hmodify := modify_perm ((Nat.mod_lt j hways).trans_eq hiv.symm) record
    refine (ih ((List.length_modify ..).trans hiv)).trans ?_
    refine (hmodify.append_right records).trans ?_
    rw [List.append_assoc]
    rfl

theorem splitIterator_parts {ways : Nat} (hways : 2 ≤ ways) (hlt : ways < 2 ^ 32)
    (hrecords : it.records.length < 2 ^ 32) :
    ∃ parts, splitIterator it ways = .parts parts ∧ (parts.flatMap Iterator.records).Perm it.records ∧
      ∀ part ∈ parts, part.currentIdx = 0 := by
  unfold splitIterator
  rw [if_neg (by omega), if_neg (by omega)]
  refine ⟨_, rfl, ?_, fun part hpart => ?_⟩
  · have hperm : (distribute ways it.records 0 (List.replicate ways [])).flatten.Perm
        ((List.replicate ways []).flatten ++ it.records) :=
      distribute_perm (by omega) List.length_replicate
    rw [List.flatten_replicate_nil, List.nil_append] at hperm
    rw [List.flatMap_map, List.flatMap_id']
    exact hperm
  · obtain ⟨records, -, rfl⟩ := List.mem_map.mp hpart
    rfl

theorem openIterator_of (store : AppendStore) (condition : Nat → Row → Bool) :
    (store.openIterator condition).Of store.rows := by
  intro record hrecord
  obtain ⟨⟨r, j⟩, hmem, rfl⟩ := List.mem_map.mp hrecord
  have hrow := List.mem_zipIdx_iff_getElem?.mp (List.mem_filter.mp hmem).1
  exact ⟨r, hrow, rfl, rfl⟩

theorem iteratorGet_records (store : AppendStore) (it : Iterator) (iob : IoBuffer) (offset : Nat) :
    (store.iteratorGet it iob offset).2.records = it.records := by
  unfold AppendStore.iteratorGet
  split
  · rfl
  · split
    · rfl
    · split <;> rfl

theorem ReadInv.setIterator (hinv : ReadInv s) {i : Nat} (hi : s.iterators[i]? = some it) {it' : Iterator}
    (hrecords : it'.records = it.records) : ReadInv { s with iterators := s.iterators.set i it' } := by
  refine { hinv with iterators := fun it₁ hit₁ => ?_ }
  obtain hit₁ | rfl := List.mem_or_eq_of_mem_set hit₁
  · exact hinv.iterators it₁ hit₁
  · intro record hrecord
    exact hinv.iterators it (List.mem_of_getElem? hi) record (hrecords ▸ hrecord)

theorem ReadInv.step (hinv : ReadInv s) (c : Call) (hsound : s.Sound c) : ∀ s' ∈ s.step c, ReadInv s' := by
  cases c with
  | put key metadata data =>
    obtain ⟨⟨id, rfl⟩, ⟨m, rfl⟩⟩ := hsound
    intro s' hs'
    rw [← Option.some.inj hs']
    exact hinv.put data
  | openIterator condition =>
    rintro s' ⟨⟩
    refine { hinv with iterators := fun it hit => ?_ }
    obtain hit | hit := List.mem_append.mp hit
    · exact hinv.iterators it hit
    · obtain rfl := List.mem_singleton.mp hit
      exact openIterator_of s.store condition
  | iteratorGet i iob offset =>
    unfold State.step
    dsimp only
    split
    · rintro s' ⟨⟩
      exact hinv
    · next it hi =>
      rintro s' ⟨⟩
      exact hinv.setIterator hi (iteratorGet_records ..)
  | splitIterator i ways =>
    unfold State.step
    dsimp only
    split
    · rintro s' ⟨⟩
      exact hinv
    · next it hi =>
      by_cases hways : 2 ≤ ways
      · obtain ⟨parts, hsplit, hperm, -⟩ := splitIterator_parts hways hsound.1 (hsound.2 it hi)
        rw [hsplit]
        rintro s' ⟨⟩
        refine { hinv with iterators := fun it₁ hit₁ => ?_ }
        obtain hit₁ | hit₁ := List.mem_append.mp hit₁
        · exact hinv.iterators it₁ (List.mem_of_mem_eraseIdx hit₁)
        · -- A record of a part is one of the iterator.
          intro record hrecord
          have hmem := hperm.mem_iff.mp (List.mem_flatMap.mpr ⟨it₁, hit₁, hrecord⟩)
          exact hinv.iterators it (List.mem_of_getElem? hi) record hmem
      · have hthrows : Append.splitIterator it ways = .throws := if_pos (Nat.lt_of_not_le hways)
        rw [hthrows]
        rintro s' ⟨⟩
        exact hinv
  | resetIterator i =>
    unfold State.step
    dsimp only
    split
    · rintro s' ⟨⟩
      exact hinv
    · next it hi =>
      rintro s' ⟨⟩
      exact hinv.setIterator hi rfl
  | _ =>
    rintro s' ⟨⟩
    exact hinv

theorem ReadInv.holds (hinv : ReadInv s) (c : Call) (hsound : s.Sound c) : s.Holds c := by
  cases c with
  | put | openIterator | resetIterator => trivial
  | getKey key iob offset =>
    obtain ⟨⟨p, hp, rfl⟩, hoffset⟩ := hsound
    refine fun halign => ⟨fun p' hp' hkey => ?_, fun hunknown => absurd rfl (hunknown p hp)⟩
    rw [← hkey]
    exact hinv.getKey halign hp' hoffset
  | getRow rowid iob offset =>
    obtain ⟨hpos, hle, hoffset⟩ := hsound
    exact fun halign => ⟨fun p hpos hp => hinv.getRow halign hpos hp hoffset, fun hunknown => by omega⟩
  | iteratorGet i iob offset =>
    intro _ it hit record hrecord p hp
    exact hinv.iteratorGet (List.mem_of_getElem? hit) hrecord hp (hsound it hit record hrecord)
  | splitIterator i ways =>
    intro hways it hit
    exact splitIterator_parts hways hsound.1 (hsound.2 it hit)

end Reads

/-- In every sound run reads by key, by row and through iterators give the bytes that were put, or are refused where the
buffer has no room for their blocks, and a split iterator covers the records of the whole. -/
theorem reads_of_sound (vol : Volume) (disk : Memory) (cs : List Call)
    (h : Throughout State.step State.Sound (.format vol disk) cs) :
    Throughout State.step State.Holds (.format vol disk) cs := by
  have hinit : ReadInv (.format vol disk) :=
    ⟨⟨rfl, Nat.one_pos, vol.pos⟩, rfl, List.nodup_nil, fun j r p hr => (by cases hr),
      fun it hit => absurd hit List.not_mem_nil⟩
  exact h.imp (fun s c hinv hsound => hinv.holds c hsound) (fun s c s' hinv hsound => hinv.step c hsound s') hinit

def twoBlocks : Data := ⟨5000, fun _ => 1, by decide, by decide⟩

def oneBlock : IoBuffer := ⟨4096, fun _ => 0, by decide⟩

def threeBlocks : IoBuffer := ⟨12288, fun _ => 0, by decide⟩

/-- A buffer with too little room is refused, and one with room is filled behind its first block. -/
theorem reads_twoBlocks : Throughout State.step State.Holds (.format smallVolume fun _ => 0)
      [.put ['a'] [] twoBlocks, .getKey ['a'] oneBlock 0, .getKey ['a'] threeBlocks 4096] := by
  refine reads_of_sound smallVolume _ _ ⟨⟨⟨['a'], rfl⟩, ⟨[], rfl⟩⟩, ?_⟩
  intro s hs
  rw [← Option.some.inj hs]
  refine ⟨⟨?_, by decide⟩, ?_⟩
  · decide +kernel
  · intro s' hs'
    rw [← Option.some.inj hs']
    refine ⟨⟨?_, by decide⟩, fun _ _ => trivial⟩
    decide +kernel

/-- `iterator_get` compares the bytes of the buffer with the blocks of the record. -/
theorem not_reads_iterator : ¬ Throughout State.step State.Holds (.format smallVolume fun _ => 0)
      [.put ['a'] [] twoBlocks, .openIterator (fun _ _ => true), .iteratorGet 0 oneBlock 0] := by
  rintro ⟨-, hrest⟩
  obtain ⟨-, hrest⟩ := hrest _ rfl
  obtain ⟨hholds, -⟩ := hrest _ rfl
  obtain ⟨-, hrefused⟩ := hholds (by decide +kernel) ⟨[⟨1, 2, 0⟩], 0⟩ (by decide +kernel) ⟨1, 2, 0⟩ rfl
    ⟨['a'], twoBlocks.bytes⟩ rfl
  exact absurd (hrefused (by decide +kernel)) (by decide +kernel)

end Comanche.Store.Append
