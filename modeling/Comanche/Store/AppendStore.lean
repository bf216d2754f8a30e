import Comanche.Lib.Memory
import Comanche.Lib.Run
import Comanche.Lib.SqlText
import Mathlib.Algebra.Group.Nat.Defs

/-!
# The append store

Objects are appended to a block device behind a header block, and found through a table of an sqlite
database, whose statements are put together from the strings of the caller.
-/

namespace Comanche.Store.Append

open Lib Lib.SqlText

/-- `sizeof(Store_master_block)`. -/
def masterBlockSize : Nat := 1048

/-- A device, with what the constructor of `Header` asserts about its blocks. -/
structure Volume where
  blockSize : Nat
  blockCount : Nat
  block : (blockSize = 4096 ∨ blockSize = 512) ∧ masterBlockSize ≤ blockSize
  pos : 0 < blockCount
  lt : blockCount * blockSize < 2 ^ 64

structure Header where
  nextFreeLba : Nat
  blockCount : Nat

/-- `Header::allocate`, which gives the first block and the number of blocks; nothing if it throws. -/
def Header.allocate (h : Header) (blockSize nBytes : Nat) : Option (Nat × Nat × Header) :=
  let nBlocks := (nBytes + blockSize - 1) % 2 ^ 64 / blockSize
  if (h.blockCount + 2 ^ 64 - h.nextFreeLba) % 2 ^ 64 < nBlocks then none
  else some (h.nextFreeLba, nBlocks, { h with nextFreeLba := h.nextFreeLba + nBlocks })

/-- A row of `appendstore`; its `ROWID` is its position, from 1 on. -/
structure Row where
  id : List Char
  lba : Nat
  nBlocks : Nat
  metadata : List Char

def insertWord : List Char := "INSERT INTO appendstore VALUES".toList

def selectWord : List Char := "SELECT LBA, NBLOCKS FROM appendstore WHERE ID=".toList

def insertText (key metadata : List Char) (lba length : Nat) : List Char :=
  insertWord ++ ' ' :: '(' :: quote :: (key ++ quote :: ',' :: ' ' :: (digits lba ++ ',' :: (digits length ++
    ',' :: quote :: (metadata ++ [quote, ')']))))

def selectText (key : List Char) : List Char := selectWord ++ quote :: (key ++ [quote, ';'])

def toRow : List Literal → Option Row
  | [.text id, .number lba, .number nBlocks, .text metadata] => some ⟨id, lba, nBlocks, metadata⟩
  | _ => none

def insert (rows : List Row) : List Row → Option (List Row)
  | [] => some rows
  | r :: rs => if r.id ∈ rows.map Row.id then none else insert (rows ++ [r]) rs

def execute (rows : List Row) (sql : List Char) : Option (List Row) := do
  let values ← after insertWord sql
  let values ← scanRows values.length values
  insert rows (← values.mapM toRow)

def selected (rows : List Row) (sql : List Char) : Option Row := do
  let cs ← after selectWord sql
  match scanLiteral cs with
  | some (.text id, [';']) => rows.find? (·.id = id)
  | _ => none

/-- The store, with the header block on the device and its copy in memory. -/
structure AppendStore where
  vol : Volume
  disk : Memory
  onDisk : Header
  header : Header
  rows : List Row

/-- An object that is put: the io memory with the blocks written, of the caller or one that the data was copied to, or
none if they are only reserved. -/
structure Payload where
  len : Nat
  iob : Option Memory
  pos : 0 < len
  lt : len < 2 ^ 64

/-- The device after `n` bytes of the object were written to `a`. -/
def Payload.written (payload : Payload) (disk : Memory) (a n : Nat) : Memory :=
  match payload.iob with
  | none => disk
  | some iob => disk.blit a iob 0 n

inductive PutResult where
  | ok
  | throws
  deriving DecidableEq

namespace AppendStore

def format (vol : Volume) (disk : Memory) : AppendStore :=
  ⟨vol, disk, ⟨1, vol.blockCount⟩, ⟨1, vol.blockCount⟩, []⟩

def append (s : AppendStore) (key metadata : List Char) (payload : Payload) :
    Option (Nat × Nat × Header) → PutResult × AppendStore
  | none => (.throws, s)
  | some (startLba, nBlocks, header) =>
    let disk := payload.written s.disk (startLba * s.vol.blockSize) (nBlocks * s.vol.blockSize)
    match execute s.rows (insertText key metadata startLba nBlocks) with
    | none => (.throws, { s with header, disk })
    | some rows => (.ok, { s with header, disk, rows })

def put (s : AppendStore) (key metadata : List Char) (payload : Payload) : PutResult × AppendStore :=
  s.append key metadata payload (s.header.allocate s.vol.blockSize payload.len)

def crash (s : AppendStore) : AppendStore := { s with header := s.onDisk }

def close (s : AppendStore) : AppendStore := { s with onDisk := s.header }

end AppendStore

/-- What happens to a store. A crash may come during a put, before its row is in the table or after. -/
inductive Access where
  | put (key metadata : List Char) (payload : Payload)
  | close
  | crash
  | crashInPut (key metadata : List Char) (payload : Payload) (inserted : Bool)

namespace AppendStore

def step (s : AppendStore) : Access → Option AppendStore
  | .put key metadata payload => some (s.put key metadata payload).2
  | .close => some s.close
  | .crash => some s.crash
  | .crashInPut key metadata payload inserted =>
    let s' := (s.put key metadata payload).2
    some (if inserted then s'.crash else { s' with rows := s.rows }.crash)

structure Separate (s : AppendStore) : Prop where
  apart : s.rows.Pairwise fun r r' => r.lba + r.nBlocks ≤ r'.lba ∨ r'.lba + r'.nBlocks ≤ r.lba
  bounds : ∀ r ∈ s.rows, 0 < r.lba ∧ r.lba + r.nBlocks ≤ s.vol.blockCount

def Keeps (s : AppendStore) (a : Access) : Prop := ∀ s' ∈ s.step a, s'.Separate

end AppendStore

/-- Every quote in the texts of a put is written twice. -/
def Quoted (key metadata : List Char) : Prop := (∃ id, key = escape id) ∧ ∃ m, metadata = escape m

/-- All rows end at or below the next free block of the header. -/
def Header.Covers (h : Header) (rows : List Row) : Prop := ∀ r ∈ rows, r.lba + r.nBlocks ≤ h.nextFreeLba

/-- A crash finds no row behind the next free block of the header on the device: no put got its row since the header
was written. -/
def AppendStore.Recorded (s : AppendStore) : Access → Prop
  | .put key metadata _ => Quoted key metadata
  | .close => True
  | .crash => s.onDisk.Covers s.rows
  | .crashInPut key metadata _ inserted => Quoted key metadata ∧ inserted = false ∧ s.onDisk.Covers s.rows

section Table

variable {rows : List Row} {id m : List Char} {lba n left : Nat}

theorem scanRow_values (rest : List Char) :
    scanRow (left + 4) (quote :: (escape id ++ quote :: ',' :: ' ' :: (digits lba ++ ',' :: (digits n ++
      ',' :: quote :: (escape m ++ quote :: ')' :: rest))))) =
      some ([.text id, .number lba, .number n, .text m], rest) := by
  have hcomma {rest : List Char} : ∀ c ∈ (',' :: rest).head?, c.isDigit = false := by
    rintro c ⟨⟩
    rfl
  have hquote {c : Char} {rest : List Char} (hc : c ≠ quote) : (c :: rest).head? ≠ some quote :=
    fun h => hc (Option.some.inj h)
  rw [scanRow_comma (scanLiteral_text (hquote (by decide))),
    scanRow_comma (scanLiteral_space.trans (scanLiteral_number hcomma)),
    scanRow_comma (scanLiteral_number hcomma), scanRow_bracket (scanLiteral_text (hquote (by decide)))]
  rfl

theorem scanRows_one {cs : List Char} {row : List Literal} (hrow : scanRow cs.length cs = some (row, [])) :
    scanRows (left + 1) (' ' :: '(' :: cs) = some [row] := by
  have hskip : skipSpaces (' ' :: '(' :: cs) = '(' :: cs := skipSpaces_space.trans (skipSpaces_cons (by decide))
  have hend : skipSpaces [] = [] := rfl
  simp only [scanRows, hskip, hrow, hend]

theorem execute_insertText :
    execute rows (insertText (escape id) (escape m) lba n) = insert rows [⟨id, lba, n, m⟩] := by
  generalize hcs : quote :: (escape id ++ quote :: ',' :: ' ' :: (digits lba ++ ',' :: (digits n ++
      ',' :: quote :: (escape m ++ [quote, ')'])))) = cs
  -- There are more characters than values.
  obtain ⟨left, hleft⟩ : ∃ left, cs.length = left + 4 := by
    refine ⟨cs.length - 4, ?_⟩
    rw [← hcs]
    simp only [List.length_cons, List.length_append]
    omega
  have hrow : scanRow cs.length cs = some ([.text id, .number lba, .number n, .text m], []) := by
    rw [hleft, ← hcs]
    exact scanRow_values []
  have htext : insertText (escape id) (escape m) lba n = insertWord ++ (' ' :: '(' :: cs) := by
    rw [← hcs]
    rfl
  unfold execute
  rw [htext, after_append]
  dsimp only [Option.bind_eq_bind, Option.bind_some]
  rw [List.length_cons, scanRows_one hrow]
  rfl

theorem selected_selectText : selected rows (selectText (escape id)) = rows.find? (·.id = id) := by
  have hscan : scanLiteral (quote :: (escape id ++ [quote, ';'])) = some (.text id, [';']) :=
    scanLiteral_text (by decide)
  unfold selected selectText
  rw [after_append]
  dsimp only [Option.bind_eq_bind, Option.bind_some]
  rw [hscan]
  rfl

end Table

structure Header.Fits (h : Header) (vol : Volume) : Prop where
  count : h.blockCount = vol.blockCount
  pos : 0 < h.nextFreeLba
  le : h.nextFreeLba ≤ vol.blockCount

theorem Volume.blockSize_pos (vol : Volume) : 0 < vol.blockSize := by
  obtain h | h := vol.block.1 <;> omega

theorem Volume.blockCount_lt (vol : Volume) : vol.blockCount < 2 ^ 64 :=
  (Nat.le_mul_of_pos_right _ vol.blockSize_pos).trans_lt vol.lt

def Volume.blocksFor (vol : Volume) (nBytes : Nat) : Nat := (nBytes + vol.blockSize - 1) % 2 ^ 64 / vol.blockSize

section Frontier

variable {s : AppendStore} {h h' : Header} {vol : Volume} {key metadata : List Char} {payload : Payload}
  {lba n nBytes : Nat}

theorem Header.Fits.allocate (hfits : h.Fits vol) (halloc : h.allocate vol.blockSize nBytes = some (lba, n, h')) :
    lba = h.nextFreeLba ∧ n = vol.blocksFor nBytes ∧ h'.nextFreeLba = lba + n ∧ h'.Fits vol := by
  have hcount := vol.blockCount_lt
  have hle := hfits.le
  unfold Header.allocate at halloc
  rw [hfits.count] at halloc
  dsimp only at halloc
  split at halloc
  · cases halloc
  · next hroom =>
    cases halloc
    have hroom : vol.blocksFor nBytes ≤ (vol.blockCount + 2 ^ 64 - h.nextFreeLba) % 2 ^ 64 := Nat.le_of_not_lt hroom
    refine ⟨rfl, rfl, rfl, ⟨rfl, ?_, ?_⟩⟩
    · exact Nat.add_pos_left hfits.pos _
    · change h.nextFreeLba + vol.blocksFor nBytes ≤ vol.blockCount
      omega

theorem insert_one {rows rows' : List Row} {r : Row} (hinsert : insert rows [r] = some rows') :
    rows' = rows ++ [r] ∧ r.id ∉ rows.map Row.id := by
  unfold insert at hinsert
  split at hinsert
  · cases hinsert
  · next hid =>
    cases hinsert
    exact ⟨rfl, hid⟩

theorem AppendStore.put_cases (hfits : s.header.Fits s.vol) {id m : List Char} (payload : Payload) :
    (s.put (escape id) (escape m) payload = (.throws, s)) ∨ ∃ header disk, header.Fits s.vol ∧
        header.nextFreeLba = s.header.nextFreeLba + s.vol.blocksFor payload.len ∧
        disk = payload.written s.disk (s.header.nextFreeLba * s.vol.blockSize)
          (s.vol.blocksFor payload.len * s.vol.blockSize) ∧
        ((s.put (escape id) (escape m) payload = (.throws, { s with header, disk })) ∨
          (id ∉ s.rows.map Row.id ∧ s.put (escape id) (escape m) payload = (.ok, { s with
            header, disk
            rows := s.rows ++ [⟨id, s.header.nextFreeLba, s.vol.blocksFor payload.len, m⟩] }))) := by
  unfold AppendStore.put
  cases halloc : s.header.allocate s.vol.blockSize payload.len with
  | none => exact Or.inl rfl
  | some res =>
    obtain ⟨lba, n, header⟩ := res
    obtain ⟨rfl, rfl, hnext, hfits'⟩ := hfits.allocate halloc
    refine Or.inr ⟨header, _, hfits', hnext, rfl, ?_⟩
    unfold AppendStore.append
    dsimp only
    rw [execute_insertText]
    cases hinsert : insert s.rows _ with
    | none => exact Or.inl rfl
    | some rows =>
      obtain ⟨rfl, hid⟩ := insert_one hinsert
      exact Or.inr ⟨hid, rfl⟩

theorem AppendStore.put_keeps (s : AppendStore) (key metadata : List Char) (payload : Payload) :
    (s.put key metadata payload).2.vol = s.vol ∧ (s.put key metadata payload).2.onDisk = s.onDisk := by
  unfold AppendStore.put
  cases s.header.allocate s.vol.blockSize payload.len with
  | none => exact ⟨rfl, rfl⟩
  | some res =>
    unfold AppendStore.append
    dsimp only
    cases execute s.rows (insertText key metadata res.1 res.2.1) with
    | none => exact ⟨rfl, rfl⟩
    | some rows => exact ⟨rfl, rfl⟩

structure FrontierInv (s : AppendStore) : Prop where
  header : s.header.Fits s.vol
  onDisk : s.onDisk.Fits s.vol
  covers : s.header.Covers s.rows
  separate : s.Separate

theorem Header.Covers.mono {rows : List Row} (hcovers : h.Covers rows) (hle : h.nextFreeLba ≤ h'.nextFreeLba) :
    h'.Covers rows :=
  fun r hr => (hcovers r hr).trans hle

theorem AppendStore.Separate.snoc (hsep : s.Separate) {r : Row} {rows : List Row} (hrows : rows = s.rows ++ [r])
    (hbehind : ∀ r' ∈ s.rows, r'.lba + r'.nBlocks ≤ r.lba) (hpos : 0 < r.lba)
    (hle : r.lba + r.nBlocks ≤ s.vol.blockCount) {s' : AppendStore} (hs' : s'.rows = rows)
    (hvol : s'.vol = s.vol) : s'.Separate := by
  refine ⟨?_, fun r' hr' => ?_⟩
  · rw [hs', hrows, List.pairwise_append]
    refine ⟨hsep.apart, List.pairwise_singleton _ _, fun r' hr' r'' hr'' => ?_⟩
    obtain rfl := List.mem_singleton.mp hr''
    exact Or.inl (hbehind r' hr')
  · rw [hs', hrows] at hr'
    rw [hvol]
    obtain hr' | hr' := List.mem_append.mp hr'
    · exact hsep.bounds r' hr'
    · obtain rfl := List.mem_singleton.mp hr'
      exact ⟨hpos, hle⟩

theorem FrontierInv.put (hinv : FrontierInv s) (hquoted : Quoted key metadata) (payload : Payload) :
    FrontierInv (s.put key metadata payload).2 := by
  obtain ⟨⟨id, rfl⟩, ⟨m, rfl⟩⟩ := hquoted
  obtain hput | ⟨header, disk, hfits, hnext, -, hput⟩ := s.put_cases hinv.header payload
  · rw [hput]
    exact hinv
  · have hcovers : header.Covers s.rows := hinv.covers.mono (by omega)
    obtain hput | ⟨-, hput⟩ := hput
    · rw [hput]
      exact ⟨hfits, hinv.onDisk, hcovers, ⟨hinv.separate.apart, hinv.separate.bounds⟩⟩
    · rw [hput]
      refine ⟨hfits, hinv.onDisk, fun r hr => ?_, ?_⟩
      · obtain hr | hr := List.mem_append.mp hr
        · exact hcovers r hr
        · obtain rfl := List.mem_singleton.mp hr
          exact Nat.le_of_eq hnext.symm
      · have hbefore : ∀ r ∈ s.rows, r.lba + r.nBlocks ≤ s.header.nextFreeLba := hinv.covers
        exact hinv.separate.snoc rfl hbefore hinv.header.pos (hnext ▸ hfits.le) rfl rfl

/-- The rows are found with the header of the device. -/
theorem FrontierInv.crash {s₁ : AppendStore} (hinv : FrontierInv s) (hcovers : s.onDisk.Covers s.rows)
    (hvol : s₁.vol = s.vol) (honDisk : s₁.onDisk = s.onDisk) : FrontierInv { s₁ with rows := s.rows }.crash := by
  have hfits : s₁.onDisk.Fits s₁.vol := by
    rw [hvol, honDisk]
    exact hinv.onDisk
  refine ⟨hfits, hfits, ?_, hinv.separate.apart, ?_⟩
  · change s₁.onDisk.Covers s.rows
    rw [honDisk]
    exact hcovers
  · change ∀ r ∈ s.rows, 0 < r.lba ∧ r.lba + r.nBlocks ≤ s₁.vol.blockCount
    rw [hvol]
    exact hinv.separate.bounds

theorem FrontierInv.step (hinv : FrontierInv s) (a : Access) (hrecorded : s.Recorded a) :
    ∀ s' ∈ s.step a, FrontierInv s' := by
  cases a with
  | put key metadata payload =>
    rintro s' ⟨⟩
    exact hinv.put hrecorded payload
  | close =>
    rintro s' ⟨⟩
    exact ⟨hinv.header, hinv.header, hinv.covers, ⟨hinv.separate.apart, hinv.separate.bounds⟩⟩
  | crash =>
    rintro s' ⟨⟩
    exact hinv.crash hrecorded rfl rfl
  | crashInPut key metadata payload inserted =>
    obtain ⟨-, hinserted, hcovers⟩ := hrecorded
    obtain ⟨hvol, honDisk⟩ := s.put_keeps key metadata payload
    rintro s' ⟨⟩
    split
    · next htrue => exact absurd (hinserted.symm.trans htrue) Bool.false_ne_true
    · exact hinv.crash hcovers hvol honDisk

end Frontier

/-- The rows stay separate in every history whose crashes find all rows in front of the next free block of the header
on the device. -/
theorem keeps_of_recorded (vol : Volume) (disk : Memory) (as : List Access)
    (h : Throughout AppendStore.step AppendStore.Recorded (.format vol disk) as) :
    Throughout AppendStore.step AppendStore.Keeps (.format vol disk) as := by
  have hfits : Header.Fits ⟨1, vol.blockCount⟩ vol := ⟨rfl, Nat.one_pos, vol.pos⟩
  have hinit : FrontierInv (.format vol disk) :=
    ⟨hfits, hfits, nofun, ⟨List.Pairwise.nil, fun r hr => absurd hr List.not_mem_nil⟩⟩
  exact h.imp (fun s a hinv hrecorded s' hs' => (hinv.step a hrecorded s' hs').separate)
    (fun s a s' hinv hrecorded hs' => hinv.step a hrecorded s' hs') hinit

def smallVolume : Volume := ⟨4096, 100, by decide, by decide, by decide⟩

def oneByte : Payload := ⟨1, none, Nat.one_pos, by decide⟩

theorem keeps_close : Throughout AppendStore.step AppendStore.Keeps (.format smallVolume fun _ => 0)
      [.put ['a'] [] oneByte, .close, .crash, .put ['b'] [] oneByte] := by
  refine keeps_of_recorded smallVolume _ _ ⟨⟨⟨['a'], rfl⟩, ⟨[], rfl⟩⟩, ?_⟩
  rintro s ⟨⟩
  refine ⟨trivial, ?_⟩
  rintro s ⟨⟩
  refine ⟨?_, fun _ _ => ⟨⟨⟨['b'], rfl⟩, ⟨[], rfl⟩⟩, fun _ _ => trivial⟩⟩
  change ∀ r ∈ _, _
  decide +kernel

/-- After a crash the block of the first object is given away again. -/
theorem not_keeps_crash : ¬ Throughout AppendStore.step AppendStore.Keeps (.format smallVolume fun _ => 0)
      [.put ['a'] [] oneByte, .crash, .put ['b'] [] oneByte] := by
  rintro ⟨-, hrest⟩
  obtain ⟨-, hrest⟩ := hrest _ rfl
  obtain ⟨hkeeps, -⟩ := hrest _ rfl
  have happart := (hkeeps _ rfl).apart
  revert happart
  decide +kernel

end Comanche.Store.Append
