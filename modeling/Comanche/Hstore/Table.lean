import Comanche.Lib.Action
import Comanche.Lib.Circle
import Comanche.Hstore.Owner

/-!
# The hopscotch table of hstore

`Table` holds the fields that `persist_map` keeps in persistent memory.
-/

namespace Comanche.Hstore

open Lib

inductive ContentState where
  | free
  | inUse
  deriving DecidableEq

def baseSegmentSize : Nat := 1 <<< 7

def segmentCapacity : Nat := 32

/-! `value_unstable<T, N>`: a word that holds a value in its high bits and, in the low `N` bits, how
many changes of it are under way. -/

namespace ValueUnstable

def valueNotStable (N word : Nat) : Nat := word >>> N

def isStable (N word : Nat) : Bool := word % 2 ^ N == 0

def valueSetStable (N n : Nat) : Nat := n <<< N

def destabilize (word : Nat) : Nat := word + 1

def stabilize (word : Nat) : Nat := word - 1

def incr (N word : Nat) : Nat := word + 2 ^ N

def decr (N word : Nat) : Nat := word - 2 ^ N

end ValueUnstable

open ValueUnstable

structure Table (K V : Type) where
  owner : Nat → BitVec 64
  state : Nat → ContentState
  value : Nat → K × V
  /-- `_size_control`, a `value_unstable<size_t, 8>`. -/
  sizeControl : Nat
  /-- `_segment_count._actual`, a `value_unstable<six_t, 1>`. -/
  segmentCountActual : Nat
  segment : Nat → Bool

inductive Write (K V : Type) where
  | owner (i : Nat) (v : BitVec 64)
  | state (i : Nat) (s : ContentState)
  | value (i : Nat) (kv : K × V)
  | size (word : Nat)
  | segmentCount (word : Nat)
  | segment (i : Nat)

namespace Table

variable {K V : Type}

def apply (t : Table K V) : Write K V → Table K V
  | .owner i v => { t with owner := Function.update t.owner i v }
  | .state i s => { t with state := Function.update t.state i s }
  | .value i kv => { t with value := Function.update t.value i kv }
  | .size word => { t with sizeControl := word }
  | .segmentCount word => { t with segmentCountActual := word }
  | .segment i => { t with segment := Function.update t.segment i true }

def segmentCountNotStable (t : Table K V) : Nat :=
  valueNotStable 1 t.segmentCountActual

def bucketCount (t : Table K V) : Nat := baseSegmentSize <<< (t.segmentCountNotStable - 1)

def mask (t : Table K V) : Nat := t.bucketCount - 1

def bucketIx (t : Table K V) (h : BitVec 64) : Nat := h.toNat &&& t.mask

def bucketExpandedIx (t : Table K V) (h : BitVec 64) : Nat := h.toNat &&& ((t.mask <<< 1) + 1)

def incrWithWrap (t : Table K V) (i : Nat) : Nat := Circle.step t.bucketCount i 1

def addSmall (t : Table K V) (i fwd : Nat) : Nat := Circle.step t.bucketCount i fwd

def subtractSmall (t : Table K V) (i bkwd : Nat) : Nat := Circle.back t.bucketCount i bkwd

/-- The distance is computed in 64 bits and returned as an `unsigned`, which keeps 32 of them. -/
def distanceWrapped (t : Table K V) (first last : Nat) : Nat :=
  ((if last < first then last + t.bucketCount else last) - first) % 2 ^ 32

def isFree (t : Table K V) (i : Nat) : Bool :=
  match t.state i with
  | .free => true
  | .inUse => false

def size (t : Table K V) : Nat := valueNotStable 8 t.sizeControl

end Table

/-- A call on what the table shares with its users: the mutexes of the buckets, and the constructors and destructors
of keys and values. -/
inductive Call (K V : Type) where
  | lockOwner (i : Nat)
  | unlockOwner (i : Nat)
  | lockOwnerShared (i : Nat)
  | unlockOwnerShared (i : Nat)
  | lockContent (i : Nat)
  | unlockContent (i : Nat)
  | lockContentShared (i : Nat)
  | unlockContentShared (i : Nat)
  /-- `_bucket_mutexes.reset(new bucket_mutexes_t[count])` for the segment at `first`. -/
  | newMutexes (first count : Nat)
  /-- `bucket_mutexes::_state` of bucket `i`. -/
  | setUnique (i : Nat) (unique : Bool)
  | construct (kv : K × V)
  | copy (kv : K × V)
  | destroy (kv : K × V)
  /-- `reconstitute` of key and value. -/
  | reconstitute (kv : K × V)

inductive Step (K V : Type) where
  | write (w : Write K V)
  | call (c : Call K V)

structure HopHash (K V : Type) where
  table : Table K V
  log : List (Step K V)

def Table.step {K V : Type} (t : Table K V) : Step K V → Table K V
  | .write x => t.apply x
  | .call _ => t

instance {K V : Type} : Store (HopHash K V) (Step K V) where
  apply w x := ⟨w.table.step x, x :: w.log⟩

inductive Exc where
  | moveStuck
  | hopHashFull
  | outOfRange
  | nullSegment
  /-- The bound on the rounds of a loop was too small. No operation ends so. -/
  | diverges
  deriving DecidableEq

def Exc.noNearEmptyBucket : Exc → Bool
  | .moveStuck => true
  | .hopHashFull => true
  | _ => false

/-- The template arguments of `hop_hash` and what the build leaves open. -/
structure Config (K κ V : Type) where
  /-- What `key_equal` compares and the hash reads of a stored key. -/
  key : K → κ
  hf : κ → BitVec 64
  /-- What the memory of a pair holds between the single stores that overwrite it. -/
  images : K × V → K × V → List (K × V)
  /-- The value of `owner::mask_all_ones()`, whose shift by 64 the language leaves undefined. -/
  ones : BitVec 64
  autoResize : Bool

abbrev Act (K V α : Type) : Type := Action (HopHash K V) (Step K V) Exc α

section Primitives

variable {K V : Type}

def write (w : Write K V) : Act K V Unit := Action.emit (.write w)

def call (c : Call K V) : Act K V Unit := Action.emit (.call c)

def getTable : Act K V (Table K V) := Action.read HopHash.table

def sizeUpdate (f : Nat → Nat) : Act K V Unit := do
  let t ← getTable
  write (.size (f t.sizeControl))

def sizeDestabilize : Act K V Unit := sizeUpdate destabilize

def sizeStabilize : Act K V Unit := sizeUpdate stabilize

def sizeIncr : Act K V Unit := sizeUpdate (incr 8)

def sizeDecr : Act K V Unit := sizeUpdate (decr 8)

/-- `content::erase`: nothing is destroyed in a bucket that is already marked FREE. -/
def contentErase (i : Nat) : Act K V Unit := do
  let t ← getTable
  Action.when (t.state i ≠ .free) do
    call (.destroy (t.value i))
    write (.state i .free)

end Primitives

section Operations

variable {K κ V : Type} [DecidableEq κ] (cfg : Config K κ V)

/-- `content::content_construct` and `content::content_share`: placement new of a copy of the pair,
store by store. -/
def contentCopy (i : Nat) (kv : K × V) : Act K V Unit := do
  let t ← getTable
  Action.emitAll ((cfg.images (t.value i) kv).map fun x => .write (.value i x))
  write (.value i kv)
  call (.copy kv)

def locateFrom (t : Table K V) (k : κ) : Nat → BitVec 64 → Nat → Option Nat
  | 0, _, _ => none
  | n + 1, wv, bi =>
      if wv.getLsbD 0 = true ∧ cfg.key (t.value bi).1 = k then some bi
      else locateFrom t k n (wv >>> 1) (t.incrWithWrap bi)

def bucket (t : Table K V) (k : κ) : Nat := t.bucketIx (cfg.hf k)

def locateKey (t : Table K V) (k : κ) (bi : Nat) : Option Nat :=
  locateFrom cfg t k Owner.size (t.owner bi) bi

/-- The loop at the head of `emplace` that looks for the key. It ends when no bit is left. -/
def alreadyPresent (t : Table K V) (k : κ) : Nat → BitVec 64 → Nat → Option Nat
  | 0, _, _ => none
  | n + 1, cv, bi =>
      if cv = 0#64 then none
      else if cv.getLsbD 0 = true ∧ cfg.key (t.value bi).1 = k then some bi
      else alreadyPresent t k n (cv >>> 1) (t.incrWithWrap bi)

def nearestFreeFrom (start : Nat) : Nat → Nat → Act K V Nat
  | 0, _ => Action.fail .diverges
  | n + 1, bi => do
      let t ← getTable
      if t.isFree bi then
        return bi
      else
        let next := t.incrWithWrap bi
        call (.lockContent next)
        call (.unlockContent bi)
        if next = start then
          call (.unlockContent next)
          Action.fail .hopHashFull
        else
          nearestFreeFrom start n next

def nearestFreeBucket (bi : Nat) : Act K V Nat := do
  let t ← getTable
  call (.lockContent bi)
  nearestFreeFrom bi t.bucketCount bi

/-- The inner loop of `make_space_for_insert`: the first owner before `dst` with an eligible item,
and the mask that was applied to it. -/
def seekOwner (dst : Nat) : Nat → Nat → BitVec 64 → Act K V (Nat × BitVec 64)
  | 0, _, _ => Action.fail .diverges
  | n + 1, own, eligible => do
      let t ← getTable
      if own ≠ dst ∧ t.owner own &&& eligible = 0#64 then
        let next := t.incrWithWrap own
        call (.lockOwner next)
        call (.unlockOwner own)
        seekOwner dst n next (eligible >>> 1)
      else
        return (own, eligible)

/-- One displacement: the content at `src` moves to the free bucket `dst`, both of them within
reach of `own`. -/
def displace (own src dst p : Nat) : Act K V Unit := do
  let t ← getTable
  contentCopy cfg dst (t.value src)
  sizeDestabilize
  write (.state src .free)
  write (.state dst .inUse)
  write (.owner own (Owner.move (t.owner own) (t.distanceWrapped own dst) p))
  contentErase src
  sizeStabilize

/-- `bi` is the home of the key to insert, `dst` a free bucket whose content is locked. -/
def makeSpaceForInsert (bi : Nat) : Nat → Nat → Act K V Nat
  | 0, _ => Action.fail .diverges
  | n + 1, dst => do
      let t ← getTable
      if t.distanceWrapped bi dst < Owner.size then
        return dst
      else
        let first := t.subtractSmall dst (Owner.size - 1)
        call (.lockOwner first)
        let (own, eligible) ← seekOwner dst Owner.size first cfg.ones
        if own = dst then
          call (.unlockOwner own)
          call (.unlockContent dst)
          Action.fail .moveStuck
        else
          let p := Owner.rightmostOnePos (t.owner own &&& eligible)
          let src := t.addSmall own p
          call (.lockContent src)
          displace cfg own src dst p
          call (.unlockContent dst)
          call (.unlockOwner own)
          makeSpaceForInsert bi n src

/-- The owner `bi` takes the content `dst`, and the size counts it. -/
def emplaceClaim (bi dst : Nat) : Act K V Unit := do
  let t ← getTable
  write (.owner bi (Owner.insert (t.owner bi) (t.distanceWrapped bi dst)))
  sizeIncr
  sizeStabilize

/-- The stores of `emplace` that enter a pair with home `bi` in the free bucket `dst`. -/
def emplaceAt (bi dst : Nat) (kv : K × V) : Act K V Unit := do
  contentCopy cfg dst kv
  sizeDestabilize
  write (.state dst .inUse)
  emplaceClaim bi dst

/-- The `try` block of `emplace`: find a bucket for the pair and enter it. -/
def emplaceNew (bi : Nat) (kv : K × V) : Act K V Nat := do
  let t ← getTable
  let free ← nearestFreeBucket bi
  let dst ← makeSpaceForInsert cfg bi t.bucketCount free
  emplaceAt cfg bi dst kv
  call (.unlockContent dst)
  return dst

/-- `persist_controller::resize_prolog`: a new segment as large as the table. -/
def resizeProlog [Inhabited K] [Inhabited V] : Act K V Unit := do
  let t ← getTable
  Action.forRange t.bucketCount fun i => do
    write (.owner (t.bucketCount + i) 0#64)
    write (.state (t.bucketCount + i) .free)
    write (.value (t.bucketCount + i) default)
  write (.segment t.segmentCountNotStable)
  call (.newMutexes t.bucketCount t.bucketCount)

/-- Whether pass 1 copies the content at `ix` to the junior segment. -/
def mustMove (t : Table K V) (ix : Nat) : Bool :=
  let ixOwner := t.bucketExpandedIx (cfg.hf (cfg.key (t.value ix).1))
  if ixOwner ≤ ix ∧ ix < ixOwner + Owner.size then false
  else if ix < Owner.size ∧ t.bucketCount * 2 < ixOwner + Owner.size then false
  else true

def resizePass1Bucket (ix : Nat) : Act K V Unit := do
  let t ← getTable
  call (.lockContent ix)
  Action.when (t.isFree ix = false ∧ mustMove cfg t ix = true) do
    contentCopy cfg (t.bucketCount + ix) (t.value ix)
    write (.state (t.bucketCount + ix) .inUse)
  call (.unlockContent ix)

def resizePass1 : Act K V Unit := do
  let t ← getTable
  Action.forRange t.bucketCount (resizePass1Bucket cfg)

/-- `k` is the key of the populated content, which pass 1 found at `ixSenior`. -/
def resizePass2AdjustOwner (ixSenior : Nat) (k : κ) : Act K V Unit := do
  let t ← getTable
  let ixSeniorOwner := t.bucketIx (cfg.hf k)
  let ixJuniorOwner := t.bucketExpandedIx (cfg.hf k)
  Action.when (ixSeniorOwner ≠ ixJuniorOwner) do
    let junior := t.bucketCount + ixSeniorOwner
    call (.lockOwner ixSeniorOwner)
    call (.lockOwner junior)
    let ownerPos := t.distanceWrapped ixSeniorOwner ixSenior
    write (.owner junior (Owner.insert (t.owner junior) ownerPos))
    write (.owner ixSeniorOwner (Owner.erase (t.owner ixSeniorOwner) ownerPos))
    call (.unlockOwner junior)
    call (.unlockOwner ixSeniorOwner)

/-- One bucket of pass 2. A junior content that is in use drives the step, so that the pass can be
run again after it was cut. -/
def resizePass2Content (ix : Nat) : Act K V Unit := do
  let t ← getTable
  if t.state (t.bucketCount + ix) = .inUse then
    resizePass2AdjustOwner cfg ix (cfg.key (t.value (t.bucketCount + ix)).1)
    contentErase ix
    write (.state ix .free)
  else
    Action.when (t.state ix = .inUse) do
      resizePass2AdjustOwner cfg ix (cfg.key (t.value ix).1)

def resizePass2Bucket (ix : Nat) : Act K V Unit := do
  let t ← getTable
  call (.lockContent (t.bucketCount + ix))
  call (.lockContent ix)
  resizePass2Content cfg ix
  call (.unlockContent ix)
  call (.unlockContent (t.bucketCount + ix))

def resizePass2 : Act K V Unit := do
  let t ← getTable
  Action.forRange t.bucketCount (resizePass2Bucket cfg)

/-- `persist_controller::resize_interlog`: from here on a restart must redo pass 2. -/
def resizeInterlog : Act K V Unit := do
  let t ← getTable
  write (.segmentCount (destabilize t.segmentCountActual))

def resizeEpilog : Act K V Unit := do
  let t ← getTable
  write (.segmentCount (valueSetStable 1 (t.segmentCountNotStable + 1)))

def resize [Inhabited K] [Inhabited V] : Act K V Unit := do
  resizeProlog
  resizePass1 cfg
  resizeInterlog
  resizePass2 cfg
  resizeEpilog

/-- `emplace` with at most `n` retries. Attempt `m` builds its pair afresh, as `args m`. -/
def emplaceFrom [Inhabited K] [Inhabited V] (args : Nat → K × V) :
    Nat → Nat → Act K V (Nat × Bool)
  | 0, _ => Action.fail .diverges
  | n + 1, m => do
      let kv := args m
      call (.construct kv)
      let t ← getTable
      let bi := bucket cfg t (cfg.key kv.1)
      call (.lockOwner bi)
      match alreadyPresent cfg t (cfg.key kv.1) Owner.size (t.owner bi) bi with
      | some j =>
          call (.unlockOwner bi)
          call (.destroy kv)
          return (j, false)
      | none =>
          Action.handle
            (do
              let dst ← emplaceNew cfg bi kv
              call (.unlockOwner bi)
              call (.destroy kv)
              return (dst, true))
            fun e => do
              call (.unlockOwner bi)
              let t ← getTable
              if e.noNearEmptyBucket = true ∧ cfg.autoResize = true ∧
                  t.segmentCountNotStable < segmentCapacity then
                resize cfg
                call (.destroy kv)
                emplaceFrom args n (m + 1)
              else
                call (.destroy kv)
                Action.fail e

/-- A table has at most `segmentCapacity` segments, so that it is enlarged
less than that many times. -/
def emplace [Inhabited K] [Inhabited V] (args : Nat → K × V) : Act K V (Nat × Bool) :=
  emplaceFrom cfg args (segmentCapacity + 1) 0

/-- The owner position is the difference of the two indexes cast to
`unsigned`. -/
def erase (k : κ) : Act K V Nat := do
  let t ← getTable
  let bi := bucket cfg t k
  call (.lockOwner bi)
  match locateKey cfg t k bi with
  | none =>
      call (.unlockOwner bi)
      return 0
  | some j =>
      call (.lockContent j)
      sizeDestabilize
      write (.owner bi (Owner.erase (t.owner bi) ((j + 2 ^ 64 - bi) % 2 ^ 64 % 2 ^ 32)))
      contentErase j
      sizeDecr
      sizeStabilize
      call (.unlockContent j)
      call (.unlockOwner bi)
      return 1

def at_ (k : κ) : Act K V V := do
  let t ← getTable
  let bi := bucket cfg t k
  call (.lockOwnerShared bi)
  call (.unlockOwnerShared bi)
  match locateKey cfg t k bi with
  | none => Action.fail .outOfRange
  | some j => return (t.value j).2

def log2 (v : Nat) : Nat := Nat.log2 v + 1

def segmentCountSpecified (n : Nat) : Nat :=
  if n * 3 % 2 ^ 64 / baseSegmentSize = 0 then 1
  else log2 (3 * n % 2 ^ 64 / baseSegmentSize)

/-- `persist_map(n, av)`, with the segments of `do_initial_allocation` in place. -/
def persistMap [Inhabited K] [Inhabited V] (n : Nat) : Table K V where
  owner _ := 0#64
  state _ := .free
  value _ := default
  sizeControl := 0
  segmentCountActual := valueSetStable 1 (segmentCountSpecified n)
  segment i := decide (i < segmentCountSpecified n)

/-- The loop of `owned_by_owner_mask`: it takes in the owners from 63 buckets before on. -/
def ownedFrom (t : Table K V) : Nat → Nat → BitVec 64 → BitVec 64
  | 0, _, c => c
  | n + 1, sbw, c =>
      ownedFrom t n (t.incrWithWrap sbw) ((c >>> 1) ||| t.owner (t.incrWithWrap sbw))

def ownedByOwnerMask (t : Table K V) (a : Nat) : BitVec 64 :=
  ownedFrom t Owner.size (t.subtractSmall a Owner.size) 0#64

def recountBucket (i : Nat) (acc : BitVec 64 × Nat) : Act K V (BitVec 64 × Nat) := do
  let t ← getTable
  let ownedMask := (acc.1 >>> 1) ||| t.owner i
  let inUse := ownedMask.getLsbD 0
  let state := if inUse then ContentState.inUse else ContentState.free
  Action.when (t.state i ≠ state) do
    write (.state i state)
  return (ownedMask, acc.2 + inUse.toNat)

def recount : Act K V Unit := do
  let t ← getTable
  let acc ← Action.foldRange t.bucketCount (ownedByOwnerMask t 0 <<< 1, 0) recountBucket
  write (.size (valueSetStable 8 acc.2))

def reconstituteBucket (i : Nat) : Act K V Unit := do
  let t ← getTable
  Action.when (t.state i ≠ .free) do
    call (.reconstitute (t.value i))

/-- `bucket_control_unlocked::reconstitute` for the `count` buckets from `first` on. -/
def reconstituteBuckets (first count : Nat) : Act K V Unit :=
  Action.forRange count fun i => reconstituteBucket (first + i)

inductive ConstructionMode where
  | create
  | reconstitute
  deriving DecidableEq

/-- How many segments the constructor uses: those that are counted, and the junior one if the count
is unstable. -/
def segmentsUsed (t : Table K V) : Nat :=
  t.segmentCountNotStable + (!isStable 1 t.segmentCountActual).toNat

/-- The constructor of `hop_hash_base`. It finishes a resize that was cut in pass 2, and recounts if a change of the
size was cut. -/
def hopHashBase (mode : ConstructionMode) : Act K V Unit := do
  let t ← getTable
  Action.when ((List.range (segmentsUsed t)).any fun i => !t.segment i) do
    Action.fail .nullSegment
  Action.when (mode = .reconstitute) do
    reconstituteBuckets 0 t.bucketCount
  Action.when (isStable 1 t.segmentCountActual = false) do
    call (.newMutexes t.bucketCount t.bucketCount)
    reconstituteBuckets t.bucketCount t.bucketCount
    resizePass2 cfg
    resizeEpilog
  let t ← getTable
  Action.when (isStable 8 t.sizeControl = false) do
    recount

end Operations

end Comanche.Hstore
