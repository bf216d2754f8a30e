import Comanche.Lib.Run
import Mathlib.Data.List.Nodup

/-!
# Page faults served from user space

The fault handler of the module `copager` keeps a request on its stack, puts a pointer to it into a fifo
and waits in a loop for its signal.
-/

namespace Comanche.Kernel.Copager

open Lib
open Function (forall_update_iff update update_of_ne update_self)

/-- `service_request_t`. `phys` is `addr[ADDR_IDX_PHYS]`, which is also the address of the fault. -/
structure ServiceRequest where
  signal : Nat
  thisPtr : Nat
  pid : Nat
  phys : Nat
  inval : Nat
  deriving DecidableEq

structure Vma where
  mm : Nat
  start : Nat
  stop : Nat

inductive HandlerPc where
  | post
  | wait
  /-- The loop has been left since the time is over, and the signal is looked at once more. -/
  | last
  | check
  | aligned
  | insert
  | zap
  deriving DecidableEq

/-- A fault handler with its stack frame. `id` is the number of the fault. -/
structure Handler where
  id : Nat
  pid : Nat
  vma : Vma
  virt : Nat
  sr : ServiceRequest
  signal : Bool
  pc : HandlerPc

def Handler.Waiting (h : Handler) : Prop := h.pc = .wait ∨ h.pc = .last

instance (h : Handler) : Decidable h.Waiting := inferInstanceAs (Decidable (_ ∨ _))

/-- What a thread in `copager_ioctl` does next. -/
inductive PagerPc where
  | idle
  | begun (sr : ServiceRequest)
  | writePhys (sr : ServiceRequest)
  | writeInval (sr : ServiceRequest)
  | writeSignal (sr : ServiceRequest)
  | testEmpty
  | waiting
  | testAgain
  | take
  /-- `copy_to_user` through `req`, which is not set if there was nothing in the fifo. -/
  | copy (req : Option Nat)
  deriving DecidableEq

inductive FaultResult where
  | retry
  | sigbus
  | nopage
  deriving DecidableEq

/-- `next` is the number of the next fault, `passed` are those passed up to a pager, `replied` the addresses written
into their requests and `installed` those in a page table. -/
structure Log where
  next : Nat
  passed : List Nat
  replied : List (Nat × Nat)
  installed : List (Nat × Nat)

/-- `handlers` are the frames by the addresses of their requests, `pte` the page tables and `returned` the results of
the handlers. -/
structure State where
  threads : Nat
  handlers : Nat → Option Handler
  fifo : List Nat
  pagers : Nat → PagerPc
  pte : Nat → Nat → Option Nat
  log : Log
  returned : List (Nat × FaultResult)

/-- The module after `copager_init`, with page tables of any contents. -/
def State.init (threads : Nat) (pte : Nat → Nat → Option Nat) : State :=
  ⟨threads, fun _ => none, [], fun _ => .idle, pte, ⟨0, [], [], []⟩, []⟩

def fifoSize : Nat := 32

def pageSize : Nat := 4096

def State.to (s : State) (t : Nat) (pc : PagerPc) : State := { s with pagers := update s.pagers t pc }

namespace State

def set (s : State) (a : Nat) (h : Handler) : State := { s with handlers := update s.handlers a (some h) }

def leave (s : State) (a : Nat) (h : Handler) (result : FaultResult) : State :=
  { s with handlers := update s.handlers a none, returned := s.returned ++ [(h.id, result)] }

/-- The start of `copager_vma_fault`, up to `kfifo_put`, with a frame at `a`. `inval` is what was on the stack. -/
def fault (s : State) (offset a pid : Nat) (vma : Vma) (virt inval : Nat) : State :=
  { s.set a ⟨s.log.next, pid, vma, virt, ⟨a + offset, a, pid, virt, inval⟩, false, .post⟩ with
    log := { s.log with next := s.log.next + 1 } }

def kfifoPut (s : State) (a : Nat) : State := { s with fifo := if s.fifo.length < fifoSize then s.fifo ++ [a] else s.fifo }

def setPte (s : State) (mm page : Nat) (entry : Option Nat) : State :=
  { s with pte := update s.pte mm (update (s.pte mm) page entry) }

/-- `vm_insert_pfn`, which fails if there is an entry or no memory for one. Its result is not looked at. -/
def vmInsertPfn (s : State) (h : Handler) (room : Bool) : State :=
  if s.pte h.vma.mm (h.virt / pageSize) = none ∧ room = true then
    { s.setPte h.vma.mm (h.virt / pageSize) (some (h.sr.phys / pageSize)) with
      log := { s.log with installed := s.log.installed ++ [(h.id, h.sr.phys)] } }
  else s

def zapVmaPtes (s : State) (h : Handler) : State :=
  if h.sr.inval ≠ 0 ∧ h.vma.start ≤ h.sr.inval ∧ h.sr.inval + pageSize ≤ h.vma.stop then
    s.setPte h.vma.mm (h.sr.inval / pageSize) none
  else s

def handlerStep (s : State) (a : Nat) (late room : Bool) (h : Handler) : Option State :=
  match h.pc with
  | .post => some ((s.set a { h with pc := .wait }).kfifoPut a)
  | .wait =>
    if h.signal then some (s.set a { h with pc := .check })
    else if late then some (s.set a { h with pc := .last })
    else some s
  | .last => if h.signal then some (s.set a { h with pc := .check }) else some (s.leave a h .retry)
  | .check =>
    if h.sr.pid ≠ h.pid then none
    else if h.sr.phys = 0 then some (s.leave a h .sigbus)
    else some (s.set a { h with pc := .aligned })
  | .aligned =>
    if h.sr.inval % pageSize ≠ 0 ∨ h.sr.phys % pageSize ≠ 0 then some (s.leave a h .sigbus)
    else some (s.set a { h with pc := .insert })
  | .insert => some ((s.vmInsertPfn h room).set a { h with pc := .zap })
  | .zap => some ((s.zapVmaPtes h).leave a h .nopage)

/-- The handler whose signal is at `p`: a signal is `offset` bytes behind the request of its frame. -/
def signalled (s : State) (offset p : Nat) : Option Handler := if offset ≤ p then s.handlers (p - offset) else none

def kfifoOut (s : State) (t : Nat) : State :=
  match s.fifo with
  | [] => s.to t (.copy none)
  | a :: fifo => { s.to t (.copy (some a)) with fifo := fifo }

def passUp (s : State) (a : Nat) : State :=
  match s.handlers a with
  | none => s
  | some h => { s with log := { s.log with passed := s.log.passed ++ [h.id] } }

/-- One step of thread `t` in `copager_ioctl`. A write to where no request is may change anything. `ok` tells whether
the wait is not interrupted, and whether `copy_to_user` succeeds. -/
def pagerStep (s : State) (offset t : Nat) (ok : Bool) : PagerPc → Option State
  | .idle => none
  | .begun sr =>
    if sr.signal = 0 then some (s.to t .testEmpty)
    else if sr.thisPtr = 0 then none
    else some (s.to t (.writePhys sr))
  | .writePhys sr =>
    (s.handlers sr.thisPtr).map fun h =>
      { (s.set sr.thisPtr { h with sr := { h.sr with phys := sr.phys } }).to t (.writeInval sr) with
        log := { s.log with replied := s.log.replied ++ [(h.id, sr.phys)] } }
  | .writeInval sr =>
    (s.handlers sr.thisPtr).map fun h =>
      (s.set sr.thisPtr { h with sr := { h.sr with inval := sr.inval } }).to t (.writeSignal sr)
  | .writeSignal sr =>
    (s.signalled offset sr.signal).map fun h => (s.set (sr.signal - offset) { h with signal := true }).to t .testEmpty
  | .testEmpty => some (s.to t (if s.fifo = [] then .waiting else .take))
  | .waiting => some (s.to t (if ok then .testAgain else .idle))
  | .testAgain => some (s.to t (if s.fifo = [] then .idle else .take))
  | .take => some (s.kfifoOut t)
  | .copy none => some (s.to t .idle)
  | .copy (some a) => if ok then some ((s.passUp a).to t .idle) else some (s.to t .idle)

end State

inductive Event where
  | fault (a pid : Nat) (vma : Vma) (virt inval : Nat)
  | handler (a : Nat) (late room : Bool)
  | ioctl (t : Nat) (sr : ServiceRequest)
  | pager (t : Nat) (ok : Bool)

def step (offset : Nat) (s : State) : Event → Option State
  | .fault a pid vma virt inval => if s.handlers a = none then some (s.fault offset a pid vma virt inval) else none
  | .handler a late room => (s.handlers a).bind (s.handlerStep a late room)
  | .ioctl t sr => if t < s.threads ∧ s.pagers t = .idle then some (s.to t (.begun sr)) else none
  | .pager t ok => s.pagerStep offset t ok (s.pagers t)

/-- Writes go into requests of handlers that wait, a request is passed up once while its handler waits, the call returns
0 only with a request, and a handler `VM_FAULT_NOPAGE` only when an address replied for its fault is installed. -/
def Holds (offset : Nat) (s : State) : Event → Prop
  | .pager t ok =>
    match s.pagers t with
    | .writePhys sr => ∃ h ∈ s.handlers sr.thisPtr, h.Waiting
    | .writeInval sr => ∃ h ∈ s.handlers sr.thisPtr, h.Waiting
    | .writeSignal sr => ∃ h ∈ s.signalled offset sr.signal, h.Waiting
    | .copy req => ok = true → ∃ a ∈ req, ∃ h ∈ s.handlers a, h.Waiting ∧ h.id ∉ s.log.passed
    | _ => True
  | .handler a _ _ =>
    ∀ h ∈ s.handlers a, h.pc = .zap → ∃ phys, (h.id, phys) ∈ s.log.replied ∧ (h.id, phys) ∈ s.log.installed
  | _ => True

/-- The pointer to the request at `a` is in the fifo, or a pager has taken it and not yet passed the request up. -/
def State.Queued (s : State) (a : Nat) : Prop := a ∈ s.fifo ∨ ∃ t < s.threads, s.pagers t = .copy (some a)

/-- The request that an answer is being written to. -/
def PagerPc.answers : PagerPc → Option Nat
  | .writePhys sr | .writeInval sr | .writeSignal sr => some sr.thisPtr
  | _ => none

def State.Outstanding (s : State) (a : Nat) : Prop := s.Queued a ∨ ∃ t < s.threads, (s.pagers t).answers = some a

instance (s : State) (a : Nat) : Decidable (s.Outstanding a) := inferInstanceAs (Decidable ((_ ∨ _) ∨ _))

/-- A pager answers a request whose handler waits, with the signal of that request. A handler does not stop waiting while
its request is on the way to a pager or an answer is being written to it, the fifo is not empty when a pager takes from
it, and an installed page had no entry. -/
def Safe (offset : Nat) (s : State) : Event → Prop
  | .pager t _ =>
    match s.pagers t with
    | .begun sr => sr.signal ≠ 0 → sr.signal = sr.thisPtr + offset ∧ ∃ h ∈ s.handlers sr.thisPtr, h.Waiting
    | .take => s.fifo ≠ []
    | _ => True
  | .handler a _ room =>
    ∀ h ∈ s.handlers a,
      (h.signal = true ∨ h.pc = .last → ¬ s.Outstanding a) ∧
        (h.pc = .insert → s.pte h.vma.mm (h.virt / pageSize) = none ∧ room = true)
  | _ => True

variable {s s' : State} {offset a t : Nat} {h : Handler}

def Replied (l : Log) (id : Nat) : Prop := ∃ phys, (id, phys) ∈ l.replied

def Unseen (s : State) (a : Nat) : Prop := ∃ h ∈ s.handlers a, h.Waiting ∧ h.id ∉ s.log.passed

structure Good (l : Log) (h : Handler) : Prop where
  old : h.id < l.next
  fresh : h.pc = .post → h.id ∉ l.passed
  signal : h.signal = true → Replied l h.id
  left : h.pc ≠ .post → ¬ h.Waiting → Replied l h.id
  phys : Replied l h.id → (h.id, h.sr.phys) ∈ l.replied
  zap : h.pc = .zap → ∃ phys, (h.id, phys) ∈ l.replied ∧ (h.id, phys) ∈ l.installed

def Fits (offset : Nat) (s : State) : PagerPc → Prop
  | .writePhys sr => sr.signal = sr.thisPtr + offset ∧ ∃ h ∈ s.handlers sr.thisPtr, h.Waiting
  | .writeInval sr | .writeSignal sr =>
    sr.signal = sr.thisPtr + offset ∧ ∃ h ∈ s.handlers sr.thisPtr, h.Waiting ∧ Replied s.log h.id
  | .copy req => req ≠ none
  | _ => True

structure State.Inv (offset : Nat) (s : State) : Prop where
  inside : ∀ t, s.pagers t ≠ .idle → t < s.threads
  passedOld : ∀ id ∈ s.log.passed, id < s.log.next
  repliedOld : ∀ id, Replied s.log id → id < s.log.next
  distinct : ∀ a b, ∀ h ∈ s.handlers a, ∀ h' ∈ s.handlers b, h.id = h'.id → a = b
  good : ∀ a, ∀ h ∈ s.handlers a, Good s.log h
  fits : ∀ t, Fits offset s (s.pagers t)
  unseen : ∀ a, s.Queued a → Unseen s a
  once : s.fifo.Nodup
  apart : ∀ t a, s.pagers t = .copy (some a) → a ∉ s.fifo
  single : ∀ t t' a, s.pagers t = .copy (some a) → s.pagers t' = .copy (some a) → t = t'

theorem init_inv (threads : Nat) (pte : Nat → Nat → Option Nat) : (State.init threads pte).Inv offset where
  inside _ ht := absurd rfl ht
  passedOld _ hid := absurd hid List.not_mem_nil
  repliedOld _ hid := absurd hid.choose_spec List.not_mem_nil
  distinct _ _ _ hh := nomatch hh
  good _ _ hh := nomatch hh
  fits _ := trivial
  unseen _ ha := ha.elim (fun ha => absurd ha List.not_mem_nil) fun ⟨_, _, ht⟩ => nomatch ht
  once := List.nodup_nil
  apart _ _ ht := nomatch ht
  single _ _ _ ht := nomatch ht

namespace State.Inv

section

variable (hinv : s.Inv offset)
include hinv

theorem outstanding (ht : (s.pagers t).answers = some a) : s.Outstanding a :=
  Or.inr ⟨t, hinv.inside t (fun hidle => nomatch (congrArg PagerPc.answers hidle).symm.trans ht), ht⟩

theorem waits (ha : s.Outstanding a) : ∃ h ∈ s.handlers a, h.Waiting := by
  obtain ha | ⟨t, -, ht⟩ := ha
  · exact (hinv.unseen a ha).imp fun _ => And.imp_right And.left
  · have hfits := hinv.fits t
    generalize s.pagers t = pc at hfits ht
    cases pc with
    | writePhys sr =>
      cases ht
      exact hfits.2
    | writeInval sr | writeSignal sr =>
      cases ht
      exact hfits.2.imp fun _ => And.imp_right And.left
    | _ => cases ht

theorem not_outstanding (hh : s.handlers a = some h) (hwait : ¬ h.Waiting) : ¬ s.Outstanding a := by
  intro ha
  obtain ⟨h', hh', hwait'⟩ := hinv.waits ha
  exact hwait (Option.some.inj (hh.symm.trans hh') ▸ hwait')

/-- Requests and answers find their handlers as long as those that have one outstanding wait. -/
theorem keep (s' : State) (hpagers : s'.pagers = s.pagers) (hqueued : s'.Queued = s.Queued)
    (hpassed : s'.log.passed = s.log.passed) (hmono : ∀ id, Replied s.log id → Replied s'.log id)
    (hkeep : ∀ b, s.Outstanding b → ∀ h ∈ s.handlers b, h.Waiting → ∃ h' ∈ s'.handlers b, h'.Waiting ∧ h'.id = h.id) :
    (∀ b, s'.Queued b → Unseen s' b) ∧ ∀ t, Fits offset s' (s'.pagers t) := by
  refine ⟨fun b hb => ?_, fun t => ?_⟩
  · rw [hqueued] at hb
    obtain ⟨h, hh, hwait, hnot⟩ := hinv.unseen b hb
    obtain ⟨h', hh', hwait', hid⟩ := hkeep b (Or.inl hb) h hh hwait
    exact ⟨h', hh', hwait', by rwa [hid, hpassed]⟩
  · have hfits := hinv.fits t
    have hout {a : Nat} := hinv.outstanding (t := t) (a := a)
    rw [hpagers]
    generalize s.pagers t = pc at hfits hout
    cases pc with
    | writePhys sr =>
      obtain ⟨hsignal, h, hh, hwait⟩ := hfits
      obtain ⟨h', hh', hwait', -⟩ := hkeep _ (hout rfl) h hh hwait
      exact ⟨hsignal, h', hh', hwait'⟩
    | writeInval sr | writeSignal sr =>
      obtain ⟨hsignal, h, hh, hwait, hreplied⟩ := hfits
      obtain ⟨h', hh', hwait', hid⟩ := hkeep _ (hout rfl) h hh hwait
      exact ⟨hsignal, h', hh', hwait', hid ▸ hmono _ hreplied⟩
    | copy req => exact hfits
    | _ => trivial

theorem setReplied (hh : s.handlers a = some h) (h' : Handler) (hid : h'.id = h.id) {replied : List (Nat × Nat)}
    (hmono : ∀ id, Replied s.log id → Replied { s.log with replied := replied } id)
    (hold : ∀ id, Replied { s.log with replied := replied } id → id < s.log.next)
    (hgood : Good { s.log with replied := replied } h')
    (hothers : ∀ b ≠ a, ∀ h₁ ∈ s.handlers b, Good { s.log with replied := replied } h₁)
    (hwait : s.Outstanding a → h'.Waiting) :
    ({ s.set a h' with log := { s.log with replied := replied } } : State).Inv offset := by
  obtain ⟨hunseen, hfits⟩ := hinv.keep { s.set a h' with log := { s.log with replied := replied } } rfl rfl rfl hmono
    fun b hb h₁ hh₁ hwait₁ => by
      by_cases hba : b = a
      · subst hba
        obtain rfl := Option.some.inj (hh.symm.trans hh₁)
        exact ⟨h', update_self .., hwait hb, hid⟩
      · exact ⟨h₁, (update_of_ne hba ..).trans hh₁, hwait₁, rfl⟩
  refine { hinv with
    repliedOld := hold, distinct := fun b c h₁ hb h₂ hc heq => ?_, good := ?_, fits := hfits, unseen := hunseen }
  · have hold : ∀ b, ∀ h₁ ∈ update s.handlers a (some h') b, ∃ h₀ ∈ s.handlers b, h₀.id = h₁.id :=
      (forall_update_iff s.handlers fun b o => ∀ h₁ ∈ o, ∃ h₀ ∈ s.handlers b, h₀.id = h₁.id).mpr
        ⟨fun h₁ hh₁ => ⟨h, hh, Option.some.inj hh₁ ▸ hid.symm⟩, fun b _ h₁ hh₁ => ⟨h₁, hh₁, rfl⟩⟩
    obtain ⟨h₁', hb', hid₁⟩ := hold b h₁ hb
    obtain ⟨h₂', hc', hid₂⟩ := hold c h₂ hc
    exact hinv.distinct b c h₁' hb' h₂' hc' (hid₁.trans (heq.trans hid₂.symm))
  · exact (forall_update_iff s.handlers fun _ o => ∀ h₁ ∈ o, Good { s.log with replied := replied } h₁).mpr
      ⟨fun h₁ hh₁ => Option.some.inj hh₁ ▸ hgood, hothers⟩

theorem set (hh : s.handlers a = some h) (h' : Handler) (hid : h'.id = h.id) (hgood : Good s.log h')
    (hwait : s.Outstanding a → h'.Waiting) : (s.set a h').Inv offset :=
  hinv.setReplied hh h' hid (fun _ => id) hinv.repliedOld hgood (fun b _ => hinv.good b) hwait

theorem leave (hout : ¬ s.Outstanding a) (result : FaultResult) : (s.leave a h result).Inv offset := by
  obtain ⟨hunseen, hfits⟩ := hinv.keep (s.leave a h result) rfl rfl rfl (fun _ => id) fun b hb h₁ hh₁ hwait =>
    have hba : b ≠ a := fun heq => hout (heq ▸ hb)
    ⟨h₁, (update_of_ne hba ..).trans hh₁, hwait, rfl⟩
  have hold : ∀ b, ∀ h₁ ∈ update s.handlers a none b, h₁ ∈ s.handlers b :=
    (forall_update_iff s.handlers fun b o => ∀ h₁ ∈ o, h₁ ∈ s.handlers b).mpr
      ⟨fun h₁ hh₁ => (nomatch hh₁), fun b _ h₁ hh₁ => hh₁⟩
  exact { hinv with
    distinct b c h₁ hb h₂ hc := hinv.distinct b c h₁ (hold b h₁ hb) h₂ (hold c h₂ hc)
    good b h₁ hb := hinv.good b h₁ (hold b h₁ hb)
    fits := hfits
    unseen := hunseen }

theorem setPte (mm page : Nat) (entry : Option Nat) : (s.setPte mm page entry).Inv offset :=
  { hinv with }

theorem fault (hfree : s.handlers a = none) (pid : Nat) (vma : Vma) (virt inval : Nat) :
    (s.fault offset a pid vma virt inval).Inv offset := by
  obtain ⟨hunseen, hfits⟩ := hinv.keep (s.fault offset a pid vma virt inval) rfl rfl rfl (fun _ => id)
    fun b _ h₁ hh₁ hwait =>
      have hba : b ≠ a := fun heq => Option.some_ne_none h₁ (hh₁.symm.trans (heq ▸ hfree))
      ⟨h₁, (update_of_ne hba ..).trans hh₁, hwait, rfl⟩
  exact { hinv with
    passedOld id hid := Nat.lt_succ_of_lt (hinv.passedOld id hid)
    repliedOld id hid := Nat.lt_succ_of_lt (hinv.repliedOld id hid)
    distinct b c h₁ hb h₂ hc heq := by
      -- the number of the new fault is not that of another
      have hcases : ∀ b, ∀ h₁ ∈ (s.fault offset a pid vma virt inval).handlers b,
          (b = a ∧ h₁.id = s.log.next) ∨ h₁ ∈ s.handlers b :=
        (forall_update_iff s.handlers fun b o => ∀ h₁ ∈ o, (b = a ∧ h₁.id = s.log.next) ∨ h₁ ∈ s.handlers b).mpr
          ⟨fun h₁ hh₁ => Or.inl ⟨rfl, Option.some.inj hh₁ ▸ rfl⟩, fun b _ h₁ hh₁ => Or.inr hh₁⟩
      obtain ⟨hba, hid₁⟩ | hb := hcases b h₁ hb
      · obtain ⟨hca, -⟩ | hc := hcases c h₂ hc
        · exact hba.trans hca.symm
        · exact absurd (heq.symm.trans hid₁) (Nat.ne_of_lt (hinv.good c h₂ hc).old)
      · obtain ⟨-, hid₂⟩ | hc := hcases c h₂ hc
        · exact absurd (heq.trans hid₂) (Nat.ne_of_lt (hinv.good b h₁ hb).old)
        · exact hinv.distinct b c h₁ hb h₂ hc heq
    good := by
      have hnew : ¬ Replied s.log s.log.next := fun h => Nat.lt_irrefl _ (hinv.repliedOld _ h)
      refine (forall_update_iff s.handlers fun _ o => ∀ h₁ ∈ o, Good _ h₁).mpr ⟨fun h₁ hh₁ => ?_, fun b _ h₁ hh₁ => ?_⟩
      · obtain rfl := Option.some.inj hh₁
        exact ⟨Nat.lt_succ_self _, fun _ hid => Nat.lt_irrefl _ (hinv.passedOld _ hid), Bool.noConfusion,
          fun hpc => absurd rfl hpc, fun h => absurd h hnew, nofun⟩
      · have hgood := hinv.good b h₁ hh₁
        exact { hgood with old := Nat.lt_succ_of_lt hgood.old }
    fits := hfits
    unseen := hunseen }

theorem kfifoPut (hout : ¬ s.Queued a) (hunseen : Unseen s a) : (s.kfifoPut a).Inv offset := by
  obtain ⟨hfifo, hpager⟩ := not_or.mp hout
  unfold State.kfifoPut
  split
  · refine { hinv with unseen := fun b hb => ?_, once := ?_, apart := fun t b ht hb => ?_ }
    · obtain hb | hb := hb
      · obtain hb | hb := List.mem_append.mp hb
        · exact hinv.unseen b (Or.inl hb)
        · exact List.mem_singleton.mp hb ▸ hunseen
      · exact hinv.unseen b (Or.inr hb)
    · exact List.nodup_append.mpr ⟨hinv.once, List.nodup_singleton a, fun b hb c hc heq =>
        hfifo (List.mem_singleton.mp hc ▸ heq ▸ hb)⟩
    · obtain hb | hb := List.mem_append.mp hb
      · exact hinv.apart t b ht hb
      · obtain rfl := List.mem_singleton.mp hb
        exact hpager ⟨t, hinv.inside t (fun hidle => nomatch hidle.symm.trans ht), ht⟩
  · exact hinv

theorem vmInsertPfn (h : Handler) (room : Bool) : (s.vmInsertPfn h room).Inv offset := by
  unfold State.vmInsertPfn
  split
  · refine { hinv with good := fun b h₁ hh₁ => ?_ }
    have hgood := hinv.good b h₁ hh₁
    exact { hgood with zap := fun hpc => (hgood.zap hpc).imp fun phys => And.imp_right (List.mem_append_left _) }
  · exact hinv

theorem zapVmaPtes (h : Handler) : (s.zapVmaPtes h).Inv offset := by
  unfold State.zapVmaPtes
  split
  · exact hinv.setPte _ _ _
  · exact hinv

end

end State.Inv

theorem Good.goOn {l : Log} (hgood : Good l h) {pc : HandlerPc} (hpost : pc ≠ .post)
    (hleft : pc ≠ .wait → pc ≠ .last → Replied l h.id)
    (hzap : pc = .zap → ∃ phys, (h.id, phys) ∈ l.replied ∧ (h.id, phys) ∈ l.installed) : Good l { h with pc := pc } :=
  { hgood with
    fresh hpc := absurd hpc hpost
    left _ hwait := hleft (fun h => hwait (Or.inl h)) fun h => hwait (Or.inr h)
    zap := hzap }

theorem vmInsertPfn_installed {room : Bool} (hpte : s.pte h.vma.mm (h.virt / pageSize) = none ∧ room = true) :
    (s.vmInsertPfn h room).log = { s.log with installed := s.log.installed ++ [(h.id, h.sr.phys)] } := by
  unfold State.vmInsertPfn
  rw [if_pos hpte]

theorem vmInsertPfn_handlers (s : State) (h : Handler) (room : Bool) : (s.vmInsertPfn h room).handlers = s.handlers := by
  unfold State.vmInsertPfn
  split <;> rfl

section

variable (hinv : s.Inv offset) (hh : s.handlers a = some h)
include hinv hh

theorem State.Inv.advance {pc : HandlerPc} (hreplied : Replied s.log h.id) (hout : ¬ s.Outstanding a)
    (hpost : pc ≠ .post) (hzap : pc = .zap → ∃ phys, (h.id, phys) ∈ s.log.replied ∧ (h.id, phys) ∈ s.log.installed) :
    (s.set a { h with pc := pc }).Inv offset :=
  hinv.set hh _ rfl ((hinv.good a h hh).goOn hpost (fun _ _ => hreplied) hzap) fun ha => absurd ha hout

theorem State.Inv.post (hpc : h.pc = .post) : ((s.set a { h with pc := .wait }).kfifoPut a).Inv offset := by
  have hgood := hinv.good a h hh
  have hout : ¬ s.Outstanding a := hinv.not_outstanding hh fun hwait => by
    rw [Handler.Waiting, hpc] at hwait
    exact hwait.elim nofun nofun
  have hset : (s.set a { h with pc := .wait }).Inv offset :=
    hinv.set hh _ rfl (hgood.goOn nofun (fun hne => absurd rfl hne) nofun) fun _ => Or.inl rfl
  exact hset.kfifoPut (fun ha => hout (Or.inl ha)) ⟨_, update_self .., Or.inl rfl, hgood.fresh hpc⟩

theorem State.Inv.insert {room : Bool} (hreplied : Replied s.log h.id) (hout : ¬ s.Outstanding a)
    (hpte : s.pte h.vma.mm (h.virt / pageSize) = none ∧ room = true) :
    ((s.vmInsertPfn h room).set a { h with pc := .zap }).Inv offset := by
  have hlog := vmInsertPfn_installed hpte
  refine (hinv.vmInsertPfn h room).advance ((vmInsertPfn_handlers s h room).symm ▸ hh) ?_ ?_ nofun fun _ => ?_
  · rw [hlog]
    exact hreplied
  · unfold State.vmInsertPfn
    rw [if_pos hpte]
    exact hout
  · rw [hlog]
    exact ⟨h.sr.phys, (hinv.good a h hh).phys hreplied, List.mem_append_right _ (List.mem_singleton.mpr rfl)⟩

theorem State.Inv.handlerStep {late room : Bool} (hend : h.signal = true ∨ h.pc = .last → ¬ s.Outstanding a)
    (hpte : h.pc = .insert → s.pte h.vma.mm (h.virt / pageSize) = none ∧ room = true)
    (hs' : s' ∈ s.handlerStep a late room h) : s'.Inv offset := by
  have hgood := hinv.good a h hh
  -- when the loop has been left a reply has come and no pointer is left
  have hafter {pc : HandlerPc} (hpc : h.pc = pc) (hpost : pc ≠ .post) (hwait : pc ≠ .wait) (hlast : pc ≠ .last) :
      Replied s.log h.id ∧ ¬ s.Outstanding a := by
    subst hpc
    have hwaiting : ¬ h.Waiting := fun h => h.elim hwait hlast
    exact ⟨hgood.left hpost hwaiting, hinv.not_outstanding hh hwaiting⟩
  unfold State.handlerStep at hs'
  split at hs'
  case h_1 hpc => exact Option.some.inj hs' ▸ hinv.post hh hpc
  case h_2 hpc =>
    split at hs'
    · rename_i hsignal
      exact Option.some.inj hs' ▸ hinv.advance hh (hgood.signal hsignal) (hend (Or.inl hsignal)) nofun nofun
    · split at hs'
      · refine Option.some.inj hs' ▸ hinv.set hh _ rfl (hgood.goOn nofun ?_ nofun) fun _ => Or.inr rfl
        exact fun _ hne => absurd rfl hne
      · exact Option.some.inj hs' ▸ hinv
  case h_3 hpc =>
    split at hs'
    · rename_i hsignal
      exact Option.some.inj hs' ▸ hinv.advance hh (hgood.signal hsignal) (hend (Or.inl hsignal)) nofun nofun
    · exact Option.some.inj hs' ▸ hinv.leave (hend (Or.inr hpc)) .retry
  case h_4 hpc =>
    obtain ⟨hreplied, hout⟩ := hafter hpc nofun nofun nofun
    split at hs'
    · cases hs'
    split at hs'
    · exact Option.some.inj hs' ▸ hinv.leave hout .sigbus
    · exact Option.some.inj hs' ▸ hinv.advance hh hreplied hout nofun nofun
  case h_5 hpc =>
    obtain ⟨hreplied, hout⟩ := hafter hpc nofun nofun nofun
    split at hs'
    · exact Option.some.inj hs' ▸ hinv.leave hout .sigbus
    · exact Option.some.inj hs' ▸ hinv.advance hh hreplied hout nofun nofun
  case h_6 hpc =>
    obtain ⟨hreplied, hout⟩ := hafter hpc nofun nofun nofun
    exact Option.some.inj hs' ▸ hinv.insert hh hreplied hout (hpte hpc)
  case h_7 hpc =>
    obtain ⟨-, hout⟩ := hafter hpc nofun nofun nofun
    refine Option.some.inj hs' ▸ (hinv.zapVmaPtes h).leave ?_ .nopage
    unfold State.zapVmaPtes
    split
    · exact hout
    · exact hout

end

theorem to_copy {pc : PagerPc} (hcopy : ∀ a, pc ≠ .copy (some a)) {t' : Nat} (ht' : (s.to t pc).pagers t' = .copy (some a)) :
    s.pagers t' = .copy (some a) ∧ t' ≠ t := by
  have hne : t' ≠ t := by
    rintro rfl
    exact hcopy a ((update_self ..).symm.trans ht')
  exact ⟨(update_of_ne hne ..).symm.trans ht', hne⟩

theorem State.Inv.to (hinv : s.Inv offset) {pc : PagerPc} (ht : t < s.threads) (hfits : Fits offset s pc)
    (hcopy : ∀ a, pc ≠ .copy (some a)) : (s.to t pc).Inv offset := { hinv with
  inside := (forall_update_iff s.pagers fun t' pc' => pc' ≠ .idle → t' < s.threads).mpr
    ⟨fun _ => ht, fun t' _ => hinv.inside t'⟩
  fits := (forall_update_iff s.pagers fun _ pc' => Fits offset s pc').mpr ⟨hfits, fun t' _ => hinv.fits t'⟩
  unseen a ha := hinv.unseen a (ha.imp_right fun ⟨t', ht', hpc⟩ => ⟨t', ht', (to_copy hcopy hpc).1⟩)
  apart t' a ht' := hinv.apart t' a (to_copy hcopy ht').1
  single t₁ t₂ a h₁ h₂ := hinv.single t₁ t₂ a (to_copy hcopy h₁).1 (to_copy hcopy h₂).1 }

theorem State.Inv.kfifoOut (hinv : s.Inv offset) (ht : t < s.threads) (hfifo : s.fifo ≠ []) :
    (s.kfifoOut t).Inv offset := by
  unfold State.kfifoOut
  split
  · exact absurd ‹_› hfifo
  rename_i a fifo heq
  have hnodup := List.nodup_cons.mp (heq ▸ hinv.once)
  -- the pointer is in the hands of thread t only
  have hcopy (t' b : Nat) (ht' : update s.pagers t (.copy (some a)) t' = .copy (some b)) :
      (t' = t ∧ b = a) ∨ (t' ≠ t ∧ s.pagers t' = .copy (some b)) := by
    by_cases hne : t' = t
    · rw [hne, update_self] at ht'
      cases ht'
      exact Or.inl ⟨hne, rfl⟩
    · exact Or.inr ⟨hne, (update_of_ne hne ..).symm.trans ht'⟩
  have hother (t' : Nat) (ht' : s.pagers t' = .copy (some a)) : False := hinv.apart t' a ht' (heq ▸ List.mem_cons_self)
  refine ⟨?_, hinv.passedOld, hinv.repliedOld, hinv.distinct, hinv.good, ?_, fun b hb => ?_, hnodup.2,
    fun t' b ht' hb => ?_, fun t₁ t₂ b h₁ h₂ => ?_⟩
  · exact (forall_update_iff s.pagers fun t' pc' => pc' ≠ .idle → t' < s.threads).mpr
      ⟨fun _ => ht, fun t' _ => hinv.inside t'⟩
  · exact (forall_update_iff s.pagers fun _ pc' => Fits offset s pc').mpr
      ⟨Option.some_ne_none a, fun t' _ => hinv.fits t'⟩
  · obtain hb | ⟨t', ht', hpc'⟩ := hb
    · exact hinv.unseen b (Or.inl (heq ▸ List.mem_cons_of_mem a hb))
    · obtain ⟨-, rfl⟩ | ⟨-, hpc'⟩ := hcopy t' b hpc'
      · exact hinv.unseen b (Or.inl (heq ▸ List.mem_cons_self))
      · exact hinv.unseen b (Or.inr ⟨t', ht', hpc'⟩)
  · obtain ⟨-, rfl⟩ | ⟨-, hpc'⟩ := hcopy t' b ht'
    · exact hnodup.1 hb
    · exact hinv.apart t' b hpc' (heq ▸ List.mem_cons_of_mem a hb)
  · obtain ⟨rfl, rfl⟩ | ⟨-, hpc₁⟩ := hcopy t₁ b h₁
    · obtain ⟨rfl, -⟩ | ⟨-, hpc₂⟩ := hcopy t₂ b h₂
      · rfl
      · exact (hother t₂ hpc₂).elim
    · obtain ⟨rfl, rfl⟩ | ⟨-, hpc₂⟩ := hcopy t₂ b h₂
      · exact (hother t₁ hpc₁).elim
      · exact hinv.single t₁ t₂ b hpc₁ hpc₂

theorem State.Inv.passUp (hinv : s.Inv offset) (ht : t < s.threads) (hpc : s.pagers t = .copy (some a)) :
    ((s.passUp a).to t .idle).Inv offset := by
  obtain ⟨h, hh, hwait, hpassed⟩ := hinv.unseen a (Or.inr ⟨t, ht, hpc⟩)
  have hidle : (s.to t .idle).Inv offset := hinv.to ht trivial nofun
  have hid (b : Nat) (h₁ : Handler) (hh₁ : s.handlers b = some h₁) (hba : b ≠ a) : h₁.id ≠ h.id :=
    fun heq => hba (hinv.distinct b a h₁ hh₁ h hh heq)
  unfold State.passUp
  rw [hh]
  refine ⟨hidle.inside, fun id hmem => ?_, hidle.repliedOld, hidle.distinct, fun b h₁ hh₁ => ?_, hidle.fits, fun b hb => ?_,
    hidle.once, hidle.apart, hidle.single⟩
  · obtain hmem | hmem := List.mem_append.mp hmem
    · exact hinv.passedOld id hmem
    · exact List.mem_singleton.mp hmem ▸ (hinv.good a h hh).old
  · have hgood := hinv.good b h₁ hh₁
    refine { hgood with fresh := fun hpost hmem => ?_ }
    obtain hmem | hmem := List.mem_append.mp hmem
    · exact hgood.fresh hpost hmem
    · by_cases hba : b = a
      · subst hba
        obtain rfl := Option.some.inj (hh.symm.trans hh₁)
        exact hwait.elim (fun h => nomatch hpost.symm.trans h) fun h => nomatch hpost.symm.trans h
      · exact hid b h₁ hh₁ hba (List.mem_singleton.mp hmem)
  · have hba : b ≠ a := by
      rintro rfl
      obtain hb | ⟨t', -, hpc'⟩ := hb
      · exact hinv.apart t b hpc hb
      · obtain ⟨hpc', hne⟩ := to_copy (fun _ => PagerPc.noConfusion) hpc'
        exact hne (hinv.single t' t b hpc' hpc)
    obtain ⟨h₁, hh₁, hwait₁, hpassed₁⟩ := hidle.unseen b hb
    refine ⟨h₁, hh₁, hwait₁, fun hmem => ?_⟩
    obtain hmem | hmem := List.mem_append.mp hmem
    · exact hpassed₁ hmem
    · exact hid b h₁ hh₁ hba (List.mem_singleton.mp hmem)

theorem State.Inv.reply (hinv : s.Inv offset) (hh : s.handlers a = some h) (hwait : h.Waiting) (phys : Nat) :
    ({ s.set a { h with sr := { h.sr with phys := phys } } with
      log := { s.log with replied := s.log.replied ++ [(h.id, phys)] } } : State).Inv offset := by
  have hgood := hinv.good a h hh
  have hnew : (h.id, phys) ∈ s.log.replied ++ [(h.id, phys)] := List.mem_append_right _ (List.mem_singleton.mpr rfl)
  have hmono (id : Nat) : Replied s.log id → Replied { s.log with replied := s.log.replied ++ [(h.id, phys)] } id :=
    Exists.imp fun _ => List.mem_append_left _
  have hcases (id : Nat) (hid : Replied { s.log with replied := s.log.replied ++ [(h.id, phys)] } id) :
      Replied s.log id ∨ id = h.id := by
    obtain ⟨phys', hmem⟩ := hid
    exact (List.mem_append.mp hmem).imp (fun hmem => ⟨phys', hmem⟩) fun hmem => congrArg Prod.fst (List.mem_singleton.mp hmem)
  have hzap {id : Nat} (hzap : ∃ phys', (id, phys') ∈ s.log.replied ∧ (id, phys') ∈ s.log.installed) :
      ∃ phys', (id, phys') ∈ s.log.replied ++ [(h.id, phys)] ∧ (id, phys') ∈ s.log.installed :=
    hzap.imp fun _ => And.imp_left (List.mem_append_left _)
  refine hinv.setReplied hh { h with sr := { h.sr with phys := phys } } rfl hmono (fun id hid => ?_) ?_ (fun b hb h₁ hh₁ => ?_) fun _ => hwait
  · obtain hid | rfl := hcases id hid
    · exact hinv.repliedOld id hid
    · exact hgood.old
  · exact ⟨hgood.old, hgood.fresh, fun _ => ⟨phys, hnew⟩, fun _ _ => ⟨phys, hnew⟩, fun _ => hnew, fun hpc => hzap (hgood.zap hpc)⟩
  · have hgood := hinv.good b h₁ hh₁
    refine ⟨hgood.old, hgood.fresh, fun hsignal => hmono _ (hgood.signal hsignal),
      fun hpost hwait => hmono _ (hgood.left hpost hwait), fun hreplied => ?_, fun hpc => hzap (hgood.zap hpc)⟩
    obtain hreplied | heq := hcases h₁.id hreplied
    · exact List.mem_append_left _ (hgood.phys hreplied)
    · exact absurd (hinv.distinct b a h₁ hh₁ h hh heq) hb

theorem signalled_of_signal {p : Nat} (hp : p = a + offset) : s.signalled offset p = s.handlers a := by
  unfold State.signalled
  rw [hp, if_pos (Nat.le_add_left offset a), Nat.add_sub_cancel]

theorem State.Inv.pagerStep (hinv : s.Inv offset) {ok : Bool} (hsafe : Safe offset s (.pager t ok))
    (hs' : s' ∈ step offset s (.pager t ok)) : s'.Inv offset := by
  have hfits := hinv.fits t
  have hinside := hinv.inside t
  rw [step] at hs'
  rw [Safe] at hsafe
  cases hpc : s.pagers t with
  | idle =>
    rw [hpc] at hs'
    cases hs'
  | begun sr =>
    rw [hpc] at hs' hinside hsafe
    change s' ∈ ite _ _ _ at hs'
    have ht := hinside nofun
    split at hs'
    · exact Option.some.inj hs' ▸ hinv.to ht trivial nofun
    · rename_i hsignal
      split at hs'
      · cases hs'
      · exact Option.some.inj hs' ▸ hinv.to ht (hsafe hsignal) nofun
  | writePhys sr =>
    rw [hpc] at hs' hinside hfits
    obtain ⟨hsignal, h, hh, hwait⟩ := hfits
    obtain ⟨h', hh', rfl⟩ := Option.map_eq_some_iff.mp hs'
    obtain rfl := Option.some.inj (hh.symm.trans hh')
    refine (hinv.reply hh hwait sr.phys).to (hinside nofun) ⟨hsignal, _, update_self .., hwait, sr.phys, ?_⟩ nofun
    exact List.mem_append_right _ (List.mem_singleton.mpr rfl)
  | writeInval sr =>
    rw [hpc] at hs' hinside hfits
    obtain ⟨hsignal, h, hh, hwait, hreplied⟩ := hfits
    obtain ⟨h', hh', rfl⟩ := Option.map_eq_some_iff.mp hs'
    obtain rfl := Option.some.inj (hh.symm.trans hh')
    have hset := hinv.set hh { h with sr := { h.sr with inval := sr.inval } } rfl { hinv.good _ h hh with } fun _ => hwait
    exact hset.to (hinside nofun) ⟨hsignal, _, update_self .., hwait, hreplied⟩ nofun
  | writeSignal sr =>
    rw [hpc] at hs' hinside hfits
    obtain ⟨hsignal, h, hh, hwait, hreplied⟩ := hfits
    obtain ⟨h', hh', rfl⟩ := Option.map_eq_some_iff.mp hs'
    rw [signalled_of_signal hsignal] at hh'
    obtain rfl := Option.some.inj (hh.symm.trans hh')
    have hset := hinv.set hh { h with signal := true } rfl { hinv.good _ h hh with signal := fun _ => hreplied } fun _ => hwait
    rw [hsignal, Nat.add_sub_cancel]
    exact hset.to (hinside nofun) trivial nofun
  | testEmpty | waiting | testAgain =>
    rw [hpc] at hs' hinside
    refine Option.some.inj hs' ▸ hinv.to (hinside nofun) ?_ ?_
    · split <;> trivial
    · split <;> exact nofun
  | take =>
    rw [hpc] at hs' hinside hsafe
    exact Option.some.inj hs' ▸ hinv.kfifoOut (hinside nofun) hsafe
  | copy req =>
    rw [hpc] at hs' hinside hfits
    have ht := hinside nofun
    obtain ⟨a, rfl⟩ := Option.ne_none_iff_exists'.mp hfits
    cases ok with
    | true => exact Option.some.inj hs' ▸ hinv.passUp ht hpc
    | false => exact Option.some.inj hs' ▸ hinv.to ht trivial nofun

theorem State.Inv.step {e : Event} (hinv : s.Inv offset) (hsafe : Safe offset s e) (hs' : s' ∈ step offset s e) :
    s'.Inv offset := by
  cases e with
  | fault a pid vma virt inval =>
    obtain ⟨hfree, hs'⟩ := Option.ite_none_right_eq_some.mp hs'
    exact Option.some.inj hs' ▸ hinv.fault hfree pid vma virt inval
  | handler a late room =>
    obtain ⟨h, hh, hs'⟩ := Option.bind_eq_some_iff.mp hs'
    exact hinv.handlerStep hh (hsafe h hh).1 (hsafe h hh).2 hs'
  | ioctl t sr =>
    obtain ⟨⟨ht, -⟩, hs'⟩ := Option.ite_none_right_eq_some.mp hs'
    exact Option.some.inj hs' ▸ hinv.to ht trivial nofun
  | pager t ok => exact hinv.pagerStep hsafe hs'

theorem State.Inv.holds {e : Event} (hinv : s.Inv offset) : Holds offset s e := by
  cases e with
  | fault a pid vma virt inval | ioctl t sr => trivial
  | handler a late room => exact fun h hh => (hinv.good a h hh).zap
  | pager t ok =>
    have hfits := hinv.fits t
    have hinside := hinv.inside t
    rw [Holds]
    cases hpc : s.pagers t with
    | writePhys sr | writeInval sr => exact hinv.waits (hinv.outstanding (congrArg PagerPc.answers hpc))
    | writeSignal sr =>
      rw [hpc] at hfits
      change ∃ h ∈ s.signalled offset sr.signal, h.Waiting
      rw [signalled_of_signal hfits.1]
      exact hinv.waits (hinv.outstanding (congrArg PagerPc.answers hpc))
    | copy req =>
      rw [hpc] at hfits hinside
      intro _
      obtain ⟨a, rfl⟩ := Option.ne_none_iff_exists'.mp hfits
      exact ⟨a, rfl, hinv.unseen a (Or.inr ⟨t, hinside nofun, hpc⟩)⟩
    | idle | begun sr | testEmpty | waiting | testAgain | take => trivial

/-- In every interleaving of safe steps each fault is passed up once and answered, if at all, with a page that a pager
replied for it. -/
theorem answered_of_safe (offset threads : Nat) (pte : Nat → Nat → Option Nat) (es : List Event)
    (h : Throughout (step offset) (Safe offset) (.init threads pte) es) :
    Throughout (step offset) (Holds offset) (.init threads pte) es :=
  Throughout.imp (I := State.Inv offset) (fun _ _ hinv _ => hinv.holds)
    (fun _ _ _ hinv hsafe hs' => hinv.step hsafe hs') (init_inv threads pte) h

instance (offset : Nat) (s : State) (e : Event) : Decidable (Safe offset s e) := by
  unfold Safe
  repeat' split
  all_goals infer_instance

def servedEvents : List Event :=
  [.ioctl 0 ⟨0, 0, 0, 0, 0⟩, .pager 0 true, .pager 0 true,
    .fault 1000 7 ⟨0, 0, 65536⟩ 4096 0, .handler 1000 false true, .handler 1000 false true,
    .pager 0 true, .pager 0 true, .pager 0 true, .pager 0 true,
    .ioctl 0 ⟨1040, 1000, 7, 8192, 0⟩, .pager 0 true, .pager 0 true, .pager 0 true, .pager 0 true,
    .handler 1000 false true, .handler 1000 false true, .handler 1000 false true, .handler 1000 false true,
    .handler 1000 false true]

theorem answered_served :
    ((runs (step 40) (.init 1 fun _ _ => none) servedEvents).map State.returned = some [(0, .nopage)]) ∧
      Throughout (step 40) (Holds 40) (.init 1 fun _ _ => none) servedEvents :=
  ⟨by decide +kernel, answered_of_safe 40 1 (fun _ _ => none) servedEvents (by decide +kernel)⟩

def staleEvents : List Event :=
  [.fault 1000 7 ⟨0, 0, 65536⟩ 4096 0, .handler 1000 false true, .handler 1000 true true, .handler 1000 false true,
    .ioctl 0 ⟨0, 0, 0, 0, 0⟩, .pager 0 true, .pager 0 true, .pager 0 true, .pager 0 true]

/-- The request of a handler that is gone is passed up, through a pointer into its stack. -/
theorem not_answered : ¬ Throughout (step 40) (Holds 40) (.init 1 fun _ _ => none) staleEvents := by
  intro h
  have hlast := h.nth 8 (Option.get_mem (by decide +kernel)) rfl
  obtain ⟨a, ha, h, hh, -⟩ := hlast rfl
  cases ha
  cases hh

end Comanche.Kernel.Copager
