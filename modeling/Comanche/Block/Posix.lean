import Comanche.Lib.Run
import Mathlib.Data.List.Nodup

/-!
# Asynchronous I/O on a file

`Block_posix` gives each request a descriptor from a pool and a tag, and keeps the requests that are
outstanding in a list.
-/

namespace Comanche.Block.Posix

open Lib

def poolSize : Nat := 2048

def ioBlockSize : Nat := 4096

inductive Opcode where
  | read
  | write

structure Aiocb where
  buf : Nat
  offset : Nat
  nbytes : Nat
  opcode : Opcode
  notify : Bool

/-- `work_desc_t`: the descriptor, by its number, with what it was filled with. -/
structure Work where
  desc : Nat
  aiocb : Aiocb
  tag : Nat

/-- The descriptors that are free, the counter, the outstanding requests, oldest first, and whether a request
has finished. -/
structure State where
  pool : List Nat
  workId : Nat
  outstanding : List Work
  finished : Nat → Bool

def State.start : State := ⟨List.range poolSize, 1, [], fun _ => false⟩

structure Params where
  buffer : Nat
  bufferOffset : Nat
  lba : Nat
  lbaCount : Nat
  callback : Bool

/-- A request on a descriptor from the pool, which must not be empty. -/
def State.submit (s : State) (opcode : Opcode) (p : Params) : Option (Nat × State) :=
  s.pool.getLast?.map fun desc =>
    (s.workId + 1,
      { s with
        pool := s.pool.dropLast
        workId := s.workId + 1
        outstanding := s.outstanding ++ [⟨desc, ⟨p.buffer + p.bufferOffset, p.lba * ioBlockSize,
          p.lbaCount * ioBlockSize, opcode, p.callback⟩, s.workId + 1⟩] })

def State.asyncRead (s : State) (p : Params) : Option (Nat × State) := s.submit .read p

def State.asyncWrite (s : State) (p : Params) : Option (Nat × State) := s.submit .write p

structure Drained where
  answer : Bool
  outstanding : List Work
  pool : List Nat

def drain (finished : Nat → Bool) (workid : Nat) : List Work → List Nat → Drained
  | [], pool => ⟨true, [], pool⟩
  | w :: ws, pool =>
    if finished w.tag = false then ⟨false, w :: ws, pool⟩
    else if workid ≤ w.tag then ⟨true, ws, pool ++ [w.desc]⟩
    else drain finished workid ws (pool ++ [w.desc])

def State.checkCompletion (s : State) (gwid : Nat) : Except String (Bool × State) :=
  if s.workId < gwid then .error "invalid workid parameter"
  else
    let d := drain s.finished gwid s.outstanding s.pool
    .ok (d.answer, { s with outstanding := d.outstanding, pool := d.pool })

inductive Event where
  | read (p : Params)
  | write (p : Params)
  | finish (tag : Nat)
  | check (gwid : Nat)

def State.Issued (s : State) (gwid : Nat) : Prop := 2 ≤ gwid ∧ gwid ≤ s.workId

instance (s : State) (gwid : Nat) : Decidable (s.Issued gwid) := inferInstanceAs (Decidable (_ ∧ _))

/-- The requests that were issued finish in any order. A call that throws changes nothing. -/
def step (s : State) : Event → Option State
  | .read p => (s.asyncRead p).map Prod.snd
  | .write p => (s.asyncWrite p).map Prod.snd
  | .finish tag => if s.Issued tag then some { s with finished := Function.update s.finished tag true } else none
  | .check gwid => some (((s.checkCompletion gwid).toOption.map Prod.snd).getD s)

def State.PoolExact (s : State) : Prop :=
  ∀ d < poolSize, s.pool.count d = if d ∈ s.outstanding.map Work.desc then 0 else 1

/-- Exactly when everything up to an identifier has finished, the answer is yes, and then it is no longer
outstanding; the answer to 0 is yes only when everything has finished. -/
def State.Answers (s : State) (gwid : Nat) (answer : Bool) (s' : State) : Prop :=
  (s.Issued gwid → (answer = true ↔ ∀ t, 2 ≤ t → t ≤ gwid → s.finished t = true) ∧
    (answer = true → ∀ w ∈ s'.outstanding, gwid < w.tag)) ∧
  (gwid = 0 → answer = true → ∀ t, s.Issued t → s.finished t = true)

def Exact (s : State) (e : Event) : Prop :=
  (∀ s' ∈ step s e, s'.PoolExact) ∧
    match e with
    | .check gwid => ∀ answer s', s.checkCompletion gwid = .ok (answer, s') → s.Answers gwid answer s'
    | _ => True

/-- The oldest request that was not drained is one of those up to the identifier, or has finished. For 0, all
outstanding requests have finished when the oldest one has. -/
def Sound (s : State) : Event → Prop
  | .check gwid =>
    (s.Issued gwid → ∀ w ∈ s.outstanding.head?, w.tag ≤ gwid ∨ s.finished w.tag = true) ∧
      (gwid = 0 → ∀ w ∈ s.outstanding.head?, s.finished w.tag = true →
        ∀ v ∈ s.outstanding, s.finished v.tag = true)
  | _ => True

section Drain

variable (finished : Nat → Bool) (g : Nat)

theorem drain_spec (ws : List Work) (pool : List Nat) :
    ∃ popped, ws = popped ++ (drain finished g ws pool).outstanding ∧
      (drain finished g ws pool).pool = pool ++ popped.map Work.desc ∧ (∀ w ∈ popped, finished w.tag = true) ∧
      (((drain finished g ws pool).answer = false ∧ (∀ w ∈ popped, w.tag < g) ∧
          ∃ w rest, (drain finished g ws pool).outstanding = w :: rest ∧ finished w.tag = false) ∨
        ((drain finished g ws pool).answer = true ∧ ((drain finished g ws pool).outstanding = [] ∨
          ∃ init w, popped = init ++ [w] ∧ g ≤ w.tag ∧ ∀ v ∈ init, v.tag < g))) := by
  induction ws generalizing pool with
  | nil => exact ⟨[], rfl, (List.append_nil pool).symm, by simp, .inr ⟨rfl, .inl rfl⟩⟩
  | cons w ws ih =>
    unfold drain
    by_cases hw : finished w.tag = false
    · rw [if_pos hw]
      exact ⟨[], rfl, (List.append_nil pool).symm, by simp, .inl ⟨rfl, by simp, w, ws, rfl, hw⟩⟩
    · have hdone : finished w.tag = true := by simpa using hw
      rw [if_neg hw]
      by_cases hg : g ≤ w.tag
      · rw [if_pos hg]
        exact ⟨[w], rfl, rfl, by simpa using hdone, .inr ⟨rfl, .inr ⟨[], w, rfl, hg, by simp⟩⟩⟩
      · rw [if_neg hg]
        have hlt := Nat.lt_of_not_le hg
        obtain ⟨popped, hws, hpool, hall, hend⟩ := ih (pool ++ [w.desc])
        refine ⟨w :: popped, congrArg (w :: ·) hws, ?_, ?_, ?_⟩
        · rw [hpool]
          simp
        · exact List.forall_mem_cons.mpr ⟨hdone, hall⟩
        · rcases hend with ⟨hno, hbelow, hstop⟩ | ⟨hyes, hout | ⟨init, v, rfl, hv, hinit⟩⟩
          · exact .inl ⟨hno, List.forall_mem_cons.mpr ⟨hlt, hbelow⟩, hstop⟩
          · exact .inr ⟨hyes, .inl hout⟩
          · exact .inr ⟨hyes, .inr ⟨w :: init, v, rfl, hv, List.forall_mem_cons.mpr ⟨hlt, hinit⟩⟩⟩

end Drain

/-- The outstanding requests are the last ones, in order, what is not outstanding has finished, and each
descriptor is in the pool or that of one outstanding request. -/
structure State.Ordered (s : State) : Prop where
  sorted : s.outstanding.Pairwise fun v w => v.tag < w.tag
  issued : ∀ w ∈ s.outstanding, s.Issued w.tag
  closed : ∀ w ∈ s.outstanding, ∀ t, w.tag < t → t ≤ s.workId → ∃ v ∈ s.outstanding, v.tag = t
  finished : ∀ t, s.Issued t → (∀ w ∈ s.outstanding, w.tag ≠ t) → s.finished t = true
  descs : (s.pool ++ s.outstanding.map Work.desc).Perm (List.range poolSize)
  pos : 1 ≤ s.workId

section Order

variable {s s' : State}

theorem State.start_ordered : State.start.Ordered where
  sorted := List.Pairwise.nil
  issued := fun w hw => absurd hw List.not_mem_nil
  closed := fun w hw => absurd hw List.not_mem_nil
  finished := fun t ht => absurd (Nat.le_trans ht.1 ht.2) (by decide)
  descs := by simp [State.start]
  pos := Nat.le_refl 1

theorem State.Ordered.poolExact (h : s.Ordered) : s.PoolExact := by
  intro d hd
  have hcount := h.descs.count_eq d
  have hone : (List.range poolSize).count d = 1 := List.count_eq_one_of_mem List.nodup_range (List.mem_range.mpr hd)
  rw [List.count_append, hone] at hcount
  split
  · next hmem =>
    have := List.count_pos_iff.mpr hmem
    omega
  · next hmem =>
    rw [List.count_eq_zero_of_not_mem hmem] at hcount
    exact hcount

theorem State.Ordered.submit (h : s.Ordered) {opcode : Opcode} {p : Params} {gwid : Nat}
    (hsubmit : s.submit opcode p = some (gwid, s')) : s'.Ordered := by
  obtain ⟨desc, hlast, heq⟩ := Option.map_eq_some_iff.mp hsubmit
  obtain ⟨-, rfl⟩ := Prod.mk.inj heq
  constructor
  case sorted =>
    refine List.pairwise_append.mpr ⟨h.sorted, List.pairwise_singleton _ _, fun v hv w hw => ?_⟩
    obtain rfl := List.mem_singleton.mp hw
    exact Nat.lt_succ_of_le (h.issued v hv).2
  case issued =>
    intro w hw
    rcases List.mem_append.mp hw with hw | hw
    · exact ⟨(h.issued w hw).1, Nat.le_succ_of_le (h.issued w hw).2⟩
    · obtain rfl := List.mem_singleton.mp hw
      exact ⟨Nat.succ_le_succ h.pos, Nat.le_refl _⟩
  case closed =>
    intro w hw t hlt hle
    change t ≤ s.workId + 1 at hle
    rcases Nat.lt_or_eq_of_le hle with hle | rfl
    · -- a tag that was there before
      rcases List.mem_append.mp hw with hw | hw
      · obtain ⟨v, hv, hvt⟩ := h.closed w hw t hlt (Nat.le_of_lt_succ hle)
        exact ⟨v, List.mem_append_left _ hv, hvt⟩
      · obtain rfl := List.mem_singleton.mp hw
        exact absurd (Nat.lt_trans hlt hle) (Nat.lt_irrefl _)
    · exact ⟨_, List.mem_append_right _ List.mem_cons_self, rfl⟩
  case finished =>
    intro t ht hout
    refine h.finished t ⟨ht.1, ?_⟩ fun w hw => hout w (List.mem_append_left _ hw)
    have hne := hout _ (List.mem_append_right _ List.mem_cons_self)
    exact Nat.le_of_lt_succ (Nat.lt_of_le_of_ne ht.2 (Ne.symm hne))
  case descs =>
    have hpool : s.pool = s.pool.dropLast ++ [desc] := (List.dropLast_append_getLast? desc hlast).symm
    have hdescs := h.descs
    rw [hpool, List.append_assoc] at hdescs
    refine List.Perm.trans ?_ hdescs
    rw [List.map_append]
    exact List.Perm.append_left _ List.perm_append_comm
  case pos => exact Nat.le_succ_of_le h.pos

theorem State.Ordered.finish (h : s.Ordered) (tag : Nat) :
    State.Ordered { s with finished := Function.update s.finished tag true } := by
  refine ⟨h.sorted, h.issued, h.closed, fun t ht hout => ?_, h.descs, h.pos⟩
  change Function.update s.finished tag true t = true
  by_cases htag : t = tag
  · rw [htag, Function.update_self]
  · rw [Function.update_of_ne htag]
    exact h.finished t ht hout

theorem State.Ordered.drained (h : s.Ordered) {popped outstanding : List Work}
    (hsplit : s.outstanding = popped ++ outstanding) (hdone : ∀ w ∈ popped, s.finished w.tag = true) :
    State.Ordered { s with outstanding := outstanding, pool := s.pool ++ popped.map Work.desc } := by
  have hsorted := h.sorted
  rw [hsplit] at hsorted
  obtain ⟨-, hsorted, hbefore⟩ := List.pairwise_append.mp hsorted
  have hsub : ∀ w ∈ outstanding, w ∈ s.outstanding := fun w hw => hsplit ▸ List.mem_append_right _ hw
  constructor
  case sorted => exact hsorted
  case issued => exact fun w hw => h.issued w (hsub w hw)
  case closed =>
    intro w hw t hlt hle
    obtain ⟨v, hv, rfl⟩ := h.closed w (hsub w hw) t hlt hle
    rw [hsplit] at hv
    rcases List.mem_append.mp hv with hv | hv
    · exact absurd (Nat.lt_trans (hbefore v hv w hw) hlt) (Nat.lt_irrefl _)
    · exact ⟨v, hv, rfl⟩
  case finished =>
    intro t ht hout
    by_cases hpopped : ∃ w ∈ popped, w.tag = t
    · obtain ⟨w, hw, rfl⟩ := hpopped
      exact hdone w hw
    · refine h.finished t ht fun w hw htag => ?_
      rw [hsplit] at hw
      rcases List.mem_append.mp hw with hw | hw
      · exact hpopped ⟨w, hw, htag⟩
      · exact hout w hw htag
  case descs =>
    have hdescs := h.descs
    rw [hsplit, List.map_append, ← List.append_assoc] at hdescs
    exact hdescs
  case pos => exact h.pos

theorem State.checkCompletion_ok {gwid : Nat} {answer : Bool} (h : s.checkCompletion gwid = .ok (answer, s')) :
    answer = (drain s.finished gwid s.outstanding s.pool).answer ∧
      s' = { s with
        outstanding := (drain s.finished gwid s.outstanding s.pool).outstanding
        pool := (drain s.finished gwid s.outstanding s.pool).pool } := by
  unfold State.checkCompletion at h
  split at h
  · cases h
  · obtain ⟨rfl, rfl⟩ := Prod.mk.inj (Except.ok.inj h)
    exact ⟨rfl, rfl⟩

theorem State.Ordered.check (h : s.Ordered) {gwid : Nat} {answer : Bool}
    (hcheck : s.checkCompletion gwid = .ok (answer, s')) : s'.Ordered := by
  obtain ⟨-, rfl⟩ := State.checkCompletion_ok hcheck
  obtain ⟨popped, hsplit, hpool, hdone, -⟩ := drain_spec s.finished gwid s.outstanding s.pool
  rw [hpool]
  exact h.drained hsplit hdone

theorem step_ordered {e : Event} (h : s.Ordered) (hstep : s' ∈ step s e) : s'.Ordered := by
  cases e with
  | finish tag =>
    change s' ∈ ite _ _ _ at hstep
    split at hstep
    · cases hstep
      exact h.finish tag
    · cases hstep
  | check gwid =>
    cases hstep
    cases hcheck : s.checkCompletion gwid with
    | error message => exact h
    | ok result =>
      obtain ⟨answer, u⟩ := result
      exact h.check hcheck
  | _ =>
    obtain ⟨⟨gwid, u⟩, hsubmit, rfl⟩ := Option.map_eq_some_iff.mp hstep
    exact h.submit hsubmit

theorem State.Ordered.finished_of_head (h : s.Ordered) {g : Nat} (hhead : ∀ w ∈ s.outstanding.head?, g < w.tag)
    {t : Nat} (ht : s.Issued t) (hle : t ≤ g) : s.finished t = true := by
  refine h.finished t ht fun w hw htag => ?_
  have hsorted := h.sorted
  cases hout : s.outstanding with
  | nil =>
    rw [hout] at hw
    cases hw
  | cons v vs =>
    rw [hout] at hw hhead hsorted
    have hv := hhead v rfl
    rcases List.mem_cons.mp hw with rfl | hw
    · omega
    · have := List.rel_of_pairwise_cons hsorted hw
      omega

theorem State.Ordered.answers_issued (h : s.Ordered) {g : Nat} (hg : s.Issued g)
    (hsound : ∀ w ∈ s.outstanding.head?, w.tag ≤ g ∨ s.finished w.tag = true) :
    ((drain s.finished g s.outstanding s.pool).answer = true ↔ ∀ t, 2 ≤ t → t ≤ g → s.finished t = true) ∧
      ((drain s.finished g s.outstanding s.pool).answer = true →
        ∀ w ∈ (drain s.finished g s.outstanding s.pool).outstanding, g < w.tag) := by
  obtain ⟨popped, hsplit, -, hdone, hend⟩ := drain_spec s.finished g s.outstanding s.pool
  generalize drain s.finished g s.outstanding s.pool = d at *
  have hsorted := h.sorted
  rw [hsplit] at hsorted
  obtain ⟨hpopped, hleft, hbefore⟩ := List.pairwise_append.mp hsorted
  have hmem : ∀ w, w ∈ s.outstanding ↔ w ∈ popped ∨ w ∈ d.outstanding := fun w => by
    rw [hsplit, List.mem_append]
  rcases hend with ⟨hno, hbelow, w, rest, hout, hw⟩ | ⟨hyes, hend⟩
  · -- the loop stopped at a request that has not finished; it is one of those up to `g`
    have hwmem : w ∈ s.outstanding := (hmem w).mpr (.inr (hout ▸ List.mem_cons_self))
    have hwle : w.tag ≤ g := by
      cases hp : popped with
      | nil =>
        rw [hp, hout, List.nil_append] at hsplit
        have := hsound w (by rw [hsplit]; rfl)
        rw [hw] at this
        exact this.resolve_right Bool.false_ne_true
      | cons v vs =>
        have hv : v ∈ popped := hp ▸ List.mem_cons_self
        obtain ⟨u, hu, hug⟩ := h.closed v ((hmem v).mpr (.inl hv)) g (hbelow v hv) hg.2
        rcases (hmem u).mp hu with hu | hu
        · exact absurd (hug ▸ hbelow u hu) (Nat.lt_irrefl _)
        · rw [hout] at hu hleft
          rcases List.mem_cons.mp hu with rfl | hu
          · exact Nat.le_of_eq hug
          · exact hug ▸ Nat.le_of_lt (List.rel_of_pairwise_cons hleft hu)
    refine ⟨⟨fun hyes => absurd (hno.symm.trans hyes) Bool.false_ne_true, fun hall => ?_⟩,
      fun hyes => absurd (hno.symm.trans hyes) Bool.false_ne_true⟩
    exact absurd (hw.symm.trans (hall w.tag (h.issued w hwmem).1 hwle)) Bool.false_ne_true
  · have habove : ∀ w ∈ d.outstanding, g < w.tag := by
      intro w hw
      rcases hend with hnil | ⟨init, v, rfl, hv, -⟩
      · rw [hnil] at hw
        cases hw
      · exact Nat.lt_of_le_of_lt hv (hbefore v (List.mem_append_right _ List.mem_cons_self) w hw)
    refine ⟨⟨fun _ t ht hle => ?_, fun _ => hyes⟩, fun _ => habove⟩
    by_cases hin : ∃ w ∈ popped, w.tag = t
    · obtain ⟨w, hw, rfl⟩ := hin
      exact hdone w hw
    · refine h.finished t ⟨ht, Nat.le_trans hle hg.2⟩ fun w hw htag => ?_
      rcases (hmem w).mp hw with hw | hw
      · exact hin ⟨w, hw, htag⟩
      · have := habove w hw
        omega

theorem drain_zero {finished : Nat → Bool} {ws : List Work} {pool : List Nat} :
    (drain finished 0 ws pool).answer = true ↔ ∀ w ∈ ws.head?, finished w.tag = true := by
  cases ws with
  | nil => simp [drain]
  | cons w ws =>
    unfold drain
    by_cases hw : finished w.tag = false
    · simp [hw]
    · simp [hw]

theorem drain_of_head {finished : Nat → Bool} {g : Nat} {ws : List Work} {pool : List Nat} {w : Work}
    (hw : w ∈ ws.head?) (hno : finished w.tag = false) : (drain finished g ws pool).answer = false := by
  cases ws with
  | nil => cases hw
  | cons v vs =>
    cases hw
    unfold drain
    rw [if_pos hno]

theorem exact_check_iff (h : s.Ordered) (g : Nat) : Exact s (.check g) ↔ Sound s (.check g) := by
  constructor
  · rintro ⟨-, hanswers⟩
    refine ⟨fun hg w hw => ?_, fun hg w hw hdone v hv => ?_⟩
    · have hok : s.checkCompletion g = .ok _ := if_neg (Nat.not_lt.mpr hg.2)
      have hiff := ((hanswers _ _ hok).1 hg).1
      by_contra hnot
      obtain ⟨hlt, hw'⟩ := not_or.mp hnot
      -- all up to `g` was drained before, but the loop stops at the oldest one that is left
      have hyes := hiff.mpr fun t ht hle => h.finished_of_head (fun u hu => ?_) ⟨ht, Nat.le_trans hle hg.2⟩ hle
      · rw [drain_of_head hw (by simpa using hw')] at hyes
        cases hyes
      · obtain rfl := Option.some.inj (hw.symm.trans hu)
        exact Nat.lt_of_not_le hlt
    · subst hg
      have hok : s.checkCompletion 0 = .ok _ := if_neg (Nat.not_lt_zero _)
      refine (hanswers _ _ hok).2 rfl (drain_zero.mpr fun u hu => ?_) v.tag (h.issued v hv)
      obtain rfl := Option.some.inj (hw.symm.trans hu)
      exact hdone
  · rintro ⟨hissued, hzero⟩
    refine ⟨fun s' hstep => (step_ordered h hstep).poolExact, fun answer s' hok => ?_⟩
    obtain ⟨rfl, rfl⟩ := State.checkCompletion_ok hok
    refine ⟨fun hg => h.answers_issued hg (hissued hg), fun hg hyes t ht => ?_⟩
    subst hg
    by_cases hin : ∃ w ∈ s.outstanding, w.tag = t
    · obtain ⟨w, hw, rfl⟩ := hin
      obtain ⟨v, hv⟩ : ∃ v, v ∈ s.outstanding.head? := by
        cases hout : s.outstanding with
        | nil =>
          rw [hout] at hw
          cases hw
        | cons v vs => exact ⟨v, rfl⟩
      exact hzero rfl v hv (drain_zero.mp hyes v hv) w hw
    · exact h.finished t ht fun w hw htag => hin ⟨w, hw, htag⟩

end Order

/-- In a run all checks are exact just when all are sound. -/
theorem exact_iff_sound (es : List Event) :
    Throughout step Exact State.start es ↔ Throughout step Sound State.start es := by
  refine Throughout.iff (I := State.Ordered) ?_ (fun _ _ _ hs _ hstep => step_ordered hs hstep)
    State.start_ordered
  intro s e hs
  have hpool : ∀ s' ∈ step s e, s'.PoolExact := fun s' hstep => (step_ordered hs hstep).poolExact
  cases e with
  | check g => exact exact_check_iff hs g
  | _ => exact iff_of_true ⟨hpool, trivial⟩ trivial

/-- The first request was reported complete, and is asked for again. -/
theorem not_exact_again : ¬ Throughout step Exact State.start
      [.write ⟨0, 0, 0, 1, false⟩, .write ⟨0, 0, 1, 1, false⟩, .finish 2, .check 2, .check 2] := by
  rintro ⟨-, h⟩
  obtain ⟨-, h⟩ := h _ (Option.get_mem (by decide +kernel))
  obtain ⟨-, h⟩ := h _ (Option.get_mem (by decide +kernel))
  obtain ⟨-, h⟩ := h _ (Option.get_mem (by decide +kernel))
  obtain ⟨⟨-, hanswers⟩, -⟩ := h _ (Option.get_mem (by decide +kernel))
  have hiff := ((hanswers _ _ (if_neg (by decide +kernel))).1 (by decide +kernel)).1
  refine absurd (hiff.mpr fun t ht hle => ?_) (by decide +kernel)
  obtain rfl := Nat.le_antisymm hle ht
  decide +kernel

end Comanche.Block.Posix
