import Comanche.Dawn.Loop

/-!
# The I/O buffers of a session

Where the buffers of `Buffer_manager` are between the events of a session.
-/

namespace Comanche.Dawn

open Lib

namespace Connection

def places (c : Connection) : List Nat := c.free ++ (c.postedRecv.toList ++ c.postedSend.toList)

/-- Every buffer is in exactly one place, and none is still kept for a send whose completion was polled. -/
structure Conserved (c : Connection) : Prop where
  perm : c.places.Perm (List.range bufferCount)
  returned : c.postedSend.isSome → c.sendOutstanding = true

def SendCompletes (c : Connection) (i : TickInput) : Prop := ∃ b ∈ c.postedSend, .io b ∈ i.completions

def PostsRecv (c : Connection) : Prop := c.state = .postHandshake ∨ c.state = .postMsgRecv

/-- The completion of a posted send is polled only where the handshake waits for it, and a receive is
posted only when none is posted. -/
def SafeTick (c : Connection) (i : TickInput) : Prop :=
  (c.SendCompletes i → c.state = .waitHandshakeResponseCompletion ∧ i.disconnect = false) ∧
    (c.PostsRecv → c.Disconnects i ∨ c.postedRecv = none)

instance (c : Connection) : Decidable c.Conserved :=
  decidable_of_iff (c.places.Perm (List.range bufferCount) ∧ (c.postedSend.isSome → c.sendOutstanding = true))
    ⟨fun h => ⟨h.1, h.2⟩, fun h => ⟨h.perm, h.returned⟩⟩

instance (c : Connection) (i : TickInput) : Decidable (c.SendCompletes i) :=
  inferInstanceAs (Decidable (∃ b ∈ c.postedSend, Context.io b ∈ i.completions))

instance (c : Connection) : Decidable c.PostsRecv := inferInstanceAs (Decidable (_ ∨ _))

instance (c : Connection) (i : TickInput) : Decidable (c.SafeTick i) :=
  inferInstanceAs (Decidable ((_ → _) ∧ (_ → _)))

end Connection

def Reply.Injected : Reply → Prop
  | .io m _ _ a =>
    m.op = .get → Work.Scbe m = false → a.lock.handle.isSome → a.lock.rc ≠ eFail →
      if Work.isDirect m = false ∧ a.lock.bytes.length < twoStageThreshold then
        ioResponseSize + a.lock.bytes.length ≤ Connection.injectSize
      else m.valLen < a.lock.bytes.length ∨ Work.isDirect m = true ∨
        bufferLen - ioResponseSize < a.lock.bytes.length
  | .pool len | .info len | .ado (some len) => len ≤ Connection.injectSize
  | .findKey | .ado none => True

instance : (r : Reply) → Decidable r.Injected
  | .io m _ _ a => inferInstanceAs (Decidable (m.op = .get → Work.Scbe m = false → a.lock.handle.isSome →
      a.lock.rc ≠ eFail → ite _ _ _))
  | .pool len | .info len | .ado (some len) => inferInstanceAs (Decidable (len ≤ Connection.injectSize))
  | .findKey | .ado none => isTrue trivial

namespace Work

/-- After the event every buffer is in its place; the thread did not run out of buffers. -/
def KeepsBuffers (w : Work) (e : SessionEvent) : Prop :=
  match w.step e with
  | .next w' | .closed w' => w'.conn.Conserved
  | .threw exc => exc ≠ .noBuffersRemaining

/-- The ticks are safe, and a response that is not injected is posted only when no send is posted. -/
def SafeForBuffers (w : Work) : SessionEvent → Prop
  | .tick i => w.conn.pendingMsgs = [] → w.conn.SafeTick i
  | .message r => w.conn.pendingMsgs ≠ [] → r.Injected ∨ w.conn.postedSend = none
  | .later len => w.conn.pendingMsgs = [] → len ≤ Connection.injectSize ∨ w.conn.postedSend = none

instance (w : Work) (e : SessionEvent) : Decidable (w.KeepsBuffers e) := by
  unfold KeepsBuffers
  exact match w.step e with
  | .next w' | .closed w' => inferInstanceAs (Decidable w'.conn.Conserved)
  | .threw exc => inferInstanceAs (Decidable (exc ≠ .noBuffersRemaining))

instance (w : Work) (e : SessionEvent) : Decidable (w.SafeForBuffers e) := by
  unfold Work.SafeForBuffers
  split <;> infer_instance

end Work

namespace Connection

variable {c c' : Connection} {i : TickInput} {b : Nat} {free : List Nat}

/-- What completions do to a connection: the buffers stay, and a send that is complete is not outstanding
any more. -/
structure Polled (c c' : Connection) (completions : List Context) : Prop where
  free : c'.free = c.free
  recv : c'.postedRecv = c.postedRecv
  send : c'.postedSend = c.postedSend
  state : c'.state = c.state
  msgs : c'.pendingMsgs = c.pendingMsgs
  outstanding : c'.sendOutstanding = true ↔
    c.sendOutstanding = true ∧ ∀ b ∈ c.postedSend, .io b ∉ completions

theorem Polled.nil (c : Connection) : Polled c c [] :=
  ⟨rfl, rfl, rfl, rfl, rfl, by simp⟩

theorem Polled.append {c₁ c₂ : Connection} {l l' : List Context} (h : Polled c c₁ l) (h' : Polled c₁ c₂ l') :
    Polled c c₂ (l ++ l') where
  free := h'.free.trans h.free
  recv := h'.recv.trans h.recv
  send := h'.send.trans h.send
  state := h'.state.trans h.state
  msgs := h'.msgs.trans h.msgs
  outstanding := by
    rw [h'.outstanding, h.outstanding, h.send, and_assoc]
    simp only [List.mem_append, not_or, forall_and]

theorem completionCallback_polled {x : Context} (hdis : ∀ b ∈ c.postedSend, b ∉ c.postedRecv)
    (h : c.completionCallback x = .ok c') : Polled c c' [x] := by
  have hmem : ∀ {o : Option Nat}, o.map Context.io = some x ↔ ∃ b ∈ o, Context.io b = x := by
    intro o
    simp [Option.map_eq_some_iff]
  unfold completionCallback at h
  dsimp only at h
  split_ifs at h with hrecv hsend hvalue
  · cases h
    refine ⟨rfl, rfl, rfl, rfl, rfl, ?_⟩
    obtain ⟨b, hb, rfl⟩ := hmem.mp hrecv
    refine (and_iff_left fun b' hb' hx => hdis b' hb' ?_).symm
    rw [Context.io.inj (List.mem_singleton.mp hx)]
    exact hb
  · cases h
    refine ⟨rfl, rfl, rfl, rfl, rfl, iff_of_false (by simp) fun hnot => ?_⟩
    obtain ⟨b, hb, rfl⟩ := hmem.mp hsend
    exact hnot.2 b hb (List.mem_singleton.mpr rfl)
  · cases h
    refine ⟨rfl, rfl, rfl, rfl, rfl, (and_iff_left fun b hb hx => hsend ?_).symm⟩
    exact hmem.mpr ⟨b, hb, List.mem_singleton.mp hx⟩

theorem foldlM_polled {completions : List Context} (hdis : ∀ b ∈ c.postedSend, b ∉ c.postedRecv)
    (h : completions.foldlM completionCallback c = .ok c') : Polled c c' completions := by
  induction completions generalizing c with
  | nil =>
    cases h
    exact .nil _
  | cons x completions ih =>
    rw [List.foldlM_cons] at h
    cases hx : c.completionCallback x with
    | error e =>
      rw [hx] at h
      cases h
    | ok c₁ =>
      rw [hx] at h
      have hpolled := completionCallback_polled hdis hx
      exact hpolled.append (ih (by rw [hpolled.send, hpolled.recv]; exact hdis) h)

theorem Conserved.disjoint (hc : c.Conserved) : ∀ b ∈ c.postedSend, b ∉ c.postedRecv := by
  intro b hsend hrecv
  have hnodup : c.places.Nodup := hc.perm.nodup_iff.mpr List.nodup_range
  have hposted := (List.nodup_append.mp (List.nodup_append.mp hnodup).2.1).2.2
  exact hposted b (Option.mem_toList.mpr hrecv) b (Option.mem_toList.mpr hsend) rfl

theorem Conserved.poll (hc : c.Conserved) {st : CompletionState}
    (h : c.checkNetworkCompletions i.completions i.disconnect = .ok (st, c')) :
    Polled c c' i.completions ∧ (st = .clientDisconnect ↔ c.Disconnects i) := by
  rw [checkNetworkCompletions_eq] at h
  by_cases hpolls : c.Polls
  · rw [if_pos hpolls] at h
    cases hfold : i.completions.foldlM completionCallback c with
    | error e =>
      rw [hfold] at h
      cases h
    | ok c₁ =>
      rw [hfold] at h
      cases h
      refine ⟨foldlM_polled hc.disjoint hfold, ?_⟩
      unfold Disconnects
      cases i.disconnect <;> simp [hpolls]
  · rw [if_neg hpolls] at h
    cases h
    have hnone : c.postedSend = none := by
      rw [Option.eq_none_iff_forall_ne_some]
      intro b hb
      exact hpolls (Or.inr (Or.inl (hc.returned (by simp [hb]))))
    refine ⟨⟨rfl, rfl, rfl, rfl, rfl, by simp [hnone]⟩, ?_⟩
    simp [Disconnects, hpolls]

theorem Conserved.free_ne_nil (hperm : c.places.Perm (List.range bufferCount)) : c.free ≠ [] := by
  intro hnil
  have hlen := hperm.length_eq
  have hrecv : c.postedRecv.toList.length ≤ 1 := by cases c.postedRecv <;> simp
  have hsend : c.postedSend.toList.length ≤ 1 := by cases c.postedSend <;> simp
  simp only [places, hnil, List.nil_append, List.length_append, List.length_range, bufferCount] at hlen
  omega

theorem places_allocate (hfree : c.free = b :: free) : c.places = b :: { c with free }.places := by
  simp only [places, hfree, List.cons_append]

theorem places_freeRecvBuffer (c : Connection) : c.freeRecvBuffer.places.Perm c.places := by
  unfold freeRecvBuffer
  cases hrecv : c.postedRecv with
  | none => exact .refl _
  | some b =>
    simp only [places, freeBuffer, hrecv, Option.toList_some, Option.toList_none, List.nil_append, List.cons_append]
    exact List.perm_middle.symm

theorem places_postRecvBuffer (c : Connection) (b : Nat) :
    (c.postedRecv.toList ++ (c.postRecvBuffer b).places).Perm (b :: c.places) := by
  simp only [places, postRecvBuffer, Option.toList_some, List.singleton_append]
  cases c.postedRecv with
  | none => exact List.perm_middle
  | some x =>
    simp only [Option.toList_some, List.singleton_append]
    refine (List.Perm.cons x List.perm_middle).trans ((List.Perm.swap b x _).trans ?_)
    exact List.Perm.cons b List.perm_middle.symm

theorem places_postSendBuffer (c : Connection) (b len : Nat) (hasValue : Bool) :
    ((if !hasValue && decide (len ≤ injectSize) then [] else c.postedSend.toList) ++
      (c.postSendBuffer b len hasValue).places).Perm (b :: c.places) := by
  unfold postSendBuffer
  split
  · exact .refl _
  · simp only [places, Option.toList_some]
    cases c.postedSend with
    | none =>
      simp only [Option.toList_none, List.append_nil, List.nil_append, ← List.append_assoc]
      exact List.perm_append_singleton b _
    | some x =>
      simp only [Option.toList_some, List.singleton_append, ← List.append_assoc]
      refine (List.Perm.cons x (List.perm_append_singleton b _)).trans ((List.Perm.swap b x _).trans ?_)
      exact List.Perm.cons b (List.perm_append_singleton x _).symm

theorem perm_iff_of_append {lost l r : List Nat} (h : (lost ++ l).Perm r) : l.Perm r ↔ lost = [] := by
  constructor
  · intro hl
    have hlen := h.length_eq.trans hl.length_eq.symm
    rw [List.length_append] at hlen
    exact List.length_eq_zero_iff.mp (by omega)
  · rintro rfl
    exact h

theorem allocate_of_free (hfree : c.free = b :: free) : c.allocate = .ok (b, { c with free }) := by
  unfold allocate
  rw [hfree]

def Returned (c : Connection) : Prop := c.postedSend.isSome → c.sendOutstanding = true

theorem freeRecvBuffer_returned (c : Connection) : c.freeRecvBuffer.Returned ↔ c.Returned := by
  unfold freeRecvBuffer
  split <;> exact Iff.rfl

theorem conserved_iff (hperm : c.places.Perm (List.range bufferCount)) : c.Conserved ↔ c.Returned :=
  ⟨Conserved.returned, fun h => ⟨hperm, h⟩⟩

section TickState

variable (hperm : c.places.Perm (List.range bufferCount))

include hperm

theorem exists_free : ∃ b free, c.free = b :: free :=
  List.exists_cons_of_ne_nil (Conserved.free_ne_nil hperm)

theorem postRecvBuffer_conserved_iff (hfree : c.free = b :: free) (state : ConnState) :
    (({ c with free }.postRecvBuffer b).setState state).Conserved ↔ c.postedRecv = none ∧ c.Returned := by
  have hplaces := places_postRecvBuffer { c with free } b
  rw [← places_allocate hfree] at hplaces
  have hlost := perm_iff_of_append (hplaces.trans hperm)
  simp only [Option.toList_eq_nil_iff] at hlost
  exact ⟨fun h => ⟨hlost.mp h.perm, h.returned⟩, fun h => ⟨hlost.mpr h.1, h.2⟩⟩

theorem inject_conserved_iff (hfree : c.free = b :: free) {len : Nat} (hlen : len ≤ injectSize) (state : ConnState) :
    (({ c with free }.postSendBuffer b len false).setState state).Conserved ↔ c.Returned := by
  unfold postSendBuffer
  rw [if_pos (by simp [hlen])]
  have hplaces : (({ c with free }.freeBuffer b).setState state).places = c.places :=
    (places_allocate hfree).symm
  rw [conserved_iff (by rw [hplaces]; exact hperm)]
  exact Iff.rfl

/-- What a state makes of the buffers: only the handshake takes back the buffer of a send that is complete,
and a receive that is posted twice loses the first buffer. -/
def TickKeeps (c : Connection) : Prop :=
  (c.PostsRecv → c.postedRecv = none) ∧ (c.state = .waitHandshakeResponseCompletion ∨ c.Returned)

theorem same_conserved_iff (hfree : c'.free = c.free) (hrecv : c'.postedRecv = c.postedRecv)
    (hsend : c'.postedSend = c.postedSend) (hout : c'.sendOutstanding = c.sendOutstanding) :
    c'.Conserved ↔ c.Returned := by
  rw [conserved_iff (by simpa only [places, hfree, hrecv, hsend] using hperm)]
  simp only [Returned, hsend, hout]

theorem checkForPostedSendComplete_conserved : c.checkForPostedSendComplete.2.Conserved := by
  unfold checkForPostedSendComplete
  by_cases hout : c.sendOutstanding = true
  · rw [if_pos hout]
    exact ⟨hperm, fun _ => hout⟩
  · rw [if_neg hout]
    cases hsend : c.postedSend with
    | none => exact ⟨hperm, by simp [hsend]⟩
    | some b =>
      refine ⟨List.Perm.trans ?_ hperm, by simp⟩
      simp only [places, freeBuffer, hsend, Option.toList_some, Option.toList_none, List.append_nil, ← List.append_assoc]
      exact (List.perm_append_singleton b _).symm

theorem tickState_value (message : Message) (hstate : c.state = .waitSendValue ∨ c.state = .waitRecvValue) :
    ∃ response c', c.tickState message = .ok (response, c') ∧ (c'.Conserved ↔ c.Returned) := by
  unfold tickState checkForPostedValueComplete
  cases hout : c.valueOutstanding with
  | true =>
    refine ⟨.continue, c, ?_, same_conserved_iff hperm rfl rfl rfl rfl⟩
    rcases hstate with hstate | hstate <;> rw [hstate] <;> rfl
  | false =>
    rcases hstate with hstate | hstate
    all_goals
      rw [hstate]
      cases hvalue : c.postedValue
      all_goals
        refine ⟨_, _, by simp only [Bool.false_eq_true, if_false, if_true, hvalue]; rfl, ?_⟩
        exact same_conserved_iff hperm rfl rfl rfl rfl

theorem tickState_ok (message : Message) :
    ∃ response c', c.tickState message = .ok (response, c') ∧ (c'.Conserved ↔ c.TickKeeps) := by
  obtain ⟨b, free, hfree⟩ := exists_free hperm
  unfold TickKeeps PostsRecv
  cases hstate : c.state with
  | postMsgRecv | postHandshake =>
    refine ⟨_, _, by unfold tickState; rw [hstate, allocate_of_free hfree]; rfl, ?_⟩
    rw [postRecvBuffer_conserved_iff hperm hfree]
    simp
  | init =>
    refine ⟨_, _, by unfold tickState; rw [hstate]; rfl, ?_⟩
    exact Iff.trans (same_conserved_iff hperm rfl rfl rfl rfl) (by simp)
  | waitHandshake =>
    by_cases hcomplete : c.checkForPostedRecvComplete = true
    · refine ⟨_, _, by
        unfold tickState
        rw [hstate, allocate_of_free hfree]
        simp only [if_pos hcomplete]
        rfl, ?_⟩
      rw [inject_conserved_iff hperm hfree (by decide)]
      simp
    · refine ⟨_, c, by unfold tickState; rw [hstate]; simp only [if_neg hcomplete]; rfl, ?_⟩
      exact Iff.trans (same_conserved_iff hperm rfl rfl rfl rfl) (by simp)
  | waitNewMsgRecv =>
    by_cases hcomplete : c.checkForPostedRecvComplete = true
    · by_cases hclose : message = .closeSession
      · subst hclose
        refine ⟨_, c.freeRecvBuffer, by
          unfold tickState; rw [hstate]; simp only [if_pos hcomplete]; rfl, ?_⟩
        rw [conserved_iff ((places_freeRecvBuffer c).trans hperm)]
        simpa using freeRecvBuffer_returned c
      · refine ⟨.continue, { c with
          pendingMsgs := c.postedRecv.toList ++ c.pendingMsgs
          state := .postMsgRecv }, ?_, ?_⟩
        · unfold tickState
          rw [hstate]
          simp only [if_pos hcomplete]
          cases message with
          | closeSession => exact absurd rfl hclose
          | _ => rfl
        · exact Iff.trans (same_conserved_iff hperm rfl rfl rfl rfl) (by simp)
    · refine ⟨_, c, by unfold tickState; rw [hstate]; simp only [if_neg hcomplete]; rfl, ?_⟩
      exact Iff.trans (same_conserved_iff hperm rfl rfl rfl rfl) (by simp)
  | waitHandshakeResponseCompletion =>
    have hcons := checkForPostedSendComplete_conserved hperm
    refine ⟨.continue, if c.checkForPostedSendComplete.1 then
      c.checkForPostedSendComplete.2.setState .postMsgRecv else c.checkForPostedSendComplete.2, by
      unfold tickState; rw [hstate]; rfl, iff_of_true ?_ (by simp)⟩
    split
    · exact ⟨hcons.perm, hcons.returned⟩
    · exact hcons
  | waitSendValue | waitRecvValue =>
    obtain ⟨response, c', htick, hiff⟩ := tickState_value hperm message (by simp [hstate])
    exact ⟨response, c', htick, hiff.trans (by simp)⟩

end TickState

theorem checkNetworkCompletions_error {completions : List Context} {disconnect : Bool} {e : Exc}
    (h : c.checkNetworkCompletions completions disconnect = .error e) : e = .unknownCompletionContext := by
  have hfold : ∀ (l : List Context) (c : Connection), l.foldlM completionCallback c = .error e →
      e = .unknownCompletionContext := by
    intro l
    induction l with
    | nil => exact fun c h => by cases h
    | cons x l ih =>
      intro c h
      rw [List.foldlM_cons] at h
      cases hx : c.completionCallback x with
      | ok c' =>
        rw [hx] at h
        exact ih c' h
      | error e' =>
        rw [hx] at h
        cases h
        unfold completionCallback at hx
        dsimp only at hx
        split_ifs at hx
        exact (Except.error.inj hx).symm
  rw [checkNetworkCompletions_eq] at h
  by_cases hpolls : c.Polls
  · rw [if_pos hpolls] at h
    cases hrun : completions.foldlM completionCallback c with
    | ok c' =>
      rw [hrun] at h
      cases h
    | error e' =>
      rw [hrun] at h
      cases h
      exact hfold _ _ hrun
  · rw [if_neg hpolls] at h
    cases h

theorem Polled.returned_iff (h : Polled c c' i.completions) (hc : c.Conserved) : c'.Returned ↔ ¬ c.SendCompletes i := by
  unfold Returned SendCompletes
  rw [h.send, h.outstanding]
  constructor
  · rintro hret ⟨b, hb, hx⟩
    exact (hret (Option.isSome_iff_exists.mpr ⟨b, hb⟩)).2 b hb hx
  · intro hnot hsome
    exact ⟨hc.returned hsome, fun b hb hx => hnot ⟨b, hb, hx⟩⟩

theorem Conserved.tick (hc : c.Conserved) (i : TickInput) :
    match c.tick i with
    | .error e => e ≠ .noBuffersRemaining
    | .ok (_, c') => c'.Conserved ↔ c.SafeTick i := by
  cases hpoll : c.checkNetworkCompletions i.completions i.disconnect with
  | error e =>
    rw [tick_of_error hpoll, checkNetworkCompletions_error hpoll]
    exact fun h => by cases h
  | ok res =>
    obtain ⟨st, c₁⟩ := res
    obtain ⟨hpolled, hst⟩ := hc.poll hpoll
    have hperm : c₁.places.Perm (List.range bufferCount) := by
      simpa only [places, hpolled.free, hpolled.recv, hpolled.send] using hc.perm
    have hret := hpolled.returned_iff hc
    rw [tick_of_poll hpoll]
    by_cases hdis : c.Disconnects i
    · rw [if_pos (hst.mpr hdis)]
      show c₁.Conserved ↔ _
      rw [conserved_iff hperm, hret]
      simp [SafeTick, hdis, hdis.1]
    · rw [if_neg fun h => hdis (hst.mp h)]
      obtain ⟨response, c', htick, hiff⟩ := tickState_ok hperm i.message
      rw [htick]
      show c'.Conserved ↔ _
      rw [hiff]
      -- a send that is complete was outstanding, so the poll was made
      have hconn : c.SendCompletes i → i.disconnect = false := by
        rintro ⟨b, hb, -⟩
        have hout := hc.returned (Option.isSome_iff_exists.mpr ⟨b, hb⟩)
        by_contra hd
        exact hdis ⟨by simpa using hd, Or.inr (Or.inl hout)⟩
      unfold TickKeeps SafeTick PostsRecv
      rw [hpolled.state, hpolled.recv, hret]
      constructor
      · intro ⟨hrecv, hsend⟩
        exact ⟨fun h => ⟨hsend.resolve_right (not_not_intro h), hconn h⟩, fun h => Or.inr (hrecv h)⟩
      · intro ⟨hsend, hrecv⟩
        refine ⟨fun h => (hrecv h).resolve_left hdis, ?_⟩
        by_cases h : c.SendCompletes i
        · exact Or.inl (hsend h).1
        · exact Or.inr h

/-- The buffer `b` goes out with a response: it is given back at once if it is injected, and takes the
place of the buffer that is posted if not. -/
structure Responds (c c' : Connection) (b : Nat) (injected : Prop) : Prop where
  places : ∃ lost, (lost ++ c'.places).Perm (b :: c.places) ∧
    (lost = [] ↔ injected ∨ c.postedSend = none)
  returned : c.Returned → c'.Returned

theorem postSendBuffer_responds (c : Connection) (b len : Nat) (hasValue : Bool) :
    Responds c (c.postSendBuffer b len hasValue) b (hasValue = false ∧ len ≤ injectSize) := by
  refine ⟨⟨_, places_postSendBuffer c b len hasValue, ?_⟩, ?_⟩
  · by_cases hinject : hasValue = false ∧ len ≤ injectSize
    · rw [if_pos (by simpa using hinject)]
      simp [hinject]
    · rw [if_neg (by simpa using hinject)]
      simp [hinject]
  · unfold postSendBuffer
    split
    · exact id
    · exact fun _ _ => rfl

theorem Responds.congr {c₁ : Connection} {injected injected' : Prop} (h : Responds c c₁ b injected)
    (hfree : c'.free = c₁.free) (hrecv : c'.postedRecv = c₁.postedRecv)
    (hsend : c'.postedSend = c₁.postedSend) (hout : c'.sendOutstanding = c₁.sendOutstanding)
    (hinjected : injected ↔ injected') : Responds c c' b injected' := by
  obtain ⟨⟨lost, hperm, hlost⟩, hret⟩ := h
  refine ⟨⟨lost, ?_, by rw [hlost, hinjected]⟩, ?_⟩
  · simpa only [Connection.places, hfree, hrecv, hsend] using hperm
  · simpa only [Returned, hsend, hout] using hret

theorem postResponse_responds (c : Connection) (b len : Nat) (value : Option ValueBuffer) :
    Responds c (c.postResponse b len value) b (value = none ∧ len ≤ injectSize) := by
  have h := postSendBuffer_responds c b len value.isSome
  cases value with
  | none => exact h.congr rfl rfl rfl rfl (by simp)
  | some v => exact h.congr rfl rfl rfl rfl (by simp)

end Connection

namespace Work

open Connection

variable {w : Work} {iob authId : Nat} {buf r : IOResponse} {m : IORequest} {a : StoreAnswer}

theorem sendResponse_responds (hlen : r.msgLen ≤ injectSize) (status : Status) {injected : Prop}
    (hinjected : injected) : Responds w.conn (w.sendResponse iob r m status).conn iob injected :=
  (postResponse_responds w.conn iob r.msgLen none).congr rfl rfl rfl rfl
    (iff_of_true ⟨rfl, hlen⟩ hinjected)

theorem getTwoStage_responds {handle base : Nat} {bytes : List UInt8} :
    Responds w.conn (w.getTwoStage iob r m handle base bytes).conn iob
      (m.valLen < bytes.length ∨ isDirect m = true ∨ bufferLen - ioResponseSize < bytes.length) := by
  have hshort : ioResponseSize ≤ injectSize := by decide
  unfold getTwoStage
  by_cases hlong : m.valLen < bytes.length
  · rw [if_pos hlong]
    exact (postResponse_responds w.conn iob ioResponseSize none).congr rfl rfl rfl rfl
      (iff_of_true ⟨rfl, hshort⟩ (Or.inl hlong))
  · rw [if_neg hlong]
    dsimp only
    by_cases htogether : isDirect m = false ∧ bytes.length ≤ bufferLen - ioResponseSize
    · rw [if_pos (by simpa using htogether)]
      refine (postResponse_responds w.conn iob ioResponseSize (some ⟨w.conn.descriptors, base⟩)).congr
        rfl rfl rfl rfl (iff_of_false (by simp) ?_)
      simp only [htogether.1, hlong, false_or, Bool.false_eq_true, not_lt]
      exact htogether.2
    · rw [if_neg (by simpa using htogether)]
      refine (postResponse_responds w.conn iob ioResponseSize none).congr rfl rfl rfl rfl
        (iff_of_true ⟨rfl, hshort⟩ (Or.inr ?_))
      by_contra hnot
      rw [not_or] at hnot
      exact htogether ⟨by simpa using hnot.1, by omega⟩

theorem get_responds (hop : m.op = .get) :
    Responds w.conn (w.get iob r m a.lock).conn iob (Reply.io m authId buf a).Injected := by
  have hshort : ioResponseSize ≤ injectSize := by decide
  have hempty : ∀ (w' : Work) (r' : IOResponse), w'.conn = w.conn → (Reply.io m authId buf a).Injected →
      Responds w.conn (w'.postResponse iob ioResponseSize r' none).conn iob
        (Reply.io m authId buf a).Injected := by
    intro w' r' hconn hinjected
    rw [← hconn]
    exact (postResponse_responds w'.conn iob ioResponseSize none).congr rfl rfl rfl rfl
      (iff_of_true ⟨rfl, hshort⟩ hinjected)
  unfold get
  cases hscbe : Scbe m with
  | true => exact hempty _ _ rfl fun _ h => by simp [hscbe] at h
  | false =>
    simp only [Bool.false_eq_true, if_false]
    cases hhandle : a.lock.handle with
    | none => exact hempty _ _ rfl fun _ _ h => by simp [hhandle] at h
    | some handle =>
      dsimp only
      by_cases hfail : a.lock.rc = eFail
      · rw [if_pos hfail]
        exact hempty _ _ rfl fun _ _ _ h => absurd hfail h
      · rw [if_neg hfail]
        have hdef : (Reply.io m authId buf a).Injected ↔
            if isDirect m = false ∧ a.lock.bytes.length < twoStageThreshold then
              ioResponseSize + a.lock.bytes.length ≤ injectSize
            else m.valLen < a.lock.bytes.length ∨ isDirect m = true ∨ bufferLen - ioResponseSize < a.lock.bytes.length := by
          simp only [Reply.Injected, hop, hscbe, hhandle, Option.isSome_some, ne_eq, hfail, not_false_eq_true, forall_const]
        rw [hdef]
        by_cases hinline : isDirect m = false ∧ a.lock.bytes.length < twoStageThreshold
        · rw [if_pos (by simpa using hinline), if_pos hinline]
          exact (postResponse_responds w.conn iob (ioResponseSize + a.lock.bytes.length) none).congr
            rfl rfl rfl rfl (by simp)
        · rw [if_neg (by simpa using hinline), if_neg hinline]
          exact getTwoStage_responds (w := w.call (.lock m.poolId m.key false 0))

/-- A handler that returns has sent the buffer `b`; one that throws does not do so for want of buffers. -/
def Responded (c : Connection) (b : Nat) (injected : Prop) : Work × Option Exc → Prop
  | (w, none) => Responds c w.conn b injected
  | (_, some e) => e ≠ .noBuffersRemaining

theorem injected_of_ne (hop : m.op ≠ .get) : (Reply.io m authId buf a).Injected :=
  fun h => absurd h hop

theorem processConfigure_conn (w : Work) (m : IORequest) (a : ConfigureAnswer) :
    (w.processConfigure m a).1.conn = w.conn ∧ ∀ e, (w.processConfigure m a).2 = .error e → e ≠ .noBuffersRemaining := by
  unfold processConfigure
  dsimp only
  split_ifs with hadd htree hremove
  · unfold addIndex
    split
    · exact ⟨rfl, fun e h => by cases h⟩
    · exact ⟨rfl, fun e h => by cases h; decide⟩
  · exact ⟨rfl, fun e h => by cases h⟩
  · unfold removeIndex
    split
    · exact ⟨rfl, fun e h => by cases h; decide⟩
    · split
      · exact ⟨rfl, fun e h => by cases h⟩
      · exact ⟨rfl, fun e h => by cases h⟩
  · exact ⟨rfl, fun e h => by cases h⟩

theorem otherOps_responded (w : Work) (iob authId : Nat) (buf : IOResponse) (m : IORequest) (a : StoreAnswer) :
    Responded w.conn iob (Reply.io m authId buf a).Injected (w.otherOps iob authId buf m a) := by
  have hshort : (buf.construct authId).msgLen ≤ injectSize := by
    show ioResponseSize ≤ injectSize
    decide
  unfold otherOps
  cases hop : m.op with
  | put =>
    have hconn : (w.put m a).1.conn = w.conn := by
      unfold put
      split
      · rfl
      · simp
    dsimp only
    rw [← hconn]
    exact sendResponse_responds hshort _ (injected_of_ne (by simp [hop]))
  | get => exact get_responds hop
  | erase =>
    have hconn : (w.erase m a).1.conn = w.conn := by
      unfold erase
      dsimp only
      split
      · simp
      · rfl
    dsimp only
    rw [← hconn]
    exact sendResponse_responds hshort _ (injected_of_ne (by simp [hop]))
  | configure =>
    obtain ⟨hconn, herror⟩ := processConfigure_conn w m a.configure
    dsimp only
    rcases hres : w.processConfigure m a.configure with ⟨w', e | status⟩
    · rw [hres] at herror
      exact herror e rfl
    · rw [hres] at hconn
      rw [← show w'.conn = w.conn from hconn]
      exact sendResponse_responds hshort _ (injected_of_ne (by simp [hop]))
  | putAdvance => exact fun h => by cases h

theorem putAdvance_responded (w : Work) (hop : m.op = .putAdvance) :
    Responded w.conn iob (Reply.io m authId buf a).Injected (w.putAdvance iob authId buf m a) := by
  have hother : ∀ s : StoreCall, Responded w.conn iob (Reply.io m authId buf a).Injected
      ((w.call s).otherOps iob authId buf m a) := fun s => otherOps_responded (w.call s) iob authId buf m a
  unfold putAdvance
  by_cases hstomp : m.flags &&& flagsDontStomp ≠ 0
  · rw [if_pos hstomp]
    exact otherOps_responded w iob authId buf m a
  · rw [if_neg hstomp]
    dsimp only
    cases hhandle : a.lock.handle with
    | none => exact hother _
    | some handle =>
      dsimp only
      split_ifs with hfail hlen
      · exact hother _
      · exact hother _
      · have h := postSendBuffer_responds w.conn iob ioResponseSize false
        refine h.congr ?_ ?_ ?_ ?_ (iff_of_true ⟨rfl, by decide⟩ (injected_of_ne (by simp [hop])))
        all_goals
          simp only [addIndexKey_fields]
          rfl

variable {free : List Nat} {e : SessionEvent}

theorem processMessageIORequest_responded (hfree : w.conn.free = iob :: free) :
    Responded { w.conn with free } iob (Reply.io m authId buf a).Injected
      (w.processMessageIORequest authId buf m a) := by
  unfold processMessageIORequest
  rw [allocate_of_free hfree]
  dsimp only
  by_cases hop : m.op = .putAdvance
  · rw [if_pos hop]
    exact putAdvance_responded { w with conn := { w.conn with free } } hop
  · rw [if_neg hop]
    exact otherOps_responded { w with conn := { w.conn with free } } iob authId buf m a

theorem send_responded (hfree : w.conn.free = iob :: free) (len : Nat) :
    Responded { w.conn with free } iob (len ≤ injectSize) (w.send len) := by
  unfold send
  rw [allocate_of_free hfree]
  exact (postSendBuffer_responds { w.conn with free } iob len false).congr rfl rfl rfl rfl (by simp)

def Kept (safe : Prop) : Work × Option Exc → Prop
  | (w, none) => w.conn.Conserved ↔ safe
  | (_, some e) => e ≠ .noBuffersRemaining

theorem Responded.kept {injected : Prop} {res : Work × Option Exc}
    (hc : w.conn.Conserved) (hfree : w.conn.free = iob :: free) (h : Responded { w.conn with free } iob injected res) :
    Kept (injected ∨ w.conn.postedSend = none) res := by
  obtain ⟨w', _ | e⟩ := res
  · obtain ⟨⟨lost, hperm, hlost⟩, hret⟩ := h
    rw [← places_allocate hfree] at hperm
    have hiff := (perm_iff_of_append (hperm.trans hc.perm)).trans hlost
    exact ⟨fun h => hiff.mp h.perm, fun h => ⟨hiff.mpr h, hret hc.returned⟩⟩
  · exact h

theorem processMessage_kept (hc : w.conn.Conserved) (r : Reply) :
    Kept (r.Injected ∨ w.conn.postedSend = none) (w.processMessage r) := by
  obtain ⟨iob, free, hfree⟩ := exists_free hc.perm
  cases r with
  | io m authId buf a => exact Responded.kept hc hfree (processMessageIORequest_responded hfree)
  | pool len =>
    refine Responded.kept hc hfree ?_
    unfold processMessage
    rw [allocate_of_free hfree]
    exact (postResponse_responds { w.conn with free } iob len none).congr rfl rfl rfl rfl
      (by simp [Reply.Injected])
  | info len => exact Responded.kept hc hfree (send_responded hfree len)
  | findKey => exact iff_of_true hc (Or.inl trivial)
  | ado error =>
    cases error with
    | some len => exact Responded.kept hc hfree (send_responded hfree len)
    | none =>
      unfold processMessage
      rw [allocate_of_free hfree]
      have hplaces : ({ w.conn with free }.freeBuffer iob).places = w.conn.places :=
        (places_allocate hfree).symm
      exact iff_of_true ⟨by rw [hplaces]; exact hc.perm, hc.returned⟩ (Or.inl trivial)

theorem answer_kept (hc : w.conn.Conserved) (r : Reply) :
    Kept (r.Injected ∨ w.conn.postedSend = none) (w.answer r) := by
  have hkept := processMessage_kept (w := { w with conn := { w.conn with
    pendingMsgs := w.conn.pendingMsgs.tail } }) ⟨hc.perm, hc.returned⟩ r
  unfold answer
  generalize processMessage _ r = res at hkept
  obtain ⟨w', _ | e⟩ := res
  · refine Iff.trans ⟨fun h => ?_, fun h => ?_⟩ hkept
    · exact ⟨(places_freeRecvBuffer _).symm.trans h.perm, (freeRecvBuffer_returned _).mp h.returned⟩
    · exact ⟨(places_freeRecvBuffer _).trans h.perm, (freeRecvBuffer_returned _).mpr h.returned⟩
  · exact hkept

theorem releaseAll_conn (w : Work) (l : List Nat) :
    (w.releaseAll l).1.conn = w.conn ∧ ∀ e, (w.releaseAll l).2 = some e → e = .badTargetToUnlock := by
  induction l generalizing w with
  | nil => exact ⟨rfl, fun e h => by cases h⟩
  | cons base l ih =>
    have hone : (w.releaseLockedValue base).1.conn = w.conn ∧
        ∀ e, (w.releaseLockedValue base).2 = some e → e = .badTargetToUnlock := by
      unfold releaseLockedValue
      split
      · exact ⟨rfl, fun e h => (Option.some.inj h).symm⟩
      · split
        · exact ⟨rfl, fun e h => by cases h⟩
        · exact ⟨rfl, fun e h => by cases h⟩
    unfold releaseAll
    rcases hres : w.releaseLockedValue base with ⟨w', _ | e⟩
    · rw [hres] at hone
      rw [← show w'.conn = w.conn from hone.1]
      exact ih w'
    · rw [hres] at hone
      exact hone

theorem keepsBuffers_of_kept {safe : Prop} {res : Work × Option Exc}
    (hstep : w.step e = outcome res) (hkept : Kept safe res) : w.KeepsBuffers e ↔ ((w.step e).returns → safe) := by
  unfold KeepsBuffers
  rw [hstep]
  obtain ⟨w', _ | exc⟩ := res
  · exact hkept.trans ⟨fun h _ => h, fun h => h rfl⟩
  · exact iff_of_true hkept fun h => by cases h

theorem tick_keepsBuffers {i : TickInput} (hc : w.conn.Conserved) (hidle : w.conn.pendingMsgs = []) :
    w.KeepsBuffers (.tick i) ↔ ((w.step (.tick i)).returns → w.conn.SafeTick i) := by
  have hstep : w.step (.tick i) = w.tick i := by
    unfold step
    rw [hidle]
  have htick := hc.tick i
  unfold KeepsBuffers
  rw [hstep]
  unfold tick
  cases hconn : w.conn.tick i with
  | error e =>
    rw [hconn] at htick
    exact iff_of_true htick fun h => by cases h
  | ok res =>
    obtain ⟨response, c'⟩ := res
    rw [hconn] at htick
    obtain ⟨hsame, hthrow⟩ := releaseAll_conn { w with conn := { c' with pendingActions := [] } }
      c'.pendingActions
    simp only [processActions]
    generalize releaseAll { w with conn := { c' with pendingActions := [] } } c'.pendingActions = res
      at hsame hthrow
    obtain ⟨w', _ | e⟩ := res
    · have hcons : w'.conn.Conserved ↔ c'.Conserved := by
        rw [show w'.conn = { c' with pendingActions := [] } from hsame]
        exact ⟨fun h => ⟨h.perm, h.returned⟩, fun h => ⟨h.perm, h.returned⟩⟩
      have hiff := hcons.trans htick
      cases response with
      | «continue» => exact hiff.trans ⟨fun h _ => h, fun h => h rfl⟩
      | close => exact hiff.trans ⟨fun h _ => h, fun h => h rfl⟩
    · have he : e = .badTargetToUnlock := hthrow e rfl
      exact iff_of_true (by simp [he]) fun h => by cases h

theorem keepsBuffers_of_next (hc : w.conn.Conserved) (hstep : w.step e = .next w)
    {safe : Prop} (hsafe : safe) : w.KeepsBuffers e ↔ ((w.step e).returns → safe) := by
  refine iff_of_true ?_ fun _ => hsafe
  unfold KeepsBuffers
  rw [hstep]
  exact hc

theorem keepsBuffers_iff (hc : w.conn.Conserved) (e : SessionEvent) :
    w.KeepsBuffers e ↔ ((w.step e).returns → w.SafeForBuffers e) := by
  cases hmsgs : w.conn.pendingMsgs with
  | nil =>
    cases e with
    | tick i => exact (tick_keepsBuffers hc hmsgs).trans (by simp [SafeForBuffers, hmsgs])
    | message r =>
      exact keepsBuffers_of_next hc (by simp [step, hmsgs]) (by simp [SafeForBuffers, hmsgs])
    | later len =>
      obtain ⟨iob, free, hfree⟩ := exists_free hc.perm
      have hkept := Responded.kept hc hfree (send_responded hfree len)
      exact (keepsBuffers_of_kept (by simp [step, hmsgs]) hkept).trans (by simp [SafeForBuffers, hmsgs])
  | cons msg msgs =>
    cases e with
    | tick i => exact keepsBuffers_of_next hc (by simp [step, hmsgs]) (by simp [SafeForBuffers, hmsgs])
    | message r =>
      exact (keepsBuffers_of_kept (by simp [step, hmsgs]) (answer_kept hc r)).trans (by simp [SafeForBuffers, hmsgs])
    | later len =>
      exact keepsBuffers_of_next hc (by simp [step, hmsgs]) (by simp [SafeForBuffers, hmsgs])

theorem conserved_of_running {w' : Work} (h : w.KeepsBuffers e)
    (hnext : w' ∈ (w.step e).running) : w'.conn.Conserved := by
  unfold KeepsBuffers at h
  cases hstep : w.step e with
  | next w₁ =>
    rw [hstep] at h hnext
    cases hnext
    exact h
  | _ =>
    rw [hstep] at hnext
    cases hnext

end Work

/-- Every event leaves every buffer in its place exactly if every event that does not throw is safe. -/
theorem buffers_conserved_iff (w : Work) (hc : w.conn.Conserved) (es : List SessionEvent) :
    Work.Session Work.KeepsBuffers w es ↔ Work.Session (fun w e => (w.step e).returns → w.SafeForBuffers e) w es :=
  Throughout.iff (fun _ e hc => Work.keepsBuffers_iff hc e)
    (fun _ e _ hc hsafe hnext => Work.conserved_of_running ((Work.keepsBuffers_iff hc e).mpr hsafe) hnext) hc

/-- A client that leaves after the handshake. -/
theorem buffers_conserved_handshake : Work.Session Work.KeepsBuffers ⟨.fresh, fun _ => none, none, [], []⟩
      [.tick ⟨[], false, .pool⟩, .tick ⟨[], false, .pool⟩, .tick ⟨[.io 7], false, .pool⟩, .tick ⟨[], true, .pool⟩] :=
  (buffers_conserved_iff _ (by decide +kernel) _).mpr (by decide +kernel)

/-- A new session: the buffer that received the handshake is still posted when the receive for the first
request is posted, and is lost. -/
theorem not_buffers_conserved_handshake : ¬ Work.Session Work.KeepsBuffers ⟨.fresh, fun _ => none, none, [], []⟩
      [.tick ⟨[], false, .pool⟩, .tick ⟨[], false, .pool⟩, .tick ⟨[.io 7], false, .pool⟩,
        .tick ⟨[], false, .pool⟩, .tick ⟨[], false, .pool⟩] := by
  decide +kernel

end Comanche.Dawn
