import RadosGateway.Cgw

/-!
# Every control message is handled once, in order

The messages that have arrived were handled, wait in slots, or stand in the buffer of `listen_loop`.
Nothing is put into a slot while `main_loop` works through the array, so the test of the counter
stays true until its message is stored, although it is made without the mutex. A message shorter
than its number makes the size of the copy wrap, and a text that is not terminated ends in an older
message. -/

namespace RadosGateway.Cgw

open Text Codec Transition
open List hiding le_refl

variable {m : Message} {count : Nat}

def Message.own (m : Message) : Slot := ⟨fromLe (m.bytes.take 4), m.bytes.drop 4, m.sockFd⟩

def Serves (m : Message) (slot : Slot) : Prop :=
  (0 : UInt8) ∈ slot.param ∧ cgwMsgHandler slot = cgwMsgHandler m.own

def Message.Terminated (m : Message) : Prop := 4 ≤ m.bytes.length ∧ (0 : UInt8) ∈ m.bytes.drop 4

instance (m : Message) : Decidable m.Terminated := by
  unfold Message.Terminated
  infer_instance

theorem Message.Terminated.size (h : m.Terminated) :
    toU64 ((m.bytes.length : Int) - 4) = m.bytes.length - 4 := by
  have hle := m.le
  have hlong := h.1
  have hcast : (m.bytes.length : Int) - 4 = (m.bytes.length - 4 : Nat) := by omega
  rw [hcast]
  apply toU64_of_lt
  unfold cgwMsgSize at hle
  omega

theorem Message.Terminated.serves_fill (h : m.Terminated) (rest : Bytes) (slot : Slot) :
    Serves m (fill (m.bytes ++ rest) m.bytes.length m.sockFd slot) := by
  have hle := m.le
  have htext : m.bytes.length - 4 = (m.bytes.drop 4).length := (length_drop ..).symm
  have hfits : (m.bytes.drop 4).length ≤ cgwMsgSize := by
    omega
  have hfill : fill (m.bytes ++ rest) m.bytes.length m.sockFd slot =
      { m.own with
        param := m.bytes.drop 4 ++
          (slot.param.drop (m.bytes.drop 4).length).take (cgwMsgSize - (m.bytes.drop 4).length)
            } := by
    unfold fill Message.own
    dsimp only
    rw [h.size, htext, take_append_of_le_length h.1, drop_append_of_le_length h.1, take_left,
      take_append, take_of_length_le hfits]
  rw [hfill]
  refine ⟨mem_append_left _ h.2, ?_⟩
  unfold cgwMsgHandler
  rw [cstr_append_of_zero_mem h.2]
  rfl

def State.base (s : State) : Nat :=
  match s.main with
  | .trying => 0
  | .looping count => count
  | .handled count => count + 1

def State.pending (s : State) : Int :=
  match s.main with
  | .handled _ => s.msgUpdate - 1
  | _ => s.msgUpdate

def InHand (s : State) (hand : List Message) : Prop :=
  match s.listener with
  | .received num comFd =>
    ∃ m rest, hand = [m] ∧ m.Terminated ∧ num = m.bytes.length ∧ comFd = m.sockFd ∧
      s.buffer = m.bytes ++ rest
  | _ => hand = []

structure Queues (s : State) (handled waiting hand : List Message) : Prop where
  slots : s.msg.length = msgQueueSize
  arrived : s.arrived = handled ++ waiting ++ hand
  calls : List.Forall₂ Serves handled s.calls
  waits : List.Forall₂ Serves waiting ((s.msg.drop s.base).take waiting.length)
  pending : s.pending = waiting.length
  fits : s.base + waiting.length ≤ msgQueueSize
  inHand : InHand s hand
  room : s.listener = .accepting ∨ hand ≠ [] → s.msgUpdate < msgQueueSize
  mutex : s.msgMutex = true ↔ s.listener = .stored ∨ s.main ≠ .trying
  apart : s.listener = .stored → s.main = .trying
  copies : ∀ c ∈ s.copies, c.1 < msgQueueSize ∧ c.2 ≤ cgwMsgSize

theorem queues_init (buffer : Bytes) : Queues (init buffer) [] [] [] where
  slots := rfl
  arrived := rfl
  calls := .nil
  waits := .nil
  pending := rfl
  fits := Nat.zero_le _
  inHand := rfl
  room := fun _ => show (0 : Int) < 10 by decide
  mutex := by simp [init]
  apart := fun _ => rfl
  copies := forall_mem_nil _

variable {s s' : State} {handled waiting hand : List Message}

theorem Queues.bounds (h : Queues s handled waiting hand) : 0 ≤ s.msgUpdate ∧
    s.msgUpdate ≤ msgQueueSize := by
  have hpending := h.pending
  have hfits := h.fits
  unfold State.pending at hpending
  unfold State.base at hfits
  cases hmain : s.main <;> rw [hmain] at hpending hfits <;> dsimp only at hpending hfits <;> omega

theorem Queues.hand_le (h : Queues s handled waiting hand) : hand.length ≤ 1 := by
  have hhand := h.inHand
  unfold InHand at hhand
  cases hlistener : s.listener with
  | received num comFd =>
    rw [hlistener] at hhand
    obtain ⟨m, rest, rfl, -⟩ := hhand
    exact le_refl 1
  | checking | accepting | stored =>
    rw [hlistener] at hhand
    obtain rfl := hhand
    exact Nat.zero_le 1

theorem Queues.hand_nil (h : Queues s handled waiting hand)
    (hlistener : ∀ num comFd, s.listener ≠ .received num comFd) : hand = [] := by
  have hhand := h.inHand
  unfold InHand at hhand
  cases hat : s.listener with
  | received num comFd => exact absurd hat (hlistener num comFd)
  | checking | accepting | stored =>
    rw [hat] at hhand
    exact hhand

section

variable (h : Queues s handled waiting hand)
include h

theorem Queues.check (hat : s.listener = .checking)
    (hroom : s.msgUpdate < msgQueueSize) :
    Queues { s with listener := .accepting } handled waiting hand := by
  cases s
  cases hat
  exact {
    h with
    room := fun _ => hroom
    mutex := h.mutex.trans (by simp)
    apart := fun hstored => nomatch hstored }

/-- A message comes in and is in the hand of the listener. -/
theorem Queues.receive (hat : s.listener = .accepting) (hm : m.Terminated) : Queues { s with
        buffer := m.bytes ++ s.buffer.drop m.bytes.length,
        listener := .received m.bytes.length m.sockFd,
        arrived := s.arrived ++ [m] } handled waiting [m] := by
  cases s
  cases hat
  have hhand : hand = [] := h.inHand
  have harrived := h.arrived
  rw [hhand, append_nil] at harrived
  exact {
    h with
    arrived := congrArg (· ++ [m]) harrived
    inHand := ⟨m, _, rfl, hm, rfl, rfl, rfl⟩
    room := fun _ => h.room (.inl rfl)
    mutex := h.mutex.trans (by simp)
    apart := fun hstored => nomatch hstored }

theorem Queues.receiveNothing (hat : s.listener = .accepting) :
    Queues { s with listener := .checking } handled waiting hand := by
  cases s
  cases hat
  exact {
    h with
    room := fun _ => h.room (.inl rfl)
    mutex := h.mutex.trans (by simp)
    apart := fun hstored => nomatch hstored }

theorem Queues.unlock (hat : s.listener = .stored) : Queues { s with
        msgMutex := false,
        listener := .checking } handled waiting hand := by
  have hmain := h.apart hat
  cases s
  cases hat
  have hhand : hand = [] := h.inHand
  exact {
    h with
    inHand := hhand
    room := fun hor => by simp [hhand] at hor
    mutex := by simpa using hmain
    apart := fun hstored => nomatch hstored }

/-- The listener stores what it received. -/
theorem Queues.store {num comFd : Nat} (hat : s.listener = .received num comFd)
    (hfree : s.msgMutex = false) :
    Queues (putMsg s num comFd) handled (waiting ++ hand) [] := by
  have hmain : s.main = .trying := by
    by_contra hne
    have := h.mutex.mpr (.inr hne)
    rw [hfree] at this
    cases this
  have hhand := h.inHand
  unfold InHand at hhand
  rw [hat] at hhand
  obtain ⟨m, rest, rfl, hm, rfl, rfl, hbuffer⟩ := hhand
  have hroom := h.room (.inr (cons_ne_nil _ _))
  have hpending : s.msgUpdate = waiting.length := by
    have := h.pending
    unfold State.pending at this
    rwa [hmain] at this
  have hindex : s.msgUpdate.toNat = waiting.length := by rw [hpending, Int.toNat_natCast]
  have hlt : waiting.length < s.msg.length := by
    rw [h.slots]
    omega
  have hwaits : List.Forall₂ Serves waiting (s.msg.take waiting.length) := by
    have := h.waits
    unfold State.base at this
    rwa [hmain] at this
  have hsize : toU64 ((m.bytes.length : Int) - 4) ≤ cgwMsgSize := by
    have := m.le
    rw [hm.size]
    omega
  have hbase : (putMsg s m.bytes.length m.sockFd).base = 0 := by
    change (match s.main with | .trying => 0 | .looping count => count | .handled count => count +
      1) = 0
    rw [hmain]
  have hslots : (putMsg s m.bytes.length m.sockFd).msg.take (waiting ++ [m]).length =
    s.msg.take waiting.length ++
        [fill (m.bytes ++ rest) m.bytes.length m.sockFd (s.msg.get ⟨waiting.length, hlt⟩)] := by
    change (s.msg.modify s.msgUpdate.toNat _).take _ = _
    rw [hindex, hbuffer, modify_eq_take_cons_drop hlt, length_append, length_singleton,
      take_append, length_take_of_le hlt.le, Nat.add_sub_cancel_left, take_take]
    simp
  refine ⟨?_, ?_, h.calls, ?_, ?_, ?_, rfl, ?_, ?_, fun _ => hmain, ?_⟩
  · exact (length_modify ..).trans h.slots
  · change s.arrived = _
    rw [h.arrived]
    simp
  · rw [hbase, drop_zero, hslots]
    exact rel_append hwaits (.cons (hm.serves_fill rest _) .nil)
  · unfold State.pending putMsg
    rw [hmain]
    simp [hpending]
  · rw [hbase, length_append, length_singleton]
    omega
  · exact fun hor => by simp [putMsg] at hor
  · simp [putMsg]
  · intro c hc
    rcases mem_append.mp hc with hold | hnew
    · exact h.copies c hold
    · obtain rfl := mem_singleton.mp hnew
      exact ⟨by omega, hsize⟩

end

/-- The main thread takes the mutex and has the waiting messages before it. -/
theorem Queues.lock (h : Queues s handled waiting hand) (hat : s.main = .trying)
    (hfree : s.msgMutex = false) : Queues
      { s with
        msgMutex := true,
        main := .looping 0 } handled waiting hand := by
  have hnot : s.listener ≠ .stored := by
    intro hstored
    have := h.mutex.mpr (.inl hstored)
    rw [hfree] at this
    cases this
  cases s
  cases hat
  exact {
    h with
    mutex := by simp
    apart := fun hstored => absurd hstored hnot }

theorem Queues.not_stored (h : Queues s handled waiting hand) (hmain : s.main ≠ .trying) :
    s.listener ≠ .stored :=
  fun hstored => hmain (h.apart hstored)

theorem Queues.leave (h : Queues s handled [] hand) (hmain : s.main ≠ .trying)
    (hzero : s.msgUpdate = 0) : Queues
      { s with
        msgMutex := false,
        main := .trying } handled [] hand := by
  have hnot := h.not_stored hmain
  exact {
    h with
    pending := hzero
    fits := Nat.zero_le _
    mutex := by simp [hnot]
    apart := fun _ => rfl }

/-- The main thread handles the next message. -/
theorem Queues.handle (h : Queues s handled (m :: waiting) hand) (hat : s.main = .looping count) :
    Queues { s with
        calls := s.calls ++ [s.msg.getD count default],
        main := .handled count } (handled ++ [m]) waiting hand := by
  have hnot : s.listener ≠ .stored := h.not_stored (by simp [hat])
  have hwaits := h.waits
  have hpending := h.pending
  have hfits := h.fits
  unfold State.base at hwaits hfits
  unfold State.pending at hpending
  rw [hat] at hwaits hfits hpending
  dsimp only at hwaits hfits hpending
  rw [length_cons] at hwaits hfits hpending
  have hlt : count < s.msg.length := by
    rw [h.slots]
    omega
  rw [drop_eq_getElem_cons hlt, take_succ_cons] at hwaits
  obtain ⟨hserves, hrest⟩ := forall₂_cons.mp hwaits
  have hslot : s.msg.getD count default = s.msg[count] := getD_eq_getElem _ _ hlt
  exact {
    h with
    arrived := by
      rw [h.arrived]
      simp
    calls := by
      rw [hslot]
      exact rel_append h.calls (.cons hserves .nil)
    waits := hrest
    pending := by
      change s.msgUpdate - 1 = _
      omega
    fits := by
      change count + 1 + _ ≤ _
      omega
    mutex := h.mutex.trans (by simp [hat])
    apart := fun hstored => absurd hstored hnot }

theorem Queues.next (h : Queues s handled waiting hand) (hat : s.main = .handled count) :
    Queues { s with
        msgUpdate := s.msgUpdate - 1,
        main := .looping (count + 1) } handled waiting hand := by
  have hnot : s.listener ≠ .stored := h.not_stored (by simp [hat])
  cases s
  cases hat
  exact {
    h with
    room := fun hor => (Int.sub_lt_self _ Int.one_pos).trans (h.room hor)
    mutex := h.mutex.trans (by simp)
    apart := fun hstored => absurd hstored hnot }

def SendsText (_ : State) : Label → Prop
  | .receive m => m.Terminated
  | _ => True

instance (s : State) (i : Label) : Decidable (SendsText s i) := by
  cases i <;> unfold SendsText <;> infer_instance

/-- One turn of the main thread. -/
theorem Queues.turn (h : Queues s handled waiting hand) (hat : s.main = .looping count)
    (hstep : step s .turn = some s') : ∃ handled' waiting', Queues s' handled' waiting' hand := by
  have hpending : s.msgUpdate = waiting.length := by
    have := h.pending
    unfold State.pending at this
    rwa [hat] at this
  unfold step at hstep
  rw [hat] at hstep
  dsimp only at hstep
  cases waiting with
  | nil =>
    rw [if_neg (by simp [hpending])] at hstep
    cases hstep
    exact ⟨_, _, h.leave (by simp [hat]) hpending⟩
  | cons m waiting =>
    rw [if_pos (by rw [hpending, length_cons]; omega)] at hstep
    cases hstep
    exact ⟨_, _, h.handle hat⟩

/-- Step lemma: every message is handled, waiting or in the hand of the listener, in order. -/
theorem Queues.step {i : Label} (h : Queues s handled waiting hand) (hok : SendsText s i)
    (hstep : Cgw.step s i = some s') : ∃ handled' waiting' hand',
      Queues s' handled' waiting' hand' := by
  cases i with
  | check =>
    simp only [Cgw.step] at hstep
    split_ifs at hstep with hat hfull
    · cases hstep
      exact ⟨_, _, _, h⟩
    · cases hstep
      exact ⟨_, _, _, h.check hat (by omega)⟩
  | receive m =>
    simp only [Cgw.step] at hstep
    split_ifs at hstep with hat
    cases hstep
    exact ⟨_, _, _, h.receive hat hok⟩
  | receiveNothing =>
    simp only [Cgw.step] at hstep
    split_ifs at hstep with hat
    cases hstep
    exact ⟨_, _, _, h.receiveNothing hat⟩
  | store =>
    unfold Cgw.step at hstep
    cases hat : s.listener with
    | received num comFd =>
      rw [hat] at hstep
      dsimp only at hstep
      split_ifs at hstep with hmutex
      cases hstep
      exact ⟨_, _, _, h.store hat (Bool.eq_false_iff.mpr hmutex)⟩
    | checking | accepting | stored =>
      rw [hat] at hstep
      cases hstep
  | unlock =>
    simp only [Cgw.step] at hstep
    split_ifs at hstep with hat
    cases hstep
    exact ⟨_, _, _, h.unlock hat⟩
  | trylock =>
    simp only [Cgw.step] at hstep
    split_ifs at hstep with hat hmutex
    · cases hstep
      exact ⟨_, _, _, h⟩
    · cases hstep
      exact ⟨_, _, _, h.lock hat (Bool.eq_false_iff.mpr hmutex)⟩
  | turn =>
    cases hat : s.main with
    | looping count =>
      obtain ⟨handled', waiting', h'⟩ := h.turn hat hstep
      exact ⟨_, _, _, h'⟩
    | trying | handled count =>
      unfold Cgw.step at hstep
      rw [hat] at hstep
      cases hstep
  | next =>
    unfold Cgw.step at hstep
    cases hat : s.main with
    | handled count =>
      rw [hat] at hstep
      cases hstep
      exact ⟨_, _, _, h.next hat⟩
    | trying | looping count =>
      rw [hat] at hstep
      cases hstep

theorem queues_of_run {buffer : Bytes} {labels : List Label}
    (h : Steps Cgw.step SendsText (init buffer) labels s) :
    ∃ handled waiting hand, Queues s handled waiting hand := by
  apply h.invariant
  · rintro s s' i ⟨handled, waiting, hand, hs⟩ hok hstep
    exact hs.step hok hstep
  · exact ⟨_, _, _, queues_init buffer⟩

section

variable (h : Queues s handled waiting hand)
include h

theorem Queues.mutex_free (hmain : s.main = .trying) (hlistener : s.listener ≠ .stored) :
    s.msgMutex = false := by
  apply Bool.eq_false_iff.mpr
  intro hmutex
  rcases h.mutex.mp hmutex with hstored | hne
  · exact hlistener hstored
  · exact hne hmain

/-- From any state in its loop, the main thread can handle everything that waits. -/
theorem Queues.drain (hat : s.main = .looping count) :
    ∃ labels s', Steps Cgw.step SendsText s labels s' ∧ Queues s' (handled ++ waiting) [] hand ∧
      s'.main = .trying ∧ s'.msgMutex = false := by
  induction waiting generalizing s handled count with
  | nil =>
    have hzero : s.msgUpdate = 0 := by
      have := h.pending
      unfold State.pending at this
      rwa [hat] at this
    have hturn : Cgw.step s .turn = some { s with msgMutex := false, main := .trying } := by
      unfold Cgw.step
      simp [hat, hzero]
    rw [append_nil]
    exact ⟨[.turn], _, .single trivial hturn, h.leave (by simp [hat]) hzero, rfl, rfl⟩
  | cons m waiting ih =>
    have hpos : 0 < s.msgUpdate := by
      have := h.pending
      unfold State.pending at this
      rw [hat, length_cons] at this
      dsimp only at this
      omega
    have hturn : Cgw.step s .turn =
        some { s with calls := s.calls ++ [s.msg.getD count default], main := .handled count } := by
      unfold Cgw.step
      simp [hat, hpos]
    obtain ⟨labels, s', hrun, hs', hmain, hmutex⟩ := ih ((h.handle hat).next rfl) rfl
    rw [append_assoc] at hs'
    exact ⟨.turn :: .next :: labels, s', .cons trivial hturn (.cons trivial rfl hrun), hs', hmain,
      hmutex⟩

theorem Queues.release :
    ∃ labels s' handled' waiting', Steps Cgw.step SendsText s labels s' ∧
    Queues s' handled' waiting' hand ∧
      handled' ++ waiting' = handled ++ waiting ∧ s'.main = .trying ∧ s'.msgMutex = false := by
  cases hat : s.main with
  | trying =>
    by_cases hstored : s.listener = .stored
    · have hunlock : Cgw.step s .unlock =
          some { s with msgMutex := false, listener := .checking } := by
        unfold Cgw.step
        simp [hstored]
      exact ⟨[.unlock], _, _, _, .single trivial hunlock, h.unlock hstored, rfl, hat, rfl⟩
    · exact ⟨_, s, _, _, .nil s, h, rfl, hat, h.mutex_free hat hstored⟩
  | looping count =>
    obtain ⟨labels, s', hrun, hs', hmain, hmutex⟩ := h.drain hat
    exact ⟨labels, s', _, _, hrun, hs', append_nil _, hmain, hmutex⟩
  | handled count =>
    have hnext : Cgw.step s .next =
        some { s with msgUpdate := s.msgUpdate - 1, main := .looping (count + 1) } := by
      unfold Cgw.step
      simp [hat]
    obtain ⟨labels, s', hrun, hs', hmain, hmutex⟩ := (h.next hat).drain rfl
    exact ⟨.next :: labels, s', _, _, .cons trivial hnext hrun, hs', append_nil _, hmain, hmutex⟩

/-- The listener can store what is in its hand. -/
theorem Queues.putInHand (hmain : s.main = .trying) (hmutex : s.msgMutex = false) :
    ∃ labels s', Steps Cgw.step SendsText s labels s' ∧ Queues s' handled (waiting ++ hand) [] ∧
      s'.main = .trying ∧ s'.msgMutex = false := by
  cases hat : s.listener with
  | received num comFd =>
    have hstore : Cgw.step s .store = some (putMsg s num comFd) := by
      unfold Cgw.step
      simp [hat, hmutex]
    exact ⟨[.store, .unlock], _, .cons trivial hstore (.single trivial rfl),
      (h.store hat hmutex).unlock rfl, hmain, rfl⟩
  | checking | accepting | stored =>
    have hhand : hand = [] := h.hand_nil fun _ _ hreceived => nomatch hat.symm.trans hreceived
    subst hhand
    rw [append_nil]
    exact ⟨_, s, .nil s, h, hmain, hmutex⟩

theorem Queues.exists_run_handling_all :
    ∃ labels s', Steps Cgw.step SendsText s labels s' ∧ Queues s' s.arrived [] [] := by
  obtain ⟨labels₁, s₁, handled₁, waiting₁, hrun₁, h₁, heq, hmain₁, hmutex₁⟩ := h.release
  obtain ⟨labels₂, s₂, hrun₂, h₂, hmain₂, hmutex₂⟩ := h₁.putInHand hmain₁ hmutex₁
  have hlock : Cgw.step s₂ .trylock = some { s₂ with msgMutex := true, main := .looping 0 } := by
    unfold Cgw.step
    simp [hmain₂, hmutex₂]
  obtain ⟨labels₃, s₃, hrun₃, h₃, -, -⟩ := (h₂.lock hmain₂ hmutex₂).drain rfl
  have harrived : handled₁ ++ (waiting₁ ++ hand) = s.arrived := by
    rw [h.arrived, ← heq, append_assoc]
  rw [harrived] at h₃
  have hdrain : Steps Cgw.step SendsText s₂ (.trylock :: labels₃) s₃ := .cons trivial hlock hrun₃
  exact ⟨_, s₃, (hrun₁.append hrun₂).append hdrain, h₃⟩

end

/-- The counter is in its range, every copy stays in its slot, the calls of the handler serve the
first messages that arrived, in their order, and of the others all but at most one wait in slots of
their own. -/
def State.Sound (s : State) : Prop :=
  (0 ≤ s.msgUpdate ∧ s.msgUpdate ≤ msgQueueSize) ∧
    (∀ c ∈ s.copies, c.1 < msgQueueSize ∧ c.2 ≤ cgwMsgSize) ∧
      ∃ handled waiting hand, s.arrived = handled ++ waiting ++ hand ∧ hand.length ≤ 1 ∧
        List.Forall₂ Serves handled s.calls ∧
          List.Forall₂ Serves waiting ((s.msg.drop s.base).take waiting.length)

/-- When clients send terminated texts, the queue is sound after every run, and every run can be
continued, by steps that receive nothing, until the handler has been called once for each message.
-/
theorem sound_of_run (buffer : Bytes) {labels : List Label}
    (h : Steps step SendsText (init buffer) labels s) :
    s.Sound ∧ ∃ labels' s', Steps step SendsText s labels' s' ∧ s'.arrived = s.arrived ∧
        List.Forall₂ Serves s.arrived s'.calls := by
  obtain ⟨handled, waiting, hand, hs⟩ := queues_of_run h
  constructor
  · exact ⟨hs.bounds, hs.copies, handled, waiting, hand, hs.arrived, hs.hand_le, hs.calls, hs.waits⟩
  · obtain ⟨labels', s', hrun, hs'⟩ := hs.exists_run_handling_all
    refine ⟨labels', s', hrun, ?_, hs'.calls⟩
    rw [hs'.arrived]
    simp

def sampleMessage (letter : UInt8) : Message :=
  ⟨7, [1, 0, 0, 0, letter, 0], by simp, by simp [cgwMsgSize]⟩

/-- Two messages are stored, the main loop handles the first one, and another one comes in. -/
def sampleLabels : List Label :=
  [.check, .receive (sampleMessage 97), .store, .unlock, .check, .receive (sampleMessage 98),
    .store, .unlock,
    .trylock, .turn, .next, .check, .receive (sampleMessage 99), .turn]

/-- The queue is sound after it. -/
theorem sound_sampleRun : ∃ s, Steps step SendsText (init []) sampleLabels s ∧ s.Sound := by
  obtain ⟨s, hs⟩ := Option.isSome_iff_exists.mp
    (show (List.foldlM (fun s i => if SendsText s i then step s i
      else none) (init []) sampleLabels).isSome by
      decide)
  have hrun := Steps.of_foldlM hs
  exact ⟨s, hrun, (sound_of_run [] hrun).1⟩

def shortMessage : Message := ⟨7, [1], by decide, by decide⟩

/-- The size of the copy of a message of one byte is 2 ^ 64 - 3. -/
theorem not_sound_shortMessage :
    ∃ s, Steps step (fun _ _ => True) (init (List.replicate 132 0))
        [.check, .receive shortMessage, .store] s ∧ ¬ s.Sound := by
  obtain ⟨s, hs⟩ := Option.isSome_iff_exists.mp
    (show (List.foldlM (fun s i => if True then step s i else none) (init (List.replicate 132 0))
      [.check, .receive shortMessage, .store]).isSome by decide)
  have hcopies : s.copies = [(0, 2 ^ 64 - 3)] := by
    have := congrArg (Option.map State.copies) hs
    exact (Option.some.inj this).symm
  refine ⟨s, Steps.of_foldlM hs, ?_⟩
  rintro ⟨-, hcopy, -⟩
  rw [hcopies] at hcopy
  have := (hcopy _ (mem_singleton_self _)).2
  revert this
  decide

end RadosGateway.Cgw
