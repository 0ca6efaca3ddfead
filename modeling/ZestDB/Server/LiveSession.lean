import ZestDB.Server.Deadline

/-! A session with its stream: the read, the write and the wait of the timer that are under way, and
the handlers that run when one of them ends. `close_stream` does not end them by itself, it makes
them fail. -/

namespace Zest

open Foundations

def Messages.PAYLOAD_TOO_LARGE := ascii "Payload too large !"

structure TimerWait where
  expiry : ℕ
  cancelled : Option ℕ := none
deriving DecidableEq, Repr

/-- The handler can run without an error. A wait that was over when it was cancelled may have its
handler queued. -/
def TimerWait.fires (w : TimerWait) (clock : ℕ) : Bool := w.expiry ≤ w.cancelled.getD clock

/-- What goes out on a stream. `writing` says of the write under way whether it was started on an
open stream, where it can still end well after `close_stream`. `replies` are the messages of
`queue_write`, `sent` those that were written, `wire` the bytes that left; `failed` says that an
error or the timer closed the stream. -/
structure Outbox where
  writeQueue : List Bytes := []
  writing : Option Bool := none
  closing : Bool := false
  isOpen : Bool := true
  replies : List Bytes := []
  sent : List Bytes := []
  wire : Bytes := []
  failed : Bool := false
deriving DecidableEq, Repr

/-- The timer of a session; `touched` is when the deadline was set. -/
structure Alarm where
  clock : ℕ
  deadline : ℕ := 0
  touched : ℕ := 0
  timer : Option TimerWait := none
deriving DecidableEq, Repr

/-- `readable` is for the read under way what `writing` is for the write; `received` are the
payloads that were read. -/
structure LiveSession extends Outbox, Alarm where
  session : Session := {}
  starting : Bool := true
  reading : Reading := .over
  readable : Bool := false
  received : List Bytes := []
deriving DecidableEq, Repr

namespace LiveSession

open Watched (defaultLimits)

def timeout (limits : Limits) (s : LiveSession) : ℕ :=
  if s.session.authenticated then limits.idleTimeout else limits.authTimeout

def touch (limits : Limits) (s : LiveSession) : LiveSession :=
  { s with deadline := s.clock + s.timeout limits, touched := s.clock }

def watchDeadline (s : LiveSession) : LiveSession := { s with timer := some ⟨s.deadline, none⟩ }

def closeStream (s : LiveSession) : LiveSession :=
  { s with isOpen := false, timer := s.timer.map fun w =>
    { w with cancelled := some (w.cancelled.getD s.clock) } }

def fail (s : LiveSession) : LiveSession := { s.closeStream with failed := s.failed || s.isOpen }

def doReadSize (limits : Limits) (s : LiveSession) : LiveSession :=
  { s.touch limits with reading := .size, readable := s.isOpen }

def doReadCommand (payload_size : ℕ) (s : LiveSession) : LiveSession :=
  { s with reading := .payload payload_size, readable := s.isOpen }

def doWrite (s : LiveSession) : LiveSession := { s with writing := some s.isOpen }

def queueWrite (message : Bytes) (closeAfter : Bool) (s : LiveSession) : LiveSession :=
  let s' := { s with
    writeQueue := s.writeQueue ++ [message], closing := closeAfter,
      replies := s.replies ++ [message] }
  if s.writeQueue = [] then s'.doWrite else s'

def written (s : LiveSession) : LiveSession :=
  let message := s.writeQueue.headD []
  let s' := { s with
    writeQueue := s.writeQueue.tail, writing := none, sent := s.sent ++ [message],
      wire := s.wire ++ message }
  if s'.writeQueue ≠ [] then s'.doWrite else if s'.closing then s'.closeStream else s'

def start (limits : Limits) (useSSL : Bool) (s : LiveSession) : LiveSession :=
  let s' := ({ s with starting := false }.touch limits).watchDeadline
  if useSSL then { s' with reading := .opening, readable := s'.isOpen } else s'.doReadSize limits

def maxPayload (s : LiveSession) : ℕ :=
  if s.session.authenticated then MAX_PAYLOAD_SIZE else MAX_UNAUTHENTICATED_PAYLOAD_SIZE

def tooLarge (pf : Platform) : Bytes :=
  responseToJson pf (ZestDB.failure Messages.PAYLOAD_TOO_LARGE) ++ [10]

def unauthorized : Bytes := ascii "unauthorized"

def answer (limits : Limits) (reply : Bytes) (should_close : Bool) (s : LiveSession) :
    LiveSession :=
  let s' := { s with reading := .over }.queueWrite reply should_close
  if should_close then s' else s'.doReadSize limits

def alive (s : LiveSession) : Bool :=
  s.starting || s.reading != .over || s.writing.isSome || s.timer.isSome

inductive Step (n : ℕ) [NeZero n] (pf : Platform) (sha256 : Bytes → Bytes) (limits : Limits)
    (s : LiveSession) :
    LiveSession → Prop
  | left : s.starting = true → Step n pf sha256 limits s { s with starting := false }.fail
  | refused : s.starting = true →
      Step n pf sha256 limits s ({ s with starting := false }.queueWrite unauthorized true)
  | started (useSSL : Bool) : s.starting = true → Step n pf sha256 limits s (s.start limits useSSL)
  | opened : s.reading = .opening → s.readable = true →
      Step n pf sha256 limits s (s.doReadSize limits)
  | sized (payload_size : ℕ) : s.reading = .size → s.readable = true → payload_size ≤ s.maxPayload →
      Step n pf sha256 limits s (s.doReadCommand payload_size)
  | tooLarge (payload_size : ℕ) : s.reading = .size → s.readable = true →
      s.maxPayload < payload_size →
      Step n pf sha256 limits s ({ s with reading := .over }.queueWrite (tooLarge pf) true)
  | served {payload : Bytes} {hs : List (Handling n)} {session : Session} {b : Batch} :
      s.reading = .payload payload.length → s.readable = true →
        Served pf sha256 payload s.session hs session b →
      (∀ cmd next, b.turn payload ≠ .command cmd next) →
      Step n pf sha256 limits s
        ({ s with session := session, received := s.received ++ [payload] }.answer limits
          (b.reply pf payload) b.shouldClose)
  | unsynced {payload : Bytes} {hs : List (Handling n)} {session : Session} {b : Batch} :
      s.reading = .payload payload.length → s.readable = true →
        Served pf sha256 payload s.session hs session b →
      (∀ cmd next, b.turn payload ≠ .command cmd next) →
      Step n pf sha256 limits s
      { s with session := session, received := s.received ++ [payload], reading := .over }.fail
  | lost : s.reading ≠ .over → Step n pf sha256 limits s { s with reading := .over }.fail
  | written : s.writing = some true → Step n pf sha256 limits s s.written
  | broken {started : Bool} (k : ℕ) : s.writing = some started →
      Step n pf sha256 limits s
        { s with writing := none, wire := s.wire ++ (s.writeQueue.headD []).take (if started then
          k else 0) }.fail
  | watched {w : TimerWait} : s.timer = some w → w.fires s.clock = true → s.clock < s.deadline →
      Step n pf sha256 limits s s.watchDeadline
  | expired {w : TimerWait} : s.timer = some w → w.fires s.clock = true → s.deadline ≤ s.clock →
      Step n pf sha256 limits s { s with timer := none }.fail
  | aborted {w : TimerWait} : s.timer = some w → w.cancelled.isSome = true →
      Step n pf sha256 limits s { s with timer := none }

def wait (elapsed : ℕ) (s : LiveSession) : LiveSession := { s with clock := s.clock + elapsed }

/-- A run of a session that was accepted at `now`, with the time that passes. -/
inductive Reaches (n : ℕ) [NeZero n] (pf : Platform) (sha256 : Bytes → Bytes) (limits : Limits)
    (now : ℕ) :
    LiveSession → Prop
  | accepted : Reaches n pf sha256 limits now { clock := now }
  | step {s s' : LiveSession} : Reaches n pf sha256 limits now s → Step n pf sha256 limits s s' →
      Reaches n pf sha256 limits now s'
  | wait {s : LiveSession} (elapsed : ℕ) : Reaches n pf sha256 limits now s →
      Reaches n pf sha256 limits now (s.wait elapsed)

/-- The payloads of a session with their replies, the session after them, and whether the last reply
closes it. -/
inductive Conversation (n : ℕ) [NeZero n] (pf : Platform) (sha256 : Bytes → Bytes) :
    List (Bytes × Bytes) → Session → Bool → Prop
  | opened : Conversation n pf sha256 [] {} false
  | reply {log : List (Bytes × Bytes)} {s s' : Session} {payload : Bytes} {hs : List (Handling n)}
      {b : Batch} :
      Conversation n pf sha256 log s false → Served pf sha256 payload s hs s' b →
      (∀ cmd next, b.turn payload ≠ .command cmd next) →
      Conversation n pf sha256 (log ++ [(payload, b.reply pf payload)]) s' b.shouldClose

/-- What is queued, what was written and what left agree; while the stream is open, a message that
waits is being written. -/
structure Writes (o : Outbox) : Prop where
  order : o.replies = o.sent ++ o.writeQueue
  onWire : ∃ k, o.wire = o.sent.flatten ++ (o.writeQueue.headD []).take k ∧
    (o.writing.isSome = true → k = 0)
  running : o.writing.isSome = true → o.writeQueue ≠ []
  waiting : o.isOpen = true → o.writeQueue ≠ [] → o.writing = some true
  shut : o.isOpen = false → o.failed = false → o.closing = true ∧ o.writeQueue = []
  unhurt : o.failed = true → o.isOpen = false

def Refusal (pf : Platform) (log : List (Bytes × Bytes)) (last : List Bytes) : Prop :=
  last = [tooLarge pf] ∨ log = [] ∧ last = [unauthorized]

/-- The messages are the replies of a conversation over the payloads received, with a refusal after
them or without one; a payload whose WAL records could not be synced has no reply, and is the
last. -/
inductive Talk (n : ℕ) [NeZero n] (pf : Platform) (sha256 : Bytes → Bytes) (s : LiveSession) : Prop
  | goesOn {log : List (Bytes × Bytes)} : Conversation n pf sha256 log s.session false →
      s.received = log.map Prod.fst → s.replies = log.map Prod.snd → s.closing = false →
      (s.starting = true → log = [] ∧ s.reading = .over) → Talk n pf sha256 s
  | ended {log : List (Bytes × Bytes)} : Conversation n pf sha256 log s.session true →
      s.received = log.map Prod.fst → s.replies = log.map Prod.snd → s.closing = true →
        s.reading = .over → s.starting = false → Talk n pf sha256 s
  | unsynced {log : List (Bytes × Bytes)} {s₀ : Session} {payload : Bytes} :
      Conversation n pf sha256 log s₀ false →
      s.received = log.map Prod.fst ++ [payload] → s.replies = log.map Prod.snd →
        s.closing = false → s.isOpen = false →
      s.reading = .over → s.starting = false → Talk n pf sha256 s
  | refused {log : List (Bytes × Bytes)} {last : List Bytes} :
      Conversation n pf sha256 log s.session false →
      s.received = log.map Prod.fst → Refusal pf log last → s.replies = log.map Prod.snd ++ last →
        s.closing = true → s.reading = .over → s.starting = false → Talk n pf sha256 s

section

variable {n : ℕ} [NeZero n] {pf : Platform} {sha256 : Bytes → Bytes} {limits : Limits} {now : ℕ}
  {s s' : LiveSession}

lemma queueWrite_eq (message : Bytes) (close : Bool) (s : LiveSession) :
    s.queueWrite message close = { s with
      writeQueue := s.writeQueue ++ [message], closing := close, replies := s.replies ++ [message]
      writing := if s.writeQueue = [] then some s.isOpen else s.writing } := by
  simp only [queueWrite, doWrite]
  split <;> rfl

def lastWritten (s : LiveSession) : Bool := s.writeQueue.tail.isEmpty && s.closing

lemma written_eq (s : LiveSession) : s.written =
    { s with
      writeQueue := s.writeQueue.tail, sent := s.sent ++ [s.writeQueue.headD []]
      wire := s.wire ++ s.writeQueue.headD []
      writing := if s.writeQueue.tail = [] then none else some s.isOpen
      isOpen := s.isOpen && !s.lastWritten
      timer := if s.lastWritten then s.closeStream.timer else s.timer } := by
  cases hq : s.writeQueue.tail <;> cases hc : s.closing <;>
    simp [written, doWrite, closeStream, lastWritten, hq, hc]

lemma Writes.fail (h : Writes s.toOutbox) : Writes s.fail.toOutbox where
  order := h.order
  onWire := h.onWire
  running := h.running
  waiting := nofun
  shut _ hf := by
    simp only [LiveSession.fail, Bool.or_eq_false_iff] at hf
    exact h.shut hf.2 hf.1
  unhurt _ := rfl

lemma Writes.queueWrite (message : Bytes) (close : Bool) (h : Writes s.toOutbox)
    (hc : s.closing = false) :
    Writes (s.queueWrite message close).toOutbox := by
  have hshut : s.isOpen = false → s.failed = true := by
    intro ho
    by_contra hf
    have hclosing := (h.shut ho (by simpa using hf)).1
    simp [hc] at hclosing
  obtain ⟨k, hwire, hk⟩ := h.onWire
  rw [queueWrite_eq]
  refine ⟨by simp [h.order], ?_, by simp, fun ho _ => ?_, fun ho hf => ?_, h.unhurt⟩
  · cases hq : s.writeQueue with
    | nil => exact ⟨0, by simp [hwire, hq], fun _ => rfl⟩
    | cons front rest => exact ⟨k, by simp [hwire, hq], by simpa using hk⟩
  · by_cases hq : s.writeQueue = []
    · simp only [hq, if_true]
      exact congrArg some ho
    · simp only [hq, if_false]
      exact h.waiting ho hq
  · exact absurd (hshut ho) (by simpa using hf)

lemma Writes.written (h : Writes s.toOutbox) (hw : s.writing = some
    true) : Writes s.written.toOutbox := by
  obtain ⟨k, hwire, hk⟩ := h.onWire
  obtain ⟨front, rest, hqueue⟩ := List.exists_cons_of_ne_nil (h.running (by simp [hw]))
  have hwire' : s.wire = s.sent.flatten := by simp [hwire, hk (by simp [hw])]
  have hunshut : s.isOpen = false → s.failed = true := by
    intro ho
    by_contra hf
    have hnil := (h.shut ho (by simpa using hf)).2
    simp [hqueue] at hnil
  rw [written_eq]
  refine ⟨by
    simp [h.order, hqueue], ⟨0, by simp [hwire', hqueue], fun _ => rfl⟩, by simp, fun ho hne => ?_,
    fun ho hf => ?_, fun hf => by simp [h.unhurt hf]⟩
  · simp only [Bool.and_eq_true] at ho
    simp only [if_neg hne, ho.1]
  · have hopen : s.isOpen = true := by
      cases ho' : s.isOpen with
      | true => rfl
      | false => exact absurd (hunshut ho') (by simpa using hf)
    simp only [hopen, Bool.true_and, Bool.not_eq_false', lastWritten, Bool.and_eq_true,
      List.isEmpty_iff] at ho
    exact ⟨ho.2, ho.1⟩

lemma Writes.broken {started : Bool} (k : ℕ) (h : Writes s.toOutbox) (hw : s.writing = some
    started) :
    Writes { s with
      writing := none, wire := s.wire ++ (s.writeQueue.headD []).take (if started then k
        else 0) }.fail.toOutbox := by
  obtain ⟨_, hwire, hk⟩ := h.onWire
  have hrun := h.running (by simp [hw])
  refine ⟨h.order, ⟨if started then k else 0, ?_,
    nofun⟩, nofun, nofun, fun _ hf => ?_, fun _ => rfl⟩
  · simp [LiveSession.fail, closeStream, hwire, hk (by simp [hw])]
  · simp only [LiveSession.fail, Bool.or_eq_false_iff] at hf
    exact absurd (h.shut hf.2 hf.1).2 hrun

lemma Writes.step
    (h : Writes s.toOutbox) (hc : s.starting = true ∨ s.reading ≠ .over → s.closing = false)
    (hs : Step n pf sha256 limits s s') : Writes s'.toOutbox := by
  have reading : s.reading ≠ .over → s.closing = false := fun hr => hc (.inr hr)
  cases hs with
  | left | unsynced | lost | expired => exact Writes.fail h
  | refused hstart => exact Writes.queueWrite _ _ h (hc (.inl hstart))
  | tooLarge _ hr => exact Writes.queueWrite _ _ h (reading (by simp [hr]))
  | @served payload hs session b hr =>
    have hq : Writes (({ s with session := session, received := s.received ++ [payload], reading :=
        .over } : LiveSession).queueWrite
        (b.reply pf payload) b.shouldClose).toOutbox :=
          Writes.queueWrite _ _ h (reading (by simp [hr]))
    simp only [answer]
    split
    · exact hq
    · exact hq
  | started useSSL => cases useSSL <;> exact h
  | written hw => exact h.written hw
  | broken k hw => exact h.broken k hw
  | _ => exact h

lemma Talk.open_closing (h : Talk n pf sha256 s) (ho : s.starting = true ∨ s.reading ≠ .over) :
    s.closing = false := by
  cases h with
  | goesOn _ _ _ hclosing _ => exact hclosing
  | ended _ _ _ _ hreading hstart => simp [hreading, hstart] at ho
  | unsynced _ _ _ _ _ hreading hstart => simp [hreading, hstart] at ho
  | refused _ _ _ _ _ hreading hstart => simp [hreading, hstart] at ho

lemma Talk.reading (h : Talk n pf sha256 s) (hr : s.reading ≠ .over) :
    s.starting = false ∧ ∃ log, Conversation n pf sha256 log s.session false ∧
    s.received = log.map Prod.fst ∧ s.replies = log.map Prod.snd := by
  cases h with
  | goesOn hlog hreceived hreplies _ hstart =>
    refine ⟨?_, _, hlog, hreceived, hreplies⟩
    cases hs : s.starting with
    | true => exact absurd (hstart hs).2 hr
    | false => rfl
  | ended _ _ _ _ hreading _ => exact absurd hreading hr
  | unsynced _ _ _ _ _ hreading _ => exact absurd hreading hr
  | refused _ _ _ _ _ hreading _ => exact absurd hreading hr

lemma Talk.starting (h : Talk n pf sha256 s) (hs : s.starting = true) : s.reading = .over := by
  cases h with
  | goesOn _ _ _ _ hstart => exact (hstart hs).2
  | ended _ _ _ _ hreading _ => exact hreading
  | unsynced _ _ _ _ _ hreading _ => exact hreading
  | refused _ _ _ _ _ hreading _ => exact hreading

lemma Talk.congr (h : Talk n pf sha256 s) (h₁ : s'.session = s.session)
    (h₂ : s'.replies = s.replies)
    (h₃ : s'.closing = s.closing) (h₄ : s'.reading = s.reading) (h₅ : s'.starting = s.starting)
    (h₆ : s'.received = s.received) (h₇ : s.isOpen = false → s'.isOpen = false) :
    Talk n pf sha256 s' := by
  cases h with
  | goesOn hlog hreceived hreplies hclosing hstart =>
    exact .goesOn (h₁ ▸ hlog) (h₆.trans hreceived) (h₂.trans hreplies) (h₃.trans hclosing)
      (by rwa [h₄, h₅])
  | ended hlog hreceived hreplies hclosing hreading hstart =>
    exact .ended (h₁ ▸ hlog) (h₆.trans hreceived) (h₂.trans hreplies) (h₃.trans hclosing)
      (h₄.trans hreading) (h₅.trans hstart)
  | unsynced hlog hreceived hreplies hclosing hopen hreading hstart =>
    exact .unsynced hlog (h₆.trans hreceived) (h₂.trans hreplies) (h₃.trans hclosing) (h₇ hopen)
      (h₄.trans hreading) (h₅.trans hstart)
  | refused hlog hreceived hlast hreplies hclosing hreading hstart =>
    exact .refused (h₁ ▸ hlog) (h₆.trans hreceived) hlast (h₂.trans hreplies)
      (h₃.trans hclosing) (h₄.trans hreading) (h₅.trans hstart)

lemma Talk.step (h : Talk n pf sha256 s)
    (hs : Step n pf sha256 limits s s') : Talk n pf sha256 s' := by
  have hclosing := h.open_closing
  -- a session that has not begun has no replies yet
  have fresh : s.starting = true → ∃ log, log = [] ∧ Conversation n pf sha256 log s.session false ∧
      s.received = log.map Prod.fst ∧ s.replies = log.map Prod.snd := by
    intro hstarting
    cases h with
    | goesOn hlog hreceived hreplies _ hstart => exact ⟨_, (hstart hstarting).1,
        hlog, hreceived, hreplies⟩
    | ended _ _ _ _ _ hstart => simp [hstarting] at hstart
    | unsynced _ _ _ _ _ _ hstart => simp [hstarting] at hstart
    | refused _ _ _ _ _ _ hstart => simp [hstarting] at hstart
  cases hs with
  | left hstarting =>
    obtain ⟨log, -, hlog, hreceived, hreplies⟩ := fresh hstarting
    exact .goesOn hlog hreceived hreplies (hclosing (.inl hstarting)) nofun
  | started useSSL hstarting =>
    obtain ⟨log, -, hlog, hreceived, hreplies⟩ := fresh hstarting
    cases useSSL <;> exact .goesOn hlog hreceived hreplies (hclosing (.inl hstarting)) nofun
  | refused hstarting =>
    obtain ⟨log, hnil, hlog, hreceived, hreplies⟩ := fresh hstarting
    rw [queueWrite_eq]
    exact .refused hlog hreceived
      (.inr ⟨hnil, rfl⟩) (by simp [hreplies]) rfl (h.starting hstarting) rfl
  | opened hr =>
    obtain ⟨hstart, log, hlog, hreceived, hreplies⟩ := h.reading (by simp [hr])
    exact .goesOn hlog hreceived hreplies (hclosing (.inr (by simp [hr]))) (by simp [doReadSize,
      touch, hstart])
  | sized _ hr =>
    obtain ⟨hstart, log, hlog, hreceived, hreplies⟩ := h.reading (by simp [hr])
    exact .goesOn hlog hreceived hreplies (hclosing (.inr (by simp [hr]))) (by simp [doReadCommand,
      hstart])
  | tooLarge _ hr =>
    obtain ⟨hstart, log, hlog, hreceived, hreplies⟩ := h.reading (by simp [hr])
    rw [queueWrite_eq]
    exact .refused hlog hreceived (.inl rfl) (by simp [hreplies]) rfl rfl hstart
  | @served payload hs session b hr _ hserved hdone =>
    obtain ⟨hstart, log, hlog, hreceived, hreplies⟩ := h.reading (by simp [hr])
    have hlog' := Conversation.reply hlog hserved hdone
    cases hb : b.shouldClose with
    | true =>
      rw [hb] at hlog'
      simp only [answer, queueWrite_eq, if_true]
      exact .ended hlog' (by simp [hreceived]) (by simp [hreplies]) rfl rfl hstart
    | false =>
      rw [hb] at hlog'
      simp only [answer, queueWrite_eq, Bool.false_eq_true, if_false]
      exact .goesOn hlog' (by simp [doReadSize,
        touch, hreceived]) (by simp [doReadSize, touch, hreplies]) rfl
        (by simp [doReadSize, touch, hstart])
  | unsynced hr =>
    obtain ⟨hstart, log, hlog, hreceived, hreplies⟩ := h.reading (by simp [hr])
    exact .unsynced hlog (by rw [← hreceived]; rfl) hreplies (hclosing (.inr (by simp [hr])))
      rfl rfl hstart
  | lost hr =>
    obtain ⟨hstart, log, hlog, hreceived, hreplies⟩ := h.reading hr
    exact .goesOn hlog hreceived
      hreplies (hclosing (.inr hr)) (by simp [LiveSession.fail, closeStream, hstart])
  | written =>
    rw [written_eq]
    exact h.congr rfl rfl rfl rfl rfl rfl fun ho => by simp [ho]
  | broken | expired => exact h.congr rfl rfl rfl rfl rfl rfl fun _ => rfl
  | _ => exact h.congr rfl rfl rfl rfl rfl rfl id

lemma Reaches.talk (h : Reaches n pf sha256 limits now s) :
    Writes s.toOutbox ∧ Talk n pf sha256 s := by
  induction h with
  | accepted =>
    exact ⟨⟨rfl, ⟨0, rfl, fun _ => rfl⟩, nofun, fun _ h => absurd rfl h, nofun, nofun⟩,
      .goesOn .opened rfl rfl rfl fun _ => ⟨rfl, rfl⟩⟩
  | step _ hstep ih => exact ⟨ih.1.step ih.2.open_closing hstep, ih.2.step hstep⟩
  | wait elapsed _ ih => exact ⟨ih.1, ih.2.congr rfl rfl rfl rfl rfl rfl id⟩

/-- In every run the messages are the replies to the payloads of one conversation, in its order and
at the end perhaps a refusal; what leaves is a prefix of them, and a stream that neither an error
nor the timer closed has sent them all. -/
theorem replies_in_order (h : Reaches n pf sha256 limits now s) :
    Talk n pf sha256 s ∧ s.replies = s.sent ++ s.writeQueue ∧ s.sent.flatten <+: s.wire ∧
      s.wire <+: s.replies.flatten ∧
      (s.isOpen = false → s.failed = false → s.closing = true ∧ s.wire = s.replies.flatten) := by
  obtain ⟨hwrites, htalk⟩ := h.talk
  obtain ⟨k, hwire, -⟩ := hwrites.onWire
  refine ⟨htalk, hwrites.order, ⟨_, hwire.symm⟩, ?_, fun ho hf => ?_⟩
  · rw [hwire, hwrites.order, List.flatten_append, List.prefix_append_right_inj]
    cases s.writeQueue with
    | nil => simp
    | cons front rest => exact (List.take_prefix k front).trans (by simp)
  · obtain ⟨hclosing, hqueue⟩ := hwrites.shut ho hf
    exact ⟨hclosing, by simp [hwire, hwrites.order, hqueue]⟩

inductive Followed (n : ℕ) [NeZero n] (pf : Platform) (sha256 : Bytes → Bytes) (limits : Limits)
    (s : LiveSession) : Prop
  | waiting : s.starting = true → s.session = {} → Followed n pf sha256 limits s
  | turnedAway : s.starting = false → s.reading = .over → Followed n pf sha256 limits s
  | begun (before : List (Watched × Watched.Input)) (now : ℕ) : s.starting = false →
      Watched.Run n pf sha256 limits now before ⟨s.session, s.reading, now, s.clock, s.deadline⟩ →
      Followed n pf sha256 limits s

lemma Followed.congr (h : Followed n pf sha256 limits s) (h₁ : s'.session = s.session)
    (h₂ : s'.reading = s.reading)
    (h₃ : s'.clock = s.clock) (h₄ : s'.deadline = s.deadline) (h₅ : s'.starting = s.starting) :
    Followed n pf sha256 limits s' := by
  cases h with
  | waiting hstart hsession => exact .waiting (h₅.trans hstart) (h₁.trans hsession)
  | turnedAway hstart hreading => exact .turnedAway (h₅.trans hstart) (h₂.trans hreading)
  | begun before now hstart hrun =>
    exact .begun before now (h₅.trans hstart) (by rwa [h₁, h₂, h₃, h₄])

lemma Followed.step
    (h : Followed n pf sha256 limits s) (htalk : Talk n pf sha256 s)
    (hs : Step n pf sha256 limits s s') :
    Followed n pf sha256 limits s' := by
  -- the handler of a read runs in a session that has begun
  have reading : s.reading ≠ .over → s.starting = false ∧ ∃ now before,
      Watched.Run n pf sha256 limits now before ⟨s.session, s.reading, now, s.clock,
        s.deadline⟩ := by
    intro hr
    cases h with
    | waiting hstart _ => exact absurd (htalk.starting hstart) hr
    | turnedAway _ hover => exact absurd hover hr
    | begun before now hstart hrun => exact ⟨hstart, now, before, hrun⟩
  have session : s.starting = true → s.session = {} := by
    intro hstart
    cases h with
    | waiting _ hsession => exact hsession
    | turnedAway hfalse _ => simp [hstart] at hfalse
    | begun _ _ hfalse _ => simp [hstart] at hfalse
  cases hs with
  | left hstart => exact .turnedAway rfl (htalk.starting hstart)
  | refused hstart =>
    rw [queueWrite_eq]
    exact .turnedAway rfl (htalk.starting hstart)
  | started useSSL hstart =>
    have hbegin : Watched.Run n pf sha256 limits s.clock [] (.begin limits s.clock) := .start
    cases useSSL with
    | true =>
      refine .begun [] s.clock rfl ?_
      simpa [start, touch, watchDeadline, timeout, Watched.begin,
        Watched.touch, session hstart] using hbegin
    | false =>
      have hopened := Watched.Run.step hbegin (.opened rfl)
      refine .begun [(.begin limits s.clock, .opened)] s.clock rfl ?_
      simpa [start, touch, watchDeadline, timeout, doReadSize,
        Watched.begin, Watched.touch, Watched.doReadSize, session hstart] using hopened
  | opened hr =>
    obtain ⟨hstart, now, before, hrun⟩ := reading (by simp [hr])
    exact .begun _ now hstart (hrun.step (.opened hr))
  | sized payload_size hr _ hle =>
    obtain ⟨hstart, now, before, hrun⟩ := reading (by simp [hr])
    exact .begun _ now hstart (hrun.step (.sized payload_size hr hle))
  | tooLarge payload_size hr _ hlt =>
    obtain ⟨hstart, now, before, hrun⟩ := reading (by simp [hr])
    rw [queueWrite_eq]
    exact .begun _ now hstart (hrun.step (.refused payload_size hr hlt))
  | @served payload hs session b hr _ hserved hdone =>
    obtain ⟨hstart, now, before, hrun⟩ := reading (by simp [hr])
    cases hb : b.shouldClose with
    | true =>
      simp only [answer, queueWrite_eq, if_true]
      exact .begun _ now hstart (hrun.step (.ended hr hserved hb))
    | false =>
      simp only [answer, queueWrite_eq, Bool.false_eq_true, if_false]
      exact .begun _ now hstart (hrun.step (.served hr hserved hdone hb))
  | unsynced hr _ hserved hdone =>
    obtain ⟨hstart, now, before, hrun⟩ := reading (by simp [hr])
    exact .begun _ now hstart (hrun.step (.unsynced hr hserved hdone))
  | lost hr =>
    obtain ⟨hstart, now, before, hrun⟩ := reading hr
    exact .begun _ now hstart (hrun.step (.lost _))
  | written =>
    rw [written_eq]
    exact h.congr rfl rfl rfl rfl rfl
  | _ => exact h.congr rfl rfl rfl rfl rfl

theorem Reaches.followed (h : Reaches n pf sha256 limits now s) :
    Followed n pf sha256 limits s := by
  induction h with
  | accepted => exact .waiting rfl rfl
  | step hreach hstep ih => exact ih.step hreach.talk.2 hstep
  | wait elapsed _ ih =>
    cases ih with
    | waiting hstart hsession => exact .waiting hstart hsession
    | turnedAway hstart hreading => exact .turnedAway hstart hreading
    | begun _ now hstart hrun => exact .begun _ now hstart (hrun.step (.wait _ elapsed))

def hello : Bytes := payloadOf [ascii "Authorization: alice."]

def question : Bytes := payloadOf [ascii "get a"]

def helloHandled : Handled 1 :=
  Handling.handled Op.oneHash id ⟨{}, {}, ⟨withReader 1, ∅⟩, ascii "Authorization: alice."⟩

def questionHandled : Handled 1 := (byReader (ascii "get a")).handled Op.oneHash id

lemma hello_served : Served Op.oneHash id hello {}
    [(⟨{}, {}, ⟨withReader 1, ∅⟩, ascii "Authorization: alice."⟩ : Handling 1)]
    ⟨true, ascii "alice"⟩ (({} : Batch).next Op.oneHash 25 helloHandled) :=
  .turn ⟨{}, {}, ⟨withReader 1, ∅⟩, ascii "Authorization: alice."⟩ .start (by decide +kernel)

lemma question_served :
    Served Op.oneHash id question ⟨true, ascii "alice"⟩ [(byReader (ascii "get a") : Handling 1)]
    ⟨true, ascii "alice"⟩ (({} : Batch).next Op.oneHash 9 questionHandled) :=
  .turn (byReader (ascii "get a")) .start (by decide +kernel)

/-- A client sends a handshake and a command; the reply to the first was written. -/
theorem hello_question_in_order : ∃ s, Reaches 1 Op.oneHash id defaultLimits 0 s ∧
    s.received = [hello, question] ∧ s.replies.length = 2 ∧
    s.sent.length = 1 ∧ Talk 1 Op.oneHash id s ∧ s.wire <+: s.replies.flatten := by
  have haccepted : Reaches 1 Op.oneHash id defaultLimits 0 { clock := 0 } := .accepted
  have hstarted := Reaches.step haccepted (.started false rfl)
  have hdone : (({} : Batch).next Op.oneHash 25 helloHandled).turn hello = .done := by
    decide +kernel
  have hdone' : (({} : Batch).next Op.oneHash 9 questionHandled).turn question = .done := by
    decide +kernel
  have hfirst := Reaches.step
    (Reaches.step hstarted (.sized hello.length rfl rfl (by decide +kernel)))
    (.served rfl rfl hello_served (by simp [hdone]))
  have hsecond := Reaches.step (Reaches.step hfirst
    (.sized question.length rfl rfl (by decide +kernel)))
    (.served rfl rfl question_served (by simp [hdone']))
  have hwritten := Reaches.step hsecond (.written rfl)
  obtain ⟨htalk, -, -, hwire, -⟩ := replies_in_order hwritten
  exact ⟨_, hwritten, rfl, rfl, rfl, htalk, hwire⟩

end

end LiveSession

end Zest
