import ZestDB.Server.Authentication
import ZestDB.Server.Loop

/-! The deadline of a session, which is set anew whenever the session begins to read. -/

namespace Zest

open Foundations

structure Limits where
  authTimeout : ℕ
  idleTimeout : ℕ

/-- What a session waits for; `opening` is the time until its first read, with TLS that of the
handshake. -/
inductive Reading where
  | opening
  | size
  | payload (payload_size : ℕ)
  | over
deriving DecidableEq, Repr

structure Watched where
  session : Session
  reading : Reading
  start : ℕ
  clock : ℕ
  deadline : ℕ
deriving DecidableEq, Repr

namespace Watched

def touch (limits : Limits) (w : Watched) : Watched :=
  { w with deadline := w.clock + if w.session.authenticated then
    limits.idleTimeout else limits.authTimeout }

def begin (limits : Limits) (now : ℕ) : Watched := touch limits ⟨{}, .opening, now, now, now⟩

def doReadSize (limits : Limits) (w : Watched) : Watched := { w.touch limits with reading := .size }

def closeStream (w : Watched) : Watched := { w with reading := .over }

inductive Input where
  | wait (elapsed : ℕ)
  | opened
  | size (payload_size : ℕ)
  | payload (payload : Bytes)
  | unsynced (payload : Bytes)
  | lost
  | timer

inductive Step (n : ℕ) [NeZero n] (pf : Platform) (sha256 : Bytes → Bytes) (limits : Limits) :
    Watched → Input → Watched → Prop
  | wait (w : Watched) (elapsed : ℕ) :
      Step n pf sha256 limits w (.wait elapsed) { w with clock := w.clock + elapsed }
  | opened {w : Watched} : w.reading = .opening →
      Step n pf sha256 limits w .opened (w.doReadSize limits)
  | sized {w : Watched} (payload_size : ℕ) : w.reading = .size →
      payload_size ≤ (if w.session.authenticated then
        MAX_PAYLOAD_SIZE else MAX_UNAUTHENTICATED_PAYLOAD_SIZE) →
      Step n pf sha256 limits w (.size payload_size) { w with reading := .payload payload_size }
  | refused {w : Watched} (payload_size : ℕ) : w.reading = .size →
      (if w.session.authenticated then MAX_PAYLOAD_SIZE else MAX_UNAUTHENTICATED_PAYLOAD_SIZE) <
        payload_size → Step n pf sha256 limits w (.size payload_size) w.closeStream
  | served {w : Watched} {payload : Bytes} {hs : List (Handling n)} {s : Session} {b : Batch} :
      w.reading = .payload payload.length → Served pf sha256 payload w.session hs s b →
      (∀ cmd next, b.turn payload ≠ .command cmd next) → b.shouldClose = false →
      Step n pf sha256 limits w (.payload payload) (doReadSize limits { w with session := s })
  | ended {w : Watched} {payload : Bytes} {hs : List (Handling n)} {s : Session} {b : Batch} :
      w.reading = .payload payload.length → Served pf sha256 payload w.session hs s b →
        b.shouldClose = true →
      Step n pf sha256 limits w (.payload payload) (closeStream { w with session := s })
  | unsynced {w : Watched} {payload : Bytes} {hs : List (Handling n)} {s : Session} {b : Batch} :
      w.reading = .payload payload.length → Served pf sha256 payload w.session hs s b →
      (∀ cmd next, b.turn payload ≠ .command cmd next) →
      Step n pf sha256 limits w (.unsynced payload) (closeStream { w with session := s })
  | lost (w : Watched) : Step n pf sha256 limits w .lost w.closeStream
  | watched {w : Watched} : w.clock < w.deadline → Step n pf sha256 limits w .timer w
  | expired {w : Watched} : w.deadline ≤ w.clock → Step n pf sha256 limits w .timer w.closeStream

inductive Run (n : ℕ) [NeZero n] (pf : Platform) (sha256 : Bytes → Bytes) (limits : Limits)
    (now : ℕ) :
    List (Watched × Input) → Watched → Prop
  | start : Run n pf sha256 limits now [] (begin limits now)
  | step {before : List (Watched × Input)} {w w' : Watched} {input : Input} :
      Run n pf sha256 limits now before w →
      Step n pf sha256 limits w input w' → Run n pf sha256 limits now (before ++ [(w, input)]) w'

def InTime (limits : Limits) (w : Watched) : Prop :=
  w.session.authenticated = false → w.deadline ≤ w.start + limits.authTimeout

/-- The first read begins at once, and a payload begins with a whole command or comes to an
authenticated session. -/
def Prompt (w : Watched) : Input → Prop
  | .opened => w.session.authenticated = true ∨ w.clock = w.start
  | .payload payload => w.session.authenticated = true ∨ w.clock = w.start ∨
      ∃ cmd next, ({} : Batch).turn payload = .command cmd next
  | _ => True

section

variable {n : ℕ} [NeZero n] {pf : Platform} {sha256 : Bytes → Bytes} {limits : Limits}
  {payload : Bytes} {s s' : Session}
  {hs : List (Handling n)} {b : Batch} {w w' : Watched} {input : Input}

lemma served_first (h : Served pf sha256 payload s hs s' b) :
    (s' = s ∧ b = {}) ∨ ∃ cmd next, ({} : Batch).turn payload = .command cmd next := by
  induction h with
  | start => exact .inl ⟨rfl, rfl⟩
  | turn k _ hturn ih =>
    rcases ih with ⟨-, rfl⟩ | ih
    · exact .inr ⟨_, _, hturn⟩
    · exact .inr ih

lemma handled_authenticated (k : Handling n) (hopen : (k.handled pf sha256).shouldClose = false) :
    (k.handled pf sha256).session.authenticated = true := by
  simp only [Handling.handled, Session.handleCommand] at hopen ⊢
  cases ha : k.session.authenticated with
  | true =>
    simp only [Bool.not_true, Bool.false_eq_true, if_false]
    cases k.host.db.users.roleOf k.session.username <;> exact ha
  | false =>
    simp only [ha, Bool.not_false, if_true] at hopen ⊢
    rcases Server.handshake_cases sha256 k.session k.moment k.cmd k.host
      with ⟨-, hclose⟩ | ⟨user, _, _, -, -, -, -, -, hsession⟩
    · rw [hopen] at hclose
      cases hclose
    · rw [hsession]

lemma served_open (h : Served pf sha256 payload s hs s' b) (hopen : b.shouldClose = false) :
    (s' = s ∧ b = {}) ∨ s'.authenticated = true := by
  cases h with
  | start => exact .inl ⟨rfl, rfl⟩
  | turn k _ _ => exact .inr (handled_authenticated k hopen)

lemma step_clock (h : Step n pf sha256 limits w input w') :
    w'.start = w.start ∧ w.clock ≤ w'.clock := by
  cases h with
  | wait elapsed => exact ⟨rfl, Nat.le_add_right _ _⟩
  | _ => exact ⟨rfl, le_rfl⟩

lemma inTime_doReadSize (hclock : w.start ≤ w.clock) :
    (w.doReadSize limits).InTime limits ↔ w.session.authenticated = true ∨ w.clock = w.start := by
  simp only [InTime, doReadSize, touch]
  cases w.session.authenticated with
  | true => simp
  | false =>
    simp only [Bool.false_eq_true, if_false, forall_const, false_or]
    omega

lemma inTime_closeStream (hin : w.InTime limits) (h : Served pf sha256 payload w.session hs s' b) :
    (closeStream { w with session := s' }).InTime limits := by
  intro hs
  cases hauth : w.session.authenticated with
  | true =>
    obtain ⟨rfl, -⟩ := h.session_eq hauth
    exact absurd (hauth.symm.trans hs) (by simp)
  | false => exact hin hauth

lemma step_inTime (hclock : w.start ≤ w.clock) (hin : w.InTime limits)
    (h : Step n pf sha256 limits w input w') :
    w'.InTime limits ↔ w.Prompt input := by
  cases h with
  | opened hreading => exact inTime_doReadSize hclock
  | @served payload hs s b hreading hserved hdone hopen =>
    rw [inTime_doReadSize (w := { w with session := s }) hclock]
    constructor
    · rintro (hauth | hnow)
      · rcases served_first hserved with ⟨rfl, -⟩ | hfirst
        · exact .inl hauth
        · exact .inr (.inr hfirst)
      · exact .inr (.inl hnow)
    · rintro (hauth | hnow | ⟨cmd, next, hfirst⟩)
      · rw [(hserved.session_eq hauth).1]
        exact .inl hauth
      · exact .inr hnow
      · rcases served_open hserved hopen with ⟨-, rfl⟩ | hauth
        · exact absurd hfirst (hdone cmd next)
        · exact .inl hauth
  | @ended payload hs s b hreading hserved hclose =>
    refine iff_of_true (inTime_closeStream hin hserved) ?_
    rcases served_first hserved with ⟨-, rfl⟩ | hfirst
    · cases hclose
    · exact .inr (.inr hfirst)
  | unsynced hreading hserved hdone => exact iff_of_true (inTime_closeStream hin hserved) trivial
  | _ => exact iff_of_true hin trivial

lemma run_clock {now : ℕ} {before : List (Watched × Input)}
    (h : Run n pf sha256 limits now before w) :
    w.start = now ∧ now ≤ w.clock := by
  induction h with
  | start => exact ⟨rfl, le_rfl⟩
  | step _ hstep ih =>
    obtain ⟨hstart, hclock⟩ := step_clock hstep
    exact ⟨hstart.trans ih.1, ih.2.trans hclock⟩

/-- An unauthenticated session never gets a deadline behind its start and `AuthTimeout`, exactly as
long as every step is prompt. -/
theorem deadline_inTime_iff {now : ℕ} {before : List (Watched × Input)}
    (h : Run n pf sha256 limits now before w) :
    (∀ u ∈ before.map Prod.fst ++ [w], u.InTime limits) ↔ ∀ p ∈ before, p.1.Prompt p.2 := by
  induction h with
  | start =>
    refine iff_of_true (fun u hu => ?_) (by simp)
    obtain rfl := List.mem_singleton.mp hu
    exact fun _ => le_rfl
  | @step before w w' input hrun hstep ih =>
    obtain ⟨hstart, hclock⟩ := run_clock hrun
    have hlast : (∀ u ∈ before.map Prod.fst ++ [w], u.InTime limits) →
        (w'.InTime limits ↔ w.Prompt input) :=
      fun hall => step_inTime (hstart ▸ hclock) (hall w (by simp)) hstep
    simp only [List.map_append, List.map_singleton, List.forall_mem_append,
      List.forall_mem_singleton] at ih hlast ⊢
    rw [← ih]
    exact ⟨fun h => ⟨h.1, (hlast h.1).mp h.2⟩, fun h => ⟨h.1, (hlast h.1).mpr h.2⟩⟩

end

def defaultLimits : Limits := ⟨10 * 10 ^ 9, 300 * 10 ^ 9⟩

def emptyPayload : List (Watched × Input) :=
  [(⟨{}, .opening, 0, 0, 10 ^ 10⟩, .opened), (⟨{}, .size, 0, 0, 10 ^ 10⟩, .wait (9 * 10 ^ 9)),
    (⟨{}, .size, 0, 9 * 10 ^ 9, 10 ^ 10⟩, .size 0),
    (⟨{}, .payload 0, 0, 9 * 10 ^ 9, 10 ^ 10⟩, .payload [])]

theorem emptyPayload_late :
    Run 1 Op.oneHash id defaultLimits 0 emptyPayload ⟨{}, .size, 0, 9 * 10 ^ 9, 19 * 10 ^ 9⟩ ∧
      ¬ (⟨{}, .size, 0, 9 * 10 ^ 9, 19 * 10 ^ 9⟩ : Watched).InTime defaultLimits := by
  have hnothing : Served (n := 1) Op.oneHash id [] {} [] {} {} := .start
  have hopened : Run 1 Op.oneHash id defaultLimits 0 ([] ++ [(begin defaultLimits 0, .opened)]) _ :=
    .step .start (.opened rfl)
  have hsized := Run.step (Run.step hopened (.wait _ (9 * 10 ^ 9))) (.sized 0 rfl (Nat.zero_le _))
  have hserved := Run.step hsized (.served rfl hnothing (by simp [Batch.turn]) rfl)
  exact ⟨hserved, by simp [InTime, defaultLimits]⟩

def noHandshake : List (Watched × Input) :=
  [(⟨{}, .opening, 0, 0, 10 ^ 10⟩, .opened), (⟨{}, .size, 0, 0, 10 ^ 10⟩, .wait (9 * 10 ^ 9)),
    (⟨{}, .size, 0, 9 * 10 ^ 9, 10 ^ 10⟩, .size 5),
    (⟨{}, .payload 5, 0, 9 * 10 ^ 9, 10 ^ 10⟩, .payload (payloadOf [ascii "x"]))]

theorem noHandshake_inTime :
    noHandshake.length = 4 ∧
      ∀ u ∈ noHandshake.map Prod.fst ++ [⟨{}, .over, 0, 9 * 10 ^ 9, 10 ^ 10⟩],
        u.InTime defaultLimits := by
  have hturn : ({} : Batch).turn (payloadOf [ascii "x"]) = .command (ascii "x") 5 := by decide
  have hrefused : Served (n := 1) Op.oneHash id (payloadOf [ascii "x"]) {}
      [⟨{}, {}, ⟨withReader 1, ∅⟩, ascii "x"⟩] {} _ :=
    .turn ⟨{}, {}, ⟨withReader 1, ∅⟩, ascii "x"⟩ .start hturn
  have hopened : Run 1 Op.oneHash id defaultLimits 0 ([] ++ [(begin defaultLimits 0, .opened)]) _ :=
    .step .start (.opened rfl)
  have hsized := Run.step (Run.step hopened (.wait _ (9 * 10 ^ 9))) (.sized 5 rfl (by decide))
  have hended := Run.step hsized (.ended rfl hrefused rfl)
  refine ⟨rfl, (deadline_inTime_iff hended).mpr fun p hp => ?_⟩
  have hcases : p ∈ noHandshake := hp
  simp only [noHandshake, List.mem_cons, List.not_mem_nil, or_false] at hcases
  rcases hcases with rfl | rfl | rfl | rfl
  · exact .inr rfl
  · trivial
  · trivial
  · exact .inr (.inr ⟨_, _, hturn⟩)

end Watched

end Zest
