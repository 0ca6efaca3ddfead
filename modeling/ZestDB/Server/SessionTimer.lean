import ZestDB.Foundations.Progress
import ZestDB.Server.LiveSession

/-! The timer of a session: it is set while the session is open, and it ends a session whose client
is silent. -/

namespace Zest

open Foundations

def Limits.longest (limits : Limits) : ℕ := max limits.authTimeout limits.idleTimeout

namespace LiveSession

open Watched (defaultLimits)

/-- What a session does when its client only takes what it is sent: the timer and the writes go on,
what was closed comes to its end, and time passes until the wait of the timer is over. -/
inductive Alone (n : ℕ) [NeZero n] (pf : Platform) (sha256 : Bytes → Bytes) (limits : Limits)
    (s : LiveSession) :
    LiveSession → Prop
  | closed {s' : LiveSession} : s.isOpen = false → Step n pf sha256 limits s s' →
      Alone n pf sha256 limits s s'
  | written : s.writing = some true → Alone n pf sha256 limits s s.written
  | watched {w : TimerWait} : s.timer = some w → w.fires s.clock = true → s.clock < s.deadline →
      Alone n pf sha256 limits s s.watchDeadline
  | expired {w : TimerWait} : s.timer = some w → w.fires s.clock = true → s.deadline ≤ s.clock →
      Alone n pf sha256 limits s { s with timer := none }.fail
  | passed {w : TimerWait} (elapsed : ℕ) : s.timer = some w → w.cancelled = none →
      s.clock < w.expiry →
      w.expiry ≤ s.clock + elapsed → Alone n pf sha256 limits s (s.wait elapsed)

def readRank (s : LiveSession) : ℕ := if s.reading = .over then 0 else if s.readable then 2 else 1

def writeRank (o : Outbox) : ℕ :=
  o.writeQueue.length + o.writing.elim 0 fun started => if started then 2 else 1

def waitRank (clock deadline : ℕ) (w : TimerWait) : ℕ :=
  1 + (if w.expiry < deadline then 2 else 0) + if w.cancelled = none ∧ clock < w.expiry then
    1 else 0

def timerRank (a : Alarm) : ℕ := a.timer.elim 0 (waitRank a.clock a.deadline)

def rank (s : LiveSession) : ℕ :=
  (if s.isOpen then 1 else 0) + 5 * s.readRank + writeRank s.toOutbox + timerRank s.toAlarm

structure Guarded (s : LiveSession) : Prop where
  fresh : s.starting = true → s.isOpen = true ∧ s.timer = none ∧ s.writing = none ∧ s.replies = []
  armed : s.isOpen = true → s.starting = false → (∃ w, s.timer = some w ∧ w.cancelled = none) ∨
    (s.timer = none ∧ s.reading = .over ∧ s.replies = [unauthorized])

structure Clocked (limits : Limits) (a : Alarm) : Prop where
  past : a.touched ≤ a.clock
  due : a.deadline ≤ a.touched + limits.longest
  pending : ∀ w, a.timer = some w → w.expiry ≤ a.touched + limits.longest
  cancelled : ∀ w c, a.timer = some w → w.cancelled = some c → c ≤ a.clock

section

variable {n : ℕ} [NeZero n] {pf : Platform} {sha256 : Bytes → Bytes} {limits : Limits} {now : ℕ}
  {s s' : LiveSession}

lemma Clocked.fail (h : Clocked limits s.toAlarm) : Clocked limits s.fail.toAlarm where
  past := h.past
  due := h.due
  pending := by
    intro w hw
    obtain ⟨v, hv, rfl⟩ := Option.map_eq_some_iff.mp hw
    exact h.pending v hv
  cancelled := by
    intro w c hw hc
    obtain ⟨v, hv, rfl⟩ := Option.map_eq_some_iff.mp hw
    obtain rfl := Option.some.inj hc
    cases hv' : v.cancelled with
    | none => exact le_rfl
    | some c => exact h.cancelled v c hv hv'

lemma Clocked.touch (h : Clocked limits s.toAlarm) : Clocked limits (s.touch limits).toAlarm where
  past := le_rfl
  due := by
    have hle : s.timeout limits ≤ limits.longest := by
      simp only [timeout, Limits.longest]
      split <;> omega
    exact Nat.add_le_add_left hle _
  pending w hw := (h.pending w hw).trans (Nat.add_le_add_right h.past _)
  cancelled := h.cancelled

lemma Clocked.watchDeadline (h : Clocked limits s.toAlarm) :
    Clocked limits s.watchDeadline.toAlarm where
  past := h.past
  due := h.due
  pending := by
    rintro w ⟨⟩
    exact h.due
  cancelled := by
    rintro w c ⟨⟩ ⟨⟩

lemma Clocked.wait (elapsed : ℕ) (h : Clocked limits s.toAlarm) :
    Clocked limits (s.wait elapsed).toAlarm where
  past := h.past.trans (Nat.le_add_right _ _)
  due := h.due
  pending := h.pending
  cancelled w c hw hc := (h.cancelled w c hw hc).trans (Nat.le_add_right _ _)

lemma Clocked.step (h : Clocked limits s.toAlarm) (hs : Step n pf sha256 limits s s') :
    Clocked limits s'.toAlarm := by
  have none : Clocked limits { s.toAlarm with timer := none } := ⟨h.past, h.due, nofun, nofun⟩
  cases hs with
  | left | unsynced | lost | broken => exact Clocked.fail h
  | refused | tooLarge =>
    rw [queueWrite_eq]
    exact h
  | started useSSL =>
    have hw := Clocked.watchDeadline (h.touch)
    cases useSSL with
    | true => exact hw
    | false => exact hw.touch
  | opened => exact h.touch
  | sized => exact h
  | served =>
    simp only [answer, queueWrite_eq]
    split
    · exact h
    · exact Clocked.touch h
  | written =>
    rw [written_eq]
    cases s.lastWritten with
    | true => exact h.fail
    | false => exact h
  | watched => exact h.watchDeadline
  | expired => exact Clocked.fail none
  | aborted => exact none

lemma Guarded.step (h : s.Guarded) (hquiet : s.starting = true → s.reading = .over)
    (hs : Step n pf sha256 limits s s') :
    s'.Guarded := by
  have begun : s.starting = true ∨ s.starting = false := by cases s.starting <;> simp
  have reading : s.reading ≠ .over → s.starting = false :=
    fun hr => begun.resolve_left fun hb => hr (hquiet hb)
  have writing : ∀ {started : Bool}, s.writing = some started → s.starting = false := fun hw =>
    begun.resolve_left fun hb => by simp [(h.fresh hb).2.2.1] at hw
  have waiting : ∀ {w : TimerWait}, s.timer = some w → s.starting = false := fun hw =>
    begun.resolve_left fun hb => by simp [(h.fresh hb).2.1] at hw
  have armed : ∀ {t : LiveSession}, s.starting = false → t.starting = s.starting →
      (t.isOpen = true → s.isOpen = true) → (t.isOpen = true → t.timer = s.timer) →
      (s.reading = .over → t.reading = .over ∧ t.replies = s.replies) → t.Guarded := by
    intro t hstart h₁ h₂ h₃ h₄
    refine ⟨fun ht => ?_, fun ho _ => ?_⟩
    · rw [h₁, hstart] at ht
      cases ht
    · rw [h₃ ho]
      refine (h.armed (h₂ ho) hstart).imp_right fun ⟨ht, hr, hreplies⟩ => ?_
      rw [(h₄ hr).1, (h₄ hr).2]
      exact ⟨ht, rfl, hreplies⟩
  have shut : ∀ {t : LiveSession}, t.starting = false → t.isOpen = false → t.Guarded := by
    intro t ht ho
    exact ⟨fun hb => by simp [ht] at hb, fun hopen => by simp [ho] at hopen⟩
  cases hs with
  | left => exact shut rfl rfl
  | refused hstart =>
    obtain ⟨-, htimer, -, hreplies⟩ := h.fresh hstart
    rw [queueWrite_eq]
    exact ⟨nofun, fun _ _ => .inr ⟨htimer, hquiet hstart, by simp [hreplies]⟩⟩
  | started useSSL =>
    cases useSSL with
    | true => exact ⟨nofun, fun _ _ => .inl ⟨_, rfl, rfl⟩⟩
    | false => exact ⟨nofun, fun _ _ => .inl ⟨_, rfl, rfl⟩⟩
  | opened hr | sized _ hr =>
    exact armed (reading (by simp [hr])) rfl id (fun _ => rfl) (by simp [hr])
  | tooLarge _ hr =>
    rw [queueWrite_eq]
    exact armed (reading (by simp [hr])) rfl id (fun _ => rfl) (by simp [hr])
  | served hr =>
    refine armed (reading (by simp [hr])) ?_ ?_ ?_ (by simp [hr])
    all_goals simp only [answer, queueWrite_eq]; split <;> simp [doReadSize, touch]
  | unsynced hr => exact shut (reading (by simp [hr])) rfl
  | lost hr => exact shut (reading hr) rfl
  | written hw =>
    rw [written_eq]
    refine armed (writing hw) rfl (by simp +contextual) (fun ho => ?_) (fun hr => ⟨hr, rfl⟩)
    simp only [Bool.and_eq_true, Bool.not_eq_true'] at ho
    simp [ho.2]
  | broken _ hw => exact shut (writing hw) rfl
  | watched hw => exact ⟨fun hb => by simp [watchDeadline, waiting hw] at hb,
      fun _ _ => .inl ⟨_, rfl, rfl⟩⟩
  | expired hw => exact shut (waiting hw) rfl
  | @aborted w hw hc =>
    refine shut (waiting hw) ?_
    show s.isOpen = false
    cases ho : s.isOpen with
    | false => rfl
    | true =>
      rcases h.armed ho (waiting hw) with ⟨v, hv, hcancelled⟩ | ⟨hnone, -⟩
      · obtain rfl := Option.some.inj (hw.symm.trans hv)
        simp [hcancelled] at hc
      · simp [hw] at hnone

lemma Reaches.guarded (h : Reaches n pf sha256 limits now s) :
    Clocked limits s.toAlarm ∧ s.Guarded := by
  induction h with
  | accepted => exact ⟨⟨Nat.zero_le _, Nat.zero_le _, nofun, nofun⟩,
      ⟨fun _ => ⟨rfl, rfl, rfl, rfl⟩, nofun⟩⟩
  | step hreach hstep ih => exact ⟨ih.1.step hstep, ih.2.step hreach.talk.2.starting hstep⟩
  | wait elapsed _ ih => exact ⟨ih.1.wait elapsed, ⟨ih.2.fresh, ih.2.armed⟩⟩

/-- An open session that was let in has a wait of the timer under way, which is over, like its
deadline, at most the longest timeout after the session last began to read; the others are those
whose address was refused. -/
theorem timer_armed (h : Reaches n pf sha256 limits now s) (hopen : s.isOpen = true)
    (hstart : s.starting = false) :
    (∃ w, s.timer = some w ∧ w.cancelled = none ∧ w.expiry ≤ s.touched + limits.longest ∧
        s.deadline ≤ s.touched + limits.longest) ∨
      (s.timer = none ∧ s.reading = .over ∧ s.replies = [unauthorized]) := by
  obtain ⟨hclock, hguard⟩ := h.guarded
  exact (hguard.armed hopen hstart).imp_left fun ⟨w, hw, hc⟩ =>
    ⟨w, hw, hc, hclock.pending w hw, hclock.due⟩

def twoLines : LiveSession where
  writeQueue := [[10]]
  writing := some true
  replies := [[10], [10]]
  sent := [[10]]
  wire := [10]
  clock := 0
  deadline := 10 ^ 10
  timer := some ⟨10 ^ 10, none⟩
  starting := false
  reading := .size
  readable := true
  received := [[], []]

lemma twoLines_reached : Reaches 1 Op.oneHash id defaultLimits 0 twoLines := by
  have hnothing : Served (n := 1) Op.oneHash id [] {} [] {} {} := .start
  have haccepted : Reaches 1 Op.oneHash id defaultLimits 0 { clock := 0 } := .accepted
  have hstarted := Reaches.step haccepted (.started false rfl)
  have hfirst := Reaches.step (Reaches.step hstarted (.sized 0 rfl rfl (Nat.zero_le _)))
    (.served rfl rfl hnothing (by simp [Batch.turn]))
  have hsecond := Reaches.step (Reaches.step hfirst (.sized 0 rfl rfl (Nat.zero_le _)))
    (.served rfl rfl hnothing (by simp [Batch.turn]))
  exact Reaches.step hsecond (.written rfl)

theorem twoLines_armed : ∃ w, twoLines.timer = some w ∧ w.cancelled = none ∧
    w.expiry ≤ 300 * 10 ^ 9 := by
  rcases timer_armed twoLines_reached rfl rfl with ⟨w, hw, hc, hexpiry, -⟩ | ⟨hnone, -⟩
  · exact ⟨w, hw, hc, hexpiry⟩
  · cases hnone

lemma Step.starting (hs : Step n pf sha256 limits s s') (h : s.starting = false) :
    s'.starting = false := by
  cases hs with
  | left | refused => simp only [queueWrite_eq, LiveSession.fail, closeStream]
  | started useSSL => cases useSSL <;> rfl
  | served =>
    simp only [answer, queueWrite_eq]
    split <;> exact h
  | tooLarge => rw [queueWrite_eq]; exact h
  | written => rw [written_eq]; exact h
  | _ => exact h

lemma Step.closed (hs : Step n pf sha256 limits s s') (h : s.isOpen = false) :
    s'.isOpen = false := by
  cases hs with
  | started useSSL => cases useSSL <;> exact h
  | served =>
    simp only [answer, queueWrite_eq]
    split <;> exact h
  | refused | tooLarge => rw [queueWrite_eq]; exact h
  | written => rw [written_eq]; simp [h]
  | opened | sized | watched | aborted => exact h
  | _ => rfl

lemma Step.clock (hs : Step n pf sha256 limits s s') : s'.clock = s.clock := by
  cases hs with
  | started useSSL => cases useSSL <;> rfl
  | served =>
    simp only [answer, queueWrite_eq]
    split <;> rfl
  | refused | tooLarge => rw [queueWrite_eq]
  | written => rw [written_eq]
  | _ => rfl

lemma Alone.step_or_passed (h : Alone n pf sha256 limits s s') :
    Step n pf sha256 limits s s' ∨ ∃ w elapsed, s' = s.wait elapsed ∧ s.timer = some w ∧
    w.cancelled = none ∧ s.clock < w.expiry ∧ w.expiry ≤ s.clock + elapsed := by
  cases h with
  | closed _ hs => exact .inl hs
  | written hw => exact .inl (.written hw)
  | watched hw hf hd => exact .inl (.watched hw hf hd)
  | expired hw hf hd => exact .inl (.expired hw hf hd)
  | passed elapsed hw hc hlt hle => exact .inr ⟨_, elapsed, rfl, hw, hc, hlt, hle⟩

structure Admitted (n : ℕ) [NeZero n] (pf : Platform) (sha256 : Bytes → Bytes) (limits : Limits)
    (s : LiveSession) :
    Prop where
  reaches : ∃ now, Reaches n pf sha256 limits now s
  begun : s.starting = false
  timed : s.isOpen = true → s.timer.isSome = true

lemma Admitted.alone (h : Admitted n pf sha256 limits s) (hs : Alone n pf sha256 limits s s') :
    Admitted n pf sha256 limits s' := by
  obtain ⟨⟨now, hreach⟩, hbegun, htimed⟩ := h
  refine ⟨⟨now, ?_⟩, ?_, ?_⟩
  · rcases hs.step_or_passed with hstep | ⟨-, elapsed, rfl, -⟩
    · exact .step hreach hstep
    · exact .wait elapsed hreach
  · rcases hs.step_or_passed with hstep | ⟨-, elapsed, rfl, -⟩
    · exact hstep.starting hbegun
    · exact hbegun
  · intro ho
    cases hs with
    | closed hclosed hstep => simp [hstep.closed hclosed] at ho
    | written =>
      rw [written_eq] at ho ⊢
      simp only [Bool.and_eq_true, Bool.not_eq_true'] at ho
      simpa [ho.2] using htimed ho.1
    | watched => rfl
    | expired => cases ho
    | passed => exact htimed ho

lemma Admitted.wait (elapsed : ℕ) (h : Admitted n pf sha256 limits s) :
    Admitted n pf sha256 limits (s.wait elapsed) := by
  obtain ⟨⟨now, hreach⟩, hbegun, htimed⟩ := h
  exact ⟨⟨now, .wait elapsed hreach⟩, hbegun, htimed⟩

lemma timerRank_touch (s : LiveSession) :
    timerRank (s.touch limits).toAlarm ≤ timerRank s.toAlarm + 2 := by
  have hle : ∀ (clock d d' : ℕ) (w : TimerWait), waitRank clock d w ≤ waitRank clock d' w + 2 := by
    intro clock d d' w
    simp only [waitRank]
    split_ifs <;> omega
  cases hw : s.timer with
  | none => simp [timerRank, touch, hw]
  | some w => simpa [timerRank, touch, hw] using hle s.clock _ s.deadline w

lemma timerRank_fail (s : LiveSession) : timerRank s.fail.toAlarm ≤ timerRank s.toAlarm := by
  cases hw : s.timer with
  | none => simp [timerRank, LiveSession.fail, closeStream, hw]
  | some w => simp [timerRank, LiveSession.fail, closeStream, hw, waitRank]

lemma fires_expiry {w : TimerWait} {clock : ℕ} (hf : w.fires clock = true)
    (hc : ∀ c, w.cancelled = some c → c ≤ clock) : w.expiry ≤ clock := by
  simp only [TimerWait.fires, decide_eq_true_eq] at hf
  cases h : w.cancelled with
  | none => simpa [h] using hf
  | some c => exact (by simpa [h] using hf : w.expiry ≤ c).trans (hc c h)

lemma rank_watched {w : TimerWait} (ha : Clocked limits s.toAlarm) (hw : s.timer = some w)
    (hf : w.fires s.clock = true) (hd : s.clock < s.deadline) : s.watchDeadline.rank < s.rank := by
  have hexpiry : w.expiry < s.deadline := (fires_expiry hf fun c => ha.cancelled w c hw).trans_lt hd
  have hnew : timerRank s.watchDeadline.toAlarm < timerRank s.toAlarm := by
    have hold : 3 ≤ timerRank s.toAlarm := by simp [timerRank, hw, waitRank, hexpiry]
    simp [timerRank, watchDeadline, waitRank, hd] at hold ⊢
    omega
  exact Nat.add_lt_add_left hnew _

lemma rank_expired {w : TimerWait} (hw : s.timer = some w) :
    ({ s with timer := none } : LiveSession).fail.rank < s.rank := by
  have hold : 0 < timerRank s.toAlarm := by
    simp only [timerRank, hw, Option.elim_some, waitRank]
    omega
  change (0 + 5 * s.readRank + writeRank s.toOutbox + 0) < _
  simp only [rank]
  omega

lemma rank_passed {w : TimerWait} {elapsed : ℕ} (hw : s.timer = some w) (hc : w.cancelled = none)
    (hlt : s.clock < w.expiry) (hle : w.expiry ≤ s.clock + elapsed) :
    (s.wait elapsed).rank < s.rank := by
  have hnew : timerRank (s.wait elapsed).toAlarm < timerRank s.toAlarm := by
    simp [timerRank, wait, hw, waitRank, hc, hlt, hle]
  exact Nat.add_lt_add_left hnew _

lemma rank_wait (elapsed : ℕ) (s : LiveSession) : (s.wait elapsed).rank ≤ s.rank := by
  have hwait : ∀ (clock d : ℕ) (w : TimerWait), waitRank (clock + elapsed) d w ≤
      waitRank clock d w := by
    intro clock d w
    refine Nat.add_le_add_left ?_ _
    split_ifs with hlate hearly
    · exact le_rfl
    · exact absurd ⟨hlate.1, by omega⟩ hearly
    · exact Nat.zero_le _
    · exact le_rfl
  have hle : timerRank (s.wait elapsed).toAlarm ≤ timerRank s.toAlarm := by
    cases hw : s.timer with
    | none => simp [timerRank, wait, hw]
    | some w => simpa [timerRank, wait, hw] using hwait s.clock s.deadline w
  exact Nat.add_le_add_left hle _

lemma writeRank_queueWrite (message : Bytes) (close : Bool) (ho : s.isOpen = false) :
    writeRank (s.queueWrite message close).toOutbox ≤ writeRank s.toOutbox + 2 := by
  rw [queueWrite_eq]
  simp only [writeRank, ho, List.length_append, List.length_singleton]
  split_ifs
  · simp only [Option.elim_some, Bool.false_eq_true, if_false]
    omega
  · omega

lemma rank_written (hw : s.writing = some true) : s.written.rank < s.rank := by
  have hwrite : writeRank s.written.toOutbox < writeRank s.toOutbox := by
    rw [written_eq]
    cases hq : s.writeQueue with
    | nil => simp [writeRank, hw, hq]
    | cons m rest =>
      cases rest with
      | nil => simp [writeRank, hw, hq]
      | cons m' rest => cases s.isOpen <;> simp [writeRank, hw, hq]
  have htimer : timerRank s.written.toAlarm ≤ timerRank s.toAlarm := by
    rw [written_eq]
    cases s.lastWritten with
    | true => exact timerRank_fail s
    | false => exact le_rfl
  have hopen : (if s.written.isOpen then 1 else 0) ≤ if s.isOpen then 1 else 0 := by
    rw [written_eq]
    cases s.isOpen <;> cases s.lastWritten <;> simp
  have hread : s.written.readRank = s.readRank := by rw [written_eq]; rfl
  simp only [rank, hread]
  omega

lemma readRank_pos (hr : s.reading ≠ .over) : 1 ≤ s.readRank := by
  simp only [readRank, if_neg hr]
  split <;> simp

lemma readRank_readable (hr : s.reading ≠ .over) (h : s.readable = true) : s.readRank = 2 := by
  simp [readRank, hr, h]

lemma rank_read (ho : s.isOpen = false) (hr : s.reading ≠ .over) (hreadable : s.readable = true)
    (ho' : s'.isOpen = false) (hread : s'.readRank ≤ 1)
    (hwrite : writeRank s'.toOutbox ≤ writeRank s.toOutbox + 2)
    (htimer : timerRank s'.toAlarm ≤ timerRank s.toAlarm + 2) : s'.rank < s.rank := by
  simp only [rank, ho, ho', readRank_readable hr hreadable]
  omega

lemma rank_step (ha : Clocked limits s.toAlarm) (hbegun : s.starting = false)
    (ho : s.isOpen = false) (hs : Step n pf sha256 limits s s') : s'.rank < s.rank := by
  have hclosed := hs.closed ho
  -- a read that begins on a closed stream fails
  have fails : ∀ {t : LiveSession}, t.readable = false → t.readRank ≤ 1 := by
    intro t ht
    simp only [readRank, ht]
    split <;> simp
  cases hs with
  | left hb | refused hb | started _ hb => simp [hbegun] at hb
  | opened hr hreadable =>
    exact rank_read ho (by simp [hr]) hreadable hclosed (fails ho) (Nat.le_add_right _ _)
      (timerRank_touch s)
  | sized _ hr hreadable =>
    exact rank_read ho (by simp [hr]) hreadable hclosed (fails ho) (Nat.le_add_right _ _)
      (Nat.le_add_right _ _)
  | tooLarge _ hr hreadable =>
    refine rank_read ho (by simp [hr]) hreadable hclosed ?_ (writeRank_queueWrite _ _ ho) ?_
    · simp [queueWrite_eq, readRank]
    · rw [queueWrite_eq]
      exact Nat.le_add_right _ _
  | @served payload hs session b hr hreadable =>
    have hwrite := writeRank_queueWrite
      (s := { s with session := session, received := s.received ++ [payload], reading := .over })
      (b.reply pf payload) b.shouldClose ho
    have htouch : timerRank (LiveSession.touch limits { s with
        session := session
        received := s.received ++ [payload]
        reading := .over }).toAlarm ≤ _ :=
      timerRank_touch _
    refine rank_read ho (by simp [hr]) hreadable hclosed ?_ ?_ ?_
    all_goals simp only [answer]; split
    · simp [queueWrite_eq, readRank]
    · exact fails (by simp [queueWrite_eq, doReadSize, touch, ho])
    · exact hwrite
    · exact hwrite
    · rw [queueWrite_eq]
      exact Nat.le_add_right _ _
    · rw [queueWrite_eq]
      exact htouch
  | unsynced hr hreadable =>
    refine rank_read ho (by simp [hr]) hreadable hclosed
      (by simp [readRank, LiveSession.fail, closeStream])
      (Nat.le_add_right _ _) ((timerRank_fail _).trans (Nat.le_add_right _ _))
  | lost hr =>
    have htimer := timerRank_fail s
    have hread := readRank_pos hr
    change 0 + 5 * 0 + writeRank s.toOutbox + timerRank s.fail.toAlarm < _
    simp only [rank, ho]
    omega
  | written hw => exact rank_written hw
  | @broken started k hw =>
    have htimer := timerRank_fail s
    have hwrite : s.writeQueue.length < writeRank s.toOutbox := by
      cases started <;> simp [writeRank, hw]
    change 0 + 5 * s.readRank + s.writeQueue.length + timerRank s.fail.toAlarm < _
    simp only [rank]
    omega
  | watched hw hf hd => exact rank_watched ha hw hf hd
  | expired hw => exact rank_expired hw
  | aborted hw =>
    have htimer : 0 < timerRank s.toAlarm := by
      simp only [timerRank, hw, Option.elim_some, waitRank]
      omega
    change _ + 5 * s.readRank + writeRank s.toOutbox + 0 < _
    simp only [rank]
    omega

lemma Admitted.goes (h : Admitted n pf sha256 limits s)
    (hd : ¬ (s.alive = false ∧ s.isOpen = false)) :
    ∃ t, Alone n pf sha256 limits s t := by
  obtain ⟨⟨now, hreach⟩, hbegun, htimed⟩ := h
  obtain ⟨-, hguard⟩ := hreach.guarded
  have timer : ∀ w, s.timer = some w → w.cancelled = none → ∃ t, Alone n pf sha256 limits s t := by
    intro w hw hc
    rcases lt_or_ge s.clock w.expiry with hlt | hge
    · exact ⟨_, .passed (w.expiry - s.clock) hw hc hlt (by omega)⟩
    · have hf : w.fires s.clock = true := by simpa [TimerWait.fires, hc] using hge
      rcases lt_or_ge s.clock s.deadline with hd | hd
      · exact ⟨_, .watched hw hf hd⟩
      · exact ⟨_, .expired hw hf hd⟩
  cases ho : s.isOpen with
  | true =>
    rcases hguard.armed ho hbegun with ⟨w, hw, hc⟩ | ⟨hnone, -⟩
    · exact timer w hw hc
    · simp [hnone] at htimed
      simp [htimed] at ho
  | false =>
    by_cases hr : s.reading = .over
    · cases hw : s.writing with
      | some started => exact ⟨_, .closed ho (.broken 0 hw)⟩
      | none =>
        cases ht : s.timer with
        | none => simp [alive, hbegun, hr, hw, ht, ho] at hd
        | some w =>
          cases hc : w.cancelled with
          | none => exact timer w ht hc
          | some c => exact ⟨_, .closed ho (.aborted ht (by simp [hc]))⟩
    · exact ⟨_, .closed ho (.lost hr)⟩

lemma alone_progress : Progress (Alone n pf sha256 limits) (Admitted n pf sha256 limits)
    (fun s => s.alive = false ∧ s.isOpen = false) rank where
  keeps := Admitted.alone
  lowers := by
    intro s t h hs
    obtain ⟨now, hreach⟩ := h.reaches
    obtain ⟨hclock, -⟩ := hreach.guarded
    cases hs with
    | closed ho hstep => exact rank_step hclock h.begun ho hstep
    | written hw => exact rank_written hw
    | watched hw hf hd => exact rank_watched hclock hw hf hd
    | expired hw => exact rank_expired hw
    | passed elapsed hw hc hlt hle => exact rank_passed hw hc hlt hle
  goes := Admitted.goes

lemma rank_le (s : LiveSession) : s.rank ≤ 17 + s.writeQueue.length := by
  have hread : s.readRank ≤ 2 := by
    simp only [readRank]
    split_ifs <;> simp
  have hwrite : writeRank s.toOutbox ≤ s.writeQueue.length + 2 := by
    cases hw : s.writing with
    | none => simp [writeRank, hw]
    | some started => cases started <;> simp [writeRank, hw]
  have htimer : timerRank s.toAlarm ≤ 4 := by
    simp only [timerRank]
    cases s.timer with
    | none => simp
    | some w =>
      simp only [Option.elim_some, waitRank]
      split_ifs <;> omega
  simp only [rank]
  split <;> omega

/-- A session that is closed, or was let in and hears nothing more from its client, is closed and
let go of after at most so many handlers. -/
theorem left_alone_ends (h : Reaches n pf sha256 limits now s) (hstart : s.starting = false)
    (htimed : s.isOpen = true → s.timer.isSome = true) :
    (∃ t, Relation.ReflTransGen (Alone n pf sha256 limits) s t ∧
      ∀ u, ¬ Alone n pf sha256 limits t u) ∧
      ∀ k t, Progress.Chain (Alone n pf sha256 limits) k s t →
        k ≤ 17 + s.writeQueue.length ∧
          ((∀ u, ¬ Alone n pf sha256 limits t u) → t.alive = false ∧ t.isOpen = false) := by
  obtain ⟨hend, hall⟩ := alone_progress.ends (s := s) ⟨⟨now, h⟩, hstart, htimed⟩
  exact ⟨hend, fun k t hk => ⟨(hall k t hk).1.trans s.rank_le, (hall k t hk).2⟩⟩

theorem twoLines_ends :
    ∃ t, Relation.ReflTransGen (Alone 1 Op.oneHash id defaultLimits) twoLines t ∧
      ∀ u, ¬ Alone 1 Op.oneHash id defaultLimits t u :=
  (left_alone_ends twoLines_reached rfl fun _ => rfl).1

end

end LiveSession

end Zest
