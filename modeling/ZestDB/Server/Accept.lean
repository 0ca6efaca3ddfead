import Mathlib.Algebra.Order.BigOperators.Group.List
import ZestDB.Server.SessionTimer

/-! The accept loop of the server with all its sessions, of which there are never more than
`MaxConnections`. -/

namespace Zest

open Foundations

/-- What the acceptor waits for. An accept knows whether the acceptor was open when it began; a
connection that was let in waits for its session. -/
inductive Pending where
  | accept (opened : Bool)
  | admitted
  | retry (cancelled : Bool)
deriving DecidableEq, Repr

structure AcceptLoop where
  pending : List Pending
  isOpen : Bool := true
  activeSessions : ℕ := 0
  sessions : List LiveSession := []
  clock : ℕ
deriving DecidableEq, Repr

namespace AcceptLoop

open Watched (defaultLimits)

def doAccept (s : AcceptLoop) : AcceptLoop := { s with pending := .accept s.isOpen :: s.pending }

def close (s : AcceptLoop) : AcceptLoop :=
  { s with
    isOpen := false
    pending := s.pending.map fun
      | .retry _ => .retry true
      | p => p }

def wait (elapsed : ℕ) (s : AcceptLoop) : AcceptLoop :=
  { s with clock := s.clock + elapsed, sessions := s.sessions.map (LiveSession.wait elapsed) }

/-- One handler, of the acceptor or of a session, or a destructor; the limit is read and the session
is counted at two moments. -/
inductive Step (n : ℕ) [NeZero n] (pf : Platform) (sha256 : Bytes → Bytes) (limits : Limits)
    (maxConnections : ℕ) (s : AcceptLoop) : AcceptLoop → Prop
  | aborted {before after : List Pending} : s.pending = before ++ .accept true :: after →
      s.isOpen = false →
      Step n pf sha256 limits maxConnections s { s with pending := before ++ after }
  | failed {opened : Bool} {before after : List Pending} :
      s.pending = before ++ .accept opened :: after →
      Step n pf sha256 limits maxConnections s { s with pending := before ++ .retry false :: after }
  | retried {cancelled : Bool} {before after : List Pending} :
      s.pending = before ++ .retry cancelled :: after →
      Step n pf sha256 limits maxConnections s { s with pending := before ++ after }.doAccept
  | cancelled {before after : List Pending} : s.pending = before ++ .retry true :: after →
      Step n pf sha256 limits maxConnections s { s with pending := before ++ after }
  | refused {before after : List Pending} : s.pending = before ++ .accept true :: after →
      maxConnections ≤ s.activeSessions →
      Step n pf sha256 limits maxConnections s { s with pending := before ++ after }.doAccept
  | admitted {before after : List Pending} : s.pending = before ++ .accept true :: after →
      s.activeSessions < maxConnections →
      Step n pf sha256 limits maxConnections s { s with pending := before ++ .admitted :: after }
  | connected {before after : List Pending} : s.pending = before ++ .admitted :: after →
      Step n pf sha256 limits maxConnections s
        { s with
          pending := before ++ after, activeSessions := s.activeSessions + 1
          sessions := s.sessions ++ [({ clock := s.clock } : LiveSession)] }.doAccept
  | closed : Step n pf sha256 limits maxConnections s s.close
  | handled {before after : List LiveSession} {live live' : LiveSession} :
      s.sessions = before ++ live :: after → LiveSession.Step n pf sha256 limits live live' →
      Step n pf sha256 limits maxConnections s { s with sessions := before ++ live' :: after }
  | released {before after : List LiveSession} {live : LiveSession} :
      s.sessions = before ++ live :: after → live.alive = false →
      Step n pf sha256 limits maxConnections s
        { s with sessions := before ++ after, activeSessions := s.activeSessions - 1 }

/-- A run of a server that began to accept at `now`. -/
inductive Reaches (n : ℕ) [NeZero n] (pf : Platform) (sha256 : Bytes → Bytes) (limits : Limits)
    (maxConnections now : ℕ) : AcceptLoop → Prop
  | begun : Reaches n pf sha256 limits maxConnections now ⟨[.accept true], true, 0, [], now⟩
  | step {s s' : AcceptLoop} : Reaches n pf sha256 limits maxConnections now s →
      Step n pf sha256 limits maxConnections s s' → Reaches n pf sha256 limits maxConnections now s'
  | wait {s : AcceptLoop} (elapsed : ℕ) : Reaches n pf sha256 limits maxConnections now s →
      Reaches n pf sha256 limits maxConnections now (s.wait elapsed)

inductive Alone (n : ℕ) [NeZero n] (pf : Platform) (sha256 : Bytes → Bytes) (limits : Limits)
    (s : AcceptLoop) :
    AcceptLoop → Prop
  | handled {before after : List LiveSession} {live live' : LiveSession} :
      s.sessions = before ++ live :: after → LiveSession.Step n pf sha256 limits live live' →
        LiveSession.Alone n pf sha256 limits live live' →
      Alone n pf sha256 limits s { s with sessions := before ++ live' :: after }
  | passed {before after : List LiveSession} {live : LiveSession} {w : TimerWait} (elapsed : ℕ) :
      s.sessions = before ++ live :: after → live.timer = some w → w.cancelled = none →
        live.clock < w.expiry →
      w.expiry ≤ live.clock + elapsed → Alone n pf sha256 limits s (s.wait elapsed)
  | released {before after : List LiveSession} {live : LiveSession} :
      s.sessions = before ++ live :: after → live.alive = false → Alone n pf sha256 limits s
      { s with sessions := before ++ after, activeSessions := s.activeSessions - 1 }

def rank (s : AcceptLoop) : ℕ := (s.sessions.map fun live => live.rank + 1).sum

structure Counted (maxConnections : ℕ) (s : AcceptLoop) : Prop where
  counted : s.activeSessions = s.sessions.length
  limited : s.activeSessions ≤ maxConnections
  free : .admitted ∈ s.pending → s.activeSessions < maxConnections
  single : s.pending.length ≤ 1
  accepting : s.isOpen = true → ∃ p, s.pending = [p] ∧ p ≠ .retry true ∧ p ≠ .accept false

section

variable {n : ℕ} [NeZero n] {pf : Platform} {sha256 : Bytes → Bytes} {limits : Limits}
  {maxConnections now : ℕ} {s s' : AcceptLoop}

lemma alone_pending {p : Pending} {before after : List Pending} (h : s.pending.length ≤ 1)
    (hp : s.pending = before ++ p :: after) : before = [] ∧ after = [] := by
  rw [hp, List.length_append, List.length_cons] at h
  exact ⟨List.eq_nil_of_length_eq_zero (by omega), List.eq_nil_of_length_eq_zero (by omega)⟩

lemma counted_doAccept (hcounted : s.activeSessions = s.sessions.length)
    (hlimited : s.activeSessions ≤ maxConnections)
    (hp : s.pending = []) : s.doAccept.Counted maxConnections := by
  refine ⟨hcounted, hlimited, by simp [doAccept, hp], by simp [doAccept, hp], fun ho => ?_⟩
  refine ⟨.accept s.isOpen, ?_, nofun, ?_⟩
  · simp [doAccept, hp]
  · have hopen : s.isOpen = true := ho
    simp [hopen]

lemma Counted.step (h : s.Counted maxConnections)
    (hs : Step n pf sha256 limits maxConnections s s') :
    s'.Counted maxConnections := by
  have alone : ∀ {p : Pending} {before after : List Pending}, s.pending = before ++ p :: after →
      before = [] ∧ after = [] := alone_pending h.single
  cases hs with
  | aborted hp ho =>
    obtain ⟨rfl, rfl⟩ := alone hp
    exact ⟨h.counted, h.limited, nofun, Nat.zero_le _, fun hopen => by simp [ho] at hopen⟩
  | failed hp =>
    obtain ⟨rfl, rfl⟩ := alone hp
    exact ⟨h.counted, h.limited, by simp, le_rfl, fun _ => ⟨_, rfl, by simp, by simp⟩⟩
  | retried hp | refused hp =>
    obtain ⟨rfl, rfl⟩ := alone hp
    exact counted_doAccept h.counted h.limited rfl
  | cancelled hp =>
    obtain ⟨rfl, rfl⟩ := alone hp
    refine ⟨h.counted, h.limited, nofun, Nat.zero_le _, fun ho => ?_⟩
    obtain ⟨p, hsingle, hretry, -⟩ := h.accepting ho
    rw [hp] at hsingle
    simp only [List.nil_append, List.cons.injEq, and_true] at hsingle
    exact absurd hsingle.symm hretry
  | admitted hp hfree =>
    obtain ⟨rfl, rfl⟩ := alone hp
    exact ⟨h.counted, h.limited, fun _ => hfree, le_rfl, fun _ => ⟨_, rfl, by simp, by simp⟩⟩
  | connected hp =>
    have hfree := h.free (by simp [hp])
    obtain ⟨rfl, rfl⟩ := alone hp
    exact counted_doAccept (by simp [h.counted]) hfree rfl
  | closed =>
    refine ⟨h.counted, h.limited, fun hp => h.free ?_, by simpa [close] using h.single, nofun⟩
    obtain ⟨p, hp, heq⟩ := List.mem_map.mp hp
    cases p with
    | admitted => exact hp
    | accept opened => cases heq
    | retry cancelled => cases heq
  | handled hl =>
    exact ⟨by simp [h.counted, hl], h.limited, h.free, h.single, h.accepting⟩
  | released hl =>
    refine ⟨by simp [h.counted, hl], (Nat.sub_le _ _).trans h.limited, fun hp => ?_, h.single,
      h.accepting⟩
    exact (Nat.sub_le _ _).trans_lt (h.free hp)

lemma Reaches.counted (h : Reaches n pf sha256 limits maxConnections now s) :
    s.Counted maxConnections := by
  induction h with
  | begun => exact ⟨rfl, Nat.zero_le _, by simp, le_rfl, fun _ => ⟨_, rfl, by simp, by simp⟩⟩
  | step _ hstep ih => exact ih.step hstep
  | wait elapsed _ ih =>
    exact ⟨ih.counted.trans (List.length_map _).symm, ih.limited, ih.free, ih.single, ih.accepting⟩

lemma Reaches.sessions (h : Reaches n pf sha256 limits maxConnections now s) :
    ∀ live ∈ s.sessions, live.clock = s.clock ∧
      ∃ now, LiveSession.Reaches n pf sha256 limits now live := by
  induction h with
  | begun => simp
  | @step s s' _ hstep ih =>
    cases hstep with
    | connected =>
      refine List.forall_mem_append.mpr ⟨ih, ?_⟩
      rw [List.forall_mem_singleton]
      exact ⟨rfl, _, .accepted⟩
    | handled hl hlive =>
      simp only [hl, List.forall_mem_append, List.forall_mem_cons] at ih ⊢
      obtain ⟨hbefore, ⟨hclock, now, hreach⟩, hafter⟩ := ih
      exact ⟨hbefore, ⟨hlive.clock.trans hclock, now, .step hreach hlive⟩, hafter⟩
    | released hl =>
      simp only [hl, List.forall_mem_append, List.forall_mem_cons] at ih ⊢
      exact ⟨ih.1, ih.2.2⟩
    | _ => exact ih
  | wait elapsed _ ih =>
    refine List.forall_mem_map.mpr fun live hmem => ?_
    obtain ⟨hclock, now, hreach⟩ := ih live hmem
    exact ⟨congrArg (· + elapsed) hclock, now, .wait elapsed hreach⟩

/-- In every interleaving of the accept loop with the sessions no more than `MaxConnections` of them
are there, the counter knows how many, each of them runs as a session does, and an open acceptor has
one thing it waits for. -/
theorem connections_limited (h : Reaches n pf sha256 limits maxConnections now s) :
    s.sessions.length ≤ maxConnections ∧ s.activeSessions = s.sessions.length ∧
      (∀ live ∈ s.sessions, live.clock = s.clock ∧
        ∃ now, LiveSession.Reaches n pf sha256 limits now live) ∧
      (s.isOpen = true → ∃ p, s.pending = [p]) := by
  have hcounted := h.counted
  refine ⟨?_, hcounted.counted, h.sessions, fun ho => ?_⟩
  · rw [← hcounted.counted]
    exact hcounted.limited
  · obtain ⟨p, hp, -⟩ := hcounted.accepting ho
    exact ⟨p, hp⟩

lemma before_nil {l rest : List LiveSession} {live : LiveSession} (h : l = live :: rest) :
    l = [] ++ live :: rest := h

def oneClient : AcceptLoop :=
  ⟨[.accept true], true, 1, [({ clock := 0 } : LiveSession).start defaultLimits false], 0⟩

lemma oneClient_reached : Reaches 1 Op.oneHash id defaultLimits 1 0 oneClient := by
  have hbegun : Reaches 1 Op.oneHash id defaultLimits 1 0
      ⟨[] ++ .accept true :: [], true, 0, [], 0⟩ := .begun
  have hadmitted := Reaches.step hbegun (.admitted rfl Nat.zero_lt_one)
  have hconnected := Reaches.step hadmitted (.connected rfl)
  exact Reaches.step hconnected (.handled (before_nil rfl) (.started false rfl))

theorem oneClient_limited : oneClient.sessions.length ≤ 1 ∧ ∃ p, oneClient.pending = [p] := by
  obtain ⟨hle, -, -, hpending⟩ := connections_limited oneClient_reached
  exact ⟨hle, hpending rfl⟩

structure Quiet (n : ℕ) [NeZero n] (pf : Platform) (sha256 : Bytes → Bytes) (limits : Limits)
    (s : AcceptLoop) :
    Prop where
  counted : s.activeSessions = s.sessions.length
  admitted : ∀ live ∈ s.sessions, LiveSession.Admitted n pf sha256 limits live

lemma Quiet.alone (h : Quiet n pf sha256 limits s) (hs : Alone n pf sha256 limits s s') :
    Quiet n pf sha256 limits s' := by
  have hall := h.admitted
  cases hs with
  | handled hl hstep halone =>
    simp only [hl, List.forall_mem_append, List.forall_mem_cons] at hall
    refine ⟨by simp [h.counted, hl], ?_⟩
    simp only [List.forall_mem_append, List.forall_mem_cons]
    exact ⟨hall.1, hall.2.1.alone halone, hall.2.2⟩
  | passed elapsed =>
    refine ⟨h.counted.trans (List.length_map _).symm, List.forall_mem_map.mpr fun live hmem => ?_⟩
    exact (hall live hmem).wait elapsed
  | released hl =>
    simp only [hl, List.forall_mem_append, List.forall_mem_cons] at hall
    refine ⟨by simp [h.counted, hl], ?_⟩
    simp only [List.forall_mem_append]
    exact ⟨hall.1, hall.2.2⟩

lemma sum_rank_wait (elapsed : ℕ) (l : List LiveSession) :
    ((l.map (LiveSession.wait elapsed)).map fun live => live.rank + 1).sum ≤
      (l.map fun live => live.rank + 1).sum := by
  rw [List.map_map]
  exact List.sum_le_sum fun live _ => Nat.add_le_add_right (live.rank_wait elapsed) 1

lemma Quiet.rank_alone (h : Quiet n pf sha256 limits s) (hs : Alone n pf sha256 limits s s') :
    s'.rank < s.rank := by
  cases hs with
  | handled hl hstep halone =>
    have hlt := LiveSession.alone_progress.lowers (h.admitted _ (by simp [hl])) halone
    simp only [rank, hl, List.map_append, List.map_cons, List.sum_append, List.sum_cons]
    omega
  | @passed before after live w elapsed hl hw hc hlt hle =>
    -- the one that waits comes nearer to its end, the others do not go back
    have hdown := LiveSession.rank_passed hw hc hlt hle
    have hbefore := sum_rank_wait elapsed before
    have hafter := sum_rank_wait elapsed after
    simp only [rank, wait, hl, List.map_append, List.map_cons, List.sum_append, List.sum_cons]
    omega
  | released hl =>
    simp only [rank, hl, List.map_append, List.map_cons, List.sum_append, List.sum_cons]
    omega

lemma Quiet.goes (h : Quiet n pf sha256 limits s)
    (hd : ¬ (s.sessions = [] ∧ s.activeSessions = 0)) :
    ∃ t, Alone n pf sha256 limits s t := by
  cases hl : s.sessions with
  | nil => exact absurd ⟨hl, by simp [h.counted, hl]⟩ hd
  | cons live rest =>
    have hmem := h.admitted live (by simp [hl])
    by_cases hdead : live.alive = false ∧ live.isOpen = false
    · exact ⟨_, .released (before_nil hl) hdead.1⟩
    · obtain ⟨t, ht⟩ := hmem.goes hdead
      rcases ht.step_or_passed with hstep | ⟨w, elapsed, -, hw, hc, hlt, hle⟩
      · exact ⟨_, .handled (before_nil hl) hstep ht⟩
      · exact ⟨_, .passed elapsed (before_nil hl) hw hc hlt hle⟩

lemma alone_progress : Progress (Alone n pf sha256 limits) (Quiet n pf sha256 limits)
    (fun s => s.sessions = [] ∧ s.activeSessions = 0) rank where
  keeps := Quiet.alone
  lowers := Quiet.rank_alone
  goes := Quiet.goes

lemma rank_le (s : AcceptLoop) :
    s.rank ≤ (s.sessions.map fun live => 18 + live.writeQueue.length).sum :=
  List.sum_le_sum fun live _ => by
    have hle := live.rank_le
    omega

/-- When nobody connects, the clients are silent and every session was let in or is closed, then
after at most so many handlers no session is left, and the counter is back at zero. -/
theorem places_come_back (h : Reaches n pf sha256 limits maxConnections now s)
    (hall : ∀ live ∈ s.sessions, live.starting = false ∧
      (live.isOpen = true → live.timer.isSome = true)) :
    (∃ t, Relation.ReflTransGen (Alone n pf sha256 limits) s t ∧
      ∀ u, ¬ Alone n pf sha256 limits t u) ∧
      ∀ k t, Progress.Chain (Alone n pf sha256 limits) k s t →
        k ≤ (s.sessions.map fun live => 18 + live.writeQueue.length).sum ∧
          ((∀ u, ¬ Alone n pf sha256 limits t u) → t.sessions = [] ∧ t.activeSessions = 0) := by
  have hquiet : Quiet n pf sha256 limits s :=
    ⟨h.counted.counted, fun live hmem => ⟨(h.sessions live hmem).2, (hall live hmem).1,
      (hall live hmem).2⟩⟩
  obtain ⟨hend, hruns⟩ := alone_progress.ends hquiet
  exact ⟨hend, fun k t hk => ⟨(hruns k t hk).1.trans s.rank_le, (hruns k t hk).2⟩⟩

theorem oneClient_leaves :
    ∃ t, Relation.ReflTransGen (Alone 1 Op.oneHash id defaultLimits) oneClient t ∧
      ∀ u, ¬ Alone 1 Op.oneHash id defaultLimits t u :=
  (places_come_back oneClient_reached
    (by simp [oneClient, LiveSession.start, LiveSession.doReadSize, LiveSession.touch,
    LiveSession.watchDeadline])).1

end

end AcceptLoop

end Zest
