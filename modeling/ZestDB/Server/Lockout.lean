import ZestDB.Server.Session

/-! The lockout after failed authentications: what the table of failures stands for. -/

namespace Zest

open Foundations

/-- The failures in a row that still count at `now`, from the times of all failures since the last
success, the latest first: each less than the lockout before the next. -/
def streak (now : ℕ) : List ℕ → ℕ
  | [] => 0
  | t :: ts => if now < t + AUTH_LOCKOUT then streak t ts + 1 else 0

def LockedOut (failures : List ℕ) (now : ℕ) : Prop := MAX_AUTH_FAILURES ≤ streak now failures

instance (failures : List ℕ) (now : ℕ) : Decidable (LockedOut failures now) :=
  inferInstanceAs (Decidable (MAX_AUTH_FAILURES ≤ streak now failures))

lemma streak_mono {now later : ℕ} (h : now ≤ later) (failures : List ℕ) :
    streak later failures ≤ streak now failures := by
  cases failures with
  | nil => rfl
  | cons t ts =>
    simp only [streak]
    split_ifs with h₁ h₂
    · rfl
    · omega
    · exact Nat.zero_le _
    · rfl

namespace FailureTable

variable {table : FailureTable} {f : Bytes → List ℕ} {clock now : ℕ} {user : Bytes}

/-- The table at `clock` stands for the failures `f` of each name. -/
structure Tracks (table : FailureTable) (f : Bytes → List ℕ) (clock : ℕ) : Prop where
  counted : ∀ user entry, table.lookup user = some entry → entry.failures ≤ MAX_AUTH_FAILURES ∧
    ∃ t ts, f user = t :: ts ∧ entry.failures = streak t ts + 1 ∧ entry.expires = t + AUTH_LOCKOUT
  absent : ∀ user, table.lookup user = none → streak clock (f user) = 0

lemma Tracks.empty (clock : ℕ) : Tracks ∅ (fun _ => []) clock := ⟨by simp, fun _ _ => rfl⟩

lemma Tracks.later (h : Tracks table f clock) (hle : clock ≤ now) : Tracks table f now :=
  ⟨h.counted, fun user hu => Nat.le_zero.mp ((streak_mono hle _).trans (h.absent user hu).le)⟩

lemma Tracks.authAllowed_iff (h : Tracks table f now) (user : Bytes) :
    table.authAllowed now user = true ↔ ¬ LockedOut (f user) now := by
  rw [authAllowed, LockedOut]
  cases hl : table.lookup user with
  | none => simp [h.absent user hl, MAX_AUTH_FAILURES]
  | some entry =>
    obtain ⟨-, t, ts, hf, hfail, hexp⟩ := h.counted user entry hl
    rw [hf, streak, ← hfail, ← hexp]
    by_cases hn : now < entry.expires
    · simp [hn]
    · simp [hn, MAX_AUTH_FAILURES]
      omega

lemma lookup_eraseExpired {entry : AuthFailures} :
    (table.eraseExpired now).lookup user = some entry ↔ table.lookup user = some entry ∧
    now < entry.expires := by
  change entry ∈ (table.eraseExpired now).lookup user ↔ entry ∈ table.lookup user ∧ _
  rw [AList.mem_lookup_iff, AList.mem_lookup_iff]
  simp [eraseExpired]

lemma Tracks.eraseExpired (h : Tracks table f now) : Tracks (table.eraseExpired now) f now := by
  refine ⟨fun user entry hl => h.counted user entry (lookup_eraseExpired.mp hl).1,
    fun user hnone => ?_⟩
  cases hl : table.lookup user with
  | none => exact h.absent user hl
  | some entry =>
    obtain ⟨-, t, ts, hf, -, hexp⟩ := h.counted user entry hl
    have hgone : ¬ now < entry.expires := fun hlt => by
      rw [lookup_eraseExpired.mpr ⟨hl, hlt⟩] at hnone
      cases hnone
    rw [hf, streak, if_neg (by omega)]

lemma Tracks.success (h : Tracks table f now) (user : Bytes) :
    Tracks (table.recordAuthResult now user true) (Function.update f user []) now := by
  change Tracks (table.erase user) _ now
  refine ⟨fun other entry hl => ?_, fun other hl => ?_⟩
  · by_cases ho : other = user
    · subst ho
      rw [AList.lookup_erase] at hl
      cases hl
    · rw [AList.lookup_erase_ne ho] at hl
      rw [Function.update_of_ne ho]
      exact h.counted other entry hl
  · by_cases ho : other = user
    · subst ho
      rw [Function.update_self]
      rfl
    · rw [AList.lookup_erase_ne ho] at hl
      rw [Function.update_of_ne ho]
      exact h.absent other hl

lemma Tracks.insert (h : Tracks table f now) (user : Bytes) (hlock : ¬ LockedOut (f user) now) :
    Tracks (table.insert user ⟨(streak now (f user) + 1) % 2 ^ 32, now + AUTH_LOCKOUT⟩)
      (Function.update f user (now :: f user)) now := by
  have hlt : streak now (f user) < MAX_AUTH_FAILURES := not_le.mp hlock
  have hmod : (streak now (f user) + 1) % 2 ^ 32 = streak now (f user) + 1 :=
    Nat.mod_eq_of_lt (lt_of_le_of_lt hlt (by decide))
  refine ⟨fun other entry hl => ?_, fun other hl => ?_⟩
  · by_cases ho : other = user
    · subst ho
      rw [AList.lookup_insert] at hl
      obtain rfl := Option.some.inj hl
      rw [Function.update_self, hmod]
      exact ⟨hlt, now, f other, rfl, rfl, rfl⟩
    · rw [AList.lookup_insert_ne ho] at hl
      rw [Function.update_of_ne ho]
      exact h.counted other entry hl
  · by_cases ho : other = user
    · subst ho
      rw [AList.lookup_insert] at hl
      cases hl
    · rw [AList.lookup_insert_ne ho] at hl
      rw [Function.update_of_ne ho]
      exact h.absent other hl

lemma Tracks.counted_eq (h : Tracks table f now) (user : Bytes) :
    (if ((table.lookup user).getD ⟨0, 0⟩).expires ≤ now then
      0 else ((table.lookup user).getD ⟨0, 0⟩).failures) = streak now (f user) := by
  cases hl : table.lookup user with
  | none => simp [h.absent user hl]
  | some entry =>
    obtain ⟨-, t, ts, hf, hfail, hexp⟩ := h.counted user entry hl
    rw [hf, streak, ← hfail, ← hexp]
    by_cases hn : now < entry.expires
    · simp [hn]
    · simp [hn, not_lt.mp hn]

def recordUnpurged (table : FailureTable) (now : ℕ) (username : Bytes) (success : Bool) :
    FailureTable :=
  if success then table.erase username
  else
    let entry := (table.lookup username).getD ⟨0, 0⟩
    let failures := if entry.expires ≤ now then 0 else entry.failures
    table.insert username ⟨(failures + 1) % 2 ^ 32, now + AUTH_LOCKOUT⟩

lemma Tracks.unpurged_failure (h : Tracks table f now) (user : Bytes)
    (hlock : ¬ LockedOut (f user) now) :
    Tracks (table.recordUnpurged now user false) (Function.update f user (now :: f user)) now := by
  change Tracks (table.insert user ⟨((if ((table.lookup user).getD ⟨0, 0⟩).expires ≤ now then 0
    else ((table.lookup user).getD ⟨0, 0⟩).failures) + 1) % 2 ^ 32, now + AUTH_LOCKOUT⟩) _ now
  rw [h.counted_eq user]
  exact h.insert user hlock

lemma Tracks.failure (h : Tracks table f now) (user : Bytes) (hlock : ¬ LockedOut (f user) now) :
    Tracks (table.recordAuthResult now user false)
    (Function.update f user (now :: f user)) now := by
  have ht : Tracks (if table.entries.length > 10000 then
      table.eraseExpired now else table) f now := by
    split_ifs
    · exact h.eraseExpired
    · exact h
  exact ht.unpurged_failure user hlock

end FailureTable

end Zest
