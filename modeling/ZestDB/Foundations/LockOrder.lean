import ZestDB.Foundations.Progress
import Mathlib.Algebra.Order.BigOperators.Group.List
import Mathlib.Data.List.Basic

/-! Threads that take shared and exclusive locks in the order of a rank, and a pool of workers with
one queue of tasks. A thread waits for its tasks at one place of that order, and a task only takes
locks above it. -/

namespace Foundations.LockOrder

inductive Mode where
  | shared
  | exclusive
deriving DecidableEq, Repr

inductive Instr (ℓ τ : Type) where
  | lock (l : ℓ) (mode : Mode)
  | unlock (l : ℓ)
  | enqueue (task : τ)
  | await
deriving DecidableEq

/-- The order of the locks, with the place of the pool in it. `guard (some l)` are the locks of
which one must be held with `l`, `guard none` those of which one must be held until the tasks are
done; nothing is needed where the list is empty. A task has a guard of its own. -/
structure Rules (ℓ : Type) where
  rank : ℓ → ℕ
  pool : ℕ
  floor : ℕ := 0
  guard : Option ℓ → List ℓ
  taskGuard : Option ℓ → List ℓ

def Rules.task {ℓ : Type} (r : Rules ℓ) : Rules ℓ :=
  { r with floor := r.pool + 1, guard := r.taskGuard }

def Rules.Covered {ℓ : Type} (r : Rules ℓ) (x : Option ℓ) (held : List ℓ) : Prop :=
  r.guard x = [] ∨ ∃ g ∈ r.guard x, g ∈ held

/-- What is held has what it needs, and so have the tasks of a thread that is `waiting` for some. -/
def Rules.Kept {ℓ : Type} (r : Rules ℓ) (held : List ℓ) (waiting : Bool) : Prop :=
  (∀ l ∈ held, r.Covered (some l) held) ∧ (waiting = true → r.Covered none held)

section Programs

variable {ℓ τ : Type} [DecidableEq ℓ] (r : Rules ℓ)

def Ordered : List ℓ → Bool → List (Instr ℓ τ) → Prop
  | held, waiting, [] => held = [] ∧ waiting = false
  | held, waiting, .lock l _ :: rest =>
    r.floor ≤ r.rank l ∧ (∀ h ∈ held, r.rank h < r.rank l) ∧ r.Covered (some l) held ∧
    Ordered (l :: held) waiting rest
  | held, waiting, .unlock l :: rest =>
    l ∈ held ∧ r.Kept (held.filter (· ≠ l)) waiting ∧ Ordered (held.filter (· ≠ l)) waiting rest
  | held, _, .enqueue _ :: rest => r.floor ≤ r.pool ∧ r.Covered none held ∧ Ordered held true rest
  | held, _, .await :: rest => r.floor ≤ r.pool ∧ (∀ h ∈ held, r.rank h < r.pool) ∧
      Ordered held false rest

/-- Code that gives back what it takes, for a thread that holds `needed` and nothing of rank `low`
or more. -/
def Balanced (low : ℕ) (needed : List ℓ) (p : List (Instr ℓ τ)) : Prop :=
  ∀ held rest, (∀ h ∈ held, r.rank h < low) → (∀ l ∈ needed, l ∈ held) → r.Kept held false →
    Ordered r held false rest → Ordered r held false (p ++ rest)

def under (l : ℓ) (mode : Mode) (p : List (Instr ℓ τ)) : List (Instr ℓ τ) :=
  .lock l mode :: p ++ [.unlock l]

def underAll (ls : List ℓ) (mode : Mode) (p : List (Instr ℓ τ)) : List (Instr ℓ τ) :=
  ls.map (.lock · mode) ++ p ++ ls.map .unlock

def submit (tasks : List τ) : List (Instr ℓ τ) := tasks.map .enqueue ++ [.await]

def brief (times : ℕ) : List (Instr (Option ℓ) τ) :=
  (List.replicate times (under none .exclusive [])).flatten

def Instr.inner : Instr ℓ τ → Instr (Option ℓ) τ
  | .lock l mode => .lock (some l) mode
  | .unlock l => .unlock (some l)
  | .enqueue task => .enqueue task
  | .await => .await

def guardUnder (guard : Option ℓ → List ℓ) : Option (Option ℓ) → List (Option ℓ)
  | none => (guard none).map some
  | some none => []
  | some (some l) => (guard (some l)).map some

def Rules.under (top : ℕ) (r : Rules ℓ) : Rules (Option ℓ) where
  rank
    | none => top
    | some l => r.rank l
  pool := r.pool
  floor := r.floor
  guard := guardUnder r.guard
  taskGuard := guardUnder r.taskGuard

/-- `p` with so many brief uses of one more lock in front of each instruction and at the end. -/
def pad (times : ℕ → ℕ) : List (Instr ℓ τ) → List (Instr (Option ℓ) τ)
  | [] => brief (times 0)
  | i :: p => brief (times 0) ++ i.inner :: pad (fun n => times (n + 1)) p

variable {r} {low : ℕ} {needed held : List ℓ} {waiting : Bool} {p q rest : List (Instr ℓ τ)} {l : ℓ}
  {mode : Mode}

omit [DecidableEq ℓ] in
lemma Rules.Covered.mono {x : Option ℓ} {more : List ℓ} (h : r.Covered x held)
    (hsub : ∀ l ∈ held, l ∈ more) :
    r.Covered x more :=
  h.imp_right fun ⟨g, hg, hheld⟩ => ⟨g, hg, hsub g hheld⟩

omit [DecidableEq ℓ] in
lemma Rules.Kept.cons (h : r.Kept held waiting) (hl : r.Covered (some l) held) :
    r.Kept (l :: held) waiting := by
  have hsub : ∀ x ∈ held, x ∈ l :: held := fun x hx => List.mem_cons_of_mem l hx
  refine ⟨fun x hx => ?_, fun hw => (h.2 hw).mono hsub⟩
  rcases List.mem_cons.mp hx with rfl | hx
  · exact hl.mono hsub
  · exact (h.1 x hx).mono hsub

omit [DecidableEq ℓ] in
lemma Rules.kept_nil (r : Rules ℓ) : r.Kept [] false :=
  ⟨fun _ h => (List.not_mem_nil h).elim, fun h => (Bool.false_ne_true h).elim⟩

lemma Balanced.ordered (h : Balanced r low [] p) : Ordered r [] false p := by
  have hall := h [] [] (fun _ hh => by cases hh) (fun _ hh => by cases hh) r.kept_nil ⟨rfl, rfl⟩
  rwa [List.append_nil] at hall

lemma Balanced.mono {low' : ℕ} {needed' : List ℓ} (hle : low' ≤ low)
    (hsub : ∀ l ∈ needed, l ∈ needed') (h : Balanced r low needed p) : Balanced r low' needed' p :=
  fun held rest hh hneeded => h held rest (fun x hx => (hh x hx).trans_le hle) fun l hl => hneeded l
  (hsub l hl)

lemma Balanced.nil : Balanced r low needed ([] : List (Instr ℓ τ)) := fun _ _ _ _ _ hrest => hrest

lemma Balanced.append (hp : Balanced r low needed p) (hq : Balanced r low needed q) :
    Balanced r low needed (p ++ q) := by
  intro held rest hh hneeded hkept hrest
  rw [List.append_assoc]
  exact hp held _ hh hneeded hkept (hq held rest hh hneeded hkept hrest)

lemma Balanced.flatMap {α : Type} {f : α → List (Instr ℓ τ)} {xs : List α}
    (h : ∀ x ∈ xs, Balanced r low needed (f x)) :
    Balanced r low needed (xs.flatMap f) := by
  induction xs with
  | nil => exact .nil
  | cons x xs ih =>
    rw [List.flatMap_cons]
    exact (h x (by simp)).append (ih fun y hy => h y (by simp [hy]))

lemma Balanced.ite {c : Prop} [Decidable c] (hp : Balanced r low needed p)
    (hq : Balanced r low needed q) :
    Balanced r low needed (if c then p else q) := by
  split_ifs
  · exact hp
  · exact hq

lemma filter_ne (h : l ∉ held) : held.filter (· ≠ l) = held := by
  rw [List.filter_eq_self]
  intro x hx
  have hne : x ≠ l := fun heq => h (heq ▸ hx)
  simpa using hne

lemma Balanced.under (hf : r.floor ≤ r.rank l) (hl : low ≤ r.rank l)
    (hc : r.Covered (some l) needed)
    (h : Balanced r (r.rank l + 1) (l :: needed) p) : Balanced r low needed (under l mode p) := by
  intro held rest hh hneeded hkept hrest
  have hbelow : ∀ x ∈ held, r.rank x < r.rank l := fun x hx => (hh x hx).trans_le hl
  have hsame : (l :: held).filter (· ≠ l) = held := by
    rw [List.filter_cons_of_neg (by simp)]
    exact filter_ne fun hheld => (hbelow l hheld).false
  have hcovered := hc.mono hneeded
  have hwhole : Ordered r (l :: held) false (p ++ ([.unlock l] ++ rest)) := by
    refine h _ _ (fun x hx => ?_) (fun x hx => ?_) (hkept.cons hcovered)
      ⟨by simp, by rwa [hsame], by rwa [hsame]⟩
    · rcases List.mem_cons.mp hx with rfl | hx
      · exact Nat.lt_succ_self _
      · exact (hbelow x hx).trans (Nat.lt_succ_self _)
    · rcases List.mem_cons.mp hx with rfl | hx
      · exact List.mem_cons_self
      · exact List.mem_cons_of_mem _ (hneeded x hx)
  exact ⟨hf, hbelow, hcovered, by simpa using hwhole⟩

lemma Balanced.submit (tasks : List τ) (hf : r.floor ≤ r.pool) (hl : low ≤ r.pool)
    (hc : r.Covered none needed) :
    Balanced r low needed (submit tasks) := by
  intro held rest hh hneeded hkept hrest
  have hall : ∀ waiting, Ordered r held waiting (tasks.map .enqueue ++ (.await :: rest)) := by
    induction tasks with
    | nil => exact fun _ => ⟨hf, fun x hx => (hh x hx).trans_le hl, hrest⟩
    | cons task tasks ih => exact fun _ => ⟨hf, hc.mono hneeded, ih true⟩
  simpa [LockOrder.submit] using hall false

lemma ordered_unlocks {ls : List ℓ} (hnodup : ls.Nodup) (hnot : ∀ l ∈ ls, l ∉ held)
    (hfree : ∀ l ∈ ls, r.guard (some l) = []) (hkept : r.Kept held false)
    (hrest : Ordered r held false rest) :
    Ordered r (ls.reverse ++ held) false (ls.map .unlock ++ rest) := by
  induction ls with
  | nil => exact hrest
  | cons l ls ih =>
    obtain ⟨hfresh, hnodup⟩ := List.nodup_cons.mp hnodup
    have hgone : ((l :: ls).reverse ++ held).filter (· ≠ l) = ls.reverse ++ held := by
      rw [List.reverse_cons, List.append_assoc, List.filter_append, List.filter_append,
        List.filter_singleton, filter_ne (by simpa using hfresh), filter_ne (hnot l (by simp))]
      simp
    refine ⟨by simp, ?_⟩
    rw [hgone]
    refine ⟨⟨fun x hx => ?_, fun hw => by cases hw⟩,
      ih hnodup (fun x hx => hnot x (by simp [hx])) fun x hx => hfree x (by simp [hx])⟩
    rcases List.mem_append.mp hx with hx | hx
    · exact .inl (hfree x (List.mem_cons_of_mem l (List.mem_reverse.mp hx)))
    · exact (hkept.1 x hx).mono fun y hy => List.mem_append_right _ hy

lemma ordered_locks {ls : List ℓ} (hf : ∀ l ∈ ls, r.floor ≤ r.rank l)
    (hsorted : ls.Pairwise (r.rank · < r.rank ·))
    (habove : ∀ l ∈ ls, ∀ h ∈ held, r.rank h < r.rank l) (hfree : ∀ l ∈ ls, r.guard (some l) = [])
    (hrest : Ordered r (ls.reverse ++ held) false rest) :
    Ordered r held false (ls.map (.lock · mode) ++ rest) := by
  induction ls generalizing held with
  | nil => exact hrest
  | cons l ls ih =>
    obtain ⟨hfirst, hsorted⟩ := List.pairwise_cons.mp hsorted
    refine ⟨hf l (by simp), habove l (by simp), .inl (hfree l (by simp)),
      ih (fun x hx => hf x (by simp [hx])) hsorted ?_ (fun x hx => hfree x (by simp [hx])) ?_⟩
    · intro x hx h hh
      rcases List.mem_cons.mp hh with rfl | hh
      · exact hfirst x hx
      · exact habove x (by simp [hx]) h hh
    · simpa using hrest

lemma Balanced.underAll {ls : List ℓ} {high : ℕ} (hf : ∀ l ∈ ls, r.floor ≤ r.rank l)
    (hl : ∀ l ∈ ls, low ≤ r.rank l ∧ r.rank l < high) (hle : low ≤ high)
    (hsorted : ls.Pairwise (r.rank · < r.rank ·))
    (hfree : ∀ l ∈ ls, r.guard (some l) = []) (h : Balanced r high needed p) :
    Balanced r low needed (underAll ls mode p) := by
  intro held rest hh hneeded hkept hrest
  have habove : ∀ l ∈ ls, ∀ h ∈ held, r.rank h < r.rank l :=
    fun l hmem x hx => (hh x hx).trans_le (hl l hmem).1
  rw [LockOrder.underAll, List.append_assoc, List.append_assoc]
  refine ordered_locks hf hsorted habove hfree
    (h _ _ ?_ ?_ ?_ (ordered_unlocks ?_ ?_ hfree hkept hrest))
  · intro x hx
    rcases List.mem_append.mp hx with hx | hx
    · exact (hl x (List.mem_reverse.mp hx)).2
    · exact (hh x hx).trans_le hle
  · exact fun x hx => List.mem_append_right _ (hneeded x hx)
  · refine ⟨fun x hx => ?_, fun hw => by cases hw⟩
    rcases List.mem_append.mp hx with hx | hx
    · exact .inl (hfree x (List.mem_reverse.mp hx))
    · exact (hkept.1 x hx).mono fun y hy => List.mem_append_right _ hy
  · exact hsorted.imp fun hlt heq => hlt.ne (congrArg r.rank heq)
  · exact fun l hmem hheld => (habove l hmem l hheld).false

lemma Ordered.append (hp : Ordered r held waiting p) (hq : Ordered r [] false q) :
    Ordered r held waiting (p ++ q) := by
  induction p generalizing held waiting with
  | nil =>
    obtain ⟨rfl, rfl⟩ := hp
    exact hq
  | cons i p ih =>
    cases i with
    | lock l mode => exact ⟨hp.1, hp.2.1, hp.2.2.1, ih hp.2.2.2⟩
    | unlock l => exact ⟨hp.1, hp.2.1, ih hp.2.2⟩
    | enqueue task => exact ⟨hp.1, hp.2.1, ih hp.2.2⟩
    | await => exact ⟨hp.1, hp.2.1, ih hp.2.2⟩

lemma Ordered.flatMap {α : Type} {f : α → List (Instr ℓ τ)} {xs : List α}
    (h : ∀ x ∈ xs, Ordered r [] false (f x)) :
    Ordered r [] false (xs.flatMap f) := by
  induction xs with
  | nil => exact ⟨rfl, rfl⟩
  | cons x xs ih =>
    rw [List.flatMap_cons]
    exact (h x (by simp)).append (ih fun y hy => h y (by simp [hy]))

omit [DecidableEq ℓ] in
lemma Rules.Covered.under {top : ℕ} {l : ℓ} (h : r.Covered (some l) held) :
    (r.under top).Covered (some (some l)) (held.map some) := by
  refine h.imp (fun hnone => List.map_eq_nil_iff.mpr hnone) ?_
  rintro ⟨g, hg, hheld⟩
  exact ⟨some g, List.mem_map_of_mem hg, List.mem_map_of_mem hheld⟩

omit [DecidableEq ℓ] in
lemma Rules.Covered.under_none {top : ℕ} (h : r.Covered none held) : (r.under top).Covered none
    (held.map some) := by
  refine h.imp (fun hnone => List.map_eq_nil_iff.mpr hnone) ?_
  rintro ⟨g, hg, hheld⟩
  exact ⟨some g, List.mem_map_of_mem hg, List.mem_map_of_mem hheld⟩

omit [DecidableEq ℓ] in
lemma Rules.Kept.under {top : ℕ} (h : r.Kept held waiting) : (r.under top).Kept
    (held.map some) waiting := by
  refine ⟨fun x hx => ?_, fun hw => (h.2 hw).under_none⟩
  obtain ⟨l, hl, rfl⟩ := List.mem_map.mp hx
  exact (h.1 l hl).under

lemma Ordered.brief {top : ℕ} {rest : List (Instr (Option ℓ) τ)}
    (hrest : Ordered (r.under top) (held.map some) waiting rest) (times : ℕ) (hf : r.floor ≤ top)
    (htop : ∀ l, r.rank l < top) (hkept : r.Kept held waiting) :
    Ordered (r.under top) (held.map some) waiting (brief times ++ rest) := by
  have hsame : (none :: held.map some).filter (· ≠ none) = held.map some := by
    rw [List.filter_cons_of_neg (by simp)]
    exact filter_ne (by simp)
  induction times with
  | zero => exact hrest
  | succ times ih =>
    rw [LockOrder.brief, List.replicate_succ, List.flatten_cons, List.append_assoc]
    refine ⟨hf, fun x hx => ?_, .inl rfl,
      List.mem_cons_self, by rw [hsame]; exact hkept.under, by rw [hsame]; exact ih⟩
    obtain ⟨l, -, rfl⟩ := List.mem_map.mp hx
    exact htop l

lemma Ordered.pad {top : ℕ} (hf : r.floor ≤ top) (htop : ∀ l, r.rank l < top) (times : ℕ → ℕ)
    (hkept : r.Kept held waiting) (h : Ordered r held waiting p) :
    Ordered (r.under top) (held.map some) waiting (pad times p) := by
  induction p generalizing held waiting times with
  | nil =>
    obtain ⟨rfl, rfl⟩ := h
    have hempty : Ordered (r.under top)
        (([] : List ℓ).map some) false ([] : List (Instr (Option ℓ) τ)) := ⟨rfl, rfl⟩
    have hnone := hempty.brief (times 0) hf htop hkept
    rwa [List.append_nil] at hnone
  | cons i p ih =>
    suffices hrest : Ordered (r.under top) (held.map some) waiting
      (i.inner :: LockOrder.pad (fun n => times (n + 1)) p) from
      hrest.brief (times 0) hf htop hkept
    cases i with
    | lock l mode =>
      refine ⟨h.1, fun x hx => ?_, h.2.2.1.under, ih _ (hkept.cons h.2.2.1) h.2.2.2⟩
      obtain ⟨y, hy, rfl⟩ := List.mem_map.mp hx
      exact h.2.1 y hy
    | unlock l =>
      have hgone : (held.map some).filter (· ≠ some l) = (held.filter (· ≠ l)).map some := by
        rw [List.filter_map]
        congr 1
        exact List.filter_congr fun x _ => by simp
      refine ⟨List.mem_map_of_mem h.1, ?_⟩
      rw [hgone]
      exact ⟨h.2.1.under, ih _ h.2.1 h.2.2⟩
    | enqueue task => exact ⟨h.1, h.2.1.under_none, ih _ ⟨hkept.1, fun _ => h.2.1⟩ h.2.2⟩
    | await =>
      refine ⟨h.1, fun x hx => ?_, ih _ ⟨hkept.1, fun hw => by cases hw⟩ h.2.2⟩
      obtain ⟨y, hy, rfl⟩ := List.mem_map.mp hx
      exact h.2.1 y hy

end Programs

inductive Role where
  | thread
  | worker (serves : Option ℕ)
deriving DecidableEq, Repr

structure Agent (ℓ τ : Type) where
  role : Role
  rest : List (Instr ℓ τ)
  held : List (ℓ × Mode)

structure System (ℓ τ : Type) where
  agents : List (Agent ℓ τ)
  queue : List (ℕ × τ)

section Steps

variable {ℓ τ : Type} [DecidableEq ℓ]

def System.free (s : System ℓ τ) (l : ℓ) : Mode → Bool
  | .exclusive => s.agents.all fun a => a.held.all fun h => h.1 ≠ l
  | .shared => s.agents.all fun a => a.held.all fun h => h.1 ≠ l ∨ h.2 = .shared

def System.wanted (s : System ℓ τ) (l : ℓ) : Prop :=
  ∃ a ∈ s.agents, ∃ rest, a.rest = .lock l .exclusive :: rest

def System.pending (s : System ℓ τ) (i : ℕ) : Bool :=
  (s.queue.any fun t => t.1 == i) || s.agents.any fun a => a.role == .worker (some i)

def System.setAgent (i : ℕ) (a : Agent ℓ τ) (s : System ℓ τ) : System ℓ τ :=
  { s with agents := s.agents.set i a }

/-- Agent `i` goes on. `holdsBack` says whether a lock is refused to readers although it is free for
them. -/
def System.step (body : τ → List (Instr ℓ τ)) (holdsBack : System ℓ τ → ℓ → Bool) (s : System ℓ τ)
    (i : ℕ) :
    Option (System ℓ τ) :=
  match s.agents[i]? with
  | none => none
  | some a =>
    match a.rest with
    | .lock l mode :: rest =>
      if s.free l mode ∧ ¬ (mode = .shared ∧ holdsBack s l) then
        some (s.setAgent i { a with rest := rest, held := (l, mode) :: a.held })
      else none
    | .unlock l :: rest =>
      some (s.setAgent i { a with rest := rest, held := a.held.filter (·.1 ≠ l) })
    | .enqueue task :: rest =>
      some { s.setAgent i { a with rest := rest } with queue := s.queue ++ [(i, task)] }
    | .await :: rest => if s.pending i then none else some (s.setAgent i { a with rest := rest })
    | [] =>
      match a.role, s.queue with
      | .worker (some _), _ => some (s.setAgent i { a with role := .worker none })
      | .worker none, (k, task) :: queue =>
        some
        { s.setAgent i { a with role := .worker (some k), rest := body task } with queue := queue }
      | _, _ => none

inductive Does (body : τ → List (Instr ℓ τ)) (holdsBack : System ℓ τ → ℓ → Bool) (s : System ℓ τ)
    (i : ℕ) :
    System ℓ τ → Prop
  | lock {a : Agent ℓ τ} {l : ℓ} {mode : Mode} {rest : List (Instr ℓ τ)} : s.agents[i]? = some a →
      a.rest = .lock l mode :: rest → s.free l mode = true →
        ¬ (mode = .shared ∧ holdsBack s l = true) →
      Does body holdsBack s i (s.setAgent i { a with rest := rest, held := (l, mode) :: a.held })
  | unlock {a : Agent ℓ τ} {l : ℓ} {rest : List (Instr ℓ τ)} : s.agents[i]? = some a →
      a.rest = .unlock l :: rest →
      Does body holdsBack s i
      (s.setAgent i { a with rest := rest, held := a.held.filter (·.1 ≠ l) })
  | enqueue {a : Agent ℓ τ} {task : τ} {rest : List (Instr ℓ τ)} : s.agents[i]? = some a →
      a.rest = .enqueue task :: rest →
      Does body holdsBack s i
      { s.setAgent i { a with rest := rest } with queue := s.queue ++ [(i, task)] }
  | await {a : Agent ℓ τ} {rest : List (Instr ℓ τ)} : s.agents[i]? = some a →
      a.rest = .await :: rest →
      s.pending i = false → Does body holdsBack s i (s.setAgent i { a with rest := rest })
  | finish {a : Agent ℓ τ} {k : ℕ} : s.agents[i]? = some a → a.rest = [] →
      a.role = .worker (some k) →
      Does body holdsBack s i (s.setAgent i { a with role := .worker none })
  | take {a : Agent ℓ τ} {k : ℕ} {task : τ} {queue : List (ℕ × τ)} : s.agents[i]? =
      some a → a.rest = [] → a.role = .worker none → s.queue = (k, task) :: queue →
      Does body holdsBack s i
        { s.setAgent i { a with role := .worker (some k), rest := body task } with queue := queue }

variable {body : τ → List (Instr ℓ τ)}
  {holdsBack : System ℓ τ → ℓ → Bool} {s t : System ℓ τ} {i : ℕ}

lemma step_iff : s.step body holdsBack i = some t ↔ Does body holdsBack s i t := by
  constructor
  · intro h
    simp only [System.step] at h
    split at h
    · cases h
    next a ha =>
      split at h
      next l mode rest hrest =>
        split_ifs at h with hc
        cases h
        exact .lock ha hrest hc.1 hc.2
      next l rest hrest =>
        cases h
        exact .unlock ha hrest
      next task rest hrest =>
        cases h
        exact .enqueue ha hrest
      next rest hrest =>
        split_ifs at h with hc
        cases h
        exact .await ha hrest (by simpa using hc)
      next hrest =>
        split at h
        next k hrole =>
          cases h
          exact .finish ha hrest hrole
        next k task queue hrole hqueue =>
          cases h
          exact .take ha hrest hrole hqueue
        · cases h
  · intro h
    cases h with
    | lock ha hrest hfree hback => simp [System.step, ha, hrest, hfree, hback]
    | unlock ha hrest => simp [System.step, ha, hrest]
    | enqueue ha hrest => simp [System.step, ha, hrest]
    | await ha hrest hp => simp [System.step, ha, hrest, hp]
    | finish ha hrest hrole => simp [System.step, ha, hrest, hrole]
    | take ha hrest hrole hqueue => simp [System.step, ha, hrest, hrole, hqueue]

def Role.rules (r : Rules ℓ) : Role → Rules ℓ
  | .thread => r
  | .worker _ => r.task

def waitsAt (r : Rules ℓ) : List (Instr ℓ τ) → Option ℕ
  | .lock l _ :: _ => some (r.rank l)
  | .await :: _ => some r.pool
  | _ => none

/-- The code of an agent keeps the rules, and one with tasks `pending` still waits for them. -/
structure Agent.Ok (r : Rules ℓ) (pending : Bool) (a : Agent ℓ τ) : Prop where
  code : ∃ waiting, Ordered (a.role.rules r) (a.held.map Prod.fst) waiting a.rest ∧
    (a.role.rules r).Kept (a.held.map Prod.fst) waiting ∧ (pending = true → waiting = true)
  idle : a.role = .worker none → a.rest = []

structure Inv (r : Rules ℓ) (s : System ℓ τ) : Prop where
  agents : ∀ {i : ℕ} {a : Agent ℓ τ}, s.agents[i]? = some a → a.Ok r (s.pending i)
  workers : ∃ a ∈ s.agents, ∃ k, a.role = .worker k
  owners : ∀ {i : ℕ}, s.pending i = true → ∃ a, s.agents[i]? = some a ∧ a.role = .thread
  apart : ∀ {i j : ℕ} {a b : Agent ℓ τ}, i ≠ j → s.agents[i]? = some a → s.agents[j]? = some b →
    ∀ {l : ℓ} {m m' : Mode}, (l, m) ∈ a.held → (l, m') ∈ b.held → m = .shared ∧ m' = .shared

def Done (s : System ℓ τ) : Prop :=
  (∀ a ∈ s.agents, a.rest = [] ∧ ∀ k, a.role ≠ .worker (some k)) ∧ s.queue = []

variable {r : Rules ℓ} {a c : Agent ℓ τ}

omit [DecidableEq ℓ] in
lemma pending_iff {j : ℕ} :
    s.pending j = true ↔ (∃ task, (j, task) ∈ s.queue) ∨ ∃ a ∈ s.agents, a.role =
      .worker (some j) := by
  rw [System.pending, Bool.or_eq_true, List.any_eq_true, List.any_eq_true]
  constructor
  · rintro (⟨⟨k, task⟩, ht, hk⟩ | ⟨a, ha, hrole⟩)
    · exact .inl ⟨task, by rwa [← beq_iff_eq.mp hk]⟩
    · exact .inr ⟨a, ha, beq_iff_eq.mp hrole⟩
  · rintro (⟨task, ht⟩ | ⟨a, ha, hrole⟩)
    · exact .inl ⟨(j, task), ht, beq_self_eq_true j⟩
    · exact .inr ⟨a, ha, beq_iff_eq.mpr hrole⟩

lemma Ordered.waits {n : ℕ} {held : List ℓ} {waiting : Bool} {rest : List (Instr ℓ τ)}
    (h : Ordered r held waiting rest) (hw : waitsAt r rest = some n) :
    r.floor ≤ n ∧ ∀ l ∈ held, r.rank l < n := by
  match rest, h, hw with
  | .lock l mode :: rest, h, hw =>
    cases hw
    exact ⟨h.1, h.2.1⟩
  | .await :: rest, h, hw =>
    cases hw
    exact ⟨h.1, h.2.1⟩

lemma Agent.Ok.waits {n : ℕ} {pending : Bool} (h : a.Ok r pending)
    (hw : waitsAt r a.rest = some n) :
    (a.role.rules r).floor ≤ n ∧ ∀ l ∈ a.held.map Prod.fst, r.rank l < n := by
  obtain ⟨waiting, hord, -⟩ := h.code
  cases hrole : a.role with
  | thread =>
    rw [hrole] at hord
    exact hord.waits hw
  | worker k =>
    rw [hrole] at hord
    exact hord.waits (r := r.task) (by
      match a.rest, hw with
      | .lock l mode :: rest, hw => exact hw
      | .await :: rest, hw => exact hw)

lemma Agent.Ok.held_of_done {pending : Bool} (h : a.Ok r pending) (hrest : a.rest = []) :
    a.held = [] := by
  obtain ⟨waiting, hord, -⟩ := h.code
  rw [hrest] at hord
  exact List.map_eq_nil_iff.mp hord.1

omit [DecidableEq ℓ] in
lemma get_set (ha : s.agents[i]? = some a) {b : Agent ℓ τ} {j : ℕ}
    (hb : (s.agents.set i c)[j]? = some b) :
    (j = i ∧ b = c) ∨ (j ≠ i ∧ s.agents[j]? = some b) := by
  obtain ⟨hi, -⟩ := List.getElem?_eq_some_iff.mp ha
  by_cases hj : j = i
  · subst hj
    rw [List.getElem?_set_self hi] at hb
    exact .inl ⟨rfl, (Option.some.inj hb).symm⟩
  · rw [List.getElem?_set_ne (Ne.symm hj)] at hb
    exact .inr ⟨hj, hb⟩

omit [DecidableEq ℓ] in
lemma pending_set {queue : List (ℕ × τ)} {j : ℕ}
    (hqueue : ∀ task, (j, task) ∈ queue → (j, task) ∈ s.queue)
    (hserves : ∀ k, c.role = .worker (some k) → s.pending k = true)
    (h : System.pending ⟨s.agents.set i c, queue⟩ j = true) : s.pending j = true := by
  rcases pending_iff.mp h with ⟨task, ht⟩ | ⟨b, hb, hrole⟩
  · exact pending_iff.mpr (.inl ⟨task, hqueue task ht⟩)
  · rcases List.mem_or_eq_of_mem_set hb with hb | rfl
    · exact pending_iff.mpr (.inr ⟨b, hb, hrole⟩)
    · exact hserves j hrole

lemma Agent.Ok.mono {pending pending' : Bool} (h : a.Ok r pending)
    (hle : pending' = true → pending = true) :
    a.Ok r pending' := by
  obtain ⟨waiting, hord, hkept, hw⟩ := h.code
  exact ⟨⟨waiting, hord, hkept, fun hp => hw (hle hp)⟩, h.idle⟩

lemma Inv.change {queue : List (ℕ × τ)} (h : Inv r s) (ha : s.agents[i]? = some a)
    (hc : c.Ok r (System.pending ⟨s.agents.set i c, queue⟩ i))
    (hkind : c.role = .thread ↔ a.role = .thread)
    (hserves : ∀ k, c.role = .worker (some k) → s.pending k = true)
    (hqueue : ∀ j task, (j, task) ∈ queue → (j, task) ∈ s.queue ∨ (j = i ∧ a.role = .thread))
    (hheld : ∀ {l m}, (l, m) ∈ c.held → (l, m) ∈ a.held ∨
      ∀ b ∈ s.agents, ∀ m', (l, m') ∈ b.held → m = .shared ∧ m' = .shared) :
        Inv r ⟨s.agents.set i c, queue⟩ := by
  obtain ⟨hi, -⟩ := List.getElem?_eq_some_iff.mp ha
  have hsame : (s.agents.set i c)[i]? = some c := List.getElem?_set_self hi
  have hother : ∀ {j}, j ≠ i → (s.agents.set i c)[j]? = s.agents[j]? :=
    fun hj => List.getElem?_set_ne (Ne.symm hj)
  have hpending : ∀ {j}, j ≠ i ∨ a.role ≠ .thread →
      System.pending ⟨s.agents.set i c, queue⟩ j = true → s.pending j = true := fun {j} hj hp =>
    pending_set (fun task ht => (hqueue j task ht).resolve_right fun hnew =>
      hj.elim (· hnew.1) (· hnew.2)) hserves hp
  refine ⟨fun {j b} hb => ?_, ?_, fun {j} hp => ?_, fun {j j' b b'} hne hb hb' l m m' hm hm' => ?_⟩
  · rcases get_set ha hb with ⟨rfl, rfl⟩ | ⟨hj, hb⟩
    · exact hc
    · exact (h.agents hb).mono (hpending (.inl hj))
  · obtain ⟨b, hb, k, hk⟩ := h.workers
    obtain ⟨j, hj⟩ := List.mem_iff_getElem?.mp hb
    by_cases heq : j = i
    · subst heq
      rw [ha] at hj
      cases hj
      refine ⟨c, List.mem_of_getElem? hsame, ?_⟩
      cases hrole : c.role with
      | thread => cases hk.symm.trans (hkind.mp hrole)
      | worker k => exact ⟨k, rfl⟩
    · exact ⟨b, List.mem_of_getElem? ((hother heq).trans hj), k, hk⟩
  · by_cases hj : j = i
    · subst hj
      by_cases hthread : a.role = .thread
      · exact ⟨c, hsame, hkind.mpr hthread⟩
      · obtain ⟨b, hb, hrole⟩ := h.owners (hpending (.inr hthread) hp)
        rw [ha] at hb
        cases hb
        exact absurd hrole hthread
    · obtain ⟨b, hb, hrole⟩ := h.owners (hpending (.inl hj) hp)
      exact ⟨b, (hother hj).trans hb, hrole⟩
  · rcases get_set ha hb with ⟨hj, hbc⟩ | ⟨hj, hbs⟩ <;> rcases get_set ha hb'
      with ⟨hj', hbc'⟩ | ⟨hj', hbs'⟩
    · exact absurd (hj.trans hj'.symm) hne
    · subst hj hbc
      rcases hheld hm with hm | hm
      · exact h.apart hne ha hbs' hm hm'
      · exact hm b' (List.mem_of_getElem? hbs') m' hm'
    · subst hj' hbc'
      rcases hheld hm' with hm' | hm'
      · exact h.apart hne hbs ha hm hm'
      · exact (hm' b (List.mem_of_getElem? hbs) m hm).symm
    · exact h.apart hne hbs hbs' hm hm'

lemma free_apart {l : ℓ} {mode m' : Mode} (hfree : s.free l mode = true) {b : Agent ℓ τ}
    (hb : b ∈ s.agents) (hheld : (l, m') ∈ b.held) : mode = .shared ∧ m' = .shared := by
  cases mode with
  | exclusive =>
    have := List.all_eq_true.mp (List.all_eq_true.mp hfree b hb) _ hheld
    simp at this
  | shared =>
    have := List.all_eq_true.mp (List.all_eq_true.mp hfree b hb) _ hheld
    simpa using this

lemma Inv.turn {queue : List (ℕ × τ)} (h : Inv r s) (ha : s.agents[i]? = some a)
    (hrole : c.role = a.role) (hrest : a.rest ≠ []) {waiting : Bool}
    (hord : Ordered (a.role.rules r) (c.held.map Prod.fst) waiting c.rest)
    (hkept : (a.role.rules r).Kept (c.held.map Prod.fst) waiting)
    (hw : System.pending ⟨s.agents.set i c, queue⟩ i = true → waiting = true)
    (hqueue : ∀ j task, (j, task) ∈ queue → (j, task) ∈ s.queue ∨ (j = i ∧ a.role = .thread))
    (hheld : ∀ {l m}, (l, m) ∈ c.held → (l, m) ∈ a.held ∨
      ∀ b ∈ s.agents, ∀ m', (l, m') ∈ b.held → m = .shared ∧ m' = .shared) :
        Inv r ⟨s.agents.set i c, queue⟩ := by
  have hok : c.Ok r (System.pending ⟨s.agents.set i c, queue⟩ i) := by
    refine ⟨⟨waiting, ?_, ?_, hw⟩, fun hidle => absurd ((h.agents ha).idle (hrole ▸ hidle)) hrest⟩
    · rwa [hrole]
    · rwa [hrole]
  refine h.change ha hok (by rw [hrole]) (fun k hk => ?_) hqueue hheld
  exact pending_iff.mpr (.inr ⟨a, List.mem_of_getElem? ha, hrole ▸ hk⟩)

omit [DecidableEq ℓ] in
lemma pending_same (ha : s.agents[i]? = some a) (hrole : c.role = a.role)
    (h : System.pending ⟨s.agents.set i c, s.queue⟩ i = true) : s.pending i = true :=
  pending_set (fun _ ht => ht)
  (fun _ hk => pending_iff.mpr (.inr ⟨a, List.mem_of_getElem? ha, hrole ▸ hk⟩)) h

lemma Inv.step (hbody : ∀ task, Ordered r.task [] false (body task)) (h : Inv r s)
    (hs : s.step body holdsBack i = some t) : Inv r t := by
  cases step_iff.mp hs with
  | @lock a l mode rest ha hrest hfree =>
    obtain ⟨waiting, hord, hkept, hw⟩ := (h.agents ha).code
    rw [hrest] at hord
    refine h.turn (c := { a with rest := rest, held := (l, mode) :: a.held }) ha rfl
      (by rw [hrest]; simp) hord.2.2.2
      (hkept.cons hord.2.2.1) (fun hp => hw (pending_same ha (by rfl) hp)) (fun _ _ ht => .inl ht)
        fun hm => ?_
    rcases List.mem_cons.mp hm with heq | hm
    · cases heq
      exact .inr fun b hb m' hm' => free_apart hfree hb hm'
    · exact .inl hm
  | @unlock a l rest ha hrest =>
    obtain ⟨waiting, hord, hkept, hw⟩ := (h.agents ha).code
    rw [hrest] at hord
    have hmap : (a.held.filter (·.1 ≠ l)).map Prod.fst = (a.held.map Prod.fst).filter (· ≠ l) := by
      rw [List.filter_map]
      rfl
    exact h.turn (c := { a with rest := rest, held := a.held.filter (·.1 ≠ l) }) ha rfl
      (by rw [hrest]; simp)
      (hmap ▸ hord.2.2) (hmap ▸ hord.2.1) (fun hp => hw (pending_same ha (by rfl) hp))
      (fun _ _ ht => .inl ht)
      fun hm => .inl (List.mem_of_mem_filter hm)
  | @enqueue a task rest ha hrest =>
    obtain ⟨waiting, hord, hkept, hw⟩ := (h.agents ha).code
    rw [hrest] at hord
    have hthread : a.role = .thread := by
      cases hrole : a.role with
      | thread => rfl
      | worker k =>
        rw [hrole] at hord
        exact absurd hord.1 (Nat.not_succ_le_self _)
    refine h.turn (c := { a with rest := rest }) ha rfl (by rw [hrest]; simp) hord.2.2
      ⟨hkept.1, fun _ => hord.2.1⟩ (fun _ => rfl) (fun j task' ht => ?_) .inl
    rcases List.mem_append.mp ht with ht | ht
    · exact .inl ht
    · cases List.mem_singleton.mp ht
      exact .inr ⟨rfl, hthread⟩
  | @await a rest ha hrest hnone =>
    obtain ⟨waiting, hord, hkept, hw⟩ := (h.agents ha).code
    rw [hrest] at hord
    have hnever : ¬ System.pending ⟨s.agents.set i { a with rest := rest }, s.queue⟩ i = true :=
      fun hp => by
      rw [pending_same ha (by rfl) hp] at hnone
      cases hnone
    exact h.turn (c := { a with rest := rest }) ha rfl (by rw [hrest]; simp) hord.2.2
      ⟨hkept.1, fun hw => (Bool.false_ne_true hw).elim⟩ (fun hp => absurd hp hnever)
      (fun _ _ ht => .inl ht) .inl
  | @finish a k ha hrest hrole =>
    obtain ⟨waiting, hord, hkept, hw⟩ := (h.agents ha).code
    rw [hrole] at hord hkept
    refine h.change (c := { a with role := .worker none }) ha
      ⟨⟨waiting, hord, hkept, fun hp => hw ?_⟩, fun _ => hrest⟩
      (by simp [hrole]) (fun k hk => by cases hk) (fun _ _ ht => .inl ht) .inl
    exact pending_set (fun _ ht => ht) (fun k hk => by cases hk) hp
  | @take a k task queue ha hrest hrole hqueue =>
    have hserves : ∀ k', Role.worker (some k) = .worker (some k') → s.pending k' = true := by
      rintro k' heq
      cases heq
      exact pending_iff.mpr (.inl ⟨task, by rw [hqueue]; exact List.mem_cons_self⟩)
    have hsub : ∀ j task', (j, task') ∈ queue → (j, task') ∈ s.queue := fun j task' ht => by
      rw [hqueue]
      exact List.mem_cons_of_mem _ ht
    have hnone : a.held = [] := (h.agents ha).held_of_done hrest
    refine h.change (c := { a with role := .worker (some k), rest := body task }) ha
      ⟨⟨false, ?_, ?_, fun hp => ?_⟩, ?_⟩
      (by simp [hrole]) hserves (fun j task' ht => .inl (hsub j task' ht)) .inl
    · rw [hnone]
      exact hbody task
    · rw [hnone]
      exact r.task.kept_nil
    · obtain ⟨b, hb, hthread⟩ := h.owners (pending_set (hsub i) hserves hp)
      rw [ha] at hb
      cases hb
      rw [hrole] at hthread
      cases hthread
    · exact fun hidle => by cases hidle

lemma Stuck.lock (hstuck : ∀ i t, s.step body holdsBack i ≠ some t) (ha : a ∈ s.agents) {l : ℓ}
    {mode : Mode} {rest : List (Instr ℓ τ)} (hrest : a.rest = .lock l mode :: rest) :
    s.free l mode = false ∨ mode = .shared ∧ holdsBack s l = true := by
  obtain ⟨i, ha⟩ := List.mem_iff_getElem?.mp ha
  by_contra hno
  obtain ⟨hfree, hback⟩ := not_or.mp hno
  exact hstuck i _ (step_iff.mpr (.lock ha hrest (by simpa using hfree) hback))

lemma Stuck.idle (hstuck : ∀ i t, s.step body holdsBack i ≠ some t) (ha : a ∈ s.agents)
    (hrest : a.rest = []) (hrole : a.role = .worker none) : s.queue = [] := by
  obtain ⟨i, ha⟩ := List.mem_iff_getElem?.mp ha
  by_contra hqueue
  obtain ⟨⟨k, task⟩, queue, hqueue⟩ := List.exists_cons_of_ne_nil hqueue
  exact hstuck i _ (step_iff.mpr (.take ha hrest hrole hqueue))

lemma Stuck.agent (hstuck : ∀ i t, s.step body holdsBack i ≠ some t) (ha : a ∈ s.agents) :
    (a.rest = [] ∧ (∀ k, a.role ≠ .worker (some k)) ∧ (a.role = .worker none → s.queue = [])) ∨
      (∃ l mode rest, a.rest = .lock l mode :: rest ∧
        (s.free l mode = false ∨ mode = .shared ∧ holdsBack s l = true)) ∨
        ∃ i rest, s.agents[i]? = some a ∧ a.rest = .await :: rest ∧ s.pending i = true := by
  have hmem := ha
  obtain ⟨i, ha⟩ := List.mem_iff_getElem?.mp ha
  cases hrest : a.rest with
  | nil =>
    refine .inl ⟨rfl, fun k hrole => ?_, Stuck.idle hstuck hmem hrest⟩
    exact hstuck i _ (step_iff.mpr (.finish ha hrest hrole))
  | cons instr rest =>
    cases instr with
    | lock l mode => exact .inr (.inl ⟨l, mode, rest, rfl, Stuck.lock hstuck hmem hrest⟩)
    | unlock l => exact absurd (step_iff.mpr (.unlock ha hrest)) (hstuck i _)
    | enqueue task => exact absurd (step_iff.mpr (.enqueue ha hrest)) (hstuck i _)
    | await =>
      refine .inr (.inr ⟨i, rest, ha, rfl, ?_⟩)
      by_contra hno
      exact hstuck i _ (step_iff.mpr (.await ha hrest (by simpa using hno)))

lemma Stuck.waits (hstuck : ∀ i t, s.step body holdsBack i ≠ some t) (ha : a ∈ s.agents)
    (hrest : a.rest ≠ [] ∨ ∃ k, a.role = .worker (some k)) : ∃ n, waitsAt r a.rest = some n := by
  rcases Stuck.agent hstuck ha
    with ⟨hnil, hrole, -⟩ | ⟨l, mode, rest, heq, -⟩ | ⟨i, rest, -, heq, -⟩
  · rcases hrest with hrest | ⟨k, hk⟩
    · exact absurd hnil hrest
    · exact absurd hk (hrole k)
  · exact ⟨r.rank l, by rw [heq]; rfl⟩
  · exact ⟨r.pool, by rw [heq]; rfl⟩

lemma Inv.ok (h : Inv r s) (ha : a ∈ s.agents) : ∃ pending, a.Ok r pending := by
  obtain ⟨i, hi⟩ := List.mem_iff_getElem?.mp ha
  exact ⟨_, h.agents hi⟩

lemma Stuck.holder (h : Inv r s) (hstuck : ∀ i t, s.step body holdsBack i ≠ some t) {l : ℓ}
    {m : Mode}
    (ha : a ∈ s.agents) (hheld : (l, m) ∈ a.held) : ∃ b ∈ s.agents, ∃ n, waitsAt r b.rest = some n ∧
    r.rank l < n := by
  obtain ⟨pending, hok⟩ := h.ok ha
  have hrest : a.rest ≠ [] := fun hnil => by
    rw [hok.held_of_done hnil] at hheld
    cases hheld
  obtain ⟨n, hn⟩ := Stuck.waits (r := r) hstuck ha (.inl hrest)
  exact ⟨a, ha, n, hn, (hok.waits hn).2 l (List.mem_map_of_mem hheld)⟩

lemma not_free {l : ℓ} {mode : Mode} (h : s.free l mode = false) :
    ∃ a ∈ s.agents, ∃ m, (l, m) ∈ a.held := by
  by_contra hno
  have hfree : s.free l mode = true := by
    cases mode <;>
    · refine List.all_eq_true.mpr fun a ha => List.all_eq_true.mpr fun x hx => ?_
      have hne : x.1 ≠ l := fun heq => hno ⟨a, ha, x.2, heq ▸ hx⟩
      simp [hne]
  rw [hfree] at h
  cases h

lemma Stuck.worker (h : Inv r s) (hstuck : ∀ i t, s.step body holdsBack i ≠ some t) {k : ℕ}
    (ha : a ∈ s.agents) (hrole : a.role = .worker (some k)) :
    ∃ b ∈ s.agents, ∃ n, waitsAt r b.rest = some n ∧ r.pool < n := by
  obtain ⟨n, hn⟩ := Stuck.waits (r := r) hstuck ha (.inr ⟨k, hrole⟩)
  obtain ⟨pending, hok⟩ := h.ok ha
  have habove := (hok.waits hn).1
  rw [hrole] at habove
  exact ⟨a, ha, n, hn, habove⟩

lemma Stuck.higher (hback : ∀ s l, holdsBack s l = true → System.wanted s l) (h : Inv r s)
    (hstuck : ∀ i t, s.step body holdsBack i ≠ some t) {n : ℕ} (ha : a ∈ s.agents)
    (hw : waitsAt r a.rest = some n) :
    ∃ b ∈ s.agents, ∃ m, waitsAt r b.rest = some m ∧ n < m := by
  rcases Stuck.agent hstuck ha
    with ⟨hnil, -⟩ | ⟨l, mode, rest, heq, hrefused⟩ | ⟨i, rest, hi, heq, hpending⟩
  · rw [hnil] at hw
    cases hw
  · rw [heq] at hw
    cases hw
    rcases hrefused with hfree | ⟨-, hheld⟩
    · obtain ⟨b, hb, m, hheld⟩ := not_free hfree
      exact Stuck.holder h hstuck hb hheld
    · -- The writer the reader is held back for waits for somebody who has the lock.
      obtain ⟨c, hc, crest, hcrest⟩ := hback s l hheld
      rcases Stuck.lock hstuck hc hcrest with hfree | ⟨hshared, -⟩
      · obtain ⟨b, hb, m, hheld⟩ := not_free hfree
        exact Stuck.holder h hstuck hb hheld
      · cases hshared
  · rw [heq] at hw
    cases hw
    rcases pending_iff.mp hpending with ⟨task, hqueued⟩ | ⟨b, hb, hrole⟩
    · obtain ⟨b, hb, k, hk⟩ := h.workers
      cases k with
      | none =>
        obtain ⟨pending, hok⟩ := h.ok hb
        rw [Stuck.idle hstuck hb (hok.idle hk) hk] at hqueued
        cases hqueued
      | some k => exact Stuck.worker h hstuck hb hk
    · exact Stuck.worker h hstuck hb hrole

lemma Stuck.nobody_waits (hback : ∀ s l, holdsBack s l = true → System.wanted s l) (h : Inv r s)
    (hstuck : ∀ i t, s.step body holdsBack i ≠ some t) (ha : a ∈ s.agents) :
    waitsAt r a.rest = none := by
  by_contra hw
  obtain ⟨n, hn⟩ := Option.ne_none_iff_exists'.mp hw
  let level := fun b : Agent ℓ τ => (waitsAt r b.rest).getD 0
  have hclimb : ∀ k, ∃ b ∈ s.agents, ∃ m, waitsAt r b.rest = some m ∧ k ≤ m := by
    intro k
    induction k with
    | zero => exact ⟨a, ha, n, hn, Nat.zero_le n⟩
    | succ k ih =>
      obtain ⟨b, hb, m, hm, hle⟩ := ih
      obtain ⟨c, hc, m', hm', hlt⟩ := Stuck.higher hback h hstuck hb hm
      exact ⟨c, hc, m', hm', by omega⟩
  obtain ⟨b, hb, m, hm, hle⟩ := hclimb ((s.agents.map level).sum + 1)
  have hbound : level b ≤ (s.agents.map level).sum :=
    List.single_le_sum (fun _ _ => Nat.zero_le _) _ (List.mem_map_of_mem hb)
  have hlevel : level b = m := by simp only [level, hm, Option.getD_some]
  omega

theorem Stuck.done (hback : ∀ s l, holdsBack s l = true → System.wanted s l) (h : Inv r s)
    (hstuck : ∀ i t, s.step body holdsBack i ≠ some t) : Done s := by
  have hagents : ∀ a ∈ s.agents,
      a.rest = [] ∧ (∀ k, a.role ≠ .worker (some k)) ∧ (a.role = .worker none → s.queue = []) := by
    intro a ha
    have hnone := Stuck.nobody_waits hback h hstuck ha
    rcases Stuck.agent hstuck ha with hdone | ⟨l, mode, rest, heq, -⟩ | ⟨i, rest, -, heq, -⟩
    · exact hdone
    · rw [heq] at hnone
      cases hnone
    · rw [heq] at hnone
      cases hnone
  refine ⟨fun a ha => ⟨(hagents a ha).1, (hagents a ha).2.1⟩, ?_⟩
  obtain ⟨b, hb, k, hk⟩ := h.workers
  obtain ⟨-, hbusy, hempty⟩ := hagents b hb
  cases k with
  | none => exact hempty hk
  | some k => exact absurd hk (hbusy k)

def Instr.weight (body : τ → List (Instr ℓ τ)) : Instr ℓ τ → ℕ
  | .enqueue task => (body task).length + 3
  | _ => 1

def Role.weight : Role → ℕ
  | .worker (some _) => 1
  | _ => 0

def Agent.weight (body : τ → List (Instr ℓ τ)) (a : Agent ℓ τ) : ℕ :=
  (a.rest.map (Instr.weight body)).sum + a.role.weight

def workLeft (body : τ → List (Instr ℓ τ)) (s : System ℓ τ) : ℕ :=
  (s.agents.map (Agent.weight body)).sum + (s.queue.map fun t => (body t.2).length + 2).sum

lemma Ordered.weight {held : List ℓ} {waiting : Bool} {p : List (Instr ℓ τ)}
    (h : Ordered r.task held waiting p) :
    (p.map (Instr.weight body)).sum = p.length := by
  induction p generalizing held waiting with
  | nil => rfl
  | cons i p ih =>
    cases i with
    | lock l mode => simp [Instr.weight, ih h.2.2.2, Nat.add_comm]
    | unlock l => simp [Instr.weight, ih h.2.2, Nat.add_comm]
    | enqueue task => exact absurd h.1 (Nat.not_succ_le_self r.pool)
    | await => exact absurd h.1 (Nat.not_succ_le_self r.pool)

omit [DecidableEq ℓ] in
lemma weight_setAgent (body : τ → List (Instr ℓ τ)) (ha : s.agents[i]? = some a) :
    workLeft body (s.setAgent i c) + a.weight body = workLeft body s + c.weight body := by
  have hsum := sum_set_part (Agent.weight body) ha c
  simp only [workLeft, System.setAgent]
  omega

lemma step_lowers (hbody : ∀ task, Ordered r.task [] false (body task))
    (hs : s.step body holdsBack i = some t) :
    workLeft body t < workLeft body s := by
  have hcons : ∀ {a : Agent ℓ τ} {instr rest}, a.rest = instr :: rest →
      a.weight body = Agent.weight body { a with rest := rest } + instr.weight body := by
    intro a instr rest hrest
    simp only [Agent.weight, hrest, List.map_cons, List.sum_cons]
    omega
  cases step_iff.mp hs with
  | @lock a l mode rest ha hrest =>
    have hset := weight_setAgent body (c := { a with rest := rest, held := (l, mode) :: a.held }) ha
    have hweight := hcons hrest
    simp only [Agent.weight, Instr.weight] at hset hweight
    omega
  | @unlock a l rest ha hrest =>
    have hset := weight_setAgent body
      (c := { a with rest := rest, held := a.held.filter (·.1 ≠ l) }) ha
    have hweight := hcons hrest
    simp only [Agent.weight, Instr.weight] at hset hweight
    omega
  | @enqueue a task rest ha hrest =>
    have hset := weight_setAgent body (c := { a with rest := rest }) ha
    have hweight := hcons hrest
    simp only [workLeft, System.setAgent, List.map_append, List.sum_append, List.map_singleton,
      List.sum_singleton, Instr.weight] at hset hweight ⊢
    omega
  | @await a rest ha hrest =>
    have hset := weight_setAgent body (c := { a with rest := rest }) ha
    have hweight := hcons hrest
    simp only [Instr.weight] at hweight
    omega
  | @finish a k ha hrest hrole =>
    have hset := weight_setAgent body (c := { a with role := .worker none }) ha
    simp only [Agent.weight, hrole, Role.weight] at hset
    omega
  | @take a k task queue ha hrest hrole hqueue =>
    have hset := weight_setAgent body
      (c := { a with role := .worker (some k), rest := body task }) ha
    have htask : ((body task).map (Instr.weight body)).sum = (body task).length :=
      (hbody task).weight
    simp only [workLeft, System.setAgent, Agent.weight, hrest, hrole, hqueue, htask, Role.weight,
      List.map_nil, List.sum_nil, List.map_cons, List.sum_cons] at hset ⊢
    omega

def Goes (body : τ → List (Instr ℓ τ)) (holdsBack : System ℓ τ → ℓ → Bool) (s t : System ℓ τ) :
    Prop :=
  ∃ i, s.step body holdsBack i = some t

theorem goes_progress (hbody : ∀ task, Ordered r.task [] false (body task))
    (hback : ∀ s l, holdsBack s l = true → System.wanted s l) :
    Progress (Goes body holdsBack) (Inv r) Done (workLeft body) where
  keeps h := fun ⟨_, hs⟩ => h.step hbody hs
  lowers _ := fun ⟨_, hs⟩ => step_lowers hbody hs
  goes {s} h hd := by
    by_contra hno
    exact hd (Stuck.done hback h fun i t hs => hno ⟨t, i, hs⟩)

def run (body : τ → List (Instr ℓ τ)) (holdsBack : System ℓ τ → ℓ → Bool) : List ℕ → System ℓ τ →
    Option (System ℓ τ)
  | [], s => some s
  | i :: is, s => (s.step body holdsBack i).bind (run body holdsBack is)

lemma goes_run {is : List ℕ} (h : run body holdsBack is s = some t) :
    Relation.ReflTransGen (Goes body holdsBack) s t := by
  induction is generalizing s with
  | nil =>
    cases h
    exact .refl
  | cons i is ih =>
    obtain ⟨u, hu, ht⟩ := Option.bind_eq_some_iff.mp h
    exact .head ⟨i, hu⟩ (ih ht)

def writersFirst (s : System ℓ τ) (l : ℓ) : Bool :=
  s.agents.any fun a =>
    match a.rest with
    | .lock l' .exclusive :: _ => l' = l
    | _ => false

lemma writersFirst_wanted {l : ℓ} (h : writersFirst s l = true) : s.wanted l := by
  obtain ⟨a, ha, hl⟩ := List.any_eq_true.mp h
  split at hl
  next l' rest hrest => exact ⟨a, ha, rest, by rw [hrest, of_decide_eq_true hl]⟩
  · cases hl

lemma Inv.covered (h : Inv r s) (ha : a ∈ s.agents) {l : ℓ} {m : Mode} (hheld : (l, m) ∈ a.held) :
    (a.role.rules r).Covered (some l) (a.held.map Prod.fst) := by
  obtain ⟨pending, hok⟩ := h.ok ha
  obtain ⟨waiting, -, hkept, -⟩ := hok.code
  exact hkept.1 l (List.mem_map_of_mem hheld)

lemma Inv.owner (h : Inv r s) (hp : s.pending i = true) :
    ∃ a, s.agents[i]? = some a ∧ a.role = .thread ∧ r.Covered none (a.held.map Prod.fst) ∧
      .await ∈ a.rest := by
  obtain ⟨a, ha, hthread⟩ := h.owners hp
  obtain ⟨waiting, hord, hkept, hw⟩ := (h.agents ha).code
  rw [hthread] at hord hkept
  cases hw hp
  refine ⟨a, ha, hthread, hkept.2 rfl, ?_⟩
  have hawait : ∀ {held : List ℓ} {p : List (Instr ℓ τ)}, Ordered r held true p → .await ∈ p := by
    intro held p hord
    induction p generalizing held with
    | nil => cases hord.2
    | cons instr p ih =>
      cases instr with
      | lock l mode => exact List.mem_cons_of_mem _ (ih hord.2.2.2)
      | unlock l => exact List.mem_cons_of_mem _ (ih hord.2.2)
      | enqueue task => exact List.mem_cons_of_mem _ (ih hord.2.2)
      | await => exact List.mem_cons_self
  exact hawait hord

def start (threads : List (List (Instr ℓ τ))) (workers : ℕ) : System ℓ τ where
  agents := threads.map (⟨.thread, ·, []⟩) ++ List.replicate workers ⟨.worker none, [], []⟩
  queue := []

lemma start_inv {threads : List (List (Instr ℓ τ))} {workers : ℕ} (hw : 0 < workers)
    (h : ∀ p ∈ threads, Ordered r [] false p) : Inv r (start threads workers) := by
  have hcases : ∀ a ∈ (start threads workers).agents,
      (∃ p ∈ threads, a = ⟨.thread, p, []⟩) ∨ a = ⟨.worker none, [], []⟩ := by
    intro a ha
    rcases List.mem_append.mp ha with ha | ha
    · obtain ⟨p, hp, rfl⟩ := List.mem_map.mp ha
      exact .inl ⟨p, hp, rfl⟩
    · exact .inr (List.eq_of_mem_replicate ha)
  have hnone : ∀ i, ¬ (start threads workers).pending i = true := by
    intro i hp
    rcases pending_iff.mp hp with ⟨task, ht⟩ | ⟨a, ha, hrole⟩
    · cases ht
    · rcases hcases a ha with ⟨p, -, rfl⟩ | rfl <;> cases hrole
  refine ⟨fun {i a} ha => ?_, ⟨⟨.worker none, [], []⟩, ?_, none, rfl⟩,
    fun hp => absurd hp (hnone _), fun {i j a b} _ ha _ {l m m'} hm => ?_⟩
  · rcases hcases a (List.mem_of_getElem? ha) with ⟨p, hp, rfl⟩ | rfl
    · exact ⟨⟨false, h p hp, r.kept_nil, fun hp => absurd hp (hnone i)⟩, fun hidle => by
        cases hidle⟩
    · exact ⟨⟨false, ⟨rfl, rfl⟩, r.task.kept_nil, fun hp => absurd hp (hnone i)⟩, fun _ => rfl⟩
  · exact List.mem_append_right _ (List.mem_replicate.mpr ⟨hw.ne', rfl⟩)
  · rcases hcases a (List.mem_of_getElem? ha) with ⟨p, hp, rfl⟩ | rfl <;> cases hm

end Steps

end Foundations.LockOrder
