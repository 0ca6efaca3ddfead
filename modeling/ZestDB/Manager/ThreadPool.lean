import ZestDB.Foundations.Progress
import Mathlib.Data.List.Perm.Basic

/-! `ThreadPool.hpp` and `ThreadPool.cpp`: the queue of tasks, the workers that take them, the
threads in `waitAll` and the destructor. What a thread does under `queueMutex` is one step. A thread
that waits on a condition variable sleeps until it is woken, and can wake without a reason. -/

namespace Zest

open Foundations

/-- Where a worker is in its loop; `leaving` is the worker that has yet to count its task as
done. -/
inductive Worker (τ : Type) where
  | checking
  | waiting
  | running (task : τ)
  | leaving
  | exited
deriving DecidableEq, Repr

inductive Caller where
  | away
  | checking
  | waiting
deriving DecidableEq, Repr

inductive Destructor where
  | idle
  | stopping
  | joining
  | closed
deriving DecidableEq, Repr

/-- `notices` are the calls of `enqueue` between the unlock and `notify_one`; `enqueued`, `started`
and `results` say what happened so far. -/
structure ThreadPool (τ ρ : Type) where
  tasks : List τ := []
  activeTasks : ℕ := 0
  stopFlag : Bool := false
  workers : List (Worker τ)
  callers : List Caller
  notices : ℕ := 0
  destructor : Destructor := .idle
  enqueued : List τ := []
  started : List τ := []
  results : List (τ × ρ) := []

namespace Worker

variable {τ : Type}

def wake : Worker τ → Worker τ
  | waiting => checking
  | w => w

def busy : Worker τ → Bool
  | running _ | leaving => true
  | _ => false

def awake : Worker τ → Bool
  | checking => true
  | _ => false

def task? : Worker τ → Option τ
  | running task => some task
  | _ => none

end Worker

namespace Caller

def wake : Caller → Caller
  | waiting => checking
  | c => c

end Caller

namespace ThreadPool

variable {τ ρ : Type}

def create (numThreads callers : ℕ) : ThreadPool τ ρ where
  workers := List.replicate numThreads .checking
  callers := List.replicate callers .away

inductive Action (τ : Type) where
  | enqueue (task : τ)
  | waitAll (k : ℕ)
  | destroy
  | wakeWorker (i : ℕ)
  | wakeCaller (k : ℕ)
  | notifyOne (i : ℕ)
  | notifyNobody
  | check (i : ℕ)
  | run (i : ℕ)
  | leave (i : ℕ)
  | look (k : ℕ)
  | notifyAll
  | join

def Action.own : Action τ → Bool
  | enqueue _ | waitAll _ | destroy | wakeWorker _ | wakeCaller _ => false
  | _ => true

def completed (p : ThreadPool τ ρ) : Bool := p.tasks.isEmpty && p.activeTasks == 0

def setWorker (i : ℕ) (w : Worker τ) (p : ThreadPool τ ρ) : ThreadPool τ ρ :=
  { p with workers := p.workers.set i w }

def setCaller (k : ℕ) (c : Caller) (p : ThreadPool τ ρ) : ThreadPool τ ρ :=
  { p with callers := p.callers.set k c }

/-- The loop of a worker under the lock, from the predicate of `condition` on. -/
def takeTask (i : ℕ) (p : ThreadPool τ ρ) : ThreadPool τ ρ :=
  match p.tasks with
  | task :: tasks =>
    { p with tasks := tasks, activeTasks := p.activeTasks + 1, started := p.started ++
      [task] }.setWorker i (.running task)
  | [] => p.setWorker i (if p.stopFlag then .exited else .waiting)

/-- The end of the loop, which wakes the threads in `waitAll` when nothing is left. -/
def leaveTask (i : ℕ) (p : ThreadPool τ ρ) : ThreadPool τ ρ :=
  let p' := { p with activeTasks := p.activeTasks - 1 }.setWorker i .checking
  if p'.completed then { p' with callers := p'.callers.map Caller.wake } else p'

/-- One step; `call` is what a task leaves in its future. The pool is destroyed when no other thread
is in one of its functions. -/
def step (call : τ → ρ) (p : ThreadPool τ ρ) : Action τ → Option (ThreadPool τ ρ)
  | .enqueue task =>
    if p.destructor = .idle then
      some { p with tasks := p.tasks ++ [task], notices := p.notices + 1, enqueued := p.enqueued ++
        [task] }
    else none
  | .waitAll k =>
    if p.destructor = .idle ∧ p.callers[k]? = some .away then
      some (p.setCaller k .checking) else none
  | .destroy =>
    if p.destructor = .idle ∧ p.notices = 0 ∧ ∀ c ∈ p.callers, c = .away then
      some { p with stopFlag := true, destructor := .stopping }
    else none
  | .wakeWorker i =>
    match p.workers[i]? with
    | some .waiting => some (p.setWorker i .checking)
    | _ => none
  | .wakeCaller k =>
    match p.callers[k]? with
    | some .waiting => some (p.setCaller k .checking)
    | _ => none
  | .notifyOne i =>
    match p.notices, p.workers[i]? with
    | notices + 1, some .waiting => some ({ p with notices := notices }.setWorker i .checking)
    | _, _ => none
  | .notifyNobody =>
    match p.notices with
    | notices + 1 => if p.workers.any fun w =>
      w matches .waiting then none else some { p with notices := notices }
    | 0 => none
  | .check i =>
    match p.workers[i]? with
    | some .checking => some (p.takeTask i)
    | _ => none
  | .run i =>
    match p.workers[i]? with
    | some (.running task) =>
      some ({ p with results := p.results ++ [(task, call task)] }.setWorker i .leaving)
    | _ => none
  | .leave i =>
    match p.workers[i]? with
    | some .leaving => some (p.leaveTask i)
    | _ => none
  | .look k =>
    match p.callers[k]? with
    | some .checking => some (p.setCaller k (if p.completed then .away else .waiting))
    | _ => none
  | .notifyAll =>
    match p.destructor with
    | .stopping => some { p with destructor := .joining, workers := p.workers.map Worker.wake }
    | _ => none
  | .join =>
    if p.destructor = .joining ∧ p.workers.all fun w => w matches .exited then
      some { p with destructor := .closed }
    else none

structure Inv (call : τ → ρ) (p : ThreadPool τ ρ) : Prop where
  active : p.activeTasks = p.workers.countP Worker.busy
  order : p.enqueued = p.started ++ p.tasks
  begun : (p.results.map Prod.fst ++ p.workers.filterMap Worker.task?).Perm p.started
  result : ∀ r ∈ p.results, r.2 = call r.1
  flag : p.stopFlag = true ↔ p.destructor ≠ .idle
  exits : Worker.exited ∈ p.workers → p.tasks = [] ∧ p.stopFlag = true
  awake : Worker.waiting ∈ p.workers → p.tasks.length ≤ p.notices + p.workers.countP Worker.awake
  woken : Worker.waiting ∈ p.workers → p.destructor = .idle ∨ p.destructor = .stopping
  asleep : Caller.waiting ∈ p.callers → p.completed = false
  last : p.destructor ≠ .idle → p.notices = 0 ∧ ∀ c ∈ p.callers, c = .away
  closed : p.destructor = .closed → ∀ w ∈ p.workers, w = .exited

section Steps

variable {call : τ → ρ} {p q : ThreadPool τ ρ} {a : Action τ} {i k : ℕ} {w w' : Worker τ}
  {c c' : Caller}

lemma mem_others (w' : Worker τ) {before after : List (Worker τ)} {v : Worker τ}
    (hl : p.workers = before ++ w :: after)
    (hv : v ∈ before ++ w' :: after) : v = w' ∨ v ∈ p.workers := by
  rw [hl]
  simp only [List.mem_append, List.mem_cons] at hv ⊢
  tauto

lemma countP_others {before after : List (Worker τ)} (f : Worker τ → Bool)
    (hl : p.workers = before ++ w :: after) :
    (before ++ w' :: after).countP f + (if f w then 1 else 0) = p.workers.countP f + if f w' then
      1 else 0 := by
  rw [hl]
  simp only [List.countP_append, List.countP_cons]
  omega

lemma completed_iff : p.completed = true ↔ p.tasks = [] ∧ p.activeTasks = 0 := by
  simp [completed, List.isEmpty_iff]

lemma create_inv (numThreads callers : ℕ) :
    (create numThreads callers : ThreadPool τ ρ).Inv call := by
  have hworkers : ∀ w ∈ (create numThreads callers : ThreadPool τ ρ).workers, w = .checking :=
    fun w hw => List.eq_of_mem_replicate hw
  refine ⟨?_, rfl, ?_, by simp [create], by simp [create], fun h => ?_, fun h => ?_, fun h => ?_,
    fun h => ?_, by simp [create], by simp [create]⟩
  · exact (List.countP_eq_zero.mpr fun w hw => by simp [hworkers w hw, Worker.busy]).symm
  · simp [create, Worker.task?]
  · cases hworkers _ h
  · cases hworkers _ h
  · cases hworkers _ h
  · cases List.eq_of_mem_replicate h

lemma Inv.wake (h : p.Inv call) (hw : p.workers[i]? = some .waiting) :
    (p.setWorker i .checking).Inv call := by
  obtain ⟨before, after, hl, hset⟩ := split_part hw
  have hmem := fun v => mem_others .checking (v := v) hl
  have hsleeps : Worker.waiting ∈ p.workers := by rw [hl]; simp
  simp only [setWorker, hset]
  refine { h with
    active := ?_, begun := ?_, exits := fun hv => ?_, awake := fun _ => ?_, woken := fun hv => ?_,
    closed := fun hc => ?_ }
  · rw [h.active, hl]
    simp [Worker.busy]
  · have hbegun := h.begun
    rw [hl] at hbegun
    simpa [List.filterMap_cons, Worker.task?] using hbegun
  · exact h.exits ((hmem _ hv).resolve_left nofun)
  · have hle := h.awake hsleeps
    have hcount : (before ++ .checking :: after).countP Worker.awake + 0 =
        p.workers.countP Worker.awake + 1 :=
      countP_others Worker.awake hl
    exact hle.trans (by simp only; omega)
  · exact h.woken ((hmem _ hv).resolve_left nofun)
  · cases h.closed hc _ hsleeps

lemma Inv.start {task : τ} {tasks : List τ} (h : p.Inv call) (hw : p.workers[i]? = some .checking)
    (ht : p.tasks = task :: tasks) :
    ({ p with tasks := tasks, activeTasks := p.activeTasks + 1, started := p.started ++
      [task] }.setWorker i
      (.running task)).Inv call := by
  obtain ⟨before, after, hl, hset⟩ := split_part hw
  have hmem := fun v => mem_others (.running task) (v := v) hl
  have hbusy : (before ++ .running task :: after).countP Worker.busy + 0 =
      p.workers.countP Worker.busy + 1 :=
    countP_others Worker.busy hl
  have hawake : (before ++ .running task :: after).countP Worker.awake + 1 =
      p.workers.countP Worker.awake + 0 :=
    countP_others Worker.awake hl
  have hbegun := h.begun
  rw [hl] at hbegun
  simp only [setWorker, hset]
  refine { h with
    active := ?_, order := ?_, begun := ?_, exits := fun hv => ?_, awake := fun hv => ?_, woken :=
      fun hv => ?_,
    asleep := fun _ => ?_, closed := fun hc => ?_ }
  · rw [h.active]
    exact hbusy.symm
  · rw [h.order, ht]
    simp
  · refine .trans ?_ (hbegun.append_right [task])
    simp only [List.filterMap_append, List.filterMap_cons, Worker.task?, List.append_assoc]
    exact ((List.perm_append_singleton task _).symm.append_left _).append_left _
  · obtain ⟨hnone, -⟩ := h.exits ((hmem _ hv).resolve_left nofun)
    rw [hnone] at ht
    cases ht
  · have hle := h.awake ((hmem _ hv).resolve_left nofun)
    rw [ht, List.length_cons] at hle
    exact show tasks.length ≤ _ by simp only; omega
  · exact h.woken ((hmem _ hv).resolve_left nofun)
  · simp [completed]
  · have := h.closed hc .checking (by rw [hl]; simp)
    cases this

lemma Inv.sleep (h : p.Inv call) (hw : p.workers[i]? = some .checking) (ht : p.tasks = []) :
    (p.setWorker i (if p.stopFlag then .exited else .waiting)).Inv call := by
  obtain ⟨before, after, hl, hset⟩ := split_part hw
  have hopen : p.destructor ≠ .closed := fun hc => by cases h.closed hc .checking (by rw [hl]; simp)
  have hbegun := h.begun
  rw [hl] at hbegun
  by_cases hs : p.stopFlag = true
  · have hmem := fun v => mem_others .exited (v := v) hl
    simp only [setWorker, if_pos hs, hset]
    refine { h with
      active := ?_, begun := ?_, exits := fun _ => ⟨ht, hs⟩, awake := fun _ => ?_, woken :=
        fun hv => ?_,
      closed := fun hc => absurd hc hopen }
    · rw [h.active, hl]
      simp [Worker.busy]
    · simpa [List.filterMap_cons, Worker.task?] using hbegun
    · exact (congrArg List.length ht).le.trans (Nat.zero_le _)
    · exact h.woken ((hmem _ hv).resolve_left nofun)
  · have hmem := fun v => mem_others .waiting (v := v) hl
    simp only [setWorker, if_neg hs, hset]
    refine { h with
      active := ?_, begun := ?_, exits := fun hv => ?_, awake := fun _ => ?_, woken := fun _ => ?_,
      closed := fun hc => absurd hc hopen }
    · rw [h.active, hl]
      simp [Worker.busy]
    · simpa [List.filterMap_cons, Worker.task?] using hbegun
    · exact h.exits ((hmem _ hv).resolve_left nofun)
    · exact (congrArg List.length ht).le.trans (Nat.zero_le _)
    · by_contra hd
      exact hs (h.flag.mpr fun hidle => hd (Or.inl hidle))

lemma Inv.run {task : τ} (h : p.Inv call) (hw : p.workers[i]? = some (.running task)) :
    ({ p with results := p.results ++ [(task, call task)] }.setWorker i .leaving).Inv call := by
  obtain ⟨before, after, hl, hset⟩ := split_part hw
  have hmem := fun v => mem_others .leaving (v := v) hl
  have hbusy : (before ++ .leaving :: after).countP Worker.busy + 1 =
      p.workers.countP Worker.busy + 1 :=
    countP_others Worker.busy hl
  have hawake : (before ++ .leaving :: after).countP Worker.awake + 0 =
      p.workers.countP Worker.awake + 0 :=
    countP_others Worker.awake hl
  have hbegun := h.begun
  rw [hl] at hbegun
  simp only [setWorker, hset]
  refine { h with
    active := ?_, begun := ?_, result := fun r hr => ?_, exits := fun hv => ?_, awake :=
      fun hv => ?_,
    woken := fun hv => ?_, closed := fun hc => ?_ }
  · rw [h.active]
    exact (Nat.add_right_cancel hbusy).symm
  · refine .trans ?_ hbegun
    simp only [List.map_append, List.map_cons, List.map_nil, List.filterMap_append,
      List.filterMap_cons, Worker.task?, List.append_assoc]
    have hmiddle : (before.filterMap Worker.task? ++ task :: after.filterMap Worker.task?).Perm
        (task :: (before.filterMap Worker.task? ++ after.filterMap Worker.task?)) :=
          List.perm_middle
    exact hmiddle.symm.append_left _
  · rcases List.mem_append.mp hr with hr | hr
    · exact h.result r hr
    · rw [List.mem_singleton.mp hr]
  · exact h.exits ((hmem _ hv).resolve_left nofun)
  · have hle := h.awake ((hmem _ hv).resolve_left nofun)
    exact hle.trans (by simp only; omega)
  · exact h.woken ((hmem _ hv).resolve_left nofun)
  · have := h.closed hc (.running task) (by rw [hl]; simp)
    cases this

lemma Inv.leaveTask (h : p.Inv call) (hw : p.workers[i]? = some .leaving) :
    (p.leaveTask i).Inv call := by
  obtain ⟨before, after, hl, hset⟩ := split_part hw
  have hmem := fun v => mem_others .checking (v := v) hl
  have hbusy : (before ++ .checking :: after).countP Worker.busy + 1 =
      p.workers.countP Worker.busy + 0 :=
    countP_others Worker.busy hl
  have hawake : (before ++ .checking :: after).countP Worker.awake + 0 =
      p.workers.countP Worker.awake + 1 :=
    countP_others Worker.awake hl
  have hbegun := h.begun
  rw [hl] at hbegun
  have hleft : ∀ callers : List Caller,
      (Caller.waiting ∈ callers → ({ p with activeTasks := p.activeTasks - 1 }).completed = false) →
      (p.destructor ≠ .idle → p.notices = 0 ∧ ∀ c ∈ callers, c = .away) →
      ({ p with
        activeTasks := p.activeTasks - 1, workers := before ++ Worker.checking :: after,
        callers := callers }).Inv call := by
    intro callers hasleep hlast
    refine { h with
      active := ?_, begun := ?_, exits := fun hv => ?_, awake := fun hv => ?_, woken :=
        fun hv => ?_,
      asleep := hasleep, last := hlast, closed := fun hc => ?_ }
    · have := h.active
      simp only
      omega
    · simpa [List.filterMap_cons, Worker.task?] using hbegun
    · exact h.exits ((hmem _ hv).resolve_left nofun)
    · have hle := h.awake ((hmem _ hv).resolve_left nofun)
      exact hle.trans (by simp only; omega)
    · exact h.woken ((hmem _ hv).resolve_left nofun)
    · have := h.closed hc .leaving (by rw [hl]; simp)
      cases this
  simp only [ThreadPool.leaveTask, setWorker, hset]
  split_ifs with hdone
  · refine hleft _ (fun hc => ?_) fun hd => ?_
    · obtain ⟨c, -, hc⟩ := List.mem_map.mp hc
      cases c <;> cases hc
    · obtain ⟨hnone, haway⟩ := h.last hd
      refine ⟨hnone, fun c hc => ?_⟩
      obtain ⟨d, hd, rfl⟩ := List.mem_map.mp hc
      rw [haway d hd]
      rfl
  · exact hleft p.callers (fun _ => by simpa [completed] using hdone) h.last

lemma Inv.setCaller (h : p.Inv call) (hidle : p.destructor = .idle)
    (hc : c = .waiting → p.completed = false) :
    (p.setCaller k c).Inv call := by
  refine { h with asleep := fun hmem => ?_, last := fun hd => absurd hidle hd }
  rcases List.mem_or_eq_of_mem_set hmem with hmem | rfl
  · exact h.asleep hmem
  · exact hc rfl

lemma Inv.idle_of_caller (h : p.Inv call) (hc : p.callers[k]? = some c) (hne : c ≠ .away) :
    p.destructor = .idle := by
  by_contra hd
  exact hne ((h.last hd).2 c (List.mem_of_getElem? hc))

lemma Inv.notifyAll (h : p.Inv call) (hd : p.destructor = .stopping) :
    ({ p with destructor := .joining, workers := p.workers.map Worker.wake }).Inv call := by
  have hbusy : Worker.busy ∘ Worker.wake = (Worker.busy : Worker τ → Bool) := by
    funext w
    cases w <;> rfl
  have htask : Worker.task? ∘ Worker.wake = (Worker.task? : Worker τ → Option τ) := by
    funext w
    cases w <;> rfl
  have hwake : Worker.waiting ∉ p.workers.map Worker.wake := by
    intro hv
    obtain ⟨w, -, hw⟩ := List.mem_map.mp hv
    cases w <;> cases hw
  refine { h with
    active := ?_, begun := ?_, flag := ?_, exits := fun hv => ?_, awake :=
      fun hv => absurd hv hwake,
    woken := fun hv => absurd hv hwake, last := fun _ => ?_, closed := nofun }
  · rw [h.active, List.countP_map, hbusy]
  · rw [List.filterMap_map, htask]
    exact h.begun
  · exact iff_of_true (h.flag.mpr (by rw [hd]; nofun)) nofun
  · obtain ⟨w, hw, he⟩ := List.mem_map.mp hv
    cases w with
    | exited => exact h.exits hw
    | checking | waiting | running | leaving => cases he
  · exact h.last (by rw [hd]; nofun)

lemma Inv.notifyNobody {notices : ℕ} (h : p.Inv call) (hn : p.notices = notices + 1)
    (hnone : Worker.waiting ∉ p.workers) : ({ p with notices := notices }).Inv call := by
  refine { h with awake := fun hv => absurd hv hnone, last := fun hd => ?_ }
  rw [(h.last hd).1] at hn
  cases hn

lemma Inv.notifyOne {notices : ℕ} (h : p.Inv call) (hn : p.notices = notices + 1)
    (hw : p.workers[i]? = some .waiting) :
    ({ p with notices := notices }.setWorker i .checking).Inv call := by
  have hwake := h.wake hw
  obtain ⟨before, after, hl, hset⟩ := split_part hw
  have hawake : (before ++ .checking :: after).countP Worker.awake + 0 =
      p.workers.countP Worker.awake + 1 :=
    countP_others Worker.awake hl
  refine { hwake with awake := fun _ => ?_, last := fun hd => ?_ }
  · have hle := h.awake (by rw [hl]; simp)
    rw [hn] at hle
    simp only [setWorker, hset]
    omega
  · rw [(h.last hd).1] at hn
    cases hn

inductive Does (call : τ → ρ) (p : ThreadPool τ ρ) : Action τ → ThreadPool τ ρ → Prop
  | enqueue (task : τ) : p.destructor = .idle → Does call p (.enqueue task)
      { p with tasks := p.tasks ++ [task], notices := p.notices + 1, enqueued := p.enqueued ++
        [task] }
  | waitAll {k : ℕ} :
      p.destructor = .idle → p.callers[k]? = some .away →
        Does call p (.waitAll k) (p.setCaller k .checking)
  | destroy : p.destructor = .idle → p.notices = 0 → (∀ c ∈ p.callers, c = .away) →
      Does call p .destroy { p with stopFlag := true, destructor := .stopping }
  | wakeWorker {i : ℕ} : p.workers[i]? = some .waiting →
      Does call p (.wakeWorker i) (p.setWorker i .checking)
  | wakeCaller {k : ℕ} : p.callers[k]? = some .waiting → Does call p
      (.wakeCaller k) (p.setCaller k .checking)
  | notifyOne {i notices : ℕ} : p.notices = notices + 1 → p.workers[i]? = some .waiting →
      Does call p (.notifyOne i) ({ p with notices := notices }.setWorker i .checking)
  | notifyNobody {notices : ℕ} : p.notices = notices + 1 → Worker.waiting ∉ p.workers →
      Does call p .notifyNobody { p with notices := notices }
  | start {i : ℕ} {task : τ} {tasks : List τ} : p.workers[i]? = some .checking → p.tasks = task ::
      tasks → Does call p (.check i)
        ({ p with tasks := tasks, activeTasks := p.activeTasks + 1, started := p.started ++
          [task] }.setWorker i
          (.running task))
  | sleep {i : ℕ} : p.workers[i]? = some .checking → p.tasks = [] →
      Does call p (.check i) (p.setWorker i (if p.stopFlag then .exited else .waiting))
  | run {i : ℕ} {task : τ} : p.workers[i]? = some (.running task) →
      Does call p (.run i) ({ p with results := p.results ++ [(task, call task)] }.setWorker i
        .leaving)
  | leave {i : ℕ} : p.workers[i]? = some .leaving → Does call p (.leave i) (p.leaveTask i)
  | look {k : ℕ} : p.callers[k]? = some .checking →
      Does call p (.look k) (p.setCaller k (if p.completed then .away else .waiting))
  | notifyAll : p.destructor = .stopping →
      Does call p .notifyAll { p with destructor := .joining, workers := p.workers.map Worker.wake }
  | join :
      p.destructor = .joining → (∀ w ∈ p.workers, w = .exited) → Does call p .join
      { p with destructor := .closed }

lemma any_waiting : (p.workers.any fun w =>
    w matches .waiting) = true ↔ Worker.waiting ∈ p.workers := by
  rw [List.any_eq_true]
  refine ⟨fun ⟨w, hw, he⟩ => ?_, fun hw => ⟨_, hw, rfl⟩⟩
  cases w with
  | waiting => exact hw
  | checking | exited | running | leaving => cases he

lemma all_exited :
    (p.workers.all fun w => w matches .exited) = true ↔ ∀ w ∈ p.workers, w = .exited := by
  rw [List.all_eq_true]
  refine forall₂_congr fun w _ => ?_
  cases w <;> simp

lemma step_iff : p.step call a = some q ↔ Does call p a q := by
  constructor
  · intro hs
    cases a with
    | enqueue task =>
      simp only [step] at hs
      split_ifs at hs with hidle
      obtain rfl := Option.some.inj hs
      exact .enqueue task hidle
    | waitAll k =>
      simp only [step] at hs
      split_ifs at hs with hidle
      obtain rfl := Option.some.inj hs
      exact .waitAll hidle.1 hidle.2
    | destroy =>
      simp only [step] at hs
      split_ifs at hs with hidle
      obtain rfl := Option.some.inj hs
      exact .destroy hidle.1 hidle.2.1 hidle.2.2
    | wakeWorker i =>
      simp only [step] at hs
      split at hs
      · obtain rfl := Option.some.inj hs
        exact .wakeWorker ‹_›
      · cases hs
    | wakeCaller k =>
      simp only [step] at hs
      split at hs
      · obtain rfl := Option.some.inj hs
        exact .wakeCaller ‹_›
      · cases hs
    | notifyOne i =>
      simp only [step] at hs
      split at hs
      · rename_i hn hw
        obtain rfl := Option.some.inj hs
        exact .notifyOne hn hw
      · cases hs
    | notifyNobody =>
      simp only [step] at hs
      split at hs
      · rename_i hn
        split_ifs at hs with hnone
        obtain rfl := Option.some.inj hs
        exact .notifyNobody hn (mt any_waiting.mpr hnone)
      · cases hs
    | check i =>
      simp only [step] at hs
      split at hs
      · rename_i hw
        obtain rfl := Option.some.inj hs
        simp only [takeTask]
        split
        · exact .start hw ‹_›
        · exact .sleep hw ‹_›
      · cases hs
    | run i =>
      simp only [step] at hs
      split at hs
      · obtain rfl := Option.some.inj hs
        exact .run ‹_›
      · cases hs
    | leave i =>
      simp only [step] at hs
      split at hs
      · obtain rfl := Option.some.inj hs
        exact .leave ‹_›
      · cases hs
    | look k =>
      simp only [step] at hs
      split at hs
      · obtain rfl := Option.some.inj hs
        exact .look ‹_›
      · cases hs
    | notifyAll =>
      simp only [step] at hs
      split at hs
      · obtain rfl := Option.some.inj hs
        exact .notifyAll ‹_›
      · cases hs
    | join =>
      simp only [step] at hs
      split_ifs at hs with hjoin
      obtain rfl := Option.some.inj hs
      exact .join hjoin.1 (all_exited.mp hjoin.2)
  · intro hd
    cases hd with
    | enqueue task hidle => simp only [step, if_pos hidle]
    | waitAll hidle hc => simp only [step, if_pos (And.intro hidle hc)]
    | destroy hidle hn haway => simp only [step, if_pos (And.intro hidle (And.intro hn haway))]
    | notifyOne hn hw => simp only [step, hn, hw]
    | notifyNobody hn hnone => simp only [step, hn, if_neg (mt any_waiting.mp hnone)]
    | start hw ht | sleep hw ht => simp only [step, hw, takeTask, ht]
    | join hd hall => simp only [step, if_pos (And.intro hd (all_exited.mpr hall))]
    | wakeWorker h | wakeCaller h | run h | leave h | look h | notifyAll h => simp only [step, h]

theorem Inv.step (h : p.Inv call) (hs : p.step call a = some q) : q.Inv call := by
  cases step_iff.mp hs with
  | enqueue task hidle =>
    refine { h with
      order := ?_, exits := fun hv => ?_, awake := fun hv => ?_, asleep := fun _ => ?_,
      last := fun hd => absurd hidle hd }
    · rw [h.order, List.append_assoc]
    · exact absurd hidle (h.flag.mp (h.exits hv).2)
    · have hle := h.awake hv
      simp only [List.length_append, List.length_singleton]
      omega
    · simp [completed]
  | waitAll hidle hc => exact h.setCaller hidle nofun
  | destroy hidle hn haway =>
    exact { h with
      flag := iff_of_true rfl nofun, exits := fun hv => ⟨(h.exits hv).1, rfl⟩, woken := fun _ =>
        Or.inr rfl,
      last := fun _ => ⟨hn, haway⟩, closed := nofun }
  | wakeWorker hw => exact h.wake hw
  | wakeCaller hc => exact h.setCaller (h.idle_of_caller hc nofun) nofun
  | notifyOne hn hw => exact h.notifyOne hn hw
  | notifyNobody hn hnone => exact h.notifyNobody hn hnone
  | start hw ht => exact h.start hw ht
  | sleep hw ht => exact h.sleep hw ht
  | run hw => exact h.run hw
  | leave hw => exact h.leaveTask hw
  | look hc =>
    refine h.setCaller (h.idle_of_caller hc nofun) fun hwaits => ?_
    split_ifs at hwaits with hdone
    exact Bool.eq_false_iff.mpr hdone
  | notifyAll hd => exact h.notifyAll hd
  | join hd hexited =>
    refine { h with
      flag := iff_of_true (h.flag.mpr (by rw [hd]; nofun)) nofun, woken := fun hv => ?_,
      last := fun _ => h.last (by rw [hd]; nofun), closed := fun _ => hexited }
    cases hexited _ hv

end Steps

section Runs

variable {call : τ → ρ} {p q : ThreadPool τ ρ} {a : Action τ} {numThreads callers k : ℕ}

def Reaches (call : τ → ρ) (numThreads callers : ℕ) (p : ThreadPool τ ρ) : Prop :=
  Relation.ReflTransGen (fun p q => ∃ a, p.step call a = some q) (create numThreads callers) p

def Works (call : τ → ρ)
    (p q : ThreadPool τ ρ) : Prop := ∃ a : Action τ, a.own = true ∧ p.step call a = some q

lemma leaveTask_frame (i : ℕ) (p : ThreadPool τ ρ) :
    (p.leaveTask i).tasks = p.tasks ∧ (p.leaveTask i).workers = p.workers.set i .checking ∧
      (p.leaveTask i).callers.length = p.callers.length ∧ (p.leaveTask i).notices = p.notices ∧
      (p.leaveTask i).destructor = p.destructor := by
  simp only [leaveTask]
  split_ifs <;> simp [setWorker]

lemma step_lengths (hs : p.step call a = some q) :
    q.workers.length = p.workers.length ∧ q.callers.length = p.callers.length := by
  cases step_iff.mp hs with
  | leave hw =>
    obtain ⟨-, hworkers, hcallers, -⟩ := leaveTask_frame _ p
    exact ⟨by rw [hworkers, List.length_set], hcallers⟩
  | notifyAll hd => simp
  | waitAll | wakeCaller | look => simp [setCaller]
  | wakeWorker | notifyOne | start | sleep | run => simp [setWorker]
  | enqueue | destroy | notifyNobody | join => exact ⟨rfl, rfl⟩

lemma run_inv (h : Reaches call numThreads callers p) :
    p.Inv call ∧ p.workers.length = numThreads := by
  induction h with
  | refl => exact ⟨create_inv numThreads callers, List.length_replicate⟩
  | tail _ hstep ih =>
    obtain ⟨a, ha⟩ := hstep
    exact ⟨ih.1.step ha, (step_lengths ha).1.trans ih.2⟩

def run (call : τ → ρ) : List (Action τ) → ThreadPool τ ρ → Option (ThreadPool τ ρ)
  | [], p => some p
  | a :: as, p => (p.step call a).bind (run call as)

lemma reaches_append {as : List (Action τ)} (hp : Reaches call numThreads callers p)
    (h : run call as p = some q) :
    Reaches call numThreads callers q := by
  induction as generalizing p with
  | nil =>
    obtain rfl := Option.some.inj h
    exact hp
  | cons a as ih =>
    obtain ⟨u, hu, hrest⟩ := Option.bind_eq_some_iff.mp h
    exact ih (.tail hp ⟨a, hu⟩) hrest

lemma reaches_run (call : τ → ρ) (numThreads callers : ℕ) (as : List (Action τ))
    (h : (run call as (create numThreads callers)).isSome) :
    ∃ p, run call as (create numThreads callers) = some p ∧ Reaches call numThreads callers p := by
  obtain ⟨p, hp⟩ := Option.isSome_iff_exists.mp h
  exact ⟨p, hp, reaches_append .refl hp⟩

/-- Two workers and a thread in `waitAll`: the first task is taken at once, the second wakes a
worker. -/
def twoTasks : List (Action ℕ) :=
  [.enqueue 5, .notifyNobody, .check 0, .check 1, .enqueue 7, .waitAll 0, .look 0, .notifyOne 1]

structure Settled (p : ThreadPool τ ρ) : Prop where
  tasks : p.tasks = []
  notices : p.notices = 0
  workers : ∀ w ∈ p.workers, w = .waiting ∨ w = .exited
  callers : ∀ c ∈ p.callers, c = .away
  destructor : p.destructor = .idle ∨ p.destructor = .closed

def Worker.weight (callers : ℕ) : Worker τ → ℕ
  | .waiting | .exited => 0
  | .checking => 1
  | .leaving => callers + 2
  | .running _ => callers + 3

def Caller.weight : Caller → ℕ
  | .checking => 1
  | .away | .waiting => 0

def Destructor.weight (workers : ℕ) : Destructor → ℕ
  | .idle | .closed => 0
  | .joining => 1
  | .stopping => workers + 2

def workLeft (p : ThreadPool τ ρ) : ℕ :=
  p.tasks.length * (p.callers.length + 3) + (p.workers.map (Worker.weight p.callers.length)).sum +
    (p.callers.map Caller.weight).sum +
      2 * p.notices + Destructor.weight p.workers.length p.destructor

lemma wake_callers (l : List Caller) :
    ((l.map Caller.wake).map Caller.weight).sum ≤ (l.map Caller.weight).sum + l.length := by
  induction l with
  | nil => simp
  | cons c l ih =>
    cases c <;>
      simp only [List.map_cons, List.sum_cons, List.length_cons, Caller.wake, Caller.weight] <;>
        omega

lemma wake_workers (m : ℕ) (l : List (Worker τ)) :
    ((l.map Worker.wake).map (Worker.weight m)).sum ≤ (l.map (Worker.weight m)).sum + l.length := by
  induction l with
  | nil => simp
  | cons w l ih =>
    cases w <;>
      simp only [List.map_cons, List.sum_cons, List.length_cons, Worker.wake, Worker.weight] <;>
        omega

lemma leave_callers (p : ThreadPool τ ρ) (i : ℕ) :
    ((p.leaveTask i).callers.map Caller.weight).sum ≤ (p.callers.map
      Caller.weight).sum + p.callers.length := by
  simp only [leaveTask]
  split_ifs
  · exact wake_callers p.callers
  · exact Nat.le_add_right _ _

lemma Works.lowers (hw : Works call p q) : q.workLeft < p.workLeft := by
  obtain ⟨a, hown, hs⟩ := hw
  cases step_iff.mp hs with
  | enqueue | waitAll | destroy | wakeWorker | wakeCaller => cases hown
  | @notifyOne i notices hn hw =>
    have hsum := sum_set_part (Worker.weight p.callers.length) hw .checking
    simp only [Worker.weight] at hsum
    simp only [workLeft, setWorker, hn, List.length_set]
    omega
  | notifyNobody hn hnone =>
    simp only [workLeft, hn]
    omega
  | @start i task tasks hw ht =>
    have hsum := sum_set_part (Worker.weight p.callers.length) hw (.running task)
    simp only [Worker.weight] at hsum
    simp only [workLeft, setWorker, ht, List.length_set, List.length_cons, Nat.add_mul]
    omega
  | @sleep i hw ht =>
    have hsum := sum_set_part (Worker.weight p.callers.length)
      hw (if p.stopFlag then .exited else .waiting)
    have hzero : Worker.weight p.callers.length (if p.stopFlag then .exited else .waiting :
        Worker τ) = 0 := by
      split_ifs <;> rfl
    rw [hzero] at hsum
    simp only [Worker.weight] at hsum
    simp only [workLeft, setWorker, List.length_set]
    omega
  | @run i task hw =>
    have hsum := sum_set_part (Worker.weight p.callers.length) hw .leaving
    simp only [Worker.weight] at hsum
    simp only [workLeft, setWorker, List.length_set]
    omega
  | @leave i hw =>
    obtain ⟨htasks, hworkers, hcallers, hnotices, hdestructor⟩ := leaveTask_frame i p
    have hsum := sum_set_part (Worker.weight p.callers.length) hw .checking
    have hwoken := leave_callers p i
    simp only [Worker.weight] at hsum
    simp only [workLeft, htasks, hworkers, hcallers, hnotices, hdestructor, List.length_set]
    omega
  | @look k hc =>
    have hsum := sum_set_part Caller.weight hc (if p.completed then .away else .waiting)
    have hzero : Caller.weight (if p.completed then .away else .waiting) = 0 := by split_ifs <;> rfl
    rw [hzero] at hsum
    simp only [Caller.weight] at hsum
    simp only [workLeft, setCaller, List.length_set]
    omega
  | notifyAll hd =>
    have hwoken := wake_workers p.callers.length p.workers
    simp only [workLeft, hd, Destructor.weight]
    omega
  | join hd hall =>
    simp only [workLeft, hd, Destructor.weight]
    omega

lemma works_of_worker {w : Worker τ} (hw : w ∈ p.workers) (hbusy : w ≠ .waiting ∧ w ≠ .exited) :
    ∃ q, Works call p q := by
  obtain ⟨i, hi⟩ := List.mem_iff_getElem?.mp hw
  cases w with
  | waiting => exact absurd rfl hbusy.1
  | exited => exact absurd rfl hbusy.2
  | checking =>
    cases ht : p.tasks with
    | nil => exact ⟨_, .check i, rfl, step_iff.mpr (.sleep hi ht)⟩
    | cons task tasks => exact ⟨_, .check i, rfl, step_iff.mpr (.start hi ht)⟩
  | running task => exact ⟨_, .run i, rfl, step_iff.mpr (.run hi)⟩
  | leaving => exact ⟨_, .leave i, rfl, step_iff.mpr (.leave hi)⟩

lemma countP_asleep {l : List (Worker τ)} {f : Worker τ → Bool} (hasleep : ∀ w ∈ l, w =
    .waiting ∨ w = .exited)
    (hf : f .waiting = false) (hf' : f .exited = false) : l.countP f = 0 := by
  refine List.countP_eq_zero.mpr fun w hw => ?_
  rcases hasleep w hw with rfl | rfl
  · simp [hf]
  · simp [hf']

lemma Inv.tasks_asleep (h : p.Inv call) (hne : p.workers ≠ []) (hasleep : ∀ w ∈ p.workers,
    w = .waiting ∨ w = .exited) (hn : p.notices = 0) : p.tasks = [] := by
  obtain ⟨w, hw⟩ := List.exists_mem_of_ne_nil _ hne
  rcases hasleep w hw with rfl | rfl
  · have hle := h.awake hw
    rw [hn, countP_asleep hasleep rfl rfl] at hle
    exact List.eq_nil_of_length_eq_zero (Nat.le_zero.mp hle)
  · exact (h.exits hw).1

lemma Inv.works (h : p.Inv call) (hne : p.workers ≠
    []) (hp : ¬ p.Settled) : ∃ q, Works call p q := by
  by_cases hworker : ∃ w ∈ p.workers, w ≠ .waiting ∧ w ≠ .exited
  · obtain ⟨w, hw, hbusy⟩ := hworker
    exact works_of_worker hw hbusy
  have hasleep : ∀ w ∈ p.workers, w = .waiting ∨ w = .exited := by
    intro w hw
    by_contra hno
    exact hworker ⟨w, hw, not_or.mp hno⟩
  cases hn : p.notices with
  | succ notices =>
    by_cases hwaits : Worker.waiting ∈ p.workers
    · obtain ⟨i, hi⟩ := List.mem_iff_getElem?.mp hwaits
      exact ⟨_, .notifyOne i, rfl, step_iff.mpr (.notifyOne hn hi)⟩
    · exact ⟨_, .notifyNobody, rfl, step_iff.mpr (.notifyNobody hn hwaits)⟩
  | zero =>
    have htasks := h.tasks_asleep hne hasleep hn
    have hdone : p.completed = true := completed_iff.mpr ⟨htasks, h.active.trans
      (countP_asleep hasleep rfl rfl)⟩
    by_cases hcaller : Caller.checking ∈ p.callers
    · obtain ⟨k, hk⟩ := List.mem_iff_getElem?.mp hcaller
      exact ⟨_, .look k, rfl, step_iff.mpr (.look hk)⟩
    have haway : ∀ c ∈ p.callers, c = .away := by
      intro c hc
      cases c with
      | away => rfl
      | checking => exact absurd hc hcaller
      | waiting =>
        rw [h.asleep hc] at hdone
        cases hdone
    cases hd : p.destructor with
    | stopping => exact ⟨_, .notifyAll, rfl, step_iff.mpr (.notifyAll hd)⟩
    | joining =>
      refine ⟨_, .join, rfl, step_iff.mpr (.join hd fun w hw => (hasleep w hw).resolve_left ?_)⟩
      rintro rfl
      have := h.woken hw
      rw [hd] at this
      simp at this
    | idle => exact absurd ⟨htasks, hn, hasleep, haway, Or.inl hd⟩ hp
    | closed => exact absurd ⟨htasks, hn, hasleep, haway, Or.inr hd⟩ hp

lemma works_progress (hn : 0 < numThreads) : Progress (Works call)
    (fun p => p.Inv call ∧ p.workers.length = numThreads) Settled workLeft where
  keeps := fun ⟨h, hlen⟩ ⟨_, _, hs⟩ => ⟨h.step hs, (step_lengths hs).1.trans hlen⟩
  lowers := fun _ => Works.lowers
  goes := fun ⟨h, hlen⟩ hp => h.works (List.ne_nil_of_length_pos (hlen.symm ▸ hn)) hp

/-- Each task starts once, in the order of `enqueue`; it is then with one worker until its future
has what it returned. -/
theorem run_once (h : Reaches call numThreads callers p) :
    p.started <+: p.enqueued ∧
    (p.results.map Prod.fst ++ p.workers.filterMap Worker.task?).Perm p.started ∧
      (∀ r ∈ p.results, r.2 = call r.1) ∧ p.activeTasks ≤ numThreads := by
  obtain ⟨hinv, hlen⟩ := run_inv h
  refine ⟨⟨p.tasks, hinv.order.symm⟩, hinv.begun, hinv.result, ?_⟩
  rw [hinv.active, ← hlen]
  exact List.countP_le_length

theorem twoTasks_once : ∃ p : ThreadPool ℕ ℕ, run (2 * ·) twoTasks (create 2 1) = some p ∧
    p.started <+: p.enqueued ∧ (p.results.map Prod.fst ++
      p.workers.filterMap Worker.task?).Perm p.started ∧
      (∀ r ∈ p.results, r.2 = 2 * r.1) ∧ p.activeTasks ≤ 2 := by
  obtain ⟨p, hp, hreach⟩ := reaches_run (2 * ·) 2 1 twoTasks (by decide)
  exact ⟨p, hp, run_once hreach⟩

/-- No more tasks are queued than wake-ups are under way as long as a worker sleeps, and a thread
sleeps in `waitAll` only while a task is queued or a worker is busy. -/
theorem no_lost_wakeup (h : Reaches call numThreads callers p) :
    (Worker.waiting ∈ p.workers → p.tasks.length ≤ p.notices + p.workers.countP Worker.awake) ∧
      (Caller.waiting ∈ p.callers → p.tasks ≠ [] ∨ ∃ w ∈ p.workers, w.busy = true) := by
  obtain ⟨hinv, -⟩ := run_inv h
  refine ⟨hinv.awake, fun hc => ?_⟩
  by_contra hno
  obtain ⟨htasks, hbusy⟩ := not_or.mp hno
  have hzero : p.workers.countP Worker.busy = 0 := List.countP_eq_zero.mpr
    fun w hw hb => hbusy ⟨w, hw, hb⟩
  have hdone : p.completed = true := completed_iff.mpr ⟨not_not.mp htasks, hinv.active.trans hzero⟩
  rw [hinv.asleep hc] at hdone
  cases hdone

theorem twoTasks_no_lost_wakeup : ∃ p : ThreadPool ℕ ℕ, run
    (2 * ·) (twoTasks.take 7) (create 2 1) = some p ∧
    (Worker.waiting ∈ p.workers → p.tasks.length ≤ p.notices + p.workers.countP Worker.awake) ∧
      (Caller.waiting ∈ p.callers → p.tasks ≠ [] ∨ ∃ w ∈ p.workers, w.busy = true) := by
  obtain ⟨p, hp, hreach⟩ := reaches_run (2 * ·) 2 1 (twoTasks.take 7) (by decide)
  exact ⟨p, hp, no_lost_wakeup hreach⟩

lemma Inv.delivered
    (h : p.Inv call) (ht : p.tasks = []) (hidle : p.workers.countP Worker.busy = 0) :
    (p.results.map Prod.fst).Perm p.enqueued := by
  have hnone : p.workers.filterMap Worker.task? = [] := by
    refine List.filterMap_eq_nil_iff.mpr fun w hw => ?_
    have hb := List.countP_eq_zero.mp hidle w hw
    cases w with
    | running task => exact absurd rfl hb
    | checking | waiting | leaving | exited => rfl
  have hbegun := h.begun
  rw [hnone, List.append_nil] at hbegun
  rw [h.order, ht, List.append_nil]
  exact hbegun

/-- `waitAll` returns only when every task that was enqueued has its result. -/
theorem waitAll_returns (h : Reaches call numThreads callers p)
    (hs : p.step call (.look k) = some q)
    (hq : q.callers[k]? = some .away) : (p.results.map Prod.fst).Perm p.enqueued := by
  obtain ⟨hinv, -⟩ := run_inv h
  cases step_iff.mp hs with
  | look hc =>
    obtain ⟨hk, -⟩ := List.getElem?_eq_some_iff.mp hc
    simp only [setCaller, List.getElem?_set_self hk, Option.some.injEq] at hq
    split_ifs at hq with hdone
    obtain ⟨htasks, hactive⟩ := completed_iff.mp hdone
    exact hinv.delivered htasks (hinv.active.symm.trans hactive)

theorem twoTasks_waitAll : ∃ p q : ThreadPool ℕ ℕ,
    run (2 * ·) (twoTasks ++ [.check 1, .run 0, .leave 0, .run 1, .leave 1]) (create 2 1) = some p ∧
      p.step (2 * ·) (.look 0) = some q ∧ (p.results.map Prod.fst).Perm p.enqueued := by
  have hsome : ((run (2 * ·) (twoTasks ++ [.check 1, .run 0, .leave 0,
      .run 1, .leave 1]) (create 2 1)).bind fun p =>
      (p.step (2 * ·) (.look 0)).map fun q : ThreadPool ℕ ℕ =>
        q.callers[0]?) = some (some .away) := by decide
  obtain ⟨p, hp, hlook⟩ := Option.bind_eq_some_iff.mp hsome
  obtain ⟨q, hq, haway⟩ := Option.map_eq_some_iff.mp hlook
  exact ⟨p, q, hp, hq, waitAll_returns (reaches_append .refl hp) hq haway⟩

lemma Works.keeps (hw : Works call p q) : q.enqueued = p.enqueued ∧ (q.destructor =
    .idle ↔ p.destructor = .idle) := by
  obtain ⟨a, hown, hs⟩ := hw
  cases step_iff.mp hs with
  | enqueue | waitAll | destroy | wakeWorker | wakeCaller => cases hown
  | @leave i hw =>
    refine ⟨?_, by rw [(leaveTask_frame i p).2.2.2.2]⟩
    simp only [leaveTask]
    split_ifs <;> rfl
  | notifyAll hd | join hd => exact ⟨rfl, iff_of_false nofun (by rw [hd]; nofun)⟩
  | notifyOne | notifyNobody | start | sleep | run | look => exact ⟨rfl, Iff.rfl⟩

lemma works_keep {q : ThreadPool τ ρ} {k : ℕ} (h : Progress.Chain (Works call) k p q) :
    q.enqueued = p.enqueued ∧ (q.destructor = .idle ↔ p.destructor = .idle) := by
  induction h with
  | nil => exact ⟨rfl, Iff.rfl⟩
  | snoc _ hstep ih =>
    obtain ⟨henq, hidle⟩ := hstep.keeps
    exact ⟨henq.trans ih.1, hidle.trans ih.2⟩

/-- What the pool owes: every task has its result, no thread is left in `waitAll`, and a pool that
was destroyed has joined its workers. -/
structure Delivered (call : τ → ρ) (p q : ThreadPool τ ρ) : Prop where
  enqueued : q.enqueued = p.enqueued
  results : (q.results.map Prod.fst).Perm p.enqueued
  result : ∀ r ∈ q.results, r.2 = call r.1
  callers : ∀ c ∈ q.callers, c = .away
  joined : p.destructor ≠ .idle → q.destructor = .closed ∧ ∀ w ∈ q.workers, w = .exited

/-- Left to itself, in whatever order its threads run, a pool with a worker comes to rest, and then
it has delivered. -/
theorem settles (hn : 0 < numThreads) (h : Reaches call numThreads callers p) :
    (∃ q, Relation.ReflTransGen (Works call) p q ∧ ∀ r, ¬ Works call q r) ∧
      ∀ k q, Progress.Chain (Works call) k p q → k ≤ p.workLeft ∧
        ((∀ r, ¬ Works call q r) → Delivered call p q) := by
  have hp := run_inv h
  obtain ⟨hends, hruns⟩ := (works_progress hn).ends hp
  refine ⟨hends, fun k q hq => ⟨(hruns k q hq).1, fun hstuck => ?_⟩⟩
  have hsettled := (hruns k q hq).2 hstuck
  obtain ⟨⟨hinv, -⟩, -⟩ := (works_progress hn).bounded hp hq
  have hkeeps := works_keep hq
  have hidle : q.workers.countP Worker.busy = 0 := countP_asleep hsettled.workers rfl rfl
  refine ⟨hkeeps.1, hkeeps.1 ▸ hinv.delivered hsettled.tasks hidle, hinv.result, hsettled.callers,
    fun hd => ?_⟩
  have hclosed := hsettled.destructor.resolve_left fun hq => hd (hkeeps.2.mp hq)
  exact ⟨hclosed, hinv.closed hclosed⟩

theorem twoTasks_settles : ∃ p : ThreadPool ℕ ℕ, run (2 * ·) twoTasks (create 2 1) = some p ∧
    (∃ q, Relation.ReflTransGen (Works (2 * ·)) p q ∧ ∀ r, ¬ Works (2 * ·) q r) ∧
      ∀ k q, Progress.Chain (Works (2 * ·)) k p q →
        k ≤ p.workLeft ∧ ((∀ r, ¬ Works (2 * ·) q r) → Delivered (2 * ·) p q) := by
  obtain ⟨p, hp, hreach⟩ := reaches_run (2 * ·) 2 1 twoTasks (by decide)
  exact ⟨p, hp, settles (by decide) hreach⟩

end Runs

end ThreadPool

end Zest
