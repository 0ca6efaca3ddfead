import Mathlib.Logic.Function.Basic
import Mathlib.Data.List.Basic

/-! Computations that record every state they pass through, and triples with a
condition on those states: the states a crash can interrupt the computation in. -/

namespace Foundations

structure Outcome (σ α : Type) where
  val : α
  final : σ
  visited : List σ

def Traced (σ α : Type) := σ → Outcome σ α

namespace Traced

variable {σ τ α β : Type}

def get : Traced σ σ := fun s => ⟨s, s, []⟩

def step (f : σ → σ) : Traced σ Unit := fun s => ⟨(), f s, [f s]⟩

instance : Monad (Traced σ) where
  pure a := fun s => ⟨a, s, []⟩
  bind x f := fun s =>
    let r := x s
    let q := f r.val r.final
    ⟨q.val, q.final, r.visited ++ q.visited⟩

def zoom (view : σ → τ) (put : τ → σ → σ) (x : Traced τ α) : Traced σ α := fun s =>
  let r := x (view s)
  ⟨r.val, put r.final s, r.visited.map (put · s)⟩

def forEach (f : α → Traced σ Unit) : List α → Traced σ Unit
  | [] => pure ()
  | a :: as => do
    f a
    forEach f as

@[simp] lemma pure_run (a : α) (s : σ) : (pure a : Traced σ α) s = ⟨a, s, []⟩ := rfl

@[simp] lemma bind_val (x : Traced σ α) (f : α → Traced σ β) (s : σ) :
    ((x >>= f) s).val = (f (x s).val (x s).final).val := rfl

@[simp] lemma bind_final (x : Traced σ α) (f : α → Traced σ β) (s : σ) :
    ((x >>= f) s).final = (f (x s).val (x s).final).final := rfl

@[simp] lemma bind_visited (x : Traced σ α) (f : α → Traced σ β) (s : σ) :
    ((x >>= f) s).visited = (x s).visited ++ (f (x s).val (x s).final).visited := rfl

@[simp] lemma get_run (s : σ) : (get : Traced σ σ) s = ⟨s, s, []⟩ := rfl

lemma get_bind (f : σ → Traced σ α) (s : σ) : (get >>= f) s = f s s := rfl

@[simp] lemma step_run (f : σ → σ) (s : σ) : step f s = ⟨(), f s, [f s]⟩ := rfl

@[simp] lemma zoom_val (view : σ → τ) (put : τ → σ → σ) (x : Traced τ α) (s : σ) :
    (zoom view put x s).val = (x (view s)).val := rfl

@[simp] lemma zoom_final (view : σ → τ) (put : τ → σ → σ) (x : Traced τ α) (s : σ) :
    (zoom view put x s).final = put (x (view s)).final s := rfl

@[simp] lemma zoom_visited (view : σ → τ) (put : τ → σ → σ) (x : Traced τ α) (s : σ) :
    (zoom view put x s).visited = (x (view s)).visited.map (put · s) := rfl

lemma bind_eq {x : Traced σ α} {f : α → Traced σ β} {s t u : σ} {a : α} {b : β} {v w : List σ}
    (hx : x s = ⟨a, t, v⟩) (hf : f a t = ⟨b, u, w⟩) : (x >>= f) s = ⟨b, u, v ++ w⟩ := by
  change Outcome.mk _ _ _ = _
  rw [hx, hf]

@[simp] lemma ite_run (c : Prop) [Decidable c] (x y : Traced σ α) (s : σ) :
    (if c then x else y) s = if c then x s else y s := by
  split_ifs <;> rfl

lemma forEach_step_final (g : α → σ → σ) (as : List α) (s : σ) :
    (forEach (fun a => step (g a)) as s).final = as.foldl (fun s a => g a s) s := by
  induction as generalizing s with
  | nil => rfl
  | cons a as ih => exact ih (g a s)

lemma forEach_step_visited (g : α → σ → σ) (as : List α) (s t : σ)
    (ht : t ∈ (forEach (fun a => step (g a)) as s).visited) :
    ∃ m, t = (as.take m).foldl (fun s a => g a s) s := by
  induction as generalizing s with
  | nil => simp [forEach] at ht
  | cons a as ih =>
    rcases List.mem_append.mp ht with ht | ht
    · exact ⟨1, by simpa using ht⟩
    · obtain ⟨m, hm⟩ := ih (g a s) ht
      exact ⟨m + 1, hm⟩

/-- The last state of `x` is one it passed through, or the one it started in. -/
def Tracked (x : Traced σ α) : Prop := ∀ s, (x s).final ∈ s :: (x s).visited

namespace Tracked

lemma pure (a : α) : Tracked (Pure.pure a : Traced σ α) := fun s => by simp

lemma get : Tracked (Traced.get : Traced σ σ) := fun s => by simp

lemma step (f : σ → σ) : Tracked (Traced.step f) := fun s => by simp

lemma bind {x : Traced σ α} {f : α → Traced σ β} (hx : Tracked x) (hf : ∀ a, Tracked (f a)) :
    Tracked (x >>= f) := by
  intro s
  have h := hf (x s).val (x s).final
  simp only [bind_final, bind_visited, List.mem_cons, List.mem_append] at h ⊢
  rcases h with h | h
  · rw [h]
    rcases List.mem_cons.mp (hx s) with h' | h'
    · exact Or.inl h'
    · exact Or.inr (Or.inl h')
  · exact Or.inr (Or.inr h)

lemma zoom {view : σ → τ} {put : τ → σ → σ} (hl : ∀ s, put (view s) s = s) {x : Traced τ α}
    (hx : Tracked x) :
    Tracked (Traced.zoom view put x) := by
  intro s
  rcases List.mem_cons.mp (hx (view s)) with h | h
  · simp [h, hl]
  · exact List.mem_cons_of_mem _ (List.mem_map_of_mem h)

lemma ite {c : Prop} [Decidable c] {x y : Traced σ α} (hx : Tracked x) (hy : Tracked y) :
    Tracked (if c then x else y) := by
  split_ifs
  · exact hx
  · exact hy

lemma forEach {f : α → Traced σ Unit} (hf : ∀ a, Tracked (f a)) (as : List α) :
    Tracked (Traced.forEach f as) := by
  induction as with
  | nil => exact pure ()
  | cons a as ih => exact bind (hf a) fun _ => ih

end Tracked

def Within (P : σ → Prop) (x : Traced σ α) (s : σ) : Prop := ∀ t ∈ s :: (x s).visited, P t

instance {P : σ → Prop} [DecidablePred P] (x : Traced σ α) (s : σ) : Decidable (Within P x s) :=
  inferInstanceAs (Decidable (∀ t ∈ s :: (x s).visited, P t))

namespace Within

variable {P : σ → Prop} {x : Traced σ α} {f : α → Traced σ β} {s : σ}

lemma start (h : Within P x s) : P s := h s List.mem_cons_self

lemma final (h : Within P x s) (hx : Tracked x) : P (x s).final := h _ (hx s)

lemma mono {Q : σ → Prop} (hPQ : ∀ s, P s → Q s) (h : Within P x s) : Within Q x s :=
  fun t ht => hPQ t (h t ht)

lemma bind_left (h : Within P (x >>= f) s) : Within P x s := by
  intro t ht
  refine h t ?_
  rcases List.mem_cons.mp ht with ht | ht
  · exact List.mem_cons.mpr (Or.inl ht)
  · exact List.mem_cons_of_mem _ (List.mem_append_left _ ht)

lemma bind_right (h : Within P (x >>= f) s) (hx : Tracked x) : Within P (f (x s).val)
    (x s).final := by
  intro t ht
  rcases List.mem_cons.mp ht with rfl | ht
  · exact h.bind_left.final hx
  · exact h t (List.mem_cons_of_mem _ (List.mem_append_right _ ht))

lemma pure (a : α) (h : P s) : Within P (Pure.pure a : Traced σ α) s := fun t ht => by
  obtain rfl : t = s := by simpa using ht
  exact h

lemma get (h : P s) : Within P (Traced.get : Traced σ σ) s := pure s h

lemma get_bind_iff (f : σ → Traced σ α) : Within P (Traced.get >>= f) s ↔ Within P (f s) s :=
  Iff.rfl

lemma step {f : σ → σ} (h : P s) (hf : P (f s)) : Within P (Traced.step f) s := fun t ht => by
  rcases List.mem_cons.mp ht with rfl | ht
  · exact h
  · rw [List.mem_singleton.mp ht]
    exact hf

lemma bind (hx : Within P x s) (hf : Within P (f (x s).val) (x s).final) :
    Within P (x >>= f) s := by
  intro t ht
  rcases List.mem_cons.mp ht with rfl | ht
  · exact hx.start
  · rcases List.mem_append.mp ht with ht | ht
    · exact hx t (List.mem_cons_of_mem _ ht)
    · exact hf t (List.mem_cons_of_mem _ ht)

lemma bind_pure (hx : Within P x s) (ht : Tracked x) (g : α → β) :
    Within P (x >>= fun a => Pure.pure (g a)) s :=
  bind hx (pure _ (hx.final ht))

lemma ite {c : Prop} [Decidable c] {y : Traced σ α} (hx : Within P x s) (hy : Within P y s) :
    Within P (if c then x else y) s := by
  split_ifs
  · exact hx
  · exact hy

lemma after {R : σ → σ → Prop} (htrans : ∀ {a b c}, R a b → R b c → R a c) (ht : Tracked x)
    (hx : Within (R s) x s)
    (hf : Within (R (x s).final) (f (x s).val) (x s).final) : Within (R s) (x >>= f) s :=
  .bind hx (hf.mono fun _ h => htrans (hx.final ht) h)

lemma zoom {view : σ → τ} {put : τ → σ → σ} {Q : τ → Prop} {x : Traced τ α} (h : P s)
    (hx : Within Q x (view s))
    (hQ : ∀ t, Q t → P (put t s)) : Within P (Traced.zoom view put x) s := by
  intro t ht
  rcases List.mem_cons.mp ht with rfl | ht
  · exact h
  · obtain ⟨u, hu, rfl⟩ := List.mem_map.mp ht
    exact hQ u (hx u (List.mem_cons_of_mem _ hu))

end Within

/-- A run of `x` through states with `L` that starts with `P` keeps `P`. -/
def Preserves (L P : σ → Prop) (x : Traced σ α) : Prop := ∀ s, P s → Within L x s → Within P x s

namespace Preserves

variable {L P : σ → Prop} {x y : Traced σ α} {f : α → Traced σ β}

lemma pure (a : α) : Preserves L P (Pure.pure a : Traced σ α) := fun _ h _ => .pure a h

lemma step {f : σ → σ} (hf : ∀ s, P s → P (f s)) : Preserves L P (Traced.step f) :=
  fun s h _ => .step h (hf s h)

lemma get_bind {f : σ → Traced σ β} (hf : ∀ s, P s → Within L (f s) s → Within P (f s) s) :
    Preserves L P (Traced.get >>= f) := fun s h hw => hf s h hw

lemma bind_at {s : σ} (ht : Tracked x) (hx : Within P x s) (hf : ∀ a, Preserves L P (f a))
    (hw : Within L (x >>= f) s) :
    Within P (x >>= f) s :=
  .bind hx (hf _ _ (hx.final ht) (hw.bind_right ht))

lemma bind (ht : Tracked x) (hx : Preserves L P x) (hf : ∀ a, Preserves L P (f a)) :
    Preserves L P (x >>= f) :=
  fun s h hw => bind_at ht (hx s h hw.bind_left) hf hw

lemma ite {c : Prop} [Decidable c] (hx : Preserves L P x) (hy : Preserves L P y) :
    Preserves L P (if c then x else y) := by
  split_ifs
  · exact hx
  · exact hy

end Preserves

def Keeps {ρ : Type} (view : σ → ρ) (x : Traced σ α) : Prop := ∀ s, view (x s).final = view s

namespace Keeps

variable {ρ ρ' : Type} {view : σ → ρ} {view' : τ → ρ'} {x y : Traced σ α} {f : α → Traced σ β}

lemma pure (a : α) : Keeps view (Pure.pure a : Traced σ α) := fun _ => rfl

lemma get : Keeps view (Traced.get : Traced σ σ) := fun _ => rfl

lemma step {f : σ → σ} (h : ∀ s, view (f s) = view s) : Keeps view (Traced.step f) := h

lemma bind (hx : Keeps view x) (hf : ∀ a, Keeps view (f a)) : Keeps view (x >>= f) := fun s =>
  (hf (x s).val (x s).final).trans (hx s)

lemma ite {c : Prop} [Decidable c] (hx : Keeps view x) (hy : Keeps view y) :
    Keeps view (if c then x else y) := by
  split_ifs
  · exact hx
  · exact hy

lemma zoom {look : σ → τ} {put : τ → σ → σ}
    (h : ∀ t s, view' t = view' (look s) → view (put t s) = view s)
    {x : Traced τ α} (hx : Keeps view' x) : Keeps view (Traced.zoom look put x) :=
      fun s => h _ s (hx (look s))

end Keeps

/-- From a state with `pre`, `x` ends in `post` and passes only through states with `crash`. -/
def Triple (pre : σ → Prop) (x : Traced σ α) (post : α → σ → Prop) (crash : σ → Prop) : Prop :=
  ∀ s, pre s → post (x s).val (x s).final ∧ ∀ t ∈ (x s).visited, crash t

namespace Triple

variable {pre : σ → Prop} {post : α → σ → Prop} {crash : σ → Prop}

lemma bind {x : Traced σ α} {f : α → Traced σ β} {mid : α → σ → Prop} {post : β → σ → Prop}
    (hx : Triple pre x mid crash) (hf : ∀ a, Triple (mid a) (f a) post crash) :
    Triple pre (x >>= f) post crash := by
  intro s h
  obtain ⟨hm, hv⟩ := hx s h
  obtain ⟨hq, hw⟩ := hf _ _ hm
  refine ⟨hq, ?_⟩
  intro t ht
  rcases List.mem_append.mp ht with ht | ht
  · exact hv t ht
  · exact hw t ht

lemma forEach {f : α → Traced σ Unit} (inv : List α → σ → Prop)
    (h : ∀ a as, Triple (inv (a :: as)) (f a) (fun _ => inv as) crash) (as : List α) :
    Triple (inv as) (forEach f as) (fun _ => inv []) crash := by
  induction as with
  | nil => exact fun s h => ⟨h, by simp [Traced.forEach]⟩
  | cons a as ih => exact bind (h a as) (fun _ => ih)

end Triple

end Traced

end Foundations
