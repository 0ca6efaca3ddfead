import ZestDB.Shard.Recovery
import ZestDB.Shard.Tracked

/-! What every operation of a shard keeps, whatever its outcome: the invariant, INDEX as the log of
the index, and the flags of the WAL. -/

namespace Zest.Shard

open Foundations

variable {α : Type} {A : Key → Value → Prop} {B : Key → Prop} {s t : Shard} {disk : Disk}
  {ch : Choice}
variable {key : Key} {value : Value} {valid : ValidationRule} {count : Option ℕ}

structure Sound (s : Shard) : Prop where
  inv : s.Inv
  logged : s.Logged
  wal : s.wal.Wf

lemma Sound.path (h : s.Sound) (hp : Path A B s t) (hk : ∀ k v, A k v → k.length ≤ MAX_KEY_SIZE) :
    t.Sound := by
  refine ⟨hp.inv h.inv, hp.logged hk h.logged, ?_⟩
  rw [hp.frame.2]
  exact h.wal

lemma Runs.sound {x : Traced Shard α} (hr : Runs A B s (x s))
    (hk : ∀ k v, A k v → k.length ≤ MAX_KEY_SIZE) (h : s.Sound) : Traced.Within Sound x s := by
  intro t ht
  rcases List.mem_cons.mp ht with rfl | ht
  · exact h
  · exact h.path (hr.visited t ht) hk

lemma Sound.key_le (h : s.Sound) {k : Key} (hk : (s.toMap k).isSome) : k.length ≤ MAX_KEY_SIZE := by
  obtain ⟨rs, ts, hlog⟩ := h.logged
  obtain ⟨v, hv⟩ := Option.isSome_iff_exists.mp hk
  obtain ⟨loc, hl, -⟩ := Option.map_eq_some_iff.mp hv
  exact (hlog.log.entry_fits hl).key

lemma Sound.get (h : s.Sound) (key : Key) : (s.get key).2.Sound :=
  h.path (get_spec (A := fun _ _ => False) (B := fun _ => False) h.inv key).2 fun _ _ hf => hf.elim

lemma set_sound (h : s.Sound) (hv : ValueOk value) (hk : key.length ≤ MAX_KEY_SIZE)
    (hw : Traced.Within Bounded (set key value) s) : Traced.Within Sound (set key value) s :=
  (set_runs h.inv hv hw).sound (fun _ _ ha => ha.1 ▸ hk) h

lemma del_sound (h : s.Sound) (key : Key) : Traced.Within Sound (del key) s :=
  (del_spec h.inv key).2.2.sound (fun _ _ hf => hf.elim) h

lemma setBy_sound (h : s.Sound) (hv : ValueOk value)
    (hw : Traced.Within Bounded (setBy ch valid value count) s) :
    Traced.Within Sound (setBy ch valid value count) s :=
  (setBy_runs h.inv hv hw).sound (fun _ _ ha => h.key_le ha.1.2) h

lemma delBy_sound (h : s.Sound) : Traced.Within Sound (delBy ch valid count) s :=
  (delBy_spec ch valid count h.inv).1.sound (fun _ _ hf => hf.elim) h

lemma flushData_sound (h : s.Sound) : Traced.Within Sound (flushData ch) s :=
  (flushData_runs (A := fun _ _ => False) (B := fun _ => False) s ch).sound
  (fun _ _ hf => hf.elim) h

lemma compactorPass_sound (h : s.Sound) (hfew : s.FewKeys)
    (hw : Traced.Within Bounded (compactorPass ch) s) :
    Traced.Within Sound (compactorPass ch) s :=
  (compactorPass_runs h.inv hfew hw).sound (fun _ _ hf => hf.elim) h

lemma Sound.of_wal (h : s.Sound) {wal : WAL} (hw : wal.Wf) :
    ({ s with wal := wal } : Shard).Sound :=
  ⟨⟨h.inv.storage, h.inv.cache, h.inv.entry, h.inv.cached⟩, h.logged, hw⟩

lemma Sound.reloadSettings (h : s.Sound) (settings : Settings) :
    (reloadSettings settings s).Sound :=
  ⟨(reloadSettings_spec h.inv settings).1, h.logged, h.wal⟩

lemma reopen_sound (settings : Settings) (ch fill : Choice) (hd : disk.Ok) :
    (reopen settings ch fill disk).Sound := by
  obtain ⟨h, -⟩ := boot_spec settings hd ch fill
  refine ⟨h.inv, h.logged, ?_⟩
  rw [h.wal]
  exact WAL.openWal_wf _

end Zest.Shard
