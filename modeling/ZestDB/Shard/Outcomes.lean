import ZestDB.Shard.Sound

/-! What a crash can make of one key: the outcomes that the indexes it can leave have for it. -/

namespace Zest.Shard

open Foundations

variable {A : Key → Value → Prop} {B : Key → Prop} {O O' : Option Value → Prop} {k : Key}
  {s t : Shard} {disk : Disk}

/-- Every index that a crash can leave has for the key one of the outcomes `O`. -/
def Offers (O : Option Value → Prop) (k : Key) (s : Shard) : Prop :=
  ∀ f, s.Views f → (f k = none → O none) ∧ ∀ loc, f k = some loc → s.files.InBounds loc ∧
    O (some (s.files.slice loc))

lemma Offers.mono (h : Offers O k s) (hO : ∀ o, O o → O' o) : Offers O' k s :=
  fun f hf => ⟨fun hn => hO _ ((h f hf).1 hn), fun loc hl => ((h f hf).2 loc hl).imp_right (hO _)⟩

lemma offers_tree (hi : s.Inv) (ho : O (s.toMap k)) : (s.tree.lookup k = none → O none) ∧
    ∀ loc, s.tree.lookup k = some loc → s.files.InBounds loc ∧ O (some (s.files.slice loc)) := by
  constructor
  · intro hn
    rwa [toMap, hn] at ho
  · intro loc hl
    rw [toMap, hl] at ho
    exact ⟨(hi.entry k loc hl).inBounds, ho⟩

lemma Offers.of_flushed (hi : s.Inv) (hf : ∃ rs, LogOk s.indexManager rs []) (ho : O (s.toMap k)) :
    Offers O k s := by
  intro f hv
  obtain ⟨rs, hlog⟩ := hf
  rw [hlog.flushed_views hv]
  exact offers_tree hi ho

lemma Offers.move (h : Offers O k s) (hm : Move A B s t) (hi : s.Inv) (hl : s.Logged)
    (hk : ∀ k v, A k v → k.length ≤ MAX_KEY_SIZE) (ho : O (t.toMap k)) : Offers O k t := by
  have htree := offers_tree (hm.inv hi).1 ho
  intro f hf
  rcases (hm.views hk hl).2 f hf with hold | rfl
  · rcases hm.grows_or hl with hg | hnow
    · obtain ⟨hnone, hsome⟩ := h f hold
      refine ⟨hnone, fun loc hloc => ?_⟩
      obtain ⟨hin, hout⟩ := hsome loc hloc
      refine ⟨hin.mono hg, ?_⟩
      rwa [hin.slice_eq hg]
    · rw [hnow f hf]
      exact htree
  · exact htree

lemma Offers.path (h : Offers O k s) (hp : Path A B s t) (hi : s.Inv) (hl : s.Logged)
    (hk : ∀ k v, A k v → k.length ≤ MAX_KEY_SIZE) (ho : O (s.toMap k))
    (hA : ∀ v, A k v → O (some v)) (hB : B k → O none) : Offers O k t := by
  induction hp with
  | refl => exact h
  | @tail b c hp hm ih =>
    refine ih.move hm (Path.inv hp hi) (Path.logged hp hk hl) hk ?_
    rcases Path.toMap_cases (.tail hp hm) hi k with he | ⟨v, hv, he⟩ | ⟨hb, he⟩
    · rwa [he]
    · rw [he]
      exact hA v hv
    · rw [he]
      exact hB hb

lemma reopen_dangling (hd : disk.Ok) (h : Dangling disk.files disk.view k) (settings : Settings)
    (ch fill : Choice) :
    (reopen settings ch fill disk).toMap k = none := by
  obtain ⟨loc, hk, hout⟩ := h
  obtain ⟨hre, -⟩ := boot_spec settings hd ch fill
  rw [hre.toMap, recovered, hk, Option.bind_some, if_neg hout]

lemma Offers.reopen (h : Offers O k s) (hl : s.Logged) (hfew : disk.FewKeys) (hc : s.Crash disk)
    (hd : ¬ Dangling disk.files disk.view k) (settings : Settings) (ch fill : Choice) :
    O ((reopen settings ch fill disk).toMap k) := by
  obtain ⟨hre, -⟩ := boot_spec settings (hc.disk_ok hl hfew) ch fill
  obtain ⟨hnone, hsome⟩ := h _ hc.view
  rw [hre.toMap, recovered]
  cases hk : disk.view k with
  | none => exact hnone hk
  | some loc =>
    have hin : disk.files.InBounds loc := by
      by_contra hout
      exact hd ⟨loc, hk, hout⟩
    rw [Option.bind_some, if_pos hin, ← hin.slice_eq hc.grows]
    exact (hsome loc hk).2

end Zest.Shard
