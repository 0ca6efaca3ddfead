import ZestDB.Shard.Defs

/-! Every operation of a shard ends in a state it passed through. -/

namespace Zest

open Foundations
open Foundations.Traced (Tracked)

namespace StorageManager

variable {segSize id : ℕ} {value : Value} {ch : Choice}

lemma appendToSegment_tracked : Tracked (appendToSegment segSize id value) := by
  refine .bind .get fun sm => ?_
  cases sm.segments.lookup id with
  | none => exact .pure _
  | some seg => exact .bind (.step _) fun _ => .pure _

lemma currentSegment_tracked : Tracked (currentSegment segSize) :=
  .bind .get fun _ => .ite (.pure _) (.bind (.step _) fun _ => .pure _)

lemma append_tracked : Tracked (append segSize value) :=
  .bind currentSegment_tracked fun _ => .bind appendToSegment_tracked fun _ =>
    .ite (.bind .get fun _ => .bind (.step _) fun _ => appendToSegment_tracked) (.pure _)

lemma flush_tracked : Tracked (flush ch) := .bind .get fun _ => .forEach (fun _ => .step _) _

lemma removeUnusedSegments_tracked {used : List ℕ} : Tracked (removeUnusedSegments ch used) :=
  .bind .get fun _ => .forEach (fun _ => .step _) _

end StorageManager

namespace Shard

variable {key : Key} {value : Value} {ch : Choice} {valid : ValidationRule} {count : Option ℕ}
variable {entries : List IndexEntry}

lemma onStorage_tracked {α : Type} {x : Traced StorageManager α} (hx : Tracked x) :
    Tracked (onStorage x) :=
  .zoom (fun _ => rfl) hx

lemma set_tracked : Tracked (set key value) :=
  .bind .get fun _ => .bind (onStorage_tracked StorageManager.append_tracked) fun _ =>
    .ite (.pure _) (.bind (.step _) fun _ => .pure _)

lemma del_tracked : Tracked (del key) :=
  .bind (.step _) fun _ => .bind .get fun _ => .ite (.bind (.step _) fun _ => .pure _) (.pure _)

lemma setByEntries_tracked : Tracked (setByEntries valid value entries count) := by
  induction entries generalizing count with
  | nil => exact .pure _
  | cons entry entries ih =>
    refine .ite ?_ ih
    cases valid.claim count with
    | none => exact .pure _
    | some claimed =>
      exact .bind .get fun _ => .bind (onStorage_tracked StorageManager.append_tracked) fun _ =>
        .ite ih (.bind (.step _) fun _ => .bind ih fun _ => .pure _)

lemma setBy_tracked : Tracked (setBy ch valid value count) :=
  .bind .get fun _ => .bind setByEntries_tracked fun _ => .pure _

lemma delByEntries_tracked : Tracked (delByEntries valid entries count) := by
  induction entries generalizing count with
  | nil => exact .pure _
  | cons entry entries ih =>
    refine .ite ?_ ih
    cases valid.claim count with
    | none => exact .pure _
    | some claimed => exact .bind (.step _) fun _ => .bind ih fun _ => .pure _

lemma delBy_tracked : Tracked (delBy ch valid count) :=
  .bind .get fun _ => .bind delByEntries_tracked fun _ => .pure _

lemma flushData_tracked : Tracked (flushData ch) :=
  .bind (onStorage_tracked StorageManager.flush_tracked) fun _ => .step _

lemma relocate_tracked {stay : IndexEntry → Bool} : Tracked (relocate stay entries) := by
  induction entries with
  | nil => exact .pure _
  | cons entry entries ih =>
    exact .bind .get fun _ => .ite (.bind ih fun _ => .pure _)
      (.bind (onStorage_tracked StorageManager.append_tracked) fun _ =>
        .ite (.bind ih fun _ => .pure _) (.bind (.step _) fun _ => .bind ih fun _ => .pure _))

lemma compactorPass_tracked : Tracked (compactorPass ch) :=
  .bind (.bind .get fun _ => .bind (.step _) fun _ => .pure _) fun _ => .bind .get fun _ =>
    .bind relocate_tracked fun _ => .bind (.ite flushData_tracked (.pure _)) fun _ =>
      onStorage_tracked StorageManager.removeUnusedSegments_tracked

end Shard

end Zest
