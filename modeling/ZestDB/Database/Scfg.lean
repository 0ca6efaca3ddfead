import ZestDB.Database.Effect
import ZestDB.Database.Restart

/-! `scfg` between the settings of the database, of its shards and of `config.yaml`. -/

namespace Zest.ZestDB

open Foundations

variable {n : ℕ} {pf : Platform} {db : ZestDB n} {c : Call n}

section Ends

variable {param value message : Bytes} {settings : Settings} (rewritten : TypedConfig)

end Ends

section Edited

end Edited

end Zest.ZestDB
