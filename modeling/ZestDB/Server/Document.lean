import ZestDB.Server.Session
import ZestDB.Foundations.Json
import ZestDB.Foundations.Separated
import ZestDB.Database.Permissions

/-! The document that answers a command: it is a JSON text, and where the separator can stand in
it. -/

namespace Zest

open Foundations

/-- What is assumed of the JSON library: `accept` takes JSON texts only, and `dump` writes a
string. -/
structure Platform.Json (pf : Platform) : Prop where
  accept : ∀ text, pf.accept text = true → Json.Text text
  escape : ∀ str, Json.Chars (pf.escape str)

def Printable (text : Bytes) : Prop := ∀ b ∈ text, 0x20 ≤ b.val

instance (text : Bytes) : Decidable (Printable text) :=
  decidable_of_iff (text.all fun b => Nat.ble 0x20 b.val) (by simp [Printable])

namespace Printable

variable {a b : Bytes}

lemma append (ha : Printable a) (hb : Printable b) : Printable (a ++ b) := by
  intro x hx
  rcases List.mem_append.mp hx with hx | hx
  · exact ha x hx
  · exact hb x hx

lemma intercalate {docs : List Bytes} (ha : Printable a) (h : ∀ d ∈ docs, Printable d) :
    Printable (a.intercalate docs) := by
  induction docs with
  | nil => simp [Printable, List.intercalate]
  | cons d docs ih =>
    have hrest := ih fun e he => h e (List.mem_cons_of_mem _ he)
    cases docs with
    | nil => simpa [List.intercalate] using h d List.mem_cons_self
    | cons d' docs =>
      have hjoin : a.intercalate (d :: d' :: docs) = d ++ (a ++ a.intercalate (d' :: docs)) := by
        simp [List.intercalate]
      rw [hjoin]
      exact (h d List.mem_cons_self).append (ha.append hrest)

lemma not_mem (h : Printable a) {x : Byte} (hx : x ∈ SEPARATOR) : x ∉ a := by
  intro hmem
  have hle := h x hmem
  simp only [SEPARATOR, List.mem_cons, List.not_mem_nil, or_false] at hx
  rcases hx with rfl | rfl | rfl | rfl <;> revert hle <;> decide

lemma not_separated (h : Printable a) : ¬ SEPARATOR <:+: a := fun hin =>
  h.not_mem (x := 13) (by decide) (hin.subset (by decide))

lemma apart (h : Printable a) : ∀ x ∈ a, x ∉ SEPARATOR := fun _ hx hsep => h.not_mem hsep hx

lemma number (k : ℤ) : Printable (ascii (toString k)) := Json.toString_printable k

lemma dumpString {pf : Platform} (hj : pf.Json) (str : Bytes) : Printable (dumpString pf str) :=
  ((show Printable (ascii "\"") by decide +kernel).append (hj.escape str).printable).append
  (show Printable (ascii "\"") by decide +kernel)

end Printable

def verbatim (pf : Platform) (response : Bytes) : Bool :=
  looksLikeJson response && pf.accept response

section Document

variable {pf : Platform} {r : ResultType}

lemma responseToJson_eq (pf : Platform) (r : ResultType) : ∃ start, Printable start ∧
    responseToJson pf r =
      start ++ ((if verbatim pf r.response then r.response else dumpString pf r.response) ++
        ascii "\x7d") := by
  refine ⟨ascii "\x7b\"affectedRows\":" ++ ascii (toString r.affectedRows) ++ ascii ",\"code\":" ++
    (if r.code = .Success then ascii "0" else ascii "1") ++ ascii ",\"response\":",
    ?_, by simp [responseToJson, verbatim]⟩
  have hcode : Printable (if r.code = .Success then ascii "0" else ascii "1") := by
    split_ifs <;> decide +kernel
  have hrows := Printable.number r.affectedRows
  exact ((((show Printable (ascii "\x7b\"affectedRows\":") by decide +kernel).append hrows).append
    (show Printable (ascii ",\"code\":") by decide +kernel)).append hcode).append
    (show Printable (ascii ",\"response\":") by decide +kernel)

lemma separator_infix_iff (hj : pf.Json) :
    SEPARATOR <:+: responseToJson pf r ↔ verbatim pf r.response = true ∧
    SEPARATOR <:+: r.response := by
  obtain ⟨start, hstart, heq⟩ := responseToJson_eq pf r
  have hclose : Printable (ascii "\x7d") := by decide +kernel
  rw [heq, infix_append_left_iff (by decide) hstart.apart,
    infix_append_right_iff (by decide) hclose.apart]
  split_ifs with hv
  · simp [hv]
  · simp [hv, (Printable.dumpString hj r.response).not_separated]

lemma responseToJson_closed (pf : Platform) (r : ResultType) :
    Closed SEPARATOR (responseToJson pf r) := by
  obtain ⟨start, -, heq⟩ := responseToJson_eq pf r
  exact ⟨_, 125, heq.trans (List.append_assoc _ _ _).symm, by decide⟩

lemma responseToJson_text (hj : pf.Json) (r : ResultType) : Json.Text (responseToJson pf r) := by
  obtain ⟨w, v, w', hw, hv, hw', hresp⟩ :
      Json.Text (if verbatim pf r.response then r.response else dumpString pf r.response) := by
    split_ifs with hv
    · rw [verbatim, Bool.and_eq_true] at hv
      exact hj.accept _ hv.2
    · exact (Json.Value.string ⟨_, hj.escape r.response, by simp [dumpString]; rfl⟩).text
  have hkey : ∀ s : String, (∀ c ∈ s.toList, 0x20 ≤ c.toNat ∧ c.toNat < 0x80 ∧ c ≠ '"' ∧ c ≠ '\\') →
      Json.Str (ascii "\"" ++ ascii s ++ ascii "\"") :=
        fun s hs => ⟨ascii s, .ascii hs, by simp; rfl⟩
  have hcode : Json.Value (if r.code = .Success then ascii "0" else ascii "1") := by
    split_ifs
    · exact .number (Json.number_toString 0)
    · exact .number (Json.number_toString 1)
  have hmembers := Json.Members.more .nil (hkey "affectedRows" (by simp)) .nil .nil
    (.number (Json.number_toString r.affectedRows)) .nil
    (.more .nil (hkey "code" (by simp)) .nil .nil hcode .nil
      (.one .nil (hkey "response" (by simp)) .nil hw hv hw'))
  have hdoc := (Json.Value.object hmembers).text
  rw [← hresp] at hdoc
  have hopen : ascii "\x7b\"affectedRows\":" =
      Json.octet '\x7b' ::
      (ascii "\"" ++ ascii "affectedRows" ++ ascii "\"" ++ [Json.octet ':']) := by decide
  have hsecond : ascii ",\"code\":" =
      Json.octet ',' :: (ascii "\"" ++ ascii "code" ++ ascii "\"" ++ [Json.octet ':']) := by decide
  have hthird : ascii ",\"response\":" =
      Json.octet ',' :: (ascii "\"" ++ ascii "response" ++ ascii "\"" ++ [Json.octet ':']) := by
        decide
  rw [responseToJson, hopen, hsecond, hthird, show ascii "\x7d" = [Json.octet '\x7d'] from rfl,
    show ascii (toString r.affectedRows) = Json.literal (toString r.affectedRows) from rfl]
  simpa [verbatim] using hdoc

end Document

def Plain (response : Bytes) : Prop := Printable response ∨ looksLikeJson response = false

lemma Plain.not_copied {pf : Platform} {response : Bytes} (h : Plain response) :
    ¬ (verbatim pf response = true ∧ SEPARATOR <:+: response) := by
  rintro ⟨hv, hin⟩
  rcases h with h | h
  · exact h.not_separated hin
  · simp [verbatim, h] at hv

lemma head_ascii_append {a b : String} {c : Byte} (h : (ascii a).head? = some c) :
    (ascii (a ++ b)).head? = some c := by
  simp only [ascii, String.toList_append, List.map_append] at h ⊢
  rw [List.head?_append, h]
  rfl

lemma Plain.head {response : Bytes} {b : Byte} (h : response.head? = some b) (h91 : b ≠ 91)
    (h123 : b ≠ 123) :
    Plain response := by
  refine Or.inr ?_
  simp [looksLikeJson, h, h91, h123]

lemma help_plain : Plain ZestDB.help := by
  have hhead : ZestDB.help.head? = some 90 := by
    simp only [ZestDB.help]
    repeat refine head_ascii_append ?_
    decide
  exact .head hhead (by decide) (by decide)

lemma Shard.modified_plain (count : ℤ) : Plain (modified count).response := by
  have hhead : (modified count).response.head? = some 86 :=
    head_ascii_append (head_ascii_append (by decide))
  exact .head hhead (by decide) (by decide)

lemma Shard.deleted_plain (count : ℤ) : Plain (deleted count).response := by
  have hhead : (deleted count).response.head? = some 83 :=
    head_ascii_append (head_ascii_append (by decide))
  exact .head hhead (by decide) (by decide)

namespace ShardManager

variable {n : ℕ} [NeZero n] {pf : Platform}

lemma set_plain (key : Key) (value : Value) (sm : ShardManager n) :
    Plain (set pf key value sm).val.response := by
  change Plain (Shard.set key value (sm.shards (getShardId pf key))).val.response
  simp only [Shard.set, Traced.get_bind, Traced.bind_val, Traced.ite_run]
  split_ifs
  · exact (show Plain Shard.segmentFull.response from Or.inr (by decide))
  · exact (show Plain Messages.SUCCESS_SET from Or.inr (by decide))

lemma del_plain (key : Key) (sm : ShardManager n) : Plain (del pf key sm).val.response := by
  obtain ⟨s, hs⟩ : ∃ s, s = sm.shards (getShardId pf key) := ⟨_, rfl⟩
  change Plain (Shard.del key (sm.shards (getShardId pf key))).val.response
  have hval : (Shard.del key s).val = if Shard.live (s.indexManager.search key) then
      ⟨.Success, Messages.SUCCESS_DEL, 1⟩ else ⟨.Error, Messages.KEY_NOT_FOUND, 0⟩ := by
    change ((if Shard.live (s.indexManager.search key) then
      _ else _ : Traced Shard ResultType) _).val = _
    rw [Traced.ite_run]
    split_ifs <;> rfl
  rw [← hs, hval]
  split_ifs
  · exact (show Plain Messages.SUCCESS_DEL from Or.inr (by decide))
  · exact (show Plain Messages.KEY_NOT_FOUND from Or.inr (by decide))

lemma write_plain (ch : Choices n) (w : Write) (sm : ShardManager n) :
    Plain (write pf ch w sm).val.response := by
  cases w with
  | set key value => exact set_plain key value sm
  | del key => exact del_plain key sm
  | setBy valid value =>
    simp only [write, setBy, Traced.ite_run]
    split_ifs <;> exact Shard.modified_plain _
  | delBy valid =>
    simp only [write, delBy, Traced.ite_run]
    split_ifs <;> exact Shard.deleted_plain _

lemma dumpArray_printable (hj : pf.Json) (pairs : List (Key × Value)) :
    Printable (Shard.dumpArray pf pairs) := by
  refine ((show Printable (ascii "[") by decide +kernel).append
    (.intercalate (by decide +kernel) fun d hd => ?_)).append
    (show Printable (ascii "]") by decide +kernel)
  obtain ⟨p, -, rfl⟩ := List.mem_map.mp hd
  exact ((((show Printable (ascii "\x7b\"") by decide +kernel).append
    (hj.escape p.1).printable).append
    (show Printable (ascii "\":\"") by decide +kernel)).append (hj.escape p.2).printable).append
    (show Printable (ascii "\"\x7d") by decide +kernel)

omit [NeZero n] in
lemma getByShards_printable (hj : pf.Json) (ch : Choices n) (valid : ValidationRule)
    (sm : ShardManager n) (is : List (Fin n)) (count : Option ℕ) :
    ∀ r ∈ sm.getByShards pf ch valid is count, Printable r.response := by
  induction is generalizing count with
  | nil => simp [getByShards]
  | cons i is ih =>
    simp only [getByShards, List.mem_cons]
    rintro r (rfl | hr)
    · exact dumpArray_printable hj _
    · exact ih _ r hr

lemma mergeOne_printable {acc : Bytes × ℤ} {r : ResultType} (ha : Printable acc.1)
    (hr : Printable r.response) :
    Printable (mergeOne acc r).1 := by
  have hmid : Printable ((r.response.drop 1).take (r.response.length - 2)) := fun b hb =>
    hr b (List.mem_of_mem_drop (List.mem_of_mem_take hb))
  simp only [mergeOne]
  split_ifs
  · exact (ha.append (show Printable (ascii ",") by decide +kernel)).append hmid
  · exact ha.append hmid
  · exact ha

omit [NeZero n] in
lemma getBy_plain (hj : pf.Json) (ch : Choices n) (sm : ShardManager n) (valid : ValidationRule) :
    Plain (sm.getBy pf ch valid).response := by
  have hfold : ∀ (rs : List ResultType) (acc : Bytes × ℤ), Printable acc.1 →
      (∀ r ∈ rs, Printable r.response) → Printable (rs.foldl mergeOne acc).1 := by
    intro rs
    induction rs with
    | nil => exact fun acc ha _ => ha
    | cons r rs ih =>
      intro acc ha hrs
      exact ih _ (mergeOne_printable ha (hrs r List.mem_cons_self)) fun r' hr' => hrs r'
        (List.mem_cons_of_mem _ hr')
  exact Or.inl ((hfold _ _ (show Printable (ascii "[") by decide +kernel)
    (getByShards_printable hj ch valid sm (List.finRange n) (some 0))).append
    (show Printable (ascii "]") by decide +kernel))

end ShardManager

lemma Printable.object {members : List (String × Bytes)}
    (h : ∀ m ∈ members, Printable (ascii m.1) ∧ Printable m.2) :
    Printable (ascii "\x7b" ++ List.intercalate (ascii ",")
      (members.map fun m => ascii "\"" ++ ascii m.1 ++ ascii "\":" ++ m.2) ++ ascii "\x7d") := by
  refine ((show Printable (ascii "\x7b") by decide +kernel).append
    (.intercalate (by decide +kernel) fun d hd => ?_)).append
    (show Printable (ascii "\x7d") by decide +kernel)
  obtain ⟨m, hm, rfl⟩ := List.mem_map.mp hd
  obtain ⟨hname, hvalue⟩ := h m hm
  exact (((show Printable (ascii "\"") by decide +kernel).append hname).append
    (show Printable (ascii "\":") by decide +kernel)).append hvalue

lemma getConfig_plain {pf : Platform} (hj : pf.Json) (s : Settings) : Plain (getConfig pf s) := by
  have htext : ∀ b, Printable (ascii "\"" ++ pf.escape b ++ ascii "\"") := Printable.dumpString hj
  have hnumber : ∀ k : ℕ, Printable (ascii (toString k)) := fun k => Printable.number k
  have hflag : ∀ b : Bool, Printable (ascii (if b then "true" else "false")) := by
    intro b
    cases b <;> decide +kernel
  refine Or.inl (.object ?_)
  simp only [List.forall_mem_cons, List.not_mem_nil, false_imp_iff, implies_true, and_true, htext,
    hnumber, hflag]
  decide +kernel

def Setter.Plain (f : Setter) : Prop := ∀ s value message, f s value = .error message →
  Zest.Plain message

lemma invalid_plain (rest : String) : Plain (ascii ("Invalid " ++ rest)) :=
  .head (b := 73) (head_ascii_append (by decide)) (by decide) (by decide)

lemma setSeconds_plain (name : String) (put : Settings → ℕ → Settings) :
    (setSeconds name put).Plain := by
  intro s value message h
  simp only [setSeconds, String.append_assoc] at h
  split at h <;> cases h <;> exact invalid_plain _

lemma setFlag_plain (name : String) (put : Settings → Bool → Settings) :
    (setFlag name put).Plain := by
  intro s value message h
  simp only [setFlag, String.append_assoc] at h
  split_ifs at h
  cases h
  exact invalid_plain _

lemma setSegSize_plain : Setter.Plain setSegSize := by
  intro s value message h
  simp only [setSegSize] at h
  split at h
  · cases h
    exact Or.inr (by decide)
  · split_ifs at h
    cases h
    exact Or.inr (by decide)

lemma setMaxKeySize_plain : Setter.Plain setMaxKeySize := by
  intro s value message h
  simp only [setMaxKeySize] at h
  split at h
  · cases h
    exact Or.inr (by decide)
  · split_ifs at h
    cases h
    exact Or.inr (by decide)

lemma setMaxValueSize_plain : Setter.Plain setMaxValueSize := by
  intro s value message h
  simp only [setMaxValueSize] at h
  split at h
  · cases h
    exact Or.inr (by decide)
  · split_ifs at h
    cases h
    exact Or.inr (by decide)

lemma setCacheSize_plain : Setter.Plain setCacheSize := by
  intro s value message h
  simp only [setCacheSize] at h
  split at h
  · cases h
    exact Or.inr (by decide)
  · cases h

lemma setNetworkValidation_plain (pf : Platform) : Setter.Plain (setNetworkValidation pf) := by
  intro s value message h
  simp only [setNetworkValidation] at h
  split at h
  · cases h
    exact .head (b := 73) rfl (by decide) (by decide)
  · cases h

lemma setParam_plain {pf : Platform} {settings : Settings} {param value message : Bytes}
    (h : setParam pf settings param value = .error message) : Plain message := by
  simp only [setParam] at h
  split at h
  · next p hp =>
    have hmem := List.mem_of_find?_eq_some hp
    have hssl : Setter.Plain fun _ _ =>
        .error (ascii "useSSL cannot be changed at runtime: edit config.yaml and restart") := by
      intro s value message h
      cases h
      exact Or.inr (by decide)
    have hall : ∀ p ∈ params pf, Setter.Plain p.2 := by
      simp only [params, List.forall_mem_cons, List.not_mem_nil, false_imp_iff, implies_true,
        and_true, setSeconds_plain, setFlag_plain, setSegSize_plain, setMaxKeySize_plain,
        setMaxValueSize_plain, setCacheSize_plain, setNetworkValidation_plain, hssl]
    exact hall p hmem _ _ _ h
  · cases h
    exact .head (b := 85) rfl (by decide) (by decide)

namespace ZestDB

variable {n : ℕ} [NeZero n] {pf : Platform} {db : ZestDB n} {c : Call n} {key : Bytes}
  {req : Request} {r : ResultType}

lemma request_plain {v : Verb} {args : List Word} {message : Bytes}
    (h : request pf v args = .error message) :
    Plain message := by
  have hrule :
      ∀ {mode pattern : Word} {limit : Option ℕ} {bad : Bytes} {f : ValidationRule → Request},
        Plain bad →
      (makeRule pf mode pattern limit bad).map f = .error message → Plain message := by
    intro mode pattern limit bad f hbad hm
    simp only [makeRule] at hm
    split at hm <;> cases hm
    · exact Or.inr (by decide)
    · exact hbad
  simp only [request] at h
  split at h
  all_goals first
    | cases h
      done
    | cases h
      exact Or.inr (by decide)
    | exact hrule (Or.inr (by decide)) h

omit [NeZero n] in
lemma refusal_plain {settings : Settings} {enforce : Bool} {w : Write} {message : Bytes}
    (h : refusal pf settings enforce w = some message) : Plain message := by
  cases w <;> simp only [refusal] at h <;> split_ifs at h <;> cases h <;> exact Or.inr (by decide)

omit [NeZero n] in
lemma reloadConfig_plain : Plain (reloadConfig pf db).val.response := by
  simp only [reloadConfig, Traced.get_bind]
  cases hr : reloadedSettings pf db.config db.settings with
  | ok settings => exact (show Plain (ascii "Reload successful !") from Or.inr (by decide))
  | error message =>
    change Plain message
    simp only [reloadedSettings] at hr
    split at hr
    · cases hr
      exact Or.inr (by decide)
    · split_ifs at hr <;> cases hr <;> exact Or.inr (by decide)

omit [NeZero n] in
lemma scfg_plain {rewritten : TypedConfig} {param value : Bytes}
    (h : (scfg pf rewritten param value db).val = some r) : Plain r.response := by
  simp only [scfg, Traced.get_bind] at h
  cases hs : setParam pf db.settings param value with
  | error message =>
    have hr : some (failure message) = some r := by
      rw [← h, hs]
      rfl
    rw [← Option.some.inj hr]
    exact setParam_plain hs
  | ok settings =>
    have hr : (if db.config.mapping then some (success Messages.UPDATE_SUCCESSFUL) else none) =
        some r := by
      rw [← h, hs]
      cases db.config.mapping <;> rfl
    split_ifs at hr
    rw [← Option.some.inj hr]
    exact (show Plain Messages.UPDATE_SUCCESSFUL from Or.inr (by decide))

omit [NeZero n] in
lemma success_response (message : Bytes) : (success message).response = message := rfl

lemma serve_plain (hj : pf.Json) (hreq : ∀ k, req ≠ .get k)
    (h : (serve pf c key req db).val = some r) :
    Plain r.response := by
  cases req with
  | get k => exact absurd rfl (hreq k)
  | getBy valid =>
    change some (db.shardManager.getBy pf c.choices valid) = some r at h
    rw [← Option.some.inj h]
    exact ShardManager.getBy_plain hj _ _ _
  | write w =>
    change some (writeAndLog pf c key w db).val = some r at h
    rw [← Option.some.inj h, writeAndLog_val]
    cases hr : refusal pf db.settings (!db.replaying) w with
    | some message =>
      rw [write_refused hr]
      exact refusal_plain hr
    | none =>
      rw [write_accepted hr]
      exact ShardManager.write_plain _ _ _
  | help =>
    change some (success help) = some r at h
    rw [← Option.some.inj h, success_response]
    exact help_plain
  | flush =>
    change some (success Messages.FLUSH_SUCCESSFUL) = some r at h
    rw [← Option.some.inj h]
    exact (show Plain Messages.FLUSH_SUCCESSFUL from Or.inr (by decide))
  | reload =>
    change some (reloadConfig pf db).val = some r at h
    rw [← Option.some.inj h]
    exact reloadConfig_plain
  | scfg param value => exact scfg_plain h
  | gcfg =>
    change some (success (getConfig pf db.settings)) = some r at h
    rw [← Option.some.inj h]
    exact getConfig_plain hj _
  | save =>
    change some (if c.archived then success (ascii "Archive successfully created.")
      else failure (ascii "Failed to create the archive")) = some r at h
    rw [← Option.some.inj h]
    split_ifs
    · exact (show Plain (ascii "Archive successfully created.") from Or.inr (by decide))
    · exact (show Plain (ascii "Failed to create the archive") from Or.inr (by decide))

end ZestDB

end Zest
