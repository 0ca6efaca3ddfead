import ZestDB.Database.Effect
import ZestDB.Database.Tokens
import ZestDB.Database.Validated

/-! Lines of `set`, `get` and `setby`: what is asked for is what the line was put together from. -/

namespace Zest

open Foundations

def SetLine (key value line : Bytes) : Prop :=
  ∃ lead cmd gap gap' tail, line = lead ++ (cmd ++ (gap ++ (key ++ (gap' ++ value)))) ++ tail ∧
    Blanks lead ∧
    (toLowerStr cmd = ascii "set" ∨ toLowerStr cmd = ascii "s") ∧ Gap gap ∧ Gap gap' ∧ LineEnds tail

def GetLine (key line : Bytes) : Prop :=
  ∃ lead cmd gap tail, line = lead ++ (cmd ++ (gap ++ key)) ++ tail ∧ Blanks lead ∧
    (toLowerStr cmd = ascii "get" ∨ toLowerStr cmd = ascii "g") ∧ Gap gap ∧ LineEnds tail

def SetByLine (mode pattern rest line : Bytes) : Prop :=
  ∃ lead cmd gap gap' gap'' tail,
    line = lead ++ (cmd ++ (gap ++ (mode ++ (gap' ++ (pattern ++ (gap'' ++ rest)))))) ++ tail ∧
    Blanks lead ∧
      (toLowerStr cmd = ascii "setby" ∨ toLowerStr cmd = ascii "sb") ∧ Gap gap ∧ Gap gap' ∧
      Gap gap'' ∧ LineEnds tail

/-- Neither the first byte of a value is a blank nor its last a line end. -/
structure Storable (value : Value) : Prop where
  starts : StartsSolid value
  ends : ∀ b, value.getLast? = some b → isLineEnd b = false

variable {key value line cmd : Bytes}

lemma Solid.lineEnd {w : Bytes} (h : Solid w) : ∀ b, w.getLast? = some b → isLineEnd b = false := by
  intro b hb
  have hsolid := h.2 b (List.mem_of_getLast? hb)
  cases hend : isLineEnd b with
  | false => rfl
  | true =>
    rw [isBlank_of_lineEnd hend] at hsolid
    cases hsolid

lemma spelled_set (h : toLowerStr cmd = ascii "set" ∨ toLowerStr cmd = ascii "s") :
    Solid cmd ∧ verbOf cmd = .s := by
  rcases h with h | h
  · exact ⟨solid_of_lower (by decide +kernel) h, by rw [verbOf, h]; decide +kernel⟩
  · exact ⟨solid_of_lower (by decide +kernel) h, by rw [verbOf, h]; decide +kernel⟩

lemma spelled_get (h : toLowerStr cmd = ascii "get" ∨ toLowerStr cmd = ascii "g") :
    Solid cmd ∧ verbOf cmd = .g := by
  rcases h with h | h
  · exact ⟨solid_of_lower (by decide +kernel) h, by rw [verbOf, h]; decide +kernel⟩
  · exact ⟨solid_of_lower (by decide +kernel) h, by rw [verbOf, h]; decide +kernel⟩

lemma spelled_setBy (h : toLowerStr cmd = ascii "setby" ∨ toLowerStr cmd = ascii "sb") :
    Solid cmd ∧ verbOf cmd = .sb := by
  rcases h with h | h
  · exact ⟨solid_of_lower (by decide +kernel) h, by rw [verbOf, h]; decide +kernel⟩
  · exact ⟨solid_of_lower (by decide +kernel) h, by rw [verbOf, h]; decide +kernel⟩

lemma SetLine.words (h : SetLine key value line) (hkey : Solid key) (hvalue : Storable value) :
    ∃ name text rest, Zest.words line = name :: ⟨key, text⟩ :: rest ∧ verbOf name.text = .s ∧
      ∃ first more, rest = ⟨first, value⟩ :: more := by
  obtain ⟨lead, cmd, gap, gap', tail, rfl, hlead, hcmd, hgap, hgap', htail⟩ := h
  obtain ⟨hsolid, hverb⟩ := spelled_set hcmd
  have hne : value ≠ [] := by
    obtain ⟨b, rest, rfl, -⟩ := hvalue.starts
    simp
  have hend : ∀ b, (cmd ++ (gap ++ (key ++ (gap' ++ value)))).getLast? = some b →
      isLineEnd b = false := by
    intro b hb
    rw [← List.append_assoc, ← List.append_assoc, ← List.append_assoc,
      List.getLast?_append_of_ne_nil _ hne] at hb
    exact hvalue.ends b hb
  obtain ⟨first, more, hfirst⟩ := wordsIn_first hne
  rw [words_line hlead (hsolid.starts _) hend htail, wordsIn_gap hsolid hgap (hkey.starts _),
    wordsIn_gap hkey hgap' hvalue.starts, hfirst]
  exact ⟨_, _, _, rfl, hverb, first, more, rfl⟩

lemma GetLine.words (h : GetLine key line) (hkey : Solid key) :
    ∃ name text, Zest.words line = [name, ⟨key, text⟩] ∧ verbOf name.text = .g := by
  obtain ⟨lead, cmd, gap, tail, rfl, hlead, hcmd, hgap, htail⟩ := h
  obtain ⟨hsolid, hverb⟩ := spelled_get hcmd
  have hend : ∀ b, (cmd ++ (gap ++ key)).getLast? = some b → isLineEnd b = false := by
    intro b hb
    rw [← List.append_assoc, List.getLast?_append_of_ne_nil _ hkey.1] at hb
    exact hkey.lineEnd b hb
  have hstart : StartsSolid key := by simpa using hkey.starts []
  rw [words_line hlead (hsolid.starts _) hend htail, wordsIn_gap hsolid hgap hstart,
    wordsIn_word hkey]
  exact ⟨_, _, rfl, hverb⟩

lemma StartsSolid.append (h : StartsSolid value) (xs : Bytes) : StartsSolid (value ++ xs) := by
  obtain ⟨b, rest, rfl, hb⟩ := h
  exact ⟨b, rest ++ xs, rfl, hb⟩

lemma EndsSolid.ne_nil (h : EndsSolid value) : value ≠ [] := by
  rintro rfl
  obtain ⟨b, hb, -⟩ := h
  cases hb

lemma EndsSolid.lineEnd (h : EndsSolid value) : ∀ b, value.getLast? = some b →
    isLineEnd b = false := by
  obtain ⟨b, hb, hsolid⟩ := h
  intro c hc
  obtain rfl : b = c := Option.some.inj (hb.symm.trans hc)
  cases hend : isLineEnd b with
  | false => rfl
  | true =>
    rw [isBlank_of_lineEnd hend] at hsolid
    cases hsolid

lemma words_solid (hs : StartsSolid value) (he : EndsSolid value) :
    words value = wordsIn value := by
  have hlead : Blanks [] := fun b hb => by cases hb
  have htail : LineEnds [] := fun b hb => by cases hb
  have h := words_line hlead hs he.lineEnd htail
  simpa using h

lemma SetByLine.words {mode pattern rest : Bytes} (h : SetByLine mode pattern rest line)
    (hmode : Solid mode) (hpattern : Solid pattern) (hs : StartsSolid rest) (he : EndsSolid rest) :
    ∃ name text text', Zest.words line = name :: ⟨mode, text⟩ :: ⟨pattern, text'⟩ :: wordsIn rest ∧
      verbOf name.text = .sb := by
  obtain ⟨lead, cmd, gap, gap', gap'', tail, rfl, hlead, hcmd, hgap, hgap', hgap'', htail⟩ := h
  obtain ⟨hsolid, hverb⟩ := spelled_setBy hcmd
  have hend : ∀ b, (cmd ++ (gap ++ (mode ++ (gap' ++ (pattern ++ (gap'' ++ rest)))))).getLast? =
      some b → isLineEnd b = false := by
    intro b hb
    simp only [← List.append_assoc] at hb
    rw [List.getLast?_append_of_ne_nil _ he.ne_nil] at hb
    exact he.lineEnd b hb
  rw [words_line hlead (hsolid.starts _) hend htail, wordsIn_gap hsolid hgap (hmode.starts _),
    wordsIn_gap hmode hgap' (hpattern.starts _), wordsIn_gap hpattern hgap'' hs]
  exact ⟨_, _, _, rfl, hverb⟩

lemma setByValue_plain {first : Word} {ws : List Word} (h : ws.length < 3 ∨
    ∀ before lim last, ws = before ++ [lim, last] → toLowerStr lim.text ≠ ascii "lim") :
    setByValue first ws = (first.suffix, some UINT_MAX) := by
  rw [setByValue]
  rcases hrev : ws.reverse with _ | ⟨last, _ | ⟨lim, _ | ⟨lastValue, more⟩⟩⟩
  · rfl
  · rfl
  · rfl
  · have hws : ws = (more.reverse ++ [lastValue]) ++ [lim, last] := by
      rw [← List.reverse_reverse ws, hrev]
      simp
    rcases h with h | h
    · rw [hws] at h
      simp at h
    · exact if_neg (h _ lim last hws)

lemma setByValue_limited {first lastValue lim num : Word} {before : List Word}
    (hlim : toLowerStr lim.text = ascii "lim") :
    setByValue first (before ++ [lastValue, lim, num]) =
      (first.suffix.take (first.suffix.length - lastValue.suffix.length + lastValue.text.length),
        parseUInt (2 ^ 32) num.text) := by
  have hrev : (before ++ [lastValue, lim, num]).reverse =
      num :: lim :: lastValue :: before.reverse := by simp
  rw [setByValue, hrev]
  exact if_pos hlim

lemma digit_solid {d : Byte} (h : isDigit d = true) : isBlank d = false := by
  cases hb : isBlank d with
  | false => rfl
  | true =>
    simp only [isBlank, Bool.or_eq_true, decide_eq_true_eq] at hb
    rcases hb with ((rfl | rfl) | rfl) | rfl
    all_goals exact absurd h (by decide)

lemma parseUInt_decimal {digits : Bytes} {bound : ℕ} (hne : digits ≠ [])
    (hdigits : ∀ d ∈ digits, isDigit d = true)
    (hlt : decimal digits < bound) : parseUInt bound digits = some (decimal digits) := by
  have htake : digits.takeWhile isDigit = digits := List.takeWhile_eq_self_iff.mpr hdigits
  rw [parseUInt, if_pos (List.all_eq_true.mpr hdigits), fromChars]
  simp only [htake]
  exact if_neg (by simp [hne, hlt])

namespace ZestDB

variable {n : ℕ} [NeZero n] {pf : Platform} {db : ZestDB n} {c : Call n}

omit [NeZero n] in
lemma asked_set (h : SetLine key value c.command) (hkey : Solid key) (hvalue : Storable value)
    (hrole : c.role ≠ .Read) :
    asked pf c = some (key, .write (.set key value)) := by
  obtain ⟨name, text, rest, hw, hverb, first, more, rfl⟩ := h.words hkey hvalue
  have hdenied : ¬ ((verbOf name.text).denied c.role = true) := by
    rw [hverb]
    simp [Verb.denied, Verb.isWrite, Verb.isAdmin, hrole]
  simp only [asked, hw]
  rw [if_neg hdenied, hverb]
  rfl

omit [NeZero n] in
lemma asked_get (h : GetLine key c.command) (hkey : Solid key) :
    asked pf c = some (key, .get key) := by
  obtain ⟨name, text, hw, hverb⟩ := h.words hkey
  have hdenied : ¬ ((verbOf name.text).denied c.role = true) := by
    rw [hverb]
    simp [Verb.denied, Verb.isWrite, Verb.isAdmin]
  simp only [asked, hw]
  rw [if_neg hdenied, hverb]
  rfl

omit [NeZero n] in
lemma asked_setBy {name first : Word} {mode pattern text text' : Bytes} {more : List Word}
    {value : Value} {limit : ℕ}
    (hw : words c.command = name :: ⟨mode, text⟩ :: ⟨pattern, text'⟩ :: first :: more)
    (hverb : verbOf name.text = .sb)
    (hrole : c.role ≠ .Read) (hvalue : setByValue first (first :: more) = (value, some limit)) :
    asked pf c = (createValidationRule pf (toLowerStr mode) pattern).map fun func =>
      (mode, .write (.setBy ⟨func, limit⟩ value)) := by
  have hdenied : ¬ ((verbOf name.text).denied c.role = true) := by
    rw [hverb]
    simp [Verb.denied, Verb.isWrite, Verb.isAdmin, hrole]
  simp only [asked, hw]
  rw [if_neg hdenied, hverb]
  simp only [request, hvalue, makeRule]
  cases createValidationRule pf (toLowerStr mode) pattern with
  | none => rfl
  | some func => rfl

omit [NeZero n] in
/-- A `setby` line asks for the value as it stands in the line, without a limit, unless its last
words are a limit. -/
theorem setBy_line {mode pattern value : Bytes} (hmode : Solid mode) (hpattern : Solid pattern)
    (hs : StartsSolid value) (he : EndsSolid value) (hrole : c.role ≠ .Read) :
    (∀ gap lim gap' digits : Bytes, Gap gap → toLowerStr lim = ascii "lim" → Gap gap' →
      digits ≠ [] → (∀ d ∈ digits, isDigit d = true) → decimal digits < 2 ^ 32 →
      SetByLine mode pattern (value ++ (gap ++ (lim ++ (gap' ++ digits)))) c.command →
      asked pf c = (createValidationRule pf (toLowerStr mode) pattern).map fun func =>
        (mode, .write (.setBy ⟨func, decimal digits⟩ value))) ∧
    (SetByLine mode pattern value c.command →
      ((words value).length < 3 ∨ ∀ before lim last, words value = before ++ [lim, last] →
          toLowerStr lim.text ≠ ascii "lim") →
      asked pf c = (createValidationRule pf (toLowerStr mode) pattern).map fun func =>
        (mode, .write (.setBy ⟨func, UINT_MAX⟩ value))) := by
  constructor
  · intro gap lim gap' digits hgap hlim hgap' hne hdigits hlt hline
    have hlimSolid : Solid lim := solid_of_lower (by decide +kernel) hlim
    have hdigitsSolid : Solid digits := ⟨hne, fun d hd => digit_solid (hdigits d hd)⟩
    obtain ⟨t, ht⟩ : ∃ t, t = gap ++ (lim ++ (gap' ++ digits)) := ⟨_, rfl⟩
    have hdrop : t.dropWhile isBlank = lim ++ (gap' ++ digits) := by
      rw [ht, hgap.2.dropWhile, (hlimSolid.starts _).dropWhile]
    have hend : EndsSolid (value ++ t) := by
      rw [ht, ← List.append_assoc, ← List.append_assoc, ← List.append_assoc, endsSolid_append hne]
      exact hdigitsSolid.ends
    rw [← ht] at hline
    obtain ⟨name, text, text', hw, hverb⟩ := hline.words hmode hpattern (hs.append t) hend
    obtain ⟨firstText, more, hfirst⟩ := wordsIn_first hend.ne_nil
    obtain ⟨before, x, hlast, hx⟩ := wordsIn_last hs he
    have hstart : StartsSolid digits := by simpa using hdigitsSolid.starts []
    have hwords : wordsIn (value ++ t) =
        (wordsIn value).map (Word.extend t) ++ [⟨lim, lim ++ (gap' ++ digits)⟩,
          ⟨digits, digits⟩] := by
      rw [wordsIn_append hs he (by rw [ht]; exact hgap.starts _), hdrop,
        wordsIn_gap hlimSolid hgap' hstart, wordsIn_word hdigitsSolid]
    rw [hfirst] at hw
    apply asked_setBy hw hverb hrole
    have hsplit : (⟨firstText, value ++ t⟩ :: more : List Word) =
        before.map (Word.extend t) ++ [⟨x, x ++ t⟩, ⟨lim, lim ++ (gap' ++ digits)⟩,
          ⟨digits, digits⟩] := by
      rw [← hfirst, hwords, hlast]
      simp [Word.extend]
    -- the value ends where the last word before the limit does
    have hcut : (value ++ t).length - (x ++ t).length + x.length = value.length := by
      have hle := hx.length_le
      simp only [List.length_append]
      omega
    rw [hsplit, setByValue_limited hlim]
    dsimp only
    rw [hcut, List.take_left, parseUInt_decimal hne hdigits hlt]
  · intro hline hcond
    obtain ⟨name, text, text', hw, hverb⟩ := hline.words hmode hpattern hs he
    obtain ⟨firstText, more, hfirst⟩ := wordsIn_first he.ne_nil
    rw [words_solid hs he, hfirst] at hcond
    rw [hfirst] at hw
    exact asked_setBy hw hverb hrole (setByValue_plain hcond)

/-- A value that repeats the mode, the pattern and `lim`, and a value that is `lim` and a number. -/
theorem limited_and_plain :
    (asked (n := 1) Op.oneHash { command := ascii "sb SW a a sw lim  x LIM 007\r\n" }).isSome =
        true ∧ (asked (n := 1) Op.oneHash { command := ascii "sb SW a a sw lim  x LIM 007\r\n" } =
        (createValidationRule Op.oneHash (ascii "sw") (ascii "a")).map fun func =>
          (ascii "SW", .write (.setBy ⟨func, 7⟩ (ascii "a sw lim  x")))) ∧
      asked (n := 1) Op.oneHash { command := ascii "setby sw a lim 5" } =
        (createValidationRule Op.oneHash (ascii "sw") (ascii "a")).map fun func =>
          (ascii "sw", .write (.setBy ⟨func, UINT_MAX⟩ (ascii "lim 5"))) := by
  refine ⟨by decide +kernel, ?_, ?_⟩
  · exact (setBy_line (by decide +kernel) (by decide +kernel) ⟨97, _, rfl, rfl⟩
        ⟨120, by decide +kernel, rfl⟩ (by decide)).1
      (ascii " ") (ascii "LIM") (ascii " ") (ascii "007") (by decide +kernel) (by decide +kernel)
      (by decide +kernel) (by decide +kernel) (by decide +kernel) (by decide +kernel)
      ⟨[], ascii "sb", ascii " ", ascii " ", ascii " ", ascii "\r\n", by decide +kernel,
        by decide +kernel, .inr (by decide +kernel), by decide +kernel, by decide +kernel,
        by decide +kernel, by decide +kernel⟩
  · exact (setBy_line (by decide +kernel) (by decide +kernel) ⟨108, _, rfl, rfl⟩
        ⟨53, by decide +kernel, rfl⟩ (by decide)).2
      ⟨[], ascii "setby", ascii " ", ascii " ", ascii " ", [], by decide +kernel, by decide +kernel,
        .inl (by decide +kernel), by decide +kernel, by decide +kernel, by decide +kernel,
        by decide +kernel⟩ (.inl (by decide +kernel))

variable (pf) in
lemma log_shard (key command : Bytes) (syncWal : Bool) (db : ZestDB n) (i : Fin n) :
    ∃ wal, (log pf key command syncWal db).final.shardManager.shards i =
      { db.shardManager.shards i with wal := wal } := by
  have happend : ∃ wal, (ShardManager.appendToWAL pf key command db.shardManager).final.shards i =
      { db.shardManager.shards i with wal := wal } := by
    change ∃ wal, (db.shardManager.setShard _ _).shards i = _
    rw [ShardManager.setShard_shards]
    split_ifs with hi
    · rw [← hi]
      exact ⟨_, rfl⟩
    · exact ⟨_, rfl⟩
  obtain ⟨wal, hwal⟩ := happend
  cases syncWal with
  | false => exact ⟨wal, hwal⟩
  | true =>
    refine ⟨wal.sync, ?_⟩
    change (ShardManager.syncWAL
      (ShardManager.appendToWAL pf key command db.shardManager).final).final.shards i = _
    rw [ShardManager.syncWAL, ShardManager.allShards_final, hwal]
    rfl

lemma log_settings (key command : Bytes) (syncWal : Bool) (db : ZestDB n) :
    (log pf key command syncWal db).final.settings = db.settings := by
  cases syncWal with
  | false => rfl
  | true => rfl

lemma get_putIndex {s : Shard} {e : IndexEntry} (hc : s.cache.Wf) (hne : value ≠ [])
    (hd : s.Designates e value) (wal : WAL) :
    (Shard.get { Shard.putIndex e value s with wal := wal } e.key).1 = ⟨.Success, value, 1⟩ := by
  have hval := LRUCache.get_val (s.cache.put e value) e.key
  simp only [Shard.get, Shard.putIndex]
  cases hf : (s.cache.put e value).find e.key with
  | some ce =>
    rw [hf, Option.getD_some] at hval
    rcases LRUCache.put_find hc hf with ⟨-, rfl⟩ | ⟨hother, -⟩
    · simp only [hval, hd.live_entry, if_true]
    · exact absurd rfl hother
  | none =>
    rw [hf, Option.getD_none] at hval
    have hn : Shard.live (⟨.invalid, []⟩ : CacheEntry).index = false := rfl
    have hsearch : (s.indexManager.insert e).search e.key = e := by
      simp [IndexManager.search, IndexManager.insert, toEntry_self hd.live]
    have hread : s.storageManager.read e = value :=
      (StorageManager.read_of_inBounds hd.ok.inBounds).trans hd.slice
    simp only [hval, hn, Bool.false_eq_true, if_false, hsearch, hd.live_entry, if_true, hread, hne]

lemma set_get {s : Shard} (h : s.Tidy) (hlim : s.WithinLimits) (hv : Shard.ValueOk value)
    (hseg : value.length ≤ s.settings.SegSize) (key : Key) :
    (Shard.set key value s).val = ⟨.Success, Messages.SUCCESS_SET, 1⟩ ∧
      ∀ wal, (Shard.get { (Shard.set key value s).final with wal := wal } key).1 =
        ⟨.Success, value, 1⟩ := by
  obtain ⟨e, t, ts, ha, hmem, hts, hcase⟩ := Shard.append_cases h.storage hlim hv
  rcases hcase with ⟨-, hne, hd⟩ | ⟨hlt, -⟩
  · rw [Shard.set_put ha hne]
    have hcache : t.cache.Wf := by
      obtain ⟨sm, -, rfl⟩ := (hts t hmem).storage
      exact h.cache
    exact ⟨rfl, get_putIndex hcache hv.ne_nil (hd key)⟩
  · omega

/-- In every database there can be: a `set` line that the settings and the role allow stores its
value as it stands in the line, and a `get` line of the key is answered with it. -/
theorem set_line_get_line {few : Prop} {config : ConfigFile} {settings : Settings}
    {chs fill : Choices n} (hc : config.Typed)
    (hs : settings.Accepted) (hist : History pf few (new config settings chs fill) db)
    {c c' : Call n}
    (hkey : Solid key) (hvalue : Storable value) (hset : SetLine key value c.command)
    (hget : GetLine key c'.command) (hmaxKey : key.length ≤ db.settings.MaxKeySize)
    (hmaxValue : value.length ≤ db.settings.MaxValueSize)
    (hrole : c.role ≠ .Read) (hreadOnly : db.settings.readOnly = false)
    (hjson : db.settings.jsonOnly = true → pf.accept value = true)
    (hlim : (db.shardManager.shards (ShardManager.getShardId pf key)).WithinLimits)
    (hseg : value.length ≤
      (db.shardManager.shards (ShardManager.getShardId pf key)).settings.SegSize) :
    (execCmd pf c db).val = some ⟨.Success, Messages.SUCCESS_SET, 1⟩ ∧
      (execCmd pf c' (execCmd pf c db).final).val = some ⟨.Success, value, 1⟩ := by
  have hg := hist.tidy (new_tidy hc hs chs fill)
  have hne : value ≠ [] := by
    obtain ⟨b, rest, rfl, -⟩ := hvalue.starts
    simp
  have hr : refusal pf db.settings (!db.replaying) (.set key value) = none := by
    have hjson' : ¬ ((db.settings.jsonOnly && !pf.accept value) = true) := by
      intro h
      rw [Bool.and_eq_true] at h
      simp [hjson h.1] at h
    simp [refusal, hg.replaying, hreadOnly, validateKey, hmaxKey, hne, validateValue,
      hmaxValue, hjson']
  have hv := (refusal_none hg.accepted (by rw [hg.replaying] at hr; exact hr)).1 value rfl
  obtain ⟨hval, hread⟩ := set_get (hg.shards _) hlim hv hseg key
  have hwrite : write pf c.choices (.set key value) db =
      onManager (ShardManager.set pf key value) db := write_accepted hr
  have hanswer : (write pf c.choices (.set key value) db).val =
      ⟨.Success, Messages.SUCCESS_SET, 1⟩ := by
    rw [hwrite]
    exact hval
  have hfinal : (writeAndLog pf c key (.set key value) db).final =
      (log pf key c.command c.syncWal (write pf c.choices (.set key value) db).final).final := by
    rw [writeAndLog_final, hanswer, hwrite]
    have hquiet : (onManager (ShardManager.set pf key value) db).final.replaying = false :=
      hg.replaying
    rw [hquiet]
    rfl
  rw [execCmd_some (asked_set hset hkey hvalue hrole), execCmd_some (asked_get hget hkey)]
  constructor
  · change some (writeAndLog pf c key (.set key value) db).val = _
    rw [writeAndLog_val, hanswer]
  · change some (get pf key (writeAndLog pf c key (.set key value) db).final).val = _
    obtain ⟨wal, hwal⟩ :=
      log_shard pf key c.command c.syncWal (write pf c.choices (.set key value) db).final
      (ShardManager.getShardId pf key)
    have hshard : (write pf c.choices (.set key value) db).final.shardManager.shards
        (ShardManager.getShardId pf key) =
        (Shard.set key value (db.shardManager.shards (ShardManager.getShardId pf key))).final := by
      rw [hwrite]
      exact Function.update_self ..
    have hsettings : (write pf c.choices (.set key value) db).final.settings = db.settings := by
      rw [hwrite]
      rfl
    rw [hshard] at hwal
    rw [hfinal]
    have hvalid : ¬ ((!validateKey (log pf key c.command c.syncWal
        (write pf c.choices (.set key value) db).final).final.settings key) = true) := by
      rw [log_settings, hsettings]
      simpa [validateKey] using hmaxKey
    simp only [get, Traced.get_bind, if_neg hvalid]
    change some (Shard.get ((log pf key c.command c.syncWal
      (write pf c.choices (.set key value) db).final).final.shardManager.shards
      (ShardManager.getShardId pf key)) key).1 = _
    rw [hwal, hread wal]

section Lines

def shoutedLine : Bytes := ascii "\tSeT \tset  set  s \t\r\n"

lemma shoutedLine_set : SetLine (ascii "set") (ascii "set  s \t") shoutedLine :=
  ⟨ascii "\t", ascii "SeT", ascii " \t", ascii "  ",
    ascii "\r\n", by decide +kernel, by decide +kernel,
    .inl (by decide +kernel), by decide +kernel, by decide +kernel, by decide +kernel⟩

lemma getSet_get : GetLine (ascii "set") (ascii "G set") :=
  ⟨[], ascii "G", ascii " ", [], by decide +kernel, by decide +kernel, .inr (by decide +kernel),
    by decide +kernel, by decide +kernel⟩

lemma shouted_storable : Storable (ascii "set  s \t") :=
  ⟨⟨115, ascii "et  s \t", by decide +kernel, by decide⟩, by
    intro b hb
    obtain rfl : (9 : Byte) = b := by
      have hlast : (ascii "set  s \t").getLast? = some 9 := by decide +kernel
      rw [hlast] at hb
      exact Option.some.inj hb
    decide⟩

theorem shoutedLine_stored :
    (execCmd Op.oneHash { command := ascii "G set" }
      (execCmd Op.oneHash { command := shoutedLine } plainStart).final).val =
      some ⟨.Success, ascii "set  s \t", 1⟩ := by
  have hstored : (execCmd Op.oneHash { command := shoutedLine } plainStart).val =
      some ⟨.Success, Messages.SUCCESS_SET, 1⟩ ∧ (execCmd Op.oneHash { command := ascii "G set" }
        (execCmd Op.oneHash { command := shoutedLine } plainStart).final).val =
        some ⟨.Success, ascii "set  s \t", 1⟩ :=
    set_line_get_line ConfigFile.defaults_typed default_accepted
    (.refl plainStart : History Op.oneHash False _ _)
    (by decide +kernel) shouted_storable shoutedLine_set
      getSet_get (by decide +kernel) (by decide +kernel) (by decide) rfl (fun h => (by cases h))
      (by decide +kernel)
      (by decide +kernel)
  exact hstored.2

def readOnlyStart : ZestDB 1 :=
  ((Event.exec { command := ascii "scfg readonly true" }).run Op.oneHash plainStart).final

theorem readOnly_not_stored : History Op.oneHash True plainStart readOnlyStart ∧
    (SetLine (ascii "set") (ascii "set  s \t") shoutedLine ∧
      GetLine (ascii "set") (ascii "G set")) ∧ (execCmd Op.oneHash { command := ascii "G set" }
      (execCmd Op.oneHash { command := shoutedLine } readOnlyStart).final).val =
        some (failure Messages.KEY_NOT_FOUND) :=
  ⟨.tail _ (.refl _) trivial (fun _ => trivial) (by decide +kernel),
    ⟨shoutedLine_set, getSet_get⟩, by decide +kernel⟩

end Lines

end ZestDB

end Zest
