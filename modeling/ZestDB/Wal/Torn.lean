import ZestDB.Wal

/-! Torn WALs: a WAL that is cut anywhere is read as the records it holds whole, and a WAL that ends
in a part of a record loses records that are appended to it. -/

namespace Zest

open Foundations

lemma leValue_append (xs ys : Bytes) :
    leValue (xs ++ ys) = leValue xs + 256 ^ xs.length * leValue ys := by
  induction xs with
  | nil => simp [leValue]
  | cons x xs ih =>
    simp only [List.cons_append, leValue, ih, List.length_cons, pow_succ]
    ring

namespace WalEntry

variable {e r x : WalEntry} {is p rest : Bytes}

lemma take_some (h : take is = some (x, rest)) :
    x.cmd.length = leValue (is.take 4) ∧ x.cmd.length + 12 ≤ is.length ∧
      ∃ j, x.cmd.length + 12 ≤ j ∧ rest = is.drop j := by
  obtain ⟨size, hsize⟩ : ∃ size, size = leValue (is.take 4) := ⟨_, rfl⟩
  simp only [take, ← hsize] at h
  by_cases hc : is.length < 4 ∨ (is.drop 4).length < size ∨ ((is.drop 4).drop size).length < 8
  · rw [if_pos hc] at h
    cases h
  · rw [if_neg hc, Option.some.injEq, Prod.mk.injEq] at h
    obtain ⟨rfl, rfl⟩ := h
    simp only [not_or, not_lt, List.length_drop] at hc
    have hlen : ((is.drop 4).take size).length = size := by
      rw [List.length_take, List.length_drop]
      omega
    dsimp only
    refine ⟨hlen.trans hsize, by omega, ?_⟩
    rw [hlen, List.drop_drop, List.drop_drop]
    split_ifs
    · refine ⟨size + 13, by omega, ?_⟩
      rw [← List.drop_one, List.drop_drop]
      congr 1
      omega
    · refine ⟨size + 12, le_rfl, ?_⟩
      congr 1
      omega

lemma take_fits (h : take is = some (x, rest)) : x.Fits := by
  have hshort : ∀ (ys : Bytes) (k : ℕ), leValue (ys.take k) < 256 ^ k := fun ys k =>
    (leValue_lt _).trans_le (Nat.pow_le_pow_right (by decide) (ys.length_take_le k))
  refine ⟨?_, ?_⟩
  · rw [(take_some h).1]
    exact hshort is 4
  · obtain ⟨ys, hys⟩ : ∃ ys : Bytes, x.seq = leValue (ys.take 8) := by
      simp only [take] at h
      split_ifs at h
      · exact ⟨_, by rw [← (Prod.mk.inj (Option.some.inj h)).1]⟩
      · exact ⟨_, by rw [← (Prod.mk.inj (Option.some.inj h)).1]⟩
    rw [hys]
    exact hshort ys 8

lemma fits_of_mem_decodeLog {fuel : ℕ} (h : x ∈ (decodeLog take fuel is).1) : x.Fits := by
  induction fuel generalizing is with
  | zero => simp [decodeLog] at h
  | succ fuel ih =>
    rw [decodeLog] at h
    cases ht : take is with
    | none => simp [ht] at h
    | some yr =>
      obtain ⟨y, rest⟩ := yr
      simp only [ht, List.mem_cons] at h
      rcases h with rfl | h
      · exact take_fits ht
      · exact ih h

lemma length_of_mem_decodeLog {fuel : ℕ} (h : x ∈ (decodeLog take fuel is).1) :
    x.cmd.length + 12 ≤ is.length := by
  induction fuel generalizing is with
  | zero => simp [decodeLog] at h
  | succ fuel ih =>
    rw [decodeLog] at h
    cases ht : take is with
    | none => simp [ht] at h
    | some yr =>
      obtain ⟨y, rest⟩ := yr
      simp only [ht, List.mem_cons] at h
      obtain ⟨-, hy, j, -, rfl⟩ := take_some ht
      rcases h with rfl | h
      · exact hy
      · have := ih h
        rw [List.length_drop] at this
        omega

lemma encode_length (e : WalEntry) : (walCodec.encode e).length = e.cmd.length + 13 := by
  change (e.core ++ [NEWLINE]).length = _
  rw [List.length_append, core_length]
  rfl

lemma encode_short {c : Byte} {cs : Bytes} (hc : e.cmd = c :: cs) (hl : e.cmd.length < 256) :
    ∃ tail, walCodec.encode e = [Fin.ofNat 256 e.cmd.length, 0, 0, 0, c] ++ tail := by
  have hz : e.cmd.length / 256 = 0 := Nat.div_eq_of_lt hl
  refine ⟨cs ++ leBytes 8 e.seq ++ [NEWLINE], ?_⟩
  change leBytes 4 e.cmd.length ++ e.cmd ++ leBytes 8 e.seq ++ [NEWLINE] = _
  simp only [leBytes, hz, Nat.zero_div]
  rw [hc]
  rfl

lemma not_mem_inside (h0 : e.cmd ≠ []) (hl : e.cmd.length < 256) {j : ℕ} (hj : 1 ≤ j) (fuel : ℕ) :
    e ∉ (decodeLog take fuel ((walCodec.encode e).drop j)).1 := by
  intro hmem
  obtain ⟨c, cs, hc⟩ := List.exists_cons_of_ne_nil h0
  obtain ⟨tail, htail⟩ := encode_short hc hl
  have hlen := encode_length e
  have hpos := List.length_pos_of_ne_nil h0
  by_cases hj1 : j = 1
  · subst hj1
    cases fuel with
    | zero => simp [decodeLog] at hmem
    | succ fuel =>
      rw [decodeLog] at hmem
      cases ht : take ((walCodec.encode e).drop 1) with
      | none =>
        simp only [ht] at hmem
        cases hmem
      | some yr =>
        obtain ⟨y, rest⟩ := yr
        simp only [ht, List.mem_cons] at hmem
        obtain ⟨hy, -, i, hi, rfl⟩ := take_some ht
        rcases hmem with rfl | hmem
        · rw [htail] at hy
          have hsize : leValue
              (List.take 4 (List.drop 1 ([Fin.ofNat 256 e.cmd.length, 0, 0, 0, c] ++ tail))) =
              256 * (256 * (256 * c.val)) := by
            simp [leValue]
          omega
        · have := length_of_mem_decodeLog hmem
          rw [List.length_drop, List.length_drop, hlen] at this
          omega
  · have := length_of_mem_decodeLog hmem
    rw [List.length_drop, hlen] at this
    omega

lemma part_size {c : Byte} {cs : Bytes} (hp : 0 < p.length) (h4 : p.length < 4)
    (hc : e.cmd = c :: cs)
    (hl : e.cmd.length < 256) : 256 * e.cmd.length ≤ leValue ((p ++ walCodec.encode e).take 4) := by
  obtain ⟨tail, htail⟩ := encode_short hc hl
  obtain ⟨m, hm⟩ : ∃ m, 4 - p.length = m + 1 := ⟨3 - p.length, by omega⟩
  have hfirst : e.cmd.length ≤ leValue ((walCodec.encode e).take (4 - p.length)) := by
    rw [htail, hm]
    simp only [List.cons_append, List.take_succ_cons, leValue, Fin.val_ofNat, Nat.mod_eq_of_lt hl]
    omega
  have hpow : 256 ^ 1 ≤ 256 ^ p.length := Nat.pow_le_pow_right (by norm_num) hp
  rw [List.take_append, List.take_of_length_le (by omega), leValue_append]
  calc 256 * e.cmd.length ≤ 256 ^ p.length * leValue ((walCodec.encode e).take (4 - p.length)) :=
        Nat.mul_le_mul (by simpa using hpow) hfirst
    _ ≤ _ := Nat.le_add_left _ _

lemma not_mem_after_part (hr : r.Fits) (hp : p <+: r.core) (hne : p ≠ []) (hcut : p ≠ r.core)
    (h0 : e.cmd ≠ []) (hl : e.cmd.length < 256) (hlen : e.cmd.length ≠ r.cmd.length) (fuel : ℕ) :
    e ∉ (decodeLog take fuel (p ++ walCodec.encode e)).1 := by
  intro hmem
  obtain ⟨c, cs, hc⟩ := List.exists_cons_of_ne_nil h0
  obtain ⟨tail, htail⟩ := encode_short hc hl
  have hpos := List.length_pos_of_ne_nil h0
  have hplen : p.length < r.cmd.length + 12 := by
    rw [← core_length]
    exact lt_of_le_of_ne hp.length_le fun h => hcut (hp.eq_of_length h)
  have hppos := List.length_pos_of_ne_nil hne
  cases fuel with
  | zero => simp [decodeLog] at hmem
  | succ fuel =>
    rw [decodeLog] at hmem
    cases ht : take (p ++ walCodec.encode e) with
    | none =>
      simp only [ht] at hmem
      cases hmem
    | some yr =>
      obtain ⟨y, rest⟩ := yr
      simp only [ht, List.mem_cons] at hmem
      obtain ⟨hy, -, i, hi, rfl⟩ := take_some ht
      -- the length the reader finds is the one of the cut record, or too large for the short one
      have hsize : e.cmd.length ≠ y.cmd.length ∧ p.length < y.cmd.length + 12 := by
        rw [hy]
        by_cases h4 : 4 ≤ p.length
        · obtain ⟨q, hq⟩ := hp
          have hvalue : leValue ((p ++ walCodec.encode e).take 4) = r.cmd.length := by
            rw [List.take_append_of_le_length h4, ← core_size r hr [], List.append_nil, ← hq,
              List.take_append_of_le_length h4]
          omega
        · have hge := part_size hppos (by omega) hc hl
          omega
      rcases hmem with rfl | hmem
      · exact hsize.1 rfl
      · rw [List.drop_append, List.drop_of_length_le (by omega), List.nil_append] at hmem
        exact not_mem_inside h0 hl (by omega) fuel hmem

lemma not_mem_after_core (hr : r.Fits) (hl : e.cmd.length = 10) (hne : e.cmd ≠ r.cmd) (fuel : ℕ) :
    e ∉ (decodeLog take fuel (r.core ++ walCodec.encode e)).1 := by
  intro hmem
  have h0 : e.cmd ≠ [] := List.ne_nil_of_length_pos (by omega)
  obtain ⟨c, cs, hc⟩ := List.exists_cons_of_ne_nil h0
  obtain ⟨tail, htail⟩ := encode_short hc (by omega)
  cases fuel with
  | zero => simp [decodeLog] at hmem
  | succ fuel =>
    have hhead : (walCodec.encode e).head? = some NEWLINE := by
      rw [htail, hl]
      rfl
    rw [decodeLog, take_core r hr, if_pos hhead, ← List.drop_one] at hmem
    rcases List.mem_cons.mp hmem with rfl | hmem
    · exact hne rfl
    · exact not_mem_inside h0 (by omega) le_rfl fuel hmem

def numbered (seq : ℕ) : List Bytes → List WalEntry
  | [] => []
  | cmd :: cmds => ⟨cmd, seq⟩ :: numbered (seq + 1) cmds

end WalEntry

namespace WAL

variable {wal : WAL} {rs : List WalEntry} {r : WalEntry} {p : Bytes} {seq : ℕ}

def appendAll (wal : WAL) (es : List WalEntry) : WAL :=
  es.foldl (fun wal e => wal.append e.cmd e.seq) wal

/-- All commands that are logged next are found again, after the records `rs`. -/
def Legible (wal : WAL) (rs : List WalEntry) (seq : ℕ) : Prop :=
  ∀ cmds : List Bytes, (∀ cmd ∈ cmds, cmd.length < 2 ^ 32) → seq + cmds.length ≤ 2 ^ 64 →
    (rs ++ WalEntry.numbered seq cmds).Sublist (wal.appendAll (WalEntry.numbered seq cmds)).getCmds

lemma appendAll_content (wal : WAL) {es : List WalEntry} (hes : ∀ e ∈ es, e.Fits) :
    (wal.appendAll es).file.content = wal.file.content ++ walCodec.encodeAll es := by
  induction es generalizing wal with
  | nil => exact (List.append_nil _).symm
  | cons e es ih =>
    have hstep : (wal.append e.cmd e.seq).file.content = wal.file.content ++ walCodec.encode e := by
      rw [append_file, BufferedFile.content_append, Nat.mod_eq_of_lt (hes e (by simp)).cmd,
        List.take_length]
    calc ((wal.append e.cmd e.seq).appendAll es).file.content
        = (wal.append e.cmd e.seq).file.content ++ walCodec.encodeAll es :=
          ih _ fun a ha => hes a (by simp [ha])
      _ = _ := by rw [hstep, List.append_assoc, RecordCodec.encodeAll_cons]

/-- The file of the appended records, cut after `k` bytes, is read as the records whose size,
command and number end there or before. -/
theorem getCmds_cut {es : List WalEntry} (hes : ∀ e ∈ es, e.Fits) :
    (∀ k, (openWal (((openWal []).appendAll es).file.content.take k)).getCmds =
      walCodec.whole es k) ∧ ((openWal []).appendAll es).getCmds = es := by
  have hcontent : ((openWal []).appendAll es).file.content = walCodec.encodeAll es :=
    appendAll_content _ hes
  constructor
  · intro k
    rw [hcontent, getCmds, openWal, BufferedFile.content_ofContent]
    exact walCodec.decodeAll_take hes k
  · rw [getCmds, hcontent, walCodec.decodeAll_encodeAll es hes]

def twoRecords : List WalEntry := [⟨[10, 0], 7⟩, ⟨[], 8⟩]

lemma twoRecords_fit : ∀ e ∈ twoRecords, e.Fits := by
  intro e he
  simp only [twoRecords, List.mem_cons, List.not_mem_nil, or_false] at he
  rcases he with rfl | rfl
  · exact ⟨by decide, by decide⟩
  · exact ⟨by decide, by decide⟩

theorem twoRecords_cut :
    (openWal (((openWal []).appendAll twoRecords).file.content.take 14)).getCmds = [⟨[10, 0], 7⟩] :=
  ((getCmds_cut twoRecords_fit).1 14).trans (by decide +kernel)

lemma fits_of_mem_getCmds {e : WalEntry} (h : e ∈ wal.getCmds) : e.Fits :=
  WalEntry.fits_of_mem_decodeLog h

lemma append_unbroken (h : walCodec.encodeAll wal.getCmds = wal.file.content) {cmd : Bytes}
    {seq : ℕ} (hl : cmd.length < 2 ^ 32) (hs : seq < 2 ^ 64) :
    (wal.append cmd seq).getCmds = wal.getCmds ++ [⟨cmd, seq⟩] ∧
      walCodec.encodeAll (wal.append cmd seq).getCmds = (wal.append cmd seq).file.content := by
  obtain ⟨es, hes⟩ : ∃ es, es = wal.getCmds ++ [⟨cmd, seq⟩] := ⟨_, rfl⟩
  have hfits : ∀ e ∈ es, e.Fits := by
    intro e he
    rw [hes] at he
    rcases List.mem_append.mp he with he | he
    · exact fits_of_mem_getCmds he
    · rw [List.mem_singleton.mp he]
      exact ⟨hl, hs⟩
  have hcontent : (wal.append cmd seq).file.content = walCodec.encodeAll es := by
    rw [append_file, BufferedFile.content_append, Nat.mod_eq_of_lt hl, List.take_length, ← h, hes,
      RecordCodec.encodeAll_append, RecordCodec.encodeAll_cons, RecordCodec.encodeAll_nil,
      List.append_nil]
  have hcmds : (wal.append cmd seq).getCmds = es := by
    rw [getCmds, hcontent, walCodec.decodeAll_encodeAll es hfits]
  exact ⟨hcmds.trans hes, by rw [hcmds, hcontent]⟩

structure Below (wal : WAL) (seq : ℕ) : Prop where
  unbroken : walCodec.encodeAll wal.getCmds = wal.file.content
  lt : ∀ e ∈ wal.getCmds, e.seq < seq

lemma below_of_nil (h : wal.file.content = []) (seq : ℕ) : wal.Below seq := by
  have hcmds := getCmds_nil h
  refine ⟨by rw [hcmds, h]; rfl, fun e he => ?_⟩
  rw [hcmds] at he
  cases he

lemma Below.mono {seq seq' : ℕ} (h : wal.Below seq) (hle : seq ≤ seq') : wal.Below seq' :=
  ⟨h.unbroken, fun e he => (h.lt e he).trans_le hle⟩

lemma Below.append {cmd : Bytes} {seq : ℕ} (h : wal.Below seq) (hl : cmd.length < 2 ^ 32)
    (hs : seq < 2 ^ 64) :
    (wal.append cmd seq).Below (seq + 1) := by
  obtain ⟨hcmds, hnew⟩ := append_unbroken h.unbroken hl hs
  refine ⟨hnew, fun e he => ?_⟩
  rw [hcmds] at he
  rcases List.mem_append.mp he with he | he
  · exact (h.lt e he).trans (Nat.lt_succ_self _)
  · rw [List.mem_singleton.mp he]
    exact Nat.lt_succ_self _

variable (seq) in
lemma getCmds_append (hrs : ∀ e ∈ rs, e.Fits) (hwal : wal.file.content = walCodec.encodeAll rs ++ p)
    {cmd : Bytes} (hl : cmd.length < 2 ^ 32) :
    ∃ fuel, (wal.append cmd seq).getCmds =
      rs ++ (decodeLog WalEntry.take fuel (p ++ walCodec.encode ⟨cmd, seq⟩)).1 := by
  have hcontent : (wal.append cmd seq).file.content =
      walCodec.encodeAll rs ++ (p ++ walCodec.encode ⟨cmd, seq⟩) := by
    rw [append_file, BufferedFile.content_append, hwal, Nat.mod_eq_of_lt hl, List.take_length,
      List.append_assoc]
  obtain ⟨fuel, hf⟩ := Nat.exists_eq_add_of_le
    (show rs.length ≤ (walCodec.encodeAll rs ++ (p ++ walCodec.encode ⟨cmd, seq⟩)).length by
      rw [List.length_append]
      exact (walCodec.length_le_encodeAll rs).trans (Nat.le_add_right _ _))
  refine ⟨fuel, ?_⟩
  rw [getCmds, hcontent, RecordCodec.decodeAll, hf, walCodec.decodeLog_append rs hrs]
  rfl

lemma not_legible_of_lost (hrs : ∀ e ∈ rs, e.Fits)
    (hwal : wal.file.content = walCodec.encodeAll rs ++ p)
    (hseq : seq < 2 ^ 64) {cmd : Bytes} (hl : cmd.length < 2 ^ 32)
    (hlost : ∀ fuel, (⟨cmd, seq⟩ : WalEntry) ∉
      (decodeLog WalEntry.take fuel (p ++ walCodec.encode ⟨cmd, seq⟩)).1) :
    ¬ Legible wal rs seq := by
  intro h
  have hsub : (rs ++ [(⟨cmd, seq⟩ : WalEntry)]).Sublist (wal.append cmd seq).getCmds :=
    h [cmd] (by simpa using hl) (by simp; omega)
  obtain ⟨fuel, hcmds⟩ := getCmds_append seq hrs hwal hl
  have hcount := hsub.count_le (⟨cmd, seq⟩ : WalEntry)
  rw [hcmds, List.count_append, List.count_append,
    List.count_eq_zero_of_not_mem (hlost fuel)] at hcount
  simp at hcount

/-- A WAL that ends in an incomplete record loses a command that is logged next, wherever the record
was cut. -/
theorem torn_not_legible (hrs : ∀ e ∈ rs, e.Fits) (hr : r.Fits) (hp : p <+: walCodec.encode r)
    (hne : p ≠ [])
    (hcut : p ≠ walCodec.encode r) (hwal : wal.file.content = walCodec.encodeAll rs ++ p)
    (hseq : seq < 2 ^ 64) :
    ¬ Legible wal rs seq := by
  have hcore : p <+: r.core := by
    rcases List.prefix_concat_iff.mp (show p <+: r.core ++ [WalEntry.NEWLINE] from hp) with h | h
    · exact absurd h hcut
    · exact h
  by_cases hwhole : p = r.core
  · obtain ⟨cmd, hl, hdiff⟩ : ∃ cmd : Bytes, cmd.length = 10 ∧ cmd ≠ r.cmd := by
      by_cases h : r.cmd = ascii "set k xxxx"
      · exact ⟨ascii "set k yyyy", rfl, by rw [h]; decide⟩
      · exact ⟨ascii "set k xxxx", rfl, fun h' => h h'.symm⟩
    refine not_legible_of_lost hrs hwal hseq (hl.trans_lt (by decide)) fun fuel => ?_
    rw [hwhole]
    exact WalEntry.not_mem_after_core hr hl hdiff fuel
  · obtain ⟨cmd, h0, hl, hdiff⟩ : ∃ cmd : Bytes, cmd ≠ [] ∧ cmd.length < 256 ∧
        cmd.length ≠ r.cmd.length := by
      by_cases h : r.cmd.length = 10
      · exact ⟨ascii "del kk", by decide, by decide, by rw [h]; decide⟩
      · exact ⟨ascii "set k xxxx", by decide, by decide, fun h' => h h'.symm⟩
    exact not_legible_of_lost hrs hwal hseq (hl.trans (by decide))
      fun fuel => WalEntry.not_mem_after_part hr hcore hne hwhole h0 hl hdiff fuel

def oneByte : WAL := openWal [7]

theorem oneByte_torn : ¬ Legible oneByte [] 3 :=
  torn_not_legible (r := ⟨ascii "set a x", 2⟩) (by simp) ⟨by decide, by decide⟩ (by decide)
  (by decide) (by decide) rfl
    (by decide)

theorem oneByte_not_legible : ¬ Legible oneByte [] 3 := by
  intro h
  have hsub := h [ascii "set b y"] (by decide) (by decide)
  have hcmds : (oneByte.appendAll (WalEntry.numbered 3 [ascii "set b y"])).getCmds = [] := by
    decide +kernel
  rw [hcmds] at hsub
  simp [WalEntry.numbered] at hsub

end WAL

end Zest
