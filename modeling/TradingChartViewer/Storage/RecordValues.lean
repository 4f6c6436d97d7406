import TradingChartViewer.Storage.RecordBytes

/-!
# The values of records

The bytes of a record read as a `PriceData`, and the file of bytes as the file of its
whole records.

* `int64_bytesOfInt64`, `field_setInt64`: what is written is read;
* `RawData.toPriceData`: the values; `toPriceData_normalizeRecord`: they are
  normalised as the bytes are;
* `saveRecordBytes_values`: on a file of whole records, saving bytes is saving values.
-/

namespace TCV.Storage

open TCV.Domain Lib.Records

/-! ## Integers -/

theorem foldr_digits (n v : Nat) :
    ((List.range n).map fun i => UInt8.ofNat (v / 256 ^ i)).foldr
      (fun b v => (b.toNat : Int) + 256 * v) 0 = (v % 256 ^ n : Nat) := by
  induction n generalizing v with
  | zero => simp [Nat.mod_one]
  | succ n ih =>
    have hshift : (List.map Nat.succ (List.range n)).map (fun i => UInt8.ofNat (v / 256 ^ i)) =
        (List.range n).map fun i => UInt8.ofNat (v / 256 / 256 ^ i) := by
      rw [List.map_map]
      apply List.map_congr_left
      intro i _
      rw [Function.comp_apply, Nat.succ_eq_add_one, Nat.pow_succ', Nat.div_div_eq_div_mul]
    rw [List.range_succ_eq_map, List.map_cons, List.foldr_cons, hshift, ih, Nat.pow_succ',
      Nat.mod_mul, Nat.pow_zero, Nat.div_one, UInt8.toNat_ofNat']
    push_cast
    rfl

theorem int64_bytesOfInt64 {value : Int} (h : -2 ^ 63 ≤ value) (h' : value < 2 ^ 63) :
    int64 (bytesOfInt64 value) = value := by
  unfold int64 bytesOfInt64
  rw [foldr_digits]
  have hv : ((value % 2 ^ 64).toNat : Int) = value % 2 ^ 64 :=
    Int.toNat_of_nonneg (Int.emod_nonneg _ (by decide))
  have hlt : (value % 2 ^ 64).toNat < 256 ^ 8 := by
    have := Int.emod_lt_of_pos value (show (0 : Int) < 2 ^ 64 by decide)
    omega
  rw [Nat.mod_eq_of_lt hlt, hv, show (2 ^ 64 : Int) = (2 ^ 64 : Nat) from rfl, Int.emod_bmod]
  exact Int.bmod_eq_of_le (by omega) (by omega)

theorem length_bytesOfInt64 (value : Int) : (bytesOfInt64 value).length = 8 := by
  rw [bytesOfInt64, List.length_map, List.length_range]

section

variable {r : RawData} {offset : Nat} {h : offset + 8 ≤ sizeofPriceData} {value : Int}

theorem field_setInt64 : RawData.field (r.setInt64 offset h value) offset 8 = bytesOfInt64 value := by
  have hr := r.length_toList
  have ht : (r.toList.take offset).length = offset := by
    rw [List.length_take]
    omega
  unfold RawData.field RawData.setInt64
  dsimp only
  rw [List.append_assoc, List.drop_left' ht, List.take_left' (length_bytesOfInt64 value)]

/-- The bytes elsewhere stay. -/
theorem field_setInt64_of_disjoint {start size : Nat}
    (hd : start + size ≤ offset ∨ offset + 8 ≤ start) :
    RawData.field (r.setInt64 offset h value) start size = r.field start size := by
  have hr := r.length_toList
  have ht : (r.toList.take offset).length = offset := by
    rw [List.length_take]
    omega
  have hb : (r.toList.take offset ++ bytesOfInt64 value).length = offset + 8 := by
    rw [List.length_append, ht, length_bytesOfInt64]
  unfold RawData.field RawData.setInt64
  dsimp only
  rcases hd with hd | hd
  · rw [List.append_assoc, List.drop_append_of_le_length (by omega),
      List.take_append_of_le_length (by rw [List.length_drop]; omega), List.drop_take,
      List.take_take, Nat.min_eq_left (by omega)]
  · rw [List.drop_append, List.drop_eq_nil_of_le (by omega), List.nil_append, List.drop_drop, hb,
      Nat.add_sub_cancel' hd]

end

/-! ## Values -/

def int32 (bytes : List UInt8) : Int :=
  (bytes.foldr (fun b v => (b.toNat : Int) + 256 * v) 0).bmod (2 ^ 32)

/-- The C string that a `char[n]` holds. -/
def cString (bytes : List UInt8) : List Char :=
  (bytes.takeWhile (· ≠ 0)).map fun b => Char.ofNat b.toNat

/-- What the bytes of a `double` stand for. -/
class DoubleBytes where
  value : List UInt8 → Price
  value_zero : value (List.replicate 8 0) = 0

section

variable [DoubleBytes]

open DoubleBytes (value)

def RawData.toPriceData (r : RawData) : PriceData where
  openTime := r.openTime
  openPrice := value (r.field 8 8)
  highPrice := value (r.field 16 8)
  lowPrice := value (r.field 24 8)
  closePrice := value (r.field 32 8)
  volume := value (r.field 40 8)
  closeTime := r.closeTime
  baseAssetVolume := value (r.field 56 8)
  numberOfTrades := int32 (r.field 64 4)
  takerBuyVolume := value (r.field 72 8)
  takerBuyBaseAssetVolume := value (r.field 80 8)
  symbol := cString r.symbol
  interval := cString r.interval

omit [DoubleBytes] in
theorem cString_ne_nil (bytes : List UInt8) :
    decide (cString bytes ≠ []) = bytes.head?.any (· ≠ 0) := by
  cases bytes with
  | nil => rfl
  | cons b bytes =>
    by_cases hb : b = 0 <;> simp [cString, hb]

theorem isValidRecord_values (r : RawData) :
    isValidRecord r.toPriceData = RawData.isValidRecord r := by
  unfold isValidRecord RawData.isValidRecord RawData.toPriceData
  rw [← cString_ne_nil, ← cString_ne_nil]

theorem blank_toPriceData : RawData.blank.toPriceData = PriceData.blank := by
  have h (offset : Nat) (ho : offset + 8 ≤ sizeofPriceData) :
      RawData.field RawData.blank offset 8 = List.replicate 8 0 := by
    unfold RawData.field RawData.blank
    rw [List.drop_replicate, List.take_replicate, Nat.min_eq_left (by omega)]
  unfold RawData.toPriceData PriceData.blank
  simp only [h _ (show 8 + 8 ≤ sizeofPriceData by decide), h _ (show 16 + 8 ≤ sizeofPriceData by decide),
    h _ (show 24 + 8 ≤ sizeofPriceData by decide), h _ (show 32 + 8 ≤ sizeofPriceData by decide),
    h _ (show 40 + 8 ≤ sizeofPriceData by decide), h _ (show 56 + 8 ≤ sizeofPriceData by decide),
    h _ (show 72 + 8 ≤ sizeofPriceData by decide), h _ (show 80 + 8 ≤ sizeofPriceData by decide),
    DoubleBytes.value_zero]
  rfl

/-- The time of a record leaves room for its minute. -/
def RawData.InRange (r : RawData) : Prop := 0 < r.openTime ∧ r.openTime + kMillisPerMinute ≤ 2 ^ 63

theorem toPriceData_setTimes (r : RawData) {openTime closeTime : Int}
    (ho : 0 ≤ openTime ∧ openTime < 2 ^ 63) (hc : 0 ≤ closeTime ∧ closeTime < 2 ^ 63) :
    RawData.toPriceData
        (RawData.setInt64 (r.setInt64 0 (by decide) openTime) 48 (by decide) closeTime) =
      { r.toPriceData with openTime := openTime, closeTime := closeTime } := by
  have hopen : RawData.openTime
      (RawData.setInt64 (r.setInt64 0 (by decide) openTime) 48 (by decide) closeTime) = openTime := by
    unfold RawData.openTime
    rw [field_setInt64_of_disjoint (by omega), field_setInt64,
      int64_bytesOfInt64 (by omega) ho.2]
  have hclose : RawData.closeTime
      (RawData.setInt64 (r.setInt64 0 (by decide) openTime) 48 (by decide) closeTime) =
        closeTime := by
    unfold RawData.closeTime
    rw [field_setInt64, int64_bytesOfInt64 (by omega) hc.2]
  have hfield (start size : Nat) (h₁ : 8 ≤ start) (h₂ : start + size ≤ 48 ∨ 56 ≤ start) :
      RawData.field
        (RawData.setInt64 (r.setInt64 0 (by decide) openTime) 48 (by decide) closeTime) start size =
          r.field start size := by
    rw [field_setInt64_of_disjoint h₂, field_setInt64_of_disjoint (.inr h₁)]
  unfold RawData.toPriceData RawData.symbol RawData.interval
  rw [hopen, hclose]
  simp only [hfield _ _ _ _, Nat.reduceLeDiff, Nat.reduceAdd, true_or, or_true]

/-! ## Saving -/

variable [TimeUtils]

theorem toPriceData_normalizeRecord {r : RawData} (h : r.InRange) :
    RawData.toPriceData r.normalizeRecord = normalizeRecord r.toPriceData := by
  obtain ⟨hpos, hlt⟩ := h
  have hle := floorToMinuteMs_le hpos.le
  have hkm : kMillisPerMinute = 60000 := rfl
  have ho : r.toPriceData.openTime = r.openTime := rfl
  unfold RawData.normalizeRecord normalizeRecord
  rw [ho]
  dsimp only
  split
  · exact toPriceData_setTimes r (by decide) (by decide)
  · exact toPriceData_setTimes r (by omega) (by omega)

def RawSaveState.values (s : RawSaveState) : SaveState :=
  ⟨s.overwrite.map RawData.toPriceData, s.toAppend.map RawData.toPriceData,
    s.lastPersisted.toPriceData, s.hasLast⟩

theorem step_values (s : RawSaveState) {b : RawData} (h : b.InRange) :
    (s.step b).values = saveStep s.values b.toPriceData := by
  have hn := toPriceData_normalizeRecord h
  have hv : isValidRecord (normalizeRecord b.toPriceData) = RawData.isValidRecord b.normalizeRecord := by
    rw [← hn, isValidRecord_values]
  have ho : (normalizeRecord b.toPriceData).openTime = RawData.openTime b.normalizeRecord := by
    rw [← hn]
    rfl
  have hl : s.values.lastPersisted.openTime = s.lastPersisted.openTime := rfl
  have hh : s.values.hasLast = s.hasLast := rfl
  unfold RawSaveState.step saveStep
  dsimp only
  rw [hv, ho, hl, hh, ← hn, apply_ite RawSaveState.values, apply_ite RawSaveState.values,
    apply_ite RawSaveState.values]
  have happ : { s with
      toAppend := s.toAppend ++ [b.normalizeRecord], lastPersisted := b.normalizeRecord
      hasLast := true }.values = { s.values with
      toAppend := s.values.toAppend ++ [RawData.toPriceData b.normalizeRecord]
      lastPersisted := RawData.toPriceData b.normalizeRecord, hasLast := true } := by
    unfold RawSaveState.values
    dsimp only
    rw [List.map_append]
    rfl
  rw [happ]
  rfl

theorem foldl_values {batch : List RawData} (h : ∀ b ∈ batch, RawData.InRange b)
    (s : RawSaveState) :
    (batch.foldl RawSaveState.step s).values =
      (batch.map RawData.toPriceData).foldl saveStep s.values := by
  induction batch generalizing s with
  | nil => rfl
  | cons b batch ih =>
    rw [List.foldl_cons, List.map_cons, List.foldl_cons, ← step_values s (h b List.mem_cons_self)]
    exact ih (fun c hc => h c (List.mem_cons_of_mem _ hc)) _

omit [TimeUtils] in
theorem saveStart_values (old : List RawData) :
    (saveStart (joined old)).values =
      let lastRecord := (old.map RawData.toPriceData).getLast?.getD PriceData.blank
      ⟨none, [], lastRecord, isValidRecord lastRecord⟩ := by
  unfold saveStart RawSaveState.values
  rw [lastRecord_joined (by decide), List.getLast?_map]
  dsimp only
  cases old.getLast? with
  | none =>
    rw [Option.getD_none, Option.map_none, Option.getD_none, blank_toPriceData]
    rfl
  | some last =>
    rw [Option.getD_some, Option.map_some, Option.getD_some, isValidRecord_values]
    rfl

/-- On a file of whole records, saving bytes is saving values. -/
theorem saveRecordBytes_values (old batch : List RawData)
    (h : ∀ b ∈ batch, RawData.InRange b) :
    (readAllRecordBytes (saveRecordBytes (joined old) batch)).map RawData.toPriceData =
      readAllRecords (saveRecords { records := old.map RawData.toPriceData }
        (batch.map RawData.toPriceData)) := by
  have hread (rs : List RawData) : readAllRecordBytes (joined rs) = rs := by
    rw [readAllRecordBytes, ← List.append_nil (joined rs)]
    exact readAll_joined (by decide) rs
  have hloop := foldl_values h (saveStart (joined old))
  rw [saveStart_values] at hloop
  unfold saveRecordBytes readAllRecords
  split
  · rename_i hempty
    rw [List.isEmpty_iff.mp hempty, hread]
    rfl
  · rename_i hempty
    rw [saveRecords_of_opens_nil rfl (by simpa [List.isEmpty_iff] using hempty)]
    dsimp only at hloop ⊢
    rw [← hloop]
    generalize batch.foldl RawSaveState.step (saveStart (joined old)) = s
    unfold writeBack RawSaveState.values
    cases s.overwrite with
    | none =>
      dsimp only [Option.map_none]
      rw [← joined_append, hread, List.map_append]
    | some r =>
      dsimp only [Option.map_some]
      rw [overwriteLast_joined (by decide), ← joined_append, hread, List.map_append,
        List.isEmpty_map]
      split
      · rfl
      · rw [List.map_append, List.map_dropLast]
        rfl

end

end TCV.Storage
