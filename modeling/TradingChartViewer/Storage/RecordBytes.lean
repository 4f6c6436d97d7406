import TradingChartViewer.Lib.Records
import TradingChartViewer.Storage.PriceDataManager

/-!
# The bytes of the record file

`PriceDataManager` on the bytes of its file: `readAllRecords` reads from the start,
`saveRecords` looks at and writes to the end. A record is its image in memory: 112
bytes, little-endian, `openTime` in the first eight, `closeTime` in those from 48 on,
`symbol` and `interval` in those from 88 and from 104 on, and padding copied with the
rest. Signed arithmetic wraps around. The file opens.

* `RawData.normalizeRecord`, `RawData.isValidRecord`, `saveRecordBytes`,
  `readAllRecordBytes`: the operations;
* `saveRecordBytes_eq_iff`: when the records of a batch stand in the file after those
  that were there;
* `recovers_iff`: when they do after a torn append.
-/

namespace TCV.Storage

open TCV.Domain Lib.Records

/-! ## Images -/

def sizeofPriceData : Nat := 112

/-- A `PriceData` in memory. -/
abbrev RawData := Record UInt8 sizeofPriceData

def int64 (bytes : List UInt8) : Int :=
  (bytes.foldr (fun b v => (b.toNat : Int) + 256 * v) 0).bmod (2 ^ 64)

def bytesOfInt64 (value : Int) : List UInt8 :=
  (List.range 8).map fun i => UInt8.ofNat ((value % 2 ^ 64).toNat / 256 ^ i)

def RawData.field (r : RawData) (offset size : Nat) : List UInt8 :=
  (r.toList.drop offset).take size

def RawData.setInt64 (r : RawData) (offset : Nat) (h : offset + 8 ≤ sizeofPriceData) (value : Int) :
    RawData where
  toList := r.toList.take offset ++ bytesOfInt64 value ++ r.toList.drop (offset + 8)
  length_toList := by
    have := r.length_toList
    simp [bytesOfInt64]
    omega

def RawData.openTime (r : RawData) : Int := int64 (r.field 0 8)

def RawData.closeTime (r : RawData) : Int := int64 (r.field 48 8)

def RawData.symbol (r : RawData) : List UInt8 := r.field 88 16

def RawData.interval (r : RawData) : List UInt8 := r.field 104 8

/-- `std::strlen` is positive where the first byte is no zero. -/
def RawData.isValidRecord (r : RawData) : Bool :=
  0 < r.openTime && 0 < r.closeTime && r.symbol.head?.any (· ≠ 0) && r.interval.head?.any (· ≠ 0)

/-- The record `saveRecords` starts from where it reads none: its strings are empty. -/
def RawData.blank : RawData := ⟨List.replicate sizeofPriceData 0, List.length_replicate⟩

section

variable [TimeUtils]

def RawData.normalizeRecord (r : RawData) : RawData :=
  let alignedOpen := floorToMinuteMs r.openTime
  if alignedOpen ≤ 0 then (r.setInt64 0 (by decide) 0).setInt64 48 (by decide) 0
  else
    (r.setInt64 0 (by decide) alignedOpen).setInt64 48 (by decide)
      (alignedOpen + kMillisPerMinute - 1)

/-! ## The file -/

/-- The variables of the loop of `saveRecords`. -/
structure RawSaveState where
  overwrite : Option RawData
  toAppend : List RawData
  lastPersisted : RawData
  hasLast : Bool

def RawSaveState.step (s : RawSaveState) (record : RawData) : RawSaveState :=
  let normalized := record.normalizeRecord
  if !normalized.isValidRecord then s
  else if s.hasLast && normalized.openTime = s.lastPersisted.openTime then
    { s with overwrite := some normalized, lastPersisted := normalized }
  else if !s.hasLast || s.lastPersisted.openTime < normalized.openTime then
    { s with
      toAppend := s.toAppend ++ [normalized], lastPersisted := normalized, hasLast := true }
  else s

/-- The loop starts from what ends the file. -/
def saveStart (file : List UInt8) : RawSaveState :=
  let lastRecord : RawData := (lastRecord sizeofPriceData file).getD RawData.blank
  ⟨none, [], lastRecord, lastRecord.isValidRecord⟩

/-- `PriceDataManager::saveRecords`. -/
def saveRecordBytes (file : List UInt8) (records : List RawData) : List UInt8 :=
  if records.isEmpty then file
  else
    let s := records.foldl RawSaveState.step (saveStart file)
    let file := match s.overwrite with
      | some record => overwriteLast file record
      | none => file
    file ++ joined s.toAppend

/-- `PriceDataManager::readAllRecords`. -/
def readAllRecordBytes (file : List UInt8) : List RawData := readAll sizeofPriceData file

/-! ## Appending -/

/-- The loop appends every record of the batch. -/
structure Appends (s : RawSaveState) (batch : List RawData) : Prop where
  valid : ∀ b ∈ batch, RawData.isValidRecord (RawData.normalizeRecord b) = true
  ascend : (batch.map fun b => RawData.openTime (RawData.normalizeRecord b)).Pairwise (· < ·)
  after : s.hasLast = true → ∀ b ∈ batch,
    s.lastPersisted.openTime < RawData.openTime (RawData.normalizeRecord b)

variable {s : RawSaveState} {b : RawData} {batch : List RawData}

theorem step_append (hv : b.normalizeRecord.isValidRecord = true)
    (ha : s.hasLast = true → s.lastPersisted.openTime < b.normalizeRecord.openTime) :
    s.step b = { s with
      toAppend := s.toAppend ++ [b.normalizeRecord], lastPersisted := b.normalizeRecord
      hasLast := true } := by
  unfold RawSaveState.step
  dsimp only
  rw [hv, if_neg nofun]
  cases hl : s.hasLast with
  | false => rfl
  | true =>
    have := ha hl
    rw [if_neg (by simp; omega), if_pos (by simpa using this)]

theorem step_toAppend (h : ¬ (b.normalizeRecord.isValidRecord = true ∧
    (s.hasLast = true → s.lastPersisted.openTime < b.normalizeRecord.openTime))) :
    (s.step b).toAppend = s.toAppend := by
  unfold RawSaveState.step
  dsimp only
  split_ifs with h₁ h₂ h₃
  · rfl
  · rfl
  · rw [Bool.or_eq_true, decide_eq_true_eq] at h₃
    refine absurd ⟨by simpa using h₁, fun hl => ?_⟩ h
    rw [hl] at h₃
    simpa using h₃
  · rfl

theorem foldl_appends (h : Appends s batch) :
    (batch.foldl RawSaveState.step s).toAppend = s.toAppend ++ batch.map RawData.normalizeRecord ∧
    (batch.foldl RawSaveState.step s).overwrite = s.overwrite := by
  induction batch generalizing s with
  | nil => exact ⟨(List.append_nil _).symm, rfl⟩
  | cons b batch ih =>
    have hp := List.pairwise_cons.mp h.ascend
    rw [List.foldl_cons, step_append (h.valid b List.mem_cons_self)
      fun hl => h.after hl b List.mem_cons_self]
    refine (ih ⟨fun c hc => h.valid c (List.mem_cons_of_mem _ hc), hp.2, fun _ c hc => ?_⟩).imp_left
      fun e => e.trans ?_
    · exact hp.1 _ (List.mem_map_of_mem hc)
    · rw [List.append_assoc]
      rfl

theorem length_toAppend_le (s : RawSaveState) (batch : List RawData) :
    (batch.foldl RawSaveState.step s).toAppend.length ≤ s.toAppend.length + batch.length := by
  induction batch generalizing s with
  | nil => exact Nat.le_refl _
  | cons b batch ih =>
    have hs : (s.step b).toAppend.length ≤ s.toAppend.length + 1 := by
      by_cases h : b.normalizeRecord.isValidRecord = true ∧
          (s.hasLast = true → s.lastPersisted.openTime < b.normalizeRecord.openTime)
      · rw [step_append h.1 h.2, List.length_append]
        rfl
      · rw [step_toAppend h]
        omega
    have := ih (s.step b)
    rw [List.foldl_cons, List.length_cons]
    omega

/-- A record that is not appended is never made up for. -/
theorem appends_of_length
    (h : (batch.foldl RawSaveState.step s).toAppend.length = s.toAppend.length + batch.length) :
    Appends s batch := by
  induction batch generalizing s with
  | nil => exact ⟨nofun, .nil, fun _ => nofun⟩
  | cons b batch ih =>
    rw [List.foldl_cons, List.length_cons] at h
    by_cases hb : b.normalizeRecord.isValidRecord = true ∧
        (s.hasLast = true → s.lastPersisted.openTime < b.normalizeRecord.openTime)
    · rw [step_append hb.1 hb.2] at h
      obtain ⟨hv, hp, ha⟩ := ih (by rw [h, List.length_append, List.length_singleton]; omega)
      have ha := ha rfl
      refine ⟨List.forall_mem_cons.mpr ⟨hb.1, hv⟩, List.pairwise_cons.mpr ⟨fun t ht => ?_, hp⟩,
        fun hl => List.forall_mem_cons.mpr ⟨hb.2 hl, fun c hc => (hb.2 hl).trans (ha c hc)⟩⟩
      obtain ⟨c, hc, rfl⟩ := List.mem_map.mp ht
      exact ha c hc
    · have := length_toAppend_le (s.step b) batch
      rw [step_toAppend hb] at this
      omega

/-! ## Reading back -/

variable {old : List RawData} {stray : List UInt8}

/-- A file takes as many bytes as records are appended. -/
theorem length_saveRecordBytes (file : List UInt8) (hne : batch ≠ []) :
    (saveRecordBytes file batch).length = file.length +
      (batch.foldl RawSaveState.step (saveStart file)).toAppend.length * sizeofPriceData := by
  unfold saveRecordBytes
  rw [if_neg (by simpa using hne)]
  dsimp only
  rw [List.length_append, length_joined]
  split
  · rw [length_overwriteLast]
  · rfl

theorem saveRecordBytes_of_appends {file : List UInt8} (hne : batch ≠ [])
    (h : Appends (saveStart file) batch) :
    saveRecordBytes file batch = file ++ joined (batch.map RawData.normalizeRecord) := by
  obtain ⟨ht, ho⟩ := foldl_appends h
  unfold saveRecordBytes
  rw [if_neg (by simpa using hne)]
  dsimp only
  rw [ht, ho]
  rfl

/-- The records of a batch are read after the old ones when all are appended and the
bytes after the old records begin with theirs. -/
theorem saveRecordBytes_eq_iff (hstray : stray.length < sizeofPriceData) (hne : batch ≠ []) :
    readAllRecordBytes (saveRecordBytes (joined old ++ stray) batch) = old ++ batch ↔
      Appends (saveStart (joined old ++ stray)) batch ∧
        joined batch <+: stray ++ joined (batch.map RawData.normalizeRecord) := by
  have hlen := length_saveRecordBytes (joined old ++ stray) hne
  rw [List.length_append, length_joined] at hlen
  have hdiv : (saveRecordBytes (joined old ++ stray) batch).length / sizeofPriceData =
      old.length + (batch.foldl RawSaveState.step
        (saveStart (joined old ++ stray))).toAppend.length := by
    rw [hlen, Nat.add_right_comm, ← Nat.add_mul, Nat.add_comm, Nat.add_mul_div_right _ _ (by decide),
      Nat.div_eq_of_lt hstray, Nat.zero_add]
  rw [readAllRecordBytes, readAll_eq_iff (by decide), hdiv, List.length_append]
  constructor
  · rintro ⟨hl, hp⟩
    have ha : Appends (saveStart (joined old ++ stray)) batch := appends_of_length (by
      have h₀ : (saveStart (joined old ++ stray)).toAppend.length = 0 := rfl
      omega)
    rw [saveRecordBytes_of_appends hne ha, joined_append, List.append_assoc,
      List.prefix_append_right_inj] at hp
    exact ⟨ha, hp⟩
  · rintro ⟨ha, hp⟩
    rw [saveRecordBytes_of_appends hne ha, joined_append, List.append_assoc,
      List.prefix_append_right_inj, (foldl_appends ha).1, List.length_append, List.length_map]
    exact ⟨by rw [saveStart, List.length_nil, Nat.zero_add], hp⟩

/-- Without stray bytes the batch follows the old records as it is. -/
theorem appends_iff_normal (hbatch : ∀ b ∈ batch, RawData.isValidRecord b = true)
    (hasc : ((old ++ batch).map RawData.openTime).Pairwise (· < ·)) :
    Appends (saveStart (joined old ++ [])) batch ∧
        joined batch <+: [] ++ joined (batch.map RawData.normalizeRecord) ↔
      ∀ b ∈ batch, RawData.normalizeRecord b = b := by
  constructor
  · rintro ⟨-, hp⟩
    have hlen : (joined batch).length = (joined (batch.map RawData.normalizeRecord)).length := by
      rw [length_joined, length_joined, List.length_map]
    have e := joined_injective (by decide) (hp.eq_of_length hlen)
    exact fun b hb => List.map_inj_left.mp (e.symm.trans (List.map_id batch).symm) b hb
  · intro hn
    have hmap : batch.map RawData.normalizeRecord = batch :=
      (List.map_congr_left hn).trans (List.map_id batch)
    rw [List.map_append, List.pairwise_append] at hasc
    refine ⟨⟨fun b hb => by rw [hn b hb]; exact hbatch b hb, ?_, fun hl b hb => ?_⟩,
      by simp [hmap]⟩
    · rw [List.map_congr_left fun b hb => by rw [hn b hb]]
      exact hasc.2.1
    · rw [hn b hb]
      unfold saveStart at hl ⊢
      rw [List.append_nil, lastRecord_joined (by decide)] at hl ⊢
      cases hlast : old.getLast? with
      | none =>
        rw [hlast] at hl
        exact absurd hl (by decide)
      | some last =>
        exact hasc.2.2 _ (List.mem_map_of_mem (List.mem_of_getLast? hlast)) _
          (List.mem_map_of_mem hb)

end

/-- After an append that was cut short, the records of a batch are read after the old
ones exactly when the batch is empty, or nothing is left of that append and every
record stands on a whole minute and ends with it, or the stray bytes happen to be the
first bytes of what they shift. -/
theorem recovers_iff [TimeUtils] (old : List RawData) (stray : List UInt8) (batch : List RawData)
    (hstray : stray.length < sizeofPriceData)
    (hbatch : ∀ b ∈ batch, RawData.isValidRecord b = true)
    (hasc : ((old ++ batch).map RawData.openTime).Pairwise (· < ·)) :
    readAllRecordBytes (saveRecordBytes (joined old ++ stray) batch) = old ++ batch ↔
      batch = [] ∨
      stray = [] ∧ (∀ b ∈ batch, RawData.normalizeRecord b = b) ∨
      stray ≠ [] ∧ Appends (saveStart (joined old ++ stray)) batch ∧
        joined batch <+: stray ++ joined (batch.map RawData.normalizeRecord) := by
  by_cases hne : batch = []
  · subst hne
    refine iff_of_true ?_ (.inl rfl)
    rw [List.append_nil]
    exact readAll_joined hstray old
  rw [saveRecordBytes_eq_iff hstray hne, or_iff_right hne]
  by_cases hs : stray = []
  · subst hs
    rw [appends_iff_normal hbatch hasc]
    simp
  · simp [hs]

/-- A record of one minute whose prices are 0. -/
def flatBytes (openTime : Int) : RawData where
  toList := bytesOfInt64 openTime ++ List.replicate 40 0 ++
    bytesOfInt64 (openTime + kMillisPerMinute - 1) ++ List.replicate 32 0 ++
    66 :: List.replicate 15 0 ++ 49 :: 109 :: List.replicate 6 0
  length_toList := by simp [bytesOfInt64, sizeofPriceData]

theorem recovers_iff_whole :
    readAllRecordBytes (saveRecordBytes (joined [flatBytes 60000] ++ []) [flatBytes 120000]) =
      [flatBytes 60000] ++ [flatBytes 120000] :=
  (recovers_iff [flatBytes 60000] [] [flatBytes 120000] (by decide) (by decide +kernel)
    (by decide +kernel)).mpr (.inr (.inl ⟨rfl, by decide +kernel⟩))

/-- The append of the record of 120000 is cut short after 40 bytes and made again. -/
theorem not_recovers_torn :
    readAllRecordBytes (saveRecordBytes
        (joined [flatBytes 60000] ++ (flatBytes 120000).toList.take 40) [flatBytes 120000]) ≠
      [flatBytes 60000] ++ [flatBytes 120000] := by
  decide +kernel

end TCV.Storage
