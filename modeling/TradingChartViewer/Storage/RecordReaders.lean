import TradingChartViewer.Storage.RecordBytes

/-!
# The readers of the record file

The four readers of `PriceDataManager` on the bytes of its file. `readAllRecords`
counts records from the start; `readLastRecord`, `readLastNRecords` and the second
loop of `readOpenTimeRange` count them from the end, and `readLastRecord` ends the two
strings of what it read with a zero.

* `readAlike_iff`: the readers agree exactly on the files that end with the bytes of
  their whole records, the last of which has two strings that end with a zero.
-/

namespace TCV.Storage

open Lib.Records

/-! ## The readers -/

def RawData.setByte (r : RawData) (offset : Nat) (value : UInt8) : RawData where
  toList := r.toList.set offset value
  length_toList := by rw [List.length_set, r.length_toList]

/-- `symbol[15]` and `interval[7]` set to zero. -/
def RawData.terminate (r : RawData) : RawData := (r.setByte 103 0).setByte 111 0

/-- `PriceDataManager::readLastRecord`. -/
def readLastRecordBytes (file : List UInt8) : RawData :=
  match lastRecord sizeofPriceData file with
  | none => RawData.blank
  | some (lastRecord : RawData) => lastRecord.terminate

/-- `PriceDataManager::readLastNRecords`. -/
def readLastNRecordBytes (file : List UInt8) (n : Nat) : List RawData :=
  readLastN sizeofPriceData n file

/-- `PriceDataManager::readOpenTimeRange`. -/
def readOpenTimeRangeBytes (file : List UInt8) : Option (Int × Int) :=
  match findFirst sizeofPriceData RawData.isValidRecord file with
  | none => none
  | some (first : RawData) =>
    match findLast sizeofPriceData RawData.isValidRecord file with
    | none => none
    | some (last : RawData) => some (first.openTime, last.openTime)

/-! ## Agreement -/

/-- The open times of the first and the last valid record. -/
def openTimeRange (records : List RawData) : Option (Int × Int) :=
  let valid := records.filter RawData.isValidRecord
  valid.head?.bind fun first =>
    valid.getLast?.map fun last => (RawData.openTime first, RawData.openTime last)

/-- The readers from the end see what `readAllRecords` sees. -/
structure ReadAlike (file : List UInt8) : Prop where
  last : ∀ record, (readAllRecordBytes file).getLast? = some record →
    readLastRecordBytes file = record
  lastN : ∀ n, readLastNRecordBytes file n =
    (readAllRecordBytes file).drop ((readAllRecordBytes file).length - n)
  range : readOpenTimeRangeBytes file = openTimeRange (readAllRecordBytes file)

/-- Both strings end with a zero. -/
def RawData.Terminated (r : RawData) : Prop :=
  r.symbol.getLast? = some 0 ∧ r.interval.getLast? = some 0

instance (r : RawData) : Decidable r.Terminated := inferInstanceAs (Decidable (_ ∧ _))

theorem getLast?_field (r : RawData) {offset size : Nat} (h : offset + size < sizeofPriceData) :
    (r.field offset (size + 1)).getLast? = r.toList[offset + size]? := by
  have hlen := r.length_toList
  rw [RawData.field, List.getLast?_eq_getElem?, List.length_take, List.length_drop,
    List.getElem?_take, List.getElem?_drop]
  rw [if_pos (by omega)]
  congr 1
  omega

theorem set_of_getElem? {l : List UInt8} {i : Nat} {b : UInt8} (h : l[i]? = some b) :
    l.set i b = l := by
  obtain ⟨hi, rfl⟩ := List.getElem?_eq_some_iff.mp h
  exact List.set_getElem_self hi

theorem terminate_eq_iff (r : RawData) : r.terminate = r ↔ r.Terminated := by
  have hlen : r.toList.length = 112 := r.length_toList
  have hs : r.symbol.getLast? = r.toList[103]? := getLast?_field r (by decide)
  have hi : r.interval.getLast? = r.toList[111]? := getLast?_field r (by decide)
  rw [RawData.Terminated, hs, hi]
  constructor
  · intro h
    have e := congrArg Record.toList h
    have key (i : Nat) : ((r.toList.set 103 0).set 111 0)[i]? = r.toList[i]? := congrArg (·[i]?) e
    constructor
    · rw [← key 103, List.getElem?_set_ne (by decide), List.getElem?_set_self (by omega)]
    · rw [← key 111, List.getElem?_set_self (by rw [List.length_set]; omega)]
  · rintro ⟨h₁, h₂⟩
    apply Record.ext
    show (r.toList.set 103 0).set 111 0 = r.toList
    rw [set_of_getElem? h₁, set_of_getElem? h₂]

/-- The searches from the two ends, in a file that ends with whole records. -/
theorem range_of_suffix {pre stray : List UInt8} {whole : List RawData}
    (hpre : pre.length < sizeofPriceData) (hstray : stray.length < sizeofPriceData)
    (h : joined whole ++ stray = pre ++ joined whole) :
    readOpenTimeRangeBytes (joined whole ++ stray) = openTimeRange whole := by
  have hfirst : findFirst sizeofPriceData RawData.isValidRecord (joined whole ++ stray) =
      (whole.filter RawData.isValidRecord).head? := by
    rw [findFirst_eq, readAll_joined hstray, List.head?_filter]
  have hlast : findLast sizeofPriceData RawData.isValidRecord (joined whole ++ stray) =
      (whole.filter RawData.isValidRecord).getLast? := by
    rw [h, findLast_append _ hpre, List.getLast?_filter]
  unfold readOpenTimeRangeBytes openTimeRange
  rw [hfirst, hlast]
  dsimp only
  generalize whole.filter RawData.isValidRecord = valid
  rcases valid.head? with _ | first
  · rfl
  · rcases valid.getLast? with _ | last <;> rfl

/-- The readers agree exactly on the files that end with the bytes of their whole
records, the last of which has two strings that end with a zero. -/
theorem readAlike_iff (file : List UInt8) :
    ReadAlike file ↔ ∃ (whole : List RawData) (stray : List UInt8),
      file = joined whole ++ stray ∧ stray.length < sizeofPriceData ∧
        joined whole <:+ file ∧ ∀ last, whole.getLast? = some last → last.Terminated := by
  have hn : 0 < sizeofPriceData := by decide
  constructor
  · intro h
    obtain ⟨whole, stray, rfl, hstray⟩ := exists_joined (n := sizeofPriceData) hn file
    have hall : readAllRecordBytes (joined whole ++ stray) = whole := readAll_joined hstray whole
    have hN := h.lastN whole.length
    rw [hall, Nat.sub_self, List.drop_zero] at hN
    have hsuffix : joined whole <:+ joined whole ++ stray := suffix_of_readLastN hn hN hstray
    refine ⟨whole, stray, rfl, hstray, hsuffix, fun last hl => ?_⟩
    -- The last record was read from the end, with its two zeros.
    have hlast := h.last last (by rw [hall]; exact hl)
    obtain ⟨pre, hpre⟩ := hsuffix
    have hne : whole ≠ [] := List.ne_nil_of_mem (List.mem_of_getLast? hl)
    rw [readLastRecordBytes, ← hpre, lastRecord_append hn pre hne, hl] at hlast
    exact (terminate_eq_iff last).mp hlast
  · rintro ⟨whole, stray, rfl, hstray, ⟨pre, hpre⟩, hterm⟩
    have hall : readAllRecordBytes (joined whole ++ stray) = whole := readAll_joined hstray whole
    have hlen : pre.length < sizeofPriceData := by
      have := congrArg List.length hpre
      rw [List.length_append, List.length_append] at this
      omega
    constructor
    · intro record hl
      rw [hall] at hl
      have hne : whole ≠ [] := List.ne_nil_of_mem (List.mem_of_getLast? hl)
      rw [readLastRecordBytes, ← hpre, lastRecord_append hn pre hne, hl]
      exact (terminate_eq_iff record).mpr (hterm record hl)
    · intro n
      rw [hall, readLastNRecordBytes, ← hpre]
      exact readLastN_append hlen whole n
    · rw [hall]
      exact range_of_suffix hlen hstray hpre.symm

/-- A record of one minute, and the first byte of the next one. -/
theorem not_readAlike_torn :
    ¬ (∀ file, ReadAlike file) ∧
      readAllRecordBytes (joined [flatBytes 60000] ++ [192]) = [flatBytes 60000] ∧
      (readLastRecordBytes (joined [flatBytes 60000] ++ [192])).openTime ≠ 60000 := by
  have hall : readAllRecordBytes (joined [flatBytes 60000] ++ [192]) = [flatBytes 60000] := by
    decide +kernel
  refine ⟨fun h => ?_, hall, by decide +kernel⟩
  have := (h (joined [flatBytes 60000] ++ [192])).last (flatBytes 60000) (by rw [hall]; rfl)
  revert this
  decide +kernel

end TCV.Storage
