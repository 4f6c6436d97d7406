import Mathlib.Data.List.Induction

/-!
# Files of records of one size

A file is a list of bytes, read record by record from its start and written at its
end. What stands after the last whole record is cut off by reading, but not by a
write that follows it.

* `joined`: the bytes of records; `readAll`: the records of a file;
* `lastRecord`, `overwriteLast`: the record that ends with the file;
* `readLastN`, `findFirst`, `findLast`: reading from a place near the end, and
  searching from the start and from the end;
* `readAll_joined`, `readAll_eq_iff`, `findFirst_eq`: what is read from the start;
* `lastRecord_joined`, `overwriteLast_joined`: the end of a file of whole records;
* `lastRecord_append`, `readLastN_append`, `findLast_append`: reading from the end of a
  file that ends with whole records.
-/

namespace Lib.Records

/-- `n` bytes. -/
@[ext]
structure Record (β : Type*) (n : Nat) where
  toList : List β
  length_toList : toList.length = n
  deriving DecidableEq, Repr

variable {β : Type*} {n : Nat}

def joined (rs : List (Record β n)) : List β := rs.flatMap Record.toList

/-- One read of `n` bytes. -/
def readRecord (n : Nat) (bs : List β) : Option (Record β n) :=
  if h : n ≤ bs.length then some ⟨bs.take n, by rw [List.length_take, Nat.min_eq_left h]⟩ else none

def readLoop (n : Nat) : Nat → List β → List (Record β n)
  | 0, _ => []
  | fuel + 1, bs =>
    match readRecord n bs with
    | none => []
    | some r => r :: readLoop n fuel (bs.drop n)

/-- Every read of a file of records that are not empty takes a byte. -/
def readAll (n : Nat) (bs : List β) : List (Record β n) := readLoop n bs.length bs

/-- The last `n` bytes, wherever the records stand. -/
def lastRecord (n : Nat) (bs : List β) : Option (Record β n) :=
  if h : n ≤ bs.length then
    some ⟨bs.drop (bs.length - n), by rw [List.length_drop, Nat.sub_sub_self h]⟩
  else none

def overwriteLast (bs : List β) (r : Record β n) : List β :=
  if n ≤ bs.length then bs.take (bs.length - n) ++ r.toList else bs

/-- The last `k` records, counted from the end. -/
def readLastN (n k : Nat) (bs : List β) : List (Record β n) :=
  let numRecords := bs.length / n
  if numRecords = 0 then []
  else
    let recordsToRead := min k numRecords
    readLoop n recordsToRead (bs.drop (bs.length - recordsToRead * n))

def findLoop (n : Nat) (p : Record β n → Bool) : Nat → List β → Option (Record β n)
  | 0, _ => none
  | fuel + 1, bs =>
    match readRecord n bs with
    | none => none
    | some r => if p r then some r else findLoop n p fuel (bs.drop n)

/-- The first record with a property. -/
def findFirst (n : Nat) (p : Record β n → Bool) (bs : List β) : Option (Record β n) :=
  findLoop n p bs.length bs

/-- Down from `size`, in steps of a record. -/
def findBackLoop (n : Nat) (p : Record β n → Bool) (bs : List β) : Nat → Nat → Option (Record β n)
  | 0, _ => none
  | fuel + 1, size =>
    if n ≤ size then
      match readRecord n (bs.drop (size - n)) with
      | none => findBackLoop n p bs fuel (size - n)
      | some r => if p r then some r else findBackLoop n p bs fuel (size - n)
    else none

/-- The last record with a property, counted from the end. -/
def findLast (n : Nat) (p : Record β n → Bool) (bs : List β) : Option (Record β n) :=
  findBackLoop n p bs bs.length bs.length

/-! ## Bytes of records -/

section

variable {rs ss : List (Record β n)} {bs tail : List β}

theorem joined_cons (r : Record β n) (rs : List (Record β n)) :
    joined (r :: rs) = r.toList ++ joined rs := rfl

theorem joined_append (rs ss : List (Record β n)) :
    joined (rs ++ ss) = joined rs ++ joined ss := List.flatMap_append

theorem length_joined (rs : List (Record β n)) : (joined rs).length = rs.length * n := by
  induction rs with
  | nil => rw [List.length_nil, Nat.zero_mul]; rfl
  | cons r rs ih =>
    rw [joined_cons, List.length_append, ih, r.length_toList, List.length_cons, Nat.succ_mul,
      Nat.add_comm]

theorem length_overwriteLast (bs : List β) (r : Record β n) :
    (overwriteLast bs r).length = bs.length := by
  unfold overwriteLast
  split
  · rename_i h
    rw [List.length_append, List.length_take, r.length_toList]
    omega
  · rfl

/-! ## Reading -/

theorem readRecord_append (r : Record β n) (bs : List β) :
    readRecord n (r.toList ++ bs) = some r := by
  have h : n ≤ (r.toList ++ bs).length := by
    rw [List.length_append, r.length_toList]
    omega
  unfold readRecord
  rw [dif_pos h]
  refine congrArg some (Record.ext ?_)
  exact List.take_left' r.length_toList

theorem readLoop_joined (h : tail.length < n) (rs : List (Record β n)) {fuel : Nat}
    (hf : rs.length ≤ fuel) : readLoop n fuel (joined rs ++ tail) = rs := by
  induction rs generalizing fuel with
  | nil =>
    cases fuel with
    | zero => rfl
    | succ fuel =>
      unfold readLoop readRecord
      rw [dif_neg (by rw [joined, List.flatMap_nil, List.nil_append]; omega)]
  | cons r rs ih =>
    cases fuel with
    | zero => cases hf
    | succ fuel =>
      rw [joined_cons, List.append_assoc, readLoop, readRecord_append, List.drop_left' r.length_toList]
      exact congrArg (r :: ·) (ih (Nat.le_of_succ_le_succ hf))

/-- What stands after the last whole record is not read. -/
theorem readAll_joined (h : tail.length < n) (rs : List (Record β n)) :
    readAll n (joined rs ++ tail) = rs := by
  apply readLoop_joined h rs
  rw [List.length_append, length_joined]
  have := Nat.le_mul_of_pos_right rs.length (show 0 < n by omega)
  omega

theorem joined_injective (hn : 0 < n) (h : joined rs = joined ss) : rs = ss := by
  have hread (rs : List (Record β n)) : readAll n (joined rs ++ []) = rs := readAll_joined hn rs
  rw [← hread rs, ← hread ss, h]

/-- Every file is whole records and an incomplete one. -/
theorem exists_joined (hn : 0 < n) (bs : List β) :
    ∃ rs : List (Record β n), ∃ tail, bs = joined rs ++ tail ∧ tail.length < n := by
  induction hl : bs.length using Nat.strongRecOn generalizing bs with
  | ind l ih =>
    by_cases h : bs.length < n
    · exact ⟨[], bs, rfl, h⟩
    · obtain ⟨rs, tail, e, ht⟩ := ih (bs.drop n).length (by rw [List.length_drop]; omega)
        (bs.drop n) rfl
      refine ⟨⟨bs.take n, by rw [List.length_take]; omega⟩ :: rs, tail, ?_, ht⟩
      rw [joined_cons, List.append_assoc, ← e]
      exact (List.take_append_drop n bs).symm

theorem readAll_eq_iff (hn : 0 < n) :
    readAll n bs = rs ↔ rs.length = bs.length / n ∧ joined rs <+: bs := by
  obtain ⟨ss, tail, rfl, ht⟩ := exists_joined hn bs
  have hlen : (joined ss ++ tail).length / n = ss.length := by
    rw [List.length_append, length_joined, Nat.add_comm, Nat.add_mul_div_right _ _ hn,
      Nat.div_eq_of_lt ht, Nat.zero_add]
  rw [readAll_joined ht, hlen]
  constructor
  · rintro rfl
    exact ⟨rfl, List.prefix_append _ _⟩
  · rintro ⟨hl, hp⟩
    have hp' : joined rs <+: joined ss := by
      refine List.prefix_of_prefix_length_le hp (List.prefix_append _ _) (Nat.le_of_eq ?_)
      rw [length_joined, length_joined, hl]
    exact (joined_injective hn (hp'.eq_of_length (by rw [length_joined, length_joined, hl]))).symm

theorem findLoop_eq (p : Record β n → Bool) (fuel : Nat) (bs : List β) :
    findLoop n p fuel bs = (readLoop n fuel bs).find? p := by
  induction fuel generalizing bs with
  | zero => rfl
  | succ fuel ih =>
    unfold findLoop readLoop
    cases readRecord n bs with
    | none => rfl
    | some r =>
      dsimp only
      rw [ih, List.find?_cons]
      cases p r <;> rfl

theorem findFirst_eq (p : Record β n → Bool) (bs : List β) :
    findFirst n p bs = (readAll n bs).find? p :=
  findLoop_eq p bs.length bs

theorem joined_readLoop_prefix (fuel : Nat) (bs : List β) : joined (readLoop n fuel bs) <+: bs := by
  induction fuel generalizing bs with
  | zero => exact List.nil_prefix
  | succ fuel ih =>
    unfold readLoop readRecord
    split_ifs with h
    · obtain ⟨rest, hrest⟩ := ih (bs.drop n)
      refine ⟨rest, ?_⟩
      dsimp only
      rw [joined_cons, List.append_assoc, hrest, List.take_append_drop]
    · exact List.nil_prefix

/-! ## Reading from the end -/

theorem lastRecord_joined (hn : 0 < n) (rs : List (Record β n)) :
    lastRecord n (joined rs) = rs.getLast? := by
  cases rs using List.reverseRecOn with
  | nil =>
    unfold lastRecord
    rw [dif_neg (by rw [joined, List.flatMap_nil, List.length_nil]; omega)]
    rfl
  | append_singleton rs r =>
    have hr : joined [r] = r.toList := List.append_nil _
    have hlen : (joined (rs ++ [r])).length = (joined rs).length + n := by
      rw [joined_append, hr, List.length_append, r.length_toList]
    unfold lastRecord
    rw [dif_pos (by omega), List.getLast?_concat]
    refine congrArg some (Record.ext ?_)
    dsimp only
    rw [hlen, Nat.add_sub_cancel, joined_append, List.drop_left, hr]

theorem overwriteLast_joined (hn : 0 < n) (rs : List (Record β n)) (r : Record β n) :
    overwriteLast (joined rs) r = joined (if rs.isEmpty then rs else rs.dropLast ++ [r]) := by
  cases rs using List.reverseRecOn with
  | nil =>
    unfold overwriteLast
    rw [if_neg (by rw [joined, List.flatMap_nil, List.length_nil]; omega)]
    rfl
  | append_singleton rs last =>
    have hlast : joined [last] = last.toList := List.append_nil _
    have hr : joined [r] = r.toList := List.append_nil _
    have hlen : (joined (rs ++ [last])).length = (joined rs).length + n := by
      rw [joined_append, hlast, List.length_append, last.length_toList]
    unfold overwriteLast
    rw [if_pos (by omega), hlen, Nat.add_sub_cancel, joined_append, List.take_left,
      if_neg (by simp), List.dropLast_concat, joined_append, hr]

/-- The number of whole records of a file that ends with them. -/
theorem length_append_joined_div {pre : List β} (hpre : pre.length < n) (rs : List (Record β n)) :
    (pre ++ joined rs).length / n = rs.length := by
  rw [List.length_append, length_joined, Nat.add_mul_div_right _ _ (by omega),
    Nat.div_eq_of_lt hpre, Nat.zero_add]

theorem lastRecord_append (hn : 0 < n) (pre : List β) {rs : List (Record β n)} (hrs : rs ≠ []) :
    lastRecord n (pre ++ joined rs) = rs.getLast? := by
  have hlen : n ≤ (joined rs).length := by
    rw [length_joined]
    exact Nat.le_mul_of_pos_left n (List.length_pos_iff.mpr hrs)
  rw [← lastRecord_joined hn rs]
  unfold lastRecord
  rw [dif_pos hlen, dif_pos (by rw [List.length_append]; omega)]
  refine congrArg some (Record.ext ?_)
  dsimp only
  rw [List.length_append, Nat.add_sub_assoc hlen, List.drop_length_add_append]

/-- A number of whole records before the end are the last ones. -/
theorem readLastN_append {pre : List β} (hpre : pre.length < n) (rs : List (Record β n)) (k : Nat) :
    readLastN n k (pre ++ joined rs) = rs.drop (rs.length - k) := by
  unfold readLastN
  dsimp only
  rw [length_append_joined_div hpre]
  split_ifs with h0
  · rw [List.length_eq_zero_iff.mp h0, List.drop_nil]
  · -- The place to read from is the start of the records that are left.
    generalize hm : min k rs.length = m
    have hdrop : rs.length - k = rs.length - m := by omega
    have hsplit : pre ++ joined rs =
        (pre ++ joined (rs.take (rs.length - m))) ++ joined (rs.drop (rs.length - m)) := by
      rw [List.append_assoc, ← joined_append, List.take_append_drop]
    have hrest : (rs.drop (rs.length - m)).length = m := by
      rw [List.length_drop]
      omega
    have hat : (pre ++ joined rs).length - m * n =
        (pre ++ joined (rs.take (rs.length - m))).length := by
      rw [hsplit, List.length_append, length_joined (rs.drop _), hrest, Nat.add_sub_cancel]
    rw [hat, hsplit, List.drop_left, hdrop]
    have htail : ([] : List β).length < n := by
      rw [List.length_nil]
      omega
    have := readLoop_joined htail (rs.drop (rs.length - m)) (Nat.le_of_eq hrest)
    rwa [List.append_nil] at this

/-- Conversely, a file whose records are the last ones as well ends with them. -/
theorem suffix_of_readLastN (hn : 0 < n)
    (h : readLastN n rs.length (joined rs ++ tail) = rs) (ht : tail.length < n) :
    joined rs <:+ joined rs ++ tail := by
  have hnum : (joined rs ++ tail).length / n = rs.length := by
    rw [List.length_append, length_joined, Nat.add_comm, Nat.add_mul_div_right _ _ hn,
      Nat.div_eq_of_lt ht, Nat.zero_add]
  unfold readLastN at h
  dsimp only at h
  rw [hnum, Nat.min_self] at h
  split_ifs at h with h0
  · rw [List.length_eq_zero_iff.mp h0]
    exact List.nil_suffix
  · have hp := joined_readLoop_prefix (n := n) rs.length
      ((joined rs ++ tail).drop ((joined rs ++ tail).length - rs.length * n))
    rw [h] at hp
    have he := hp.eq_of_length (by
      rw [length_joined, List.length_drop, List.length_append, length_joined]
      omega)
    have hs := List.drop_suffix ((joined rs ++ tail).length - rs.length * n) (joined rs ++ tail)
    rwa [← he] at hs

theorem findBackLoop_append (p : Record β n → Bool) {pre : List β}
    (hpre : pre.length < n) (rs : List (Record β n)) (rest : List β) {fuel : Nat}
    (hf : rs.length ≤ fuel) :
    findBackLoop n p (pre ++ joined rs ++ rest) fuel (pre ++ joined rs).length =
      rs.reverse.find? p := by
  induction rs using List.reverseRecOn generalizing rest fuel with
  | nil =>
    cases fuel with
    | zero => rfl
    | succ fuel =>
      have hlen : ¬ n ≤ (pre ++ joined ([] : List (Record β n))).length := by
        rw [joined, List.flatMap_nil, List.append_nil]
        omega
      rw [findBackLoop, if_neg hlen]
      rfl
  | append_singleton rs r ih =>
    have hr : joined [r] = r.toList := List.append_nil _
    have hlen : (pre ++ joined (rs ++ [r])).length = (pre ++ joined rs).length + n := by
      rw [joined_append, hr, ← List.append_assoc, List.length_append, r.length_toList]
    have hbytes : pre ++ joined (rs ++ [r]) ++ rest =
        pre ++ joined rs ++ (r.toList ++ rest) := by
      rw [joined_append, hr]
      simp only [List.append_assoc]
    cases fuel with
    | zero => rw [List.length_append, List.length_singleton] at hf; omega
    | succ fuel =>
      rw [List.length_append, List.length_singleton] at hf
      rw [findBackLoop, hlen, if_pos (by omega), Nat.add_sub_cancel, hbytes, List.drop_left,
        readRecord_append, List.reverse_concat, List.find?_cons]
      dsimp only
      rw [ih (r.toList ++ rest) (by omega)]
      cases p r <;> rfl

/-- The last record with a property, in a file that ends with whole records. -/
theorem findLast_append (p : Record β n → Bool) {pre : List β}
    (hpre : pre.length < n) (rs : List (Record β n)) :
    findLast n p (pre ++ joined rs) = rs.reverse.find? p := by
  have hfuel : rs.length ≤ (pre ++ joined rs).length := by
    rw [List.length_append, length_joined]
    have := Nat.le_mul_of_pos_right rs.length (show 0 < n by omega)
    omega
  have := findBackLoop_append p hpre rs [] hfuel
  rwa [List.append_nil] at this

end

end Lib.Records
