import SHMemora.Verified.TextLines
import SHMemora.Ports.StoreLayout

/-!
# The token log

`test/kv.cpp` keeps the tokens of the keys it has inserted in a text file, one
line for each insertion: the key up to its first zero byte, a blank, and the
token as a hexadecimal number.  `lookup_shkey_from_file` reads the file from the
beginning and takes the token of the first line with the key.

The text is a list of bytes.  A file that cannot be opened for reading is an
empty one here; both give the token 0.

## Main result

* `lookup_recorded` — what a lookup finds: the token that was recorded first,
  and 0, the global key, if there is no record.
-/

namespace SHMemora.Ports

open SHMemora.Verified.ByteMemory
open SHMemora.Verified.TextLines

/-! ## Characters and numbers -/

/-- The bytes of a file. -/
abbrev Text := List UInt8

/-- `'\n'`. -/
def newline : UInt8 := 10

/-- `isspace` in the C locale. -/
def isSpace (c : UInt8) : Bool := c == 32 || (9 ≤ c && c ≤ 13)

/-- A digit as `std::hex` writes it. -/
def hexDigit (d : Nat) : UInt8 :=
  if d < 10 then .ofNat (48 + d) else .ofNat (87 + d)

/-- The value of a digit to base 16, of either case. -/
def hexValue (c : UInt8) : Option Nat :=
  if 48 ≤ c ∧ c ≤ 57 then some (c.toNat - 48)
  else if 97 ≤ c ∧ c ≤ 102 then some (c.toNat - 87)
  else if 65 ≤ c ∧ c ≤ 70 then some (c.toNat - 55)
  else none

/-- A sign and the text behind it. -/
def readSign : Text → Bool × Text
  | 45 :: text => (true, text)
  | 43 :: text => (false, text)
  | text => (false, text)

/-- The number behind a sign, which may begin with `0x`. -/
def readHex : Text → Nat
  | 48 :: x :: text =>
      if x = 120 ∨ x = 88 then readDigits hexValue 16 text
      else readDigits hexValue 16 (48 :: x :: text)
  | text => readDigits hexValue 16 text

/-- `std::stoull(text, nullptr, 16)`; `none` where it throws, that is without a
digit and from `2 ^ 64` on. -/
def stoull16 (text : Text) : Option Nat :=
  let (negative, body) := readSign (text.dropWhile isSpace)
  if (body.head?.bind hexValue).isNone then none
  else if 2 ^ 64 ≤ readHex body then none
  else if negative then some (wrap (2 ^ 64 - readHex body))
  else some (readHex body)

/-! ## Records -/

/-- `std::string(key, strnlen(key, 64))`. -/
def keyString (key : Key) : Text := (List.ofFn key).takeWhile (· ≠ 0)

/-- `std::strncpy(key, key_str.c_str(), 64 - 1)` into a zeroed buffer. -/
def strncpyKey (keyStr : Text) : Key := fun i =>
  if i.val < 63 then (keyStr.takeWhile (· ≠ 0)).getD i 0 else 0

/-- `ofs << key_str << " " << std::hex << shkey << "\n"`, without the
newline. -/
def recordLine (key : Key) (shkey : UInt16) : Text :=
  keyString key ++ 32 :: numeral hexDigit 16 shkey.toNat

/-- `record_shkey_mapping`. -/
def recordShkeyMapping (log : Text) (key : Key) (shkey : UInt16) : Text :=
  log ++ (recordLine key shkey ++ [newline])

/-- The token in a line with the key; `none` for every other line, which is
skipped, and inside `none` where `stoull` throws. -/
def lineShkey (target : Text) (line : Text) : Option (Option UInt16) :=
  match words isSpace line with
  | keyStr :: shkeyHex :: _ =>
      if keyStr = target then some ((stoull16 shkeyHex).map UInt16.ofNat)
      else none
  | _ => none

/-- `lookup_shkey_from_file`; `none` where it throws. -/
def lookupShkeyFromFile (log target : Text) : Option UInt16 :=
  ((lines newline log).findSome? (lineShkey target)).getD (some 0)

/-- A file of records. -/
def logOf (records : List (Key × UInt16)) : Text :=
  records.flatMap fun r => recordLine r.1 r.2 ++ [newline]

theorem logOf_append (records : List (Key × UInt16)) (key : Key)
    (shkey : UInt16) :
    logOf (records ++ [(key, shkey)]) =
      recordShkeyMapping (logOf records) key shkey := by
  simp [logOf, recordShkeyMapping]

/-- The first record of a key.  A key without a character has none. -/
def firstRecord (records : List (Key × UInt16)) (target : Text) :
    Option UInt16 :=
  (records.find? fun r =>
    decide (keyString r.1 = target ∧ target ≠ [])).map Prod.snd

/-! ## Keys -/

/-- A key copied from a string has 63 of its characters at most. -/
theorem keyString_strncpyKey (keyStr : Text) :
    keyString (strncpyKey keyStr) = (keyStr.takeWhile (· ≠ 0)).take 63 := by
  generalize hw : (keyStr.takeWhile (· ≠ 0)).take 63 = w
  have hlength : w.length ≤ 63 := by
    rw [← hw]
    exact List.length_take_le ..
  have hchars : ∀ c ∈ w, c ≠ 0 := by
    intro c hc
    rw [← hw] at hc
    have htaken := List.mem_takeWhile_imp (List.mem_of_mem_take hc)
    simpa using htaken
  have hget : ∀ i (hi : i < 64), strncpyKey keyStr ⟨i, hi⟩ = w.getD i 0 := by
    intro i hi
    rw [← hw]
    simp only [strncpyKey, List.getD_eq_getElem?_getD, List.getElem?_take]
    split <;> rfl
  have hlt : w.length < (List.ofFn (strncpyKey keyStr)).length := by
    rw [List.length_ofFn]
    omega
  have htake : (List.ofFn (strncpyKey keyStr)).take w.length = w := by
    refine List.ext_getElem (by simp; omega) fun i hi hi' => ?_
    rw [List.getElem_take, List.getElem_ofFn, hget i (by omega)]
    simp [hi']
  -- behind the characters there is a zero byte
  have hzero : (List.ofFn (strncpyKey keyStr))[w.length] = 0 := by
    rw [List.getElem_ofFn, hget _ (by omega)]
    simp
  rw [keyString, ← List.take_append_drop w.length (List.ofFn _), htake,
    List.takeWhile_append_of_pos (by simpa using hchars),
    List.drop_eq_getElem_cons hlt, hzero]
  simp

/-! ## Reading a record -/

theorem hexValue_hexDigit : ∀ d < 16, hexValue (hexDigit d) = some d := by
  decide

theorem isSpace_hexDigit : ∀ d < 16, isSpace (hexDigit d) = false := by
  decide

variable {key : Key} {shkey : UInt16} {target : Text}

theorem numeral_word (n : Nat) :
    ∀ c ∈ numeral hexDigit 16 n, isSpace c = false := by
  intro c hc
  obtain ⟨d, hd, rfl⟩ := mem_numeral (by decide) hc
  exact isSpace_hexDigit d hd

/-- A numeral has no sign, no blank and no prefix in front of it. -/
theorem readSign_digit {c : UInt8} {text : Text}
    (h : (hexValue c).isSome = true) :
    readSign (c :: text) = (false, c :: text) := by
  unfold readSign
  split
  · rename_i heq
    cases heq
    simp [hexValue] at h
  · rename_i heq
    cases heq
    simp [hexValue] at h
  · rfl

theorem readHex_numeral (n : Nat) :
    readHex (numeral hexDigit 16 n) = n := by
  have hread : readDigits hexValue 16 (numeral hexDigit 16 n) = n :=
    readDigits_numeral (by decide) hexValue_hexDigit
  unfold readHex
  split
  · rename_i x text heq
    rw [← heq, hread]
    -- the second character is a digit, and not an `x`
    have hmem : x ∈ numeral hexDigit 16 n := by
      rw [heq]
      simp
    obtain ⟨d, hd, hx⟩ := mem_numeral (by decide) hmem
    have hvalue := hexValue_hexDigit d hd
    rw [hx] at hvalue
    rw [if_neg]
    intro hprefix
    rcases hprefix with rfl | rfl <;> simp [hexValue] at hvalue
  · exact hread

/-- **A token is read as the token that was written.** -/
theorem stoull16_numeral (shkey : UInt16) :
    stoull16 (numeral hexDigit 16 shkey.toNat) = some shkey.toNat := by
  have hread := readHex_numeral shkey.toNat
  have hlt := shkey.toNat_lt
  cases hnumeral : numeral hexDigit 16 shkey.toNat with
  | nil => exact absurd hnumeral numeral_ne_nil
  | cons c text =>
      rw [hnumeral] at hread
      have hmem : c ∈ numeral hexDigit 16 shkey.toNat := by
        rw [hnumeral]
        simp
      obtain ⟨d, hd, rfl⟩ := mem_numeral (by decide) hmem
      have hvalue := hexValue_hexDigit d hd
      have hblank := isSpace_hexDigit d hd
      have hsign : readSign (hexDigit d :: text) =
          (false, hexDigit d :: text) := readSign_digit (by rw [hvalue]; rfl)
      simp [stoull16, hblank, hsign, hvalue, hread]
      omega

/-- A line of the file, as a lookup reads it. -/
theorem lineShkey_recordLine (hword : ∀ c ∈ keyString key, isSpace c = false) :
    lineShkey target (recordLine key shkey) =
      if keyString key = target ∧ target ≠ [] then some (some shkey)
      else none := by
  have hnumeral := numeral_word shkey.toNat
  have hne : numeral hexDigit 16 shkey.toNat ≠ [] := numeral_ne_nil
  unfold lineShkey recordLine
  by_cases hempty : keyString key = []
  · rw [hempty, List.nil_append, words_cons (by decide) hne hnumeral]
    simp
  · rw [words_pair (by decide) hempty hword hne hnumeral]
    simp only [stoull16_numeral, Option.map_some]
    by_cases htarget : keyString key = target
    · subst htarget
      simp [hempty]
    · simp [htarget]

/-- A record has no newline in it. -/
theorem newline_not_mem (hword : ∀ c ∈ keyString key, isSpace c = false) :
    newline ∉ recordLine key shkey := by
  intro hmem
  simp only [recordLine, List.mem_append, List.mem_cons] at hmem
  rcases hmem with hkey | hblank | hnumeral
  · exact absurd (hword newline hkey) (by decide)
  · cases hblank
  · exact absurd (numeral_word shkey.toNat newline hnumeral) (by decide)

theorem lines_logOf {records : List (Key × UInt16)}
    (hwords : ∀ r ∈ records, ∀ c ∈ keyString r.1, isSpace c = false) :
    lines newline (logOf records) =
      records.map fun r => recordLine r.1 r.2 := by
  have hlines : ∀ line ∈ records.map fun r => recordLine r.1 r.2,
      newline ∉ line := by
    intro line hline
    obtain ⟨r, hr, rfl⟩ := List.mem_map.mp hline
    exact newline_not_mem (hwords r hr)
  have hread := lines_flatMap hlines
  rwa [List.flatMap_map] at hread

/-- The lines of a file of records, searched for a key. -/
theorem findSome_records {records : List (Key × UInt16)}
    (hwords : ∀ r ∈ records, ∀ c ∈ keyString r.1, isSpace c = false) :
    (records.map fun r => recordLine r.1 r.2).findSome? (lineShkey target) =
      (firstRecord records target).map some := by
  induction records with
  | nil => rfl
  | cons r records ih =>
      have hhead : lineShkey target (recordLine r.1 r.2) = _ :=
        lineShkey_recordLine (hwords r List.mem_cons_self)
      have htail := ih fun r hr => hwords r (List.mem_cons_of_mem _ hr)
      by_cases hr : keyString r.1 = target ∧ target ≠ []
      · simp [hhead, firstRecord, hr]
      · rw [if_neg hr] at hhead
        have hskip : firstRecord (r :: records) target =
            firstRecord records target := by
          simp only [firstRecord, List.find?_cons, decide_eq_false hr]
        rw [hskip, ← htail]
        simp [hhead]

/-- A lookup in a file of records. -/
theorem lookup_logOf {records : List (Key × UInt16)}
    (hwords : ∀ r ∈ records, ∀ c ∈ keyString r.1, isSpace c = false)
    (target : Text) :
    lookupShkeyFromFile (logOf records) target =
      some ((firstRecord records target).getD 0) := by
  rw [lookupShkeyFromFile, lines_logOf hwords, findSome_records hwords]
  cases firstRecord records target <;> rfl

/-! ## Keys from strings -/

/-- A key copied from a word has no blank in it. -/
theorem blank_of_strncpyKey {keyStr : Text}
    (hword : ∀ c ∈ keyStr, isSpace c = false) :
    ∀ c ∈ keyString (strncpyKey keyStr), isSpace c = false := by
  intro c hc
  rw [keyString_strncpyKey] at hc
  exact hword c ((List.takeWhile_sublist _).mem (List.mem_of_mem_take hc))

/-- The calls of `record_shkey_mapping` write a file of records. -/
theorem foldl_recordShkeyMapping (calls : List (Text × UInt16))
    (records : List (Key × UInt16)) :
    calls.foldl (fun log c => recordShkeyMapping log (strncpyKey c.1) c.2)
        (logOf records) =
      logOf (records ++ calls.map fun c => (strncpyKey c.1, c.2)) := by
  induction calls generalizing records with
  | nil => simp
  | cons c calls ih =>
      rw [List.foldl_cons, ← logOf_append, ih]
      simp

/-- **Round trip**: tokens are recorded for some strings without blanks, one
after the other in a new file.  Then a lookup finds the token recorded first
for a string with the same first 63 characters as the one looked up; without
such a record, and for a string that is itself longer, it gives 0, which is the
global key. -/
theorem lookup_recorded (calls : List (Text × UInt16))
    (hwords : ∀ r ∈ calls, ∀ c ∈ r.1, isSpace c = false) (target : Text) :
    lookupShkeyFromFile (calls.foldl (fun log r =>
        recordShkeyMapping log (strncpyKey r.1) r.2) []) target =
      some (((calls.find? fun r => decide
        ((r.1.takeWhile (· ≠ 0)).take 63 = target ∧ target ≠ [])).map
          Prod.snd).getD 0) := by
  have hkeys : ∀ r ∈ calls.map fun r => (strncpyKey r.1, r.2),
      ∀ c ∈ keyString r.1, isSpace c = false := by
    intro r hr
    obtain ⟨call, hcall, rfl⟩ := List.mem_map.mp hr
    exact blank_of_strncpyKey (hwords call hcall)
  have hfile := foldl_recordShkeyMapping calls []
  rw [show logOf [] = [] from rfl, List.nil_append] at hfile
  rw [hfile, lookup_logOf hkeys, firstRecord, List.find?_map, Option.map_map]
  simp only [Function.comp_def, keyString_strncpyKey]

/-- Two tokens of one key and one of another. -/
theorem lookup_recorded_three :
    lookupShkeyFromFile ([([97], 10), ([97], 11), ([98], 12)].foldl
        (fun log r => recordShkeyMapping log (strncpyKey r.1) r.2) []) [97] =
      some 10 :=
  (lookup_recorded _ (by simp [isSpace]) [97]).trans (by decide)

end SHMemora.Ports
