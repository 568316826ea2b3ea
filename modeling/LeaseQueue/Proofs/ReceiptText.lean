import LeaseQueue.Receipt
import LeaseQueue.Proofs.Text.Numeral

/-
  The text of a receipt: every receipt comes back from its own, and no other
  texts are read than those of the grammar.

  A text is read in layers: base64, UTF-8, three fields between colons, and a
  numeral in each. `Reads` is the grammar with the answer to every text that
  falls short of it, one case for each layer that it can fail at, in order; the
  numbers are what the fields stand for (`Numeral.Denotes`). Writing makes a text
  of the grammar, so reading it back is one case of it.
-/

namespace LeaseQueue.Receipt

open Numeral (Denotes)

variable {text : String} {plain : String} {bytes : List UInt8} {r : Receipt}

/-! ## Bytes -/

theorem toList_loop (b : ByteArray) (i : Nat) (acc : List UInt8) :
    ByteArray.toList.loop b i acc = acc.reverse ++ b.data.toList.drop i := by
  fun_induction ByteArray.toList.loop b i acc with
  | case1 i acc hlt ih =>
    have hlength : i < b.data.toList.length := hlt
    have hget : b.get! i = b.data.toList[i] := getElem!_pos b.data i hlt
    rw [ih, List.drop_eq_getElem_cons hlength, hget, List.reverse_cons, List.append_assoc]
    rfl
  | case2 i acc hle =>
    rw [List.drop_eq_nil_of_le (Nat.le_of_not_lt hle), List.append_nil]

theorem toList_eq_iff {b : ByteArray} : b.toList = bytes ↔ b = bytes.toByteArray := by
  have hlist : b.toList = b.data.toList := by rw [ByteArray.toList, toList_loop]; rfl
  rw [hlist]
  constructor
  · rintro rfl
    ext1
    simp
  · rintro rfl
    simp

/-- Bytes are the UTF-8 form of a text exactly if they are read as it. -/
theorem fromUTF8?_eq_some_iff :
    String.fromUTF8? bytes.toByteArray = some plain ↔ bytes = plain.toUTF8.toList := by
  rw [eq_comm (a := bytes), toList_eq_iff, String.fromUTF8?]
  constructor
  · intro h
    split at h
    · cases h
      rfl
    · cases h
  · intro h
    rw [dif_pos (h ▸ plain.isValidUTF8)]
    congr 1
    exact String.toByteArray_inj.1 h.symm

/-! ## Fields -/

theorem pieces_eq_splitOn (separator : Char) (text : List Char) :
    pieces separator text = text.splitOn separator := by
  induction text with
  | nil => rfl
  | cons c rest ih =>
    rw [pieces, List.splitOn_cons_eq_if_modifyHead, ih]
    by_cases hc : c = separator
    · simp [hc]
    · cases hsplit : rest.splitOn separator with
      | nil => exact absurd hsplit (List.splitOn_ne_nil _ _)
      | cons piece more => simp [hc]

variable {field : Field} {radix : Nat} {digits : List Char} {n : UInt64}

theorem readField_eq_ok_iff (hlow : 1 ≤ radix) (hhigh : radix ≤ 16) :
    readField field radix digits = .ok n ↔ Denotes radix digits n := by
  rw [readField]
  by_cases hall : digits.all Numeral.isHexDigit
  · rw [if_pos hall, ← Numeral.read_eq_ok_iff hlow hhigh hall]
    cases Numeral.read radix digits <;> simp
  · rw [if_neg hall]
    exact ⟨(nomatch ·), fun h => absurd (h.all_isHexDigit hlow hhigh) hall⟩

theorem readField_eq_error (hlow : 1 ≤ radix) (hhigh : radix ≤ 16)
    (h : ∀ n, ¬ Denotes radix digits n) :
    readField field radix digits = .error (.field field) := by
  have hnone : ∀ n, readField field radix digits ≠ .ok n := fun n hn =>
    h n ((readField_eq_ok_iff hlow hhigh).1 hn)
  rw [readField] at hnone ⊢
  by_cases hall : digits.all Numeral.isHexDigit
  · rw [if_pos hall] at hnone ⊢
    cases hread : Numeral.read radix digits with
    | ok n => exact absurd (by rw [hread]) (hnone n)
    | error fault => rfl
  · rw [if_neg hall]

/-! ## The grammar -/

/-- Base64 of the UTF-8 form of a text with these fields between its colons. -/
def Splits (text : String) (fields : List (List Char)) : Prop :=
  ∃ plain : String, text.toList = Base64.standard plain.toUTF8.toList ∧
    plain.toList.splitOn ':' = fields

/-- The answer to a text: a receipt, or the first layer that is not as it should be. -/
inductive Reads (text : String) : Except Fault Receipt → Prop where
  | base64 (strange : ∀ bytes, text.toList ≠ Base64.standard bytes) : Reads text (.error .base64)
  | utf8 (bytes : List UInt8) (standard : text.toList = Base64.standard bytes)
      (strange : ∀ plain : String, bytes ≠ plain.toUTF8.toList) : Reads text (.error .utf8)
  | malformed (fields : List (List Char)) (splits : Splits text fields)
      (number : fields.length ≠ 3) : Reads text (.error (.malformed fields.length))
  | index (index version tag : List Char) (splits : Splits text [index, version, tag])
      (strange : ∀ n, ¬ Denotes 10 index n) : Reads text (.error (.field .index))
  | version (index version tag : List Char) (splits : Splits text [index, version, tag])
      (n : UInt64) (first : Denotes 10 index n)
      (strange : ∀ n, ¬ Denotes 10 version n) : Reads text (.error (.field .version))
  | tag (index version tag : List Char) (splits : Splits text [index, version, tag])
      (n m : UInt64) (first : Denotes 10 index n) (second : Denotes 10 version m)
      (strange : ∀ n, ¬ Denotes 16 tag n) : Reads text (.error (.field .tag))
  | receipt (index version tag : List Char) (splits : Splits text [index, version, tag])
      (r : Receipt) (first : Denotes 10 index r.index) (second : Denotes 10 version r.version)
      (third : Denotes 16 tag r.tag.word) : Reads text (.ok r)

theorem decode_eq_ofPlain (h : text.toList = Base64.standard plain.toUTF8.toList) :
    decode text = ofPlain plain.toList := by
  have hplain := fromUTF8?_eq_some_iff.2 (rfl : plain.toUTF8.toList = plain.toUTF8.toList)
  simp only [decode, Base64.decode_eq_some_iff.2 h, hplain]

theorem decode_of_splits {index version tag : List Char}
    (h : Splits text [index, version, tag]) :
    decode text = do
      let index ← readField .index 10 index
      let version ← readField .version 10 version
      let tag ← readField .tag 16 tag
      return ⟨index, version, ⟨tag⟩⟩ := by
  obtain ⟨plain, hplain, hfields⟩ := h
  rw [decode_eq_ofPlain hplain, ofPlain, pieces_eq_splitOn, hfields]

/-- What the grammar says of a text is the answer to it. -/
theorem decode_eq_of_reads {result : Except Fault Receipt} (h : Reads text result) :
    decode text = result := by
  have ten {field digits n} (h : Denotes 10 digits n) : readField field 10 digits = .ok n :=
    (readField_eq_ok_iff (by decide) (by decide)).2 h
  have notTen {field digits} (h : ∀ n, ¬ Denotes 10 digits n) :
      readField field 10 digits = .error (.field field) :=
    readField_eq_error (by decide) (by decide) h
  cases h with
  | base64 strange =>
    rw [decode, Option.eq_none_iff_forall_ne_some.2 fun bytes hbytes =>
      strange bytes (Base64.decode_eq_some_iff.1 hbytes)]
  | utf8 bytes standard strange =>
    have hnone : String.fromUTF8? bytes.toByteArray = none :=
      Option.eq_none_iff_forall_ne_some.2 fun plain hplain =>
        strange plain (fromUTF8?_eq_some_iff.1 hplain)
    simp only [decode, Base64.decode_eq_some_iff.2 standard, hnone]
  | malformed fields splits number =>
    obtain ⟨plain, hplain, hfields⟩ := splits
    rw [decode_eq_ofPlain hplain, ofPlain, pieces_eq_splitOn, hfields]
    match fields, number with
    | [], _ | [_], _ | [_, _], _ | _ :: _ :: _ :: _ :: _, _ => rfl
  | index index version tag splits strange =>
    rw [decode_of_splits splits, notTen strange]
    rfl
  | version index version tag splits n first strange =>
    rw [decode_of_splits splits, ten first, notTen strange]
    rfl
  | tag index version tag splits n m first second strange =>
    rw [decode_of_splits splits, ten first, ten second,
      readField_eq_error (by decide) (by decide) strange]
    rfl
  | receipt index version tag splits r first second third =>
    rw [decode_of_splits splits, ten first, ten second,
      (readField_eq_ok_iff (by decide) (by decide)).2 third]
    rfl

/-- The grammar has an answer to every text. -/
theorem exists_reads (text : String) : ∃ result, Reads text result := by
  by_cases hbytes : ∃ bytes, text.toList = Base64.standard bytes
  swap
  · exact ⟨_, .base64 fun bytes h => hbytes ⟨bytes, h⟩⟩
  obtain ⟨bytes, hstandard⟩ := hbytes
  by_cases hplain : ∃ plain : String, bytes = plain.toUTF8.toList
  swap
  · exact ⟨_, .utf8 bytes hstandard fun plain h => hplain ⟨plain, h⟩⟩
  obtain ⟨plain, rfl⟩ := hplain
  have hsplits : Splits text (plain.toList.splitOn ':') := ⟨plain, hstandard, rfl⟩
  match hfields : plain.toList.splitOn ':' with
  | [index, version, tag] =>
    rw [hfields] at hsplits
    by_cases hindex : ∃ n, Denotes 10 index n
    swap
    · exact ⟨_, .index index version tag hsplits fun n h => hindex ⟨n, h⟩⟩
    obtain ⟨n, hindex⟩ := hindex
    by_cases hversion : ∃ n, Denotes 10 version n
    swap
    · exact ⟨_, .version index version tag hsplits n hindex fun n h => hversion ⟨n, h⟩⟩
    obtain ⟨m, hversion⟩ := hversion
    by_cases htag : ∃ n, Denotes 16 tag n
    swap
    · exact ⟨_, .tag index version tag hsplits n m hindex hversion fun n h => htag ⟨n, h⟩⟩
    obtain ⟨t, htag⟩ := htag
    exact ⟨_, .receipt index version tag hsplits ⟨n, m, ⟨t⟩⟩ hindex hversion htag⟩
  | [] | [_] | [_, _] | _ :: _ :: _ :: _ :: _ =>
    exact ⟨_, .malformed _ hsplits (by simp [hfields])⟩

/-- A text is answered as the grammar says, and in no other way. -/
theorem decode_eq_iff_reads (text : String) (result : Except Fault Receipt) :
    decode text = result ↔ Reads text result := by
  obtain ⟨answer, hanswer⟩ := exists_reads text
  have h := decode_eq_of_reads hanswer
  exact ⟨fun he => he ▸ h ▸ hanswer, decode_eq_of_reads⟩

-- `+7:0:1`: a sign is no digit.
example : decode "Kzc6MDox" = .error (.field .index) := by decide +kernel

/-! ## Round trips -/

theorem not_mem_of_denotes (hradix : radix ≤ 16) (h : Denotes radix digits n) : ':' ∉ digits :=
  fun hc => absurd (h.digits ':' hc) (by
    have : Numeral.placeOf ':' = 16 := by decide
    omega)

theorem splits_encode (r : Receipt) :
    Splits r.encode [(Numeral.decimal r.index).toList, (Numeral.decimal r.version).toList,
      r.tag.text.toList] := by
  refine ⟨r.plain, ?_, ?_⟩
  · rw [encode, String.toList_ofList, Base64.encode_eq_standard]
  · have hindex := not_mem_of_denotes (by decide) (Numeral.denotes_decimal r.index)
    have hversion := not_mem_of_denotes (by decide) (Numeral.denotes_decimal r.version)
    have htag := not_mem_of_denotes (by decide) (Numeral.denotes_tag r.tag)
    have hplain : r.plain.toList = (Numeral.decimal r.index).toList ++
        ':' :: ((Numeral.decimal r.version).toList ++ ':' :: r.tag.text.toList) := by
      simp [plain]
    rw [hplain, List.splitOn_append_cons_self_of_not_mem hindex,
      List.splitOn_append_cons_self_of_not_mem hversion, List.splitOn_eq_singleton htag]

theorem reads_encode (r : Receipt) : Reads r.encode (.ok r) :=
  .receipt _ _ _ (splits_encode r) r (Numeral.denotes_decimal _) (Numeral.denotes_decimal _)
    (Numeral.denotes_tag _)

theorem decode_encode (r : Receipt) : decode r.encode = .ok r := decode_eq_of_reads (reads_encode r)

/-- Every receipt comes back from its text, so that different receipts have different texts; and the
text written for what any text was read as is read as the same. -/
theorem round_trip :
    (∀ r, decode (encode r) = .ok r) ∧ Function.Injective encode ∧
      ∀ text r, decode text = .ok r → decode (encode r) = .ok r := by
  refine ⟨decode_encode, ?_, fun _ r _ => decode_encode r⟩
  intro r s h
  have hr := decode_encode r
  rw [h, decode_encode s] at hr
  exact (Except.ok.inj hr).symm

/-- A receipt spelled with leading zeros and a capital, `007:0:0AbC`. -/
theorem round_trip_respelled :
    decode "MDA3OjA6MEFiQw==" = .ok ⟨7, 0, ⟨0xabc⟩⟩ ∧
      encode ⟨7, 0, ⟨0xabc⟩⟩ ≠ "MDA3OjA6MEFiQw==" ∧
      decode (encode ⟨7, 0, ⟨0xabc⟩⟩) = .ok ⟨7, 0, ⟨0xabc⟩⟩ :=
  ⟨by decide +kernel, by decide +kernel,
    round_trip.2.2 "MDA3OjA6MEFiQw==" ⟨7, 0, ⟨0xabc⟩⟩ (by decide +kernel)⟩

end LeaseQueue.Receipt
