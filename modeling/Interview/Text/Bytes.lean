/-!
# Texts as bytes

A text is stored as its bytes in UTF-8. Bytes that are no text are shown with a replacement
character for each part that is broken: one byte, or as many as a character could start with.

* `Text.bytes`, `Text.ofBytes?`: the bytes of a text and the text that they make.
* `Text.lossy`: how bytes are shown.
* `Text.ofBytes?_eq_some`: each determines the other.
* `Text.lossy_bytes`: the bytes of a text are shown as the text.
-/

namespace Interview

namespace Text

/-- The bytes of a text in UTF-8. -/
def bytes (s : String) : List UInt8 := s.toList.flatMap String.utf8EncodeChar

/-- The text that has these bytes. -/
def ofBytes? (bs : List UInt8) : Option String := String.fromUTF8? bs.toByteArray

/-- A byte of a character that is not its first. -/
def isContinuation (b : UInt8) : Bool := 0x80 ≤ b && b ≤ 0xBF

/-- Whether the byte can be the second one of a character of three or four bytes that starts with
`lead`. -/
def isSecond (lead b : UInt8) : Bool :=
  if lead == 0xE0 then 0xA0 ≤ b && b ≤ 0xBF
  else if lead == 0xED then 0x80 ≤ b && b ≤ 0x9F
  else if lead == 0xF0 then 0x90 ≤ b && b ≤ 0xBF
  else if lead == 0xF4 then 0x80 ≤ b && b ≤ 0x8F
  else 0xE1 ≤ lead && lead ≤ 0xF3 && isContinuation b

/-- How many bytes after the first belong to the broken part, where no character starts. -/
def broken (lead : UInt8) : List UInt8 → Nat
  | [] => 0
  | b :: bs =>
    if isSecond lead b then
      if 0xF0 ≤ lead && bs.head?.any isContinuation then 2 else 1
    else 0

/-- How bytes are shown, after `skip` of them are left out. -/
def lossyFrom : Nat → List UInt8 → List Char
  | _, [] => []
  | skip + 1, _ :: bs => lossyFrom skip bs
  | 0, b :: bs =>
    match (b :: bs).toByteArray.utf8DecodeChar? 0 with
    | some c => c :: lossyFrom (c.utf8Size - 1) bs
    | none => '\uFFFD' :: lossyFrom (broken b bs) bs

/-- How bytes are shown. -/
def lossy (bs : List UInt8) : String := String.ofList (lossyFrom 0 bs)

/-- A broken character of three bytes, one of four, and a byte that starts none. -/
example : lossy [0x61, 0xE2, 0x82, 0x62, 0xF0, 0x9F, 0x98, 0xC0] = "a\uFFFDb\uFFFD\uFFFD" := by
  decide +kernel

theorem toByteArray_bytes (s : String) : (bytes s).toByteArray = s.toUTF8 := by
  rw [bytes, String.toUTF8_eq_toByteArray, ← String.utf8Encode_toList, List.utf8Encode]

@[simp] theorem bytes_append (s t : String) : bytes (s ++ t) = bytes s ++ bytes t := by
  rw [bytes, String.toList_append, List.flatMap_append, bytes, bytes]

/-- A text and its bytes determine each other. -/
theorem ofBytes?_eq_some {bs : List UInt8} {s : String} : ofBytes? bs = some s ↔ bs = bytes s := by
  have hbytes : bs = bytes s ↔ bs.toByteArray = s.toUTF8 := by
    rw [← toByteArray_bytes]
    refine ⟨congrArg _, fun h => ?_⟩
    simpa using congrArg (fun b : ByteArray => b.data.toList) h
  rw [hbytes, ofBytes?, String.fromUTF8?]
  split
  · rw [Option.some.injEq, String.toUTF8_eq_toByteArray, ← String.toByteArray_inj]
    exact Iff.rfl
  · rename_i h
    simp only [reduceCtorEq, false_iff]
    exact fun heq => h (heq ▸ s.isValidUTF8)

theorem bytes_injective {s t : String} (h : bytes s = bytes t) : s = t :=
  Option.some.inj ((ofBytes?_eq_some.mpr rfl).symm.trans (ofBytes?_eq_some.mpr h))

/-! ## Showing bytes -/

theorem lossyFrom_append (bs cs : List UInt8) :
    lossyFrom bs.length (bs ++ cs) = lossyFrom 0 cs := by
  induction bs with
  | nil => rfl
  | cons b bs ih => exact ih

theorem lossyFrom_flatMap (s : List Char) : lossyFrom 0 (s.flatMap String.utf8EncodeChar) = s := by
  induction s with
  | nil => rfl
  | cons c s ih =>
    obtain ⟨b, bs, hc⟩ := List.exists_cons_of_ne_nil (String.utf8EncodeChar_ne_nil (c := c))
    have hdecode : (b :: (bs ++ s.flatMap String.utf8EncodeChar)).toByteArray.utf8DecodeChar? 0 =
        some c := by
      rw [← List.cons_append, ← hc, ← List.flatMap_cons]
      exact List.utf8DecodeChar?_utf8Encode_cons
    have hsize : c.utf8Size - 1 = bs.length := by
      rw [← String.length_utf8EncodeChar, hc]
      rfl
    rw [List.flatMap_cons, hc, List.cons_append, lossyFrom, hdecode]
    show c :: lossyFrom (c.utf8Size - 1) _ = c :: s
    rw [hsize, lossyFrom_append, ih]

/-- The bytes of a text are shown as the text. -/
theorem lossy_bytes (s : String) : lossy (bytes s) = s := by
  rw [lossy, bytes, lossyFrom_flatMap, String.ofList_toList]

end Text

end Interview
