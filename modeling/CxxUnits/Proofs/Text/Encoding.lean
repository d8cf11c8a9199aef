import CxxUnits.Text.Offset

/-!
The UTF-8 bytes of a text, as a list. Decoding gives the text back, and a byte below 128
stands for a character of its own and is no part of any other, so that a search for such
a character may as well be made among the bytes.
-/
namespace CxxUnits.Text

def encode (cs : List Char) : List UInt8 :=
  cs.flatMap String.utf8EncodeChar

@[simp] theorem encode_nil : encode [] = [] := rfl

theorem encode_cons (c : Char) (cs : List Char) :
    encode (c :: cs) = String.utf8EncodeChar c ++ encode cs := rfl

@[simp] theorem encode_append (cs ds : List Char) : encode (cs ++ ds) = encode cs ++ encode ds :=
  List.flatMap_append

@[simp] theorem length_encode (cs : List Char) : (encode cs).length = byteLength cs := by
  induction cs with
  | nil => rfl
  | cons c cs ih =>
      rw [encode_cons, List.length_append, String.length_utf8EncodeChar, ih, byteLength_cons]

theorem encode_eq_nil_iff {cs : List Char} : encode cs = [] ↔ cs = [] := by
  cases cs <;> simp [encode_cons]

private theorem toList_loop (bytes : ByteArray) (n : Nat) (read : List UInt8) :
    ByteArray.toList.loop bytes n read = read.reverse ++ bytes.data.toList.drop n := by
  fun_induction ByteArray.toList.loop bytes n read with
  | case1 n read hn ih =>
      have hlength : n < bytes.data.toList.length := by simpa using hn
      rw [ih, List.drop_eq_getElem_cons hlength]
      simp [ByteArray.get!, hn]
  | case2 n read hn =>
      rw [List.drop_eq_nil_of_le (by simpa using hn), List.append_nil]

theorem toList_toByteArray (bytes : List UInt8) : bytes.toByteArray.toList = bytes := by
  rw [ByteArray.toList, toList_loop]
  simp

theorem toByteArray_encode (cs : List Char) :
    (encode cs).toByteArray = (String.ofList cs).toByteArray := by
  rw [String.toByteArray_ofList]
  rfl

theorem toList_toUTF8 (text : String) : text.toUTF8.toList = encode text.toList := by
  rw [String.toUTF8_eq_toByteArray, ← String.ofList_toList (s := text), ← toByteArray_encode,
    toList_toByteArray, String.toList_ofList]

theorem fromUTF8?_encode (cs : List Char) :
    String.fromUTF8? (encode cs).toByteArray = some (String.ofList cs) := by
  rw [toByteArray_encode, String.fromUTF8?, dif_pos (String.isValidUTF8 _)]
  rfl

theorem encode_injective {cs ds : List Char} (h : encode cs = encode ds) : cs = ds := by
  have hdecoded := fromUTF8?_encode cs
  rw [h, fromUTF8?_encode, Option.some.injEq] at hdecoded
  exact (String.ofList_injective hdecoded).symm

theorem utf8EncodeChar_of_lt {c : Char} (hc : c.toNat < 128) :
    String.utf8EncodeChar c = [UInt8.ofNat c.toNat] :=
  if_pos (Nat.le_of_lt_succ hc)

theorem le_of_mem_utf8EncodeChar {c : Char} {b : UInt8} (hc : ¬c.toNat < 128)
    (h : b ∈ String.utf8EncodeChar c) : 128 ≤ b.toNat := by
  have hlarge : ¬c.val.toNat ≤ 127 := fun hle => hc (Nat.lt_succ_of_le hle)
  simp only [String.utf8EncodeChar, if_neg hlarge] at h
  split at h
  · simp only [List.mem_cons, List.not_mem_nil, or_false] at h
    rcases h with rfl | rfl <;> simp <;> omega
  · split at h
    · simp only [List.mem_cons, List.not_mem_nil, or_false] at h
      rcases h with rfl | rfl | rfl <;> simp <;> omega
    · simp only [List.mem_cons, List.not_mem_nil, or_false] at h
      rcases h with rfl | rfl | rfl | rfl <;> simp <;> omega

/-- A byte below 128 is the whole encoding of one character and in no other. -/
theorem mem_utf8EncodeChar_iff {c : Char} (hc : c.toNat < 128) (d : Char) :
    UInt8.ofNat c.toNat ∈ String.utf8EncodeChar d ↔ c = d := by
  have hbyte : (UInt8.ofNat c.toNat).toNat = c.toNat := by
    simp
    omega
  by_cases hd : d.toNat < 128
  · rw [utf8EncodeChar_of_lt hd, List.mem_singleton]
    constructor
    · intro h
      have hnat := congrArg UInt8.toNat h
      rw [hbyte, UInt8.toNat_ofNat', Nat.mod_eq_of_lt (by omega)] at hnat
      exact Char.toNat_inj.1 hnat
    · rintro rfl
      rfl
  · constructor
    · intro h
      have := le_of_mem_utf8EncodeChar hd h
      omega
    · rintro rfl
      contradiction

theorem mem_encode_iff {c : Char} (hc : c.toNat < 128) (cs : List Char) :
    UInt8.ofNat c.toNat ∈ encode cs ↔ c ∈ cs := by
  simp [encode, mem_utf8EncodeChar_iff hc]

end CxxUnits.Text
