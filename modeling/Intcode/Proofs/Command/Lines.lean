import Intcode.Command.Session

/-!
# Lines of text

Standard input is cut into lines while it is still bytes, and a line is decoded when it is read. A
newline is a single byte in UTF-8, and so is a carriage return, and neither byte is part of another
character. So for an input that is the UTF-8 encoding of a text, to cut the bytes is to cut the text
(`inputLines_of_decodeText?`), and every line of it can be decoded.
-/

namespace Intcode.Command

/-! ## UTF-8 -/

/-- The bytes that characters are encoded as. -/
def encodeText (cs : List Char) : List UInt8 :=
  cs.flatMap String.utf8EncodeChar

/-- The bytes of a text. -/
def utf8 (text : String) : List UInt8 :=
  encodeText text.toList

theorem toByteArray_eq (text : String) : text.toByteArray = (utf8 text).toByteArray :=
  String.utf8Encode_toList.symm

theorem toList_loop_eq (bytes : ByteArray) (i : Nat) (front : List UInt8) :
    ByteArray.toList.loop bytes i front = front.reverse ++ bytes.data.toList.drop i := by
  induction i, front using ByteArray.toList.loop.induct bytes with
  | case1 i front hlt ih =>
    have hbyte : bytes.get! i = bytes.data.toList[i] := getElem!_pos bytes.data i hlt
    rw [ByteArray.toList.loop, if_pos hlt, ih, List.reverse_cons, List.append_assoc,
      List.singleton_append, hbyte, ← List.drop_eq_getElem_cons]
  | case2 i front hge =>
    have hdrop : bytes.data.toList.drop i = [] := List.drop_eq_nil_of_le (Nat.not_lt.mp hge)
    rw [ByteArray.toList.loop, if_neg hge, hdrop, List.append_nil]

theorem toList_toUTF8 (text : String) : text.toUTF8.toList = utf8 text := by
  have hbytes : text.toUTF8 = (utf8 text).toByteArray := toByteArray_eq text
  rw [hbytes, ByteArray.toList, toList_loop_eq, List.data_toByteArray]
  rfl

/-- Bytes decode to the text whose bytes they are. -/
theorem decodeText?_eq_some_iff {bytes : List UInt8} {text : String} :
    decodeText? bytes = some text ↔ bytes = utf8 text := by
  have hbytes : ByteArray.mk bytes.toArray = bytes.toByteArray :=
    ByteArray.ext List.data_toByteArray.symm
  rw [decodeText?, hbytes, String.fromUTF8?, ← List.toByteArray_inj, ← toByteArray_eq]
  constructor
  · intro h
    split at h
    · rw [← Option.some.inj h]
      rfl
    · cases h
  · intro h
    have hvalid : bytes.toByteArray.IsValidUTF8 := h ▸ text.isValidUTF8
    rw [dif_pos hvalid]
    exact congrArg some (String.toByteArray_inj.mp h)

/-- An ASCII character is encoded as its code. -/
theorem utf8EncodeChar_of_lt {c : Char} (h : c.toNat < 128) :
    String.utf8EncodeChar c = [UInt8.ofNat c.toNat] := by
  rw [String.utf8EncodeChar]
  exact if_pos (by show c.toNat ≤ 127; omega)

/-- No other character is encoded with a byte that is an ASCII code. -/
theorem le_of_mem_utf8EncodeChar {c : Char} {byte : UInt8} (hc : 128 ≤ c.toNat)
    (h : byte ∈ String.utf8EncodeChar c) : 128 ≤ byte.toNat := by
  have hval : 128 ≤ c.val.toNat := hc
  simp only [String.utf8EncodeChar] at h
  split at h
  · omega
  · -- every byte of a longer encoding has its highest bit set
    split at h
    · simp only [List.mem_cons, List.not_mem_nil, or_false] at h
      rcases h with rfl | rfl <;> simp only [UInt8.toNat_ofNat'] <;> omega
    · split at h
      · simp only [List.mem_cons, List.not_mem_nil, or_false] at h
        rcases h with rfl | rfl | rfl <;> simp only [UInt8.toNat_ofNat'] <;> omega
      · simp only [List.mem_cons, List.not_mem_nil, or_false] at h
        rcases h with rfl | rfl | rfl | rfl <;> simp only [UInt8.toNat_ofNat'] <;> omega

/-- An ASCII character is the only one whose encoding has its code in it. -/
theorem code_mem_utf8EncodeChar {c k : Char} (hk : k.toNat < 128)
    (h : UInt8.ofNat k.toNat ∈ String.utf8EncodeChar c) : c = k := by
  have hcode : (UInt8.ofNat k.toNat).toNat = k.toNat := by
    rw [UInt8.toNat_ofNat']
    omega
  by_cases hc : c.toNat < 128
  · rw [utf8EncodeChar_of_lt hc, List.mem_singleton] at h
    have hcode' : (UInt8.ofNat c.toNat).toNat = c.toNat := by
      rw [UInt8.toNat_ofNat']
      omega
    exact Char.toNat_inj.mp (by rw [← hcode', ← h, hcode])
  · have hhigh := le_of_mem_utf8EncodeChar (by omega) h
    omega

/-! ## Cutting -/

/-- What does not hold the separator belongs to the first piece. -/
theorem splitOn_append_of_not_mem {α : Type} [BEq α] [LawfulBEq α] {x : α} {xs : List α}
    (h : x ∉ xs) (ys : List α) :
    (xs ++ ys).splitOn x = (ys.splitOn x).modifyHead (xs ++ ·) := by
  induction xs with
  | nil =>
    show _ = (ys.splitOn x).modifyHead id
    rw [List.modifyHead_id]
    rfl
  | cons y xs ih =>
    rw [List.mem_cons, not_or] at h
    have hbeq : (y == x) = false := beq_false_of_ne (Ne.symm h.1)
    rw [List.cons_append, List.splitOn_cons_eq_if_modifyHead, hbeq, if_neg Bool.false_ne_true,
      ih h.2, List.modifyHead_modifyHead]
    rfl

/-- To cut the encoding of a text at a newline is to cut the text. -/
theorem splitOn_encodeText (cs : List Char) :
    (encodeText cs).splitOn 10 = (cs.splitOn '\n').map encodeText := by
  induction cs with
  | nil => rfl
  | cons c cs ih =>
    rw [encodeText, List.flatMap_cons, List.splitOn_cons_eq_if_modifyHead]
    by_cases hc : c = '\n'
    · subst hc
      rw [if_pos (beq_self_eq_true _), List.map_cons, ← ih]
      exact List.splitOn_append_cons_self [] (encodeText cs)
    · have hnot : (10 : UInt8) ∉ String.utf8EncodeChar c :=
        fun h => hc (code_mem_utf8EncodeChar (k := '\n') (by decide) h)
      have hcut : (String.utf8EncodeChar c ++ encodeText cs).splitOn 10 = _ :=
        splitOn_append_of_not_mem hnot _
      rw [if_neg (by simpa using hc), ← encodeText, hcut, ih]
      cases cs.splitOn '\n' <;> rfl

/-- Drops a carriage return at the end of a line of text. -/
def dropCarriage (line : List Char) : List Char :=
  if line.getLast? = some '\r' then line.dropLast else line

theorem encodeText_concat (cs : List Char) (c : Char) :
    encodeText (cs ++ [c]) = encodeText cs ++ String.utf8EncodeChar c := by
  rw [encodeText, List.flatMap_append, List.flatMap_singleton]
  rfl

/-- A carriage return is the last byte of a line if it is the last character. -/
theorem dropReturn_encodeText (line : List Char) :
    dropReturn (encodeText line) = encodeText (dropCarriage line) := by
  rcases List.eq_nil_or_concat line with rfl | ⟨cs, c, rfl⟩
  · rfl
  · rw [List.concat_eq_append]
    have hlast : (encodeText (cs ++ [c])).getLast? = (String.utf8EncodeChar c).getLast? := by
      rw [encodeText_concat, List.getLast?_append,
        List.getLast?_eq_some_getLast String.utf8EncodeChar_ne_nil, Option.some_or]
    rw [dropReturn, dropCarriage, hlast, List.getLast?_concat]
    by_cases hc : c = '\r'
    · subst hc
      have hbyte : (String.utf8EncodeChar '\r').getLast? = some 13 := rfl
      rw [if_pos hbyte, if_pos rfl, List.dropLast_concat, encodeText_concat]
      exact List.dropLast_concat
    · have hnot : (String.utf8EncodeChar c).getLast? ≠ some 13 := fun h =>
        hc (code_mem_utf8EncodeChar (k := '\r') (by decide) (List.mem_of_getLast? h))
      rw [if_neg hnot, if_neg fun h => hc (Option.some.inj h)]

theorem encodeText_eq_nil_iff {cs : List Char} : encodeText cs = [] ↔ cs = [] := by
  cases cs with
  | nil => exact ⟨fun _ => rfl, fun _ => rfl⟩
  | cons c cs => simp [encodeText]

/-- The lines of a text. Each ends with a newline, and a carriage return in front of that is part of the
line's end; what follows the last newline is a line if it is not empty. -/
def linesOf (text : String) : List String :=
  let pieces := text.toList.splitOn '\n'
  let complete := pieces.dropLast.map dropCarriage
  match pieces.getLast? with
  | none | some [] => complete.map String.ofList
  | some last => (complete ++ [last]).map String.ofList

/-- The lines of an input that is a text are the encodings of the lines of the text. -/
theorem inputLines_of_decodeText? {bytes : List UInt8} {text : String}
    (h : decodeText? bytes = some text) :
    inputLines bytes = (linesOf text).map utf8 := by
  have hpieces : bytes.splitOn 10 = (text.toList.splitOn '\n').map encodeText := by
    rw [decodeText?_eq_some_iff.mp h, utf8, splitOn_encodeText]
  have hcomplete : ((text.toList.splitOn '\n').map encodeText).dropLast.map dropReturn =
      ((text.toList.splitOn '\n').dropLast.map dropCarriage).map encodeText := by
    rw [← List.map_dropLast, List.map_map, List.map_map]
    exact List.map_congr_left fun line _ => dropReturn_encodeText line
  have htext (pieces : List (List Char)) :
      (pieces.map String.ofList).map utf8 = pieces.map encodeText := by
    rw [List.map_map]
    exact List.map_congr_left fun piece _ => congrArg encodeText String.toList_ofList
  rw [inputLines, linesOf, hpieces, hcomplete, List.getLast?_map]
  rcases hlast : (text.toList.splitOn '\n').getLast? with _ | last
  · exact (htext _).symm
  · cases last with
    | nil => exact (htext _).symm
    | cons c cs =>
      have hne : encodeText (c :: cs) ≠ [] := fun h => by cases encodeText_eq_nil_iff.mp h
      rcases hencoded : encodeText (c :: cs) with _ | ⟨byte, bytes⟩
      · exact absurd hencoded hne
      · simp only [Option.map_some, hencoded, htext, List.map_append, List.map_cons, List.map_nil,
          utf8, String.toList_ofList]

end Intcode.Command
