import TypeGraph.Log.Logger

/-!
# The text of groups in log records

What stands in front of the keys of a group is kept as bytes, and the end of the group
takes away as many of them as its beginning has added. With a key of plain characters
nothing of this can be seen: the bytes read as the key (`joinedWord_bytes`), and
behind the group they are what they were (`writeAttr_group`).
-/

namespace TypeGraph

namespace Text

/-- Is the character a byte of its own that can be shown in a bare word? -/
def isPlain (c : Char) : Bool := decide (c.toNat < 0x80) && !needsQuotes c

theorem bytes_append (s t : String) : bytes (s ++ t) = bytes s ++ bytes t := by
  simp [bytes, String.toUTF8, String.toByteArray_append, ByteArray.data_append]

theorem bytes_ofList (cs : List Char) :
    bytes (.ofList cs) = cs.flatMap String.utf8EncodeChar := by
  simp [bytes, String.toUTF8, String.toByteArray_ofList, List.utf8Encode]

theorem utf8EncodeChar_of_lt {c : Char} (h : c.toNat < 0x80) :
    String.utf8EncodeChar c = [UInt8.ofNat c.toNat] := by
  have hle : c.val.toNat ≤ 127 := Nat.le_of_lt_succ h
  simp only [String.utf8EncodeChar, if_pos hle, Char.toNat]

theorem utf8Size_of_lt {c : Char} (h : c.toNat < 0x80) : c.utf8Size = 1 := by
  rw [← String.length_utf8EncodeChar, utf8EncodeChar_of_lt h, List.length_singleton]

theorem leading?_of_lt {c : Char} (h : c.toNat < 0x80) (rest : List UInt8) :
    leading? (UInt8.ofNat c.toNat) rest = some c := by
  have hbyte : (UInt8.ofNat c.toNat).toNat = c.toNat :=
    UInt8.toNat_ofNat_of_lt' (Nat.lt_trans h (by decide))
  have hchar : charOf? 1 c.toNat = some c := by
    have hvalid : c.toNat.isValidChar := c.valid
    have hsame : Char.ofNatAux c.toNat hvalid = c := Char.ext (UInt32.toNat_inj.1 rfl)
    rw [charOf?, dif_pos hvalid, hsame]
    exact if_pos (utf8Size_of_lt h)
  simp only [leading?, hbyte, if_pos h, hchar]

/-- Characters that are bytes of their own are read from their bytes. -/
theorem pieces_bytes {s : String} (h : ∀ c ∈ s.toList, c.toNat < 0x80) :
    pieces (bytes s) = s.toList.map .char := by
  obtain ⟨cs, rfl⟩ : ∃ cs, s = .ofList cs := ⟨s.toList, (String.ofList_toList).symm⟩
  rw [String.toList_ofList] at h ⊢
  rw [bytes_ofList, pieces]
  induction cs with
  | nil => rfl
  | cons c cs ih =>
    obtain ⟨hc, hcs⟩ := List.forall_mem_cons.1 h
    rw [List.flatMap_cons, utf8EncodeChar_of_lt hc, List.singleton_append,
      piecesFrom, leading?_of_lt hc]
    simp only [utf8Size_of_lt hc, Nat.sub_self, ih hcs, List.map_cons]

theorem ofBytes_bytes {s : String} (h : ∀ c ∈ s.toList, c.toNat < 0x80) :
    ofBytes (bytes s) = s := by
  rw [ofBytes, pieces_bytes h, List.map_map]
  exact (congrArg String.ofList (List.map_id _)).trans String.ofList_toList

/-- Is the text made of plain characters? -/
def isPlainText (s : String) : Bool := s.toList.all isPlain

theorem isPlainText_append (s t : String) :
    isPlainText (s ++ t) = (isPlainText s && isPlainText t) := by
  simp [isPlainText]

theorem isPlain_of_isDigit {c : Char} (h : c.isDigit = true) : isPlain c = true := by
  have hdigit : 48 ≤ c.toNat ∧ c.toNat ≤ 57 := by
    rw [Char.isDigit, Bool.and_eq_true, decide_eq_true_iff, decide_eq_true_iff] at h
    exact h
  have hne : ∀ d : Char, d.toNat < 48 ∨ 57 < d.toNat → (c == d) = false := fun d hd => by
    rw [beq_eq_false_iff_ne]
    rintro rfl
    omega
  have hlt : c.toNat < 0x80 := by omega
  have hcontrol : ¬c.toNat < 0x20 := by omega
  simp [isPlain, needsQuotes, hlt, hcontrol, hne ' ' (by decide), hne '=' (by decide),
    hne '"' (by decide)]

theorem isPlainText_toString (n : Nat) : isPlainText (toString n) = true := by
  rw [isPlainText, Nat.toString_eq_ofList_toDigits,
    String.toList_ofList, List.all_eq_true]
  exact fun c hc =>
    isPlain_of_isDigit (Nat.isDigit_of_mem_toDigits (by decide) (by decide) hc)

theorem bare_of_isPlainText {s : String} (h : isPlainText s = true) :
    s.toList.any needsQuotes = false := by
  refine List.any_eq_false.2 fun c hc => ?_
  have hplain := List.all_eq_true.1 h c hc
  rw [isPlain, Bool.and_eq_true, Bool.not_eq_true'] at hplain
  exact Bool.not_eq_true _ ▸ hplain.2

/-- **Plain texts are joined as they are.** -/
theorem joinedWord_bytes {s key : String} (hs : isPlainText s = true)
    (hkey : isPlainText key = true) (hempty : key ≠ "") :
    joinedWord (bytes s) key = s ++ key := by
  have hbytes : ∀ c ∈ s.toList, c.toNat < 0x80 := fun c hc =>
    of_decide_eq_true (Bool.and_eq_true_iff.1 (List.all_eq_true.1 hs c hc)).1
  have hpieces : (pieces (bytes s)).any Piece.needsQuotes = false := by
    rw [pieces_bytes hbytes, List.any_map]
    exact bare_of_isPlainText hs
  have hword : word key = key := by
    rw [word, bare_of_isPlainText hkey, Bool.or_false, if_neg (by simpa using hempty)]
  rw [joinedWord]
  split
  case isTrue hnothing =>
    have hnil : s = "" := by rw [← ofBytes_bytes hbytes, List.isEmpty_iff.1 hnothing]; rfl
    rw [hword, hnil, String.empty_append]
  case isFalse =>
    rw [hpieces, bare_of_isPlainText hkey, ofBytes_bytes hbytes,
      Bool.or_false, Bool.false_or, if_neg (by simpa using hempty)]

end Text

namespace Log

open Text

theorem scopeWithin_bytes (s key : String) :
    scopeWithin (bytes s) key = bytes (s ++ key ++ ".") := by
  rw [bytes_append, bytes_append, scopeWithin]

theorem writeAttr_text {s key : String} (hs : isPlainText s = true)
    (hkey : isPlainText key = true) (hkeyed : key ≠ "")
    (htime : key ≠ "time") (text : String) :
    writeAttr (bytes s) (key, .text text) = ⟨[s ++ key ++ "=" ++ word text],
      bytes s, true⟩ := by
  rw [writeAttr, writeWord, if_neg htime, joinedWord_bytes hs hkey hkeyed]

/-- **A group takes away what it has added**, if its members do. -/
theorem writeAttr_group {s key : String} {attrs : List Attr}
    {words : List String} (hkey : key ≠ "") (hattrs : attrs ≠ [])
    (h : writeAttrs (bytes (s ++ key ++ ".")) attrs =
      ⟨words, bytes (s ++ key ++ "."), true⟩) :
    writeAttr (bytes s) (key, .group attrs) = ⟨words, bytes s, true⟩ := by
  have hlength : (bytes (s ++ key ++ ".")).length - (key.utf8ByteSize + 1) =
      (bytes s).length := by
    rw [bytes_append, bytes_append, List.length_append, List.length_append]
    exact Nat.add_sub_cancel (n := (bytes s).length) (m := key.utf8ByteSize + 1)
  have htake : (bytes (s ++ key ++ ".")).take (bytes s).length = bytes s := by
    rw [String.append_assoc, bytes_append, List.take_left]
  rw [writeAttr, if_neg (by simpa using hattrs), if_neg hkey, scopeWithin_bytes, h]
  dsimp only
  rw [if_pos rfl, hlength, htake]

end Log

end TypeGraph
