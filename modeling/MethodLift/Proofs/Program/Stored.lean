import MethodLift.Program.Literal
import Mathlib.Data.List.TakeWhile

/-!
# Stored literals

A text is stored as its UTF-8 bytes and a zero byte. `Literal.decode?` reads back exactly the texts
that may be stored, whatever follows them: it finds the zero byte that ends a text, since no
character that a text may hold has a zero byte in its encoding.
-/

namespace MethodLift.Literal

variable {bytes body : List UInt8} {s : String} {c : Char}

/-! ## Encoded text -/

/-- The UTF-8 bytes of a text, character by character. -/
def encode (s : String) : List UInt8 := s.toList.flatMap String.utf8EncodeChar

theorem zero_ne_ofNat {n : Nat} (hpos : 0 < n) (hlt : n < 256) : 0 ≠ UInt8.ofNat n := by
  intro h
  have hzero : 0 = n % 256 := congrArg UInt8.toNat h
  omega

/-- Only the null character has a zero byte in its encoding. -/
theorem eq_of_zero_mem_utf8EncodeChar (h : 0 ∈ String.utf8EncodeChar c) : c = '\x00' := by
  by_contra hne
  have hpos : 0 < c.val.toNat :=
    Nat.pos_of_ne_zero fun hval => hne (Char.ext (UInt32.toNat_inj.mp hval))
  -- All bytes of a longer encoding have their highest bit set.
  simp only [String.utf8EncodeChar] at h
  split at h
  · exact zero_ne_ofNat hpos (by omega) (List.mem_singleton.mp h)
  · split at h
    · simp only [List.mem_cons, List.not_mem_nil, or_false] at h
      rcases h with h | h <;> exact zero_ne_ofNat (by omega) (by omega) h
    · split at h
      · simp only [List.mem_cons, List.not_mem_nil, or_false] at h
        rcases h with h | h | h <;> exact zero_ne_ofNat (by omega) (by omega) h
      · simp only [List.mem_cons, List.not_mem_nil, or_false] at h
        rcases h with h | h | h | h <;> exact zero_ne_ofNat (by omega) (by omega) h

/-- The bytes of a text are those of its characters in a row. -/
theorem toByteArray_eq (s : String) : s.toByteArray = ⟨(encode s).toArray⟩ := by
  apply ByteArray.ext
  rw [← String.utf8Encode_toList, List.utf8Encode, List.data_toByteArray]
  rfl

/-- Bytes are valid exactly where they encode a text. -/
theorem fromUTF8?_eq_some_iff : String.fromUTF8? ⟨bytes.toArray⟩ = some s ↔ bytes = encode s := by
  constructor
  · intro h
    unfold String.fromUTF8? at h
    split at h
    · have hbytes : s.toByteArray = ⟨bytes.toArray⟩ := by
        rw [← Option.some.inj h]
        rfl
      rw [toByteArray_eq] at hbytes
      simpa using hbytes.symm
    · cases h
  · rintro rfl
    rw [← toByteArray_eq, String.fromUTF8?, dif_pos s.isValidUTF8]
    rfl

/-! ## The end of a text -/

/-- The first zero byte within a limit ends what stands before it. -/
theorem takeWhile_take_iff {limit : Nat} :
    0 ∈ bytes.take limit ∧ (bytes.take limit).takeWhile (· != 0) = body ↔
      (∃ tail, bytes = body ++ 0 :: tail) ∧ 0 ∉ body ∧ body.length < limit := by
  constructor
  · rintro ⟨hzero, rfl⟩
    have hsplit := List.takeWhile_append_dropWhile (p := (· != 0)) (l := bytes.take limit)
    have hend : ∃ rest, (bytes.take limit).dropWhile (· != 0) = 0 :: rest := by
      cases hdrop : (bytes.take limit).dropWhile (· != 0) with
      | nil => simpa using List.dropWhile_eq_nil_iff.mp hdrop 0 hzero
      | cons b rest =>
        have hhead := List.head?_dropWhile_not (· != 0) (bytes.take limit)
        rw [hdrop] at hhead
        have hb : b = 0 := by simpa using hhead
        exact ⟨rest, by rw [hb]⟩
    obtain ⟨rest, hrest⟩ := hend
    rw [hrest] at hsplit
    refine ⟨⟨rest ++ bytes.drop limit, ?_⟩, ?_, ?_⟩
    · rw [← List.cons_append, ← List.append_assoc, hsplit, List.take_append_drop]
    · intro hmem
      simpa using List.mem_takeWhile_imp hmem
    · have hlength := congrArg List.length hsplit
      have hle := List.length_take_le limit bytes
      rw [List.length_append, List.length_cons] at hlength
      omega
  · rintro ⟨⟨tail, rfl⟩, hbody, hlt⟩
    obtain ⟨k, rfl⟩ := Nat.exists_eq_add_of_lt hlt
    have htake : (body ++ 0 :: tail).take (body.length + k + 1) = body ++ 0 :: tail.take k := by
      rw [Nat.add_assoc, List.take_length_add_append, List.take_succ_cons]
    have hall : ∀ b ∈ body, (b != 0) = true := by
      intro b hb
      simpa using fun hzero : b = 0 => hbody (hzero ▸ hb)
    rw [htake]
    refine ⟨List.mem_append_right _ List.mem_cons_self, ?_⟩
    rw [List.takeWhile_append_of_pos hall]
    simp

/-! ## Stored texts -/

/-- The texts that may be stored: not empty, within the limit with the zero byte behind them, and
without control characters other than tab and line breaks. -/
structure Storable (s : String) : Prop where
  ne_empty : s ≠ ""
  length_le : (encode s).length ≤ 4095
  controls : ∀ c ∈ s.toList, isControl c = true → c = '\t' ∨ c = '\n' ∨ c = '\r'

/-- A text is printable if its only control characters are tabs and line ends. -/
theorem all_isPrintable_iff : s.toList.all isPrintable = true ↔
    ∀ c ∈ s.toList, isControl c = true → c = '\t' ∨ c = '\n' ∨ c = '\r' := by
  rw [List.all_eq_true]
  refine forall₂_congr fun c _ => ?_
  cases hc : isControl c <;> simp [isPrintable, hc, or_assoc]

theorem encode_eq_nil_iff : encode s = [] ↔ s = "" := by
  rw [encode, List.flatMap_eq_nil_iff, ← String.toList_eq_nil_iff, List.eq_nil_iff_forall_not_mem]
  refine forall_congr' fun c => imp_congr_right fun _ => ?_
  rw [← List.length_eq_zero_iff, String.length_utf8EncodeChar, iff_false]
  exact Nat.ne_of_gt c.utf8Size_pos

/-- A text that may be stored has no zero byte. -/
theorem Storable.zero_not_mem (h : Storable s) : 0 ∉ encode s := by
  intro hzero
  obtain ⟨c, hc, hmem⟩ := List.mem_flatMap.mp hzero
  obtain rfl := eq_of_zero_mem_utf8EncodeChar hmem
  simpa using h.controls _ hc (by decide)

/-- What is decoded was stored: the bytes start with the text and a zero. -/
theorem exists_stored_of_decode? (h : decode? bytes = some s) :
    Storable s ∧ ∃ tail, bytes = encode s ++ 0 :: tail := by
  simp only [decode?] at h
  split at h
  · cases h
  · rename_i hfound
    split at h
    · cases h
    · rename_i text htext
      split at h
      · rename_i hprintable
        cases h
        simp only [Bool.or_eq_true, not_or, Bool.not_eq_true', Bool.not_eq_false,
          List.contains_iff_mem, List.isEmpty_iff] at hfound
        have hbody := fromUTF8?_eq_some_iff.mp htext
        obtain ⟨hstored, -, hlt⟩ := takeWhile_take_iff.mp ⟨hfound.1, hbody⟩
        have hne : s ≠ "" := fun hempty => hfound.2 (hbody.trans (encode_eq_nil_iff.mpr hempty))
        exact ⟨⟨hne, Nat.le_of_lt_succ hlt, all_isPrintable_iff.mp hprintable⟩, hstored⟩
      · cases h

/-- What is stored is decoded, whatever comes after it. -/
theorem decode?_encode (h : Storable s) (tail : List UInt8) :
    decode? (encode s ++ 0 :: tail) = some s := by
  have hlt : (encode s).length < maxBytes := Nat.lt_succ_of_le h.length_le
  obtain ⟨hzero, hbody⟩ := takeWhile_take_iff.mpr ⟨⟨tail, rfl⟩, h.zero_not_mem, hlt⟩
  have hne : encode s ≠ [] := fun hnil => h.ne_empty (encode_eq_nil_iff.mp hnil)
  simp only [decode?, hbody]
  rw [if_neg (by simp [hzero, hne]), fromUTF8?_eq_some_iff.mpr rfl]
  exact if_pos (all_isPrintable_iff.mpr h.controls)

/-- Reading bytes gives a text exactly where the bytes start with the text as it is stored and the
text may be stored. So every stored text is read back, whatever follows it, and from other bytes
nothing is read. -/
theorem decodes_stored :
    (∀ bytes s, decode? bytes = some s ↔
      Storable s ∧ ∃ tail, bytes = encode s ++ 0 :: tail) ∧
    (∀ s tail, Storable s → decode? (encode s ++ 0 :: tail) = some s) ∧
    ∀ bytes, (∀ s tail, Storable s → bytes ≠ encode s ++ 0 :: tail) → decode? bytes = none := by
  refine ⟨fun bytes s => ⟨exists_stored_of_decode?, ?_⟩, fun s tail h => decode?_encode h tail, ?_⟩
  · rintro ⟨h, tail, rfl⟩
    exact decode?_encode h tail
  · intro bytes hno
    rw [Option.eq_none_iff_forall_ne_some]
    intro s hs
    obtain ⟨h, tail, htail⟩ := exists_stored_of_decode? hs
    exact hno s tail h htail

/-- A character of two bytes and a line end are stored and read back. -/
theorem decodes_stored_accent :
    Storable "é\n" ∧ decode? [0xC3, 0xA9, 0x0A, 0, 0xFF] = some "é\n" := by
  have h : Storable "é\n" := ⟨by decide, by decide, all_isPrintable_iff.mp (by decide)⟩
  obtain ⟨-, hread, -⟩ := decodes_stored
  exact ⟨h, hread "é\n" [0xFF] h⟩

-- A control character beyond ASCII, a surrogate, and a character that the zero byte cuts off.
example : decode? [0xC2, 0x85, 0] = none ∧ decode? [0xED, 0xA0, 0x80, 0] = none ∧
    decode? [0x61, 0xC3, 0] = none := by decide

end MethodLift.Literal
