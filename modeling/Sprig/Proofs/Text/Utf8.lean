import Mathlib.Tactic.Common
import Sprig.Text.Utf8

/-!
# Reading back the bytes of a text

The bytes of a character tell by the first of them how many there are, and reading puts the
character together from them again. So a text survives being written into a file, and reading it
changes nothing when it holds no carriage return.
-/

namespace Sprig.Text

/-- The bytes of a text. -/
def encode (s : String) : List UInt8 := s.toList.flatMap String.utf8EncodeChar

/-- What a first byte demands, told by its number. -/
theorem lead?_eq (b : UInt8) : lead? b =
    if b.toNat < 0x80 then some ⟨0, 0x80, 0xBF, b.toNat⟩
    else if b.toNat < 0xC2 then none
    else if b.toNat < 0xE0 then some ⟨1, 0x80, 0xBF, b.toNat % 0x20⟩
    else if b.toNat = 0xE0 then some ⟨2, 0xA0, 0xBF, 0⟩
    else if b.toNat = 0xED then some ⟨2, 0x80, 0x9F, 0x0D⟩
    else if b.toNat < 0xF0 then some ⟨2, 0x80, 0xBF, b.toNat % 0x10⟩
    else if b.toNat = 0xF0 then some ⟨3, 0x90, 0xBF, 0⟩
    else if b.toNat < 0xF4 then some ⟨3, 0x80, 0xBF, b.toNat % 0x08⟩
    else if b.toNat = 0xF4 then some ⟨3, 0x80, 0x8F, 0x04⟩
    else none := by
  simp only [lead?, UInt8.lt_iff_toNat_lt, ← UInt8.toNat_inj, UInt8.reduceToNat]

/-- A byte that follows a first one, for six bits of a character. -/
def follower (n : Nat) : UInt8 := UInt8.ofNat (n % 0x40 + 0x80)

theorem toNat_follower (n : Nat) : (follower n).toNat = n % 0x40 + 0x80 := by
  rw [follower, UInt8.toNat_ofNat']
  omega

/-- The second byte may be a follower that the first byte does not rule out. -/
theorem flaw?_second {least greatest : UInt8} {n : Nat} (hleast : least.toNat ≤ n % 0x40 + 0x80)
    (hgreatest : n % 0x40 + 0x80 ≤ greatest.toNat) (count sound : Nat) (bytes : List UInt8) :
    flaw? least greatest (count + 1) sound (follower n :: bytes) =
      flaw? 0x80 0xBF count (sound + 1) bytes := by
  rw [flaw?, if_pos]
  simpa only [UInt8.le_iff_toNat_le, toNat_follower] using ⟨hleast, hgreatest⟩

/-- A byte after the second one may be any follower. -/
theorem flaw?_later (count sound n : Nat) (bytes : List UInt8) :
    flaw? 0x80 0xBF (count + 1) sound (follower n :: bytes) =
      flaw? 0x80 0xBF count (sound + 1) bytes := by
  have := Nat.mod_lt n (y := 0x40) (by decide)
  apply flaw?_second <;> simp only [UInt8.reduceToNat] <;> omega

/-- A character is read once its first byte and its followers are sound. -/
theorem decodeFrom_cons {b : UInt8} {bytes : List UInt8} {lead : Lead} (hlead : lead? b = some lead)
    (hflaw : flaw? lead.least lead.greatest lead.count 1 bytes = none) (offset : Nat)
    (before : List Char) :
    decodeFrom offset before (b :: bytes) = decodeFrom (offset + 1 + lead.count)
      (assemble lead (bytes.take lead.count) :: before) (bytes.drop lead.count) := by
  rw [decodeFrom, hlead]
  dsimp only
  rw [hflaw]

section Leads

/-- The first byte of a character of two bytes. -/
theorem lead?_two {v : Nat} (hlow : 0x7f < v) (hhigh : v ≤ 0x7ff) :
    lead? (UInt8.ofNat (v / 64 % 0x20 + 0xc0)) = some ⟨1, 0x80, 0xBF, v / 64⟩ := by
  rw [lead?_eq, UInt8.toNat_ofNat', Nat.mod_eq_of_lt (by omega), if_neg (by omega),
    if_neg (by omega), if_pos (by omega)]
  congr 2
  omega

/-- The first byte of a character of three bytes. What it demands of the second byte keeps out the
halves of pairs and what two bytes could have held. -/
theorem lead?_three {v : Nat} (hlow : 0x7ff < v) (hhigh : v ≤ 0xffff)
    (hvalid : v < 0xd800 ∨ 0xdfff < v) :
    ∃ least greatest, lead? (UInt8.ofNat (v / 4096 % 0x10 + 0xe0)) =
      some ⟨2, least, greatest, v / 4096⟩ ∧
      least.toNat ≤ v / 64 % 0x40 + 0x80 ∧ v / 64 % 0x40 + 0x80 ≤ greatest.toNat := by
  rw [lead?_eq, UInt8.toNat_ofNat', Nat.mod_eq_of_lt (by omega), if_neg (by omega),
    if_neg (by omega), if_neg (by omega)]
  by_cases hzero : v / 4096 = 0
  · refine ⟨0xA0, 0xBF, ?_, ?_, ?_⟩
    · rw [if_pos (by omega), hzero]
    all_goals simp only [UInt8.reduceToNat]; omega
  · rw [if_neg (by omega)]
    by_cases hlast : v / 4096 = 0xD
    · refine ⟨0x80, 0x9F, ?_, ?_, ?_⟩
      · rw [if_pos (by omega), hlast]
      all_goals simp only [UInt8.reduceToNat]; omega
    · refine ⟨0x80, 0xBF, ?_, ?_, ?_⟩
      · rw [if_neg (by omega), if_pos (by omega)]
        congr 2
        omega
      all_goals simp only [UInt8.reduceToNat]; omega

/-- The first byte of a character of four bytes. What it demands of the second byte keeps out what
three bytes could have held and what is above the last character. -/
theorem lead?_four {v : Nat} (hlow : 0xffff < v) (hvalid : v < 0x110000) :
    ∃ least greatest, lead? (UInt8.ofNat (v / 262144 % 0x08 + 0xf0)) =
      some ⟨3, least, greatest, v / 262144⟩ ∧
      least.toNat ≤ v / 4096 % 0x40 + 0x80 ∧ v / 4096 % 0x40 + 0x80 ≤ greatest.toNat := by
  rw [lead?_eq, UInt8.toNat_ofNat', Nat.mod_eq_of_lt (by omega), if_neg (by omega),
    if_neg (by omega), if_neg (by omega), if_neg (by omega), if_neg (by omega), if_neg (by omega)]
  by_cases hzero : v / 262144 = 0
  · refine ⟨0x90, 0xBF, ?_, ?_, ?_⟩
    · rw [if_pos (by omega), hzero]
    all_goals simp only [UInt8.reduceToNat]; omega
  · rw [if_neg (by omega)]
    by_cases hlast : v / 262144 = 4
    · refine ⟨0x80, 0x8F, ?_, ?_, ?_⟩
      · rw [if_neg (by omega), if_pos (by omega), hlast]
      all_goals simp only [UInt8.reduceToNat]; omega
    · refine ⟨0x80, 0xBF, ?_, ?_, ?_⟩
      · rw [if_pos (by omega)]
        congr 2
        omega
      all_goals simp only [UInt8.reduceToNat]; omega

end Leads

/-- A first byte and its followers make the character whose bits they hold. -/
theorem assemble_eq {c : Char} {lead : Lead} {followers : List UInt8}
    (h : followers.foldl (fun n b => n * 0x40 + b.toNat % 0x40) lead.bits = c.toNat) :
    assemble lead followers = c := by
  rw [assemble, h, Char.ofNat_toNat]

/-- The bytes of a character are read as that character. -/
theorem decodeFrom_char (offset : Nat) (before : List Char) (c : Char) (bytes : List UInt8) :
    decodeFrom offset before (String.utf8EncodeChar c ++ bytes) =
      decodeFrom (offset + (String.utf8EncodeChar c).length) (c :: before) bytes := by
  have hvalid : c.toNat < 0xd800 ∨ 0xdfff < c.toNat ∧ c.toNat < 0x110000 := c.valid
  have hval : c.val.toNat = c.toNat := rfl
  fun_cases String.utf8EncodeChar with
  | case1 v h =>
      have hlead : lead? (UInt8.ofNat v) = some ⟨0, 0x80, 0xBF, v⟩ := by
        rw [lead?_eq, UInt8.toNat_ofNat', Nat.mod_eq_of_lt (by omega), if_pos (by omega)]
      have hchar : assemble ⟨0, 0x80, 0xBF, v⟩ [] = c := assemble_eq hval
      exact (decodeFrom_cons hlead rfl offset before).trans (by rw [← hchar]; rfl)
  | case2 v h h' =>
      have hlead := lead?_two (v := v) (by omega) h'
      have hflaw : flaw? 0x80 0xBF 1 1 (follower v :: bytes) = none := by rw [flaw?_later, flaw?]
      have hchar : assemble ⟨1, 0x80, 0xBF, v / 64⟩ [follower v] = c := by
        apply assemble_eq
        simp only [List.foldl_cons, List.foldl_nil, toNat_follower]
        omega
      exact (decodeFrom_cons hlead hflaw offset before).trans (by rw [← hchar]; rfl)
  | case3 v h h' h'' =>
      obtain ⟨least, greatest, hlead, hleast, hgreatest⟩ :=
        lead?_three (v := v) (by omega) h'' (by omega)
      have hflaw : flaw? least greatest 2 1 (follower (v / 64) :: follower v :: bytes) = none := by
        rw [flaw?_second hleast hgreatest, flaw?_later, flaw?]
      have hchar : assemble ⟨2, least, greatest, v / 4096⟩ [follower (v / 64), follower v] = c := by
        apply assemble_eq
        simp only [List.foldl_cons, List.foldl_nil, toNat_follower]
        omega
      exact (decodeFrom_cons hlead hflaw offset before).trans (by rw [← hchar]; rfl)
  | case4 v h h' h'' =>
      obtain ⟨least, greatest, hlead, hleast, hgreatest⟩ :=
        lead?_four (v := v) (by omega) (by omega)
      have hflaw : flaw? least greatest 3 1
          (follower (v / 4096) :: follower (v / 64) :: follower v :: bytes) = none := by
        rw [flaw?_second hleast hgreatest, flaw?_later, flaw?_later, flaw?]
      have hchar : assemble ⟨3, least, greatest, v / 262144⟩
          [follower (v / 4096), follower (v / 64), follower v] = c := by
        apply assemble_eq
        simp only [List.foldl_cons, List.foldl_nil, toNat_follower]
        omega
      exact (decodeFrom_cons hlead hflaw offset before).trans (by rw [← hchar]; rfl)

/-- The bytes of characters are read as these characters. -/
theorem decodeFrom_chars (offset : Nat) (before cs : List Char) :
    decodeFrom offset before (cs.flatMap String.utf8EncodeChar) = .ok (before.reverse ++ cs) := by
  induction cs generalizing offset before with
  | nil => rw [List.flatMap_nil, decodeFrom, List.append_nil]
  | cons c cs ih =>
      rw [List.flatMap_cons, decodeFrom_char, ih, List.reverse_cons, List.append_assoc]
      rfl

/-- A text is read back from its bytes. -/
theorem decode_encode (s : String) : decode (encode s) = .ok s := by
  rw [decode, encode, decodeFrom_chars]
  exact congrArg Except.ok String.ofList_toList

/-- Ends of lines are left alone in characters without a carriage return. -/
theorem unifyLines_of_notMem (before : List Char) {cs : List Char} (h : '\r' ∉ cs) :
    unifyLines before cs = before.reverse ++ cs := by
  induction cs generalizing before with
  | nil => simp [unifyLines]
  | cons c cs ih =>
      obtain ⟨hc, hcs⟩ := List.ne_and_not_mem_of_not_mem_cons h
      rw [unifyLines, ih _ hcs, if_neg (Ne.symm hc), List.reverse_cons, List.append_assoc]
      · rfl
      · intro rest heq
        exact absurd heq.symm hc

/-- A text without a carriage return is left alone. -/
theorem withLineFeeds_of_notMem {s : String} (h : '\r' ∉ s.toList) : withLineFeeds s = s := by
  rw [withLineFeeds, unifyLines_of_notMem [] h]
  exact String.ofList_toList

end Sprig.Text
