import Mathlib.Tactic.SplitIfs
import DocLint.FileTree.Access

/-!
# The order of texts in bytes

Texts are compared by the codes of their characters. Their encodings are in the same order (`Text.bytes_lt_bytes`): of
two characters, the one with the higher code has the higher first byte or agrees in the first bytes and is higher in the
next (`Text.utf8EncodeChar_append_lt`).
-/

namespace DocLint
namespace Text

/-- The bytes that a text is written with. -/
def bytes (s : Text) : List UInt8 := s.encode.data.toList

theorem bytes_eq_flatMap (s : Text) : s.bytes = s.flatMap String.utf8EncodeChar := by
  have hencode : s.encode = (s.flatMap String.utf8EncodeChar).toByteArray := rfl
  rw [bytes, hencode, List.data_toByteArray, List.toList_toArray]

theorem bytes_append (s t : Text) : (s ++ t).bytes = s.bytes ++ t.bytes := by
  rw [bytes_eq_flatMap, bytes_eq_flatMap, bytes_eq_flatMap, List.flatMap_append]

theorem bytes_cons (c : Char) (s : Text) : bytes (c :: s) = String.utf8EncodeChar c ++ bytes s := by
  rw [bytes_eq_flatMap, bytes_eq_flatMap, List.flatMap_cons]

theorem ofNat_cons_lt {m n : Nat} {u v : List UInt8} (h : m < n) (hn : n < 256) :
    UInt8.ofNat m :: u < UInt8.ofNat n :: v := by
  rw [List.cons_lt_cons_iff, UInt8.lt_iff_toNat_lt, UInt8.toNat_ofNat', UInt8.toNat_ofNat']
  exact .inl (by omega)

theorem ofNat_cons_lt_of_le {m n : Nat} {u v : List UInt8} (h : m ≤ n) (hn : n < 256) (hrest : m = n → u < v) :
    UInt8.ofNat m :: u < UInt8.ofNat n :: v := by
  rcases Nat.lt_or_eq_of_le h with hlt | heq
  · exact ofNat_cons_lt hlt hn
  · rw [heq, List.cons_lt_cons_iff]
    exact .inr ⟨rfl, hrest heq⟩

/-- The order of two different characters is that of their bytes, whatever follows. -/
theorem utf8EncodeChar_append_lt {c d : Char} (h : c < d) (u v : List UInt8) :
    String.utf8EncodeChar c ++ u < String.utf8EncodeChar d ++ v := by
  have hcode : c.val.toNat < d.val.toNat := UInt32.lt_iff_toNat_lt.1 h
  have hmax : d.val.toNat < 0x110000 := by
    have hvalid := d.valid
    rcases hvalid with hvalid | hvalid <;> omega
  unfold String.utf8EncodeChar
  generalize c.val.toNat = m, d.val.toNat = n at hcode hmax ⊢
  dsimp only
  -- A longer encoding begins with a higher byte; in encodings of one length, the first bytes that differ decide.
  split_ifs
  all_goals repeat' first
    | omega
    | exact ofNat_cons_lt (by omega) (by omega)
    | refine ofNat_cons_lt_of_le (by omega) (by omega) fun _ => ?_

/-- **The order of codes is the order of bytes.** -/
theorem bytes_lt_bytes : ∀ {s t : Text}, s < t → s.bytes < t.bytes
  | _, [], h => absurd h (List.not_lt_nil _)
  | [], d :: t, _ => by
    obtain ⟨byte, rest, hd⟩ := List.exists_cons_of_ne_nil (String.utf8EncodeChar_ne_nil (c := d))
    rw [bytes_cons, hd]
    exact List.nil_lt_cons _ _
  | c :: s, d :: t, h => by
    rw [bytes_cons, bytes_cons]
    rcases List.cons_lt_cons_iff.1 h with hlt | ⟨rfl, hrest⟩
    · exact utf8EncodeChar_append_lt hlt _ _
    · exact List.append_left_lt (bytes_lt_bytes hrest)

end Text
end DocLint
