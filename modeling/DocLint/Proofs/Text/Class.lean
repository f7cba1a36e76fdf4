import DocLint.Text.Class
import DocLint.Proofs.Text

/-!
# Blanks among the classes of characters

The blanks are twenty-five characters (`Text.isBlank_iff`). None of them is a word character
(`Text.isBlank_of_isWordChar`).
-/

namespace DocLint
namespace Text

/-- The blanks. -/
def blanks : Text :=
  ['\t', '\n', '\x0b', '\x0c', '\r', ' ', '\u0085', '\u00a0', '\u1680', '\u2000', '\u2001', '\u2002', '\u2003',
   '\u2004', '\u2005', '\u2006', '\u2007', '\u2008', '\u2009', '\u200a', '\u2028', '\u2029', '\u202f', '\u205f',
   '\u3000']

theorem isBlank_iff {c : Char} : isBlank c = true ↔ c ∈ blanks := by
  constructor
  · intro h
    have hcodes : blanks.map Char.toNat = [0x9, 0xA, 0xB, 0xC, 0xD, 0x20, 0x85, 0xA0, 0x1680, 0x2000, 0x2001, 0x2002,
        0x2003, 0x2004, 0x2005, 0x2006, 0x2007, 0x2008, 0x2009, 0x200A, 0x2028, 0x2029, 0x202F, 0x205F, 0x3000] := rfl
    have hcode : c.toNat ∈ blanks.map Char.toNat := by
      rw [hcodes]
      simp only [isBlank, Bool.or_eq_true, Bool.and_eq_true, decide_eq_true_eq, beq_iff_eq] at h
      simp only [List.mem_cons, List.not_mem_nil, or_false]
      omega
    obtain ⟨d, hd, heq⟩ := List.mem_map.1 hcode
    rwa [← Char.toNat_inj.1 heq]
  · intro h
    have hall : blanks.all isBlank = true := by decide
    exact List.all_eq_true.1 hall c h

/-- A word character is no blank. -/
theorem isBlank_of_isWordChar {c : Char} (h : isWordChar c = true) : isBlank c = false := by
  rw [← Bool.not_eq_true, isBlank_iff]
  intro hc
  have hall : blanks.all (fun c => !isWordChar c) = true := by decide +kernel
  have := List.all_eq_true.1 hall c hc
  rw [h] at this
  cases this

end Text
end DocLint
