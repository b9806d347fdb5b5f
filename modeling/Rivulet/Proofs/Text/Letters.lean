import Mathlib.Data.List.Infix
import Rivulet.Text.Search

/-!
# Letters in lower case

Names of markup are compared without regard to the case of ASCII letters: capital letters are put
in lower case, and all other characters stay as they are.
-/

namespace Rivulet.Text

/-- What is put in lower case stays as it is, or is one of the capital letters. -/
theorem toLower_cases (c : Char) :
    c.toLower = c ∨ ∃ n ∈ List.range 26, c = Char.ofNat ('A'.toNat + n) := by
  by_cases h : 'A'.val ≤ c.val ∧ c.val ≤ 'Z'.val
  · have hlow : 65 ≤ c.toNat := UInt32.le_iff_toNat_le.1 h.1
    have hhigh : c.toNat ≤ 90 := UInt32.le_iff_toNat_le.1 h.2
    have hsum : 'A'.toNat + (c.toNat - 65) = c.toNat := Nat.add_sub_cancel' hlow
    refine .inr ⟨c.toNat - 65, List.mem_range.2 (by omega), ?_⟩
    rw [hsum, Char.ofNat_toNat]
  · exact .inl (dif_neg h)

private theorem toLower_toLower (c : Char) : c.toLower.toLower = c.toLower := by
  obtain h | ⟨n, hn, rfl⟩ := toLower_cases c
  · rw [h, h]
  · revert n
    decide

theorem isAlpha_toLower (c : Char) : c.toLower.isAlpha = c.isAlpha := by
  obtain h | ⟨n, hn, rfl⟩ := toLower_cases c
  · rw [h]
  · revert n
    decide

/-- A letter is one of the characters from the capital A to the small z. -/
theorem isAlpha_cases {c : Char} (h : c.isAlpha = true) :
    ∃ n ∈ List.range 58, c = Char.ofNat ('A'.toNat + n) := by
  have hrange : 65 ≤ c.toNat ∧ c.toNat < 123 := by
    obtain hupper | hlower : c.isUpper = true ∨ c.isLower = true := (Bool.or_eq_true _ _).mp h
    · obtain ⟨hlow, hhigh⟩ : 'A'.val ≤ c.val ∧ c.val ≤ 'Z'.val := of_decide_eq_true hupper
      have hlow : 65 ≤ c.toNat := UInt32.le_iff_toNat_le.1 hlow
      have hhigh : c.toNat ≤ 90 := UInt32.le_iff_toNat_le.1 hhigh
      omega
    · obtain ⟨hlow, hhigh⟩ := Bool.and_eq_true_iff.1 hlower
      have hlow : 97 ≤ c.toNat := UInt32.le_iff_toNat_le.1 (of_decide_eq_true hlow)
      have hhigh : c.toNat ≤ 122 := UInt32.le_iff_toNat_le.1 (of_decide_eq_true hhigh)
      omega
  have hsum : 'A'.toNat + (c.toNat - 65) = c.toNat := Nat.add_sub_cancel' hrange.1
  refine ⟨c.toNat - 65, List.mem_range.2 (by omega), ?_⟩
  rw [hsum, Char.ofNat_toNat]

/-- Letters of both cases take one byte. -/
theorem utf8Size_toLower (c : Char) : c.toLower.utf8Size = c.utf8Size := by
  obtain h | ⟨n, hn, rfl⟩ := toLower_cases c
  · rw [h]
  · revert n
    decide

theorem lowerAscii_lowerAscii (s : List Char) : lowerAscii (lowerAscii s) = lowerAscii s := by
  rw [lowerAscii, lowerAscii, List.map_map]
  exact List.map_congr_left fun c _ => toLower_toLower c

theorem lowerAscii_take (n : Nat) (s : List Char) : lowerAscii (s.take n) = (lowerAscii s).take n :=
  List.map_take

/-- A character in front of the small letters is the lower case of itself only. -/
theorem eq_of_toLower {c d : Char} (hd : d.val < 'a'.val) (h : c.toLower = d) : c = d := by
  by_cases hupper : 'A'.val ≤ c.val ∧ c.val ≤ 'Z'.val
  · have hval : c.toLower.val = c.val + ('a'.val - 'A'.val) := congrArg Char.val (dif_pos hupper)
    have hlow := UInt32.le_iff_toNat_le.1 hupper.1
    have hhigh := UInt32.le_iff_toNat_le.1 hupper.2
    have hsmall := UInt32.lt_iff_toNat_lt.1 hd
    rw [← h, hval, UInt32.toNat_add] at hsmall
    simp only [Char.reduceVal, UInt32.reduceToNat, UInt32.reduceSub, Char.toNat_val, Nat.reducePow]
      at hlow hhigh hsmall
    omega
  · exact (dif_neg hupper).symm.trans h

/-- What starts a closing tag in lower case starts one as it stands. -/
theorem infix_of_lowerAscii {tag s : List Char} (h : '<' :: '/' :: tag <:+: lowerAscii s) :
    ['<', '/'] <:+: s := by
  obtain ⟨t, ht, hlower⟩ := List.infix_map_iff.1 h
  obtain ⟨c, t, rfl, hbracket, hrest⟩ := List.map_eq_cons_iff.1 hlower.symm
  obtain ⟨d, t, rfl, hslash, -⟩ := List.map_eq_cons_iff.1 hrest
  obtain rfl := eq_of_toLower (by decide) hbracket
  obtain rfl := eq_of_toLower (by decide) hslash
  exact List.IsInfix.trans ⟨[], t, rfl⟩ ht

end Rivulet.Text
